import ElispLift.Proofs.Extraction.Completeness
import ElispLift.Proofs.Extraction.Ends

/-!
# Where symbols arrive

The ends that are tried for a nonterminal are those of its derivations, the last of them first,
where the chart waits for it. It waits for a nonterminal where an item has come to it: at the
position where the rule began, behind what the symbols before it derive.
-/

namespace ElispLift.Extraction

open Grammar

section

variable (rules : List Rule) (start : Nonterminal) (tokens : List Instruction)

/-- The chart may cover the span. -/
def Covers (span : Span) : Prop :=
  Derives rules (tokens.map (·.kind)) (Passes (Context.allowsSpan ⟨tokens.toArray⟩))
    [.nonterminal span.kind] span.first span.last

/-- The nonterminal is waited for at a position. -/
def Due (kind : Nonterminal) (pos : Nat) : Prop :=
  Awaited start ((ofRules rules).chartOf ⟨tokens.toArray⟩ start) kind pos

/-- The symbols stand behind the dot of an item at a position. -/
def Arrives (symbols : List Symbol) (pos : Nat) : Prop :=
  ∃ item ∈ ((ofRules rules).chartOf ⟨tokens.toArray⟩ start).itemsAt pos, item.rest = symbols

end

variable {rules : List Rule} {start kind : Nonterminal} {tokens : List Instruction}
  {pos stop last : Nat} {rest s : List Symbol} {isLast : Bool} {r : Rule}

theorem filled_chartOf (rules : List Rule) (start : Nonterminal) (tokens : List Instruction) :
    Filled rules (tokens.map (·.kind)) (Context.allowsSpan ⟨tokens.toArray⟩) start
      ((tokens.map (·.kind)).length + 1) ((ofRules rules).chartOf ⟨tokens.toArray⟩ start) :=
  filled_chart _ _ _ _

theorem Due.arrives (h : Due rules start tokens r.lhs pos) (hr : r ∈ rules) :
    Arrives rules start tokens r.rhs pos := by
  obtain ⟨nr, hnr, rfl⟩ := (numbered_ofRules _).mem_iff.2 ⟨hr, rfl⟩
  exact ⟨_, (filled_chartOf rules start tokens).start_mem_of_awaited h nr hnr, rfl⟩

theorem Arrives.due (h : Arrives rules start tokens (.nonterminal kind :: rest) pos) :
    Due rules start tokens kind pos := by
  obtain ⟨item, hitem, hrest⟩ := h
  exact .inr ⟨item, hitem, Item.awaits_iff.2 ⟨_, hrest⟩⟩

/-- Behind what the first symbols derive, the others arrive. -/
theorem Arrives.next (h : Arrives rules start tokens (s ++ rest) pos)
    (hd : Derives rules (tokens.map (·.kind)) (Passes (Context.allowsSpan ⟨tokens.toArray⟩)) s pos
      stop) : Arrives rules start tokens rest stop := by
  obtain ⟨item, hitem, hrest⟩ := h
  have hfilled := filled_chartOf rules start tokens
  have hle : pos ≤ (tokens.map (·.kind)).length := by
    by_contra hlt
    simp [hfilled.itemsAt_eq_nil (i := pos) (by omega)] at hitem
  obtain ⟨item', hitem', hrest', -⟩ :=
    hfilled.exists_advanced hd (hd.le_length hle) hitem hrest
  exact ⟨item', hitem', hrest'⟩

theorem Arrives.token {i : Instruction}
    (h : Arrives rules start tokens (.terminal i.kind :: rest) pos) (hi : tokens[pos]? = some i) :
    Arrives rules start tokens rest (pos + 1) :=
  Arrives.next (s := [.terminal i.kind]) h (.terminal (by simp [hi]) (.nil _))

/-! ### Ends -/

theorem covers_of_mem_endsFor
    (h : stop ∈ endsFor (inputOf rules start tokens) kind isLast pos last) :
    Covers rules tokens ⟨kind, pos, stop⟩ ∧ stop ≤ max pos last ∧
      (isLast = true → stop = last) := by
  obtain ⟨hmem, hlast⟩ := mem_endsFor.1 h
  refine ⟨?_, ?_, hlast⟩
  · rcases hmem with ⟨hends, -⟩ | ⟨hnullable, rfl⟩
    · exact ((filled_chartOf rules start tokens).records.covered _ _ _ hends).derives
    · exact derives_of_nullable (isNullable_ofRules.1 hnullable)
  · rcases hmem with ⟨-, hle⟩ | ⟨-, rfl⟩ <;> omega

theorem endsFor_pairwise (kind : Nonterminal) (isLast : Bool) (pos last : Nat) :
    (endsFor (inputOf rules start tokens) kind isLast pos last).Pairwise (· > ·) := by
  have hrecords := (filled_chartOf rules start tokens).records
  exact endsFor_descending (hrecords.descending kind pos).1 fun q hq =>
    (hrecords.covered _ _ _ hq).derives.le

/-- What is covered from where it is waited for is tried. -/
theorem mem_endsFor_of_covers (isLast : Bool) (h : Due rules start tokens kind pos)
    (hcovers : Covers rules tokens ⟨kind, pos, stop⟩) (hle : stop ≤ last)
    (hlast : isLast = true → stop = last) :
    stop ∈ endsFor (inputOf rules start tokens) kind isLast pos last := by
  have hpos : pos ≤ stop := hcovers.le
  obtain ⟨r, hr, rfl, hrhs, hok⟩ := hcovers.of_single
  dsimp only at hrhs hok
  rcases Nat.eq_or_lt_of_le hpos with rfl | hlt
  · have hnullable := closed_nullableOf r hr (hrhs.vanishes rfl)
    exact mem_endsFor.2 ⟨.inr ⟨isNullable_ofRules.2 hnullable, rfl⟩, hlast⟩
  · have hends := ((filled_chartOf rules start tokens).mem_ends_iff h).2
      ⟨hok hlt, r, hr, rfl, hrhs⟩
    exact mem_endsFor.2 ⟨.inl ⟨hends, hle⟩, hlast⟩

/-- Where the instructions end, nothing is left for a symbol that derives some. -/
theorem stuck_at_last {x : Symbol}
    (h : ∀ kind, x = .nonterminal kind → ∀ q, Covers rules tokens ⟨kind, last, q⟩ → last < q) :
    Stuck (inputOf rules start tokens) last (x :: rest) last := by
  cases x with
  | terminal kind => exact fun token _ hlt => (Nat.lt_irrefl last hlt).elim
  | word text => trivial
  | nonterminal kind =>
    refine List.eq_nil_iff_forall_not_mem.2 fun q hq => ?_
    obtain ⟨hcovers, hle, -⟩ := covers_of_mem_endsFor hq
    have hlt := h kind rfl q hcovers
    omega

end ElispLift.Extraction
