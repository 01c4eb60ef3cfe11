import ElispLift.Proofs.Extraction.Arrivals

/-!
# Where parsing fails

A parse that fails names a position. The chart gives the furthest one that an item reached, and the
extraction the last start of a span whose children were refused. Children are refused only for
nonterminals that cover some instruction, so there is an instruction at either position.
-/

namespace ElispLift

namespace Extraction

open Grammar

section

variable {α β : Type} {p : Memory → Prop}

/-- A search that starts from memory that satisfies `p` leaves such memory. -/
def Search.Preserves (p : Memory → Prop) (x : Search α) : Prop :=
  ∀ m a m', p m → x m = some (a, m') → p m'

def Attempt.Preserves (p : Memory → Prop) (x : Attempt α) : Prop :=
  ∀ b : Budget, Search.Preserves p (x b)

namespace Search.Preserves

theorem pure (a : α) : Preserves p (pure a : Search α) := by
  rintro m _ _ hm ⟨⟩
  exact hm

theorem modify {change : Memory → Memory} (h : ∀ m, p m → p (change m)) :
    Preserves p (modify change : Search Unit) := by
  rintro m _ _ hm ⟨⟩
  exact h m hm

theorem bind {x : Search α} {f : α → Search β} (h : Preserves p x) (hf : ∀ a, Preserves p (f a)) :
    Preserves p (x >>= f) := by
  intro m c m'' hm hc
  obtain ⟨⟨a, m'⟩, ha, hc⟩ := Option.bind_eq_some_iff.1 hc
  exact hf a m' c m'' (h m a m' hm ha) hc

end Search.Preserves

namespace Attempt.Preserves

theorem pure (a : α) : Preserves p (pure a : Attempt α) := fun _ => Search.Preserves.pure _

theorem bind {x : Attempt α} {f : α → Attempt β} (h : Preserves p x)
    (hf : ∀ a, Preserves p (f a)) : Preserves p (x >>= f) :=
  fun b => Search.Preserves.bind (h b) fun found => hf found.1 found.2

theorem lift {x : Search α} (h : Search.Preserves p x) : Preserves p (liftM x : Attempt α) :=
  fun b => Search.Preserves.bind (f := fun a => Pure.pure (a, b)) h fun _ => Search.Preserves.pure _

theorem firstOf {f : Nat → Attempt (Option α)} {candidates : List Nat}
    (h : ∀ n ∈ candidates, Preserves p (f n)) : Preserves p (firstOf f candidates) := by
  induction candidates with
  | nil => exact pure none
  | cons n candidates ih =>
    rw [List.forall_mem_cons] at h
    rw [Extraction.firstOf]
    refine bind h.1 fun found => ?_
    cases found with
    | some a => exact pure (some a)
    | none => exact ih h.2

end Attempt.Preserves

end

/-! ### Refused children -/

/-- There is an instruction where children were last refused. -/
def Memory.RejectsInside (size : Nat) (m : Memory) : Prop := ∀ n ∈ m.rejectedAt, n < size

/-- No children of the span are refused, or there is an instruction where it starts. -/
def Refusable (context : Context) (span : Span) : Prop :=
  (∀ children, context.allowsChildren span.kind children span.last = true) ∨
    span.first < context.tokens.size

/-- The spans that are tried for parts may be refused, and rules derive their nonterminal. -/
structure Input.Guarded (input : Input) : Prop where
  parts : ∀ kind isLast pos last, ∀ stop ∈ endsFor input kind isLast pos last,
    Refusable input.context ⟨kind, pos, stop⟩
  rules : ∀ kind, ∀ nr ∈ input.grammar.rulesFor kind, nr.rule.lhs = kind

variable {input : Input} {build : Span → Search (Option Node)} {span : Span} {pos : Nat}
  {children : List Node}

theorem preserves_accept (h : Refusable input.context span) :
    Attempt.Preserves (Memory.RejectsInside input.context.tokens.size)
      (accept input span.kind span.first pos span.last children) := by
  intro b m found m' hm hfound
  unfold accept at hfound
  by_cases hpos : pos = span.last
  · by_cases hallowed : input.context.allowsChildren span.kind children span.last = true
    · simp only [hpos, hallowed, bne_self_eq_false] at hfound
      cases hfound
      exact hm
    · have hfirst := h.resolve_left fun hall => hallowed (hall children)
      simp only [hpos, hallowed, bne_self_eq_false] at hfound
      cases hfound
      rintro n hn
      cases hn
      -- What is kept is the start of this span, or one that was kept before and starts later.
      cases hrejected : m.rejectedAt with
      | none => exact hfirst
      | some r => exact Nat.max_lt.2 ⟨hm r hrejected, hfirst⟩
  · simp only [bne_iff_ne.2 hpos, if_true] at hfound
    cases hfound
    exact hm

theorem preserves_split (hspan : Refusable input.context span)
    (hbuild : ∀ kind isLast pos last, ∀ stop ∈ endsFor input kind isLast pos last,
      Search.Preserves (Memory.RejectsInside input.context.tokens.size)
        (build ⟨kind, pos, stop⟩)) (symbols : List Symbol) (pos : Nat) (children : List Node) :
    Attempt.Preserves (Memory.RejectsInside input.context.tokens.size)
      (split input build span.kind span.first span.last symbols pos children) := by
  induction symbols generalizing pos children with
  | nil =>
    intro b
    rw [split_eq]
    split
    · exact .pure _
    · exact preserves_accept hspan _
  | cons s rest ih =>
    intro b
    rw [split_eq]
    split
    · exact .pure _
    cases s with
    | word text => exact Attempt.Preserves.pure _ _
    | terminal kind =>
      simp only [splitRest]
      cases input.context.tokens[pos]? with
      | none => exact Attempt.Preserves.pure _ _
      | some token =>
        dsimp only
        split
        · exact ih _ _ _
        · exact Attempt.Preserves.pure _ _
    | nonterminal kind =>
      refine Attempt.Preserves.firstOf (fun stop hstop => ?_) _
      refine .bind (.lift (hbuild kind rest.isEmpty pos span.last stop hstop)) fun found => ?_
      cases found with
      | none => exact .pure _
      | some node => exact ih _ _

theorem preserves_tryRules (hspan : Refusable input.context span)
    (hbuild : ∀ kind isLast pos last, ∀ stop ∈ endsFor input kind isLast pos last,
      Search.Preserves (Memory.RejectsInside input.context.tokens.size)
        (build ⟨kind, pos, stop⟩)) {rules : List Rule} (hrules : ∀ r ∈ rules, r.lhs = span.kind) :
    Search.Preserves (Memory.RejectsInside input.context.tokens.size)
      (tryRules input build span rules) := by
  induction rules with
  | nil => exact .pure none
  | cons r rules ih =>
    rw [List.forall_mem_cons] at hrules
    rw [tryRules, hrules.1]
    refine .bind (preserves_split hspan hbuild r.rhs span.first [] ⟨0, 0⟩) fun found => ?_
    obtain ⟨children, budget⟩ := found
    cases children with
    | some children => exact .pure _
    | none =>
      dsimp only
      split
      · exact .bind (.modify fun m hm => hm) fun _ => ih hrules.2
      · exact ih hrules.2

theorem preserves_build (h : input.Guarded) (levels : Nat) (active : List Span)
    (hspan : Refusable input.context span) :
    Search.Preserves (Memory.RejectsInside input.context.tokens.size)
      (Extraction.build input levels active span) := by
  induction levels generalizing active span with
  | zero =>
    intro m found m' hm hfound
    cases hfound
  | succ levels ih =>
    rw [Extraction.build]
    refine .bind (fun m a m' hm ha => ?_) fun m => ?_
    · cases ha
      exact hm
    split
    · exact .pure _
    split
    · exact .pure _
    · have hrules : ∀ r ∈ (input.grammar.rulesFor span.kind).map (·.rule), r.lhs = span.kind :=
        List.forall_mem_map.2 (h.rules span.kind)
      refine .bind (preserves_tryRules hspan
        (fun kind isLast pos last stop hstop => ih _ (h.parts _ _ _ _ _ hstop)) hrules) fun found =>
          .bind (.modify fun m hm => hm) fun _ => .pure _

theorem rejectsInside_run (h : input.Guarded) (hspan : Refusable input.context span) :
    (run input span).2.RejectsInside input.context.tokens.size := by
  have hstart : Memory.start.RejectsInside input.context.tokens.size := by
    simp [Memory.RejectsInside, Memory.start]
  rw [run]
  split
  next found hfound => exact preserves_build h _ _ hspan .start found.1 found.2 hstart hfound
  · exact hstart

/-! ### The grammar of instructions -/

/-- Nothing is asked of the children of what may be empty. -/
theorem allowsChildren_of_optional {kind : Nonterminal} (h : kind ∈ Grammar.optional)
    (context : Context) (children : List Node) (last : Nat) :
    context.allowsChildren kind children last = true := by
  simp only [Grammar.optional, List.mem_cons, List.not_mem_nil, or_false] at h
  rcases h with rfl | rfl | rfl | rfl | rfl | rfl | rfl <;> rfl

/-- A span that is tried and starts behind the last instruction is empty, so its nonterminal derives
the empty sequence. -/
theorem guarded_inputOf {rules : List Rule} {start : Nonterminal} {tokens : List Instruction}
    (hfree : ∀ kind ∈ nullableOf rules, ∀ (context : Context) (children : List Node) (last : Nat),
      context.allowsChildren kind children last = true) :
    (inputOf rules start tokens).Guarded where
  parts kind isLast pos last stop hstop := by
    have hfilled := filled_chartOf rules start tokens
    rcases (mem_endsFor.1 hstop).1 with ⟨hends, -⟩ | ⟨hnullable, -⟩
    · have hderives := (hfilled.records.covered kind pos stop hends).derives
      have hlt := hfilled.ends_lt kind pos stop hends
      rw [List.length_map] at hlt
      rcases Nat.eq_or_lt_of_le hderives.le with rfl | hpos
      · obtain ⟨k, hk, he⟩ := hderives.vanishes rfl (.nonterminal kind) (by simp)
        cases he
        exact .inl fun children => hfree kind hk _ children pos
      · exact .inr (show pos < tokens.toArray.size by rw [List.size_toArray]; omega)
    · exact .inl fun children => hfree kind (isNullable_ofRules.1 hnullable) _ children stop
  rules kind nr hnr := ((numbered_ofRules rules).mem_iff.1 ⟨nr, hnr, rfl⟩).2

end Extraction

namespace Grammar

open Extraction

variable {source tokens : List Instruction} {start : Nonterminal} {failure : ParseFailure}

/-- There is an instruction at the position where a parse fails. -/
theorem exists_near_of_parse (htokens : tokens ≠ [])
    (h : (withExtra (arityRules source)).parse start tokens = .error failure) :
    ∃ n < tokens.length, failure = .near tokens.toArray n := by
  have hsize : 0 < tokens.length := List.length_pos_iff.2 htokens
  rw [Grammar.parse] at h
  dsimp only at h
  split at h
  · split at h
    · cases h
    next memory hrun =>
      have hspan : Refusable ⟨tokens.toArray⟩ ⟨start, 0, tokens.length⟩ :=
        .inr (by simpa using hsize)
      have hguarded : (inputOf (base ++ arityRules source) start tokens).Guarded :=
        guarded_inputOf fun kind hkind => allowsChildren_of_optional (optional_of_nullable hkind)
      have hinside := rejectsInside_run hguarded hspan
      change (run (inputOf (base ++ arityRules source) start tokens) _) = _ at hrun
      rw [hrun] at hinside
      refine ⟨_, ?_, (Except.error.inj h).symm⟩
      cases hrejected : memory.rejectedAt with
      | none => exact Nat.sub_lt hsize Nat.zero_lt_one
      | some n => simpa [inputOf] using hinside n hrejected
  · exact ⟨_, by omega, (Except.error.inj h).symm⟩

end Grammar

end ElispLift
