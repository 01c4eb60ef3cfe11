import ElispLift.Parse
import ElispLift.Proofs.Chart.Closure
import ElispLift.Proofs.Grammar.Arity

/-!
# The spans of a chart

The chart finishes only spans that the rules derive, and every span of the start nonterminal that
they derive. A nonterminal that an item waits for is complete in the same way from its position on.
-/

namespace ElispLift

namespace Grammar

variable {rules : List Rule} {word : List OpKind} {allowed : Nonterminal → Nat → Nat → Bool}
  {start : Nonterminal} {i j : Nat}

/-- The rules of `kind` begin at position `i` of the chart. -/
def Awaited (start : Nonterminal) (c : Chart) (kind : Nonterminal) (i : Nat) : Prop :=
  (kind = start ∧ i = 0) ∨ ∃ item ∈ c.itemsAt i, item.awaits kind = true

namespace Filled

variable {n : Nat} {c : Chart}

theorem itemsAt_eq_nil (h : Filled rules word allowed start n c) (hi : n ≤ i) :
    c.itemsAt i = [] := by
  simp [Chart.itemsAt, h.records.size, hi]

/-- Where symbols behind the dot of an item derive the terminals up to `j`, the dot moves past them
to position `j`. -/
theorem exists_advanced (h : Filled rules word allowed start (word.length + 1) c)
    {s : List Symbol} (hs : Derives rules word (Passes allowed) s i j) (hj : j ≤ word.length)
    {item : Item} (hitem : item ∈ c.itemsAt i) {rest : List Symbol}
    (hrest : item.rest = s ++ rest) :
    ∃ item' ∈ c.itemsAt j, item'.rest = rest ∧ item'.lhs = item.lhs ∧
      item'.origin = item.origin := by
  induction hs generalizing item rest with
  | nil i => exact ⟨item, hitem, hrest, rfl, rfl⟩
  | @terminal kind tail i j hk htail ih =>
    have haccepts : item.accepts kind = true := Item.accepts_iff.2 ⟨_, hrest⟩
    have hle := htail.le
    have hmem := h.scanned i (by omega) item hitem kind hk haccepts
    exact ih hj hmem (by simp [Item.advance, hrest])
  | @nonterminal r tail i m j hr hd hok htail ih ih' =>
    have hawaits : item.awaits r.lhs = true := Item.awaits_iff.2 ⟨_, hrest⟩
    have hle := hd.le
    have hle' := htail.le
    have hfollowed := h.followed i (by omega) item hitem
    have hadvanced : item.advance ∈ c.itemsAt m := by
      rcases Nat.eq_or_lt_of_le hle with rfl | hlt
      · -- What derives the empty sequence is passed over at once.
        exact hfollowed.passed r.lhs hawaits (closed_nullableOf r hr (hd.vanishes rfl))
      · obtain ⟨nr, hnr, rfl⟩ := (numbered_ofRules rules).mem_iff.2 ⟨hr, rfl⟩
        obtain ⟨done, hdone, hnone, hlhs, horigin⟩ := ih (by omega)
          (hfollowed.started _ hawaits nr hnr) (List.append_nil _).symm
        change done.lhs = nr.rule.lhs at hlhs
        change done.origin = i at horigin
        have hallowed : allowed done.lhs done.origin m = true := by
          rw [hlhs, horigin]
          exact hok hlt
        have hcompleted := (h.followed m (by omega) done hdone).completed hnone hallowed
          (by omega) item
        rw [hlhs, horigin] at hcompleted
        exact hcompleted hitem hawaits
    exact ih' hj hadvanced (by simp [Item.advance, hrest])

theorem le_of_awaited (h : Filled rules word allowed start (word.length + 1) c)
    {kind : Nonterminal} (hi : Awaited start c kind i) : i ≤ word.length := by
  rcases hi with ⟨-, rfl⟩ | ⟨item, hitem, -⟩
  · exact Nat.zero_le _
  · by_contra hlt
    simp [h.itemsAt_eq_nil (i := i) (by omega)] at hitem

theorem start_mem_of_awaited (h : Filled rules word allowed start (word.length + 1) c)
    {kind : Nonterminal} (hi : Awaited start c kind i) :
    ∀ nr ∈ (ofRules rules).rulesFor kind, Item.start nr i ∈ c.itemsAt i := by
  have hle := h.le_of_awaited hi
  rcases hi with ⟨rfl, rfl⟩ | ⟨item, hitem, hawaits⟩
  · exact h.seeded (Nat.succ_pos _)
  · exact (h.followed i (by omega) item hitem).started kind hawaits

/-- From a position where a nonterminal is waited for, the chart has just the ends that the rules
derive. -/
theorem mem_ends_iff (h : Filled rules word allowed start (word.length + 1) c) {kind : Nonterminal}
    (hi : Awaited start c kind i) :
    j ∈ c.ends.of kind i ↔ Covered rules word allowed kind i j := by
  refine ⟨h.records.covered kind i j, ?_⟩
  rintro ⟨hallowed, r, hr, rfl, hd⟩
  obtain ⟨nr, hnr, rfl⟩ := (numbered_ofRules rules).mem_iff.2 ⟨hr, rfl⟩
  have hj := hd.le_length (h.le_of_awaited hi)
  obtain ⟨done, hdone, hnone, hlhs, horigin⟩ :=
    h.exists_advanced hd hj (h.start_mem_of_awaited hi nr hnr) (List.append_nil _).symm
  change done.lhs = nr.rule.lhs at hlhs
  change done.origin = i at horigin
  have hended := (h.followed j (by omega) done hdone).ended hnone
  rw [hlhs, horigin] at hended
  exact hended hallowed

end Filled

/-! ### Derivations of the instructions -/

/-- What derives nothing is collected, so with these allowed everything on the way is. -/
theorem Derives.of_passes {s : List Symbol}
    (hnull : ∀ kind ∈ nullableOf rules, ∀ i, allowed kind i i = true)
    (h : Derives rules word (Passes allowed) s i j) :
    Derives rules word (fun kind i j => allowed kind i j = true) s i j := by
  induction h with
  | nil i => exact .nil i
  | terminal hk _ ih => exact .terminal hk ih
  | @nonterminal r rest i m j hr hd hok _ ih ih' =>
    refine .nonterminal hr ih ?_ ih'
    rcases Nat.eq_or_lt_of_le hd.le with rfl | hlt
    · exact hnull _ (closed_nullableOf r hr (hd.vanishes rfl)) i
    · exact hok hlt

/-- None of the nonterminals that derive the empty sequence is checked. -/
theorem allowsSpan_of_nullable (source : List Instruction) (context : Context) :
    ∀ kind ∈ nullableOf (base ++ arityRules source), ∀ i, context.allowsSpan kind i i = true := by
  intro kind hkind i
  have hmem := optional_of_nullable hkind
  have hall : ∀ k ∈ optional, k ≠ .exprStmt ∧ k ≠ .setqForm ∧ k ≠ .unaryExprStacked ∧
      k ≠ .saveCurrentBufferForm := by decide
  obtain ⟨h₁, h₂, h₃, h₄⟩ := hall kind hmem
  unfold Context.allowsSpan
  split <;> simp_all

end Grammar

namespace Derivation

open Grammar

/-- A derivation tree of a nonterminal over the instructions from `first` up to `last`, by `rules`,
every constituent of which the surroundings allow. -/
structure Spans (d : Derivation) (rules : List Rule) (context : Context) (kind : Nonterminal)
    (first last : Nat) : Prop where
  symbol_eq : d.symbol = .nonterminal kind
  tokens_eq : d.tokens = (context.tokens.extract first last).toList
  sound : d.Everywhere (Sound rules fun kind i j => context.allowsSpan kind i j = true) first

variable {rules : List Rule} {kind : Nonterminal} {tokens : List Instruction} {i j : Nat}

theorem exists_spans
    (h : Derives rules (tokens.map (·.kind))
      (fun k i j => Context.allowsSpan ⟨tokens.toArray⟩ k i j = true) [.nonterminal kind] i j) :
    ∃ d : Derivation, d.Spans rules ⟨tokens.toArray⟩ kind i j := by
  obtain ⟨d, hd, he, ht, hj⟩ := exists_of_derives_single h
  refine ⟨d, hd, ?_, he⟩
  simp [ht, hj]

theorem Spans.derives {d : Derivation} (h : d.Spans rules ⟨tokens.toArray⟩ kind 0 tokens.length) :
    Derives rules (tokens.map (·.kind))
      (fun k i j => Context.allowsSpan ⟨tokens.toArray⟩ k i j = true)
      [.nonterminal kind] 0 tokens.length := by
  have ht : d.tokens = tokens := by simpa using h.tokens_eq
  have hd := Derivation.derives d h.sound (show tokens.drop 0 = d.tokens ++ [] by simp [ht])
  rwa [h.symbol_eq, ht, Nat.zero_add] at hd

end Derivation

namespace Grammar

/-- The recogniser accepts exactly the sequences of instructions that have a derivation tree with
allowed constituents, and every span that it finishes has one. -/
theorem covers_iff_exists_derivation (source tokens : List Instruction) (start : Nonterminal) :
    (((withExtra (arityRules source)).chartOf ⟨tokens.toArray⟩ start).covers start 0 tokens.length =
        true ↔
      ∃ d : Derivation,
        d.Spans (base ++ arityRules source) ⟨tokens.toArray⟩ start 0 tokens.length) ∧
    ∀ kind i j,
      ((withExtra (arityRules source)).chartOf ⟨tokens.toArray⟩ start).covers kind i j = true →
        i ≤ j ∧ j ≤ tokens.length ∧
          ∃ d : Derivation, d.Spans (base ++ arityRules source) ⟨tokens.toArray⟩ kind i j := by
  have hfilled := filled_chart (base ++ arityRules source) (Context.allowsSpan ⟨tokens.toArray⟩)
    start (tokens.map (·.kind))
  have hspans : ∀ kind i j, Covered (base ++ arityRules source) (tokens.map (·.kind))
      (Context.allowsSpan ⟨tokens.toArray⟩) kind i j →
        i ≤ j ∧
          ∃ d : Derivation, d.Spans (base ++ arityRules source) ⟨tokens.toArray⟩ kind i j := by
    rintro kind i j ⟨hallowed, r, hr, rfl, hd⟩
    have hnull := allowsSpan_of_nullable source ⟨tokens.toArray⟩
    exact ⟨hd.le, Derivation.exists_spans (.single hr (hd.of_passes hnull) hallowed)⟩
  simp only [Chart.covers, List.contains_iff_mem]
  refine ⟨⟨fun hmem => (hspans _ _ _ (hfilled.records.covered _ _ _ hmem)).2, ?_⟩, ?_⟩
  · rintro ⟨d, hd⟩
    refine (hfilled.mem_ends_iff (.inl ⟨rfl, rfl⟩)).2 ?_
    obtain ⟨r, hr, rfl, hr', hallowed⟩ := hd.derives.of_single
    exact ⟨hallowed, r, hr, rfl, hr'.imp fun _ _ _ hok _ => hok⟩
  · intro kind i j hmem
    have hlt := hfilled.ends_lt kind i j hmem
    rw [List.length_map] at hlt
    obtain ⟨hle, hd⟩ := hspans _ _ _ (hfilled.records.covered kind i j hmem)
    exact ⟨hle, Nat.le_of_lt_succ hlt, hd⟩

end Grammar

end ElispLift
