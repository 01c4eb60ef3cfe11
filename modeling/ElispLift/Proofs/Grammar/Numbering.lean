import ElispLift.Grammar.Table

/-!
# Numbered rules

A grammar keeps every rule of its list once, with those of the same left side, in order. The places
for a dot are numbered through all rules, so that a number belongs to one rule and one place in it.
-/

namespace ElispLift.Grammar

variable {g : Grammar} {rules : List Rule} {r : Rule} {lhs lhs' : Nonterminal}

/-- The rules of a grammar are those of a list, under places of their own. -/
structure Numbered (g : Grammar) (rules : List Rule) : Prop where
  size : g.byLhs.size = Nonterminal.all.length
  rules_eq : ∀ lhs, (g.rulesFor lhs).map (·.rule) = (rules.filter (·.lhs = lhs)).eraseDups
  bounded : ∀ lhs, ∀ nr ∈ g.rulesFor lhs, nr.place + nr.rule.places ≤ g.places
  apart : ∀ {lhs lhs' : Nonterminal} {nr nr' : NumberedRule} {k k' : Nat},
    nr ∈ g.rulesFor lhs → nr' ∈ g.rulesFor lhs' → k < nr.rule.places → k' < nr'.rule.places →
      nr.place + k = nr'.place + k' → nr = nr'

namespace Numbered

theorem mem_iff (h : Numbered g rules) :
    (∃ nr ∈ g.rulesFor lhs, nr.rule = r) ↔ r ∈ rules ∧ r.lhs = lhs := by
  rw [← List.mem_map, h.rules_eq, List.mem_eraseDups]
  simp

theorem mem_rules (h : Numbered g rules) {nr : NumberedRule} (hnr : nr ∈ g.rulesFor lhs) :
    nr.rule ∈ rules ∧ nr.rule.lhs = lhs := h.mem_iff.1 ⟨nr, hnr, rfl⟩

end Numbered

/-- Before any rule is added. -/
theorem numbered_empty (nullable : List Nonterminal) :
    Numbered ⟨Array.replicate Nonterminal.all.length [], 0, nullable⟩ [] := by
  have hnone : ∀ lhs, rulesFor ⟨Array.replicate Nonterminal.all.length [], 0, nullable⟩ lhs =
      [] := by
    intro lhs
    simp [rulesFor, Nonterminal.index_lt]
  refine ⟨by simp, fun lhs => by simp [hnone], fun lhs nr hnr => ?_, fun hnr => ?_⟩
  · simp [hnone] at hnr
  · simp [hnone] at hnr

theorem rulesFor_set (hsize : g.byLhs.size = Nonterminal.all.length) (lhs' : Nonterminal)
    (nrs : List NumberedRule) (places : Nat) :
    rulesFor { g with byLhs := g.byLhs.setIfInBounds lhs'.index nrs, places := places } lhs =
      if lhs = lhs' then nrs else g.rulesFor lhs := by
  have hlt := Nonterminal.index_lt lhs'
  by_cases h : lhs = lhs'
  · subst h
    simp [rulesFor, hsize, hlt]
  · have hne : lhs'.index ≠ lhs.index := fun he => h (Nonterminal.index_injective he).symm
    simp [rulesFor, hne, h]

namespace Numbered

theorem any_iff (h : Numbered g rules) (r : Rule) :
    (g.rulesFor r.lhs).any (·.rule == r) = true ↔ r ∈ rules := by
  refine ⟨fun hany => ?_, fun hr => ?_⟩
  · obtain ⟨nr, hnr, he⟩ := List.any_eq_true.1 hany
    exact (eq_of_beq he) ▸ (h.mem_rules hnr).1
  · obtain ⟨nr, hnr, he⟩ := h.mem_iff.2 ⟨hr, rfl⟩
    exact List.any_eq_true.2 ⟨nr, hnr, by simp [he]⟩

theorem repeated (h : Numbered g rules) {r : Rule} (hmem : r ∈ rules) :
    Numbered g (rules ++ [r]) := by
  refine ⟨h.size, fun lhs => ?_, h.bounded, h.apart⟩
  rw [h.rules_eq, List.filter_append, List.eraseDups_append]
  by_cases hl : r.lhs = lhs <;> simp [List.removeAll, hl, hmem]

/-- A rule of the new grammar is one of the old, below the old places, or the new rule. -/
theorem rulesFor_cases (h : Numbered g rules) {r : Rule} {nr : NumberedRule}
    (hnr : nr ∈ rulesFor { g with
      byLhs := g.byLhs.setIfInBounds r.lhs.index (g.rulesFor r.lhs ++ [⟨g.places, r⟩])
      places := g.places + r.places } lhs) :
    (nr ∈ g.rulesFor lhs ∧ nr.place + nr.rule.places ≤ g.places) ∨ nr = ⟨g.places, r⟩ := by
  rw [rulesFor_set h.size] at hnr
  split at hnr
  next hl =>
    subst hl
    rcases List.mem_append.1 hnr with hnr | hnr
    · exact .inl ⟨hnr, h.bounded _ _ hnr⟩
    · exact .inr (List.mem_singleton.1 hnr)
  next hl => exact .inl ⟨hnr, h.bounded _ _ hnr⟩

theorem extended (h : Numbered g rules) {r : Rule} (hmem : r ∉ rules) :
    Numbered { g with
      byLhs := g.byLhs.setIfInBounds r.lhs.index (g.rulesFor r.lhs ++ [⟨g.places, r⟩])
      places := g.places + r.places } (rules ++ [r]) := by
  refine ⟨by simp [h.size], fun lhs => ?_, fun lhs nr hnr => ?_, ?_⟩
  · rw [rulesFor_set h.size, List.filter_append, List.eraseDups_append, ← h.rules_eq]
    by_cases hl : lhs = r.lhs
    · subst hl
      simp [h.rules_eq, List.removeAll, hmem, List.eraseDups_cons]
    · simp [hl, Ne.symm hl, List.removeAll]
  · rcases h.rulesFor_cases hnr with ⟨-, hle⟩ | rfl
    · dsimp only
      omega
    · dsimp only
      omega
  · intro lhs lhs' nr nr' k k' hnr hnr' hk hk' he
    rcases h.rulesFor_cases hnr with ⟨hold, hle⟩ | rfl <;>
      rcases h.rulesFor_cases hnr' with ⟨hold', hle'⟩ | rfl
    · exact h.apart hold hold' hk hk' he
    · dsimp only at he
      omega
    · dsimp only at he
      omega
    · rfl

end Numbered

theorem numbered_add (h : Numbered g rules) (r : Rule) : Numbered (g.add r) (rules ++ [r]) := by
  unfold add
  split
  next hany => exact h.repeated ((h.any_iff r).1 hany)
  next hany => exact h.extended fun hmem => hany ((h.any_iff r).2 hmem)

theorem numbered_foldl (h : Numbered g rules) (rs : List Rule) :
    Numbered (rs.foldl add g) (rules ++ rs) := by
  induction rs generalizing g rules with
  | nil => simpa using h
  | cons r rs ih => simpa using ih (numbered_add h r)

theorem numbered_ofRules (rules : List Rule) : Numbered (ofRules rules) rules :=
  numbered_foldl (numbered_empty (nullableOf rules)) rules

theorem nullable_add (g : Grammar) (r : Rule) : (g.add r).nullable = g.nullable := by
  unfold add
  split <;> rfl

theorem nullable_ofRules (rules : List Rule) : (ofRules rules).nullable = nullableOf rules := by
  have hfold : ∀ (rs : List Rule) (g : Grammar), (rs.foldl add g).nullable = g.nullable := by
    intro rs
    induction rs with
    | nil => exact fun _ => rfl
    | cons r rs ih => exact fun g => (ih _).trans (nullable_add g r)
  exact hfold rules _

theorem isNullable_ofRules {k : Nonterminal} :
    (ofRules rules).isNullable k = true ↔ k ∈ nullableOf rules := by
  simp [isNullable, nullable_ofRules]

end ElispLift.Grammar
