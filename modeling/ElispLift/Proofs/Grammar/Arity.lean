import ElispLift.Grammar.Arity
import ElispLift.Proofs.Grammar.Nullable

/-!
# Rules beside the base rules

The rules for counted operations are one for each family and count among the instructions, and a
promotion for each family. They always have an operand or an instruction, so only the base rules
let something derive the empty sequence.
-/

namespace ElispLift.Grammar

theorem arityRulesAfter_mem {seen pairs : List (Family × Nat)} {r : Rule}
    (hr : r ∈ arityRulesAfter seen pairs) :
    ∃ family count, (family, count) ∈ pairs ∧
      (r = arityRule family count ∨ r = promotion family) := by
  induction pairs generalizing seen with
  | nil => simp [arityRulesAfter] at hr
  | cons pair pairs ih =>
    obtain ⟨family, count⟩ := pair
    have hlater : ∀ seen, r ∈ arityRulesAfter seen pairs → ∃ family' count',
        (family', count') ∈ (family, count) :: pairs ∧
          (r = arityRule family' count' ∨ r = promotion family') := fun seen hr => by
      obtain ⟨family', count', hmem, h⟩ := ih hr
      exact ⟨family', count', List.mem_cons_of_mem _ hmem, h⟩
    rw [arityRulesAfter] at hr
    split at hr
    · exact hlater _ hr
    · rcases List.mem_append.1 hr with hr | hr
      · rcases List.mem_cons.1 hr with rfl | hr
        · exact ⟨family, count, by simp, .inl rfl⟩
        · split at hr
          · simp at hr
          · exact ⟨family, count, by simp, .inr (List.mem_singleton.1 hr)⟩
      · exact hlater _ hr

/-- Every family and count has its rule, unless they were seen before, and every family its
promotion. -/
theorem mem_arityRulesAfter {seen pairs : List (Family × Nat)} {family : Family} {count : Nat}
    (hpair : (family, count) ∈ pairs) :
    ((family, count) ∈ seen ∨ arityRule family count ∈ arityRulesAfter seen pairs) ∧
      ((∃ pair ∈ seen, pair.1 = family) ∨ promotion family ∈ arityRulesAfter seen pairs) := by
  induction pairs generalizing seen with
  | nil => simp at hpair
  | cons pair pairs ih =>
    obtain ⟨family', count'⟩ := pair
    rw [arityRulesAfter]
    split
    next hseen =>
      have hseen : (family', count') ∈ seen := List.contains_iff_mem.1 hseen
      rcases List.mem_cons.1 hpair with he | hpair
      · obtain ⟨rfl, rfl⟩ := Prod.mk.inj he
        exact ⟨.inl hseen, .inl ⟨_, hseen, rfl⟩⟩
      · exact ih hpair
    next hseen =>
      rcases List.mem_cons.1 hpair with he | hpair
      · obtain ⟨rfl, rfl⟩ := Prod.mk.inj he
        refine ⟨.inr (by simp), ?_⟩
        by_cases hany : seen.any (·.1 = family) = true
        · obtain ⟨pair, hpair, hfamily⟩ := List.any_eq_true.1 hany
          exact .inl ⟨pair, hpair, by simpa using hfamily⟩
        · exact .inr (by simp [hany])
      · obtain ⟨hrule, hpromotion⟩ := @ih (seen ++ [(family', count')]) hpair
        simp only [List.mem_append, List.mem_singleton] at hrule hpromotion
        grind

theorem mem_arityRules {is : List Instruction} {i : Instruction} {family : Family} {count : Nat}
    (hi : i ∈ is) (hkind : i.kind = .counted family count) :
    arityRule family count ∈ arityRules is ∧ promotion family ∈ arityRules is := by
  have hpair : (family, count) ∈ arities is := by
    refine List.mem_filterMap.2 ⟨i, hi, ?_⟩
    rw [hkind]
  obtain ⟨hrule, hpromotion⟩ := @mem_arityRulesAfter [] _ _ _ hpair
  exact ⟨hrule.resolve_left (by simp), hpromotion.resolve_left (by simp)⟩

/-- The nonterminals that the base rules let derive the empty sequence. -/
def optional : List Nonterminal :=
  [.optExprs, .varlistStackedInner, .optComeFroms, .optComeFrom, .optLabel, .optDiscard,
    .optReturn]

theorem optional_of_rule (source : List Instruction) :
    ∀ r ∈ base ++ arityRules source, (∀ s ∈ r.rhs, ∃ k, k ∈ optional ∧ s = .nonterminal k) →
      r.lhs ∈ optional := by
  have hbase : ∀ r ∈ base, (∀ s ∈ r.rhs, s ∈ optional.map .nonterminal) → r.lhs ∈ optional := by
    decide +kernel
  intro r hr hrhs
  rcases List.mem_append.1 hr with hr | hr
  · refine hbase r hr fun s hs => ?_
    obtain ⟨k, hk, rfl⟩ := hrhs s hs
    exact List.mem_map_of_mem hk
  · obtain ⟨family, count, -, rfl | rfl⟩ := arityRulesAfter_mem hr
    · obtain ⟨k, -, hk⟩ := hrhs (.terminal (.counted family count)) (by simp [arityRule])
      cases hk
    · obtain ⟨k, hk, he⟩ := hrhs (.nonterminal (.counted family)) (by simp [promotion])
      cases he
      cases family <;> simp [optional] at hk

theorem optional_of_nullable {source : List Instruction} {kind : Nonterminal}
    (h : kind ∈ nullableOf (base ++ arityRules source)) : kind ∈ optional :=
  nullableRounds_induction (p := (· ∈ optional)) (optional_of_rule source) (by simp) kind h

end ElispLift.Grammar
