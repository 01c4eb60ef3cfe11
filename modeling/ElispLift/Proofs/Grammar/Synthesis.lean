import Mathlib.Data.List.Nodup
import ElispLift.Proofs.Blocks.Targets
import ElispLift.Proofs.Grammar.Arity

/-!
# Rules that instructions need

The rules beside the base rules follow the instructions: one more instruction adds those of its
rules that are not there yet. So each rule stands once, where an instruction first needs it, and the
markers that annotation puts among the instructions add none.
-/

namespace ElispLift

namespace Rule

/-- The rule applies the counted operation of an instruction. It takes an expression for each value
that the instruction takes from the stack. -/
def Applies (r : Rule) (i : Instruction) : Prop :=
  ∃ family count pops pushes, i.kind = .counted family count ∧ i.effect = .fixed pops pushes ∧
    r = ⟨.counted family, List.replicate pops (.nonterminal .expr) ++ [.terminal i.kind]⟩

/-- The rule makes an expression of the application of an instruction's counted operation. -/
def Promotes (r : Rule) (i : Instruction) : Prop :=
  ∃ family count, i.kind = .counted family count ∧ r = ⟨.expr, [.nonterminal (.counted family)]⟩

/-- What distinguishes rules: the left side, and the words of the right side. -/
def words (r : Rule) : Nonterminal × List String := (r.lhs, r.rhs.map Symbol.name)

end Rule

namespace Grammar

variable {seen seen' pairs : List (Family × Nat)} {pair : Family × Nat} {is : List Instruction}
  {i : Instruction} {r : Rule}

/-! ### One more family and count -/

/-- Which families and counts were seen matters, not in which order. -/
theorem arityRulesAfter_congr (h : ∀ pair, pair ∈ seen ↔ pair ∈ seen') :
    arityRulesAfter seen pairs = arityRulesAfter seen' pairs := by
  induction pairs generalizing seen seen' with
  | nil => rfl
  | cons pair pairs ih =>
    have hcontains : seen.contains pair = seen'.contains pair := by
      rw [Bool.eq_iff_iff, List.contains_iff_mem, List.contains_iff_mem, h]
    have hany : seen.any (·.1 = pair.1) = seen'.any (·.1 = pair.1) := by
      rw [Bool.eq_iff_iff, List.any_eq_true, List.any_eq_true]
      simp only [h]
    have hnext : ∀ q, q ∈ seen ++ [pair] ↔ q ∈ seen' ++ [pair] := by simp [h]
    rw [arityRulesAfter, arityRulesAfter, hcontains, hany, ih h, ih hnext]

/-- The rules that a family and a count add to those of others. -/
def newRules (pairs : List (Family × Nat)) (pair : Family × Nat) : List Rule :=
  if pair ∈ pairs then []
  else arityRule pair.1 pair.2 ::
    if pair.1 ∈ pairs.map (·.1) then [] else [promotion pair.1]

theorem arityRulesAfter_singleton : arityRulesAfter seen [pair] = newRules seen pair := by
  have hany : seen.any (·.1 = pair.1) = true ↔ pair.1 ∈ seen.map (·.1) := by
    simp [List.any_eq_true]
  rw [arityRulesAfter, newRules]
  simp only [List.contains_iff_mem, hany, arityRulesAfter, List.append_nil]

theorem arityRulesAfter_snoc :
    arityRulesAfter seen (pairs ++ [pair]) =
      arityRulesAfter seen pairs ++ newRules (seen ++ pairs) pair := by
  induction pairs generalizing seen with
  | nil => rw [List.nil_append, List.append_nil, arityRulesAfter_singleton]; rfl
  | cons first rest ih =>
    rw [List.cons_append, arityRulesAfter, arityRulesAfter]
    split
    next hseen =>
      -- What was seen before does not count as new a second time.
      have hsame : newRules (seen ++ rest) pair = newRules (seen ++ first :: rest) pair := by
        have hmem : first ∈ seen := List.contains_iff_mem.1 hseen
        rw [← arityRulesAfter_singleton, ← arityRulesAfter_singleton]
        refine arityRulesAfter_congr fun q => ?_
        simp only [List.mem_append, List.mem_cons]
        grind
      rw [ih, hsame]
    · dsimp only
      rw [ih, List.append_assoc, List.append_assoc, List.singleton_append]

/-! ### The rules for a list of families and counts -/

theorem mem_arityRulesAfter_iff : r ∈ arityRulesAfter [] pairs ↔
    ∃ pair ∈ pairs, r = arityRule pair.1 pair.2 ∨ r = promotion pair.1 := by
  constructor
  · intro h
    obtain ⟨family, count, hpair, h⟩ := arityRulesAfter_mem h
    exact ⟨(family, count), hpair, h⟩
  · rintro ⟨⟨family, count⟩, hpair, rfl | rfl⟩
    · exact (mem_arityRulesAfter hpair).1.resolve_left (by simp)
    · exact (mem_arityRulesAfter hpair).2.resolve_left (by simp)

theorem arityRule_inj {family family' : Family} {count count' : Nat}
    (h : (arityRule family count).words = (arityRule family' count').words) :
    family = family' ∧ count = count' := by
  obtain ⟨hlhs, hrhs⟩ := Prod.mk.inj h
  obtain rfl := Nonterminal.counted.inj hlhs
  have hlength := congrArg List.length hrhs
  refine ⟨rfl, ?_⟩
  cases family <;> simpa [arityRule, Family.operands] using hlength

theorem promotion_inj {family family' : Family}
    (h : (promotion family).words = (promotion family').words) : family = family' := by
  have hname : (Nonterminal.counted family).name = (Nonterminal.counted family').name := by
    simpa [Rule.words, promotion, Symbol.name] using h
  revert hname
  cases family <;> cases family' <;> decide

theorem arityRule_ne_promotion {family family' : Family} {count : Nat} :
    (arityRule family count).words ≠ (promotion family').words := by
  intro h
  cases (Prod.mk.inj h).1

/-- No rule is added that is there. -/
theorem newRules_disjoint (hr : r ∈ newRules pairs pair) {q : Rule}
    (hq : q ∈ arityRulesAfter [] pairs) : q.words ≠ r.words := by
  intro hwords
  obtain ⟨other, hother, hq⟩ := mem_arityRulesAfter_iff.1 hq
  rw [newRules] at hr
  split at hr
  · cases hr
  next hnew =>
    rcases List.mem_cons.1 hr with rfl | hr
    · rcases hq with rfl | rfl
      · obtain ⟨hfamily, hcount⟩ := arityRule_inj hwords
        exact hnew (Prod.ext hfamily hcount ▸ hother)
      · exact arityRule_ne_promotion hwords.symm
    · split at hr
      · cases hr
      next hfamily =>
        obtain rfl := List.mem_singleton.1 hr
        rcases hq with rfl | rfl
        · exact arityRule_ne_promotion hwords
        · exact hfamily (promotion_inj hwords ▸ List.mem_map_of_mem hother)

theorem nodup_newRules : ((newRules pairs pair).map Rule.words).Nodup := by
  rw [newRules]
  split
  · simp
  split
  · simp
  · simpa using arityRule_ne_promotion

theorem nodup_arityRulesAfter : ((arityRulesAfter [] pairs).map Rule.words).Nodup := by
  induction pairs using List.reverseRecOn with
  | nil => simp [arityRulesAfter]
  | append_singleton pairs pair ih =>
    rw [arityRulesAfter_snoc, List.map_append, List.nil_append]
    refine List.nodup_append.2 ⟨ih, nodup_newRules, fun a ha b hb => ?_⟩
    obtain ⟨q, hq, rfl⟩ := List.mem_map.1 ha
    obtain ⟨r, hr, rfl⟩ := List.mem_map.1 hb
    exact newRules_disjoint hr hq

/-! ### First occurrences -/

theorem eraseDups_snoc {α : Type} [BEq α] [LawfulBEq α] [DecidableEq α] (as : List α) (a : α) :
    (as ++ [a]).eraseDups = as.eraseDups ++ if a ∈ as then [] else [a] := by
  rw [List.eraseDups_append]
  split
  next hmem => simp [List.removeAll, hmem]
  next hmem => simp [List.removeAll, hmem, List.eraseDups_cons]

theorem filter_newRules_lhs :
    (newRules pairs pair).filter (·.lhs ≠ .expr) =
      (if pair ∈ pairs then [] else [pair]).map fun pair => arityRule pair.1 pair.2 := by
  rw [newRules]
  split
  · rfl
  split <;> simp [arityRule, promotion]

theorem filter_newRules_expr (hfamily : pair ∈ pairs → pair.1 ∈ pairs.map (·.1)) :
    (newRules pairs pair).filter (·.lhs = .expr) =
      (if pair.1 ∈ pairs.map (·.1) then [] else [pair.1]).map promotion := by
  rw [newRules]
  split
  next hpair => simp [hfamily hpair]
  split <;> simp [arityRule, promotion]

/-- The applications stand in the order in which their families and counts first occur. -/
theorem filter_arityRulesAfter_lhs :
    (arityRulesAfter [] pairs).filter (·.lhs ≠ .expr) =
      pairs.eraseDups.map fun pair => arityRule pair.1 pair.2 := by
  induction pairs using List.reverseRecOn with
  | nil => rfl
  | append_singleton pairs pair ih =>
    rw [arityRulesAfter_snoc, List.filter_append, ih, List.nil_append, filter_newRules_lhs,
      eraseDups_snoc, List.map_append]

/-- The promotions stand in the order in which their families first occur. -/
theorem filter_arityRulesAfter_expr :
    (arityRulesAfter [] pairs).filter (·.lhs = .expr) =
      (pairs.map (·.1)).eraseDups.map promotion := by
  induction pairs using List.reverseRecOn with
  | nil => rfl
  | append_singleton pairs pair ih =>
    rw [arityRulesAfter_snoc, List.filter_append, ih, List.nil_append,
      filter_newRules_expr List.mem_map_of_mem, List.map_append, List.map_singleton,
      eraseDups_snoc, List.map_append]

/-! ### The rules for instructions -/

theorem mem_arities : pair ∈ arities is ↔ ∃ i ∈ is, i.kind = .counted pair.1 pair.2 := by
  rw [arities, List.mem_filterMap]
  refine exists_congr fun i => and_congr_right fun _ => ?_
  split <;> simp_all [Prod.ext_iff, eq_comm]

theorem applies_iff : r.Applies i ↔
    ∃ family count, i.kind = .counted family count ∧ r = arityRule family count := by
  constructor
  · rintro ⟨family, count, pops, pushes, hkind, heffect, rfl⟩
    rw [Instruction.effect, hkind] at heffect
    cases heffect
    exact ⟨family, count, hkind, by rw [hkind]; rfl⟩
  · rintro ⟨family, count, hkind, rfl⟩
    exact ⟨family, count, family.operands count, 1, hkind, by rw [Instruction.effect, hkind]; rfl,
      by rw [hkind]; rfl⟩

theorem mem_arityRules_iff :
    r ∈ arityRules is ↔ ∃ i ∈ is, r.Applies i ∨ r.Promotes i := by
  rw [arityRules, mem_arityRulesAfter_iff]
  constructor
  · rintro ⟨pair, hpair, hr⟩
    obtain ⟨i, hi, hkind⟩ := mem_arities.1 hpair
    exact ⟨i, hi, hr.imp (fun hr => applies_iff.2 ⟨_, _, hkind, hr⟩) fun hr => ⟨_, _, hkind, hr⟩⟩
  · rintro ⟨i, hi, hr | ⟨family, count, hkind, hr⟩⟩
    · obtain ⟨family, count, hkind, rfl⟩ := applies_iff.1 hr
      exact ⟨(family, count), mem_arities.2 ⟨i, hi, hkind⟩, .inl rfl⟩
    · exact ⟨(family, count), mem_arities.2 ⟨i, hi, hkind⟩, .inr hr⟩

theorem newRules_eq_filter :
    newRules pairs pair = (newRules [] pair).filter (· ∉ arityRulesAfter [] pairs) := by
  have happlication : arityRule pair.1 pair.2 ∈ arityRulesAfter [] pairs ↔ pair ∈ pairs := by
    refine mem_arityRulesAfter_iff.trans ⟨?_, fun h => ⟨pair, h, .inl rfl⟩⟩
    rintro ⟨other, hother, h | h⟩
    · obtain ⟨hfamily, hcount⟩ := arityRule_inj (congrArg Rule.words h)
      exact Prod.ext hfamily hcount ▸ hother
    · exact absurd (congrArg Rule.words h) arityRule_ne_promotion
  have hpromotion : promotion pair.1 ∈ arityRulesAfter [] pairs ↔ pair.1 ∈ pairs.map (·.1) := by
    refine mem_arityRulesAfter_iff.trans ⟨?_, fun h => ?_⟩
    · rintro ⟨other, hother, h | h⟩
      · exact absurd (congrArg Rule.words h).symm arityRule_ne_promotion
      · exact promotion_inj (congrArg Rule.words h) ▸ List.mem_map_of_mem hother
    · obtain ⟨other, hother, hfamily⟩ := List.mem_map.1 h
      exact ⟨other, hother, .inr (by rw [hfamily])⟩
  have hfirst : newRules [] pair = [arityRule pair.1 pair.2, promotion pair.1] := by
    simp [newRules]
  rw [hfirst, newRules]
  by_cases hpair : pair ∈ pairs
  · have hfamily : pair.1 ∈ pairs.map (·.1) := List.mem_map_of_mem hpair
    simp [happlication.2 hpair, hpromotion.2 hfamily, hpair]
  · by_cases hfamily : pair.1 ∈ pairs.map (·.1)
    · simp [happlication, hpromotion.2 hfamily, hpair, hfamily]
    · simp only [happlication, hpromotion, hpair, hfamily, List.filter_cons]
      simp

/-- One more instruction adds those of its rules that are not there yet. -/
theorem arityRules_snoc :
    arityRules (is ++ [i]) =
      arityRules is ++ (arityRules [i]).filter (· ∉ arityRules is) := by
  have hsplit : arities (is ++ [i]) = arities is ++ arities [i] := List.filterMap_append
  rw [arityRules, hsplit, arityRules, arityRules]
  cases hkind : i.kind with
  | fixed op =>
    have hnone : arities [i] = [] := by simp [arities, hkind]
    simp [hnone, arityRulesAfter]
  | counted family count =>
    have hone : arities [i] = [(family, count)] := by simp [arities, hkind]
    rw [hone, arityRulesAfter_snoc, List.nil_append, newRules_eq_filter, arityRulesAfter_singleton]

/-- No marker is a counted operation. -/
theorem arities_filter_isMarker (is : List Instruction) :
    arities (is.filter fun i => !Segmentation.isMarker i) = arities is := by
  rw [arities, arities, List.filterMap_filter]
  refine List.filterMap_congr fun i _ => ?_
  cases hmarker : Segmentation.isMarker i with
  | false => rfl
  | true =>
    rcases Bool.or_eq_true_iff.1 hmarker with hkind | hkind <;>
      rw [Instruction.isOp_iff.1 hkind] <;> rfl

theorem arityRules_annotated (s : Segmentation) :
    arityRules s.annotated = arityRules s.instructions := by
  rw [arityRules, arityRules, ← arities_filter_isMarker, Segmentation.annotated,
    Segmentation.filter_annotateFrom fun j hj => by rw [hj, Bool.not_true],
    arities_filter_isMarker]

/-- No rule stands twice. There is exactly one for each family and count among the instructions,
with an expression for each value that is taken from the stack, and one promotion for each family,
both in the order of their first instructions. One more instruction only adds rules, and markers add
none. -/
theorem arityRules_exact (is : List Instruction) :
    ((arityRules is).map Rule.words).Nodup ∧
      (∀ r, r ∈ arityRules is ↔ ∃ i ∈ is, r.Applies i ∨ r.Promotes i) ∧
      (arityRules is).filter (·.lhs ≠ .expr) =
        (arities is).eraseDups.map (fun pair => arityRule pair.1 pair.2) ∧
      (arityRules is).filter (·.lhs = .expr) =
        ((arities is).map (·.1)).eraseDups.map promotion ∧
      (∀ i, arityRules (is ++ [i]) =
        arityRules is ++ (arityRules [i]).filter (· ∉ arityRules is)) ∧
      ∀ jumps blocks, arityRules (Segmentation.annotated ⟨is, jumps, blocks⟩) = arityRules is :=
  ⟨nodup_arityRulesAfter, fun _ => mem_arityRules_iff, filter_arityRulesAfter_lhs,
    filter_arityRulesAfter_expr, fun _ => arityRules_snoc,
    fun jumps blocks => arityRules_annotated ⟨is, jumps, blocks⟩⟩

end Grammar

end ElispLift
