import Mathlib.Data.List.Nodup
import Mathlib.Data.List.Perm.Subperm
import Mathlib.Logic.Function.Iterate
import ElispLift.Grammar.Table
import ElispLift.Proofs.Grammar.Derivation
import ElispLift.Proofs.Grammar.Numbering

/-!
# Nonterminals that derive the empty sequence

Rounds over the rules collect the nonterminals that derive nothing. There are rounds enough for the
last one to add nothing. The collection is closed under the rules then, so it holds exactly the
nonterminals that have a derivation without instructions.
-/

namespace ElispLift.Grammar

variable {rules : List Rule} {known : List Nonterminal} {r : Rule} {k : Nonterminal}

/-- Every symbol is a nonterminal of `known`. -/
def Vanishes (known : List Nonterminal) (s : List Symbol) : Prop :=
  ∀ x ∈ s, ∃ k ∈ known, x = .nonterminal k

theorem Vanishes.mono {known' : List Nonterminal} {s : List Symbol} (h : Vanishes known s)
    (hsub : known ⊆ known') : Vanishes known' s := fun x hx =>
  (h x hx).imp fun _ hk => ⟨hsub hk.1, hk.2⟩

theorem mem_addNullable :
    k ∈ addNullable known r ↔ k ∈ known ∨ k = r.lhs ∧ Vanishes known r.rhs := by
  unfold addNullable
  dsimp only
  split
  next h =>
    obtain ⟨hall, hk⟩ := Bool.and_eq_true_iff.1 h
    have hv : Vanishes known r.rhs := by
      intro x hx
      have hx := List.all_eq_true.1 hall x hx
      cases x <;> simp_all
    simp [hv]
  next h =>
    refine ⟨.inl, ?_⟩
    rintro (hk | ⟨rfl, hv⟩)
    · exact hk
    · by_contra hk
      refine h (Bool.and_eq_true_iff.2 ⟨List.all_eq_true.2 fun x hx => ?_, by simpa using hk⟩)
      obtain ⟨l, hl, rfl⟩ := hv x hx
      simpa using hl

theorem prefix_addNullable : known <+: addNullable known r := by
  unfold addNullable
  dsimp only
  split
  · exact List.prefix_append _ _
  · exact List.prefix_refl _

theorem nodup_addNullable (h : known.Nodup) : (addNullable known r).Nodup := by
  unfold addNullable
  dsimp only
  split
  next hk =>
    have hk : r.lhs ∉ known := by simpa using (Bool.and_eq_true_iff.1 hk).2
    exact List.nodup_append.2 ⟨h, List.nodup_singleton _, by
      rintro a ha b hb rfl
      exact hk (List.mem_singleton.1 hb ▸ ha)⟩
  · exact h

theorem prefix_foldl_addNullable (rs : List Rule) : known <+: rs.foldl addNullable known := by
  induction rs generalizing known with
  | nil => exact List.prefix_refl _
  | cons r rs ih => exact prefix_addNullable.trans ih

theorem nodup_foldl_addNullable (rs : List Rule) (h : known.Nodup) :
    (rs.foldl addNullable known).Nodup := by
  induction rs generalizing known with
  | nil => exact h
  | cons r rs ih => exact ih (nodup_addNullable h)

/-- The left side of a rule whose right side vanishes is collected in a round. -/
theorem mem_foldl_addNullable (rs : List Rule) (hr : r ∈ rs) (hv : Vanishes known r.rhs) :
    r.lhs ∈ rs.foldl addNullable known := by
  induction rs generalizing known with
  | nil => cases hr
  | cons r' rs ih =>
    rcases List.mem_cons.1 hr with rfl | hr
    · exact (prefix_foldl_addNullable rs).subset (mem_addNullable.2 (.inr ⟨rfl, hv⟩))
    · exact ih hr (hv.mono prefix_addNullable.subset)

/-- A property that every rule hands on from its right side to its left side. -/
theorem foldl_addNullable_induction {p : Nonterminal → Prop} (rs : List Rule)
    (hstep : ∀ r ∈ rs, (∀ x ∈ r.rhs, ∃ k, p k ∧ x = .nonterminal k) → p r.lhs)
    (h : ∀ k ∈ known, p k) : ∀ k ∈ rs.foldl addNullable known, p k := by
  induction rs generalizing known with
  | nil => exact h
  | cons r rs ih =>
    refine ih (fun r' hr' => hstep r' (List.mem_cons_of_mem _ hr')) fun k hk => ?_
    rcases mem_addNullable.1 hk with hk | ⟨rfl, hv⟩
    · exact h k hk
    · exact hstep r (by simp) fun x hx => (hv x hx).imp fun k hk => ⟨h k hk.1, hk.2⟩

/-- A round that leaves the number of nonterminals as it was adds nothing. -/
theorem foldl_addNullable_eq_self (rs : List Rule)
    (h : (rs.foldl addNullable known).length = known.length) : rs.foldl addNullable known = known :=
  ((prefix_foldl_addNullable rs).eq_of_length h.symm).symm

/-- With as many rounds as there are rules left, they go on until one adds nothing, and no
further. -/
theorem exists_lastRound (rules : List Rule) (rounds : Nat) (hnodup : known.Nodup)
    (hsub : known ⊆ rules.map (·.lhs)) (hfuel : rules.length < known.length + rounds) :
    ∃ n, nullableRounds rules rounds known = (rules.foldl addNullable ·)^[n] known ∧
      rules.foldl addNullable (nullableRounds rules rounds known) =
        nullableRounds rules rounds known ∧
      ∀ m < n, ((rules.foldl addNullable ·)^[m + 1] known).length ≠
        ((rules.foldl addNullable ·)^[m] known).length := by
  induction rounds generalizing known with
  | zero =>
    have hle := (hnodup.subperm hsub).length_le
    simp at hle hfuel
    omega
  | succ rounds ih =>
    rw [nullableRounds]
    split
    next hlen => exact ⟨0, rfl, foldl_addNullable_eq_self rules hlen, by simp⟩
    next hlen =>
      -- The round collected some left side, so the rounds left are still more than those missing.
      have hgrows : known.length ≤ (rules.foldl addNullable known).length :=
        (prefix_foldl_addNullable rules).length_le
      have hheads : rules.foldl addNullable known ⊆ rules.map (·.lhs) :=
        foldl_addNullable_induction rules (fun r hr _ => List.mem_map_of_mem hr) hsub
      obtain ⟨n, hn, hfixed, hbefore⟩ :=
        ih (nodup_foldl_addNullable rules hnodup) hheads (by omega)
      refine ⟨n + 1, hn, hfixed, fun m hm => ?_⟩
      cases m with
      | zero => exact hlen
      | succ m => exact hbefore m (by omega)

theorem nullableRounds_induction {p : Nonterminal → Prop} {rounds : Nat}
    (hstep : ∀ r ∈ rules, (∀ x ∈ r.rhs, ∃ k, p k ∧ x = .nonterminal k) → p r.lhs)
    (h : ∀ k ∈ known, p k) : ∀ k ∈ nullableRounds rules rounds known, p k := by
  induction rounds generalizing known with
  | zero => exact h
  | succ rounds ih =>
    rw [nullableRounds]
    split
    · exact h
    · exact ih (foldl_addNullable_induction rules hstep h)

theorem foldl_addNullable_nullableOf (rules : List Rule) :
    rules.foldl addNullable (nullableOf rules) = nullableOf rules := by
  obtain ⟨_, _, hfixed, _⟩ := exists_lastRound rules (rules.length + 1) List.nodup_nil
    (List.nil_subset _) (by simp)
  exact hfixed

theorem closed_nullableOf (r : Rule) (hr : r ∈ rules) (hv : Vanishes (nullableOf rules) r.rhs) :
    r.lhs ∈ nullableOf rules :=
  foldl_addNullable_nullableOf rules ▸ mem_foldl_addNullable rules hr hv

/-- The first round that adds nothing is the last, and all that follow would add nothing. -/
theorem exists_nullableOf_eq_iterate (rules : List Rule) :
    ∃ n, nullableOf rules = (rules.foldl addNullable ·)^[n] [] ∧
      ∀ m, ((rules.foldl addNullable ·)^[m + 1] []).length =
        ((rules.foldl addNullable ·)^[m] []).length ↔ n ≤ m := by
  obtain ⟨n, hn, hfixed, hbefore⟩ := exists_lastRound rules (rules.length + 1) List.nodup_nil
    (List.nil_subset _) (by simp)
  refine ⟨n, hn, fun m => ⟨fun hlen => ?_, fun hle => ?_⟩⟩
  · by_contra hlt
    exact hbefore m (by omega) hlen
  · have hlater : ∀ d, (rules.foldl addNullable ·)^[d + n] [] = nullableOf rules := by
      intro d
      rw [Function.iterate_add_apply, ← hn]
      exact Function.iterate_fixed hfixed d
    obtain ⟨d, rfl⟩ := Nat.exists_eq_add_of_le' hle
    rw [Nat.add_right_comm, hlater, hlater]

variable {word : List OpKind} {ok : Nonterminal → Nat → Nat → Prop}

theorem derives_of_vanishes {i : Nat} {s : List Symbol}
    (h : ∀ x ∈ s, ∃ k, Derives rules word ok [.nonterminal k] i i ∧ x = .nonterminal k) :
    Derives rules word ok s i i := by
  induction s with
  | nil => exact .nil i
  | cons x s ih =>
    obtain ⟨k, hk, rfl⟩ := h x (by simp)
    exact hk.append (ih fun y hy => h y (List.mem_cons_of_mem _ hy))

/-- A nonterminal that is collected derives the empty sequence, if the nonterminals on the way may
cover nothing. -/
theorem derives_of_mem_nullableOf {i : Nat} (hok : ∀ k ∈ nullableOf rules, ok k i i)
    (h : k ∈ nullableOf rules) : Derives rules word ok [.nonterminal k] i i := by
  have hboth : k ∈ nullableOf rules ∧ Derives rules word ok [.nonterminal k] i i := by
    refine nullableRounds_induction (p := fun k => k ∈ nullableOf rules ∧
      Derives rules word ok [.nonterminal k] i i) (fun r hr hv => ?_) (by simp) k h
    have hmem : r.lhs ∈ nullableOf rules :=
      closed_nullableOf r hr fun x hx => (hv x hx).imp fun k hk => ⟨hk.1.1, hk.2⟩
    exact ⟨hmem, .single hr
      (derives_of_vanishes fun x hx => (hv x hx).imp fun k hk => ⟨hk.1.2, hk.2⟩) (hok _ hmem)⟩
  exact hboth.2

/-- Symbols that derive the empty sequence are collected. -/
theorem Derives.vanishes {s : List Symbol} {i j : Nat} (h : Derives rules word ok s i j)
    (hij : i = j) : Vanishes (nullableOf rules) s := by
  induction h with
  | nil => simp [Vanishes]
  | terminal _ h _ =>
    have := h.le
    omega
  | nonterminal hr h _ h' ih ih' =>
    have := h.le
    have := h'.le
    intro x hx
    rcases List.mem_cons.1 hx with rfl | hx
    · exact ⟨_, closed_nullableOf _ hr (ih (by omega)), rfl⟩
    · exact ih' (by omega) x hx

/-- A derivation without instructions is one of the empty sequence. -/
theorem exists_derivation_iff :
    (∃ d : Derivation, d.symbol = .nonterminal k ∧ d.tokens = [] ∧
        d.Everywhere (fun r parts _ _ => Derivation.Fits rules r parts) 0) ↔
      Derives rules [] (fun _ _ _ => True) [.nonterminal k] 0 0 := by
  constructor
  · rintro ⟨d, hsymbol, htokens, hfits⟩
    have hsound : d.Everywhere (Derivation.Sound rules fun _ _ _ => True) 0 :=
      hfits.imp fun _ _ _ _ h => ⟨h, trivial⟩
    have hinput : ([] : List Instruction).drop 0 = d.tokens ++ [] := by simp [htokens]
    simpa [hsymbol, htokens] using d.derives hsound hinput
  · intro h
    have hword : Derives rules (([] : List Instruction).map (·.kind)) (fun _ _ _ => True)
        [.nonterminal k] 0 0 := h
    obtain ⟨d, hsymbol, hsound, htokens, -⟩ := Derivation.exists_of_derives_single hword
    exact ⟨d, hsymbol, by simpa using htokens.symm, hsound.imp fun _ _ _ _ h => h.1⟩

/-- The rounds end with the first that adds nothing, and they have collected exactly the
nonterminals from which the rules derive the empty sequence. -/
theorem isNullable_iff_exists_derivation (rules : List Rule) :
    (∃ n, (ofRules rules).nullable = (rules.foldl addNullable ·)^[n] [] ∧
      ∀ m, ((rules.foldl addNullable ·)^[m + 1] []).length =
        ((rules.foldl addNullable ·)^[m] []).length ↔ n ≤ m) ∧
    ∀ k, (ofRules rules).isNullable k = true ↔
      ∃ d : Derivation, d.symbol = .nonterminal k ∧ d.tokens = [] ∧
        d.Everywhere (fun r parts _ _ => Derivation.Fits rules r parts) 0 := by
  refine ⟨nullable_ofRules rules ▸ exists_nullableOf_eq_iterate rules, fun k => ?_⟩
  rw [isNullable_ofRules, exists_derivation_iff]
  constructor
  · exact derives_of_mem_nullableOf fun _ _ => trivial
  · intro h
    obtain ⟨k', hk', heq⟩ := h.vanishes rfl (.nonterminal k) (by simp)
    exact Symbol.nonterminal.inj heq ▸ hk'

-- Each of these rules waits a round for the one behind it.
example : nullableOf [⟨.body, [.nonterminal .exprs]⟩,
    ⟨.exprs, [.nonterminal .optExprs, .nonterminal .optExprs]⟩,
    ⟨.optExprs, [.nonterminal .optExprs, .terminal (.fixed .dup)]⟩, ⟨.optExprs, []⟩] =
      [.optExprs, .exprs, .body] := by decide

end ElispLift.Grammar
