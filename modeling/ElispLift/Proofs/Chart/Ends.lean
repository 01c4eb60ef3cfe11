import ElispLift.Chart

/-!
# Ends of spans

The finished spans are kept by where they start. Adding one changes nothing else, and as they are
added in ascending order every list of ends is descending.
-/

namespace ElispLift

instance : Std.TransOrd Start :=
  inferInstanceAs (Std.TransCmp (compareLex (compareOn Start.first)
    (compareOn fun s : Start => s.kind.index)))

instance : Std.LawfulEqOrd Start where
  eq_of_compare {s s'} h := by
    obtain ⟨hfirst, hkind⟩ := compareLex_eq_eq.1 h
    have hfirst : s.first = s'.first := Std.LawfulEqOrd.eq_of_compare hfirst
    have hkind : s.kind = s'.kind :=
      Nonterminal.index_injective (Std.LawfulEqOrd.eq_of_compare hkind)
    cases s
    cases s'
    simp_all

namespace Ends

variable {ends : Ends} {kind kind' : Nonterminal} {first first' last i j : Nat}

@[simp] theorem of_empty (kind : Nonterminal) (first : Nat) : Ends.of {} kind first = [] := by
  simp [Ends.of]

theorem of_insert (list : List Nat) :
    Ends.of (ends.insert ⟨kind, first⟩ list) kind' first' =
      if kind = kind' ∧ first = first' then list else ends.of kind' first' := by
  simp [Ends.of, Std.TreeMap.getD_insert]

theorem mem_of_add :
    j ∈ (ends.add kind first last).of kind' first' ↔
      j ∈ ends.of kind' first' ∨ kind = kind' ∧ first = first' ∧ j = last := by
  unfold add
  dsimp only
  split
  next hhead =>
    refine ⟨.inl, ?_⟩
    rintro (h | ⟨rfl, rfl, rfl⟩)
    · exact h
    · exact List.mem_of_mem_head? hhead
  next hhead =>
    rw [of_insert]
    split
    next he =>
      obtain ⟨rfl, rfl⟩ := he
      simp [or_comm]
    next he =>
      refine ⟨.inl, ?_⟩
      rintro (h | ⟨hkind, hfirst, -⟩)
      · exact h
      · exact (he ⟨hkind, hfirst⟩).elim

/-- Every list of ends is descending and goes up to `i` at most. -/
def Descending (ends : Ends) (i : Nat) : Prop :=
  ∀ kind first, (ends.of kind first).Pairwise (· > ·) ∧ ∀ j ∈ ends.of kind first, j ≤ i

theorem descending_empty (i : Nat) : Descending {} i := by
  simp [Descending]

theorem Descending.mono (h : Descending ends i) (hij : i ≤ j) : Descending ends j :=
  fun kind first => ⟨(h kind first).1, fun n hn => Nat.le_trans ((h kind first).2 n hn) hij⟩

theorem Descending.add (h : Descending ends i) (kind : Nonterminal) (first : Nat) :
    Descending (ends.add kind first i) i := by
  unfold Ends.add
  dsimp only
  split
  · exact h
  next hhead =>
    intro kind' first'
    rw [of_insert]
    split
    next he =>
      obtain ⟨hdesc, hle⟩ := h kind first
      refine ⟨List.pairwise_cons.2 ⟨fun j hj => ?_, hdesc⟩, by simpa using hle⟩
      -- A list whose head is not `i` does not hold `i`, since its head is the largest.
      cases hlist : ends.of kind first with
      | nil => simp [hlist] at hj
      | cons head rest =>
        rw [hlist] at hdesc hle hj hhead
        have hhead : head ≠ i := by simpa using hhead
        have hlt : head < i := Nat.lt_of_le_of_ne (hle head (by simp)) hhead
        rcases List.mem_cons.1 hj with rfl | hj
        · exact hlt
        · exact Nat.lt_trans ((List.pairwise_cons.1 hdesc).1 j hj) hlt
    next he => exact h kind' first'

end Ends

end ElispLift
