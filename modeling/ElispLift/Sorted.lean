/-!
# Sorted lists

Lists are put in order by inserting one element after the other. Elements that the order does not
tell apart keep their places.
-/

namespace ElispLift.Sorted

variable {α : Type}

/-- Insert before the first element that `a` is not behind. -/
def insert (le : α → α → Bool) (a : α) : List α → List α
  | [] => [a]
  | b :: bs => if le a b then a :: b :: bs else b :: insert le a bs

def sort (le : α → α → Bool) : List α → List α
  | [] => []
  | a :: as => insert le a (sort le as)

theorem mem_insert {le : α → α → Bool} {a b : α} {bs : List α} :
    b ∈ insert le a bs ↔ b = a ∨ b ∈ bs := by
  induction bs with
  | nil => simp [insert]
  | cons c cs ih =>
    rw [insert]
    split
    · simp
    · simp [ih, or_left_comm]

theorem mem_sort {le : α → α → Bool} {b : α} {as : List α} : b ∈ sort le as ↔ b ∈ as := by
  induction as with
  | nil => simp [sort]
  | cons a as ih => simp [sort, mem_insert, ih]

theorem perm_insert {le : α → α → Bool} {a : α} {bs : List α} :
    (insert le a bs).Perm (a :: bs) := by
  induction bs with
  | nil => exact .refl _
  | cons b bs ih =>
    rw [insert]
    split
    · exact .refl _
    · exact (ih.cons b).trans (.swap a b bs)

theorem perm_sort {le : α → α → Bool} {as : List α} : (sort le as).Perm as := by
  induction as with
  | nil => exact .refl _
  | cons a as ih => exact perm_insert.trans (ih.cons a)

theorem pairwise_insert {le : α → α → Bool} {a : α} {bs : List α}
    (htrans : ∀ a b c, le a b = true → le b c = true → le a c = true)
    (htotal : ∀ a b, le a b = true ∨ le b a = true) (h : bs.Pairwise fun a b => le a b = true) :
    (insert le a bs).Pairwise fun a b => le a b = true := by
  induction bs with
  | nil => exact List.pairwise_singleton _ _
  | cons b bs ih =>
    obtain ⟨hb, hbs⟩ := List.pairwise_cons.1 h
    rw [insert]
    split
    next hle =>
      refine List.pairwise_cons.2 ⟨fun c hc => ?_, h⟩
      rcases List.mem_cons.1 hc with rfl | hc
      · exact hle
      · exact htrans a b c hle (hb c hc)
    next hle =>
      refine List.pairwise_cons.2 ⟨fun c hc => ?_, ih hbs⟩
      rcases mem_insert.1 hc with rfl | hc
      · exact (htotal c b).resolve_left hle
      · exact hb c hc

theorem pairwise_sort (le : α → α → Bool) (as : List α)
    (htrans : ∀ a b c, le a b = true → le b c = true → le a c = true)
    (htotal : ∀ a b, le a b = true ∨ le b a = true) :
    (sort le as).Pairwise fun a b => le a b = true := by
  induction as with
  | nil => exact .nil
  | cons a as ih => exact pairwise_insert htrans htotal ih

/-- The elements in ascending order, each once. -/
def ascending (ns : List Nat) : List Nat := sort (· ≤ ·) ns.eraseDups

def descending (ns : List Nat) : List Nat := sort (· ≥ ·) ns

theorem perm_descending (ns : List Nat) : (descending ns).Perm ns := perm_sort

theorem pairwise_descending (ns : List Nat) : (descending ns).Pairwise (· ≥ ·) := by
  have hsorted := pairwise_sort (fun a b : Nat => decide (a ≥ b)) ns
    (fun a b c hab hbc => by simp at *; omega) fun a b => by simp; omega
  exact hsorted.imp fun h => by simpa using h

end ElispLift.Sorted
