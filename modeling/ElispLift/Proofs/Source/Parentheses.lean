import Mathlib.Data.List.Infix
import ElispLift.Text.Pad

/-!
# Balanced parentheses

A text is balanced if no prefix of it closes more parentheses than it opens, and the whole text
closes all that it opens. Reading a text from left to right with the number of open parentheses
decides this, and texts can be put together by what they open and close.
-/

namespace ElispLift.Text

/-- No prefix closes more parentheses than it opens, and the whole text closes as many. -/
structure Balanced (s : String) : Prop where
  count_le : ∀ t, t <+: s.toList → t.count ')' ≤ t.count '('
  count_eq : s.toList.count ')' = s.toList.count '('

/-- The number of parentheses that are open behind some characters, if `n` are open before them and
none is closed that is not open. -/
def opened? : Nat → List Char → Option Nat
  | n, [] => some n
  | n, c :: cs =>
    if c = '(' then opened? (n + 1) cs
    else if c = ')' then
      match n with
      | 0 => none
      | n + 1 => opened? n cs
    else opened? n cs

variable {n m : Nat} {s t : String} {a b cs : List Char}

theorem opened?_append (n : Nat) (a b : List Char) :
    opened? n (a ++ b) = (opened? n a).bind fun m => opened? m b := by
  fun_induction opened? n a with
  | case1 n => rfl
  | case2 n cs ih => simpa [opened?] using ih
  | case3 cs h => simp [opened?]
  | case4 cs n h ih => simpa [opened?] using ih
  | case5 n c cs hopen hclose ih => simpa [opened?, hopen, hclose] using ih

/-- Parentheses that were open before stay open. -/
theorem opened?_add (h : opened? n cs = some m) (k : Nat) : opened? (n + k) cs = some (m + k) := by
  fun_induction opened? n cs with
  | case1 n =>
    cases h
    rfl
  | case2 n cs ih =>
    have hih := ih h
    rw [Nat.add_right_comm] at hih
    simpa [opened?] using hih
  | case3 => cases h
  | case4 cs n hclose ih =>
    rw [show n.succ + k = n + k + 1 by omega]
    simpa [opened?] using ih h
  | case5 n c cs hopen hclose ih => simpa [opened?, hopen, hclose] using ih h

/-- A property of all prefixes, read from the left. -/
theorem forall_prefix_cons {p : List Char → Prop} {c : Char} :
    (∀ t, t <+: c :: cs → p t) ↔ p [] ∧ ∀ t, t <+: cs → p (c :: t) := by
  constructor
  · intro h
    exact ⟨h [] (List.nil_prefix), fun t ht => h _ (List.cons_prefix_cons.2 ⟨rfl, ht⟩)⟩
  · rintro ⟨hnil, hcons⟩ t ht
    rcases List.prefix_cons_iff.1 ht with rfl | ⟨u, rfl, hu⟩
    · exact hnil
    · exact hcons u hu

/-- What is open behind a text says how often each parenthesis is in it, and that no prefix closes
more than is open. -/
theorem opened?_eq_some_iff : opened? n cs = some m ↔
    (∀ t, t <+: cs → t.count ')' ≤ n + t.count '(') ∧
      m + cs.count ')' = n + cs.count '(' := by
  fun_induction opened? n cs with
  | case1 n =>
    simp only [Option.some.injEq, List.prefix_nil, forall_eq, List.count_nil]
    omega
  | case2 n cs ih =>
    rw [ih, forall_prefix_cons]
    simp only [List.count_cons_self, List.count_nil, Nat.zero_le, true_and,
      List.count_cons_of_ne (show '(' ≠ ')' by decide)]
    grind
  | case3 cs h =>
    rw [forall_prefix_cons]
    simp only [reduceCtorEq, false_iff]
    rintro ⟨⟨-, h⟩, -⟩
    have hfirst := h [] List.nil_prefix
    simp at hfirst
  | case4 cs n h ih =>
    rw [ih, forall_prefix_cons]
    simp only [List.count_cons_self, List.count_nil, Nat.zero_le, true_and,
      List.count_cons_of_ne (show ')' ≠ '(' by decide)]
    grind
  | case5 n c cs hopen hclose ih =>
    rw [ih, forall_prefix_cons]
    simp [hopen, hclose]

theorem balanced_iff : Balanced s ↔ opened? 0 s.toList = some 0 := by
  rw [opened?_eq_some_iff]
  constructor
  · intro h
    exact ⟨by simpa using h.count_le, by simpa using h.count_eq⟩
  · intro h
    exact ⟨by simpa using h.1, by simpa using h.2⟩

theorem Balanced.opened? (h : Balanced s) (n : Nat) : opened? n s.toList = some n := by
  simpa using opened?_add (balanced_iff.1 h) n

theorem opened?_append_balanced (h : opened? n s.toList = some m) (ht : Balanced t) :
    opened? n (s ++ t).toList = some m := by
  rw [String.toList_append, opened?_append, h]
  exact ht.opened? m

theorem Balanced.append (hs : Balanced s) (ht : Balanced t) : Balanced (s ++ t) :=
  balanced_iff.2 (opened?_append_balanced (hs.opened? 0) ht)

/-- What a balanced text is in front of is balanced, if the whole is. -/
theorem Balanced.of_append_left (hs : Balanced s) (h : Balanced (s ++ t)) : Balanced t := by
  have hboth := balanced_iff.1 h
  rwa [String.toList_append, opened?_append, hs.opened?, Option.bind_some, ← balanced_iff] at hboth

theorem Balanced.of_append_right (ht : Balanced t) (h : Balanced (s ++ t)) : Balanced s := by
  have hboth := balanced_iff.1 h
  rw [String.toList_append, opened?_append] at hboth
  obtain ⟨m, hm, hrest⟩ := Option.bind_eq_some_iff.1 hboth
  obtain rfl : m = 0 := Option.some.inj ((ht.opened? m).symm.trans hrest)
  exact balanced_iff.2 hm

theorem balanced_of_not_mem (hopen : '(' ∉ s.toList) (hclose : ')' ∉ s.toList) : Balanced s := by
  refine ⟨fun t ht => ?_, ?_⟩
  · rw [List.count_eq_zero.2 fun h => hclose (ht.subset h)]
    exact Nat.zero_le _
  · rw [List.count_eq_zero.2 hopen, List.count_eq_zero.2 hclose]

theorem balanced_spaces (n : Nat) : Balanced (spaces n) :=
  balanced_of_not_mem (by simp [spaces]) (by simp [spaces])

theorem balanced_intercalate {texts : List String} (hs : Balanced s)
    (h : ∀ text ∈ texts, Balanced text) : Balanced (s.intercalate texts) := by
  induction texts with
  | nil => exact balanced_iff.2 rfl
  | cons text rest ih =>
    have htext := h text (by simp)
    cases rest with
    | nil => rwa [String.intercalate_singleton]
    | cons next rest =>
      rw [String.intercalate_cons_cons]
      exact (htext.append hs).append
        (ih fun other hother => h other (List.mem_cons_of_mem _ hother))

end ElispLift.Text
