import ElispLift.Text.Pad
import ElispLift.Text.Split

/-!
# Indented texts

A text is indented if each of its lines starts with so many spaces, but for the first line, which is
as the text before it leaves it. Texts that are indented alike can be put one behind the other.
-/

namespace ElispLift.Text

/-- Whatever follows a line break starts with `n` spaces. -/
def BreaksIndented (n : Nat) : List Char → Prop
  | [] => True
  | c :: cs => (c = '\n' → List.replicate n ' ' <+: cs) ∧ BreaksIndented n cs

/-- All lines but the first start with `n` spaces. -/
def Indented (n : Nat) (s : String) : Prop := BreaksIndented n s.toList

variable {n m : Nat} {cs ds : List Char} {s t : String}

theorem breaksIndented_append (hcs : BreaksIndented n cs) (hds : BreaksIndented n ds) :
    BreaksIndented n (cs ++ ds) := by
  induction cs with
  | nil => exact hds
  | cons c cs ih =>
    exact ⟨fun hbreak => (hcs.1 hbreak).trans (List.prefix_append cs ds), ih hcs.2⟩

theorem breaksIndented_of_append (h : BreaksIndented n (cs ++ ds)) : BreaksIndented n ds := by
  induction cs with
  | nil => exact h
  | cons c cs ih => exact ih h.2

theorem breaksIndented_of_not_mem (h : '\n' ∉ cs) : BreaksIndented n cs := by
  induction cs with
  | nil => trivial
  | cons c cs ih =>
    obtain ⟨hc, hcs⟩ := List.ne_and_not_mem_of_not_mem_cons h
    exact ⟨fun hbreak => (hc hbreak.symm).elim, ih hcs⟩

/-- A character is not in a text if it is neither before its end nor at it. -/
theorem not_mem_of_dropLast {c : Char} (hfront : c ∉ cs.dropLast)
    (hlast : cs.getLast? ≠ some c) : c ∉ cs := by
  obtain rfl | ⟨front, last, rfl⟩ := cs.eq_nil_or_concat
  · exact List.not_mem_nil
  · rw [List.concat_eq_append, List.dropLast_concat] at hfront
    rw [List.concat_eq_append, List.getLast?_concat] at hlast
    rw [List.concat_eq_append, List.mem_append, List.mem_singleton, not_or]
    exact ⟨hfront, fun hc => hlast (congrArg some hc.symm)⟩

theorem prefix_spaces (h : n ≤ m) : List.replicate n ' ' <+: (spaces m).toList := by
  rw [spaces, String.toList_ofList, ← Nat.add_sub_of_le h, ← List.replicate_append_replicate]
  exact List.prefix_append _ _

namespace Indented

theorem append (hs : Indented n s) (ht : Indented n t) : Indented n (s ++ t) := by
  unfold Indented
  rw [String.toList_append]
  exact breaksIndented_append hs ht

theorem of_not_mem (h : '\n' ∉ s.toList) : Indented n s := breaksIndented_of_not_mem h

theorem spaces (m : Nat) : Indented n (spaces m) := of_not_mem (by simp [Text.spaces])

/-- A line break with enough spaces behind it. -/
theorem newline (h : n ≤ m) : Indented n ("\n" ++ Text.spaces m) := by
  unfold Indented
  rw [String.toList_append]
  exact ⟨fun _ => prefix_spaces h, breaksIndented_of_not_mem (by simp [Text.spaces])⟩

theorem intercalate {texts : List String} (hs : Indented n s)
    (h : ∀ text ∈ texts, Indented n text) : Indented n (s.intercalate texts) := by
  induction texts with
  | nil => trivial
  | cons text rest ih =>
    have htext := h text (by simp)
    cases rest with
    | nil => rwa [String.intercalate_singleton]
    | cons next rest =>
      rw [String.intercalate_cons_cons]
      exact (htext.append hs).append
        (ih fun other hother => h other (List.mem_cons_of_mem _ hother))

/-- Behind the last line break there are spaces. -/
theorem exists_last_line (h : Indented n s) (hbreak : '\n' ∈ s.toList) :
    ∃ before rest, s = before ++ "\n" ++ (Text.spaces n ++ rest) ∧ '\n' ∉ rest.toList := by
  obtain ⟨last, before, hsplit, hlast⟩ := List.eq_append_cons_of_mem (List.mem_reverse.2 hbreak)
  have hlist : s.toList = before.reverse ++ '\n' :: last.reverse := by
    rw [← List.reverse_inj, hsplit]
    simp
  rw [Indented, hlist] at h
  obtain ⟨rest, hrest⟩ := (breaksIndented_of_append h).1 rfl
  refine ⟨String.ofList before.reverse, String.ofList rest, ?_, ?_⟩
  · rw [← String.toList_inj, hlist, ← hrest]
    simp [Text.spaces]
  · rw [String.toList_ofList]
    exact fun hmem => hlast (List.mem_reverse.1 (hrest ▸ List.mem_append_right _ hmem))

end Indented

/-- What starts with spaces has a first line that does. -/
theorem head_pieces (h : List.replicate n ' ' <+: cs) :
    ∃ line rest, pieces (· == '\n') cs = line :: rest ∧ List.replicate n ' ' <+: line := by
  induction n generalizing cs with
  | zero =>
    obtain ⟨line, rest, hpieces⟩ := List.exists_cons_of_ne_nil (pieces_ne_nil (· == '\n') cs)
    exact ⟨line, rest, hpieces, List.nil_prefix⟩
  | succ n ih =>
    obtain ⟨ds, rfl, hds⟩ : ∃ ds, cs = ' ' :: ds ∧ List.replicate n ' ' <+: ds := by
      obtain ⟨ds, rfl⟩ := h
      exact ⟨List.replicate n ' ' ++ ds, rfl, List.prefix_append _ _⟩
    obtain ⟨line, rest, hpieces, hline⟩ := ih hds
    refine ⟨' ' :: line, rest, ?_, List.cons_prefix_cons.2 ⟨rfl, hline⟩⟩
    rw [pieces, hpieces]
    rfl

/-- The lines behind the first one. -/
theorem BreaksIndented.lines (h : BreaksIndented n cs) :
    ∀ line ∈ (pieces (· == '\n') cs).tail, List.replicate n ' ' <+: line := by
  induction cs with
  | nil => simp [pieces]
  | cons c cs ih =>
    obtain ⟨first, rest, hpieces⟩ := List.exists_cons_of_ne_nil (pieces_ne_nil (· == '\n') cs)
    have hrest := ih h.2
    rw [hpieces] at hrest
    by_cases hbreak : c = '\n'
    · obtain ⟨line, others, hlines, hline⟩ := head_pieces (h.1 hbreak)
      obtain ⟨rfl, rfl⟩ := List.cons.inj (hpieces.symm.trans hlines)
      rw [pieces, hpieces, hbreak]
      exact List.forall_mem_cons.2 ⟨hline, hrest⟩
    · have hc : (c == '\n') = false := beq_eq_false_iff_ne.2 hbreak
      rw [pieces, hpieces, hc]
      exact hrest

/-- Behind spaces, every line of an indented text starts with as many. -/
theorem Indented.forall_lines (h : Indented n s) (hm : n ≤ m) :
    ∀ line ∈ pieces (· == '\n') (Text.spaces m ++ s).toList, List.replicate n ' ' <+: line := by
  have hstart : List.replicate n ' ' <+: (Text.spaces m ++ s).toList := by
    rw [String.toList_append]
    exact (prefix_spaces hm).trans (List.prefix_append _ _)
  obtain ⟨line, rest, hpieces, hline⟩ := head_pieces hstart
  have hrest := BreaksIndented.lines ((Indented.spaces m).append h)
  rw [hpieces] at hrest ⊢
  exact List.forall_mem_cons.2 ⟨hline, hrest⟩

end ElispLift.Text
