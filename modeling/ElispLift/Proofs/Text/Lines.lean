import ElispLift.Text.Blank
import ElispLift.Text.Split

/-!
# Lines of composed text

A text that ends in a line feed has its own lines, and the text behind it has its own. Lines hold no
line feed, and lines that are written one after the other, each with a line feed, are read back.
-/

namespace ElispLift.Text

variable {p : Char → Bool} {s : Char} {cs l : List Char} {ps qs ls : List (List Char)}

/-- A character of the class cuts whatever stands around it. -/
theorem pieces_append_cons (hs : p s = true) (a b : List Char) :
    pieces p (a ++ s :: b) = pieces p a ++ pieces p b := by
  induction a with
  | nil => simp [pieces, hs]
  | cons c a ih =>
    obtain ⟨q, rest, hq⟩ := List.exists_cons_of_ne_nil (pieces_ne_nil p a)
    rw [List.cons_append, pieces, ih, hq, pieces, hq]
    cases p c <;> rfl

theorem pieces_of_uncut (h : ∀ c ∈ cs, p c = false) : pieces p cs = [cs] := by
  induction cs with
  | nil => rfl
  | cons c cs ih =>
    rw [List.forall_mem_cons] at h
    simp [pieces, h.1, ih h.2]

/-- No piece holds a character at which the text is cut. -/
theorem eq_false_of_mem_pieces (hl : l ∈ pieces p cs) : ∀ c ∈ l, p c = false := by
  induction cs generalizing l with
  | nil =>
    obtain rfl : l = [] := by simpa [pieces] using hl
    simp
  | cons c cs ih =>
    obtain ⟨q, rest, hq⟩ := List.exists_cons_of_ne_nil (pieces_ne_nil p cs)
    rw [hq] at ih
    cases hc : p c with
    | true =>
      rw [pieces, hc, hq] at hl
      rcases List.mem_cons.1 hl with rfl | hl
      · simp
      · exact ih hl
    | false =>
      rw [pieces, hc, hq] at hl
      rcases List.mem_cons.1 hl with rfl | hl
      · exact List.forall_mem_cons.2 ⟨hc, ih (by simp)⟩
      · exact ih (List.mem_cons_of_mem _ hl)

theorem cut?_append_cons (ha : ∀ c ∈ cs, p c = false) (hs : p s = true) (b : List Char) :
    cut? p (cs ++ s :: b) = some (cs, b) := by
  induction cs with
  | nil => simp [cut?, hs]
  | cons c cs ih =>
    rw [List.forall_mem_cons] at ha
    simp [cut?, ha.1, ih ha.2]

theorem cut?_of_uncut (h : ∀ c ∈ cs, p c = false) : cut? p cs = none := by
  induction cs with
  | nil => rfl
  | cons c cs ih =>
    rw [List.forall_mem_cons] at h
    simp [cut?, h.1, ih h.2]

/-- What stands in front of the needle does not hold its first character. -/
theorem afterFirst?_append {c : Char} {needle : List Char} (h : c ∉ cs) (b : List Char) :
    afterFirst? (c :: needle) (cs ++ c :: needle ++ b) = some b := by
  induction cs with
  | nil =>
    rw [List.nil_append, List.cons_append, afterFirst?, ← List.cons_append, after?_append,
      Option.some_or]
  | cons d cs ih =>
    rw [List.mem_cons, not_or] at h
    rw [List.cons_append, List.cons_append, afterFirst?, ih h.2, after?, if_neg h.1]
    rfl

theorem linesOfPieces_append (hqs : qs ≠ []) :
    linesOfPieces (ps ++ qs) = ps.map dropReturn ++ linesOfPieces qs := by
  induction ps with
  | nil => rfl
  | cons p ps ih =>
    obtain ⟨q, rest, hq⟩ := List.exists_cons_of_ne_nil (l := ps ++ qs) (by simp [hqs])
    rw [List.cons_append, hq, linesOfPieces, ← hq, ih]
    · simp
    · simp

theorem lines_append_cons (a b : List Char) :
    lines (a ++ '\n' :: b) = (pieces (· == '\n') a).map dropReturn ++ lines b := by
  rw [lines, pieces_append_cons (by rfl), linesOfPieces_append (pieces_ne_nil _ _), lines]

/-- The lines of a text that ends in a line feed stand in front of those of the text behind it. -/
theorem lines_append (a b : List Char) :
    lines ((a ++ ['\n']) ++ b) = lines (a ++ ['\n']) ++ lines b := by
  rw [List.append_assoc, List.singleton_append, lines_append_cons, lines_append_cons]
  simp [lines, pieces, linesOfPieces]

theorem before?_eq_some_iff {tail text front : List Char} :
    before? tail text = some front ↔ text = front ++ tail := by
  rw [before?, Option.map_eq_some_iff]
  constructor
  · rintro ⟨back, hback, rfl⟩
    rw [after?_eq_some_iff] at hback
    simpa using congrArg List.reverse hback
  · rintro rfl
    exact ⟨front.reverse, by simp, by simp⟩

theorem dropReturn_of_getLast? (h : cs.getLast? ≠ some '\r') : dropReturn cs = cs := by
  rw [dropReturn]
  cases hb : before? ['\r'] cs with
  | none => rfl
  | some front =>
    rw [before?_eq_some_iff] at hb
    simp [hb] at h

theorem dropReturn_subset (cs : List Char) : dropReturn cs ⊆ cs := by
  rw [dropReturn]
  cases hb : before? ['\r'] cs with
  | none => simp
  | some front =>
    rw [before?_eq_some_iff] at hb
    rw [hb]
    exact List.subset_append_left front _

theorem mem_of_mem_linesOfPieces (hl : l ∈ linesOfPieces ps) : ∃ q ∈ ps, l ⊆ q := by
  fun_induction linesOfPieces ps with
  | case1 => simp at hl
  | case2 => simp at hl
  | case3 last => exact ⟨last, by simp, by simp_all⟩
  | case4 q rest _ ih =>
    rcases List.mem_cons.1 hl with rfl | hl
    · exact ⟨q, by simp, dropReturn_subset q⟩
    · obtain ⟨q', hq', hsub⟩ := ih hl
      exact ⟨q', List.mem_cons_of_mem _ hq', hsub⟩

theorem not_mem_of_mem_lines (hl : l ∈ lines cs) : '\n' ∉ l := by
  obtain ⟨q, hq, hsub⟩ := mem_of_mem_linesOfPieces hl
  intro h
  simpa using eq_false_of_mem_pieces hq _ (hsub h)

/-- A line that can be written: it holds no line feed, and its end is no part of a line break. -/
structure IsLine (l : List Char) : Prop where
  noBreak : '\n' ∉ l
  noReturn : l.getLast? ≠ some '\r'

theorem IsLine.append {a b : List Char} (hbreak : '\n' ∉ a) (hreturn : '\r' ∉ a) (hb : IsLine b) :
    IsLine (a ++ b) := by
  refine ⟨by simp [hbreak, hb.noBreak], fun h => ?_⟩
  rw [List.getLast?_append] at h
  rcases Option.or_eq_some_iff.1 h with h | ⟨-, h⟩
  · exact hb.noReturn h
  · exact hreturn (List.mem_of_getLast? h)

theorem IsLine.of_not_mem (hbreak : '\n' ∉ l) (hreturn : '\r' ∉ l) : IsLine l :=
  ⟨hbreak, fun h => hreturn (List.mem_of_getLast? h)⟩

/-- Each line with its line feed. -/
def unlines (ls : List (List Char)) : List Char := ls.flatMap (· ++ ['\n'])

/-- A line in front of other text is its first line. -/
theorem IsLine.lines_append (h : IsLine l) (b : List Char) :
    lines (l ++ '\n' :: b) = l :: lines b := by
  have huncut : pieces (· == '\n') l = [l] :=
    pieces_of_uncut fun c hc => by simpa using fun he : c = '\n' => h.noBreak (he ▸ hc)
  rw [lines_append_cons, huncut, List.map_singleton, dropReturn_of_getLast? h.noReturn,
    List.singleton_append]

theorem unlines_cons (l : List Char) (ls : List (List Char)) :
    unlines (l :: ls) = l ++ '\n' :: unlines ls := by
  simp [unlines]

theorem lines_unlines (h : ∀ l ∈ ls, IsLine l) : lines (unlines ls) = ls := by
  induction ls with
  | nil => rfl
  | cons l ls ih =>
    rw [List.forall_mem_cons] at h
    rw [unlines_cons, h.1.lines_append, ih h.2]

end ElispLift.Text
