import ElispLift.Proofs.Text.Lines

/-!
# Blanks around text

What is trimmed starts and ends without blanks, and words with single spaces between them are read
back.
-/

namespace ElispLift.Text

variable {c : Char} {cs a b : List Char} {ws : List (List Char)}

theorem trimStart_eq_self_of (h : ∀ c ∈ cs.head?, isBlank c = false) : trimStart cs = cs := by
  cases cs with
  | nil => rfl
  | cons c cs => exact trimStart_eq_self (h c rfl)

theorem trimEnd_eq_self (h : ∀ c ∈ cs.getLast?, isBlank c = false) : trimEnd cs = cs := by
  rw [trimEnd, ← trimStart, trimStart_eq_self_of (by simpa using h), List.reverse_reverse]

theorem trim_eq_self (hhead : ∀ c ∈ cs.head?, isBlank c = false)
    (hlast : ∀ c ∈ cs.getLast?, isBlank c = false) : trim cs = cs := by
  rw [trim, trimStart_eq_self_of hhead, trimEnd_eq_self hlast]

theorem trim_cons_append {d : Char} (hc : isBlank c = false) (hd : isBlank d = false)
    (cs : List Char) : trim (c :: (cs ++ [d])) = c :: (cs ++ [d]) :=
  trim_eq_self (by simpa using hc) (by
    rw [← List.cons_append, List.getLast?_concat]
    simpa using hd)

theorem trimEnd_append (h : ∀ c ∈ a.getLast?, isBlank c = false) (b : List Char) :
    trimEnd (a ++ b) = a ++ trimEnd b := by
  have ha : a.reverse.dropWhile isBlank = a.reverse := trimStart_eq_self_of (by simpa using h)
  simp only [trimEnd, List.reverse_append, List.dropWhile_append, ha]
  split
  next hb => simp [List.isEmpty_iff.1 hb]
  · simp

/-- Only an end of the text is trimmed. -/
theorem exists_trimEnd_append (cs : List Char) : ∃ b, cs = trimEnd cs ++ b := by
  refine ⟨(cs.reverse.takeWhile isBlank).reverse, ?_⟩
  rw [trimEnd, ← List.reverse_append, List.takeWhile_append_dropWhile, List.reverse_reverse]

theorem trimStart_cons_of_isBlank (h : isBlank c = true) (cs : List Char) :
    trimStart (c :: cs) = trimStart cs := by
  simp [trimStart, h]

theorem trim_cons_of_isBlank (h : isBlank c = true) (cs : List Char) :
    trim (c :: cs) = trim cs := by
  rw [trim, trimStart_cons_of_isBlank h, trim]

/-- Trimmed text does not end in a blank. -/
theorem getLast?_trim (cs : List Char) : ∀ c ∈ (trim cs).getLast?, isBlank c = false := by
  intro c hc
  rw [trim, trimEnd, List.getLast?_reverse] at hc
  have h := List.head?_dropWhile_not isBlank (trimStart cs).reverse
  rw [hc] at h
  simpa using h

theorem words_append_cons (hc : isBlank c = true) (a b : List Char) :
    words (a ++ c :: b) = words a ++ words b := by
  rw [words, words, words, pieces_append_cons hc, List.filter_append]

theorem words_of_noBlank (hne : cs ≠ []) (h : ∀ c ∈ cs, isBlank c = false) : words cs = [cs] := by
  simp [words, pieces_of_uncut h, hne]

theorem noBlank_of_mem_words {w : List Char} (h : w ∈ words cs) : ∀ c ∈ w, isBlank c = false :=
  eq_false_of_mem_pieces (List.mem_filter.1 h).1

/-- Text on one line without blanks around it. -/
structure IsField (cs : List Char) : Prop where
  trimmed : trim cs = cs
  noBreak : '\n' ∉ cs

instance (cs : List Char) : Decidable (IsField cs) :=
  decidable_of_iff (trim cs = cs ∧ '\n' ∉ cs) ⟨fun h => ⟨h.1, h.2⟩, fun h => ⟨h.1, h.2⟩⟩

theorem IsField.isLine (h : IsField cs) : IsLine cs where
  noBreak := h.noBreak
  noReturn hlast := by
    have hblank := getLast?_trim cs '\r' (by rw [h.trimmed]; exact hlast)
    exact absurd hblank (by decide)

/-- Words with single spaces between them. -/
structure SingleSpaced (cs : List Char) : Prop where
  hasWord : words cs ≠ []
  joined : join [' '] (words cs) = cs

instance (cs : List Char) : Decidable (SingleSpaced cs) :=
  decidable_of_iff (words cs ≠ [] ∧ join [' '] (words cs) = cs)
    ⟨fun h => ⟨h.1, h.2⟩, fun h => ⟨h.1, h.2⟩⟩

theorem mem_of_mem_join {sep : List Char} (h : c ∈ join sep ws) : c ∈ sep ∨ ∃ w ∈ ws, c ∈ w := by
  fun_induction join sep ws with
  | case1 => simp at h
  | case2 w => exact .inr ⟨w, by simp, h⟩
  | case3 w ws hne ih =>
    rcases List.mem_append.1 h with h | h
    · rcases List.mem_append.1 h with h | h
      · exact .inr ⟨w, by simp, h⟩
      · exact .inl h
    · rcases ih h with h | ⟨w', hw', h⟩
      · exact .inl h
      · exact .inr ⟨w', List.mem_cons_of_mem _ hw', h⟩

theorem SingleSpaced.isLine (h : SingleSpaced cs) : IsLine cs := by
  have hall : ∀ c ∈ cs, c = ' ' ∨ isBlank c = false := by
    intro c hc
    rw [← h.joined] at hc
    rcases mem_of_mem_join hc with hc | ⟨w, hw, hc⟩
    · exact .inl (by simpa using hc)
    · exact .inr (noBlank_of_mem_words hw c hc)
  exact .of_not_mem (fun hmem => absurd (hall _ hmem) (by decide))
    fun hmem => absurd (hall _ hmem) (by decide)

end ElispLift.Text
