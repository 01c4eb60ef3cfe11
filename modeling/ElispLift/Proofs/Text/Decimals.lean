import ElispLift.Proofs.Text.Numbers

/-!
# Decimal notation

The notation of numbers, rule by rule: a sign or none, digits with at most one point among them, and
an exponent or none. What is recognised as a decimal is exactly what is written so, and beside it
the names of infinity and of what is not a number. What is read as an integer is exactly what is
written as one and fits in 64 bits.
-/

namespace ElispLift.Text

/-- One sign or none. -/
inductive IsSign : List Char → Prop
  | none : IsSign []
  | plus : IsSign ['+']
  | minus : IsSign ['-']

/-- Nothing but digits, of which there may be none. -/
def AllDigits (cs : List Char) : Prop := ∀ c ∈ cs, c.isDigit = true

/-- Digits, with at most one point among them. -/
inductive IsMantissa : List Char → Prop
  | whole {ds : List Char} (hds : AllDigits ds) (hne : ds ≠ []) : IsMantissa ds
  | point {ds es : List Char} (hds : AllDigits ds) (hes : AllDigits es) (hne : ds ≠ [] ∨ es ≠ []) :
      IsMantissa (ds ++ '.' :: es)

/-- A decimal exponent or none. -/
inductive IsPower : List Char → Prop
  | none : IsPower []
  | exponent {e : Char} {sign ds : List Char} (he : e = 'e' ∨ e = 'E') (hsign : IsSign sign)
      (hds : AllDigits ds) (hne : ds ≠ []) : IsPower (e :: (sign ++ ds))

/-- A decimal number. -/
inductive IsNumber : List Char → Prop
  | mk {sign mantissa power : List Char} (hsign : IsSign sign) (hmantissa : IsMantissa mantissa)
      (hpower : IsPower power) : IsNumber (sign ++ (mantissa ++ power))

/-- The words for a value that is no number to calculate with. -/
def unboundedWords : List String := ["inf", "infinity", "nan"]

/-- Such a word in letters of any case, with a sign or none. -/
inductive IsUnbounded : List Char → Prop
  | mk {sign word : List Char} (hsign : IsSign sign)
      (hword : ∃ w ∈ unboundedWords, w.toList = word.map Char.toLower) : IsUnbounded (sign ++ word)

/-- The text of an integer, which may have leading zeros. -/
inductive IsInteger : List Char → Int → Prop
  | plain {ds : List Char} (hds : AllDigits ds) (hne : ds ≠ []) :
      IsInteger ds (Nat.ofDigitChars 10 ds 0)
  | plus {ds : List Char} (hds : AllDigits ds) (hne : ds ≠ []) :
      IsInteger ('+' :: ds) (Nat.ofDigitChars 10 ds 0)
  | minus {ds : List Char} (hds : AllDigits ds) (hne : ds ≠ []) :
      IsInteger ('-' :: ds) (-(Nat.ofDigitChars 10 ds 0 : Int))

/-- In 64 bits, in two's complement. -/
def FitsWord (n : Int) : Prop := -0x8000000000000000 ≤ n ∧ n < 0x8000000000000000

instance (n : Int) : Decidable (FitsWord n) := inferInstanceAs (Decidable (_ ∧ _))

variable {cs ds rest sign : List Char} {c : Char} {n : Int}

/-! ### Signs -/

theorem exists_sign (cs : List Char) : ∃ sign, IsSign sign ∧ cs = sign ++ dropSign cs := by
  unfold dropSign
  split
  next => exact ⟨_, .plus, rfl⟩
  next => exact ⟨_, .minus, rfl⟩
  next => exact ⟨_, .none, rfl⟩

/-- What starts with something else than a sign is left behind a sign. -/
theorem dropSign_append (hsign : IsSign sign) (h : ∀ c ∈ cs.head?, c ≠ '+' ∧ c ≠ '-') :
    dropSign (sign ++ cs) = cs := by
  cases hsign with
  | plus | minus => rfl
  | none =>
    rw [List.nil_append]
    unfold dropSign
    split
    next => exact absurd rfl (h '+' rfl).1
    next => exact absurd rfl (h '-' rfl).2
    next => rfl

/-! ### Digits -/

theorem not_sign_of_isDigit (h : c.isDigit = true) : c ≠ '+' ∧ c ≠ '-' :=
  ⟨fun he => absurd (he ▸ h) (by decide), fun he => absurd (he ▸ h) (by decide)⟩

theorem AllDigits.not_sign (h : AllDigits ds) : ∀ c ∈ ds.head?, c ≠ '+' ∧ c ≠ '-' :=
  fun _ hc => not_sign_of_isDigit (h _ (List.mem_of_mem_head? hc))

theorem digits?_eq_some_iff {k : Nat} :
    digits? cs = some k ↔ AllDigits cs ∧ cs ≠ [] ∧ k = Nat.ofDigitChars 10 cs 0 := by
  have hvalue : cs.foldl (fun n c => 10 * n + digitValue c) 0 = Nat.ofDigitChars 10 cs 0 :=
    Nat.ofDigitChars_eq_foldl.symm
  unfold digits? AllDigits
  rw [hvalue]
  grind [List.isEmpty_iff, List.all_eq_true]

theorem isSome_digits? : (digits? cs).isSome = true ↔ AllDigits cs ∧ cs ≠ [] := by
  simp only [Option.isSome_iff_exists, digits?_eq_some_iff]
  exact ⟨fun ⟨_, hall, hne, _⟩ => ⟨hall, hne⟩, fun ⟨hall, hne⟩ => ⟨_, hall, hne, rfl⟩⟩

theorem allDigits_takeWhile (cs : List Char) : AllDigits (cs.takeWhile Char.isDigit) :=
  List.all_eq_true.1 List.all_takeWhile

/-- Digits end where something else follows. -/
theorem takeWhile_digits (hds : AllDigits ds) (hrest : ∀ c ∈ rest.head?, c.isDigit = false) :
    (ds ++ rest).takeWhile Char.isDigit = ds ∧ (ds ++ rest).dropWhile Char.isDigit = rest := by
  rw [List.takeWhile_append_of_pos hds, List.dropWhile_append_of_pos hds]
  cases rest with
  | nil => simp
  | cons c rest => simp [hrest c rfl]

/-! ### Fractions -/

theorem isExponent_iff : cs = [] ∨ isExponent cs = true ↔ IsPower cs := by
  constructor
  · rintro (rfl | h)
    · exact .none
    · cases cs with
      | nil => cases h
      | cons e rest =>
        obtain ⟨he, hrest⟩ := Bool.and_eq_true_iff.1 h
        obtain ⟨hds, hne⟩ := isSome_digits?.1 hrest
        obtain ⟨sign, hsign, hsplit⟩ := exists_sign rest
        rw [hsplit]
        exact .exponent (by simpa using he) hsign hds hne
  · rintro (_ | ⟨he, hsign, hds, hne⟩)
    · exact .inl rfl
    · refine .inr (Bool.and_eq_true_iff.2 ⟨by simpa using he, isSome_digits?.2 ?_⟩)
      rw [dropSign_append hsign hds.not_sign]
      exact ⟨hds, hne⟩

/-- What follows a mantissa starts neither with a digit nor with a point. -/
theorem IsPower.head? (h : IsPower cs) : ∀ c ∈ cs.head?, c.isDigit = false ∧ c ≠ '.' := by
  cases h with
  | none => simp
  | exponent he =>
    rintro c ⟨⟩
    rcases he with rfl | rfl <;> decide

/-- What is read of a fraction with a point. -/
theorem isFraction_of_point (h : cs.dropWhile Char.isDigit = '.' :: rest) :
    isFraction cs = true ↔ (cs.takeWhile Char.isDigit ≠ [] ∨ rest.takeWhile Char.isDigit ≠ []) ∧
      IsPower (rest.dropWhile Char.isDigit) := by
  rw [← isExponent_iff, isFraction, h]
  simp only [Bool.and_eq_true, Bool.or_eq_true, Bool.not_eq_true', List.isEmpty_iff,
    Bool.and_eq_false_iff, List.isEmpty_eq_false_iff]

/-- What is read of a fraction without one. -/
theorem isFraction_of_whole (h : ∀ r, cs.dropWhile Char.isDigit ≠ '.' :: r) :
    isFraction cs = true ↔ cs.takeWhile Char.isDigit ≠ [] ∧
      IsPower (cs.dropWhile Char.isDigit) := by
  rw [← isExponent_iff, isFraction]
  split
  next part tail heq =>
    split at heq
    next r hr => exact (h r hr).elim
    next =>
      cases heq
      simp only [Bool.and_eq_true, Bool.or_eq_true, Bool.not_eq_true', List.isEmpty_iff,
        List.isEmpty_nil, Bool.and_true, List.isEmpty_eq_false_iff]

theorem isFraction_iff : isFraction cs = true ↔
    ∃ mantissa power, IsMantissa mantissa ∧ IsPower power ∧ cs = mantissa ++ power := by
  constructor
  · intro h
    have hwhole := allDigits_takeWhile cs
    have hsplit := List.takeWhile_append_dropWhile (p := Char.isDigit) (l := cs)
    by_cases hpoint : ∃ rest, cs.dropWhile Char.isDigit = '.' :: rest
    · obtain ⟨rest, hrest⟩ := hpoint
      obtain ⟨hne, hpower⟩ := (isFraction_of_point hrest).1 h
      refine ⟨_, _, .point hwhole (allDigits_takeWhile rest) hne, hpower, ?_⟩
      rw [List.append_assoc, List.cons_append, List.takeWhile_append_dropWhile, ← hrest, hsplit]
    · obtain ⟨hne, hpower⟩ := (isFraction_of_whole (not_exists.1 hpoint)).1 h
      exact ⟨_, _, .whole hwhole hne, hpower, hsplit.symm⟩
  · rintro ⟨mantissa, power, hmantissa, hpower, rfl⟩
    have hbehind := hpower.head?
    cases hmantissa with
    | whole hds hne =>
      obtain ⟨htake, hdrop⟩ := takeWhile_digits hds fun c hc => (hbehind c hc).1
      refine (isFraction_of_whole fun r hr => ?_).2 ⟨by rwa [htake], by rwa [hdrop]⟩
      rw [hdrop] at hr
      exact (hbehind '.' (by simp [hr])).2 rfl
    | @point ds es hds hes hne =>
      have hpoint : ∀ c ∈ ('.' :: (es ++ power)).head?, c.isDigit = false := by simp
      obtain ⟨htake, hdrop⟩ := takeWhile_digits hds hpoint
      obtain ⟨htake', hdrop'⟩ := takeWhile_digits hes fun c hc => (hbehind c hc).1
      rw [List.append_assoc, List.cons_append, isFraction_of_point hdrop, htake, htake', hdrop']
      exact ⟨hne, hpower⟩

/-- A mantissa does not start with a sign. -/
theorem IsMantissa.not_sign (h : IsMantissa cs) : ∀ c ∈ cs.head?, c ≠ '+' ∧ c ≠ '-' := by
  cases h with
  | whole hds => exact hds.not_sign
  | @point ds es hds =>
    cases ds with
    | nil =>
      rintro c ⟨⟩
      decide
    | cons d ds => exact fun c hc => hds.not_sign c hc

theorem IsMantissa.head?_append (h : IsMantissa cs) (rest : List Char) :
    (cs ++ rest).head? = cs.head? := by
  have hne : cs ≠ [] := by
    cases h with
    | whole hds hne => exact hne
    | point => simp
  obtain ⟨c, cs, rfl⟩ := List.exists_cons_of_ne_nil hne
  rfl

/-! ### Numbers -/

theorem unbounded_not_sign {w : String} (hw : w ∈ unboundedWords)
    (h : w.toList = cs.map Char.toLower) : ∀ c ∈ cs.head?, c ≠ '+' ∧ c ≠ '-' := by
  have hlower : ∀ w ∈ unboundedWords, ∀ c ∈ w.toList.head?,
      c ≠ Char.toLower '+' ∧ c ≠ Char.toLower '-' := by
    intro w hw c hc
    simp only [unboundedWords, List.mem_cons, List.not_mem_nil, or_false] at hw
    rcases hw with rfl | rfl | rfl <;> cases hc <;> decide
  intro c hc
  have hhead := hlower w hw c.toLower (by rw [h, List.head?_map, hc]; rfl)
  exact ⟨fun he => hhead.1 (he ▸ rfl), fun he => hhead.2 (he ▸ rfl)⟩

theorem isUnbounded_iff :
    IsUnbounded cs ↔ ∃ w ∈ unboundedWords, w.toList = (dropSign cs).map Char.toLower := by
  constructor
  · rintro ⟨hsign, w, hw, hlower⟩
    refine ⟨w, hw, ?_⟩
    rwa [dropSign_append hsign (unbounded_not_sign hw hlower)]
  · intro hword
    obtain ⟨sign, hsign, hsplit⟩ := exists_sign cs
    rw [hsplit]
    exact .mk hsign hword

instance (cs : List Char) : Decidable (IsUnbounded cs) := decidable_of_iff _ isUnbounded_iff.symm

/-- What is recognised as a decimal is a number, or a word for a value that is none. -/
theorem isDecimal_iff : isDecimal cs = true ↔ IsNumber cs ∨ IsUnbounded cs := by
  have hbody : isDecimal cs = true ↔ isFraction (dropSign cs) = true ∨ IsUnbounded cs := by
    rw [isDecimal, Bool.or_eq_true, List.any_eq_true, isUnbounded_iff]
    simp only [beq_iff_eq, unboundedWords]
  rw [hbody, isFraction_iff]
  refine or_congr_left ⟨?_, ?_⟩
  · rintro ⟨mantissa, power, hmantissa, hpower, hdrop⟩
    obtain ⟨sign, hsign, hsplit⟩ := exists_sign cs
    rw [hsplit, hdrop]
    exact .mk hsign hmantissa hpower
  · rintro @⟨_, mantissa, power, hsign, hmantissa, hpower⟩
    refine ⟨_, _, hmantissa, hpower, dropSign_append hsign fun c hc => ?_⟩
    rw [hmantissa.head?_append] at hc
    exact hmantissa.not_sign c hc

/-- A number starts with a sign, a point or a digit. -/
theorem IsNumber.head? (h : IsNumber cs) :
    ∃ c, cs.head? = some c ∧ (c ∈ ['+', '-', '.'] ∨ c.isDigit = true) := by
  obtain @⟨_, mantissa, power, hsign, hmantissa, hpower⟩ := h
  cases hsign with
  | plus => exact ⟨'+', rfl, .inl (by simp)⟩
  | minus => exact ⟨'-', rfl, .inl (by simp)⟩
  | none =>
    rw [List.nil_append, hmantissa.head?_append]
    cases hmantissa with
    | @whole ds hds hne =>
      obtain ⟨d, ds, rfl⟩ := List.exists_cons_of_ne_nil hne
      exact ⟨d, rfl, .inr (hds d (by simp))⟩
    | @point ds es hds =>
      cases ds with
      | nil => exact ⟨'.', rfl, .inl (by simp)⟩
      | cons d ds => exact ⟨d, rfl, .inr (hds d (by simp))⟩

/-! ### Integers -/

/-- An integer is read if it fits. -/
theorem integer?_eq_some_iff : integer? cs = some n ↔ IsInteger cs n ∧ FitsWord n := by
  unfold integer?
  rw [Option.filter_eq_some_iff, decide_eq_true_iff]
  refine and_congr_left fun _ => ⟨fun h => ?_, fun h => ?_⟩
  · split at h
    all_goals obtain ⟨k, hk, rfl⟩ := Option.map_eq_some_iff.1 h
    · obtain ⟨m, hm, ⟨⟩⟩ := Option.bind_eq_some_iff.1 hk
      obtain ⟨hds, hne, rfl⟩ := digits?_eq_some_iff.1 hm
      exact .minus hds hne
    · obtain ⟨hds, hne, rfl⟩ := digits?_eq_some_iff.1 hk
      exact .plus hds hne
    · obtain ⟨hds, hne, rfl⟩ := digits?_eq_some_iff.1 hk
      exact .plain hds hne
  · cases h with
    | plus hds hne => simp [digits?_eq_some_iff.2 ⟨hds, hne, rfl⟩]
    | minus hds hne => simp [digits?_eq_some_iff.2 ⟨hds, hne, rfl⟩]
    | plain hds hne =>
      split
      next rest => exact absurd rfl (hds.not_sign '-' rfl).2
      next rest => exact absurd rfl (hds.not_sign '+' rfl).1
      next => simp [digits?_eq_some_iff.2 ⟨hds, hne, rfl⟩]

/-- The digits that an integer is written with stand for it. -/
theorem isInteger_toString (n : Int) : IsInteger (toString n).toList n := by
  have hdigits : ∀ k : Nat, AllDigits k.repr.toList ∧ k.repr.toList ≠ [] ∧
      Nat.ofDigitChars 10 k.repr.toList 0 = k := fun k => by
    rw [show k.repr.toList = Nat.toDigits 10 k by simp]
    exact ⟨fun _ => isDigit_of_mem_decimal, Nat.toDigits_ne_nil, Nat.ofDigitChars_ten_toDigits⟩
  cases n with
  | ofNat k =>
    obtain ⟨hds, hne, hk⟩ := hdigits k
    have hplain := IsInteger.plain hds hne
    rwa [hk] at hplain
  | negSucc k =>
    obtain ⟨hds, hne, hk⟩ := hdigits (k + 1)
    have hminus := IsInteger.minus hds hne
    rw [hk] at hminus
    have htext : (toString (Int.negSucc k)).toList = '-' :: (k + 1).repr.toList :=
      String.toList_append
    rw [htext]
    exact hminus

end ElispLift.Text
