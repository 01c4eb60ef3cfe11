import ElispLift.Idioms
import ElispLift.Proofs.Text.Blanks
import Mathlib.Data.List.Forall2

/-!
# What key descriptions denote

A description is read word by word, as `kbd` does, and the words of an operand denote its keys. The
words for the codes from 28 to 31 do not, since they have letters that no control character has, and
no word is left of a space. In a string literal a quote ends the text, and a backslash hides what
stands behind it.
-/

namespace ElispLift.Keys

open Text

/-- A key is a character with its modifiers, or it has a name. -/
inductive Key where
  | code (n : Int)
  | named (name : String)
deriving DecidableEq, Repr

/-- The key of an element of a vector: integers are codes, and symbols are names. -/
def Key.ofElement (word : List Char) : Key :=
  match integer? word with
  | some n => .code n
  | none => .named (String.ofList word)

/-- The characters of a string, or the integers and symbols of a vector. -/
def keys? : Operand → Option (List Key)
  | .str s => (between? '"' '"' s).map (·.map fun c => .code c.toNat)
  | .symbol s => (between? '[' ']' s).map fun inner => (Text.words inner).map .ofElement
  | _ => none

/-! ### The reader of descriptions -/

/-- The code of a control character. -/
def controlCode? (c : Char) : Option Nat :=
  if c.isAlpha || ['@', '[', '\\', ']', '^', '_'].contains c then some (c.toNat % 32) else none

/-- The code of a character without modifiers. -/
def plainCode? : List Char → Option Nat
  | [c] => some c.toNat
  | word =>
    if word = "ESC".toList then some 27
    else if word = "DEL".toList then some 127
    else if word = "SPC".toList then some 32
    else none

def readWord? : List Char → Option Key
  | [c] => some (.code c.toNat)
  | ['C', '-', c] => (controlCode? c).map fun n => .code n
  | ['C', '-', 'M', '-', c] => (controlCode? c).map fun n => .code (metaBit + n : Nat)
  | 'M' :: '-' :: rest => (plainCode? rest).map fun n => .code (metaBit + n : Nat)
  | '<' :: rest => (before? ['>'] rest).map fun name => .named (String.ofList name)
  | word => (plainCode? word).map fun n => .code n

/-- Words stand between these characters. -/
def isSeparator (c : Char) : Bool := c == ' ' || c == '\t' || c == '\n' || c == '\x0c'

def separated (text : List Char) : List (List Char) :=
  (pieces isSeparator text).filter (!·.isEmpty)

/-- The keys that a description denotes. -/
def read? (text : List Char) : Option (List Key) := (separated text).mapM readWord?

/-- The text of a string literal behind its opening quote. The literal ends at the first quote that
is not behind a backslash, and nothing follows it. -/
def literalText? : List Char → Option (List Char)
  | [] => none
  | ['"'] => some []
  | '"' :: _ => none
  | ['\\'] => none
  | '\\' :: c :: cs => (literalText? cs).map (c :: ·)
  | c :: cs => (literalText? cs).map (c :: ·)

/-- The text of a string literal. -/
def literal? (s : String) : Option (List Char) := (after? ['"'] s.toList).bind literalText?

/-! ### The words for keys -/

/-- The words that descriptions use. -/
inductive Word : Key → List Char → Prop
  | escape : Word (.code 27) "ESC".toList
  | delete : Word (.code 127) "DEL".toList
  | control {n : Nat} {letter : Char} (h : controlLetter? n = some letter) :
      Word (.code n) ['C', '-', letter]
  | char {c : Char} (hc : 31 < c.toNat) (hdelete : c.toNat ≠ 127) : Word (.code c.toNat) [c]
  | metaEscape : Word (.code (metaBit + 27 : Nat)) "M-ESC".toList
  | metaControl {n : Nat} {letter : Char} (h : controlLetter? n = some letter) :
      Word (.code (metaBit + n : Nat)) ['C', '-', 'M', '-', letter]
  | metaChar {c : Char} (hc : 32 < c.toNat) (hdelete : c.toNat < 127) :
      Word (.code (metaBit + c.toNat : Nat)) ['M', '-', c]
  | named {name : List Char} (hblank : ∀ c ∈ name, isBlank c = false) :
      Word (.named (String.ofList name)) ('<' :: (name ++ ['>']))

variable {n : Nat} {w : String} {c letter : Char} {k : Key} {word : List Char}

theorem controlLetter?_eq_none_iff : controlLetter? n = none ↔ n = 27 ∨ 31 < n := by
  grind [controlLetter?]

theorem control?_eq_none_iff : control? n = none ↔ 31 < n ∧ n ≠ 127 := by
  unfold control?
  split
  · simp
    omega
  split
  · simp
    omega
  · rw [Option.map_eq_none_iff, controlLetter?_eq_none_iff]
    omega

theorem word_control? (h : control? n = some w) : Word (.code n) w.toList := by
  unfold control? at h
  split at h
  next hn =>
    subst hn
    cases h
    exact .escape
  split at h
  next hn =>
    subst hn
    cases h
    exact .delete
  · obtain ⟨letter, hletter, rfl⟩ := Option.map_eq_some_iff.1 h
    simpa using Word.control hletter

theorem word_ofChar (c : Char) : Word (.code c.toNat) (ofChar c).toList := by
  rw [ofChar]
  cases h : control? c.toNat with
  | some w => exact word_control? h
  | none =>
    obtain ⟨hc, hdelete⟩ := control?_eq_none_iff.1 h
    simpa using Word.char hc hdelete

theorem toNat_ofNat (h : n.isValidChar) : (Char.ofNat n).toNat = n := by
  rw [Char.ofNat, dif_pos h]
  rfl

/-- A code without a name is that of the character that its word is. -/
theorem ofCode?_cases (h : ofCode? n = some w) :
    control? n = some w ∨ ∃ c, n = c.toNat ∧ w.toList = [c] ∧ 31 < n ∧ n ≠ 127 := by
  unfold ofCode? at h
  split at h
  next word hword => exact .inl (hword.trans h)
  next hnone =>
    split at h
    next hvalid =>
      simp only at h
      split at h
      · cases h
      · cases h
        exact .inr ⟨Char.ofNat n, (toNat_ofNat hvalid).symm, by simp, control?_eq_none_iff.1 hnone⟩
    · cases h

theorem word_ofCode? (h : ofCode? n = some w) : Word (.code n) w.toList := by
  rcases ofCode?_cases h with h | ⟨c, rfl, hw, hc, hdelete⟩
  · exact word_control? h
  · rw [hw]
    exact .char hc hdelete

theorem word_ofInt? {n : Int} (h : ofInt? n = some w) : Word (.code n) w.toList := by
  unfold ofInt? at h
  split at h
  · cases h
  next n =>
    split at h
    next hn =>
      obtain ⟨m, rfl⟩ := Nat.exists_eq_add_of_le hn.1
      rw [Nat.add_sub_cancel_left] at h
      split at h
      next hm =>
        subst hm
        cases h
        exact .metaEscape
      · obtain ⟨letter, hletter, rfl⟩ := Option.map_eq_some_iff.1 h
        simpa using Word.metaControl hletter
    split at h
    next hn =>
      obtain ⟨m, rfl⟩ := Nat.exists_eq_add_of_le (Nat.le_trans (Nat.le_add_right _ 33) hn.1)
      rw [Nat.add_sub_cancel_left] at h
      obtain ⟨word, hword, rfl⟩ := Option.map_eq_some_iff.1 h
      rcases ofCode?_cases hword with hcontrol | ⟨c, rfl, hw, -, -⟩
      · have hnone : control? m = none := control?_eq_none_iff.2 (by omega)
        simp [hnone] at hcontrol
      · rw [String.toList_append, hw]
        exact .metaChar (by omega) (by omega)
    · exact word_ofCode? h

theorem word_ofElement? (hblank : ∀ c ∈ word, isBlank c = false) (h : ofElement? word = some w) :
    Word (.ofElement word) w.toList := by
  unfold ofElement? at h
  unfold Key.ofElement
  cases hint : integer? word with
  | some n =>
    rw [hint] at h
    exact word_ofInt? h
  | none =>
    rw [hint] at h
    cases h
    simpa using Word.named hblank

theorem forall₂_word_mapM {words : List (List Char)} {ws : List String}
    (hblank : ∀ word ∈ words, ∀ c ∈ word, isBlank c = false) (h : words.mapM ofElement? = some ws) :
    List.Forall₂ (fun k w => Word k w.toList) (words.map .ofElement) ws := by
  induction words generalizing ws with
  | nil =>
    cases h
    exact .nil
  | cons word words ih =>
    rw [List.forall_mem_cons] at hblank
    simp only [List.mapM_cons, Option.bind_eq_bind, Option.bind_eq_some_iff] at h
    obtain ⟨w, hw, rest, hrest, hws⟩ := h
    cases hws
    exact .cons (word_ofElement? hblank.1 hw) (ih hblank.2 hrest)

/-- A description has a word for each key. -/
theorem exists_keys? {key : Operand} {ws : List String} (h : words? key = some ws) :
    ∃ ks, keys? key = some ks ∧ List.Forall₂ (fun k w => Word k w.toList) ks ws := by
  cases key with
  | str s =>
    obtain ⟨inner, hinner, rfl⟩ := Option.map_eq_some_iff.1 h
    refine ⟨_, by rw [keys?, hinner]; rfl, ?_⟩
    rw [List.forall₂_map_left_iff, List.forall₂_map_right_iff]
    exact List.forall₂_same.2 fun c _ => word_ofChar c
  | symbol s =>
    obtain ⟨inner, hinner, hws⟩ := Option.bind_eq_some_iff.1 h
    exact ⟨_, by rw [keys?, hinner]; rfl, forall₂_word_mapM (fun _ => noBlank_of_mem_words) hws⟩
  | int n => cases h
  | routine r => cases h

/-! ### Reading the words -/

/-- A key whose word denotes it. -/
def Key.Legible : Key → Prop
  | .code n => n ≠ 32 ∧ ¬ (28 ≤ n ∧ n ≤ 31) ∧ ¬ (metaBit + 28 ≤ n ∧ n ≤ metaBit + 31)
  | .named _ => True

instance : DecidablePred Key.Legible
  | .code _ => inferInstanceAs (Decidable (_ ∧ _ ∧ _))
  | .named _ => inferInstanceAs (Decidable True)

/-- A key whose word stands for itself in a string literal. -/
def Key.Unescaped : Key → Prop
  | .code n => ∀ c ∈ ['"', '\\'], n ≠ c.toNat ∧ n ≠ metaBit + c.toNat
  | .named name => ∀ c ∈ ['"', '\\'], c ∉ name.toList

instance : DecidablePred Key.Unescaped
  | .code n => List.decidableBAll (fun c : Char => n ≠ c.toNat ∧ n ≠ metaBit + c.toNat) ['"', '\\']
  | .named name => List.decidableBAll (fun c : Char => c ∉ name.toList) ['"', '\\']

theorem lt_of_letter (h : controlLetter? n = some letter) : n < 32 ∧ n ≠ 27 := by
  have hsome : controlLetter? n ≠ none := by simp [h]
  rw [ne_eq, controlLetter?_eq_none_iff] at hsome
  omega

theorem toNat_lt_metaBit (c : Char) : c.toNat < metaBit := by
  have hvalid : c.toNat.isValidChar := c.valid
  unfold Nat.isValidChar at hvalid
  unfold metaBit
  omega

/-- The letters up to 27 are those of the control characters, and the others are not. -/
theorem letter_cases (h : controlLetter? n = some letter) :
    isSeparator letter = false ∧ letter ≠ '"' ∧ letter ≠ '\\' ∧
      controlCode? letter = if n < 28 then some n else none := by
  have hall : ∀ n < 32, (controlLetter? n).all (fun letter =>
      isSeparator letter = false ∧ letter ≠ '"' ∧ letter ≠ '\\' ∧
        controlCode? letter = if n < 28 then some n else none) = true := by decide
  simpa [h] using hall n (lt_of_letter h).1

theorem isSeparator_eq_false (hc : 32 < c.toNat) : isSeparator c = false := by
  simp only [isSeparator, Bool.or_eq_false_iff, beq_eq_false_iff_ne]
  refine ⟨⟨⟨?_, ?_⟩, ?_⟩, ?_⟩ <;>
    · rintro rfl
      exact absurd hc (by decide)

theorem isSeparator_of_not_isBlank (h : isBlank c = false) : isSeparator c = false := by
  simp only [isSeparator, Bool.or_eq_false_iff, beq_eq_false_iff_ne]
  refine ⟨⟨⟨?_, ?_⟩, ?_⟩, ?_⟩ <;>
    · rintro rfl
      exact absurd h (by decide)

/-- A text without separators is one word. -/
theorem separated_append (lead tail : List Char) (hlead : lead.any isSeparator = false)
    (htail : ∀ c ∈ tail, isSeparator c = false) (hne : tail ≠ []) :
    separated (lead ++ tail) = [lead ++ tail] := by
  have huncut : ∀ c ∈ lead, isSeparator c = false := by simpa using hlead
  simp [separated, pieces_of_uncut (List.forall_mem_append.2 ⟨huncut, htail⟩), hne]

/-- A word is the only one of its text and denotes its key, if that is legible. The space is no word
and the others have no meaning. -/
theorem Word.read (h : Word k word) :
    (k.Legible ∧ separated word = [word] ∧ readWord? word = some k) ∨
      (¬ k.Legible ∧ (separated word = [] ∨ separated word = [word] ∧ readWord? word = none)) := by
  cases h with
  | escape => exact .inl ⟨by decide, by decide, by rfl⟩
  | delete => exact .inl ⟨by decide, by decide, by rfl⟩
  | metaEscape => exact .inl ⟨by decide, by decide, by rfl⟩
  | @control n letter hletter =>
    obtain ⟨hseparator, -, -, hcode⟩ := letter_cases hletter
    have hsplit : separated ['C', '-', letter] = [['C', '-', letter]] :=
      separated_append ['C', '-'] [letter] (by decide) (by simpa using hseparator) (by simp)
    rw [readWord?, hcode]
    by_cases hn : n < 28
    · exact .inl ⟨⟨by omega, by omega, by unfold metaBit; omega⟩, hsplit, by rw [if_pos hn]; rfl⟩
    · have hlt := lt_of_letter hletter
      exact .inr ⟨fun h => h.2.1 (by omega), .inr ⟨hsplit, by rw [if_neg hn]; rfl⟩⟩
  | @metaControl n letter hletter =>
    obtain ⟨hseparator, -, -, hcode⟩ := letter_cases hletter
    have hsplit : separated ['C', '-', 'M', '-', letter] = [['C', '-', 'M', '-', letter]] :=
      separated_append ['C', '-', 'M', '-'] [letter] (by decide) (by simpa using hseparator)
        (by simp)
    rw [readWord?, hcode]
    by_cases hn : n < 28
    · refine .inl ⟨?_, hsplit, by rw [if_pos hn]; rfl⟩
      unfold Key.Legible metaBit
      omega
    · have hlt := lt_of_letter hletter
      exact .inr ⟨fun h => h.2.2 (by omega), .inr ⟨hsplit, by rw [if_neg hn]; rfl⟩⟩
  | @char c hc hdelete =>
    by_cases hspace : c.toNat = 32
    · obtain rfl : c = ' ' := Char.toNat_inj.1 hspace
      exact .inr ⟨fun h => h.1 rfl, .inl (by decide)⟩
    · have hvalid := toNat_lt_metaBit c
      have hsplit : separated [c] = [[c]] :=
        separated_append [] [c] (by simp) (by simpa using isSeparator_eq_false (by omega)) (by simp)
      exact .inl ⟨⟨by omega, by omega, by omega⟩, hsplit, rfl⟩
  | @metaChar c hc hdelete =>
    have hsplit : separated ['M', '-', c] = [['M', '-', c]] :=
      separated_append ['M', '-'] [c] (by decide) (by simpa using isSeparator_eq_false hc) (by simp)
    refine .inl ⟨?_, hsplit, rfl⟩
    unfold Key.Legible metaBit
    omega
  | @named name hblank =>
    have hname : ∀ c ∈ name ++ ['>'], isSeparator c = false := by
      rw [List.forall_mem_append]
      exact ⟨fun c hc => isSeparator_of_not_isBlank (hblank c hc),
        List.forall_mem_singleton.2 rfl⟩
    refine .inl ⟨trivial, separated_append ['<'] _ (by decide) hname (by simp), ?_⟩
    cases name with
    | nil => rfl
    | cons c name =>
      rw [List.cons_append, readWord?, ← List.cons_append, before?_append]
      · rfl
      · simp

theorem ne_quotes_iff : c ≠ '"' ∧ c ≠ '\\' ↔ c.toNat ≠ 34 ∧ c.toNat ≠ 92 :=
  and_congr (not_congr Char.toNat_inj.symm) (not_congr Char.toNat_inj.symm)

theorem Key.unescaped_code_iff {n : Int} : (code n).Unescaped ↔
    (n ≠ 34 ∧ n ≠ metaBit + 34) ∧ n ≠ 92 ∧ n ≠ metaBit + 92 := by
  simp [Unescaped]

/-- A word has no quote and no backslash iff its key is unescaped. -/
theorem Word.unescaped_iff (h : Word k word) :
    (∀ c ∈ word, c ≠ '"' ∧ c ≠ '\\') ↔ k.Unescaped := by
  cases h with
  | escape => exact iff_of_true (by simp) (by decide)
  | delete => exact iff_of_true (by simp) (by decide)
  | metaEscape => exact iff_of_true (by simp) (by decide)
  | control hletter =>
    obtain ⟨-, hquote, hbackslash, -⟩ := letter_cases hletter
    have hlt := lt_of_letter hletter
    rw [Key.unescaped_code_iff]
    refine iff_of_true (by simp [hquote, hbackslash]) ?_
    unfold metaBit
    omega
  | metaControl hletter =>
    obtain ⟨-, hquote, hbackslash, -⟩ := letter_cases hletter
    have hlt := lt_of_letter hletter
    rw [Key.unescaped_code_iff]
    refine iff_of_true (by simp [hquote, hbackslash]) ?_
    unfold metaBit
    omega
  | @char c hc hdelete =>
    have hlt := toNat_lt_metaBit c
    rw [Key.unescaped_code_iff, List.forall_mem_singleton, ne_quotes_iff]
    omega
  | @metaChar c hc hdelete =>
    have hword : (∀ d ∈ ['M', '-', c], d ≠ '"' ∧ d ≠ '\\') ↔ c ≠ '"' ∧ c ≠ '\\' := by simp
    rw [hword, ne_quotes_iff, Key.unescaped_code_iff]
    unfold metaBit
    omega
  | @named name hblank =>
    have hunescaped : (Key.named (String.ofList name)).Unescaped ↔ '"' ∉ name ∧ '\\' ∉ name := by
      simp [Key.Unescaped]
    rw [hunescaped, List.forall_mem_cons, List.forall_mem_append]
    constructor
    · rintro ⟨-, hname, -⟩
      exact ⟨fun hc => (hname _ hc).1 rfl, fun hc => (hname _ hc).2 rfl⟩
    · rintro ⟨hquote, hbackslash⟩
      refine ⟨by decide, fun c hc => ⟨?_, ?_⟩, List.forall_mem_singleton.2 (by decide)⟩
      · rintro rfl
        exact hquote hc
      · rintro rfl
        exact hbackslash hc

theorem unescaped_iff_of_words {ks : List Key} {ws : List (List Char)}
    (h : List.Forall₂ Word ks ws) :
    (∀ w ∈ ws, ∀ c ∈ w, c ≠ '"' ∧ c ≠ '\\') ↔ ∀ k ∈ ks, k.Unescaped := by
  induction h with
  | nil => simp
  | cons hword hwords ih =>
    rw [List.forall_mem_cons, List.forall_mem_cons, hword.unescaped_iff, ih]

variable {ks : List Key} {ws : List (List Char)}

/-- There are no more words than keys, and as many only if all are legible. -/
theorem legible_of_mapM (h : List.Forall₂ Word ks ws) {read : List Key}
    (hread : (ws.flatMap separated).mapM readWord? = some read) :
    read.length ≤ ks.length ∧ (read.length = ks.length → ∀ k ∈ ks, k.Legible) := by
  induction h generalizing read with
  | nil =>
    cases hread
    simp
  | @cons k word ks ws hword hwords ih =>
    rw [List.flatMap_cons] at hread
    rcases hword.read with ⟨hk, hsplit, hkey⟩ | ⟨-, hsplit | ⟨hsplit, hkey⟩⟩
    · simp only [hsplit, List.singleton_append, List.mapM_cons, hkey, Option.bind_eq_bind,
        Option.bind_some, Option.bind_eq_some_iff] at hread
      obtain ⟨rest, hrest, hread⟩ := hread
      cases hread
      obtain ⟨hle, hall⟩ := ih hrest
      simp only [List.length_cons, List.forall_mem_cons]
      exact ⟨by omega, fun hlength => ⟨hk, hall (by omega)⟩⟩
    · rw [hsplit, List.nil_append] at hread
      have hle := (ih hread).1
      simp only [List.length_cons]
      exact ⟨by omega, fun hlength => by omega⟩
    · simp [hsplit, hkey] at hread

theorem mapM_of_legible (h : List.Forall₂ Word ks ws) (hks : ∀ k ∈ ks, k.Legible) :
    (ws.flatMap separated).mapM readWord? = some ks := by
  induction h with
  | nil => rfl
  | cons hword hwords ih =>
    rw [List.forall_mem_cons] at hks
    obtain ⟨-, hsplit, hkey⟩ := hword.read.resolve_right fun h => h.1 hks.1
    simp [List.flatMap_cons, hsplit, hkey, ih hks.2]

theorem separated_intercalate (ws : List (List Char)) :
    separated ([' '].intercalate ws) = ws.flatMap separated := by
  induction ws with
  | nil => rfl
  | cons w ws ih =>
    cases ws with
    | nil => simp
    | cons v ws =>
      rw [List.intercalate_cons_cons, List.flatMap_cons, ← ih, separated, List.append_assoc,
        List.singleton_append, pieces_append_cons (by rfl), List.filter_append]
      rfl

theorem forall_mem_intercalate {p : Char → Prop} (hp : p ' ') :
    (∀ c ∈ [' '].intercalate ws, p c) ↔ ∀ w ∈ ws, ∀ c ∈ w, p c := by
  induction ws with
  | nil => simp
  | cons w ws ih =>
    cases ws with
    | nil => simp
    | cons v ws =>
      rw [List.intercalate_cons_cons, List.forall_mem_append, List.forall_mem_append,
        List.forall_mem_singleton, ih, List.forall_mem_cons]
      simp [hp]

/-! ### String literals -/

theorem length_lt_of_literalText? {cs text : List Char} (h : literalText? cs = some text) :
    text.length < cs.length := by
  fun_induction literalText? cs generalizing text with
  | case1 => cases h
  | case2 =>
    cases h
    simp
  | case3 => cases h
  | case4 => cases h
  | case5 c cs ih =>
    obtain ⟨rest, hrest, rfl⟩ := Option.map_eq_some_iff.1 h
    have hlt := ih hrest
    simp only [List.length_cons]
    omega
  | case6 c cs _ _ _ _ ih =>
    obtain ⟨rest, hrest, rfl⟩ := Option.map_eq_some_iff.1 h
    have hlt := ih hrest
    simp only [List.length_cons]
    omega

theorem literalText?_append_quote (text : List Char) :
    literalText? (text ++ ['"']) = some text ↔ ∀ c ∈ text, c ≠ '"' ∧ c ≠ '\\' := by
  induction text with
  | nil => simp [literalText?]
  | cons c cs ih =>
    obtain ⟨d, ds, hds⟩ := List.exists_cons_of_ne_nil (l := cs ++ ['"']) (by simp)
    rw [List.forall_mem_cons, ← ih, List.cons_append, hds]
    by_cases hquote : c = '"'
    · subst hquote
      simp [literalText?]
    by_cases hbackslash : c = '\\'
    · subst hbackslash
      refine iff_of_false (fun h => ?_) (by simp)
      rw [literalText?] at h
      obtain ⟨rest, hrest, heq⟩ := Option.map_eq_some_iff.1 h
      obtain ⟨-, rfl⟩ := List.cons.inj heq
      have hlength := congrArg List.length hds
      have hlt := length_lt_of_literalText? hrest
      simp at hlength
      omega
    · simp [literalText?, hquote, hbackslash]

/-- The key of a call that binds one. -/
def bound? (children : List Node) : Option Operand := do
  let callee ← (← (← children.head?).constant?).operandText?
  let place ← Idiom.keyPlace? callee children.length
  (← (← children[place]?).constant?).operand

theorem kbd?_of_bound {children : List Node} {key : Operand} {d : String}
    (hkey : bound? children = some key) (h : describe? key = some d) (kind : Nonterminal) :
    ∃ place offset, Idiom.kbd? kind children =
      some (Idiom.kbd.made kind (children.set place (Node.plain .expr [Node.plain .kbd [.token
        (.ofOpcode .constant (some (.str ("\"" ++ d ++ "\""))) offset)]]))) := by
  simp only [bound?, Option.bind_eq_bind, Option.bind_eq_some_iff] at hkey
  obtain ⟨first, hfirst, f, hf, callee, hcallee, place, hplace, old, hold, i, hi, hkey⟩ := hkey
  refine ⟨place, i.offset, ?_⟩
  simp [Idiom.kbd?, hfirst, hf, hcallee, hplace, hold, hi, hkey, h]

/-- A description is read back as the keys that it describes iff they are legible, and the literal
that the idiom puts it in is one of that text iff they are unescaped. -/
theorem denotes_of_describe? {key : Operand} {d : String} (h : describe? key = some d) :
    ∃ ks, keys? key = some ks ∧ (read? d.toList = some ks ↔ ∀ k ∈ ks, k.Legible) ∧
      (literal? ("\"" ++ d ++ "\"") = some d.toList ↔ ∀ k ∈ ks, k.Unescaped) ∧
      ∀ kind children, bound? children = some key → ∃ place offset, Idiom.kbd? kind children =
        some (Idiom.kbd.made kind (children.set place (Node.plain .expr [Node.plain .kbd [.token
          (.ofOpcode .constant (some (.str ("\"" ++ d ++ "\""))) offset)]]))) := by
  obtain ⟨ws, hws, hd⟩ : ∃ ws, words? key = some ws ∧ " ".intercalate ws = d := by
    unfold describe? at h
    split at h
    · cases h
    · cases h
    next ws _ hws => exact ⟨ws, hws, Option.some.inj h⟩
  obtain ⟨ks, hks, hwords⟩ := exists_keys? hws
  have hwords : List.Forall₂ Word ks (ws.map String.toList) :=
    List.forall₂_map_right_iff.2 hwords
  have htext : d.toList = [' '].intercalate (ws.map String.toList) := by
    rw [← hd, String.toList_intercalate]
    rfl
  refine ⟨ks, hks, ?_, ?_, fun kind children hkey => kbd?_of_bound hkey h kind⟩
  · rw [read?, htext, separated_intercalate]
    exact ⟨fun hread => (legible_of_mapM hwords hread).2 rfl, mapM_of_legible hwords⟩
  · have hliteral : literal? ("\"" ++ d ++ "\"") = literalText? (d.toList ++ ['"']) := by
      rw [literal?, String.toList_append, String.toList_append, List.append_assoc]
      rfl
    rw [hliteral, literalText?_append_quote, htext, forall_mem_intercalate (by decide)]
    exact unescaped_iff_of_words hwords

theorem denotes_of_describe?_metaX :
    describe? (.symbol "[134217848 f1 24]") = some "M-x <f1> C-x" ∧
      keys? (.symbol "[134217848 f1 24]") = some [.code 134217848, .named "f1", .code 24] ∧
      read? "M-x <f1> C-x".toList = some [.code 134217848, .named "f1", .code 24] ∧
      literal? "\"M-x <f1> C-x\"" = some "M-x <f1> C-x".toList := by
  have h : describe? (.symbol "[134217848 f1 24]") = some "M-x <f1> C-x" := by decide
  have hkeys : keys? (.symbol "[134217848 f1 24]") =
    some [.code 134217848, .named "f1", .code 24] := by decide
  obtain ⟨ks, hks, hread, hliteral, -⟩ := denotes_of_describe? h
  obtain rfl := Option.some.inj (hks.symm.trans hkeys)
  exact ⟨h, hkeys, hread.2 (by decide), hliteral.2 (by decide)⟩

/-- A space is lost between the blanks around it, the code 28 has a word that is none, and a quote
ends the literal before its end. -/
theorem misread_space :
    (describe? (.str "\"a b\"") = some "a   b" ∧
      keys? (.str "\"a b\"") = some [.code 97, .code 32, .code 98] ∧
      read? "a   b".toList = some [.code 97, .code 98]) ∧
    (describe? (.symbol "[28]") = some "C-|" ∧ read? "C-|".toList = none) ∧
      describe? (.symbol "[34]") = some "\"" ∧ literal? "\"\"\"" = none := by
  decide +kernel

end ElispLift.Keys
