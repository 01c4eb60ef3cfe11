import ElispLift.Instruction

/-!
# Key descriptions

Keys are described by words, as `kbd` reads them: a control character by `C-` and a letter, a
character with the meta bit by `M-`, and a key without a character by its name in angle brackets.
-/

namespace ElispLift.Keys

/-- The bit that holding the meta key sets. -/
def metaBit : Nat := 0x8000000

/-- The last part of the word for a control character. -/
def controlLetter? (c : Nat) : Option Char :=
  if c = 0 then some '@'
  else if c = 27 then none
  else if c ≤ 31 then some (Char.ofNat (c + 96))
  else none

/-- The word for a control character. -/
def control? (c : Nat) : Option String :=
  if c = 27 then some "ESC"
  else if c = 127 then some "DEL"
  else (controlLetter? c).map fun k => "C-" ++ k.toString

/-- The word for a character given as itself. -/
def ofChar (c : Char) : String := (control? c.toNat).getD c.toString

def isControl (c : Char) : Bool := c.toNat < 32 || (127 ≤ c.toNat && c.toNat < 160)

/-- The word for a character given as its code. Codes of no character have none. -/
def ofCode? (n : Nat) : Option String :=
  match control? n with
  | some word => some word
  | none =>
    if n.isValidChar then
      let c := Char.ofNat n
      if isControl c then none else some c.toString
    else none

/-- The word for a key of a vector given as a number. -/
def ofInt? (n : Int) : Option String :=
  match n with
  | .negSucc _ => none
  | .ofNat n =>
    if metaBit ≤ n ∧ n ≤ metaBit + 31 then
      if n - metaBit = 27 then some "M-ESC"
      else (controlLetter? (n - metaBit)).map fun k => "C-M-" ++ k.toString
    else if metaBit + 33 ≤ n ∧ n ≤ metaBit + 126 then (ofCode? (n - metaBit)).map ("M-" ++ ·)
    else ofCode? n

/-- The word for an element of a vector, where all but numbers are names of keys. -/
def ofElement? (word : List Char) : Option String :=
  match Text.integer? word with
  | some n => ofInt? n
  | none => some ("<" ++ String.ofList word ++ ">")

/-- The text between an opening and a closing character. -/
def between? (opening closing : Char) (s : String) : Option (List Char) :=
  (Text.after? [opening] s.toList).bind (Text.before? [closing])

/-- The words for the keys of a string or vector. -/
def words? : Operand → Option (List String)
  | .str s => (between? '"' '"' s).map (·.map ofChar)
  | .symbol s => (between? '[' ']' s).bind fun inner => (Text.words inner).mapM ofElement?
  | _ => none

/-- The description of a key sequence, which is not empty. -/
def describe? (key : Operand) : Option String :=
  match words? key with
  | none | some [] => none
  | some words => some (" ".intercalate words)

end ElispLift.Keys
