import ElispLift.Text.Invisible

/-!
# Text in quotes

Text is shown between double quotes in such a way that all of it can be seen. Quotes and backslashes
stand behind a backslash, and invisible characters are shown by a letter or by their code point.
-/

namespace ElispLift.Text

/-- The code point in hexadecimal digits between braces. -/
def codePoint (c : Char) : List Char :=
  ['\\', 'u', '\x7b'] ++ Nat.toDigits 16 c.toNat ++ ['\x7d']

/-- The letter behind a backslash that stands for a character, if it has one. -/
def escapeLetter? (c : Char) : Option Char :=
  if c = '\x00' then some '0'
  else if c = '\t' then some 't'
  else if c = '\n' then some 'n'
  else if c = '\r' then some 'r'
  else if c = '\\' || c = '\x22' || c = '\x27' then some c
  else none

def shown (c : Char) : List Char :=
  match escapeLetter? c with
  | some letter => ['\\', letter]
  | none => if isInvisible c then codePoint c else [c]

def quoted (s : String) : String := String.ofList ('\x22' :: s.toList.flatMap shown ++ ['\x22'])

end ElispLift.Text
