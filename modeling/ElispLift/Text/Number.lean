/-!
# Decimal numbers in text

Natural numbers and integers are read with a bound, and refused beyond it. Leading zeros and one
plus sign are allowed. Decimal fractions are only recognised, since nothing computes with them.
-/

namespace ElispLift.Text

def digitValue (c : Char) : Nat := c.toNat - '0'.toNat

/-- The value of a text of digits; nothing else and not the empty text. -/
def digits? (cs : List Char) : Option Nat :=
  if cs.isEmpty || !cs.all Char.isDigit then none
  else some (cs.foldl (fun n c => 10 * n + digitValue c) 0)

/-- A natural number of at most `limit`. -/
def natUpTo? (limit : Nat) (cs : List Char) : Option Nat :=
  let value := match cs with
    | '+' :: rest => digits? rest
    | _ => digits? cs
  value.filter (· ≤ limit)

/-- The largest natural number in 32 bits. -/
def maxWord : Nat := 0xffffffff

/-- The bound of a size in memory, which is 64 bits wide. -/
def maxSize : Nat := 0xffffffffffffffff

/-- An integer of 64 bits in two's complement. -/
def integer? (cs : List Char) : Option Int :=
  let value : Option Int := match cs with
    | '-' :: rest => (digits? rest).map fun n => -(n : Int)
    | '+' :: rest => (digits? rest).map Int.ofNat
    | _ => (digits? cs).map Int.ofNat
  value.filter fun n => -0x8000000000000000 ≤ n ∧ n < 0x8000000000000000

def dropSign : List Char → List Char
  | '+' :: rest => rest
  | '-' :: rest => rest
  | cs => cs

/-- An exponent is `e` or `E`, a sign or none, and digits. -/
def isExponent : List Char → Bool
  | c :: rest => (c == 'e' || c == 'E') && (digits? (dropSign rest)).isSome
  | [] => false

/-- A fraction is digits with at most one point among them and an exponent or none. -/
def isFraction (cs : List Char) : Bool :=
  let whole := cs.takeWhile Char.isDigit
  let rest := cs.dropWhile Char.isDigit
  let (part, rest) := match rest with
    | '.' :: r => (r.takeWhile Char.isDigit, r.dropWhile Char.isDigit)
    | _ => ([], rest)
  !(whole.isEmpty && part.isEmpty) && (rest.isEmpty || isExponent rest)

/-- A number is a fraction, an infinity or not a number, each with a sign or none. The words are
known in capitals as well. -/
def isDecimal (cs : List Char) : Bool :=
  let body := dropSign cs
  isFraction body || ["inf", "infinity", "nan"].any fun w => w.toList == body.map Char.toLower

end ElispLift.Text
