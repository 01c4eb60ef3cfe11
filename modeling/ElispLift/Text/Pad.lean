/-!
# Text in columns

Text is filled up with spaces to a number of characters, and never shortened. Where lengths count
bytes, they count those of UTF-8.
-/

namespace ElispLift.Text

def byteLength : List Char → Nat
  | [] => 0
  | c :: cs => c.utf8Size + byteLength cs

theorem byteLength_append (cs ds : List Char) :
    byteLength (cs ++ ds) = byteLength cs + byteLength ds := by
  induction cs with
  | nil => simp [byteLength]
  | cons c cs ih => simp [byteLength, ih, Nat.add_assoc]

def spaces (n : Nat) : String := String.ofList (List.replicate n ' ')

/-- Fill up on the left. -/
def padStart (width : Nat) (s : String) : String :=
  spaces (width - s.length) ++ s

/-- Fill up on the right. -/
def padEnd (width : Nat) (s : String) : String :=
  s ++ spaces (width - s.length)

end ElispLift.Text
