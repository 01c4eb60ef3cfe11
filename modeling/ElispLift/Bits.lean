/-!
# Sets of numbers

A finite set of natural numbers is kept as one number, whose binary digits say what is in it.
-/

namespace ElispLift

structure Bits where
  mask : Nat
deriving DecidableEq, Repr

namespace Bits

def empty : Bits := ⟨0⟩

def contains (s : Bits) (n : Nat) : Bool := s.mask.testBit n

def insert (s : Bits) (n : Nat) : Bits := ⟨s.mask ||| 1 <<< n⟩

@[simp] theorem contains_empty (n : Nat) : empty.contains n = false := by
  simp [empty, contains]

@[simp] theorem contains_insert (s : Bits) (m n : Nat) :
    (s.insert m).contains n = (decide (m = n) || s.contains n) := by
  simp only [contains, insert, Nat.one_shiftLeft, Nat.testBit_or, Nat.testBit_two_pow]
  exact Bool.or_comm ..

end Bits

end ElispLift
