/-!
# What can go wrong

A listing may be unreadable, a jump may lead nowhere, instructions may have no reading as source,
and a value may be read inside itself. Each cause carries what its message shows.
-/

namespace ElispLift

/-- Instructions that no rule covers: the instruction at which reading got stuck, and the
instructions around it, one line each. -/
structure ParseFailure where
  token : String
  offset : Nat
  context : List String
deriving DecidableEq, Repr

inductive Error where
  | unresolvedLabel (label : String) (offset : Nat)
  | noParse (failure : ParseFailure)
  | malformedLine (line : Nat) (text : String)
  | unknownOpcode (line : Nat) (mnemonic : String)
  | unexpectedEnd (line : Nat)
  | unknownStart (name : String)
  | endlessRendering
deriving DecidableEq, Repr

def ParseFailure.message (e : ParseFailure) : String :=
  "parse error at or near `" ++ e.token ++ "' instruction at offset " ++ toString e.offset

def Error.message : Error → String
  | unresolvedLabel label offset =>
    "jump to unknown label " ++ label ++ " at offset " ++ toString offset
  | noParse e => e.message
  | malformedLine line text =>
    "line " ++ toString line ++ ": malformed instruction `" ++ text ++ "`"
  | unknownOpcode line mnemonic =>
    "line " ++ toString line ++ ": unknown opcode `" ++ mnemonic ++ "`"
  | unexpectedEnd line => "line " ++ toString line ++ ": unexpected end of listing"
  | unknownStart name => "bad grammar: unknown start symbol `" ++ name ++ "`"
  | endlessRendering => "render inconsistency: a value is read while it is rendered"

instance : ToString Error := ⟨Error.message⟩

/-- There is a result if something is found to hold of it. -/
theorem exists_ok_of_any {ε α : Type} {e : Except ε α} {p : α → Bool}
    (h : e.toOption.any p = true) : ∃ a, e = .ok a ∧ p a = true := by
  cases e with
  | error cause => cases h
  | ok a => exact ⟨a, rfl, h⟩

theorem exists_error_of_isNone {ε α : Type} {e : Except ε α} (h : e.toOption.isNone = true) :
    ∃ cause, e = .error cause := by
  cases e with
  | error cause => exact ⟨cause, rfl⟩
  | ok a => cases h

end ElispLift
