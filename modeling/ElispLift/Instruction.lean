import ElispLift.Opcode
import ElispLift.Text.Blank
import ElispLift.Text.Number
import ElispLift.Text.Pad

/-!
# Instructions and routines

An instruction is an operation at an offset with an operand. The operand of a constant may be a
whole compiled routine, so instructions, operands and routines are defined together.
-/

namespace ElispLift

/-- Operations whose number of arguments is part of the instruction. Maxima, minima and joined
lists are not read from listings; nested applications of two arguments are gathered into them. -/
inductive Family where
  | call | list | concat | insert | max | min | nconc
deriving DecidableEq, Repr

namespace Family

def all : List Family := [.call, .list, .concat, .insert, .max, .min, .nconc]

/-- The Lisp function applied. -/
def lisp : Family → String
  | call => "funcall"
  | list => "list"
  | concat => "concat"
  | insert => "insert"
  | max => "max"
  | min => "min"
  | nconc => "nconc"

def stem : Family → String
  | call => "call"
  | f => f.lisp

def name (f : Family) : String := String.ofList (f.stem.toList.map Char.toUpper)

/-- A call takes the function from the stack besides its arguments. -/
def operands : Family → Nat → Nat
  | call, n => n + 1
  | _, n => n

end Family

inductive OpKind where
  | fixed (op : Opcode)
  | counted (family : Family) (count : Nat)
deriving DecidableEq, Repr

namespace OpKind

/-- The terminal of the grammar: the operation's name, with the count if it has one. -/
def name : OpKind → String
  | fixed op => op.name
  | counted f n => f.name ++ "_" ++ toString n

def opClass : OpKind → OpClass
  | fixed op => op.opClass
  | counted _ _ => .other

def isJump (k : OpKind) : Bool := k.opClass = .jump || k.opClass = .jumpCond

def effect : OpKind → Effect
  | fixed op => op.effect
  | counted f n => .fixed (f.operands n) 1

/-- The largest count that a name can hold. -/
def maxCount : Nat := 0xffff

/-- The kind of a name, where a count of at most 16 bits follows the last underscore. -/
def ofName? (s : String) : Option OpKind :=
  match Opcode.ofName? s with
  | some op => some (fixed op)
  | none => Family.all.findSome? fun f => do
    let count ← Text.after? (f.name ++ "_").toList s.toList
    return counted f (← Text.natUpTo? maxCount count)

end OpKind

/-- Macros and functions have an argument list; the code of a file has none. -/
inductive RoutineKind where
  | function | macroFunction | file
deriving DecidableEq, Repr

/-- The Lisp word that defines such a routine. -/
def RoutineKind.keyword : RoutineKind → String
  | function => "defun"
  | macroFunction => "defmacro"
  | file => ""

mutual

/-- Strings keep the quotes that they have in the listing. -/
inductive Operand where
  | int (n : Int)
  | str (text : String)
  | symbol (name : String)
  | routine (r : Routine)

structure Instruction where
  kind : OpKind
  operand : Option Operand
  offset : Nat
  label : Option String

structure Routine where
  name : String
  args : String
  docstring : Option String
  interactive : Option String
  kind : RoutineKind
  instructions : List Instruction

end

namespace Operand

/-- Text that reads as an integer of 64 bits without a plus sign is one, text that opens with a
quote is a string, and all else is a symbol. -/
def ofText (s : String) : Operand :=
  match Text.integer? s.toList, s.toList with
  | some n, c :: _ => if c = '+' then symbol s else int n
  | none, '"' :: _ => str s
  | _, _ => symbol s

def text? : Operand → Option String
  | int _ => none
  | str s => some s
  | symbol s => some s
  | routine r => some r.name

def int? : Operand → Option Int
  | int n => some n
  | _ => none

def toText : Operand → String
  | int n => toString n
  | str s => s
  | symbol s => s
  | routine r => "<compiled-function " ++ r.name ++ ">"

instance : ToString Operand := ⟨toText⟩

end Operand

namespace Instruction

def ofOpcode (op : Opcode) (operand : Option Operand) (offset : Nat) : Instruction :=
  ⟨.fixed op, operand, offset, none⟩

def name (i : Instruction) : String := i.kind.name

def effect (i : Instruction) : Effect := i.kind.effect

def isJump (i : Instruction) : Bool := i.kind.isJump

/-- Whether the instruction is the operation `op`. -/
def isOp (i : Instruction) (op : Opcode) : Bool := i.kind = .fixed op

def operandText? (i : Instruction) : Option String := i.operand.bind Operand.text?

def operandInt? (i : Instruction) : Option Int := i.operand.bind Operand.int?

/-- The offset in a column of five, the name in a column of ten, and the operand. -/
def toText (i : Instruction) : String :=
  let head := Text.padStart 5 (toString i.offset) ++ " " ++ Text.padEnd 10 i.name
  match i.operand with
  | some operand => head ++ " " ++ operand.toText
  | none => String.ofList (Text.trimEnd head.toList)

instance : ToString Instruction := ⟨toText⟩

/-- The change of the stack's height over all instructions when no jump is taken. -/
def net : List Instruction → Int
  | [] => 0
  | i :: is => i.effect.net + net is

theorem net_append (is js : List Instruction) : net (is ++ js) = net is + net js := by
  induction is with
  | nil => simp [net]
  | cons i is ih => simp [net, ih, Int.add_assoc]

end Instruction

end ElispLift
