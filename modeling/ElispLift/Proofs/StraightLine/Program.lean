import Mathlib.Data.List.Forall2
import ElispLift.Source.Form

/-!
# Straight-line programs

Programs without control flow: assignments and discarded expressions, and an expression whose value
is returned. Operands are computed before what is applied to them, so the code of a program is its
postfix form. The Lisp text of a program has one line for each statement and one for the value.
-/

namespace ElispLift.StraightLine

/-- Constants and variables, operations of the opcode table, calls of a symbol, and operations that
take as many operands as they say. -/
inductive Expr where
  | constant (operand : Operand)
  | reference (name : Operand)
  | apply (op : Opcode) (args : List Expr)
  | call (callee : String) (args : List Expr)
  | form (family : Family) (args : List Expr)

inductive Statement where
  | setq (name : Operand) (value : Expr)
  | discard (value : Expr)

structure Program where
  statements : List Statement
  value : Expr

/-- The number of operands of operations that apply a function. -/
def arity? : OpClass → Option Nat
  | .nullary => some 0
  | .unary => some 1
  | .binary => some 2
  | .ternary => some 3
  | _ => none

/-- The largest count of an operation in byte code. -/
def maxCount : Nat := 255

namespace Expr

mutual

/-- Names and constants have a text, and every operation has as many operands as it takes. -/
def WellFormed : Expr → Prop
  | constant operand => operand.toText ≠ ""
  | reference name => name.toText ≠ ""
  | apply op args => arity? op.opClass = some args.length ∧ AllWellFormed args
  | call callee args => callee ≠ "" ∧ args.length ≤ maxCount ∧ AllWellFormed args
  | form family args =>
    family ∈ [.list, .concat, .insert] ∧ args.length ≤ maxCount ∧ AllWellFormed args

def AllWellFormed : List Expr → Prop
  | [] => True
  | e :: rest => e.WellFormed ∧ AllWellFormed rest

end

mutual

/-- Operations in postfix order, with the operands of constants and variables. -/
def code : Expr → List (OpKind × Option Operand)
  | constant operand => [(.fixed .constant, some operand)]
  | reference name => [(.fixed .varref, some name)]
  | apply op args => codeOf args ++ [(.fixed op, none)]
  | call callee args =>
    (.fixed .constant, some (.symbol callee)) :: codeOf args ++ [(.counted .call args.length, none)]
  | form family args => codeOf args ++ [(.counted family args.length, none)]

def codeOf : List Expr → List (OpKind × Option Operand)
  | [] => []
  | e :: rest => e.code ++ codeOf rest

end

/-- A constant as it is written. Symbols are quoted unless they count as self-evaluating here, as
`inf`, `infinity` and `nan` do although Lisp reads them as variables. -/
def quoted : Operand → String
  | .int n => toString n
  | .str text => text
  | .symbol name => if isSelfEvaluating name then name else "'" ++ name
  | .routine r => "#'" ++ r.name

mutual

def lisp : Expr → String
  | constant operand => quoted operand
  | reference name => name.toText
  | apply op args => "(" ++ op.lisp ++ lispOf args
  | call callee args => "(" ++ callee ++ lispOf args
  | form family args => "(" ++ family.lisp ++ lispOf args

/-- The operands, each behind a space, up to the closing parenthesis. -/
def lispOf : List Expr → String
  | [] => ")"
  | e :: rest => " " ++ e.lisp ++ lispOf rest

end

end Expr

namespace Statement

def WellFormed : Statement → Prop
  | setq _ value => value.WellFormed
  | discard value => value.WellFormed

def code : Statement → List (OpKind × Option Operand)
  | setq name value => value.code ++ [(.fixed .varset, some name)]
  | discard value => value.code ++ [(.fixed .discard, none)]

def lisp : Statement → String
  | setq name value => "(setq " ++ name.toText ++ " " ++ value.lisp ++ ")"
  | discard value => value.lisp

end Statement

namespace Program

def WellFormed (p : Program) : Prop := (∀ s ∈ p.statements, s.WellFormed) ∧ p.value.WellFormed

/-- The code of the statements and of the value. -/
def parts (p : Program) : List (List (OpKind × Option Operand)) :=
  p.statements.map (·.code) ++ [p.value.code]

def code (p : Program) : List (OpKind × Option Operand) := p.parts.flatten ++ [(.fixed .ret, none)]

def lines (p : Program) : List String := p.statements.map (·.lisp) ++ [p.value.lisp]

end Program

/-- The instruction is the operation, with the operand if one is given. -/
def Spells (i : Instruction) (op : OpKind × Option Operand) : Prop :=
  i.kind = op.1 ∧ ∀ operand, op.2 = some operand → i.operand = some operand

/-- Instructions that spell the code of a program, at ascending offsets. -/
structure Compiled (p : Program) (is : List Instruction) : Prop where
  spells : List.Forall₂ Spells is p.code
  ascending : is.Pairwise fun i j => i.offset < j.offset

end ElispLift.StraightLine
