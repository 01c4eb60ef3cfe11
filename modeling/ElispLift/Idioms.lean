import ElispLift.Keys
import ElispLift.Syntax

/-!
# Idioms

The byte compiler expands macros and splits calls. Where a tree has the shape of such an expansion,
the form that it came from takes its place, children first.
-/

namespace ElispLift

namespace Node

/-- The operation of a node that holds nothing else. -/
def operator? (node : Node) : Option Instruction := (node.child? 0).bind token?

def operatorIs (node : Node) (op : Opcode) : Bool := (node.operator?.map (·.isOp op)).getD false

/-- A node for an operation. -/
def operator (kind : Nonterminal) (op : Opcode) (offset : Nat) : Node :=
  plain kind [token (.ofOpcode op none offset)]

/-- The instruction of an expression that is a constant. -/
def constant? (node : Node) : Option Instruction :=
  match node.unwrap with
  | tree .nameExpr (token i :: _) _ => some i
  | _ => none

/-- The statements of a body. -/
def statements (body : Node) : List Node :=
  if body.isKind .exprs then body.children else ((body.child? 0).getD body).children

/-- Whether a variable is read somewhere in a node. -/
def refersTo (node : Node) (name : String) : Bool :=
  node.tokens.any fun t => t.isOp .varref && t.operandText? == some name

end Node

namespace Idiom

open Node

/-- A tree made by an idiom. -/
def made (idiom : Idiom) (kind : Nonterminal) (children : List Node) : Node :=
  .tree kind children (some idiom)

/-- `(not (= a b))` is `(/= a b)`. -/
def notEqual? : List Node → Option Node
  | [operand, op] =>
    if op.operatorIs .not then
      match operand.unwrap with
      | .tree .binaryExpr [a, b, inner] _ => do
        let sign ← inner.operator?
        if sign.isOp .eqlsign then
          return notEqual.made .binaryExpr [a, b, operator .binaryOp .neqlsign sign.offset]
        else none
      | _ => none
    else none
  | _ => none

/-- Whether an operation is `car`, or else `cdr`. -/
def takesHead? (op : Node) : Option Bool :=
  if op.operatorIs .car then some true else if op.operatorIs .cdr then some false else none

def combined : (outer inner : Bool) → Opcode
  | true, true => .caar
  | true, false => .cadr
  | false, true => .cdar
  | false, false => .cddr

/-- `(car (cdr x))` is `(cadr x)`, and likewise for the other three pairs. -/
def cxr? : List Node → Option Node
  | [operand, op] => do
    let outer ← takesHead? op
    match operand.unwrap with
    | .tree .unaryExpr [x, innerOp] _ =>
      let inner ← takesHead? innerOp
      let offset := (op.operator?.map (·.offset)).getD 0
      return cxr.made .unaryExpr [x, operator .unaryOp (combined outer inner) offset]
    | _ => none
  | _ => none

/-- The arguments of nested applications of `op`. `whole` is the node with its wrappers. -/
def arguments (op : Opcode) (family : Family) (whole : Node) : Node → List Node
  | .tree .expr [only] _ => arguments op family whole only
  | .tree .exprStacked [only] _ => arguments op family whole only
  | .tree .binaryExpr (a :: b :: o :: _) _ =>
    if o.operatorIs op then arguments op family a a ++ arguments op family b b else [whole]
  | .tree kind children _ => if kind = .counted family then children else [whole]
  | .token _ => [whole]

/-- The operations that take any number of arguments in Lisp, and their families. -/
def associative : List (Opcode × Family) := [(.max, .max), (.min, .min), (.nconc, .nconc)]

/-- Nested applications of an associative operation are one, if they have three arguments. -/
def flatten? : List Node → Option Node
  | a :: b :: op :: _ => do
    let (opcode, family) ← associative.find? fun (opcode, _) => op.operatorIs opcode
    let args := arguments opcode family a a ++ arguments opcode family b b
    if args.length < 3 then none else return flatten.made (.counted family) args
  | _ => none

/-- What a definition of a variable says: its form, the name, and the documentation. -/
structure Definition where
  kind : Nonterminal
  name : String
  doc : Option String

def definitionKind? (head : List Char) (hasDoc : Bool) : Option Nonterminal :=
  if head = "defvar".toList then some (if hasDoc then .defvarDoc else .defvar)
  else if head = "defconst".toList then some (if hasDoc then .defconstDoc else .defconst)
  else none

def isQuoted (text : List Char) : Bool :=
  text.head? == some '"' && text.getLast? == some '"'

/-- A definition compiles to a call of a function with the value as its argument. -/
def definition? (text : String) : Option Definition := do
  let inner ← Text.before? "))".toList (← Text.after? "(lambda (def-tmp-var) (".toList text.toList)
  let (head, rest) ← Text.cut? (· == ' ') inner
  let (name, rest) ← Text.cut? (· == ' ') rest
  let doc := Text.trim (← Text.after? "def-tmp-var".toList rest)
  if doc.isEmpty then
    return ⟨← definitionKind? head false, String.ofList name, none⟩
  else if isQuoted doc then
    return ⟨← definitionKind? head true, String.ofList name, some (String.ofList doc)⟩
  else none

def defvar? : List Node → Option Node
  | [callee, value, _] => do
    let function ← callee.constant?
    let d ← definition? (← function.operandText?)
    let constant := fun operand => Node.token (.ofOpcode .constant (some operand) function.offset)
    return defvar.made d.kind
      (constant (.symbol d.name) :: value :: (d.doc.map fun doc => constant (.str doc)).toList)
  | _ => none

/-- The number of the key among the children of a call that binds one. -/
def keyPlace? (callee : String) (size : Nat) : Option Nat :=
  if (callee = "global-set-key" ∨ callee = "local-set-key") ∧ size = 4 then some 1
  else if callee = "define-key" ∧ size = 5 then some 2
  else none

/-- A key sequence is written in words. -/
def kbd? (kind : Nonterminal) (children : List Node) : Option Node := do
  let callee ← (← (← children.head?).constant?).operandText?
  let place ← keyPlace? callee children.length
  let key ← (← children[place]?).constant?
  let description ← Keys.describe? (← key.operand)
  let text := Instruction.ofOpcode .constant (some (.str ("\"" ++ description ++ "\""))) key.offset
  return kbd.made kind (children.set place (plain .expr [plain .kbd [.token text]]))

/-- A discarded `(and a b)` is `(if a b)`. -/
def andStatement? : List Node → Option Node
  | [expr, discard] =>
    if discard.children.isEmpty then none
    else match expr.unwrap with
      | .tree .andForm children _ =>
        if children.length = 5 then
          some (andStatement.made .exprStmt
            [plain .expr [andStatement.made .ifForm children], discard])
        else none
      | _ => none
  | _ => none

/-- A `when` of one statement is an `if`. -/
def whenToIf? : List Node → Option Node
  | [condition, jump, body, comeFroms, label] =>
    match body.statements with
    | [only] => do
      return whenToIf.made .ifForm [condition, jump, ← only.child? 0,
        plain .optComeFrom comeFroms.children, plain .optLabel [label]]
    | _ => none
  | _ => none

/-- `(save-current-buffer (set-buffer b) …)` is `(with-current-buffer b …)`. -/
def withCurrentBuffer? : List Node → Option Node
  | [save, body, unbind] =>
    match body.statements with
    | first :: rest =>
      match first.children with
      | [expr, optDiscard] =>
        match expr.unwrap with
        | .tree .setBuffer children _ => do
          let discard ← optDiscard.child? 0
          match children with
          | [buffer, set] =>
            return withCurrentBuffer.made .withCurrentBufferMacro
              [save, buffer, set, discard, plain .exprs rest, unbind]
          | _ => none
        | _ => none
      | _ => none
    | [] => none
  | _ => none

def tempBuffer : String := "temp-buffer"

/-- The statements of a body, without the protection that kills its buffer at the end. -/
def unprotected (statements : List Node) : Option (List Node) :=
  match statements with
  | [only] =>
    match (only.child? 0).map unwrap with
    | some (.tree .unwindProtectForm children _) => children[2]?.map Node.children
    | _ => some statements
  | _ => some statements

/-- Whether a list of bindings is one of the temporary buffer. -/
def bindsTempBuffer (varlist : Node) : Bool :=
  match varlist.children with
  | [varbind] =>
    match varbind.children.getLast?.bind token? with
    | some i => i.isOp .varbind && i.operandText? == some tempBuffer
    | none => false
  | _ => false

/-- A `let` of a temporary buffer around `with-current-buffer`. -/
def withTempBuffer? (children : List Node) : Option Node := do
  if !bindsTempBuffer (← children.head?) then none
  else match (← children[1]?).statements with
    | first :: rest =>
      match (← first.child? 0).unwrap with
      | .tree .withCurrentBufferMacro inner _ =>
        if !(← inner[1]?).refersTo tempBuffer then none
        else
          let statements ← unprotected (← inner[4]?).children
          return withTempBuffer.made .withTempBufferMacro [plain .exprs (statements ++ rest)]
      | _ => none
    | [] => none

/-- The variable that a loop over a list keeps the rest of the list in. -/
def loopTail : String := "--dolist-tail--"

/-- Whether a statement starts by reading the rest of the list. -/
def advancesTail (statement : Node) : Bool :=
  match statement.tokens.head? with
  | some t => t.isOp .varref && t.operandText? == some loopTail
  | none => false

/-- The statements of a loop, without the last one if that pushes the rest of the list. -/
def withoutAdvance (statements : List Node) : List Node :=
  if (statements.getLast?.map advancesTail).getD false then statements.dropLast else statements

/-- An expanded loop over a list is `(dolist (x list) …)`. -/
def dolist? (children : List Node) : Option Node := do
  let step ← children[5]?
  if !step.isKind .dolistLoopIterSet then none
  else
    let name ← step.child? 2
    let list ← (← children.head?).child? 0
    let statements := withoutAdvance (← children[6]?).statements
    return dolist.made .dolist [name, list, plain .exprs statements]

/-- The form that takes the place of a node with these children, if they have the shape of one. -/
def recognize? (kind : Nonterminal) (children : List Node) : Option Node :=
  match kind with
  | .unaryExpr => (notEqual? children).or (cxr? children)
  | .binaryExpr => flatten? children
  | .counted .call => (defvar? children).or (kbd? kind children)
  | .exprStmt => andStatement? children
  | .whenMacro => whenToIf? children
  | .saveCurrentBufferForm => withCurrentBuffer? children
  | .letFormStar => withTempBuffer? children
  | .dolistMacro => dolist? children
  | _ => none

end Idiom

namespace Node

mutual

/-- The tree with idioms in place of their expansions. -/
def idiomatic : Node → Node
  | token i => token i
  | tree kind children idiom =>
    let children := idiomaticAll children
    (Idiom.recognize? kind children).getD (tree kind children idiom)

def idiomaticAll : List Node → List Node
  | [] => []
  | node :: rest => node.idiomatic :: idiomaticAll rest

end

end Node

end ElispLift
