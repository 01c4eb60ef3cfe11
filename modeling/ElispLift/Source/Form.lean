import ElispLift.Source.Template
import ElispLift.Text.Number

/-!
# Forms

How nodes without a template are rendered: instructions, applications, lists of statements, and the
forms whose layout depends on their children. `render` stands for the rendering of other nodes.
-/

namespace ElispLift

/-- Names that need no quote: truth values, keywords, vectors, characters, strings and numbers. -/
def isSelfEvaluating (name : String) : Bool :=
  name == "t" || name == "nil" ||
    (match name.toList with
      | c :: _ => c == ':' || c == '[' || c == '?' || c == '"'
      | [] => false) ||
    Text.isDecimal name.toList

/-- A constant as source. A constant without an operand is nil. -/
def constantText (unquoted : Bool) : Option Operand → String
  | none => "nil"
  | some (.int n) => toString n
  | some (.str s) => s
  | some (.routine r) => if unquoted then r.name else "#'" ++ r.name
  | some (.symbol s) => if unquoted || isSelfEvaluating s then s else "'" ++ s

/-- The function that an operation applies, or nothing for operations that apply none. -/
def Opcode.applied (op : Opcode) : String :=
  match op.opClass with
  | .nullary | .unary | .binary | .ternary | .pseudo => op.lisp
  | .jump | .jumpCond | .noFollow | .other => ""

namespace Node

/-- The statements of a list of statements, or of the first child of another node. -/
def lines (node : Node) : List Node :=
  if node.isKind .exprs || node.isKind .optExprs then node.children
  else ((node.child? 0).map children).getD []

/-- Whether a statement leaves its value on the stack. -/
def keepsValue (node : Node) : Bool :=
  node.isKind .exprStmt && !((node.child? 1).map fun d => !d.children.isEmpty).getD false &&
    Instruction.net node.tokens > 0

def isTree (node : Node) : Bool := node.kind?.isSome

/-- The name that an instruction sets. -/
def nameText (node : Option Node) : String :=
  ((node.bind token?).bind Instruction.operandText?).getD missingText

end Node

namespace Rendering

open Node

variable (render : Node → Rendering Unit)

/-- What an instruction writes. Reading a value of the stack writes its text. -/
def instructionText (i : Instruction) : Rendering String :=
  match i.kind with
  | .counted _ _ => return ""
  | .fixed .constant => return constantText (← get).unquoted i.operand
  | .fixed .varref | .fixed .varset | .fixed .varbind =>
    return (i.operand.map Operand.toText).getD ""
  | .fixed .dup => peek render
  | .fixed .stackRef => stackRef render (i.operandInt?.getD 0).toNat i.offset
  | .fixed op => return op.applied

def instruction (i : Instruction) : Rendering Unit := do write (← instructionText render i)

def each : List Node → Rendering Unit
  | [] => return ()
  | node :: rest => do
    render node
    each rest

/-- Nodes on lines of their own. -/
def eachOnLine : List Node → Rendering Unit
  | [] => return ()
  | [node] => render node
  | node :: rest => do
    render node
    newline
    eachOnLine rest

/-- Render statements into slots, and put those that leave a value on the stack. -/
def toSlots : List Node → Rendering (List Nat)
  | [] => return []
  | node :: rest => do
    let id ← newSlot (← capture (render node))
    if node.keepsValue then push (.slot id)
    return id :: (← toSlots rest)

/-- Take the slots of a list of statements off the stack. -/
def dropSlots (ids : List Nat) : Rendering Unit :=
  modify fun p =>
    { p with values := p.values.filter fun v => !(v.slot?.map ids.contains).getD false }

/-- The texts that are left in slots, without empty ones. -/
def leftOver : List Nat → Rendering (List String)
  | [] => return []
  | id :: ids => do
    let text ← takeSlot id
    let rest ← leftOver ids
    match text with
    | some text => return if text.isEmpty then rest else text :: rest
    | none => return rest

/-- One statement on a line. Statements whose value a later one took are part of that one. -/
def statements (nodes : List Node) : Rendering Unit := do
  let ids ← toSlots render nodes
  dropSlots ids
  let texts ← leftOver ids
  write (("\n" ++ (← get).indent).intercalate texts)

/-- Returns at the end may take values that the body left. -/
def routineBody (node : Node) : Rendering Unit :=
  match node.children with
  | [] => missing node (some 0)
  | body :: tail => statements render (body.lines ++ tail)

def stackedBody (node : Node) : Rendering Unit :=
  statements render (node.children.take 1 ++ ((node.child? 2).map children).getD [])

/-- An application to one argument, taken from the stack unless it is a child. -/
def unary (node : Node) : Rendering Unit :=
  match node.children.getLast? with
  | none => missing node none
  | some op => do
    write "("
    render op
    write " "
    match node.children with
    | [argument, _] =>
      if argument.isOp .stackAccess then write (← pop render) else render argument
    | _ => write (← pop render)
    write ")"

/-- An application to two arguments, of which the first is taken from the stack. -/
def binaryStacked (node : Node) : Rendering Unit :=
  match node.children.getLast? with
  | none => missing node none
  | some op => do
    let (first, second) ← match node.children with
      | [second, _] => do
        let second ← capture (render second)
        pure (← pop render, second)
      | nodes => do
        let first ← pop render
        match nodes.find? isTree with
        | some second => pure (first, ← capture (render second))
        | none => pure (first, missingText)
    write "("
    render op
    write (" " ++ first ++ " " ++ second ++ ")")

/-- A body as one form. -/
def progn (body : Node) : Rendering Unit :=
  if body.lines.length ≤ 1 then render body
  else do
    write "(progn"
    indentMore
    newline
    render body
    closeForm

def ifElse (node : Node) : Rendering Unit := do
  openForm
  write "if "
  child render node 0
  indentMore
  indentMore
  newline
  match node.child? 2 with
  | some yes => progn render yes
  | none => missing node (some 2)
  dedent
  newline
  child render node 6
  closeForm

/-- The clauses of a conditional, those of a list of clauses in its place. -/
def clauses (node : Node) : List Node :=
  node.children.flatMap fun c =>
    if c.isKind .labeledClauses then c.children
    else if c.isKind .clause || c.isKind .labeledFinalClause then [c]
    else []

def cond (node : Node) : Rendering Unit := do
  openForm
  write "cond "
  align
  eachOnLine render (clauses node)
  closeForm

/-- A clause, where `condition` and `body` are the numbers of its children. A clause without a
condition always holds. -/
def clause (node : Node) (condition body : Nat) : Rendering Unit :=
  match node.child? condition, node.child? body with
  | some conditionNode, some bodyNode => do
    write "("
    align
    if conditionNode.isKind .condition then child render conditionNode 0 else write "t"
    let text ← capture (render bodyNode)
    if !text.isEmpty then
      if bodyNode.lines.length > 1 then newline else write " "
      write text
    closeForm
  | _, _ => missing node (some condition)

/-- The last part of a form, on lines of its own. -/
def lastPart (part : Rendering Unit) : Rendering Unit := do
  indentMore
  newline
  part
  closeForm

def binding (node : Node) : Rendering Unit := do
  write ("(" ++ nameText node.children.getLast? ++ " ")
  child render node 0
  write ")"

def letStar (node : Node) : Rendering Unit :=
  match node.child? 0 with
  | none => missing node (some 0)
  | some varlist => do
    openForm
    write (if varlist.children.length = 1 then "let " else "let* ")
    write "("
    align
    eachOnLine render varlist.children
    closeForm
    lastPart (child render node 1)

/-- The names of nested bindings, each with the node whose first child is its value. -/
def nestedBindings : Node → List (String × Node)
  | .tree kind [value, inner, name] idiom =>
    (nameText (some name), .tree kind [value, inner, name] idiom) :: nestedBindings inner
  | _ => []

/-- Bindings on lines of their own. -/
def eachBinding : List (String × Node) → Rendering Unit
  | [] => return ()
  | (name, node) :: rest => do
    write ("(" ++ name ++ " ")
    child render node 0
    write ")"
    if !rest.isEmpty then newline
    eachBinding rest

/-- Take values off the stack until it is as high as before. -/
def truncate (height : Nat) : Rendering Unit :=
  modify fun p => { p with values := p.values.drop (p.values.length - height) }

/-- A `let` whose first variable stays on the stack for the body. -/
def letStacked (node : Node) : Rendering Unit :=
  match node.child? 0 with
  | none => missing node (some 0)
  | some varlist => do
    let name := nameText (varlist.child? 3)
    let inner := ((varlist.child? 1).map nestedBindings).getD []
    openForm
    write (if inner.isEmpty then "let (" else "let* (")
    align
    eachBinding render ((name, varlist) :: inner)
    closeForm
    let height := (← get).values.length
    push (.text name)
    lastPart (child render node 1)
    truncate height

/-- A loop over a list that was not recognised as one. -/
def dolistExpansion (node : Node) : Rendering Unit := do
  let step := ((node.child? 5).map children).getD []
  openForm
  write ("dolist (" ++ nameText (step.reverse.find? (·.isOp .varset)) ++ " ")
  match node.child? 0 with
  | some list => child render list 0
  | none => missing node (some 0)
  if node.isKind .dolistMacroResult then
    write " "
    child render node 16
  write ")"
  lastPart (child render node 6)

/-- Render operands and leave them on the stack. -/
def toOperands (firstUnquoted : Bool) : List Node → Rendering (List String)
  | [] => return []
  | node :: rest => do
    let text ← withUnquoted firstUnquoted (capture (render node))
    push (.operand text)
    return text :: (← toOperands false rest)

/-- Take at most `n` operands off the top of the stack. -/
def dropOperands : Nat → List StackValue → List StackValue
  | n + 1, v :: rest => if v.isOperand then dropOperands n rest else v :: rest
  | _, values => values

/-- Render operands in the order of the stack. Each of them can read those before it. -/
def operands (firstUnquoted : Bool) (nodes : List Node) : Rendering (List String) := do
  let texts ← toOperands render firstUnquoted nodes
  modify fun p => { p with values := dropOperands texts.length p.values }
  return texts

/-- Operands behind what is applied to them. -/
def writeArguments : List String → Rendering Unit
  | [] => write ")"
  | text :: rest => do
    write (" " ++ text)
    writeArguments rest

/-- An application with its operator behind the operands. -/
def application (node : Node) : Rendering Unit :=
  match node.children.getLast? with
  | none => missing node none
  | some op => do
    let texts ← operands render false node.children.dropLast
    write "("
    render op
    writeArguments texts

/-- A call applies its first operand, the other families the function of their name. -/
def countedApplication (node : Node) (family : Family) : Rendering Unit := do
  let texts ← operands render (family = .call) (node.children.filter isTree)
  write "("
  match family, texts with
  | .call, callee :: arguments => do
    write callee
    writeArguments arguments
  | .call, [] => do
    missing node (some 0)
    writeArguments []
  | _, _ => do
    write family.lisp
    writeArguments texts

def tree (kind : Nonterminal) (node : Node) : Rendering Unit :=
  match kind with
  | .exprs | .optExprs => statements render node.children
  | .fnBody => routineBody render node
  | .bodyStacked => stackedBody render node
  | .exprStmt => child render node 0
  | .unaryExpr | .unaryExprStacked => unary render node
  | .binaryExprStacked => binaryStacked render node
  | .ifElseForm => ifElse render node
  | .condForm => cond render node
  | .clause => clause render node 0 1
  | .labeledFinalClause => clause render node 1 2
  | .labeledClause => child render node 1
  | .letFormStar => letStar render node
  | .varbind => binding render node
  | .letFormStacked => letStacked render node
  | .dolistMacro | .dolistMacroResult => dolistExpansion render node
  | .binaryExpr | .ternaryExpr => application render node
  | .counted family => countedApplication render node family
  | .body | .expr | .exprStacked | .nameExpr | .nullaryOp | .unaryOp | .binaryOp | .ternaryOp
  | .condition | .dolistList => each render node.children
  | kind =>
    match kind.template? with
    | some directives => fill render node directives
    | none => do
      issue (.noRendering kind)
      write missingText

def form (node : Node) : Rendering Unit :=
  match node with
  | .token i => instruction render i
  | .tree kind _ _ => tree render kind node

end Rendering

end ElispLift
