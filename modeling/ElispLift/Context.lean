import ElispLift.Syntax

/-!
# Checks beyond the grammar

Some readings that the rules admit are wrong because of their surroundings. Those that a span alone
shows are refused while the chart is filled, and those that need the children when a tree is built.
-/

namespace ElispLift

/-- The instructions that are parsed. -/
structure Context where
  tokens : Array Instruction

namespace Context

def isAt (c : Context) (n : Nat) (op : Opcode) : Bool := (c.tokens[n]?.map (·.isOp op)).getD false

/-- The change of the stack's height over a span. -/
def net (c : Context) (first last : Nat) : Int :=
  Instruction.net (c.tokens.extract first last).toList

/-- The offset of the last label with a given name. -/
def labelOffset? (c : Context) (name : String) : Option Nat :=
  (c.tokens.toList.reverse.find? fun t => t.isOp .label && t.operandText? == some name).map
    (·.offset)

/-- Where a jump leads. -/
def target? (c : Context) (jump : Node) : Option Nat :=
  (jump.token?.bind Instruction.operandText?).bind c.labelOffset?

/-- Instructions behind which a statement that leaves a value may end. -/
def statementEnds : List Opcode :=
  [.ret, .stackAccess, .unbind, .comeFrom, .goto, .label, .dup, .gotoIfNotNil]

/-- Instructions behind which a plain assignment may start. -/
def assignmentStarts : List Opcode :=
  [.label, .comeFrom, .varset, .varbind, .discard, .unbind, .ret, .saveExcursion,
    .saveRestriction, .saveCurrentBuffer, .unwindProtect]

def isAnyOf (i : Instruction) (ops : List Opcode) : Bool := ops.any i.isOp

/-- A statement leaves the stack as it was, or one more value where something ends. -/
def allowsStatement (c : Context) (first last : Nat) : Bool :=
  let net := c.net first last
  let ended := match c.tokens[last]? with
    | none => true
    | some next => isAnyOf next statementEnds
  net == 0 || (net > 0 && ended)

/-- Whether the instruction before a span satisfies `p`, or there is none. -/
def allowsBefore (c : Context) (first : Nat) (p : Instruction → Bool) : Bool :=
  match first with
  | 0 => true
  | n + 1 => (c.tokens[n]?.map p).getD true

/-- Whether a nonterminal may cover the instructions from `first` up to `last`. -/
def allowsSpan (c : Context) (kind : Nonterminal) (first last : Nat) : Bool :=
  match kind with
  | .exprStmt => c.allowsStatement first last
  | .setqForm => c.allowsBefore first fun i => i.isJump || isAnyOf i assignmentStarts
  | .unaryExprStacked => c.allowsBefore first (·.isOp .varset)
  | .saveCurrentBufferForm =>
    !(c.isAt (first + 1) .varref && c.isAt (first + 2) .setBuffer && c.isAt (first + 3) .discard)
  | _ => true

/-- The jump leads to where the form ends. -/
def aligned (c : Context) (jump : Option Node) (last : Nat) : Bool :=
  match jump.bind c.target?, c.tokens[last]? with
  | some target, some next => target == next.offset
  | _, _ => false

/-- A jump and a label of the same name. -/
def sameLabel (jump label : Option Node) : Bool :=
  match (jump.bind Node.token?).bind Instruction.operandText? with
  | none => false
  | some name => (label.bind Node.token?).bind Instruction.operandText? == some name

def stackedSuffix : List Char := "_stacked".toList

/-- Whether the leftmost path of a node goes through a form that takes a value from outside. -/
def startsStacked : Node → Bool
  | .token i => i.isOp .stackAccess || (Text.before? stackedSuffix i.name.toList).isSome
  | .tree kind children _ =>
    (Text.before? stackedSuffix kind.name.toList).isSome ||
      match children with
      | [] => false
      | first :: _ => startsStacked first

/-- A clause ends in a jump to the end of the whole form exactly if it has a condition. -/
def allowsClause (children : List Node) : Bool :=
  let hasCondition := (children.head?.map (·.isKind .condition)).getD false
  let arrives := ((children.getLast?.bind fun e => e.children.getLast?).map (·.isOp .comeFrom)).getD
    false
  hasCondition == arrives

/-- A clause that ends in a return. -/
def returns (clause : Node) : Bool :=
  match clause.children.getLast?.bind (·.child? 0) with
  | some node => node.isOp .ret || node.isKind .stackedReturn
  | none => false

/-- The clauses of a form made of a clause and a list of labeled clauses. -/
def clausesOf (first rest : Node) : List Node :=
  first :: rest.children.filterMap (·.child? 1)

def isName (node : Node) : Bool := node.unwrap.isKind .nameExpr

/-- Whether a nonterminal may have these children, where its span ends at `last`. -/
def allowsChildren (c : Context) (kind : Nonterminal) (children : List Node) (last : Nat) : Bool :=
  match kind with
  | .clause => allowsClause children
  | .condForm =>
    match children with
    | [first, rest] => (clausesOf first rest).all returns
    | _ => true
  | .ifForm => !(children[2]?.map isName).getD false && c.aligned children[1]? last
  | .whenMacro | .andForm | .orForm => c.aligned children[1]? last
  | .ifElseForm => sameLabel children[1]? children[5]? && sameLabel children[3]? children[8]?
  | .whileForm2 => !(children[2]?.map startsStacked).getD false
  | _ => true

end Context

end ElispLift
