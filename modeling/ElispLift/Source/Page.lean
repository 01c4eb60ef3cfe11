import ElispLift.Syntax

/-!
# The page

Source is written to a page: the text so far, the indentation of new lines, and beside it the values
that the instructions rendered so far would have left on the stack. A statement that leaves a value
is kept in a slot, so that it can still be taken into the form that uses the value.
-/

namespace ElispLift

/-- A value on the stack: finished text, a node rendered where it is read, a statement in a slot, or
an operand of the application being rendered. -/
inductive StackValue where
  | text (s : String)
  | node (n : Node)
  | slot (id : Nat)
  | operand (s : String)

namespace StackValue

def isOperand : StackValue → Bool
  | operand _ => true
  | _ => false

def slot? : StackValue → Option Nat
  | slot id => some id
  | _ => none

end StackValue

/-- What was odd about a tree. Text is rendered all the same. -/
inductive Issue where
  | noRendering (kind : Nonterminal)
  | missingChild (name : String) (n : Option Nat)
  | popOfEmpty
  | readOfEmpty
  | consumedSlot (id : Nat)
  | pastStack (depth offset : Nat)
  | belowBase
deriving DecidableEq, Repr

def Issue.message : Issue → String
  | noRendering kind => "no rendering for " ++ kind.name
  | missingChild name n =>
    let n := match n with
      | some n => "Some(" ++ toString n ++ ")"
      | none => "None"
    name ++ " has no child " ++ n
  | popOfEmpty => "value popped from an empty eval stack"
  | readOfEmpty => "value read from an empty eval stack"
  | consumedSlot id => "stack slot " ++ toString id ++ " read after it was consumed"
  | pastStack depth offset =>
    "stack-ref " ++ toString depth ++ " at offset " ++ toString offset ++ " past the eval stack"
  | belowBase => "indentation popped below the base level"

/-- The text of a value that is not there. -/
def missingText : String := "<empty-stack>"

structure Page where
  text : String
  /-- The column at which the first line of the text starts. -/
  startColumn : Nat
  indent : String
  /-- The indentations to return to, the innermost first. -/
  outerIndents : List String
  /-- The stack, its top first. -/
  values : List StackValue
  /-- The texts of statements, gone once they were taken. -/
  slots : Array (Option String)
  /-- Whether constants are written without a quote. -/
  unquoted : Bool
  issues : List Issue

namespace Page

def start (indent : String) : Page where
  text := ""
  startColumn := indent.utf8ByteSize
  indent
  outerIndents := []
  values := []
  slots := #[]
  unquoted := false
  issues := []

/-- The column behind the text, counted in bytes. -/
def column (p : Page) : Nat :=
  let last := p.text.toList.reverse.takeWhile (· != '\n')
  let width := Text.byteLength last
  if last.length = p.text.length then p.startColumn + width else width

/-- Whether the text ends where a new line starts. -/
def isAtLineStart (p : Page) : Bool :=
  p.text.isEmpty || (Text.before? ('\n' :: p.indent.toList) p.text.toList).isSome

end Page

/-- Rendering changes the page. It may have been given too few levels of nested nodes. -/
abbrev Rendering := StateT Page Option

namespace Rendering

def write (s : String) : Rendering Unit := modify fun p => { p with text := p.text ++ s }

def issue (i : Issue) : Rendering Unit := modify fun p => { p with issues := p.issues ++ [i] }

/-- A child that is not there. -/
def missing (node : Node) (n : Option Nat) : Rendering Unit := do
  issue (.missingChild node.name n)
  write missingText

def newline : Rendering Unit := modify fun p => { p with text := p.text ++ "\n" ++ p.indent }

/-- Indent new lines differently, until `dedent`. -/
def indentTo (indent : Page → String) : Rendering Unit :=
  modify fun p => { p with indent := indent p, outerIndents := p.indent :: p.outerIndents }

def indentMore : Rendering Unit := indentTo fun p => p.indent ++ "  "

/-- Indent to the current column. -/
def align : Rendering Unit := indentTo fun p => Text.spaces p.column

def dedent : Rendering Unit := do
  match (← get).outerIndents with
  | outer :: rest => modify fun p => { p with indent := outer, outerIndents := rest }
  | [] => issue .belowBase

/-- Open a form on a line of its own. -/
def openForm : Rendering Unit := do
  if !(← get).isAtLineStart then newline
  write "("

def closeForm : Rendering Unit := do
  write ")"
  dedent

/-- The text of a rendering on a page of its own, which starts at the current indentation. -/
def capture (rendering : Rendering Unit) : Rendering String := do
  let outer ← get
  set { outer with text := "", startColumn := outer.indent.utf8ByteSize }
  rendering
  let inner ← get
  set { inner with text := outer.text, startColumn := outer.startColumn }
  return inner.text

/-- Render with or without quotes on constants. -/
def withUnquoted {α : Type} (unquoted : Bool) (rendering : Rendering α) : Rendering α := do
  let before := (← get).unquoted
  modify fun p => { p with unquoted }
  let result ← rendering
  modify fun p => { p with unquoted := before }
  return result

def push (v : StackValue) : Rendering Unit := modify fun p => { p with values := v :: p.values }

/-- Keep a statement in a new slot. -/
def newSlot (text : String) : Rendering Nat := do
  let id := (← get).slots.size
  modify fun p => { p with slots := p.slots.push (some text) }
  return id

/-- The text of a slot. -/
def readSlot (id : Nat) : Rendering (Option String) := return ((← get).slots[id]?).join

def emptySlot (id : Nat) : Rendering Unit :=
  modify fun p => { p with slots := p.slots.setIfInBounds id none }

/-- The text of a slot, which is empty from now on. -/
def takeSlot (id : Nat) : Rendering (Option String) := do
  let text ← readSlot id
  emptySlot id
  return text

variable (render : Node → Rendering Unit)

/-- The text of a value; taking it empties its slot. -/
def valueText (take : Bool) : StackValue → Rendering String
  | .text s => return s
  | .operand s => return s
  | .node n => capture (render n)
  | .slot id => do
    match ← if take then takeSlot id else readSlot id with
    | some text => return text
    | none =>
      issue (.consumedSlot id)
      return missingText

/-- Take the value on top of the stack. -/
def pop : Rendering String := do
  match (← get).values with
  | v :: rest =>
    modify fun p => { p with values := rest }
    valueText render true v
  | [] =>
    issue .popOfEmpty
    return missingText

/-- Read the value on top of the stack. -/
def peek : Rendering String := do
  match (← get).values with
  | v :: _ => valueText render false v
  | [] =>
    issue .readOfEmpty
    return missingText

/-- Read the value that `depth` others lie on. -/
def stackRef (depth offset : Nat) : Rendering String := do
  match (← get).values[depth]? with
  | some v => valueText render false v
  | none =>
    issue (.pastStack depth offset)
    return missingText

end Rendering

end ElispLift
