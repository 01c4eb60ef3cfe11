import ElispLift.Blocks.Annotation
import ElispLift.Idioms
import ElispLift.Listing.Reader
import ElispLift.Parse
import ElispLift.Source

/-!
# Decompiling

A listing becomes the source of its routines, each followed by the routines in its constants. A
routine that has no source becomes a comment that says why. Other comments are made on request: the
basic blocks, the uses of grammar rules, and the syntax tree before and after idioms are recognised.
-/

namespace ElispLift

inductive Mode where
  | source
  /-- The instructions with their markers. -/
  | assembly
deriving DecidableEq, Repr

/-- Which syntax trees are shown. -/
inductive TreeDump where
  | none | before | after | full
deriving DecidableEq, Repr

namespace TreeDump

def showsBefore : TreeDump → Bool
  | before | full => true
  | none | after => false

def showsAfter : TreeDump → Bool
  | after | full => true
  | none | before => false

end TreeDump

structure Options where
  mode : Mode
  showBlocks : Bool
  showGrammar : Bool
  tree : TreeDump
deriving DecidableEq, Repr

/-- Source and nothing else. -/
def Options.default : Options := ⟨.source, false, false, .none⟩

/-- Comment lines with a text. -/
def commented (text : String) : String :=
  String.join (text.textLines.map fun line => ";; " ++ line ++ "\n")

mutual

/-- A routine followed by the routines in its constants. -/
def Routine.withNested : Routine → List Routine
  | ⟨name, args, docstring, interactive, kind, instructions⟩ =>
    ⟨name, args, docstring, interactive, kind, instructions⟩ :: nestedIn instructions

def nestedIn : List Instruction → List Routine
  | [] => []
  | i :: rest => i.nested ++ nestedIn rest

def Instruction.nested : Instruction → List Routine
  | ⟨_, none, _, _⟩ => []
  | ⟨_, some operand, _, _⟩ => operand.nested

def Operand.nested : Operand → List Routine
  | .routine r => r.withNested
  | _ => []

end

namespace Routine

/-- The body of a definition is indented. -/
def bodyIndent (r : Routine) : String := if r.kind = .file then "" else "  "

/-- A character in a string literal. -/
def escaped (c : Char) : List Char := if c == '\\' || c == '"' then ['\\', c] else [c]

/-- Text as a string literal. -/
def quoted (s : String) : String := String.ofList ('"' :: s.toList.flatMap escaped ++ ['"'])

/-- The definition with a given body. The code of a file is its body alone. -/
def wrap (r : Routine) (body : String) : String :=
  if r.kind = .file then body ++ "\n"
  else
    let doc := match r.docstring with
      | some doc => "\n  " ++ quoted doc
      | none => ""
    let interactive := match r.interactive with
      | some spec => "\n  (interactive " ++ spec ++ ")"
      | none => ""
    let body := if (Text.trim body.toList).isEmpty then "" else "\n" ++ body
    "(" ++ r.kind.keyword ++ " " ++ r.name ++ " " ++ r.args ++ doc ++ interactive ++ body ++ ")\n"

/-- The instructions with their markers, one on a line. -/
def assembly (r : Routine) (tokens : List Instruction) : String :=
  ";; " ++ r.name ++ r.args ++ "\n" ++ String.join (tokens.map fun t => t.toText ++ "\n")

def blockComments (r : Routine) (blocks : List Block) : String :=
  ";; blocks of " ++ r.name ++ "\n" ++
    String.join (blocks.map fun b => ";; " ++ b.toText ++ "\n")

/-- The syntax tree of the annotated instructions of a routine. -/
def parse (tokens : List Instruction) : Except Error Node :=
  ElispLift.parse .fnBody (Grammar.arityRules tokens) tokens

def decompile (options : Options) (r : Routine) : Except Error String := do
  let segmentation ← Segmentation.ofInstructions r.instructions
  let tokens := segmentation.annotated
  let blocks := if options.showBlocks then r.blockComments segmentation.blocks else ""
  match options.mode with
  | .assembly => return blocks ++ r.assembly tokens
  | .source =>
    let tree ← parse tokens
    let grammar := if options.showGrammar then commented ("\n".intercalate tree.reductions) else ""
    let before := if options.tree.showsBefore then commented tree.toText else ""
    let idiomatic := tree.idiomatic
    let after := if options.tree.showsAfter then commented idiomatic.toText else ""
    let source ← idiomatic.render r.bodyIndent
    return blocks ++ grammar ++ before ++ after ++ r.wrap source.text

/-- The comment in place of a routine that has no source. -/
def failureComment (r : Routine) (e : Error) : String :=
  ";; " ++ r.name ++ ": " ++ e.message ++ "\n" ++
    match e with
    | .noParse failure => commented ("\n".intercalate failure.context)
    | _ => ""

end Routine

/-- A routine that has no source. -/
structure Failure where
  name : String
  error : Error
deriving DecidableEq, Repr

structure Decompiled where
  text : String
  failures : List Failure
deriving DecidableEq, Repr

/-- The text of a routine, and its failure if it has no source. -/
def decompileOne (options : Options) (r : Routine) : String × Option Failure :=
  match r.decompile options with
  | .ok text => (text, none)
  | .error e => (r.failureComment e, some ⟨r.name, e⟩)

/-- The routines of a listing in the order in which they are decompiled. -/
def routines (listing : String) : Except Error (List Routine) := do
  return (← Listing.read listing).flatMap Routine.withNested

/-- Decompile all routines of a listing. -/
def decompile (options : Options) (listing : String) : Except Error Decompiled := do
  let parts := (← routines listing).map (decompileOne options)
  return ⟨"\n".intercalate (parts.map (·.1)), parts.filterMap (·.2)⟩

/-- Decompile a listing without options, and fail if any of its routines does. -/
def decompileStrict (listing : String) : Except Error String := do
  let result ← decompile .default listing
  match result.failures with
  | [] => return result.text
  | failure :: _ => throw failure.error

end ElispLift
