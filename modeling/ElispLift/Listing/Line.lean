import ElispLift.Error
import ElispLift.Instruction

/-!
# Lines of a listing

What a single line says: that a routine starts, what its documentation, arguments or interactive
specification are, or which instruction stands at which offset.
-/

namespace ElispLift.Listing

open Text

/-- The first lines of routines. -/
inductive Header where
  | named (kind : RoutineKind) (name : String)
  | file
deriving DecidableEq, Repr

/-- A name between `lead` and a colon; names are not empty and hold no blanks. -/
def headerName? (lead : String) (line : List Char) : Option String := do
  let name ← before? [':'] (← after? lead.toList line)
  if name.isEmpty || name.any isBlank then none else return String.ofList name

def header? (line : List Char) : Option Header :=
  let line := trim line
  match headerName? "byte code for macro " line, headerName? "byte code for " line with
  | some name, _ => some (.named .macroFunction name)
  | none, some name => some (.named .function name)
  | none, none => if line = "byte code:".toList then some .file else none

/-- A line that opens like a header ends the routine before it, even if it is none. -/
def endsRoutines (line : List Char) : Bool := startsWith "byte code".toList (trim line)

def isEmpty (line : List Char) : Bool := (trim line).isEmpty

def isComment (line : List Char) : Bool := startsWith ['#'] (trim line)

/-- Documentation is one trimmed line, or its first line with the length of the whole in bytes. -/
inductive Doc where
  | line (text : List Char)
  | start (length : Nat) (text : List Char)
deriving DecidableEq, Repr

/-- The text of a first line stands after two spaces, or else after its leading blanks. -/
def docStart? (line : List Char) : Option Doc := do
  let (length, text) ← cut? (· == ':') (← after? "doc-start ".toList line)
  return .start (← natUpTo? maxSize (trim length)) ((after? [' ', ' '] text).getD (trimStart text))

def doc? (line : List Char) : Option Doc :=
  match after? "doc:".toList (trimStart line) with
  | some text => some (.line (trim text))
  | none => docStart? (trimStart line)

/-- An argument list ends at its first closing parenthesis; text after that is left out. -/
def args? (line : List Char) : Option String := do
  let text := trim (← after? "args:".toList (trimStart line))
  if text = "nil".toList then return "()"
  else if startsWith ['('] text then
    match cut? (· == ')') text with
    | some (inner, _) => return String.ofList (inner ++ [')'])
    | none => return String.ofList text
  else none

def interactive? (line : List Char) : Option String :=
  (after? "interactive:".toList (trimStart line)).map fun spec => String.ofList (trim spec)

/-- Where an instruction stands. -/
structure Place where
  offset : Nat
  label : Option String
deriving DecidableEq, Repr

/-- A label is an instruction of its own, in front of the one that carries it. -/
def Place.marker (p : Place) : List Instruction :=
  match p.label with
  | some label => [.ofOpcode .label (some (.symbol label)) p.offset]
  | none => []

/-- A line of a body: an instruction, or a constant that is the routine on the next lines. -/
inductive Entry where
  | instruction (place : Place) (kind : OpKind) (operand : Option Operand)
  | routine (place : Place)

/-- The place and the words after it. A place too wide for its column runs into the mnemonic. -/
def fields (line : List Char) : List Char × List (List Char) :=
  match words line with
  | [] => ([], [])
  | w :: ws =>
    let inPlace := fun c : Char => c.isDigit || c == ':'
    match w.dropWhile inPlace with
    | [] => (w, ws)
    | tail => (w.takeWhile inPlace, tail :: ws)

/-- An offset, and behind a colon a label. -/
def place? (text : List Char) : Option Place :=
  match cut? (· == ':') text with
  | some (offset, label) => (natUpTo? maxWord offset).map (⟨·, some (String.ofList label)⟩)
  | none => (natUpTo? maxWord text).map (⟨·, none⟩)

/-- Listings escape question marks. -/
def unescape : List Char → List Char
  | '\\' :: '?' :: cs => '?' :: unescape cs
  | c :: cs => c :: unescape cs
  | [] => []

/-- The text of a constant runs to the end of the line and keeps its inner blanks. -/
def constantText (line : List Char) : List Char :=
  unescape (trim ((afterFirst? "constant".toList line).getD []))

/-- The largest count in a listing. -/
def maxCount : Nat := 255

/-- The family of a mnemonic whose count is its operand. -/
def openFamily? (mnemonic : List Char) : Option Family :=
  if mnemonic = "call".toList then some .call
  else if mnemonic = "listN".toList then some .list
  else if mnemonic = "concatN".toList then some .concat
  else if mnemonic = "insertN".toList then some .insert
  else none

/-- The family and count of a mnemonic that ends in its count. -/
def closedFamily? (mnemonic : List Char) : Option (Family × Nat) :=
  let upTo4 := fun (stem : String) (least : Nat) =>
    ((after? stem.toList mnemonic).bind (natUpTo? 4)).filter (least ≤ ·)
  match upTo4 "list" 1, upTo4 "concat" 2 with
  | some n, _ => some (.list, n)
  | none, some n => some (.concat, n)
  | none, none => none

/-- The entry of a mnemonic at a place. Jumps name labels, other operands are constants. -/
def entry (line : List Char) (lineNumber : Nat) (place : Place) (mnemonic : List Char)
    (rest : List (List Char)) : Except Error Entry :=
  if mnemonic = "constant".toList then
    let text := constantText line
    if text = "<compiled-function>".toList then .ok (.routine place)
    else .ok (.instruction place (.fixed .constant) (some (.ofText (String.ofList text))))
  else match openFamily? mnemonic, closedFamily? mnemonic with
    | some family, _ =>
      match rest.head?.bind (natUpTo? maxCount) with
      | some n => .ok (.instruction place (.counted family n) (some (.int n)))
      | none => .error (.malformedLine lineNumber (String.ofList line))
    | none, some (family, n) => .ok (.instruction place (.counted family n) (some (.int n)))
    | none, none =>
      match Opcode.ofMnemonic? (String.ofList mnemonic) with
      | none => .error (.unknownOpcode lineNumber (String.ofList mnemonic))
      | some op =>
        let operand := match rest with
          | [] => none
          | _ =>
            let text := String.ofList (join [' '] rest)
            some (if op.isJump then .symbol text else .ofText text)
        .ok (.instruction place (.fixed op) operand)

def Entry.read (line : List Char) (lineNumber : Nat) : Except Error Entry :=
  match fields line with
  | (_, []) => .error (.malformedLine lineNumber (String.ofList line))
  | (placeText, mnemonic :: rest) =>
    match place? placeText with
    | none => .error (.malformedLine lineNumber (String.ofList line))
    | some place => entry line lineNumber place mnemonic rest

end ElispLift.Listing
