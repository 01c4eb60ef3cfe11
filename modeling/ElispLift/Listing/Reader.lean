import ElispLift.Listing.Line

/-!
# Reading a listing

A listing is read line by line. Routines that are open form a stack, the innermost on top, because
the routine of a constant stands in place between the instructions of the one around it. A routine
ends at an empty line, and all of them end at the next header or at the end of the listing.
-/

namespace ElispLift.Listing

open Text

/-- What the next line of an open routine may be. Every phase but that of documentation text passes
a line that it has no use for to the next. -/
inductive Phase where
  | docstring
  | docText (length read : Nat)
  | args
  | interactive
  | body
deriving DecidableEq, Repr

/-- An open routine, with what was read of it, and the place of the constant that it is. -/
structure Frame where
  routine : Routine
  phase : Phase
  place : Option Place

/-- The arguments of a routine that does not name them. -/
def unknownArgs : String := "(?)"

def Frame.start (name : String) (kind : RoutineKind) (place : Option Place) : Frame :=
  ⟨⟨name, unknownArgs, none, none, kind, []⟩, .docstring, place⟩

def Frame.push (f : Frame) (is : List Instruction) : Frame :=
  { f with routine := { f.routine with instructions := f.routine.instructions ++ is } }

structure State where
  finished : List Routine
  frames : List Frame
  anonymous : Nat
  compiled : Nat
  line : Nat

namespace State

def start : State := ⟨[], [], 0, 0, 0⟩

def openNamed (s : State) (kind : RoutineKind) (name : String) : State :=
  { s with frames := .start name kind none :: s.frames }

def openFile (s : State) : State :=
  { s with
    frames := .start ("anonymous" ++ toString s.anonymous) .file none :: s.frames
    anonymous := s.anonymous + 1 }

def openConstant (s : State) (place : Place) : State :=
  let name := "compiled-function-" ++ toString s.compiled
  { s with
    frames := .start name .function (some place) :: s.frames
    compiled := s.compiled + 1 }

/-- Change the innermost open routine. -/
def update (s : State) (f : Frame → Frame) : State :=
  match s.frames with
  | [] => s
  | top :: rest => { s with frames := f top :: rest }

def enter (s : State) (phase : Phase) : State := s.update fun f => { f with phase }

/-- End the innermost routine. It becomes an operand of the one around it, or a routine of the
listing. -/
def close (s : State) : State :=
  match s.frames with
  | [] => s
  | top :: rest =>
    match top.place, rest with
    | some p, around :: rest =>
      let constant := ⟨.fixed .constant, some (.routine top.routine), p.offset, p.label⟩
      { s with frames := around.push [constant] :: rest }
    | _, _ => { s with finished := s.finished ++ [top.routine], frames := rest }

/-- End the `n` innermost routines. -/
def closeMany : Nat → State → State
  | 0, s => s
  | n + 1, s => closeMany n s.close

def closeAll (s : State) : State := closeMany s.frames.length s

/-- An instruction of the innermost routine. -/
def readEntry (s : State) (line : List Char) : Except Error State := do
  match ← Entry.read line s.line with
  | .instruction place kind operand =>
    return s.update (·.push (place.marker ++ [⟨kind, operand, place.offset, place.label⟩]))
  | .routine place => return (s.update (·.push place.marker)).openConstant place

/-- A line outside of all routines. Instructions without a header are the code of a file. -/
def readOutside (s : State) (line : List Char) : Except Error State :=
  if isEmpty line || isComment line then .ok s
  else match header? line with
    | some (.named kind name) => .ok (s.openNamed kind name)
    | some .file => .ok s.openFile
    | none =>
      if (trim line).head?.any Char.isDigit then (s.openFile.enter .body).readEntry line
      else .error (.malformedLine s.line (String.ofList line))

def readBody (s : State) (line : List Char) : Except Error State :=
  if endsRoutines line then s.closeAll.readOutside line
  else if isComment line then .ok s
  else if isEmpty line then .ok s.close
  else s.readEntry line

def setInteractive (s : State) (spec : String) : State :=
  s.update fun f =>
    { f with routine := { f.routine with interactive := some spec }, phase := .body }

def readInteractive (s : State) (line : List Char) : Except Error State :=
  match interactive? line with
  | some spec => .ok (s.setInteractive spec)
  | none => (s.enter .body).readBody line

def setArgs (s : State) (args : String) : State :=
  s.update fun f => { f with routine := { f.routine with args }, phase := .interactive }

def readArgs (s : State) (line : List Char) : Except Error State :=
  match args? line with
  | some args => .ok (s.setArgs args)
  | none => (s.enter .interactive).readInteractive line

/-- Documentation goes on while it is short of its length by more than the break of a line. -/
def docPhase (length read : Nat) : Phase :=
  if read + 1 < length then .docText length read else .args

def setDoc (s : State) (text : List Char) (phase : Phase) : State :=
  s.update fun f =>
    { f with routine := { f.routine with docstring := some (String.ofList text) }, phase }

def readDocstring (s : State) (line : List Char) : Except Error State :=
  match doc? line with
  | some (.line text) => .ok (s.setDoc text .args)
  | some (.start length text) => .ok (s.setDoc text (docPhase length (byteLength text)))
  | none => (s.enter .args).readArgs line

/-- A further line of documentation. -/
def readDocText (s : State) (length read : Nat) (line : List Char) : State :=
  s.update fun f =>
    let text := f.routine.docstring.getD "" ++ "\n" ++ String.ofList line
    { f with
      routine := { f.routine with docstring := some text }
      phase := docPhase length (read + byteLength line + 1) }

/-- The next line of a listing. -/
def readLine (s : State) (line : List Char) : Except Error State :=
  let s := { s with line := s.line + 1 }
  match s.frames with
  | [] => s.readOutside line
  | top :: _ =>
    match top.phase with
    | .docstring => s.readDocstring line
    | .docText length read => .ok (s.readDocText length read line)
    | .args => s.readArgs line
    | .interactive => s.readInteractive line
    | .body => s.readBody line

/-- The routines at the end of a listing, which must not end right where a routine starts. -/
def finish (s : State) : Except Error (List Routine) :=
  if (s.frames.head?.map (·.phase)) = some .docstring then .error (.unexpectedEnd (s.line + 1))
  else .ok s.closeAll.finished

end State

def readLines : List (List Char) → State → Except Error State
  | [], s => .ok s
  | line :: rest, s => s.readLine line >>= readLines rest

/-- The routines of a listing. Those of constants are operands of the instructions around them. -/
def read (text : String) : Except Error (List Routine) := do
  (← readLines (lines text.toList) .start).finish

end ElispLift.Listing
