import ElispLift.Proofs.Listing.Numbering
import ElispLift.Proofs.Text.Blanks

/-!
# Listings one after the other

A header ends whatever routines are open, so a listing that starts with a header is read behind
another one as it is read alone. Only the numbers go on: those of lines in errors, and those in the
names of routines.
-/

namespace ElispLift

/-- A numbered name with its number raised. -/
def renumber (stem : String) (shift : Nat) (name : String) : String :=
  match (Text.after? stem.toList name.toList).bind Text.digits? with
  | some n => stem ++ toString (shift + n)
  | none => name

@[simp] theorem renumber_numbered (stem : String) (shift n : Nat) :
    renumber stem shift (stem ++ n.repr) = stem ++ (shift + n).repr := by
  simp [renumber]

mutual

/-- The routine of a constant, with the numbers of it and of those in its constants raised. -/
def Routine.renumberedConstant (shift : Nat) : Routine → Routine
  | ⟨name, args, docstring, interactive, kind, instructions⟩ =>
    ⟨renumber "compiled-function-" shift name, args, docstring, interactive, kind,
      renumberedIn shift instructions⟩

/-- Some instructions with the numbers of the routines in their constants raised. -/
def renumberedIn (shift : Nat) : List Instruction → List Instruction
  | [] => []
  | i :: rest => i.renumbered shift :: renumberedIn shift rest

def Instruction.renumbered (shift : Nat) : Instruction → Instruction
  | ⟨kind, none, offset, label⟩ => ⟨kind, none, offset, label⟩
  | ⟨kind, some operand, offset, label⟩ => ⟨kind, some (operand.renumbered shift), offset, label⟩

def Operand.renumbered (shift : Nat) : Operand → Operand
  | .routine r => .routine (r.renumberedConstant shift)
  | .int n => .int n
  | .str text => .str text
  | .symbol name => .symbol name

end

/-- A routine of a listing with the numbers of files and constants raised. -/
def Routine.renumbered (files constants : Nat) (r : Routine) : Routine :=
  { r with
    name := if r.kind = .file then renumber "anonymous" files r.name else r.name
    instructions := renumberedIn constants r.instructions }

theorem Routine.renumberedConstant_eq (shift : Nat) (r : Routine) :
    r.renumberedConstant shift =
      { r with
        name := renumber "compiled-function-" shift r.name
        instructions := renumberedIn shift r.instructions } := by
  cases r
  rw [renumberedConstant]

theorem renumberedIn_append (shift : Nat) (is js : List Instruction) :
    renumberedIn shift (is ++ js) = renumberedIn shift is ++ renumberedIn shift js := by
  induction is with
  | nil => simp [renumberedIn]
  | cons i is ih => simp [renumberedIn, ih]

theorem Instruction.renumbered_of_nested {i : Instruction} (h : i.nested = []) (shift : Nat) :
    i.renumbered shift = i := by
  obtain ⟨kind, operand, offset, label⟩ := i
  cases operand with
  | none => rw [renumbered]
  | some operand =>
    cases operand with
    | routine r => simp [nested, Operand.nested, Routine.withNested_eq] at h
    | _ => simp [renumbered, Operand.renumbered]

/-- Without routines in constants there is nothing to renumber. -/
theorem renumberedIn_of_nestedIn {is : List Instruction} (h : nestedIn is = []) (shift : Nat) :
    renumberedIn shift is = is := by
  induction is with
  | nil => rw [renumberedIn]
  | cons i is ih =>
    rw [nestedIn, List.append_eq_nil_iff] at h
    rw [renumberedIn, i.renumbered_of_nested h.1, ih h.2]

/-- An error further down in a listing. -/
def Error.later (lines : Nat) : Error → Error
  | .malformedLine line text => .malformedLine (lines + line) text
  | .unknownOpcode line mnemonic => .unknownOpcode (lines + line) mnemonic
  | .unexpectedEnd line => .unexpectedEnd (lines + line)
  | e => e

namespace Listing

open Text

/-- The name that an open routine has when numbers are raised. -/
def Frame.renumberedName (files constants : Nat) (f : Frame) : String :=
  match f.place with
  | some _ => renumber "compiled-function-" constants f.routine.name
  | none => if f.routine.kind = .file then renumber "anonymous" files f.routine.name
    else f.routine.name

def Frame.renumbered (files constants : Nat) (f : Frame) : Frame :=
  { f with
    routine := { f.routine with
      name := f.renumberedName files constants
      instructions := renumberedIn constants f.routine.instructions } }

theorem Entry.read_later (line : List Char) (lines n : Nat) :
    Entry.read line (lines + n) = (Entry.read line n).mapError (.later lines) := by
  rw [Entry.read, Entry.read]
  split
  · rfl
  split
  · rfl
  rw [entry, entry]
  split
  · simp only
    split <;> rfl
  split
  · split <;> rfl
  · rfl
  · split <;> rfl

namespace State

/-- The state of a reader that has read some routines on some lines before. -/
def after (earlier : List Routine) (lines : Nat) (s : State) : State :=
  let files := fileCount earlier
  let constants := constantCount earlier
  { finished := earlier ++ s.finished.map (·.renumbered files constants)
    frames := s.frames.map (·.renumbered files constants)
    anonymous := files + s.anonymous
    compiled := constants + s.compiled
    line := lines + s.line }

/-- What comes of a reader that has read some routines on some lines before. -/
def afterResult (earlier : List Routine) (lines : Nat) (result : Except Error State) :
    Except Error State :=
  (result.map (after earlier lines)).mapError (.later lines)

variable {s : State} {earlier : List Routine} {lines : Nat} {line : List Char}

theorem afterResult_ok : afterResult earlier lines (.ok s) = .ok (s.after earlier lines) := rfl

theorem frames_after : (s.after earlier lines).frames =
    s.frames.map (·.renumbered (fileCount earlier) (constantCount earlier)) := rfl

theorem after_update {change : Frame → Frame}
    (h : ∀ f, (change f).renumbered (fileCount earlier) (constantCount earlier) =
      change (f.renumbered (fileCount earlier) (constantCount earlier))) :
    (s.update change).after earlier lines = (s.after earlier lines).update change := by
  cases hframes : s.frames with
  | nil => simp [update, after, hframes]
  | cons top rest => simp [update, after, hframes, h]

theorem afterResult_update {change : Frame → Frame}
    (h : ∀ f, (change f).renumbered (fileCount earlier) (constantCount earlier) =
      change (f.renumbered (fileCount earlier) (constantCount earlier))) :
    .ok ((s.after earlier lines).update change) =
      afterResult earlier lines (.ok (s.update change)) :=
  congrArg Except.ok (after_update h).symm

theorem after_enter (phase : Phase) :
    (s.enter phase).after earlier lines = (s.after earlier lines).enter phase :=
  after_update fun _ => rfl

theorem after_push {is : List Instruction} (h : nestedIn is = []) :
    (s.update (·.push is)).after earlier lines = (s.after earlier lines).update (·.push is) :=
  after_update fun f => by
    simp only [Frame.renumbered, Frame.push, renumberedIn_append, renumberedIn_of_nestedIn h]
    rfl

theorem after_close (h : Nested s.frames) :
    s.close.after earlier lines = (s.after earlier lines).close := by
  cases hframes : s.frames with
  | nil =>
    rw [close_of_outside hframes, close_of_outside (by simp [after, hframes])]
  | cons top rest =>
    rw [hframes] at h
    cases rest with
    | nil =>
      have htop : top.place = none := h
      rw [close_of_outer hframes, close_of_outer (by simp [after, hframes]; rfl)]
      simp [after, Routine.renumbered, Frame.renumbered, Frame.renumberedName, htop]
    | cons around rest =>
      obtain ⟨place, hplace⟩ := Option.isSome_iff_exists.1 h.1
      have hafter : (s.after earlier lines).frames =
          top.renumbered (fileCount earlier) (constantCount earlier) ::
            around.renumbered (fileCount earlier) (constantCount earlier) ::
              rest.map (·.renumbered (fileCount earlier) (constantCount earlier)) := by
        simp [frames_after, hframes]
      rw [close_of_inner hframes hplace, close_of_inner hafter hplace]
      simp only [after, List.map_cons, Frame.renumbered, Frame.renumberedName, Frame.push, hplace,
        renumberedIn_append, renumberedIn, Instruction.renumbered, Operand.renumbered,
        Routine.renumberedConstant_eq]

theorem Counted.after_closeMany (hs : s.Counted) (n : Nat) :
    (closeMany n s).after earlier lines = closeMany n (s.after earlier lines) := by
  induction n generalizing s with
  | zero => rfl
  | succ n ih => rw [closeMany, closeMany, ih hs.close, after_close hs.nested]

theorem Counted.after_closeAll (hs : s.Counted) :
    s.closeAll.after earlier lines = (s.after earlier lines).closeAll := by
  rw [State.closeAll, hs.after_closeMany, State.closeAll]
  simp [after]

theorem after_openNamed {kind : RoutineKind} (h : kind ≠ .file) (name : String) :
    (s.openNamed kind name).after earlier lines = (s.after earlier lines).openNamed kind name := by
  simp [after, openNamed, Frame.start, Frame.renumbered, Frame.renumberedName, h, renumberedIn]

theorem after_openFile :
    s.openFile.after earlier lines = (s.after earlier lines).openFile := by
  simp [after, openFile, Frame.start, Frame.renumbered, Frame.renumberedName, renumberedIn,
    Nat.add_assoc]

theorem after_openConstant (place : Place) :
    (s.openConstant place).after earlier lines = (s.after earlier lines).openConstant place := by
  simp [after, openConstant, Frame.start, Frame.renumbered, Frame.renumberedName, renumberedIn,
    Nat.add_assoc]

theorem after_readEntry (line : List Char) :
    (s.after earlier lines).readEntry line =
      afterResult earlier lines (s.readEntry line) := by
  rw [readEntry_eq, readEntry_eq, show (s.after earlier lines).line = lines + s.line from rfl,
    Entry.read_later]
  cases hread : Entry.read line s.line with
  | error e => rfl
  | ok entry =>
    cases entry with
    | instruction place kind operand =>
      have hnested : nestedIn
          (place.marker ++ [⟨kind, operand, place.offset, place.label⟩]) = [] := by
        simp [nestedIn_append, nestedIn_marker, nestedIn, nested_of_read hread]
      exact congrArg Except.ok (after_push hnested).symm
    | routine place =>
      rw [afterResult_ok, after_openConstant, after_push (nestedIn_marker place)]
      rfl

theorem after_readOutside (line : List Char) :
    (s.after earlier lines).readOutside line =
      afterResult earlier lines (s.readOutside line) := by
  rw [readOutside, readOutside]
  split
  · rfl
  split
  next kind name hheader =>
    rw [← after_openNamed (kind_ne_file_of_header? hheader), afterResult_ok]
  · rw [← after_openFile, afterResult_ok]
  split
  · rw [← after_openFile, ← after_enter, after_readEntry]
  · rfl

theorem Counted.after_readBody (hs : s.Counted) (line : List Char) :
    (s.after earlier lines).readBody line =
      afterResult earlier lines (s.readBody line) := by
  rw [readBody, readBody]
  split
  · rw [← hs.after_closeAll, after_readOutside]
  split
  · rfl
  split
  · rw [← after_close hs.nested, afterResult_ok]
  · rw [after_readEntry]

theorem Counted.enter (hs : s.Counted) (phase : Phase) : (s.enter phase).Counted :=
  hs.update (fun _ _ => rfl) (fun _ _ => rfl) (fun _ _ => rfl)

theorem Counted.after_readInteractive (hs : s.Counted) (line : List Char) :
    (s.after earlier lines).readInteractive line =
      afterResult earlier lines (s.readInteractive line) := by
  rw [readInteractive, readInteractive]
  split
  · exact afterResult_update fun _ => rfl
  · rw [← after_enter, (hs.enter .body).after_readBody]

theorem Counted.after_readArgs (hs : s.Counted) (line : List Char) :
    (s.after earlier lines).readArgs line =
      afterResult earlier lines (s.readArgs line) := by
  rw [readArgs, readArgs]
  split
  · exact afterResult_update fun _ => rfl
  · rw [← after_enter, (hs.enter .interactive).after_readInteractive]

theorem Counted.after_readDocstring (hs : s.Counted) (line : List Char) :
    (s.after earlier lines).readDocstring line =
      afterResult earlier lines (s.readDocstring line) := by
  rw [readDocstring, readDocstring]
  split
  · exact afterResult_update fun _ => rfl
  · exact afterResult_update fun _ => rfl
  · rw [← after_enter, (hs.enter .args).after_readArgs]

theorem Counted.after_readLine (hs : s.Counted) (line : List Char) :
    (s.after earlier lines).readLine line = afterResult earlier lines (s.readLine line) := by
  have hnext : { s.after earlier lines with line := (s.after earlier lines).line + 1 } =
      { s with line := s.line + 1 }.after earlier lines := by simp [after, Nat.add_assoc]
  cases hframes : s.frames with
  | nil =>
    rw [readLine_outside hframes, readLine_outside (by simp [after, hframes]), hnext,
      after_readOutside]
  | cons top rest =>
    have hafter : (s.after earlier lines).frames =
        top.renumbered (fileCount earlier) (constantCount earlier) ::
          rest.map (·.renumbered (fileCount earlier) (constantCount earlier)) := by
      simp [frames_after, hframes]
    rw [readLine_inside hframes, readLine_inside hafter]
    simp only [hnext, Frame.renumbered]
    cases hphase : top.phase with
    | docstring => rw [hs.nextLine.after_readDocstring]
    | docText length read =>
      exact afterResult_update fun _ => rfl
    | args => rw [hs.nextLine.after_readArgs]
    | interactive => rw [hs.nextLine.after_readInteractive]
    | body => rw [hs.nextLine.after_readBody]

end State

theorem State.Counted.after_readLines {s : State} {earlier : List Routine} {n : Nat}
    (hs : s.Counted) (lines : List (List Char)) :
    readLines lines (s.after earlier n) = State.afterResult earlier n (readLines lines s) := by
  induction lines generalizing s with
  | nil => rfl
  | cons line rest ih =>
    rw [readLines, readLines, hs.after_readLine]
    cases hline : s.readLine line with
    | error e => rfl
    | ok t => exact ih (State.kept_counted.readLine hs.nextLine hline)

theorem State.Counted.after_finish {s : State} {earlier : List Routine} {n : Nat} (hs : s.Counted) :
    (s.after earlier n).finish =
      (s.finish.map fun qs => earlier ++
        qs.map (·.renumbered (fileCount earlier) (constantCount earlier))).mapError (.later n) := by
  have hphase : (s.after earlier n).frames.head?.map (·.phase) = s.frames.head?.map (·.phase) := by
    cases hframes : s.frames <;> simp [State.after, hframes, Frame.renumbered]
  rw [finish, finish, ← hs.after_closeAll, hphase]
  split <;> rfl

variable {line : List Char}

theorem endsRoutines_of_opening (h : startsWith "byte code".toList line = true) :
    endsRoutines line = true := by
  obtain ⟨rest, hrest⟩ := Option.isSome_iff_exists.1 h
  obtain rfl := after?_eq_some_iff.1 hrest
  have htrim : trim ("byte code".toList ++ rest) = "byte code".toList ++ trimEnd rest := by
    rw [trim, trimStart_eq_self_of (by simp; decide), trimEnd_append (by simp; decide)]
  rw [endsRoutines, htrim, startsWith, after?_append, Option.isSome_some]

/-- A line that ends routines is no line of a heading. -/
theorem heading_of_endsRoutines (h : endsRoutines line = true) :
    doc? line = none ∧ args? line = none ∧ interactive? line = none := by
  obtain ⟨rest, hrest⟩ := Option.isSome_iff_exists.1 h
  obtain ⟨blanks, hblanks⟩ := exists_trimEnd_append (trimStart line)
  have hstart : trimStart line = "byte code".toList ++ (rest ++ blanks) := by
    rw [hblanks, ← trim, after?_eq_some_iff.1 hrest, List.append_assoc]
  refine ⟨?_, ?_, ?_⟩
  · rw [doc?, docStart?, hstart]
    simp [after?]
  · rw [args?, hstart]
    simp [after?]
  · rw [interactive?, hstart]
    simp [after?]

namespace State

variable {s : State}

theorem closeAll_enter (phase : Phase) : (s.enter phase).closeAll = s.closeAll := by
  cases hframes : s.frames with
  | nil => rw [enter, update, hframes]
  | cons top rest =>
    have hclose : (s.enter phase).close = s.close := by
      simp only [enter, update, hframes, close]
    rw [closeAll, closeAll, enter, frames_update, hframes, List.length_cons, List.length_cons,
      closeMany, closeMany, ← enter, hclose]

theorem close_withLine (n : Nat) : { s with line := n }.close = { s.close with line := n } := by
  cases hframes : s.frames with
  | nil => simp only [close, hframes]
  | cons top rest =>
    cases hplace : top.place with
    | none => simp only [close, hframes, hplace]
    | some place => cases rest <;> simp only [close, hframes, hplace]

theorem closeMany_withLine (count n : Nat) :
    closeMany count { s with line := n } = { closeMany count s with line := n } := by
  induction count generalizing s with
  | zero => rfl
  | succ count ih => rw [closeMany, closeMany, close_withLine, ih]

theorem line_close : s.close.line = s.line := by
  have h := congrArg State.line (close_withLine (s := s) s.line)
  exact h

theorem line_update (change : Frame → Frame) : (s.update change).line = s.line := by
  cases hframes : s.frames <;> simp [update, hframes]

theorem line_closeAll : s.closeAll.line = s.line := by
  have h := congrArg State.line (closeMany_withLine (s := s) s.frames.length s.line)
  exact h

theorem closeAll_nextLine :
    { s with line := s.line + 1 }.closeAll = { s.closeAll with line := s.closeAll.line + 1 } := by
  rw [line_closeAll]
  exact closeMany_withLine _ _

/-- No documentation goes on to the next line. -/
def NoDocText (s : State) : Prop := ∀ f ∈ s.frames, ∀ length read, f.phase ≠ .docText length read

/-- A line that ends routines is read as if the routines before it had ended. -/
theorem readLine_of_endsRoutines (hs : s.NoDocText) (h : endsRoutines line = true) :
    s.readLine line = s.closeAll.readLine line := by
  obtain ⟨hdoc, hargs, hinteractive⟩ := heading_of_endsRoutines h
  have hbody : ∀ t : State, t.readBody line = t.closeAll.readOutside line := fun t => by
    rw [readBody, if_pos h]
  have hinteractive : ∀ t : State, t.readInteractive line = t.closeAll.readOutside line :=
    fun t => by simp only [readInteractive, hinteractive, hbody, closeAll_enter]
  have hargs : ∀ t : State, t.readArgs line = t.closeAll.readOutside line :=
    fun t => by simp only [readArgs, hargs, hinteractive, closeAll_enter]
  have hdoc : ∀ t : State, t.readDocstring line = t.closeAll.readOutside line :=
    fun t => by simp only [readDocstring, hdoc, hargs, closeAll_enter]
  rw [readLine_outside s.frames_closeAll, ← closeAll_nextLine]
  obtain hframes | ⟨top, rest, hframes⟩ : s.frames = [] ∨ ∃ top rest, s.frames = top :: rest := by
    cases s.frames <;> simp
  · have hclosed : { s with line := s.line + 1 }.closeAll = { s with line := s.line + 1 } := by
      simp only [closeAll, hframes, List.length_nil, closeMany]
    rw [readLine_outside hframes, hclosed]
  · rw [readLine_inside hframes]
    cases hphase : top.phase with
    | docText length read => exact absurd hphase (hs top (by simp [hframes]) length read)
    | docstring => exact hdoc { s with line := s.line + 1 }
    | args => exact hargs { s with line := s.line + 1 }
    | interactive => exact hinteractive { s with line := s.line + 1 }
    | body => exact hbody { s with line := s.line + 1 }

theorem NoDocText.update {change : Frame → Frame} (hs : s.NoDocText)
    (h : ∀ f, s.frames.head? = some f → ∀ length read, (change f).phase = .docText length read →
      ∃ length read, f.phase = .docText length read) : (s.update change).NoDocText := by
  intro f hf length read hphase
  rw [frames_update] at hf
  cases hframes : s.frames with
  | nil => simp [hframes] at hf
  | cons top rest =>
    rw [hframes] at hf
    rcases List.mem_cons.1 hf with rfl | hf
    · obtain ⟨length, read, htop⟩ := h top (by simp [hframes]) length read hphase
      exact hs top (by simp [hframes]) length read htop
    · exact hs f (by simp [hframes, hf]) length read hphase

theorem NoDocText.push (hs : s.NoDocText) (is : List Instruction) :
    (s.update (·.push is)).NoDocText :=
  hs.update fun _ _ length read hphase => ⟨length, read, hphase⟩

theorem NoDocText.open {f : Frame} {t : State} (hs : s.NoDocText)
    (hphase : f.phase = .docstring) (hframes : t.frames = f :: s.frames) : t.NoDocText := by
  intro g hg
  rw [hframes] at hg
  rcases List.mem_cons.1 hg with rfl | hg
  · simp [hphase]
  · exact hs g hg

theorem NoDocText.close (hs : s.NoDocText) : s.close.NoDocText := by
  rw [State.close]
  split
  · exact hs
  next top rest hframes =>
    have hrest : ∀ f ∈ rest, ∀ length read, f.phase ≠ .docText length read :=
      fun f hf => hs f (by simp [hframes, hf])
    split
    next place around rest hplace => simpa [NoDocText, Frame.push] using hrest
    · exact hrest

/-- Without a first line of documentation, none goes on. -/
theorem kept_noDocText (h : docStart? (trimStart line) = none) : Kept line NoDocText where
  heading hchange hs := hs.update fun f hf length read hphase => by
    refine ((hchange f hf).docText length read hphase).resolve_right ?_
    rintro ⟨length, text, hdoc⟩
    rw [doc?] at hdoc
    split at hdoc
    · cases hdoc
    · simp [h] at hdoc
  instruction _ hs := hs.push _
  constant {_ _ place} _ _ hs := (hs.push place.marker).open rfl rfl
  named _ _ hs := hs.open rfl rfl
  file _ hs := hs.open rfl rfl
  close hs := hs.close

theorem kept_line (n : Nat) : Kept line (·.line = n) where
  heading _ hs := (line_update _).trans hs
  instruction _ hs := (line_update _).trans hs
  constant {_ _ place} _ _ hs := (line_update (·.push place.marker)).trans hs
  named _ _ hs := hs
  file _ hs := hs
  close hs := line_close.trans hs

theorem line_of_readLine {t : State} (h : s.readLine line = .ok t) : t.line = s.line + 1 :=
  (kept_line (s.line + 1)).readLine rfl h

end State

theorem line_of_readLines {lines : List (List Char)} {s t : State} (h : readLines lines s = .ok t) :
    t.line = s.line + lines.length := by
  induction lines generalizing s with
  | nil =>
    cases h
    rfl
  | cons line rest ih =>
    rw [readLines] at h
    cases hline : s.readLine line with
    | error e => simp [hline, bind, Except.bind] at h
    | ok u =>
      rw [ih (by simpa [hline, bind, Except.bind] using h), State.line_of_readLine hline,
        List.length_cons]
      omega

/-- A listing behind a line break that starts with a header is read as it is alone, with the numbers
of files, of constants and of lines counted on from those of the listing in front. -/
theorem read_append {first second : String} {rs : List Routine}
    (hbreak : first.toList.getLast? = some '\n')
    (hdoc : ∀ line ∈ lines first.toList, docStart? (trimStart line) = none)
    (hheader : (lines second.toList).head?.any (startsWith "byte code".toList) = true)
    (hfirst : read first = .ok rs) :
    read (first ++ second) =
      ((read second).map fun qs =>
        rs ++ qs.map (·.renumbered (fileCount rs) (constantCount rs))).mapError
          (.later (lines first.toList).length) := by
  obtain ⟨s, hs, hfinish⟩ := read_eq_ok hfirst
  obtain ⟨front, hfront⟩ := List.getLast?_eq_some_iff.1 hbreak
  have hcounted : s.Counted :=
    State.readLines_kept (fun _ _ => State.kept_counted) (fun _ h => h.nextLine) .start hs
  have hnoDocText : s.NoDocText :=
    State.readLines_kept (fun line hline => State.kept_noDocText (hdoc line hline))
      (fun _ h => h) (by simp [State.NoDocText, State.start]) hs
  -- Once its routines have ended, the reader differs from one that starts in its numbers only.
  have hclosed : s.closeAll = State.start.after rs (lines first.toList).length := by
    have hfinished : s.closeAll.finished = rs := State.finish_eq_ok hfinish
    have hline : s.closeAll.line = (lines first.toList).length := by
      rw [State.line_closeAll, line_of_readLines hs]
      simp [State.start]
    have hanonymous := hcounted.closeAll.anonymous
    have hcompiled := hcounted.closeAll.compiled
    have hfields : s.closeAll = ⟨s.closeAll.finished, s.closeAll.frames, s.closeAll.anonymous,
        s.closeAll.compiled, s.closeAll.line⟩ := rfl
    rw [hfields, hanonymous, hcompiled, s.frames_closeAll, hfinished, hline]
    simp [State.after, State.start, openFiles, openConstants]
  have hread : readLines (lines second.toList) s =
      readLines (lines second.toList) s.closeAll := by
    obtain ⟨line, rest, hlines⟩ := List.exists_cons_of_ne_nil (l := lines second.toList) (by
      intro hnil
      simp [hnil] at hheader)
    rw [hlines, readLines, readLines,
      State.readLine_of_endsRoutines hnoDocText
        (endsRoutines_of_opening (by simpa [hlines] using hheader))]
  rw [read, read, String.toList_append, hfront, lines_append, ← hfront, readLines_append, hs]
  change (readLines (lines second.toList) s >>= State.finish) = _
  rw [hread, hclosed, State.Counted.start.after_readLines]
  cases hsecond : readLines (lines second.toList) .start with
  | error e => rfl
  | ok t =>
    have ht : t.Counted :=
      State.readLines_kept (fun _ _ => State.kept_counted) (fun _ h => h.nextLine) .start hsecond
    exact ht.after_finish

/-- The first listing breaks off in the routine of a constant, and the second is numbered on. -/
theorem read_append_unfinished :
    let first := "0 constant <compiled-function>\n args: nil\n0 varref x\n1 return\n"
    let second := "byte code:\n0 constant <compiled-function>\n0 return\n\n1 discard\n"
    ∃ rs, read first = .ok rs ∧ fileCount rs = 1 ∧ constantCount rs = 1 ∧
      read (first ++ second) =
        ((read second).map fun qs => rs ++ qs.map (·.renumbered 1 1)).mapError (.later 4) := by
  intro first second
  obtain ⟨rs, hrs, hcounts⟩ := exists_ok_of_any (e := read first)
    (p := fun rs => fileCount rs = 1 && constantCount rs = 1) (by decide +kernel)
  obtain ⟨hfiles, hconstants⟩ : fileCount rs = 1 ∧ constantCount rs = 1 := by simpa using hcounts
  refine ⟨rs, hrs, hfiles, hconstants, ?_⟩
  have h : read (first ++ second) = _ := read_append (by decide) (by decide) (by decide) hrs
  rwa [hfiles, hconstants, show (lines first.toList).length = 4 by decide] at h

end Listing

end ElispLift
