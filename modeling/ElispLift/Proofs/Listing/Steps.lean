import ElispLift.Listing.Reader

/-!
# What a line does to the reader

A line changes the heading of the innermost routine, gives it an instruction, opens a routine or
ends some. What each of these steps keeps is kept by every line, and so it holds at the end of a
listing, where no routine is open.
-/

namespace ElispLift.Listing

/-- No line from here on is documentation. -/
def Phase.Documented (phase : Phase) : Prop :=
  phase ≠ .docstring ∧ ∀ length read, phase ≠ .docText length read

theorem Phase.Documented.args : Documented .args := ⟨by simp, by simp⟩

theorem Phase.Documented.interactive : Documented .interactive := ⟨by simp, by simp⟩

theorem Phase.Documented.body : Documented .body := ⟨by simp, by simp⟩

/-- Nothing but the heading of the routine changes, and what its next line may be. Documentation of
several lines goes on or starts on this line. -/
structure Frame.Reheaded (line : List Char) (f g : Frame) : Prop where
  name : g.routine.name = f.routine.name
  kind : g.routine.kind = f.routine.kind
  instructions : g.routine.instructions = f.routine.instructions
  place : g.place = f.place
  docText : ∀ length read, g.phase = .docText length read →
    (∃ length read, f.phase = .docText length read) ∨
      ∃ length text, doc? line = some (.start length text)
  docstring : f.phase.Documented →
    g.routine.docstring = f.routine.docstring ∧ g.phase.Documented

namespace State

variable {s s' t : State} {line : List Char} {rs : List Routine}

/-- What every step that reads a line keeps. Routines of constants are opened in others, and
routines of the listing when no other is open. -/
structure Kept (line : List Char) (p : State → Prop) : Prop where
  heading : ∀ {s change}, (∀ f, s.frames.head? = some f → f.Reheaded line (change f)) → p s →
    p (s.update change)
  instruction : ∀ {s n place kind operand},
    Entry.read line n = .ok (.instruction place kind operand) → p s →
      p (s.update (·.push (place.marker ++ [⟨kind, operand, place.offset, place.label⟩])))
  constant : ∀ {s n place}, Entry.read line n = .ok (.routine place) → s.frames ≠ [] → p s →
    p ((s.update (·.push place.marker)).openConstant place)
  named : ∀ {s kind name}, header? line = some (.named kind name) → s.frames = [] → p s →
    p (s.openNamed kind name)
  file : ∀ {s}, s.frames = [] → p s → p s.openFile
  close : ∀ {s}, p s → p s.close

theorem close_of_outside (h : s.frames = []) : s.close = s := by
  simp only [State.close, h]

/-- The innermost routine ends as a constant of the one around it. -/
theorem close_of_inner {top around : Frame} {rest : List Frame} {place : Place}
    (h : s.frames = top :: around :: rest) (hplace : top.place = some place) :
    s.close = { s with
      frames := around.push
        [⟨.fixed .constant, some (.routine top.routine), place.offset, place.label⟩] :: rest } := by
  simp only [State.close, h, hplace]

/-- The outermost routine ends as one of the listing. -/
theorem close_of_outer {top : Frame} (h : s.frames = [top]) :
    s.close = { s with finished := s.finished ++ [top.routine], frames := [] } := by
  cases hplace : top.place <;> simp only [State.close, h, hplace]

theorem length_frames_close (s : State) : s.close.frames.length = s.frames.length - 1 := by
  rw [close]
  split
  next h => simp [h]
  next top rest h =>
    split
    · simp [h]
    · simp [h]

theorem frames_closeMany (n : Nat) (h : s.frames.length ≤ n) : (closeMany n s).frames = [] := by
  induction n generalizing s with
  | zero => exact List.eq_nil_of_length_eq_zero (Nat.le_zero.1 h)
  | succ n ih => exact ih (by rw [length_frames_close]; omega)

@[simp] theorem frames_closeAll (s : State) : s.closeAll.frames = [] :=
  frames_closeMany _ (Nat.le_refl _)

theorem frames_update (change : Frame → Frame) :
    (s.update change).frames = match s.frames with
      | [] => []
      | top :: rest => change top :: rest := by
  cases hs : s.frames <;> simp [update, hs]

@[simp] theorem frames_update_eq_nil {change : Frame → Frame} :
    (s.update change).frames = [] ↔ s.frames = [] := by
  rw [frames_update]
  cases s.frames <;> simp

@[simp] theorem frames_enter_eq_nil {phase : Phase} :
    (s.enter phase).frames = [] ↔ s.frames = [] := frames_update_eq_nil

theorem readEntry_eq (s : State) (line : List Char) :
    s.readEntry line = match Entry.read line s.line with
      | .error e => .error e
      | .ok (.instruction place kind operand) =>
        .ok (s.update (·.push (place.marker ++ [⟨kind, operand, place.offset, place.label⟩])))
      | .ok (.routine place) => .ok ((s.update (·.push place.marker)).openConstant place) := by
  rw [readEntry]
  cases Entry.read line s.line with
  | error e => rfl
  | ok entry => cases entry <;> rfl

theorem readLine_outside (h : s.frames = []) (line : List Char) :
    s.readLine line = { s with line := s.line + 1 }.readOutside line := by
  simp only [readLine, h]

theorem readLine_inside {top : Frame} {rest : List Frame} (h : s.frames = top :: rest)
    (line : List Char) :
    s.readLine line =
      let s := { s with line := s.line + 1 }
      match top.phase with
      | .docstring => s.readDocstring line
      | .docText length read => .ok (s.readDocText length read line)
      | .args => s.readArgs line
      | .interactive => s.readInteractive line
      | .body => s.readBody line := by
  cases hphase : top.phase <;> simp only [readLine, h, hphase]

variable {p : State → Prop}

theorem closeMany_of_close (hclose : ∀ {s}, p s → p s.close) (n : Nat) (hs : p s) :
    p (closeMany n s) := by
  induction n generalizing s with
  | zero => exact hs
  | succ n ih => exact ih (hclose hs)

namespace Kept

theorem enter (hp : Kept line p) (phase : Phase) (hphase : phase.Documented) (hs : p s) :
    p (s.enter phase) :=
  hp.heading (fun _ _ =>
    ⟨rfl, rfl, rfl, rfl, fun _ _ h => absurd h (hphase.2 _ _), fun _ => ⟨rfl, hphase⟩⟩) hs

theorem closeAll (hp : Kept line p) (hs : p s) : p s.closeAll :=
  closeMany_of_close (p := p) hp.close _ hs

theorem readEntry (hp : Kept line p) (hopen : s.frames ≠ []) (hs : p s)
    (h : s.readEntry line = .ok s') : p s' := by
  rw [readEntry_eq] at h
  split at h
  · cases h
  next place kind operand hread =>
    cases h
    exact hp.instruction hread hs
  next place hread =>
    cases h
    exact hp.constant hread hopen hs

theorem readOutside (hp : Kept line p) (hnone : s.frames = []) (hs : p s)
    (h : s.readOutside line = .ok s') : p s' := by
  rw [State.readOutside] at h
  split at h
  · cases h
    exact hs
  split at h
  next kind name hheader =>
    cases h
    exact hp.named hheader hnone hs
  · cases h
    exact hp.file hnone hs
  split at h
  · exact hp.readEntry (by simp [openFile])
      (hp.enter .body .body (hp.file hnone hs)) h
  · cases h

theorem readBody (hp : Kept line p) (hopen : s.frames ≠ []) (hs : p s)
    (h : s.readBody line = .ok s') : p s' := by
  rw [State.readBody] at h
  split at h
  · exact hp.readOutside s.frames_closeAll (hp.closeAll hs) h
  split at h
  · cases h
    exact hs
  split at h
  · cases h
    exact hp.close hs
  · exact hp.readEntry hopen hs h

theorem readInteractive (hp : Kept line p) (hopen : s.frames ≠ []) (hs : p s)
    (h : s.readInteractive line = .ok s') : p s' := by
  rw [State.readInteractive] at h
  split at h
  · cases h
    exact hp.heading (fun _ _ => ⟨rfl, rfl, rfl, rfl, by simp, fun _ => ⟨rfl, .body⟩⟩) hs
  · exact hp.readBody (by simpa using hopen) (hp.enter .body .body hs) h

theorem readArgs (hp : Kept line p) (hopen : s.frames ≠ []) (hs : p s)
    (h : s.readArgs line = .ok s') : p s' := by
  rw [State.readArgs] at h
  split at h
  · cases h
    exact hp.heading (fun _ _ => ⟨rfl, rfl, rfl, rfl, by simp, fun _ => ⟨rfl, .interactive⟩⟩) hs
  · exact hp.readInteractive (by simpa using hopen)
      (hp.enter .interactive .interactive hs) h

theorem readDocstring (hp : Kept line p) (hopen : s.frames ≠ [])
    (hphase : ∀ f, s.frames.head? = some f → f.phase = .docstring) (hs : p s)
    (h : s.readDocstring line = .ok s') : p s' := by
  rw [State.readDocstring] at h
  split at h
  · cases h
    exact hp.heading (fun f hf =>
      ⟨rfl, rfl, rfl, rfl, by simp, fun hdocumented => absurd (hphase f hf) hdocumented.1⟩) hs
  next length text hdoc =>
    cases h
    exact hp.heading (fun f hf =>
      ⟨rfl, rfl, rfl, rfl, fun _ _ _ => .inr ⟨length, text, hdoc⟩,
        fun hdocumented => absurd (hphase f hf) hdocumented.1⟩) hs
  · exact hp.readArgs (by simpa using hopen) (hp.enter .args .args hs) h

theorem readLine (hp : Kept line p) (hs : p { s with line := s.line + 1 })
    (h : s.readLine line = .ok s') : p s' := by
  cases hframes : s.frames with
  | nil =>
    rw [readLine_outside hframes] at h
    exact hp.readOutside (by exact hframes) hs h
  | cons top rest =>
    have hopen : { s with line := s.line + 1 }.frames ≠ [] := by simp [hframes]
    rw [readLine_inside hframes] at h
    cases hphase : top.phase with
    | docstring =>
      refine hp.readDocstring hopen (fun f hf => ?_) hs (by simpa only [hphase] using h)
      obtain rfl : top = f := by simpa [hframes] using hf
      exact hphase
    | docText length read =>
      rw [hphase] at h
      cases h
      refine hp.heading (fun f hf => ?_) hs
      obtain rfl : top = f := by simpa [hframes] using hf
      exact ⟨rfl, rfl, rfl, rfl, fun _ _ _ => .inl ⟨length, read, hphase⟩,
        fun hdocumented => absurd hphase (hdocumented.2 length read)⟩
    | args => exact hp.readArgs hopen hs (by simpa only [hphase] using h)
    | interactive => exact hp.readInteractive hopen hs (by simpa only [hphase] using h)
    | body => exact hp.readBody hopen hs (by simpa only [hphase] using h)

end Kept

theorem readLines_kept {lines : List (List Char)} (hp : ∀ line ∈ lines, Kept line p)
    (hcount : ∀ s : State, p s → p { s with line := s.line + 1 }) (hs : p s)
    (h : readLines lines s = .ok s') : p s' := by
  induction lines generalizing s with
  | nil =>
    cases h
    exact hs
  | cons line rest ih =>
    rw [List.forall_mem_cons] at hp
    rw [Listing.readLines] at h
    cases hline : s.readLine line with
    | error e => simp [hline, bind, Except.bind] at h
    | ok t =>
      exact ih hp.2 (hp.1.readLine (hcount s hs) hline)
        (by simpa [hline, bind, Except.bind] using h)

theorem finish_eq_ok (h : s.finish = .ok rs) : s.closeAll.finished = rs := by
  rw [finish] at h
  split at h
  · cases h
  · exact Except.ok.inj h

end State

theorem readLines_append (ls ms : List (List Char)) (s : State) :
    readLines (ls ++ ms) s = readLines ls s >>= readLines ms := by
  induction ls generalizing s with
  | nil => rfl
  | cons line rest ih =>
    rw [List.cons_append, readLines, readLines]
    cases s.readLine line with
    | error e => rfl
    | ok t => exact ih t

theorem read_eq_ok {text : String} {rs : List Routine} (h : read text = .ok rs) :
    ∃ s, readLines (Text.lines text.toList) .start = .ok s ∧ s.finish = .ok rs := by
  rw [read] at h
  cases hs : readLines (Text.lines text.toList) .start with
  | error e => simp [hs, bind, Except.bind] at h
  | ok s => exact ⟨s, rfl, by simpa [hs, bind, Except.bind] using h⟩

section

variable {p : State → Prop} {text : String} {rs : List Routine}

/-- What the lines of a listing keep, and the end of a routine, holds in the end, where all routines
are finished. -/
theorem exists_of_lines (hp : ∀ line ∈ Text.lines text.toList, State.Kept line p)
    (hclose : ∀ {s : State}, p s → p s.close)
    (hcount : ∀ s : State, p s → p { s with line := s.line + 1 }) (hstart : p .start)
    (h : read text = .ok rs) : ∃ s, p s ∧ s.frames = [] ∧ s.finished = rs := by
  obtain ⟨s, hs, hfinish⟩ := read_eq_ok h
  have hkept := State.readLines_kept hp hcount hstart hs
  exact ⟨s.closeAll, State.closeMany_of_close (p := p) hclose _ hkept, s.frames_closeAll,
    State.finish_eq_ok hfinish⟩

/-- What is kept by all lines holds in the end. -/
theorem exists_of_read (hp : ∀ line, State.Kept line p)
    (hcount : ∀ s : State, p s → p { s with line := s.line + 1 }) (hstart : p .start)
    (h : read text = .ok rs) : ∃ s, p s ∧ s.frames = [] ∧ s.finished = rs :=
  exists_of_lines (fun line _ => hp line) (hp []).close hcount hstart h

end

end ElispLift.Listing
