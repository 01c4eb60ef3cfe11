import ElispLift.Proofs.Listing.Printing
import ElispLift.Proofs.Listing.Routines

/-!
# Rows of a listing

A row is an instruction as it stands on a line, behind its label if the place on the line has one. A
routine is its rows, where a constant that is a routine comes behind the lines of that routine. So a
label marks the instruction behind it, unless it stands on a line of its own. Such a line, and one
with an instruction that only later stages make, is told by its mnemonic.
-/

namespace ElispLift

/-- The operations that only later stages make. -/
def Opcode.synthetic : List Opcode :=
  [.comeFrom, .stackAccess, .neqlsign, .caar, .cadr, .cdar, .cddr]

theorem Opcode.opClass_eq_pseudo {op : Opcode} :
    op.opClass = .pseudo ↔ op = .label ∨ op ∈ synthetic := by
  cases op <;> decide

namespace Listing

variable {is js : List Instruction} {m i : Instruction} {lines : List (List Char)}

/-! ### Labels and what they mark -/

/-- A label at the offset of `i`, with the text of its label. -/
def Marks (m i : Instruction) : Prop :=
  m.isOp .label = true ∧ m.offset = i.offset ∧
    ∃ label, i.label = some label ∧ m.operandText? = some label

/-- Every label is directly in front of the instruction that it marks. -/
def Carried (is : List Instruction) : Prop :=
  ∀ n m, is[n]? = some m → m.isOp .label = true → ∃ i, is[n + 1]? = some i ∧ Marks m i

/-- Every instruction with a label is directly behind that label. -/
def Marked (is : List Instruction) : Prop :=
  ∀ n i, is[n]? = some i → i.label.isSome = true →
    ∃ k m, n = k + 1 ∧ is[k]? = some m ∧ Marks m i

/-- Instructions as they stand in a listing, with labels only in front of what they mark. -/
structure Genuine (is : List Instruction) : Prop where
  carried : Carried is
  marked : Marked is
  plain : ∀ i ∈ is, ∀ op ∈ Opcode.synthetic, i.isOp op = false

theorem Carried.append (his : Carried is) (hjs : Carried js) : Carried (is ++ js) := by
  intro n m hm hlabel
  rcases Nat.lt_or_ge n is.length with hlt | hge
  · rw [List.getElem?_append_left hlt] at hm
    obtain ⟨i, hi, hmarks⟩ := his n m hm hlabel
    have hnext := (List.getElem?_eq_some_iff.1 hi).1
    exact ⟨i, by rw [List.getElem?_append_left hnext, hi], hmarks⟩
  · rw [List.getElem?_append_right hge] at hm
    obtain ⟨i, hi, hmarks⟩ := hjs _ m hm hlabel
    refine ⟨i, ?_, hmarks⟩
    rw [List.getElem?_append_right (by omega), Nat.sub_add_comm hge, hi]

theorem Marked.append (his : Marked is) (hjs : Marked js) : Marked (is ++ js) := by
  intro n i hi hlabel
  rcases Nat.lt_or_ge n is.length with hlt | hge
  · rw [List.getElem?_append_left hlt] at hi
    obtain ⟨k, m, rfl, hm, hmarks⟩ := his n i hi hlabel
    exact ⟨k, m, rfl, by rw [List.getElem?_append_left (by omega), hm], hmarks⟩
  · rw [List.getElem?_append_right hge] at hi
    obtain ⟨k, m, hn, hm, hmarks⟩ := hjs _ i hi hlabel
    refine ⟨is.length + k, m, by omega, ?_, hmarks⟩
    rw [List.getElem?_append_right (by omega), Nat.add_sub_cancel_left, hm]

/-! ### Rows -/

/-- What a line gives at its place. A constant that is a routine is given by its first line. -/
inductive Reads (line : List Char) (place : Place) : OpKind → Option Operand → Prop where
  | instruction {n : Nat} {kind : OpKind} {operand : Option Operand}
      (h : Entry.read line n = .ok (.instruction place kind operand)) :
      Reads line place kind operand
  | routine {n : Nat} (h : Entry.read line n = .ok (.routine place)) (r : Routine) :
      Reads line place (.fixed .constant) (some (.routine r))

/-- An instruction that stands on one of some lines. -/
structure Row (lines : List (List Char)) where
  line : List Char
  place : Place
  kind : OpKind
  operand : Option Operand
  mem : line ∈ lines
  reads : Reads line place kind operand

/-- The operation on a line is one of the labels and those that only later stages make. -/
def NamesPseudo (line : List Char) : Prop :=
  ∃ op : Opcode, op.opClass = .pseudo ∧ (fields line).2.head? = some op.mnemonic.toList

namespace Row

/-- The instruction itself. -/
def instruction (row : Row lines) : Instruction :=
  ⟨row.kind, row.operand, row.place.offset, row.place.label⟩

def instructions (row : Row lines) : List Instruction := row.place.marker ++ [row.instruction]

variable {row : Row lines} {rows : List (Row lines)}

theorem instructions_cases (row : Row lines) :
    row.place.label = none ∧ row.instructions = [row.instruction] ∨
      ∃ label, row.place.label = some label ∧ row.instructions =
        [.ofOpcode .label (some (.symbol label)) row.place.offset, row.instruction] := by
  cases hlabel : row.place.label with
  | none => exact .inl ⟨rfl, by rw [instructions, Place.marker, hlabel, List.nil_append]⟩
  | some label => exact .inr ⟨label, rfl, by rw [instructions, Place.marker, hlabel]; rfl⟩

/-- What a row starts with has no label. -/
theorem label_of_head (hi : i ∈ (rows.flatMap instructions).head?) : i.label = none := by
  cases rows with
  | nil => cases hi
  | cons row rows =>
    rw [List.flatMap_cons] at hi
    rcases row.instructions_cases with ⟨hnone, heq⟩ | ⟨label, -, heq⟩ <;> rw [heq] at hi
    · cases hi
      exact hnone
    · cases hi
      rfl

theorem marks_instruction {label : String} (h : row.place.label = some label) :
    Marks (.ofOpcode .label (some (.symbol label)) row.place.offset) row.instruction :=
  ⟨decide_eq_true rfl, rfl, label, h, rfl⟩

theorem marked (row : Row lines) : Marked row.instructions := by
  intro n i hi hlabel
  rcases row.instructions_cases with ⟨hnone, heq⟩ | ⟨label, hsome, heq⟩ <;> rw [heq] at hi ⊢
  · obtain rfl := List.mem_singleton.1 (List.mem_of_getElem? hi)
    simp [instruction, hnone] at hlabel
  · match n with
    | 0 =>
      cases hi
      cases hlabel
    | 1 =>
      cases hi
      exact ⟨0, _, rfl, rfl, marks_instruction hsome⟩
    | n + 2 => cases hi

/-- The label of a row marks its instruction, which is the only other label there can be. -/
theorem carried (hkind : row.kind ≠ .fixed .label) : Carried row.instructions := by
  have hplain : row.instruction.isOp .label = false := decide_eq_false hkind
  intro n m hm hlabel
  rcases row.instructions_cases with ⟨hnone, heq⟩ | ⟨label, hsome, heq⟩ <;> rw [heq] at hm ⊢
  · obtain rfl := List.mem_singleton.1 (List.mem_of_getElem? hm)
    rw [hplain] at hlabel
    cases hlabel
  · match n with
    | 0 =>
      cases hm
      exact ⟨_, rfl, marks_instruction hsome⟩
    | 1 =>
      cases hm
      rw [hplain] at hlabel
      cases hlabel
    | n + 2 => cases hm

theorem marked_flatMap (rows : List (Row lines)) : Marked (rows.flatMap instructions) := by
  induction rows with
  | nil => exact fun n i hi => by cases hi
  | cons row rows ih => exact row.marked.append ih

theorem carried_flatMap (h : ∀ row ∈ rows, row.kind ≠ .fixed .label) :
    Carried (rows.flatMap instructions) := by
  induction rows with
  | nil => exact fun n i hi => by cases hi
  | cons row rows ih =>
    rw [List.forall_mem_cons] at h
    exact (carried h.1).append (ih h.2)

/-- Behind a label on a line of its own stands a row, and no row starts with what it could mark. -/
theorem not_carried (hrow : row ∈ rows) (hkind : row.kind = .fixed .label) :
    ¬Carried (rows.flatMap instructions) := by
  intro hcarried
  obtain ⟨front, back, rfl⟩ := List.append_of_mem hrow
  have hsplit : (front ++ row :: back).flatMap instructions =
      front.flatMap instructions ++ row.place.marker ++
        (row.instruction :: back.flatMap instructions) := by
    simp [instructions]
  have hlabel : row.instruction.isOp .label = true := decide_eq_true hkind
  rw [hsplit] at hcarried
  obtain ⟨i, hi, -, -, label, hsome, -⟩ := hcarried _ row.instruction
    (List.getElem?_append_right (Nat.le_refl _) |>.trans (by simp)) hlabel
  rw [List.getElem?_append_right (Nat.le_add_right _ _), Nat.add_sub_cancel_left,
    List.getElem?_cons_succ, ← List.head?_eq_getElem?] at hi
  rw [label_of_head hi] at hsome
  cases hsome

theorem isOp_eq_false (hkind : row.kind.opClass ≠ .pseudo) {op : Opcode}
    (hop : op ∈ Opcode.synthetic) (hi : i ∈ row.instructions) : i.isOp op = false := by
  rcases List.mem_append.1 hi with hmarker | hself
  · rw [Place.marker] at hmarker
    split at hmarker
    · obtain rfl := List.mem_singleton.1 hmarker
      exact decide_eq_false (by rintro ⟨⟩; revert hop; decide)
    · cases hmarker
  · obtain rfl := List.mem_singleton.1 hself
    refine decide_eq_false fun (hfixed : row.kind = .fixed op) => hkind ?_
    rw [hfixed]
    exact Opcode.opClass_eq_pseudo.2 (.inr hop)

/-- The instructions of rows are as they stand in a listing if no row is a label or an operation
that only later stages make. -/
theorem genuine_iff : Genuine (rows.flatMap instructions) ↔
    ∀ row ∈ rows, row.kind.opClass ≠ .pseudo := by
  constructor
  · intro h row hrow hpseudo
    cases hkind : row.kind with
    | counted family count => simp [hkind, OpKind.opClass] at hpseudo
    | fixed op =>
      rw [hkind] at hpseudo
      rcases Opcode.opClass_eq_pseudo.1 hpseudo with rfl | hop
      · exact not_carried hrow hkind h.carried
      · have hmem : row.instruction ∈ rows.flatMap instructions :=
          List.mem_flatMap.2 ⟨row, hrow, by simp [instructions]⟩
        have hplain := h.plain _ hmem op hop
        rw [Instruction.isOp, instruction, hkind] at hplain
        simp at hplain
  · intro h
    refine ⟨carried_flatMap fun row hrow hkind => ?_, marked_flatMap rows, fun i hi op hop => ?_⟩
    · exact h row hrow (by rw [hkind]; rfl)
    · obtain ⟨row, hrow, hi⟩ := List.mem_flatMap.1 hi
      exact isOp_eq_false (h row hrow) hop hi

end Row

/-! ### The mnemonic of a row -/

theorem entry_of_read {line : List Char} {n : Nat} {e : Entry} (h : Entry.read line n = .ok e) :
    ∃ place mnemonic rest, (fields line).2 = mnemonic :: rest ∧
      entry line n place mnemonic rest = .ok e := by
  rw [Entry.read] at h
  split at h
  · cases h
  next placeText mnemonic rest hfields =>
    split at h
    · cases h
    next place hplace => exact ⟨place, mnemonic, rest, by rw [hfields], h⟩

/-- An operation whose operands are not counted has the mnemonic that is read. -/
theorem kind_of_entry {line mnemonic : List Char} {n : Nat} {place place' : Place}
    {rest : List (List Char)} {kind : OpKind} {operand : Option Operand}
    (h : entry line n place mnemonic rest = .ok (.instruction place' kind operand)) :
    (∃ family count, kind = .counted family count) ∨
      ∃ op : Opcode, kind = .fixed op ∧ op.mnemonic.toList = mnemonic := by
  rw [entry] at h
  split at h
  next hconstant =>
    dsimp only at h
    split at h
    · cases h
    · cases h
      exact .inr ⟨.constant, rfl, hconstant.symm⟩
  split at h
  · split at h
    · cases h
      exact .inl ⟨_, _, rfl⟩
    · cases h
  · cases h
    exact .inl ⟨_, _, rfl⟩
  · split at h
    · cases h
    next op hop =>
      cases h
      exact .inr ⟨op, rfl, by rw [Opcode.mnemonic_of_ofMnemonic? hop, String.toList_ofList]⟩

/-- Whether an operation is a label or one that only later stages make shows in its mnemonic. -/
theorem Row.namesPseudo_iff (row : Row lines) :
    NamesPseudo row.line ↔ row.kind.opClass = .pseudo := by
  obtain ⟨line, place, kind, operand, -, hreads⟩ := row
  constructor
  · rintro ⟨op, hpseudo, hhead⟩
    have hne : op ≠ .constant := by
      rintro rfl
      cases hpseudo
    cases hreads with
    | instruction h =>
      obtain ⟨place', mnemonic, rest, hfields, h⟩ := entry_of_read h
      rw [hfields] at hhead
      obtain rfl : mnemonic = op.mnemonic.toList := Option.some.inj hhead
      rw [entry_mnemonic hne] at h
      cases h
      exact hpseudo
    | routine h r =>
      obtain ⟨place', mnemonic, rest, hfields, h⟩ := entry_of_read h
      rw [hfields] at hhead
      obtain rfl : mnemonic = op.mnemonic.toList := Option.some.inj hhead
      rw [entry_mnemonic hne] at h
      cases h
  · intro hpseudo
    cases hreads with
    | instruction h =>
      obtain ⟨place', mnemonic, rest, hfields, h⟩ := entry_of_read h
      rcases kind_of_entry h with ⟨family, count, rfl⟩ | ⟨op, rfl, hop⟩
      · cases hpseudo
      · exact ⟨op, hpseudo, by rw [hfields, hop, List.head?_cons]⟩
    | routine h r => cases hpseudo

/-! ### Rows of open routines -/

/-- Instructions that are rows on some lines. -/
def LaidOut (lines : List (List Char)) (is : List Instruction) : Prop :=
  ∃ rows : List (Row lines), is = rows.flatMap Row.instructions

/-- An open routine is rows, behind which `pending` stands. The routines in its constants are rows,
and so is it in the one around it when it ends. -/
structure Frame.LaidOut (lines : List (List Char)) (pending : List Instruction) (f : Frame) :
    Prop where
  rows : ∃ rows : List (Row lines),
    f.routine.instructions = rows.flatMap Row.instructions ++ pending
  nested : ∀ q ∈ nestedIn f.routine.instructions, Listing.LaidOut lines q.instructions
  place : ∀ p, f.place = some p → ∃ line ∈ lines, ∃ n, Entry.read line n = .ok (.routine p)

/-- Behind the rows of an open routine stands the label of the constant that is open in it. -/
def FramesLaidOut (lines : List (List Char)) : (pending : List Instruction) → List Frame → Prop
  | _, [] => True
  | pending, f :: rest =>
    f.LaidOut lines pending ∧ FramesLaidOut lines (f.place.elim [] Place.marker) rest

variable {pending : List Instruction} {f g : Frame} {line : List Char} {n : Nat} {place : Place}

theorem Frame.LaidOut.reheaded (hf : f.LaidOut lines []) (h : f.Reheaded line g) :
    g.LaidOut lines [] :=
  ⟨by rw [h.instructions]; exact hf.rows, by rw [h.instructions]; exact hf.nested,
    by rw [h.place]; exact hf.place⟩

theorem Frame.LaidOut.push_marker (hf : f.LaidOut lines []) (place : Place) :
    (f.push place.marker).LaidOut lines place.marker := by
  obtain ⟨⟨rows, hrows⟩, hnested, hplace⟩ := hf
  refine ⟨⟨rows, ?_⟩, ?_, hplace⟩
  · rw [Frame.push, hrows, List.append_nil]
  · simpa [Frame.push, nestedIn_append, nestedIn_marker] using hnested

/-- The instruction of a row ends the row, behind the label of the row. -/
theorem Frame.LaidOut.push_row (row : Row lines) (hf : f.LaidOut lines row.place.marker)
    (hnested : ∀ q ∈ row.instruction.nested, Listing.LaidOut lines q.instructions) :
    (f.push [row.instruction]).LaidOut lines [] := by
  obtain ⟨⟨rows, hrows⟩, hinner, hplace⟩ := hf
  refine ⟨⟨rows ++ [row], ?_⟩, ?_, hplace⟩
  · simp [Frame.push, hrows, Row.instructions]
  · rw [Frame.push, nestedIn_append, List.forall_mem_append]
    exact ⟨hinner, by simpa [nestedIn] using hnested⟩

theorem Frame.LaidOut.withNested (hf : f.LaidOut lines []) :
    ∀ q ∈ f.routine.withNested, Listing.LaidOut lines q.instructions := by
  obtain ⟨rows, hrows⟩ := hf.rows
  rw [Routine.withNested_eq, List.forall_mem_cons]
  exact ⟨⟨rows, by rw [hrows, List.append_nil]⟩, hf.nested⟩

theorem Frame.laidOut_start (name : String) (kind : RoutineKind) {place : Option Place}
    (h : ∀ p, place = some p → ∃ line ∈ lines, ∃ n, Entry.read line n = .ok (.routine p)) :
    (Frame.start name kind place).LaidOut lines [] :=
  ⟨⟨[], rfl⟩, by simp [Frame.start, nestedIn], h⟩

namespace State

variable {s : State}

theorem framesLaidOut_update {change : Frame → Frame} (hs : FramesLaidOut lines [] s.frames)
    (hplace : ∀ f, s.frames.head? = some f → (change f).place = f.place)
    (h : ∀ f, s.frames.head? = some f → f.LaidOut lines [] → (change f).LaidOut lines pending) :
    FramesLaidOut lines pending (s.update change).frames := by
  rw [frames_update]
  cases hframes : s.frames with
  | nil => trivial
  | cons top rest =>
    rw [hframes] at hs
    have htop := hplace top (by simp [hframes])
    exact ⟨h top (by simp [hframes]) hs.1, by rw [htop]; exact hs.2⟩

/-- All routines so far are rows, and those in their constants too. -/
structure LaidOut (lines : List (List Char)) (s : State) : Prop where
  finished : ∀ r ∈ s.finished, ∀ q ∈ r.withNested, Listing.LaidOut lines q.instructions
  opened : FramesLaidOut lines [] s.frames

theorem finished_update (change : Frame → Frame) : (s.update change).finished = s.finished := by
  rw [update]
  split <;> rfl

theorem LaidOut.update {change : Frame → Frame} (hs : s.LaidOut lines)
    (hplace : ∀ f, s.frames.head? = some f → (change f).place = f.place)
    (h : ∀ f, s.frames.head? = some f → f.LaidOut lines [] → (change f).LaidOut lines []) :
    (s.update change).LaidOut lines :=
  ⟨by rw [finished_update]; exact hs.finished, framesLaidOut_update hs.opened hplace h⟩

/-- A routine of a constant ends the row that its label opened in the routine around it. -/
theorem LaidOut.close (hs : s.LaidOut lines) : s.close.LaidOut lines := by
  have hopened := hs.opened
  cases hframes : s.frames with
  | nil => rwa [close_of_outside hframes]
  | cons top rest =>
    rw [hframes] at hopened
    obtain ⟨htop, hrest⟩ := hopened
    have hfinished : ∀ r ∈ s.finished ++ [top.routine], ∀ q ∈ r.withNested,
        Listing.LaidOut lines q.instructions := by
      rw [List.forall_mem_append, List.forall_mem_singleton]
      exact ⟨hs.finished, htop.withNested⟩
    cases rest with
    | nil =>
      rw [close_of_outer hframes]
      exact ⟨hfinished, trivial⟩
    | cons around rest =>
      cases hplace : top.place with
      | none =>
        rw [hplace] at hrest
        have hclose : s.close = { s with
            finished := s.finished ++ [top.routine], frames := around :: rest } := by
          simp only [State.close, hframes, hplace]
        rw [hclose]
        exact ⟨hfinished, hrest⟩
      | some place =>
        -- Behind its rows, the routine around it has the label of the constant.
        obtain ⟨line, hline, n, hread⟩ := htop.place place hplace
        let row : Row lines := ⟨line, place, _, _, hline, .routine hread top.routine⟩
        rw [hplace] at hrest
        rw [close_of_inner hframes hplace]
        exact ⟨hs.finished, hrest.1.push_row row htop.withNested, hrest.2⟩

theorem kept_laidOut (hline : line ∈ lines) : Kept line (LaidOut lines) where
  heading hchange hs := hs.update (fun f hf => (hchange f hf).place) fun f hf hlaid =>
    hlaid.reheaded (hchange f hf)
  instruction {_ _ place kind operand} hread hs := hs.update (fun _ _ => rfl) fun f _ hlaid => by
    have hrow := (hlaid.push_marker place).push_row
      ⟨line, place, kind, operand, hline, .instruction hread⟩
      (by simp [Row.instruction, nested_of_read hread])
    simpa [Frame.push, Row.instruction] using hrow
  constant {s _ place} hread _ hs :=
    ⟨by rw [openConstant, finished_update]; exact hs.finished,
      Frame.laidOut_start _ _ fun p hp => ⟨line, hline, _, Option.some.inj hp ▸ hread⟩,
      framesLaidOut_update hs.opened (fun _ _ => rfl) fun f _ hlaid => hlaid.push_marker place⟩
  named _ hnone hs :=
    ⟨hs.finished, Frame.laidOut_start _ _ (by simp), by rw [hnone]; trivial⟩
  file hnone hs :=
    ⟨hs.finished, Frame.laidOut_start _ _ (by simp), by rw [hnone]; trivial⟩
  close hs := hs.close

theorem LaidOut.start : start.LaidOut lines := ⟨by simp [State.start], trivial⟩

end State

section

variable {listing : String} {rs : List Routine}

theorem laidOut_of_routines (h : routines listing = .ok rs) :
    ∀ r ∈ rs, LaidOut (Text.lines listing.toList) r.instructions := by
  obtain ⟨outer, hread, rfl⟩ := exists_read h
  obtain ⟨s, hs, -, rfl⟩ := exists_of_lines (fun line hline => State.kept_laidOut hline)
    State.LaidOut.close (fun s hs => ⟨hs.finished, hs.opened⟩) State.LaidOut.start hread
  intro r hr
  obtain ⟨o, ho, hr⟩ := List.mem_flatMap.1 hr
  exact hs.finished o ho r hr

/-- The instructions of a routine are rows of the listing, so every instruction with a label stands
behind it. They are as listings have them unless a row has the mnemonic of a label or of an
operation that only later stages make. -/
theorem genuine_of_routines (h : routines listing = .ok rs) : ∀ r ∈ rs,
    ∃ rows : List (Row (Text.lines listing.toList)),
      r.instructions = rows.flatMap Row.instructions ∧ Marked r.instructions ∧
        (Genuine r.instructions ↔ ∀ row ∈ rows, ¬NamesPseudo row.line) := by
  intro r hr
  obtain ⟨rows, hrows⟩ := laidOut_of_routines h r hr
  refine ⟨rows, hrows, ?_, ?_⟩
  · rw [hrows]
    exact Row.marked_flatMap rows
  · simp only [hrows, Row.genuine_iff, Row.namesPseudo_iff]

/-- A loop that starts at a labelled constant, which is a routine. -/
def labelledFunction : String :=
  "byte code for f:\n  args: nil\n0:1 constant <compiled-function>\n  args: nil\n" ++
  "0 constant nil\n1 return\n\n1 discard\n2 goto 1\n"

theorem genuine_of_routines_labelledFunction : ∃ rs, routines labelledFunction = .ok rs ∧
    rs.length = 2 ∧ ∀ r ∈ rs, Genuine r.instructions := by
  have hread : (routines labelledFunction).toOption.any (fun rs => rs.length = 2) = true := by
    decide +kernel
  have hlines : ∀ line ∈ Text.lines labelledFunction.toList, ∀ op ∈ Opcode.all,
      op.opClass = .pseudo → (fields line).2.head? ≠ some op.mnemonic.toList := by
    decide +kernel
  obtain ⟨rs, hrs, hlength⟩ := exists_ok_of_any hread
  refine ⟨rs, hrs, of_decide_eq_true hlength, fun r hr => ?_⟩
  obtain ⟨rows, -, -, hgenuine⟩ := genuine_of_routines hrs r hr
  exact hgenuine.2 fun row _ ⟨op, hpseudo, hhead⟩ =>
    hlines row.line row.mem op op.mem_all hpseudo hhead

/-- An operation that is made of two others by later stages can be read, and so can a label that
stands on a line of its own and marks nothing. -/
theorem not_genuine_of_pseudo :
    (∃ rs r, routines "0 varref x\n1 caar\n2 return\n" = .ok rs ∧ r ∈ rs ∧
      ∃ i ∈ r.instructions, ∃ op ∈ Opcode.synthetic, i.isOp op = true) ∧
    ∃ rs r, routines "0 label 1\n0 varref x\n1 return\n" = .ok rs ∧ r ∈ rs ∧
      ¬Carried r.instructions := by
  have hcaar : (routines "0 varref x\n1 caar\n2 return\n").toOption.any (fun rs => rs.any fun r =>
      r.instructions.any (·.isOp .caar)) = true := by
    decide +kernel
  have hlabel : (routines "0 label 1\n0 varref x\n1 return\n").toOption.any (fun rs =>
      rs.any fun r => (r.instructions[0]?.any (·.isOp .label)) &&
        r.instructions[1]?.any (·.label.isNone)) = true := by
    decide +kernel
  constructor
  · obtain ⟨rs, hrs, hcaar⟩ := exists_ok_of_any hcaar
    obtain ⟨r, hr, hcaar⟩ := List.any_eq_true.1 hcaar
    obtain ⟨i, hi, hcaar⟩ := List.any_eq_true.1 hcaar
    exact ⟨rs, r, hrs, hr, i, hi, .caar, by decide, hcaar⟩
  · obtain ⟨rs, hrs, hlabel⟩ := exists_ok_of_any hlabel
    obtain ⟨r, hr, hlabel⟩ := List.any_eq_true.1 hlabel
    obtain ⟨hlabel, hnext⟩ := Bool.and_eq_true_iff.1 hlabel
    obtain ⟨m, hm, hlabel⟩ := (Option.any_eq_true _ _).1 hlabel
    obtain ⟨i, hi, hnone⟩ := (Option.any_eq_true _ _).1 hnext
    refine ⟨rs, r, hrs, hr, fun hcarried => ?_⟩
    obtain ⟨j, hj, -, -, label, hsome, -⟩ := hcarried 0 m hm hlabel
    obtain rfl : i = j := Option.some.inj (hi.symm.trans hj)
    simp [hsome] at hnone

end

end Listing

end ElispLift
