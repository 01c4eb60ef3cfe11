import ElispLift.Proofs.Listing.Printing

/-!
# Reading what was printed

The lines of a routine lead the reader from the start of that routine to its end, whatever is open
around it, and those of its instructions add the instructions. So a printed listing is read as the
routines that were printed, with markers for their labels and numbers for what has no name.
-/

namespace ElispLift

/-- Induction over instructions and over those of the routines in their constants. -/
@[elab_as_elim]
theorem instructions_induction {motive : List Instruction → Prop} (nil : motive [])
    (plain : ∀ i is, (∀ q, i.operand ≠ some (.routine q)) → motive is → motive (i :: is))
    (routine : ∀ i q is, i.operand = some (.routine q) → motive q.instructions → motive is →
      motive (i :: is)) : ∀ is, motive is
  | [] => nil
  | ⟨_, none, _, _⟩ :: is =>
    plain _ is (fun _ => by simp) (instructions_induction nil plain routine is)
  | ⟨_, some (.int _), _, _⟩ :: is =>
    plain _ is (fun _ => by simp) (instructions_induction nil plain routine is)
  | ⟨_, some (.str _), _, _⟩ :: is =>
    plain _ is (fun _ => by simp) (instructions_induction nil plain routine is)
  | ⟨_, some (.symbol _), _, _⟩ :: is =>
    plain _ is (fun _ => by simp) (instructions_induction nil plain routine is)
  | ⟨_, some (.routine ⟨_, _, _, _, _, instructions⟩), _, _⟩ :: is =>
    routine _ _ is rfl (instructions_induction nil plain routine instructions)
      (instructions_induction nil plain routine is)

namespace Listing

open Text

/-! ### Runs -/

/-- Some lines lead from one state to another. The states are the same at whatever number the lines
stand, apart from that. -/
def Runs (ls : List (List Char)) (s t : Nat → State) : Prop :=
  ∀ n, ∃ m, readLines ls (s n) = .ok (t m)

namespace Runs

variable {l : List Char} {ls ms : List (List Char)} {s t u : Nat → State}

theorem nil : Runs [] s s := fun n => ⟨n, rfl⟩

theorem cons (hl : ∀ n, (s n).readLine l = .ok (t (n + 1))) (h : Runs ls t u) :
    Runs (l :: ls) s u := by
  intro n
  obtain ⟨m, hm⟩ := h (n + 1)
  exact ⟨m, by rw [readLines, hl]; exact hm⟩

theorem append (h : Runs ls s t) (h' : Runs ms t u) : Runs (ls ++ ms) s u := by
  intro n
  obtain ⟨m, hm⟩ := h n
  obtain ⟨k, hk⟩ := h' m
  exact ⟨k, by rw [readLines_append, hm]; exact hk⟩

end Runs

/-! ### Lines of one routine -/

variable {style : Style} {done : List Routine} {frames : List Frame} {a c n : Nat}
  {p : Option Place} {r : Routine} {i : Instruction} {name : String} {line : List Char}
  {ls : List (List Char)} {t : Nat → State}

theorem readLine_docLine {text : List Char} (h : doc? line = some (.line text)) :
    (State.mk done (⟨r, .docstring, p⟩ :: frames) a c n).readLine line =
      .ok (.mk done (⟨{ r with docstring := some (String.ofList text) }, .args, p⟩ :: frames) a c
        (n + 1)) := by
  simp only [State.readLine, State.readDocstring, h, State.setDoc, State.update]

theorem readLine_argsLine {phase : Phase} {args : String}
    (hphase : phase = .docstring ∨ phase = .args) (hdoc : doc? line = none)
    (h : args? line = some args) :
    (State.mk done (⟨r, phase, p⟩ :: frames) a c n).readLine line =
      .ok (.mk done (⟨{ r with args }, .interactive, p⟩ :: frames) a c (n + 1)) := by
  rcases hphase with rfl | rfl <;>
    simp only [State.readLine, State.readDocstring, hdoc, State.enter, State.readArgs, h,
      State.setArgs, State.update]

theorem readLine_interactiveLine {spec : String} (h : interactive? line = some spec) :
    (State.mk done (⟨r, .interactive, p⟩ :: frames) a c n).readLine line =
      .ok (.mk done (⟨{ r with interactive := some spec }, .body, p⟩ :: frames) a c (n + 1)) := by
  simp only [State.readLine, State.readInteractive, h, State.setInteractive, State.update]

/-- Without an interactive specification the body begins. -/
theorem readLine_interactive (h : interactive? line = none) :
    (State.mk done (⟨r, .interactive, p⟩ :: frames) a c n).readLine line =
      (State.mk done (⟨r, .body, p⟩ :: frames) a c n).readLine line := by
  simp only [State.readLine, State.readInteractive, h, State.enter, State.update]

/-- The heading sets the fields of the routine. -/
theorem Runs.heading (hr : r.Fits) (hline : interactive? line = none)
    (h : Runs (line :: ls)
      (.mk done (⟨{ r with name, instructions := [] }, .body, p⟩ :: frames) a c) t) :
    Runs (r.heading style ++ line :: ls) (.mk done (.start name r.kind p :: frames) a c) t := by
  have hargs := args?_line style hr
  have hdocs := hr.docstring
  have hspecs := hr.interactive
  obtain ⟨_, args, docstring, interactive, kind, instructions⟩ := r
  have htail : Runs ((interactive.map fun spec => "  interactive: ".toList ++ spec.toList).toList ++
      line :: ls) (.mk done (⟨⟨name, args, docstring, none, kind, []⟩, .interactive, p⟩ :: frames)
        a c) t := by
    cases interactive with
    | none =>
      intro n
      obtain ⟨m, hm⟩ := h n
      refine ⟨m, ?_⟩
      rw [Option.map_none, Option.toList_none, List.nil_append, readLines,
        readLine_interactive hline]
      exact hm
    | some spec =>
      have hspec := interactive?_line (hspecs spec rfl)
      rw [String.ofList_toList] at hspec
      exact .cons (fun n => readLine_interactiveLine hspec) h
  rw [Routine.heading]
  cases docstring with
  | none => exact .cons (fun n => readLine_argsLine (.inl rfl) (doc?_argsLine _) hargs) htail
  | some doc =>
    have hdoc := doc?_line (hdocs doc rfl)
    refine .cons (fun n => readLine_docLine hdoc) ?_
    rw [String.ofList_toList]
    exact .cons (fun n => readLine_argsLine (.inr rfl) (doc?_argsLine _) hargs) htail

/-- A line of a body that starts with its place is an instruction. -/
theorem readLine_entry {f : Frame} (hf : f.phase = .body) (i : Instruction) (body : List Char) :
    (State.mk done (f :: frames) a c n).readLine (i.placeText ++ ' ' :: body) =
      (State.mk done (f :: frames) a c (n + 1)).readEntry (i.placeText ++ ' ' :: body) := by
  obtain ⟨-, hends, hcomment, hempty⟩ := placeText_line i body
  simp [State.readLine, hf, State.readBody, hends, hcomment, hempty]

/-- An empty line ends the innermost routine. -/
theorem readLine_nil :
    (State.mk done (⟨r, .body, p⟩ :: frames) a c n).readLine [] =
      .ok (State.mk done (⟨r, .body, p⟩ :: frames) a c (n + 1)).close := by
  rfl

/-- The first line behind a heading belongs to no heading. -/
theorem exists_cons_of_linesIn (style : Style) {is : List Instruction} (h : ∀ i ∈ is, i.Fits) :
    ∃ line ls, linesIn style is ++ [[]] = line :: ls ∧ interactive? line = none := by
  cases is with
  | nil => exact ⟨[], [], by rw [linesIn, List.nil_append], by decide⟩
  | cons i is =>
    obtain ⟨body, ls, hlines⟩ : ∃ body ls, i.lines style = (i.placeText ++ ' ' :: body) :: ls := by
      have hi := h i List.mem_cons_self
      by_cases hroutine : ∃ q, i.operand = some (.routine q)
      · obtain ⟨q, hq⟩ := hroutine
        obtain ⟨body, hlines, -⟩ := read_routineLine style hi hq
        exact ⟨body, _, hlines⟩
      · obtain ⟨body, hlines, -⟩ := read_line style hi (not_exists.1 hroutine)
        exact ⟨body, [], hlines⟩
    refine ⟨i.placeText ++ ' ' :: body, ls ++ linesIn style is ++ [[]], ?_,
      (placeText_line i body).1⟩
    rw [linesIn, hlines, List.cons_append, List.cons_append]

/-- The lines of a routine lead to its end if those of its instructions add some to it. -/
theorem Runs.lines (hr : r.Fits) {is : List Instruction} {c' : Nat}
    (h : Runs (linesIn style r.instructions)
      (.mk done (⟨{ r with name, instructions := [] }, .body, p⟩ :: frames) a c)
      (.mk done (⟨{ r with name, instructions := is }, .body, p⟩ :: frames) a c')) :
    Runs (r.lines style) (.mk done (.start name r.kind p :: frames) a c) fun n =>
      (State.mk done (⟨{ r with name, instructions := is }, .body, p⟩ :: frames) a c' n).close := by
  obtain ⟨line, ls, hls, hline⟩ := exists_cons_of_linesIn style hr.instructions
  have hend : Runs [[]]
      (.mk done (⟨{ r with name, instructions := is }, .body, p⟩ :: frames) a c') fun n =>
        (State.mk done (⟨{ r with name, instructions := is }, .body, p⟩ :: frames) a c' n).close :=
    .cons (fun n => readLine_nil) .nil
  have hbody := h.append hend
  rw [hls] at hbody
  rw [Routine.lines_eq, List.append_assoc, hls]
  exact hbody.heading hr hline

/-! ### Instructions of one routine -/

variable {f : Frame}

theorem Frame.push_nil (f : Frame) : f.push [] = f := by
  obtain ⟨⟨name, args, docstring, interactive, kind, instructions⟩, phase, place⟩ := f
  simp [push]

theorem Frame.push_push (f : Frame) (is js : List Instruction) :
    (f.push is).push js = f.push (is ++ js) := by
  simp [push]

theorem nested_of_plain (h : ∀ q, i.operand ≠ some (.routine q)) : i.nested = [] := by
  obtain ⟨kind, operand, offset, label⟩ := i
  cases operand with
  | none => rw [Instruction.nested]
  | some v =>
    cases v with
    | routine q => exact absurd rfl (h q)
    | _ => rw [Instruction.nested, Operand.nested]; simp

theorem readBack_of_plain (h : ∀ q, i.operand ≠ some (.routine q)) : i.readBack c = i := by
  obtain ⟨kind, operand, offset, label⟩ := i
  cases operand with
  | none => rw [Instruction.readBack]
  | some v =>
    cases v with
    | routine q => exact absurd rfl (h q)
    | _ => rw [Instruction.readBack, Operand.readBack]

theorem nested_of_routine {q : Routine} (h : i.operand = some (.routine q)) :
    i.nested = q :: nestedIn q.instructions := by
  obtain ⟨kind, operand, offset, label⟩ := i
  obtain rfl : operand = some (.routine q) := h
  rw [Instruction.nested, Operand.nested, Routine.withNested_eq]

theorem readBack_of_routine {q : Routine} (h : i.operand = some (.routine q)) :
    i.readBack c =
      ⟨i.kind, some (.routine { q with
        name := "compiled-function-" ++ toString c
        instructions := readBackIn (c + 1) q.instructions }), i.offset, i.label⟩ := by
  obtain ⟨kind, operand, offset, label⟩ := i
  obtain rfl : operand = some (.routine q) := h
  cases q
  rw [Instruction.readBack, Operand.readBack, Routine.constantReadBack]

/-- An instruction without a routine is read from its line, behind the marker of its label. -/
theorem runs_plain (style : Style) (done : List Routine) (frames : List Frame) (a c : Nat)
    (hi : i.Fits) (hplain : ∀ q, i.operand ≠ some (.routine q)) (hf : f.phase = .body) :
    Runs (i.lines style) (.mk done (f :: frames) a c)
      (.mk done (f.push ((Place.mk i.offset i.label).marker ++ [i.readBack c]) :: frames) a c) := by
  obtain ⟨body, hlines, -, hread⟩ := read_line style hi hplain
  rw [hlines]
  refine .cons (fun n => ?_) .nil
  rw [readLine_entry hf, State.readEntry_eq, hread, readBack_of_plain hplain]
  cases i
  rfl

/-- A constant that is a routine is read from its lines, if the instructions of the routine are. -/
theorem runs_routine {q : Routine} {c' : Nat} (frames : List Frame) (hi : i.Fits) (hq : q.Fits)
    (hoperand : i.operand = some (.routine q)) (hf : f.phase = .body)
    (h : ∀ (g : Frame) (frames : List Frame), g.phase = .body →
      Runs (linesIn style q.instructions) (.mk done (g :: frames) a (c + 1))
        (.mk done (g.push (readBackIn (c + 1) q.instructions) :: frames) a c')) :
    Runs (i.lines style) (.mk done (f :: frames) a c)
      (.mk done (f.push ((Place.mk i.offset i.label).marker ++ [i.readBack c]) :: frames) a
        c') := by
  obtain ⟨body, hlines, -, hkind, hfunction, hread⟩ := read_routineLine style hi hoperand
  rw [hlines, readBack_of_routine hoperand, hkind, ← Frame.push_push]
  -- The line of the constant opens the routine, and the last line of that makes it an operand.
  have hbody := Runs.lines hq (h
    ⟨{ q with name := "compiled-function-" ++ toString c, instructions := [] }, .body,
      some ⟨i.offset, i.label⟩⟩ (f.push (Place.mk i.offset i.label).marker :: frames) rfl)
  refine .cons (fun n => ?_) hbody
  rw [readLine_entry hf, State.readEntry_eq, hread, hfunction]
  rfl

/-- The lines of instructions add them to the innermost routine. -/
theorem runs_linesIn (style : Style) (done : List Routine) (a : Nat) (is : List Instruction)
    (hfits : ∀ i ∈ is, i.Fits) (hnested : ∀ q ∈ nestedIn is, q.Fits) (c : Nat) (f : Frame)
    (frames : List Frame) (hf : f.phase = .body) :
    Runs (linesIn style is) (.mk done (f :: frames) a c)
      (.mk done (f.push (readBackIn c is) :: frames) a (c + (nestedIn is).length)) := by
  induction is using instructions_induction generalizing c f frames with
  | nil =>
    rw [readBackIn, Frame.push_nil]
    exact .nil
  | plain i is hplain ih =>
    rw [List.forall_mem_cons] at hfits
    rw [nestedIn, nested_of_plain hplain, List.nil_append] at hnested ⊢
    have hfirst := runs_plain style done frames a c hfits.1 hplain hf
    have hrest := ih hfits.2 hnested c (f.push ((Place.mk i.offset i.label).marker ++
      [i.readBack c])) frames hf
    rw [Frame.push_push, List.append_assoc, List.singleton_append] at hrest
    rw [linesIn, readBackIn, nested_of_plain hplain]
    exact hfirst.append hrest
  | routine i q is hoperand ihroutine ih =>
    rw [List.forall_mem_cons] at hfits
    rw [nestedIn, nested_of_routine hoperand, List.cons_append, List.forall_mem_cons,
      List.forall_mem_append] at hnested
    have hnext : c + 1 + (nestedIn q.instructions).length = c + i.nested.length := by
      rw [nested_of_routine hoperand, List.length_cons]
      omega
    have hfirst := runs_routine frames hfits.1 hnested.1 hoperand hf
      (ihroutine hnested.1.instructions hnested.2.1 (c + 1))
    have hrest := ih hfits.2 hnested.2.2 (c + i.nested.length)
      (f.push ((Place.mk i.offset i.label).marker ++ [i.readBack c])) frames hf
    rw [Frame.push_push, List.append_assoc, List.singleton_append] at hrest
    rw [hnext] at hfirst
    rw [linesIn, readBackIn, nestedIn, List.length_append, ← Nat.add_assoc]
    exact hfirst.append hrest

/-! ### Routines of a listing -/

/-- A header opens a routine when no other is open. -/
theorem readLine_header (hr : r.Printable) :
    (State.mk done [] a c n).readLine r.headerLine =
      .ok (.mk done [.start (r.readBack a c).name r.kind none] (a + fileCount [r]) c (n + 1)) := by
  have hnotEmpty : isEmpty r.headerLine = false ∧ isComment r.headerLine = false := by
    rw [isEmpty, isComment, trim_headerLine]
    cases hkind : r.kind <;> simp [Routine.headerLine, hkind, startsWith, after?]
  rw [State.readLine_outside rfl, State.readOutside, hnotEmpty.1, hnotEmpty.2]
  by_cases hkind : r.kind = .file
  · rw [header?_file hkind]
    simp [State.openFile, Routine.readBack, fileCount, hkind]
  · rw [header?_named hr hkind]
    simp [State.openNamed, Routine.readBack, fileCount, hkind]

/-- The lines of a routine of a listing add it to the routines before it. -/
theorem runs_routineLines (style : Style) (hr : r.Printable) (done : List Routine) (a c : Nat) :
    Runs (r.headerLine :: r.lines style) (.mk done [] a c)
      (.mk (done ++ [r.readBack a c]) [] (a + fileCount [r]) (c + constantCount [r])) := by
  have hcount : constantCount [r] = (nestedIn r.instructions).length := by
    rw [constantCount_cons, constantCount_nil, Nat.add_zero]
  rw [hcount]
  have hbody := runs_linesIn style done (a + fileCount [r]) r.instructions
    hr.fits_self.instructions hr.fits_nested c
    ⟨{ r with name := (r.readBack a c).name, instructions := [] }, .body, none⟩ [] rfl
  exact .cons (fun n => readLine_header hr) (Runs.lines hr.fits_self hbody)

theorem runs_printed (style : Style) {rs : List Routine} (h : ∀ r ∈ rs, r.Printable)
    (done : List Routine) (a c : Nat) :
    Runs (rs.flatMap fun r => r.headerLine :: r.lines style) (.mk done [] a c)
      (.mk (done ++ readBack a c rs) [] (a + fileCount rs) (c + constantCount rs)) := by
  induction rs generalizing done a c with
  | nil => simpa [readBack, fileCount] using Runs.nil
  | cons r rs ih =>
    rw [List.forall_mem_cons] at h
    have hrest := ih h.2 (done ++ [r.readBack a c]) (a + fileCount [r]) (c + constantCount [r])
    rw [List.append_assoc, List.singleton_append, Nat.add_assoc, ← fileCount_append, Nat.add_assoc,
      ← constantCount_append, List.singleton_append] at hrest
    rw [List.flatMap_cons, readBack]
    exact (runs_routineLines style h.1 done a c).append hrest

/-! ### The text of a listing -/

theorem isLine_headerLine (hr : r.Printable) : IsLine r.headerLine := by
  have hname : r.kind ≠ .file → IsLine (r.name.toList ++ [':']) := fun hkind => by
    have hblank := hr.noBlank_name hkind
    exact .append (fun h => absurd (hblank _ h) (by decide))
      (fun h => absurd (hblank _ h) (by decide)) ⟨by decide, by decide⟩
  cases hkind : r.kind with
  | function =>
    simp only [Routine.headerLine, hkind, List.append_assoc]
    exact .append (by decide) (by decide) (hname (by simp [hkind]))
  | macroFunction =>
    simp only [Routine.headerLine, hkind, List.append_assoc]
    exact .append (by decide) (by decide) (hname (by simp [hkind]))
  | file =>
    simp only [Routine.headerLine, hkind]
    exact ⟨by decide, by decide⟩

theorem isLine_argsText (style : Style) (hr : r.Fits) : IsLine (r.argsText style) := by
  obtain ⟨inner, hargs, -, hbreak⟩ := hr.args
  rw [Routine.argsText]
  split
  · exact ⟨by decide, by decide⟩
  · rw [hargs]
    exact ⟨by simp [hbreak], by rw [List.getLast?_concat]; decide⟩

theorem isLine_of_mem_heading (hr : r.Fits) : ∀ l ∈ r.heading style, IsLine l := by
  intro l hl
  rw [Routine.heading, List.mem_append, List.mem_cons] at hl
  rcases hl with hl | rfl | hl
  · obtain ⟨doc, hdoc, rfl⟩ := Option.map_eq_some_iff.1 (Option.mem_toList.1 hl)
    exact .append (by decide) (by decide) (hr.docstring doc hdoc).isLine
  · exact .append (by decide) (by decide) (isLine_argsText style hr)
  · obtain ⟨spec, hspec, rfl⟩ := Option.map_eq_some_iff.1 (Option.mem_toList.1 hl)
    exact .append (by decide) (by decide) (hr.interactive spec hspec).isLine

theorem isLine_of_mem_lines (hr : r.Fits) (h : ∀ l ∈ linesIn style r.instructions, IsLine l) :
    ∀ l ∈ r.lines style, IsLine l := by
  rw [Routine.lines_eq, List.forall_mem_append, List.forall_mem_append, List.forall_mem_singleton]
  exact ⟨⟨isLine_of_mem_heading hr, h⟩, by decide, by decide⟩

theorem isLine_of_mem_linesIn (style : Style) (is : List Instruction) (hfits : ∀ i ∈ is, i.Fits)
    (hnested : ∀ q ∈ nestedIn is, q.Fits) : ∀ l ∈ linesIn style is, IsLine l := by
  induction is using instructions_induction with
  | nil => simp [linesIn]
  | plain i is hplain ih =>
    rw [List.forall_mem_cons] at hfits
    rw [nestedIn, nested_of_plain hplain, List.nil_append] at hnested
    obtain ⟨body, hlines, hbody, -⟩ := read_line style hfits.1 hplain
    rw [linesIn, hlines, List.singleton_append, List.forall_mem_cons]
    exact ⟨isLine_append_field (noBlank_placeText hfits.1) hbody, ih hfits.2 hnested⟩
  | routine i q is hoperand ihroutine ih =>
    rw [List.forall_mem_cons] at hfits
    rw [nestedIn, nested_of_routine hoperand, List.cons_append, List.forall_mem_cons,
      List.forall_mem_append] at hnested
    obtain ⟨body, hlines, hbody, -⟩ := read_routineLine style hfits.1 hoperand
    rw [linesIn, hlines, List.cons_append, List.forall_mem_cons, List.forall_mem_append]
    exact ⟨isLine_append_field (noBlank_placeText hfits.1) hbody,
      isLine_of_mem_lines hnested.1 (ihroutine hnested.1.instructions hnested.2.1),
      ih hfits.2 hnested.2.2⟩

/-- A listing that was printed is read as the routines in it. -/
theorem read_printed (style : Style) {rs : List Routine} (h : ∀ r ∈ rs, r.Printable) :
    read (printed style rs) = .ok (readBack 0 0 rs) := by
  have hlines : lines (printed style rs).toList =
      rs.flatMap fun r => r.headerLine :: r.lines style := by
    rw [printed, String.toList_ofList]
    refine lines_unlines fun l hl => ?_
    obtain ⟨r, hr, hl⟩ := List.mem_flatMap.1 hl
    have hfits := (h r hr).fits_self
    rcases List.mem_cons.1 hl with rfl | hl
    · exact isLine_headerLine (h r hr)
    · exact isLine_of_mem_lines hfits (isLine_of_mem_linesIn style r.instructions
        hfits.instructions (h r hr).fits_nested) l hl
  obtain ⟨m, hm⟩ := runs_printed style h [] 0 0 0
  rw [read, hlines]
  change (readLines _ (State.mk [] [] 0 0 0) >>= State.finish) = _
  rw [hm]
  simp [State.finish, bind, Except.bind, State.closeAll, State.closeMany]

/-- A macro whose constant is a function, and the code of a file behind it. -/
theorem read_printed_macroWithFunction :
    let style : Style := ⟨fun _ => true, fun _ => true⟩
    let inner : Routine := ⟨"compiled-function-0", "()", none, some "p", .function,
      [⟨.counted .list 2, some (.int 2), 0, none⟩]⟩
    let outer : Routine := ⟨"f", "(x)", some "Call it.", none, .macroFunction,
      [⟨.fixed .constant, some (.routine inner), 0, some "1"⟩,
        ⟨.fixed .goto, some (.symbol "1"), 1, none⟩]⟩
    let file : Routine := ⟨"anonymous0", "(?)", none, none, .file,
      [⟨.fixed .constant, some (.int 3), 0, none⟩]⟩
    printed style [outer, file] = "byte code for macro f:\n  doc:  Call it.\n  args: (x)\n" ++
        "0:1 constant <compiled-function>\n  args: nil\n  interactive: p\n0 list2\n\n" ++
        "1 goto 1\n\nbyte code:\n  args: (?)\n0 constant 3\n\n" ∧
      (∀ r ∈ [outer, file], r.Printable) ∧
      read (printed style [outer, file]) = .ok (readBack 0 0 [outer, file]) := by
  intro style inner outer file
  have hinner : inner.Fits := by
    refine ⟨by decide, ⟨[], by decide, by decide, by decide⟩, by decide, fun i hi => ?_⟩
    obtain rfl : i = _ := List.mem_singleton.1 hi
    exact ⟨by decide, by decide, .count (.inr (.inl rfl)) (by decide)⟩
  have houter : outer.Fits := by
    refine ⟨by decide, ⟨['x'], by decide, by decide, by decide⟩, by decide, fun i hi => ?_⟩
    rcases List.mem_cons.1 hi with rfl | hi
    · exact ⟨by decide, by decide, .routine rfl⟩
    · obtain rfl : i = _ := List.mem_singleton.1 hi
      exact ⟨by decide, by decide, .label (by decide) (by decide)⟩
  have hfile : file.Fits := by
    refine ⟨by decide, ⟨['?'], by decide, by decide, by decide⟩, by decide, fun i hi => ?_⟩
    obtain rfl : i = _ := List.mem_singleton.1 hi
    exact ⟨by decide, by decide, .constant ⟨by decide, by decide, by decide⟩ (by rfl)⟩
  have hprintable : ∀ r ∈ [outer, file], r.Printable := by
    intro r hr
    rcases List.mem_cons.1 hr with rfl | hr
    · refine ⟨fun q hq => ?_, by decide, by decide⟩
      rcases List.mem_cons.1 hq with rfl | hq
      · exact houter
      · obtain rfl : q = inner := List.mem_singleton.1 hq
        exact hinner
    · obtain rfl : r = file := List.mem_singleton.1 hr
      refine ⟨fun q hq => ?_, by decide, by decide⟩
      obtain rfl : q = file := List.mem_singleton.1 hq
      exact hfile
  exact ⟨by decide +kernel, hprintable, read_printed style hprintable⟩

end Listing

end ElispLift
