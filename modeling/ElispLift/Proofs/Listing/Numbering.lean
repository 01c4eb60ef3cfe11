import ElispLift.Proofs.Listing.Names

/-!
# Numbers of routines

Code of files and routines in constants are numbered in the order in which they are met. The numbers
that the reader gives next are how many routines of each sort there are so far, and the open
routines are those of constants, one in another, in a routine of the listing.
-/

namespace ElispLift

/-- How many of some routines are the code of a file. -/
def fileCount (rs : List Routine) : Nat := rs.countP (·.kind = .file)

/-- How many routines there are in the constants of some routines, at any depth. -/
def constantCount (rs : List Routine) : Nat :=
  (rs.flatMap fun r => nestedIn r.instructions).length

theorem fileCount_append (rs qs : List Routine) :
    fileCount (rs ++ qs) = fileCount rs + fileCount qs := by
  simp [fileCount]

@[simp] theorem constantCount_nil : constantCount [] = 0 := rfl

theorem constantCount_append (rs qs : List Routine) :
    constantCount (rs ++ qs) = constantCount rs + constantCount qs := by
  simp [constantCount]

theorem constantCount_cons (r : Routine) (rs : List Routine) :
    constantCount (r :: rs) = (nestedIn r.instructions).length + constantCount rs := by
  simp [constantCount]

namespace Listing

/-- All but the outermost of the open routines are routines of constants. -/
def Nested : List Frame → Prop
  | [] => True
  | [f] => f.place = none
  | f :: around :: rest => f.place.isSome = true ∧ Nested (around :: rest)

theorem Nested.cons_iff {f : Frame} {rest : List Frame} :
    Nested (f :: rest) ↔ (f.place = none ↔ rest = []) ∧ Nested rest := by
  cases rest <;> simp [Nested, Option.isSome_iff_ne_none]

/-- How many open routines are the code of a file. -/
def openFiles (frames : List Frame) : Nat :=
  frames.countP fun f => f.place.isNone && f.routine.kind = .file

/-- How many routines of constants are open or stand in open routines. -/
def openConstants (frames : List Frame) : Nat :=
  frames.countP (·.place.isSome) + constantCount (frames.map (·.routine))

/-- Only code without a name is that of a file. -/
theorem kind_ne_file_of_header? {line : List Char} {kind : RoutineKind} {name : String}
    (h : header? line = some (.named kind name)) : kind ≠ .file := by
  rw [header?] at h
  split at h
  · cases h
    decide
  · cases h
    decide
  · split at h <;> cases h

namespace State

/-- The next numbers are how many routines of each sort there are. -/
structure Counted (s : State) : Prop where
  nested : Nested s.frames
  anonymous : s.anonymous = fileCount s.finished + openFiles s.frames
  compiled : s.compiled = constantCount s.finished + openConstants s.frames

variable {s : State} {line : List Char}

/-- A change of the innermost routine that leaves its place keeps the routines nested. -/
theorem nested_update {change : Frame → Frame} (hs : Nested s.frames)
    (hplace : ∀ f, s.frames.head? = some f → (change f).place = f.place) :
    Nested (s.update change).frames := by
  rw [frames_update]
  cases hframes : s.frames with
  | nil => trivial
  | cons top rest =>
    have hp := hplace top (by simp [hframes])
    rw [hframes, Nested.cons_iff] at hs
    exact Nested.cons_iff.2 ⟨hp ▸ hs.1, hs.2⟩

theorem nested_close (hs : Nested s.frames) : Nested s.close.frames := by
  cases hframes : s.frames with
  | nil => rwa [close_of_outside hframes]
  | cons top rest =>
    rw [hframes] at hs
    cases rest with
    | nil =>
      rw [close_of_outer hframes]
      trivial
    | cons around rest =>
      obtain ⟨place, hplace⟩ := Option.isSome_iff_exists.1 hs.1
      have hrest := Nested.cons_iff.1 hs.2
      rw [close_of_inner hframes hplace]
      exact Nested.cons_iff.2 hrest

theorem nested_openConstant (hs : Nested s.frames) (hopen : s.frames ≠ []) (place : Place) :
    Nested ((s.update (·.push place.marker)).openConstant place).frames :=
  Nested.cons_iff.2 ⟨by simpa [Frame.start] using hopen, nested_update hs fun _ _ => rfl⟩

theorem Counted.update {change : Frame → Frame} (hs : s.Counted)
    (hplace : ∀ f, s.frames.head? = some f → (change f).place = f.place)
    (hkind : ∀ f, s.frames.head? = some f → (change f).routine.kind = f.routine.kind)
    (hnested : ∀ f, s.frames.head? = some f →
      nestedIn (change f).routine.instructions = nestedIn f.routine.instructions) :
    (s.update change).Counted := by
  have hnest := nested_update hs.nested hplace
  rw [State.update] at hnest ⊢
  split
  · exact hs
  next top rest hframes =>
    have hp := hplace top (by simp [hframes])
    have hk := hkind top (by simp [hframes])
    have hn := hnested top (by simp [hframes])
    obtain ⟨-, hanonymous, hcompiled⟩ := hs
    rw [hframes] at hnest hanonymous hcompiled
    refine ⟨hnest, ?_, ?_⟩
    · simpa [openFiles, List.countP_cons, hp, hk] using hanonymous
    · simpa [openConstants, constantCount_cons, List.countP_cons, hp, hn] using hcompiled

theorem Counted.push (hs : s.Counted) (is : List Instruction) (his : nestedIn is = []) :
    (s.update (·.push is)).Counted :=
  hs.update (fun _ _ => rfl) (fun _ _ => rfl) fun f _ => by
    simp [Frame.push, nestedIn_append, his]

theorem Counted.close (hs : s.Counted) : s.close.Counted := by
  cases hframes : s.frames with
  | nil => rwa [close_of_outside hframes]
  | cons top rest =>
    have hclosed := nested_close hs.nested
    obtain ⟨hnest, hanonymous, hcompiled⟩ := hs
    rw [hframes] at hnest hanonymous hcompiled
    cases rest with
    | nil =>
      have htop : top.place = none := hnest
      rw [close_of_outer hframes] at hclosed ⊢
      refine ⟨hclosed, ?_, ?_⟩
      · simpa [fileCount, openFiles, List.countP_cons, htop] using hanonymous
      · simpa [constantCount_append, constantCount_cons, openConstants, htop] using hcompiled
    | cons around rest =>
      obtain ⟨place, hplace⟩ := Option.isSome_iff_exists.1 hnest.1
      rw [close_of_inner hframes hplace] at hclosed ⊢
      refine ⟨hclosed, ?_, ?_⟩
      · simpa [openFiles, List.countP_cons, hplace, Frame.push] using hanonymous
      · rw [hcompiled]
        simp [openConstants, constantCount_cons, List.countP_cons, hplace, Frame.push,
          nestedIn_append, nestedIn, Instruction.nested, Operand.nested, Routine.withNested_eq]
        omega

theorem Counted.start : start.Counted := ⟨trivial, rfl, rfl⟩

theorem Counted.nextLine (hs : s.Counted) : { s with line := s.line + 1 }.Counted :=
  ⟨hs.nested, hs.anonymous, hs.compiled⟩

/-- A line gives every routine that it opens its own number. -/
theorem kept_counted : Kept line Counted where
  heading hchange hs := hs.update (fun f hf => (hchange f hf).place)
    (fun f hf => (hchange f hf).kind) fun f hf => by rw [(hchange f hf).instructions]
  instruction hread hs := hs.push _ (by
    simp [nestedIn_append, nestedIn_marker, nestedIn, nested_of_read hread])
  constant {_ _ place} _ hopen hs := by
    obtain ⟨-, hanonymous, hcompiled⟩ := hs.push place.marker (nestedIn_marker place)
    refine ⟨nested_openConstant hs.nested hopen place, ?_, ?_⟩
    · simpa [openConstant, openFiles, Frame.start] using hanonymous
    · simp [openConstant, openConstants, constantCount_cons, nestedIn, Frame.start] at hcompiled ⊢
      omega
  named hheader hnone hs := by
    have hkind := kind_ne_file_of_header? hheader
    obtain ⟨-, hanonymous, hcompiled⟩ := hs
    rw [hnone] at hanonymous hcompiled
    refine ⟨by simp [openNamed, hnone, Nested, Frame.start], ?_, ?_⟩
    · simpa [openNamed, openFiles, Frame.start, hnone, hkind] using hanonymous
    · simpa [openNamed, openConstants, constantCount_cons, nestedIn, Frame.start, hnone]
        using hcompiled
  file hnone hs := by
    obtain ⟨-, hanonymous, hcompiled⟩ := hs
    rw [hnone] at hanonymous hcompiled
    refine ⟨by simp [openFile, hnone, Nested, Frame.start], ?_, ?_⟩
    · simpa [openFile, openFiles, Frame.start, hnone] using hanonymous
    · simpa [openFile, openConstants, constantCount_cons, nestedIn, Frame.start, hnone]
        using hcompiled
  close hs := hs.close

theorem Counted.closeAll (hs : s.Counted) : s.closeAll.Counted :=
  (kept_counted : Kept [] Counted).closeAll hs

end State

end Listing

end ElispLift
