import ElispLift.Proofs.Listing.Numbering
import Mathlib.Data.List.Basic
import Mathlib.Tactic.Choose

/-!
# The order of routines

A routine of a listing is reached by the number of an instruction in the routine around it, and so
on. The routines are listed in the lexicographic order of these paths, each once and before those in
its constants. The reader meets them in the same order, so that in the list their numbers go up.
-/

namespace ElispLift

/-! ### Paths to routines -/

/-- The routine that an instruction has as its operand. -/
def Instruction.routine? (i : Instruction) : Option Routine :=
  match i.operand with
  | some (.routine r) => some r
  | _ => none

/-- The routine that is reached through instructions with these numbers. -/
def Routine.at? (r : Routine) : List Nat → Option Routine
  | [] => some r
  | k :: path => r.instructions[k]?.bind fun i => i.routine?.bind (·.at? path)

/-- The routine that is reached from one of those outside. -/
def routineAt? (outer : List Routine) : List Nat → Option Routine
  | [] => none
  | k :: path => outer[k]?.bind (·.at? path)

theorem Routine.sizeOf_lt {r q : Routine} {i : Instruction} (hi : i ∈ r.instructions)
    (hq : i.routine? = some q) : sizeOf q < sizeOf r := by
  obtain ⟨name, args, docstring, interactive, rkind, instructions⟩ := r
  obtain ⟨kind, operand, offset, label⟩ := i
  have hlt := List.sizeOf_lt_of_mem hi
  cases operand with
  | none => cases hq
  | some operand =>
    cases operand <;> cases hq
    simp only [Instruction.mk.sizeOf_spec, Option.some.sizeOf_spec, Operand.routine.sizeOf_spec,
      Routine.mk.sizeOf_spec] at hlt ⊢
    omega

/-- What is shown for routines is shown for one from those that its instructions have. -/
theorem Routine.ind {motive : Routine → Prop}
    (h : ∀ r, (∀ i ∈ r.instructions, ∀ q, i.routine? = some q → motive q) → motive r)
    (r : Routine) : motive r :=
  h r fun _ hi q hq =>
    have := Routine.sizeOf_lt hi hq
    Routine.ind h q
termination_by sizeOf r

variable {α : Type}

/-- The routines that can be reached, with the paths to them and in the order of the paths. -/
structure PathOrdered (reach : List Nat → Option Routine) (placed : List (List Nat × Routine)) :
    Prop where
  ordered : placed.Pairwise fun b c => b.1 < c.1
  mem_iff : ∀ path r, (path, r) ∈ placed ↔ reach path = some r

/-- What is listed for each of some parts, with the number of the part in front of the paths. -/
def forest (placed : α → List (List Nat × Routine)) (parts : List α) : List (List Nat × Routine) :=
  parts.zipIdx.flatMap fun part => (placed part.1).map fun b => (part.2 :: b.1, b.2)

section

variable {placed : α → List (List Nat × Routine)} {parts : List α} {path : List Nat} {r : Routine}

theorem mem_forest : (path, r) ∈ forest placed parts ↔
    ∃ k part rest, parts[k]? = some part ∧ path = k :: rest ∧ (rest, r) ∈ placed part := by
  simp only [forest, List.mem_flatMap, List.mem_map, Prod.exists, Prod.mk.injEq,
    List.mk_mem_zipIdx_iff_getElem?]
  constructor
  · rintro ⟨part, k, hpart, rest, r, hr, rfl, rfl⟩
    exact ⟨k, part, rest, hpart, rfl, hr⟩
  · rintro ⟨k, part, rest, hpart, rfl, hr⟩
    exact ⟨part, k, hpart, rest, r, hr, rfl, rfl⟩

theorem map_snd_forest (placed : α → List (List Nat × Routine)) (parts : List α) :
    (forest placed parts).map (·.2) = parts.flatMap fun part => (placed part).map (·.2) := by
  calc (forest placed parts).map (·.2)
      = parts.zipIdx.flatMap fun part => (placed part.1).map (·.2) := by
        simp only [forest, List.map_flatMap, List.map_map, Function.comp_def]
    _ = (parts.zipIdx.map Prod.fst).flatMap fun part => (placed part).map (·.2) := by
        rw [List.flatMap_map]
    _ = parts.flatMap fun part => (placed part).map (·.2) := by rw [List.zipIdx_map_fst]

/-- In a part the paths are shorter by one. -/
theorem filter_forest (p : Nat → Bool) (placed : α → List (List Nat × Routine)) (parts : List α) :
    (forest placed parts).filter (fun b => p b.1.length) =
      forest (fun part => (placed part).filter fun b => p (b.1.length + 1)) parts := by
  simp only [forest, List.filter_flatMap, List.filter_map, Function.comp_def, List.length_cons]

theorem ordered_forest (h : ∀ part ∈ parts, (placed part).Pairwise fun b c => b.1 < c.1) :
    (forest placed parts).Pairwise fun b c => b.1 < c.1 := by
  rw [forest, List.pairwise_flatMap]
  constructor
  · rintro ⟨part, k⟩ hpart
    have hmem : part ∈ parts :=
      List.mem_of_getElem? (List.mk_mem_zipIdx_iff_getElem?.1 hpart)
    rw [List.pairwise_map]
    exact (h part hmem).imp fun hlt => List.cons_lt_cons_iff.2 (.inr ⟨rfl, hlt⟩)
  · have hnumbers : (parts.zipIdx.map Prod.snd).Pairwise (· < ·) := by
      rw [List.zipIdx_map_snd]
      exact List.pairwise_lt_range' 1
    refine (List.pairwise_map.1 hnumbers).imp fun hlt b hb c hc => ?_
    obtain ⟨_, -, rfl⟩ := List.mem_map.1 hb
    obtain ⟨_, -, rfl⟩ := List.mem_map.1 hc
    exact List.cons_lt_cons_iff.2 (.inl hlt)

theorem mem_forest_cons_iff (reach : α → List Nat → Option Routine) {k : Nat}
    (h : ∀ part ∈ parts, ∀ path r, (path, r) ∈ placed part ↔ reach part path = some r) :
    (k :: path, r) ∈ forest placed parts ↔ parts[k]?.bind (reach · path) = some r := by
  rw [mem_forest, Option.bind_eq_some_iff]
  constructor
  · rintro ⟨_, part, _, hpart, ⟨⟩, hr⟩
    exact ⟨part, hpart, (h part (List.mem_of_getElem? hpart) _ _).1 hr⟩
  · rintro ⟨part, hpart, hr⟩
    exact ⟨k, part, path, hpart, rfl, (h part (List.mem_of_getElem? hpart) _ _).2 hr⟩

end

theorem nestedIn_eq_flatMap (is : List Instruction) :
    nestedIn is = is.flatMap Instruction.nested := by
  induction is with
  | nil => rfl
  | cons i is ih => rw [nestedIn, List.flatMap_cons, ih]

theorem Instruction.nested_eq (i : Instruction) :
    i.nested = i.routine?.elim [] Routine.withNested := by
  obtain ⟨kind, operand, offset, label⟩ := i
  cases operand with
  | none => rfl
  | some operand => cases operand <;> rfl

/-- A routine comes before those in its constants, which are listed in the order of the paths. -/
theorem Routine.exists_pathOrdered (r : Routine) : ∃ placed,
    PathOrdered r.at? (([], r) :: placed) ∧ (∀ b ∈ placed, b.1 ≠ []) ∧
      placed.map (·.2) = nestedIn r.instructions := by
  induction r using Routine.ind with
  | h r ih =>
    have hparts : ∀ i ∈ r.instructions, ∃ placed,
        PathOrdered (fun path => i.routine?.bind (·.at? path)) placed ∧
          placed.map (·.2) = i.nested := by
      intro i hi
      rw [Instruction.nested_eq]
      cases hq : i.routine? with
      | none => exact ⟨[], ⟨.nil, by simp⟩, rfl⟩
      | some q =>
        obtain ⟨placed, hordered, -, hplaced⟩ := ih i hi q hq
        exact ⟨([], q) :: placed, hordered, by simp [hplaced, Routine.withNested_eq]⟩
    choose! placed hordered hplaced using hparts
    -- Nothing below an instruction is reached at once, since its number comes first in the path.
    have hne : ∀ b ∈ forest placed r.instructions, b.1 ≠ [] := by
      rintro ⟨path, q⟩ hb
      obtain ⟨k, i, rest, -, rfl, -⟩ := mem_forest.1 hb
      simp
    refine ⟨forest placed r.instructions, ⟨?_, ?_⟩, hne, ?_⟩
    · refine List.pairwise_cons.2 ⟨fun b hb => ?_,
        ordered_forest fun i hi => (hordered i hi).ordered⟩
      obtain ⟨k, path, hpath⟩ := List.exists_cons_of_ne_nil (hne b hb)
      rw [hpath]
      exact List.nil_lt_cons k path
    · intro path q
      cases path with
      | nil =>
        have hforest : ([], q) ∉ forest placed r.instructions := fun hq => hne _ hq rfl
        simp [Routine.at?, hforest, eq_comm]
      | cons k path =>
        rw [List.mem_cons, Routine.at?,
          ← mem_forest_cons_iff _ fun i hi => (hordered i hi).mem_iff]
        simp
    · rw [map_snd_forest, nestedIn_eq_flatMap]
      exact List.flatMap_congr hplaced

/-- Only a routine itself is reached at once, and the others are those in its constants. -/
theorem Routine.exists_split (r : Routine) : ∃ placed, PathOrdered r.at? placed ∧
    placed.map (·.2) = r.withNested ∧
    (placed.filter (0 < ·.1.length)).map (·.2) = nestedIn r.instructions ∧
    (placed.filter (·.1.length = 0)).map (·.2) = [r] := by
  obtain ⟨placed, hordered, hne, hplaced⟩ := r.exists_pathOrdered
  have hpos : placed.filter (0 < ·.1.length) = placed :=
    List.filter_eq_self.2 fun b hb => by simpa [List.length_pos_iff] using hne b hb
  have hzero : placed.filter (·.1.length = 0) = [] :=
    List.filter_eq_nil_iff.2 fun b hb => by simpa using hne b hb
  refine ⟨([], r) :: placed, hordered, ?_, ?_, ?_⟩
  · rw [List.map_cons, hplaced, Routine.withNested_eq]
  · rw [List.filter_cons_of_neg (by simp), hpos, hplaced]
  · rw [List.filter_cons_of_pos (by simp), hzero, List.map_singleton]

/-- The routines of a listing in their order. The longer paths lead to those in constants. -/
theorem exists_pathOrdered (outer : List Routine) : ∃ placed,
    PathOrdered (routineAt? outer) placed ∧ placed.map (·.2) = outer.flatMap Routine.withNested ∧
      (placed.filter (1 < ·.1.length)).map (·.2) = outer.flatMap (nestedIn ·.instructions) ∧
      (placed.filter (·.1.length = 1)).map (·.2) = outer := by
  choose placed hordered hplaced hbelow hself using Routine.exists_split
  refine ⟨forest placed outer, ⟨ordered_forest fun r _ => (hordered r).ordered, ?_⟩, ?_, ?_, ?_⟩
  · intro path r
    cases path with
    | nil => simp [mem_forest, routineAt?]
    | cons k path => exact mem_forest_cons_iff Routine.at? fun r _ => (hordered r).mem_iff
  · simp only [map_snd_forest, hplaced]
  · rw [filter_forest fun n => 1 < n, map_snd_forest]
    simp only [Nat.lt_add_left_iff_pos, hbelow]
  · rw [filter_forest fun n => n = 1, map_snd_forest]
    simp only [Nat.add_eq_right, hself, List.flatMap_singleton']

namespace Listing

/-! ### Names in the order in which routines open -/

/-- The names of the routines of constants that an open routine is and has, in order. -/
def Frame.constants (f : Frame) : List String :=
  (if f.place.isSome then [f.routine.name] else []) ++
    (nestedIn f.routine.instructions).map (·.name)

/-- What an open routine is called in the listing, if it is no routine of a constant. -/
def Frame.outer (f : Frame) : List (RoutineKind × String) :=
  if f.place.isSome then [] else [(f.routine.kind, f.routine.name)]

namespace State

variable {s : State} {line : List Char}

/-- The names of the routines of constants so far, in order. -/
def constants (s : State) : List String :=
  s.finished.flatMap (fun r => (nestedIn r.instructions).map (·.name)) ++
    s.frames.reverse.flatMap Frame.constants

/-- The kinds and names of the other routines so far, in order. -/
def outer (s : State) : List (RoutineKind × String) :=
  s.finished.map (fun r => (r.kind, r.name)) ++ s.frames.reverse.flatMap Frame.outer

theorem constants_update {change : Frame → Frame}
    (h : ∀ f, s.frames.head? = some f → (change f).constants = f.constants) :
    (s.update change).constants = s.constants := by
  rw [State.update]
  split
  · rfl
  next top rest hframes =>
    have htop := h top (by simp [hframes])
    simp [constants, hframes, htop]

theorem outer_update {change : Frame → Frame}
    (h : ∀ f, s.frames.head? = some f → (change f).outer = f.outer) :
    (s.update change).outer = s.outer := by
  rw [State.update]
  split
  · rfl
  next top rest hframes =>
    have htop := h top (by simp [hframes])
    simp [outer, hframes, htop]

/-- A routine of a constant that ends comes behind those in the constants before it. -/
theorem constants_close (hs : Nested s.frames) : s.close.constants = s.constants := by
  cases hframes : s.frames with
  | nil => rw [close_of_outside hframes]
  | cons top rest =>
    rw [hframes] at hs
    cases rest with
    | nil =>
      have htop : top.place = none := hs
      rw [close_of_outer hframes]
      simp [constants, Frame.constants, hframes, htop]
    | cons around rest =>
      obtain ⟨place, hplace⟩ := Option.isSome_iff_exists.1 hs.1
      rw [close_of_inner hframes hplace]
      simp [constants, Frame.constants, Frame.push, hframes, hplace, nestedIn_append, nestedIn,
        Instruction.nested, Operand.nested, Routine.withNested_eq]

theorem outer_close (hs : Nested s.frames) : s.close.outer = s.outer := by
  cases hframes : s.frames with
  | nil => rw [close_of_outside hframes]
  | cons top rest =>
    rw [hframes] at hs
    cases rest with
    | nil =>
      have htop : top.place = none := hs
      rw [close_of_outer hframes]
      simp [outer, Frame.outer, hframes, htop]
    | cons around rest =>
      obtain ⟨place, hplace⟩ := Option.isSome_iff_exists.1 hs.1
      rw [close_of_inner hframes hplace]
      simp [outer, Frame.outer, Frame.push, hframes, hplace]

theorem constants_push {is : List Instruction} (his : nestedIn is = []) :
    (s.update (·.push is)).constants = s.constants :=
  constants_update fun f _ => by
    rw [Frame.constants, Frame.push, nestedIn_append, his, List.append_nil, Frame.constants]

theorem outer_push (is : List Instruction) : (s.update (·.push is)).outer = s.outer :=
  outer_update fun _ _ => rfl

theorem constants_openConstant (place : Place) : (s.openConstant place).constants =
    s.constants ++ ["compiled-function-" ++ toString s.compiled] := by
  simp [constants, openConstant, Frame.constants, Frame.start, nestedIn]

theorem outer_openConstant (place : Place) : (s.openConstant place).outer = s.outer := by
  simp [outer, openConstant, Frame.outer, Frame.start]

theorem constants_openNamed (kind : RoutineKind) (name : String) :
    (s.openNamed kind name).constants = s.constants := by
  simp [constants, openNamed, Frame.constants, Frame.start, nestedIn]

theorem outer_openNamed (kind : RoutineKind) (name : String) :
    (s.openNamed kind name).outer = s.outer ++ [(kind, name)] := by
  simp [outer, openNamed, Frame.outer, Frame.start]

theorem constants_openFile : s.openFile.constants = s.constants := by
  simp [constants, openFile, Frame.constants, Frame.start, nestedIn]

theorem outer_openFile :
    s.openFile.outer = s.outer ++ [(.file, "anonymous" ++ toString s.anonymous)] := by
  simp [outer, openFile, Frame.outer, Frame.start]

end State

/-- The first `n` numbered names. -/
def numbered (stem : String) (n : Nat) : List String :=
  (List.range n).map fun k => stem ++ toString k

theorem numbered_succ (stem : String) (n : Nat) :
    numbered stem (n + 1) = numbered stem n ++ [stem ++ toString n] := by
  simp [numbered, List.range_succ]

/-- A line of the listing that is the header of a routine of this kind and name. -/
def HasHeader (lines : List (List Char)) (kind : RoutineKind) (name : String) : Prop :=
  ∃ line ∈ lines, header? line = some (.named kind name)

instance (lines : List (List Char)) (kind : RoutineKind) (name : String) :
    Decidable (HasHeader lines kind name) :=
  inferInstanceAs (Decidable (∃ line ∈ lines, header? line = some (.named kind name)))

namespace State

variable {lines : List (List Char)} {line : List Char} {s t : State}

/-- So far the numbers of both sorts of routines go up, and the other routines have headers. -/
structure Ordered (lines : List (List Char)) (s : State) : Prop where
  nested : Nested s.frames
  constants : s.constants = numbered "compiled-function-" s.compiled
  files : (s.outer.filter (·.1 = .file)).map (·.2) = numbered "anonymous" s.anonymous
  headed : ∀ r ∈ s.outer, r.1 ≠ .file → HasHeader lines r.1 r.2

theorem counters_update (change : Frame → Frame) : (s.update change).compiled = s.compiled ∧
    (s.update change).anonymous = s.anonymous := by
  rw [State.update]
  split <;> exact ⟨rfl, rfl⟩

theorem counters_close (s : State) :
    s.close.compiled = s.compiled ∧ s.close.anonymous = s.anonymous := by
  rw [State.close]
  split
  · exact ⟨rfl, rfl⟩
  · split <;> exact ⟨rfl, rfl⟩

/-- A step that names no routine keeps the order. -/
theorem Ordered.of_eq (hs : s.Ordered lines) (hnested : Nested t.frames)
    (hcounters : t.compiled = s.compiled ∧ t.anonymous = s.anonymous)
    (hconstants : t.constants = s.constants) (houter : t.outer = s.outer) : t.Ordered lines := by
  obtain ⟨-, hnumbers, hfiles, hheaded⟩ := hs
  rw [← hconstants, ← hcounters.1] at hnumbers
  rw [← houter, ← hcounters.2] at hfiles
  rw [← houter] at hheaded
  exact ⟨hnested, hnumbers, hfiles, hheaded⟩

theorem Ordered.close (hs : s.Ordered lines) : s.close.Ordered lines :=
  hs.of_eq (nested_close hs.nested) (counters_close s) (constants_close hs.nested)
    (outer_close hs.nested)

theorem Ordered.push (hs : s.Ordered lines) {is : List Instruction} (his : nestedIn is = []) :
    (s.update (·.push is)).Ordered lines :=
  hs.of_eq (nested_update hs.nested fun _ _ => rfl) (counters_update _) (constants_push his)
    (outer_push is)

/-- A line gives the routine that it opens the next number, unless it is its header. -/
theorem kept_ordered (hline : line ∈ lines) : Kept line (Ordered lines) where
  heading hchange hs := hs.of_eq (nested_update hs.nested fun f hf => (hchange f hf).place)
    (counters_update _)
    (constants_update fun f hf => by
      have hsame := hchange f hf
      rw [Frame.constants, hsame.place, hsame.name, hsame.instructions, Frame.constants])
    (outer_update fun f hf => by
      have hsame := hchange f hf
      rw [Frame.outer, hsame.place, hsame.kind, hsame.name, Frame.outer])
  instruction hread hs := hs.push (by
    simp [nestedIn_append, nestedIn_marker, nestedIn, nested_of_read hread])
  constant {_ _ place} _ hopen hs := by
    obtain ⟨-, hnumbers, hfiles, hheaded⟩ := hs.push (nestedIn_marker place)
    refine ⟨nested_openConstant hs.nested hopen place, ?_, ?_, ?_⟩
    · rw [constants_openConstant, hnumbers]
      exact (numbered_succ _ _).symm
    · rw [outer_openConstant]
      exact hfiles
    · rwa [outer_openConstant]
  named {_ kind name} hheader hnone hs := by
    refine ⟨by simp [openNamed, hnone, Nested, Frame.start], ?_, ?_, ?_⟩
    · rw [constants_openNamed]
      exact hs.constants
    · have hkind := kind_ne_file_of_header? hheader
      rw [outer_openNamed, List.filter_append, List.filter_cons_of_neg (by simpa using hkind),
        List.filter_nil, List.append_nil]
      exact hs.files
    · rw [outer_openNamed, List.forall_mem_append, List.forall_mem_singleton]
      exact ⟨hs.headed, fun _ => ⟨line, hline, hheader⟩⟩
  file {s} hnone hs := by
    refine ⟨by simp [openFile, hnone, Nested, Frame.start], ?_, ?_, ?_⟩
    · rw [constants_openFile]
      exact hs.constants
    · rw [outer_openFile, List.filter_append, List.map_append, hs.files]
      exact (numbered_succ _ _).symm
    · rw [outer_openFile, List.forall_mem_append, List.forall_mem_singleton]
      exact ⟨hs.headed, fun hkind => absurd rfl hkind⟩
  close hs := hs.close

theorem Ordered.start : start.Ordered lines := ⟨trivial, rfl, rfl, by simp [outer, State.start]⟩

end State

section

variable {listing : String} {outer : List Routine}

/-- The routines of constants and the code of files are numbered as they stand in the listing, and
only the code of files has no header. -/
theorem numbered_of_read (h : read listing = .ok outer) :
    (∃ n, (outer.flatMap (nestedIn ·.instructions)).map (·.name) =
      numbered "compiled-function-" n) ∧
    (∃ n, (outer.filter (·.kind = .file)).map (·.name) = numbered "anonymous" n) ∧
    ∀ r ∈ outer, r.kind = .file ↔ ¬HasHeader (Text.lines listing.toList) r.kind r.name := by
  obtain ⟨s, hs, hnone, rfl⟩ := exists_of_lines (fun line hline => State.kept_ordered hline)
    State.Ordered.close (fun s hs => ⟨hs.nested, hs.constants, hs.files, hs.headed⟩)
    State.Ordered.start h
  obtain ⟨-, hconstants, hfiles, hheaded⟩ := hs
  have houter : s.outer = s.finished.map fun r => (r.kind, r.name) := by
    simp [State.outer, hnone]
  refine ⟨⟨s.compiled, ?_⟩, ⟨s.anonymous, ?_⟩, fun r hr => ⟨?_, fun hheader => ?_⟩⟩
  · rw [← hconstants, List.map_flatMap, State.constants, hnone, List.reverse_nil,
      List.flatMap_nil, List.append_nil]
  · rw [← hfiles, houter, List.filter_map, List.map_map]
    rfl
  · rintro hkind ⟨line, -, hheader⟩
    exact kind_ne_file_of_header? hheader hkind
  · by_contra hkind
    exact hheader (hheaded (r.kind, r.name) (by rw [houter]; exact List.mem_map_of_mem hr) hkind)

/-- The routines of a listing are listed in the order of their paths, each once. In that order the
routines of constants are numbered, and so are those of the listing that no header names. -/
theorem routines_in_order (h : read listing = .ok outer) : ∃ bodies : List (List Nat × Routine),
    PathOrdered (routineAt? outer) bodies ∧ routines listing = .ok (bodies.map (·.2)) ∧
      (∃ n, (bodies.filter (1 < ·.1.length)).map (·.2.name) = numbered "compiled-function-" n) ∧
      ∃ n, (bodies.filter fun b => b.1.length = 1 ∧
          ¬HasHeader (Text.lines listing.toList) b.2.kind b.2.name).map (·.2.name) =
        numbered "anonymous" n := by
  obtain ⟨bodies, hordered, hbodies, hbelow, houter⟩ := exists_pathOrdered outer
  obtain ⟨⟨compiled, hcompiled⟩, ⟨anonymous, hanonymous⟩, hheaders⟩ := numbered_of_read h
  refine ⟨bodies, hordered, ?_, ⟨compiled, ?_⟩, anonymous, ?_⟩
  · rw [routines, h, hbodies]
    rfl
  · rw [← hcompiled, ← hbelow, List.map_map]
    rfl
  · have hfiles : outer.filter (·.kind = .file) =
        outer.filter fun r => ¬HasHeader (Text.lines listing.toList) r.kind r.name :=
      List.filter_congr fun r hr => decide_eq_decide.2 (hheaders r hr)
    rw [← hanonymous, hfiles]
    simp only [← houter, List.filter_map, List.filter_filter, List.map_map, Bool.decide_and,
      Bool.and_comm, Function.comp_def]

/-- A function in a constant of one in a constant, another one in a constant, and code without a
header. -/
def nestedTwice : String :=
  "byte code for f:\n  args: nil\n0 constant <compiled-function>\n  args: nil\n" ++
  "0 constant <compiled-function>\n  args: nil\n0 return\n\n1 return\n\n" ++
  "1 constant <compiled-function>\n  args: nil\n0 return\n\n2 return\n\n0 return\n"

theorem routines_in_order_nestedTwice : ∃ outer bodies, read nestedTwice = .ok outer ∧
    PathOrdered (routineAt? outer) bodies ∧ routines nestedTwice = .ok (bodies.map (·.2)) ∧
      bodies.map (·.2.name) = ["f", "compiled-function-0", "compiled-function-1",
        "compiled-function-2", "anonymous0"] := by
  have hnames : (routines nestedTwice).toOption.any (fun rs => rs.map (·.name) =
      ["f", "compiled-function-0", "compiled-function-1", "compiled-function-2", "anonymous0"]) =
        true := by
    decide +kernel
  obtain ⟨rs, hrs, hnames⟩ := exists_ok_of_any hnames
  obtain ⟨outer, hread, -⟩ := exists_read hrs
  obtain ⟨bodies, hordered, hbodies, -⟩ := routines_in_order hread
  obtain rfl : rs = bodies.map (·.2) := Except.ok.inj (hrs.symm.trans hbodies)
  exact ⟨outer, bodies, hread, hordered, hbodies, by simpa [Function.comp_def] using hnames⟩

end

end Listing

end ElispLift
