import ElispLift.Decompile
import ElispLift.Proofs.Listing.Steps

/-!
# Routines of a listing

The instructions of a listing are markers of labels, instructions that stand on one line, and
constants that are routines. What holds of every routine when it opens, and goes on to hold while
headings and such instructions are read, holds of all routines of a listing and of those in their
constants.
-/

namespace ElispLift

theorem nestedIn_append (is js : List Instruction) :
    nestedIn (is ++ js) = nestedIn is ++ nestedIn js := by
  induction is with
  | nil => rfl
  | cons i is ih => simp [nestedIn, ih]

theorem Routine.withNested_eq (r : Routine) : r.withNested = r :: nestedIn r.instructions := by
  cases r
  simp [Routine.withNested]

@[simp] theorem Operand.nested_ofText (s : String) : (Operand.ofText s).nested = [] := by
  rw [Operand.ofText]
  split
  · split <;> rfl
  · rfl
  · rfl

namespace Listing

variable {line : List Char} {p : Routine → Prop} {rs : List Routine}

/-- The instructions that a listing can give. -/
inductive Listed : Instruction → Prop where
  | marker (label : String) (offset : Nat) :
      Listed (.ofOpcode .label (some (.symbol label)) offset)
  | line {line : List Char} {n : Nat} {place : Place} {kind : OpKind} {operand : Option Operand}
      (h : Entry.read line n = .ok (.instruction place kind operand)) :
      Listed ⟨kind, operand, place.offset, place.label⟩
  | routine (r : Routine) (place : Place) :
      Listed ⟨.fixed .constant, some (.routine r), place.offset, place.label⟩

theorem listed_marker (place : Place) : ∀ i ∈ place.marker, Listed i := by
  unfold Place.marker
  split
  next label _ => simpa using Listed.marker label place.offset
  next => simp

theorem nestedIn_marker (place : Place) : nestedIn place.marker = [] := by
  rw [Place.marker]
  split <;> rfl

/-- The operand of an instruction that stands on one line is no routine. -/
theorem nested_of_read {n : Nat} {place : Place} {op : OpKind} {operand : Option Operand}
    (h : Entry.read line n = .ok (.instruction place op operand)) (offset : Nat)
    (label : Option String) : (⟨op, operand, offset, label⟩ : Instruction).nested = [] := by
  rw [Entry.read] at h
  split at h
  · cases h
  split at h
  · cases h
  rw [entry] at h
  split at h
  · simp only at h
    split at h
    · cases h
    · cases h
      simp [Instruction.nested]
  split at h
  · split at h
    · cases h
      rfl
    · cases h
  · cases h
    rfl
  · split at h
    · cases h
    · cases h
      split
      · rfl
      · rw [Instruction.nested]
        split <;> simp [Operand.nested]

/-- A property of a routine that reading a line gives or keeps. -/
structure Persists (line : List Char) (p : Routine → Prop) : Prop where
  named : ∀ {kind name}, header? line = some (.named kind name) →
    p (Frame.start name kind none).routine
  file : ∀ n : Nat, p (Frame.start ("anonymous" ++ toString n) .file none).routine
  constant : ∀ n : Nat, p (Frame.start ("compiled-function-" ++ toString n) .function none).routine
  heading : ∀ {r q : Routine}, q.name = r.name → q.kind = r.kind →
    q.instructions = r.instructions → p r → p q
  push : ∀ {f : Frame} {is : List Instruction}, (∀ i ∈ is, Listed i) → p f.routine →
    p (f.push is).routine

namespace State

variable {s : State}

/-- All routines so far have a property, and those in their constants too. -/
structure RoutinesMeet (p : Routine → Prop) (s : State) : Prop where
  finished : ∀ r ∈ s.finished, ∀ q ∈ r.withNested, p q
  opened : ∀ f ∈ s.frames, ∀ q ∈ f.routine.withNested, p q

theorem RoutinesMeet.update {change : Frame → Frame} (hs : s.RoutinesMeet p)
    (h : ∀ f, s.frames.head? = some f → (∀ q ∈ f.routine.withNested, p q) →
      ∀ q ∈ (change f).routine.withNested, p q) : (s.update change).RoutinesMeet p := by
  rw [State.update]
  split
  · exact hs
  next top rest hframes =>
    have hopened := hs.opened
    rw [hframes, List.forall_mem_cons] at hopened
    exact ⟨hs.finished, List.forall_mem_cons.2 ⟨h top (by simp [hframes]) hopened.1, hopened.2⟩⟩

/-- A routine with more instructions has the property if the routines in them have it. -/
theorem forall_push (hp : Persists line p) {f : Frame} {is : List Instruction}
    (his : ∀ i ∈ is, Listed i) (hnested : ∀ q ∈ nestedIn is, p q)
    (hf : ∀ q ∈ f.routine.withNested, p q) : ∀ q ∈ (f.push is).routine.withNested, p q := by
  rw [Routine.withNested_eq, List.forall_mem_cons] at hf ⊢
  refine ⟨hp.push his hf.1, ?_⟩
  rw [Frame.push, nestedIn_append, List.forall_mem_append]
  exact ⟨hf.2, hnested⟩

theorem RoutinesMeet.push (hp : Persists line p) (hs : s.RoutinesMeet p) {is : List Instruction}
    (his : ∀ i ∈ is, Listed i) (hnested : nestedIn is = []) :
    (s.update (·.push is)).RoutinesMeet p :=
  hs.update fun _ _ => forall_push hp his (by simp [hnested])

theorem forall_start {name : String} {kind : RoutineKind} {place : Option Place}
    (h : p (Frame.start name kind none).routine) :
    ∀ q ∈ (Frame.start name kind place).routine.withNested, p q := by
  rw [Routine.withNested_eq, List.forall_mem_cons]
  exact ⟨h, by simp [Frame.start, nestedIn]⟩

theorem RoutinesMeet.close (hp : Persists line p) (hs : s.RoutinesMeet p) :
    s.close.RoutinesMeet p := by
  have hopened := hs.opened
  rw [State.close]
  split
  · exact hs
  next top rest hframes =>
    rw [hframes, List.forall_mem_cons] at hopened
    split
    next place around rest _ =>
      rw [List.forall_mem_cons] at hopened
      refine ⟨hs.finished, List.forall_mem_cons.2 ⟨forall_push hp ?_ ?_ hopened.2.1, hopened.2.2⟩⟩
      · simpa using Listed.routine top.routine place
      · simpa [nestedIn, Instruction.nested, Operand.nested] using hopened.1
    · refine ⟨?_, hopened.2⟩
      rw [List.forall_mem_append, List.forall_mem_singleton]
      exact ⟨hs.finished, hopened.1⟩

theorem kept_routinesMeet (hp : Persists line p) : Kept line (RoutinesMeet p) where
  heading hchange hs := hs.update fun f htop hf => by
    have hsame := hchange f htop
    rw [Routine.withNested_eq, List.forall_mem_cons] at hf ⊢
    rw [hsame.instructions]
    exact ⟨hp.heading hsame.name hsame.kind hsame.instructions hf.1, hf.2⟩
  instruction {_ _ place _ _} hread hs := by
    refine hs.push hp ?_
      (by simp [nestedIn_append, nestedIn_marker, nestedIn, nested_of_read hread])
    rw [List.forall_mem_append, List.forall_mem_singleton]
    exact ⟨listed_marker place, .line hread⟩
  constant {_ _ place} _ _ hs := by
    have hpushed := hs.push hp (listed_marker place) (nestedIn_marker place)
    exact ⟨hpushed.finished, List.forall_mem_cons.2 ⟨forall_start (hp.constant _), hpushed.opened⟩⟩
  named hheader _ hs :=
    ⟨hs.finished, List.forall_mem_cons.2 ⟨forall_start (hp.named hheader), hs.opened⟩⟩
  file _ hs := ⟨hs.finished, List.forall_mem_cons.2 ⟨forall_start (hp.file _), hs.opened⟩⟩
  close hs := hs.close hp

end State

theorem exists_read {listing : String} (h : routines listing = .ok rs) :
    ∃ outer, read listing = .ok outer ∧ rs = outer.flatMap Routine.withNested := by
  rw [routines] at h
  cases hread : read listing with
  | error e => simp [hread, bind, Except.bind] at h
  | ok outer =>
    rw [hread] at h
    exact ⟨outer, rfl, (Except.ok.inj h).symm⟩

/-- What all lines give or keep holds of all routines of a listing. -/
theorem forall_routines {listing : String} (hp : ∀ line, Persists line p)
    (h : routines listing = .ok rs) : ∀ r ∈ rs, p r := by
  obtain ⟨outer, hread, rfl⟩ := exists_read h
  obtain ⟨s, hs, -, rfl⟩ := exists_of_read (fun line => State.kept_routinesMeet (hp line))
    (fun _ hs => ⟨hs.finished, hs.opened⟩) ⟨by simp [State.start], by simp [State.start]⟩ hread
  intro r hr
  obtain ⟨o, ho, hr⟩ := List.mem_flatMap.1 hr
  exact hs.finished o ho r hr

/-- No other instructions come from a listing. -/
theorem listed_of_routines {listing : String} (h : routines listing = .ok rs) :
    ∀ r ∈ rs, ∀ i ∈ r.instructions, Listed i :=
  forall_routines (fun _ => {
    named := fun _ => by simp [Frame.start]
    file := fun _ => by simp [Frame.start]
    constant := fun _ => by simp [Frame.start]
    heading := fun _ _ hinstructions hr => hinstructions ▸ hr
    push := fun his hf => by
      rw [Frame.push, List.forall_mem_append]
      exact ⟨hf, his⟩ }) h

end Listing

end ElispLift
