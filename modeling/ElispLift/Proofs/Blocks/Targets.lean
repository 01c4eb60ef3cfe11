import ElispLift.Context
import ElispLift.Proofs.Blocks.Markers
import ElispLift.Proofs.Listing.Routines

/-!
# Targets of jumps before and behind annotation

Basic blocks find the label of a jump by the text that both show, and the syntax of conditionals is
checked with the label that has the text of the jump as its own. Markers do not matter for that, and
instructions of a listing show the text that they have, unless it is a number or there is none.
-/

namespace ElispLift

variable {i : Instruction} {name : String}

/-! ### Operands of a listing -/

namespace Listing.Listed

/-- Jumps have names as their operands. -/
theorem operand_of_jump (h : Listed i) (hjump : i.isJump = true) :
    ∀ v ∈ i.operand, ∃ name, v = .symbol name := by
  cases h with
  | marker label offset => cases hjump
  | routine r place => cases hjump
  | @line line n place kind operand hread =>
    replace hjump : kind.isJump = true := hjump
    rw [Entry.read] at hread
    split at hread
    · cases hread
    split at hread
    · cases hread
    rw [entry] at hread
    split at hread
    · -- A constant is no jump.
      dsimp only at hread
      split at hread
      · cases hread
      · cases hread
        exact absurd hjump (by decide)
    split at hread
    · split at hread
      · cases hread
        exact absurd hjump (by simp [OpKind.isJump, OpKind.opClass])
      · cases hread
    · cases hread
      exact absurd hjump (by simp [OpKind.isJump, OpKind.opClass])
    · split at hread
      · cases hread
      next op _ =>
        cases hread
        have hop : op.isJump = true := hjump
        split
        · simp
        · simp [hop]

/-- Only a constant is a routine. -/
theorem operand_of_label (h : Listed i) (hlabel : i.isOp .label = true) (r : Routine) :
    i.operand ≠ some (.routine r) := by
  cases h with
  | marker label offset => simp [Instruction.ofOpcode]
  | routine q place => exact absurd hlabel (by simp [Instruction.isOp])
  | line hread =>
    rintro rfl
    have hnested := nested_of_read hread 0 none
    rw [Instruction.nested, Operand.nested, Routine.withNested_eq] at hnested
    cases hnested

end Listing.Listed

namespace Segmentation

variable {s : Segmentation} {is front back part : List Instruction} {last? : Option Nat}
  {depth target : Nat}

/-- What shows as a text and has one has the same. -/
theorem labelText_of_operandText (hroutine : ∀ r, i.operand ≠ some (.routine r))
    (h : i.operandText? = some name) : labelText i = name := by
  obtain ⟨v, hv, htext⟩ := Option.bind_eq_some_iff.1 h
  rw [labelText, hv]
  cases v with
  | int n => cases htext
  | str text => exact Option.some.inj htext
  | symbol text => exact Option.some.inj htext
  | routine r => exact absurd hv (hroutine r)

/-! ### Markers -/

/-- What holds of no marker is found among the annotated instructions as among those without. -/
theorem filter_annotateFrom {q : Instruction → Bool} (hq : ∀ j, isMarker j = true → q j = false) :
    (s.annotateFrom last? depth part).filter q = part.filter q := by
  induction part generalizing last? depth with
  | nil => rfl
  | cons i rest ih =>
    rw [annotateFrom]
    dsimp only
    generalize haccess : access _ i = accessing
    have hnone : ((if last? = some i.offset then [] else s.arrivals i.offset) ++
        accessing.1).filter q = [] := by
      refine List.filter_eq_nil_iff.2 fun j hj => ?_
      rw [hq j]
      · simp
      · rcases List.mem_append.1 hj with hj | hj
        · split at hj
          · cases hj
          · exact (marker_of_mem_arrivals hj).1
        · exact (marker_of_mem_access (haccess ▸ hj)).1
    rw [List.filter_append, hnone, List.nil_append, List.filter_cons, List.filter_cons, ih]

/-- A label that has a text of its own. -/
def labels (name : String) (i : Instruction) : Bool := i.isOp .label && i.operandText? == some name

theorem labels_of_isMarker {j : Instruction} (h : isMarker j = true) : labels name j = false := by
  rw [isMarker, Bool.or_eq_true, Instruction.isOp_iff, Instruction.isOp_iff] at h
  rw [labels, Instruction.isOp]
  rcases h with h | h <;> simp [h]

theorem find?_reverse (q : Instruction → Bool) (is : List Instruction) :
    is.reverse.find? q = (is.filter q).getLast? := by
  rw [← List.head?_filter, List.filter_reverse, List.head?_reverse]

/-- A jump is resolved by the labels that have a text of their own, with markers and without. -/
theorem target?_annotated (s : Segmentation) (i : Instruction) :
    Context.target? ⟨s.annotated.toArray⟩ (.token i) = i.operandText?.bind fun name =>
      (s.instructions.reverse.find? (labels name)).map (·.offset) := by
  refine Option.bind_congr fun name _ => ?_
  have hfilter : s.annotated.filter (labels name) = s.instructions.filter (labels name) :=
    filter_annotateFrom fun _ => labels_of_isMarker
  rw [find?_reverse, ← hfilter, ← find?_reverse]
  rfl

/-! ### Recorded jumps -/

/-- The jump of an instruction is recorded behind those of the instructions in front of it. -/
theorem recorded_jump (hs : ofInstructions (front ++ i :: back) = .ok s) (hi : i.isJump = true) :
    ∃ target, s.jumps[(front.filter Instruction.isJump).length]? = some ⟨i.offset, target⟩ ∧
      labelOffset? (front ++ i :: back) (labelText i) = some target := by
  obtain ⟨hresolved, hjumps⟩ := jumps_eq hs
  have hsome : ∀ j ∈ front ++ i :: back,
      (jump? (front ++ i :: back) j).isSome = j.isJump :=
    fun j hj => isSome_jump? (hresolved j hj)
  have hlength : (front.filterMap (jump? (front ++ i :: back))).length =
      (front.filter Instruction.isJump).length := by
    rw [List.length_filterMap_eq_countP, ← List.countP_eq_length_filter]
    exact List.countP_congr fun j hj => by rw [hsome j (List.mem_append_left _ hj)]
  obtain ⟨jump, hjump⟩ := Option.isSome_iff_exists.1 ((hsome i (by simp)).trans hi)
  obtain ⟨-, htarget, hoffset⟩ := jump?_eq_some.1 hjump
  refine ⟨jump.target, ?_, htarget⟩
  rw [hjumps, List.filterMap_append, List.filterMap_cons_some hjump, ← hlength,
    List.getElem?_append_right (Nat.le_refl _), Nat.sub_self, hoffset]
  rfl

/-- A jump is listed with its target. -/
theorem mem_jumpsToOffset {jump : Jump} (h : jump ∈ s.jumps) :
    ∃ sources, (jump.target, sources) ∈ s.jumpsToOffset ∧ jump.source ∈ sources := by
  refine ⟨s.sources jump.target, List.mem_map.2 ⟨jump.target, ?_, rfl⟩, ?_⟩
  · rw [Sorted.ascending, Sorted.mem_sort, List.mem_eraseDups]
    exact List.mem_map.2 ⟨jump, h, rfl⟩
  · exact List.mem_map.2 ⟨jump, List.mem_filter.2 ⟨h, by simp⟩, rfl⟩

/-- Every jump of a listing is recorded with a target, behind the jumps in front of it. If the
labels that show as its operand are texts, the jump is resolved to that target among the annotated
instructions exactly if it has an operand. -/
theorem target?_of_routines {listing : String} {rs : List Routine} {r : Routine}
    (hread : routines listing = .ok rs) (hr : r ∈ rs) (hs : ofInstructions r.instructions = .ok s)
    (hsplit : r.instructions = front ++ i :: back) (hjump : i.isJump = true)
    (hlabels : ∀ label ∈ r.instructions, IsLabel (labelText i) label →
      label.operandText?.isSome = true) :
    ∃ target, s.jumps[(front.filter Instruction.isJump).length]? = some ⟨i.offset, target⟩ ∧
      (∃ sources, (target, sources) ∈ s.jumpsToOffset ∧ i.offset ∈ sources) ∧
      Context.target? ⟨s.annotated.toArray⟩ (.token i) =
        if i.operand.isSome then some target else none := by
  have hlisted := Listing.listed_of_routines hread r hr
  obtain ⟨target, hrecorded, htarget⟩ := recorded_jump (hsplit ▸ hs) hjump
  rw [← hsplit] at htarget
  refine ⟨target, hrecorded, mem_jumpsToOffset (List.mem_of_getElem? hrecorded), ?_⟩
  rw [target?_annotated, (ofInstructions_eq_ok hs).2.1]
  cases hoperand : i.operand with
  | none => simp [Instruction.operandText?, hoperand]
  | some v =>
    obtain ⟨name, rfl⟩ := (hlisted i (by simp [hsplit])).operand_of_jump hjump v hoperand
    have htext : i.operandText? = some name := by rw [Instruction.operandText?, hoperand]; rfl
    have hshown : labelText i = name := labelText_of_operandText (by simp [hoperand]) htext
    rw [hshown] at htarget hlabels
    -- The labels that show as the name are those that have it.
    have hsame : ∀ j ∈ r.instructions, labels name j = (j.isOp .label && labelText j == name) := by
      intro j hj
      rw [labels, Bool.eq_iff_iff, Bool.and_eq_true, Bool.and_eq_true, beq_iff_eq, beq_iff_eq]
      refine and_congr_right fun hlabel => ?_
      have hroutine := (hlisted j hj).operand_of_label hlabel
      refine ⟨labelText_of_operandText hroutine, fun hj' => ?_⟩
      obtain ⟨text, htext⟩ := Option.isSome_iff_exists.1 (hlabels j hj ⟨hlabel, hj'⟩)
      rw [htext, ← hj', labelText_of_operandText hroutine htext]
    rw [htext, Option.bind_some, Option.isSome_some, if_pos rfl, ← htarget, labelOffset?,
      find?_reverse, find?_reverse, List.filter_congr hsame]

theorem exists_segmentation (listing : String) {q : Routine → Segmentation → Bool}
    (h : (routines listing).toOption.any (fun rs => rs.any fun r =>
      (ofInstructions r.instructions).toOption.any (q r)) = true) :
    ∃ rs r s, routines listing = .ok rs ∧ r ∈ rs ∧ ofInstructions r.instructions = .ok s ∧
      q r s = true := by
  obtain ⟨rs, hrs, hany⟩ := exists_ok_of_any h
  obtain ⟨r, hr, hany⟩ := List.any_eq_true.1 hany
  obtain ⟨s, hs, hq⟩ := exists_ok_of_any hany
  exact ⟨rs, r, s, hrs, hr, hs, hq⟩

/-- A statement is left out if `a` is nil. The label behind it stands with its offset. -/
def labelWithOffset : String :=
  "0 varref a\n1 goto-if-nil 1\n2 varref b\n3 discard\n4:1 constant nil\n5 return\n"

theorem target?_of_routines_labelWithOffset : ∃ rs r s i,
    routines labelWithOffset = .ok rs ∧ r ∈ rs ∧ ofInstructions r.instructions = .ok s ∧
      r.instructions[1]? = some i ∧ i.isJump = true ∧ i.operand.isSome = true ∧
      (∀ label ∈ r.instructions, IsLabel (labelText i) label → label.operandText?.isSome = true) ∧
      ∃ target, (∃ sources, (target, sources) ∈ s.jumpsToOffset ∧ i.offset ∈ sources) ∧
        Context.target? ⟨s.annotated.toArray⟩ (.token i) = some target := by
  obtain ⟨rs, r, s, hrs, hr, hs, hq⟩ := exists_segmentation labelWithOffset
    (q := fun r _ => (r.instructions[1]?.any fun i => i.isJump && i.operand.isSome) &&
      r.instructions.all fun label => !label.isOp .label || label.operandText?.isSome)
    (by decide +kernel)
  obtain ⟨hjump, hall⟩ := Bool.and_eq_true_iff.1 hq
  obtain ⟨i, hi, hjump⟩ := (Option.any_eq_true _ _).1 hjump
  obtain ⟨hjump, hoperand⟩ := Bool.and_eq_true_iff.1 hjump
  have hlabels : ∀ label ∈ r.instructions, IsLabel (labelText i) label →
      label.operandText?.isSome = true := by
    intro label hmem hlabel
    simpa [hlabel.1] using List.all_eq_true.1 hall label hmem
  obtain ⟨front, back, hsplit, -⟩ := exists_split hi
  obtain ⟨target, -, hlisted, htarget⟩ := target?_of_routines hrs hr hs hsplit hjump hlabels
  exact ⟨rs, r, s, i, hrs, hr, hs, hi, hjump, hoperand, hlabels, target, hlisted,
    by simpa [hoperand] using htarget⟩

/-- The label is an instruction of its own, whose operand is read as a number. -/
def labelByItself : String :=
  "0 varref a\n1 goto-if-nil 1\n2 varref b\n3 discard\n4 label 1\n4 constant nil\n5 return\n"

/-- The jump is recorded with its target, but not resolved among the annotated instructions. -/
theorem unresolved_labelByItself : ∃ rs r s i, routines labelByItself = .ok rs ∧ r ∈ rs ∧
    ofInstructions r.instructions = .ok s ∧ r.instructions[1]? = some i ∧ i.isJump = true ∧
    i.offset = 1 ∧ s.jumpsToOffset = [(4, [1])] ∧
    Context.target? ⟨s.annotated.toArray⟩ (.token i) = none := by
  obtain ⟨rs, r, s, hrs, hr, hs, hq⟩ := exists_segmentation labelByItself
    (q := fun r s => (r.instructions[1]?.any fun i => i.isJump && (i.offset = 1 &&
      Context.target? ⟨s.annotated.toArray⟩ (.token i) = none)) && s.jumpsToOffset = [(4, [1])])
    (by decide +kernel)
  obtain ⟨hjump, hlisted⟩ := Bool.and_eq_true_iff.1 hq
  obtain ⟨i, hi, hjump⟩ := (Option.any_eq_true _ _).1 hjump
  obtain ⟨hjump, hrest⟩ := Bool.and_eq_true_iff.1 hjump
  obtain ⟨hoffset, htarget⟩ := Bool.and_eq_true_iff.1 hrest
  exact ⟨rs, r, s, i, hrs, hr, hs, hi, hjump, of_decide_eq_true hoffset, of_decide_eq_true hlisted,
    of_decide_eq_true htarget⟩

end Segmentation

end ElispLift
