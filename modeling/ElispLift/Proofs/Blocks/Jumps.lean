import ElispLift.Blocks.Segmentation
import Mathlib.Data.List.Basic

/-!
# Jumps and their targets

A jump leads to the last label of its name. The jumps of a list are found if every one of them has
such a label, and otherwise the first that has none is reported.
-/

namespace ElispLift

namespace Opcode

theorem opClass_cases : ∀ op ∈ all, (op.opClass = .jump ↔ op = .goto) ∧
    (op.opClass = .noFollow ↔ op = .ret) ∧
    (op.effect.isBranch = true ↔ op = .gotoIfNilElsePop ∨ op = .gotoIfNotNilElsePop) ∧
    (op.effect.isBranch = true → op.opClass = .jumpCond) := by
  decide

end Opcode

namespace Instruction

variable {i : Instruction}

theorem isOp_iff {op : Opcode} : i.isOp op = true ↔ i.kind = .fixed op := by
  simp [isOp]

theorem opClass_eq_jump : i.kind.opClass = .jump ↔ i.isOp .goto = true := by
  rw [isOp_iff]
  cases i.kind with
  | fixed op => simpa [OpKind.opClass] using (Opcode.opClass_cases op op.mem_all).1
  | counted family count => simp [OpKind.opClass]

theorem opClass_eq_noFollow : i.kind.opClass = .noFollow ↔ i.isOp .ret = true := by
  rw [isOp_iff]
  cases i.kind with
  | fixed op => simpa [OpKind.opClass] using (Opcode.opClass_cases op op.mem_all).2.1
  | counted family count => simp [OpKind.opClass]

theorem isJump_iff : i.isJump = true ↔ i.kind.opClass = .jump ∨ i.kind.opClass = .jumpCond := by
  simp [isJump, OpKind.isJump]

/-- The branches whose sides differ are those that keep the value when they jump. -/
theorem isBranch_iff : i.effect.isBranch = true ↔
    i.isOp .gotoIfNilElsePop = true ∨ i.isOp .gotoIfNotNilElsePop = true := by
  rw [isOp_iff, isOp_iff, effect]
  cases i.kind with
  | fixed op => simpa [OpKind.effect] using (Opcode.opClass_cases op op.mem_all).2.2.1
  | counted family count => simp [OpKind.effect, Effect.isBranch]

theorem isJump_of_isBranch (h : i.effect.isBranch = true) : i.isJump = true := by
  rw [isJump_iff]
  rw [effect] at h
  cases hkind : i.kind with
  | fixed op =>
    rw [hkind] at h
    exact .inr ((Opcode.opClass_cases op op.mem_all).2.2.2 h)
  | counted family count =>
    rw [hkind] at h
    cases h

end Instruction

namespace Segmentation

variable {is part : List Instruction} {i : Instruction} {text : String} {offset : Nat}
  {jumps : List Jump} {exit : Exit}

/-! ### Labels -/

/-- A label with a given text. -/
def IsLabel (text : String) (i : Instruction) : Prop :=
  i.isOp .label = true ∧ labelText i = text

theorem labelOffset?_eq_none : labelOffset? is text = none ↔ ∀ i ∈ is, ¬IsLabel text i := by
  simp [labelOffset?, IsLabel]

/-- The last definition of a label counts. -/
theorem labelOffset?_eq_some : labelOffset? is text = some offset ↔
    ∃ front label back, is = front ++ label :: back ∧ IsLabel text label ∧ label.offset = offset ∧
      ∀ i ∈ back, ¬IsLabel text i := by
  unfold labelOffset? IsLabel
  rw [Option.map_eq_some_iff]
  constructor
  · rintro ⟨label, hfind, rfl⟩
    obtain ⟨hlabel, as, bs, hreverse, hnone⟩ := List.find?_eq_some_iff_append.1 hfind
    refine ⟨bs.reverse, label, as.reverse, ?_, by simpa using hlabel, rfl, fun i hi => ?_⟩
    · simpa using congrArg List.reverse hreverse
    · simpa [imp_iff_not_or] using hnone i (by simpa using hi)
  · rintro ⟨front, label, back, rfl, hlabel, rfl, hnone⟩
    refine ⟨label, List.find?_eq_some_iff_append.2 ⟨by simpa using hlabel, back.reverse,
      front.reverse, by simp, fun i hi => ?_⟩, rfl⟩
    simpa [imp_iff_not_or] using hnone i (List.mem_reverse.1 hi)

theorem exists_label (h : labelOffset? is text = some offset) :
    ∃ label ∈ is, label.isOp .label = true ∧ label.offset = offset := by
  obtain ⟨front, label, back, rfl, hlabel, hoffset, -⟩ := labelOffset?_eq_some.1 h
  exact ⟨label, by simp, hlabel.1, hoffset⟩

/-! ### Jumps -/

/-- The jump of an instruction, if it is one and its label is defined. -/
def jump? (is : List Instruction) (i : Instruction) : Option Jump :=
  if i.isJump then (labelOffset? is (labelText i)).map (⟨i.offset, ·⟩) else none

/-- An instruction that jumps, to a label that is not defined. -/
def Unresolved (is : List Instruction) (i : Instruction) : Prop :=
  i.isJump = true ∧ ∀ label ∈ is, ¬IsLabel (labelText i) label

theorem jump?_eq_some {jump : Jump} : jump? is i = some jump ↔
    i.isJump = true ∧ labelOffset? is (labelText i) = some jump.target ∧
      i.offset = jump.source := by
  unfold jump?
  by_cases hjump : i.isJump = true
  · simp only [hjump, if_true, Option.map_eq_some_iff, true_and]
    constructor
    · rintro ⟨target, htarget, rfl⟩
      exact ⟨htarget, rfl⟩
    · rintro ⟨htarget, hsource⟩
      exact ⟨jump.target, htarget, by rw [hsource]⟩
  · simp [hjump]

theorem isSome_jump? (h : ¬Unresolved is i) : (jump? is i).isSome = i.isJump := by
  unfold jump?
  by_cases hjump : i.isJump = true
  · cases hlabel : labelOffset? is (labelText i) with
    | none => exact (h ⟨hjump, labelOffset?_eq_none.1 hlabel⟩).elim
    | some offset => simp [hjump]
  · simp [hjump]

theorem jumps?_cons_of_unresolved (h : Unresolved is i) (rest : List Instruction) :
    jumps? is (i :: rest) = .error (.unresolvedLabel (labelText i) i.offset) := by
  rw [jumps?, if_pos h.1, target?, labelOffset?_eq_none.2 h.2]
  rfl

theorem jumps?_cons_of_resolved (h : ¬Unresolved is i) (rest : List Instruction) :
    jumps? is (i :: rest) = (jumps? is rest).map ((jump? is i).toList ++ ·) := by
  rw [jumps?]
  by_cases hjump : i.isJump = true
  · rw [if_pos hjump]
    cases htarget : labelOffset? is (labelText i) with
    | none => exact (h ⟨hjump, labelOffset?_eq_none.1 htarget⟩).elim
    | some target =>
      rw [target?, htarget, jump?, if_pos hjump, htarget]
      cases jumps? is rest <;> rfl
  · rw [if_neg hjump, jump?, if_neg hjump]
    cases jumps? is rest <;> rfl

theorem jumps_of_jumps? (h : jumps? is part = .ok jumps) :
    (∀ i ∈ part, ¬Unresolved is i) ∧ jumps = part.filterMap (jump? is) := by
  induction part generalizing jumps with
  | nil => exact ⟨by simp, (Except.ok.inj h).symm⟩
  | cons i rest ih =>
    by_cases hunresolved : Unresolved is i
    · simp [jumps?_cons_of_unresolved hunresolved] at h
    · rw [jumps?_cons_of_resolved hunresolved] at h
      cases hrest : jumps? is rest with
      | error e =>
        rw [hrest] at h
        cases h
      | ok js =>
        rw [hrest] at h
        obtain ⟨hresolved, rfl⟩ := ih hrest
        refine ⟨by simpa [hunresolved] using hresolved, (Except.ok.inj h).symm.trans ?_⟩
        cases hi : jump? is i <;> simp [hi]

/-- The first jump without a label is reported. -/
theorem jumps?_eq_error {e : Error} : jumps? is part = .error e ↔
    ∃ front jump back, part = front ++ jump :: back ∧ (∀ i ∈ front, ¬Unresolved is i) ∧
      Unresolved is jump ∧ e = .unresolvedLabel (labelText jump) jump.offset := by
  induction part generalizing e with
  | nil => simp [jumps?]
  | cons i rest ih =>
    by_cases hunresolved : Unresolved is i
    · rw [jumps?_cons_of_unresolved hunresolved]
      constructor
      · rintro ⟨rfl⟩
        exact ⟨[], i, rest, rfl, by simp, hunresolved, rfl⟩
      · rintro ⟨front, jump, back, hpart, hfront, -, rfl⟩
        cases front with
        | nil =>
          obtain ⟨rfl, -⟩ := List.cons.inj hpart
          rfl
        | cons j front =>
          obtain ⟨rfl, -⟩ := List.cons.inj hpart
          exact (hfront i (by simp) hunresolved).elim
    · rw [jumps?_cons_of_resolved hunresolved]
      have hmap : (jumps? is rest).map ((jump? is i).toList ++ ·) = .error e ↔
          jumps? is rest = .error e := by
        cases jumps? is rest <;> simp [Except.map]
      rw [hmap, ih]
      constructor
      · rintro ⟨front, jump, back, rfl, hfront, hjump⟩
        exact ⟨i :: front, jump, back, rfl, by simpa [hunresolved] using hfront, hjump⟩
      · rintro ⟨front, jump, back, hpart, hfront, hjump, he⟩
        cases front with
        | nil =>
          obtain ⟨rfl, -⟩ := List.cons.inj hpart
          exact (hunresolved hjump).elim
        | cons j front =>
          obtain ⟨-, rfl⟩ := List.cons.inj hpart
          exact ⟨front, jump, back, rfl, fun i hi => hfront i (List.mem_cons_of_mem _ hi), hjump,
            he⟩

/-! ### Exits -/

theorem exit?_isSome (is : List Instruction) :
    (exit? is i).isSome = true ↔ i.isJump = true ∨ i.isOp .ret = true := by
  rw [Instruction.isJump_iff, ← Instruction.opClass_eq_noFollow, exit?]
  cases i.kind.opClass <;> simp

/-- The next instruction may run, unless control leaves for good. -/
theorem fallsThrough_exit? : ((exit? is i).getD .next).fallsThrough = true ↔
    i.isOp .goto = false ∧ i.isOp .ret = false := by
  rw [← Bool.not_eq_true, ← Bool.not_eq_true, ← Instruction.opClass_eq_jump,
    ← Instruction.opClass_eq_noFollow, exit?]
  cases i.kind.opClass <;> simp [Exit.fallsThrough]

/-- A block is left for the target of its last instruction. -/
theorem target?_exit? (h : ¬Unresolved is i) : ((exit? is i).getD .next).target? = some offset ↔
    i.isJump = true ∧ labelOffset? is (labelText i) = some offset := by
  have htarget : i.isJump = true → ((labelOffset? is (labelText i)).getD 0 = offset ↔
      labelOffset? is (labelText i) = some offset) := by
    intro hjump
    cases hlabel : labelOffset? is (labelText i) with
    | none => exact (h ⟨hjump, labelOffset?_eq_none.1 hlabel⟩).elim
    | some target => simp
  rw [Instruction.isJump_iff] at htarget ⊢
  rw [exit?]
  cases hclass : i.kind.opClass <;> simp_all [Exit.target?]

/-! ### Segmentations -/

theorem ofInstructions_eq_ok {s : Segmentation} (h : ofInstructions is = .ok s) :
    jumps? is is = .ok s.jumps ∧ s.instructions = is ∧
      s.blocks = endLast (cut is (s.jumps.map (·.target)) [] ((is.head?.map (·.offset)).getD 0) none
        is) := by
  unfold ofInstructions at h
  cases hjumps : jumps? is is with
  | error e =>
    rw [hjumps] at h
    cases h
  | ok jumps =>
    rw [hjumps] at h
    cases h
    exact ⟨rfl, rfl, rfl⟩

theorem ofInstructions_eq_error {e : Error} :
    ofInstructions is = .error e ↔ jumps? is is = .error e := by
  unfold ofInstructions
  cases jumps? is is with
  | error e' =>
    constructor
    · rintro ⟨rfl⟩
      rfl
    · rintro ⟨rfl⟩
      rfl
  | ok jumps => constructor <;> rintro ⟨⟩

/-- The jumps of a segmentation are those of its instructions, and all of them are resolved. -/
theorem jumps_eq {s : Segmentation} (h : ofInstructions is = .ok s) :
    (∀ i ∈ is, ¬Unresolved is i) ∧ s.jumps = is.filterMap (jump? is) :=
  jumps_of_jumps? (ofInstructions_eq_ok h).1

theorem mem_targets {s : Segmentation} (h : ofInstructions is = .ok s) :
    offset ∈ s.jumps.map (·.target) ↔
      ∃ i ∈ is, i.isJump = true ∧ labelOffset? is (labelText i) = some offset := by
  rw [(jumps_eq h).2]
  simp only [List.mem_map, List.mem_filterMap, jump?_eq_some]
  constructor
  · rintro ⟨jump, ⟨i, hi, hjump, htarget, -⟩, rfl⟩
    exact ⟨i, hi, hjump, htarget⟩
  · rintro ⟨i, hi, hjump, htarget⟩
    exact ⟨⟨i.offset, offset⟩, ⟨i, hi, hjump, htarget, rfl⟩, rfl⟩

end Segmentation

end ElispLift
