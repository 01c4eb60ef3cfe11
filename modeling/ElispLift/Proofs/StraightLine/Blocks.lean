import ElispLift.Blocks.Annotation
import ElispLift.Proofs.StraightLine.Operations

/-!
# Code in one block

Code without jumps that returns at its end is a single block. If every instruction finds what it
takes from the stack, nothing is put among the instructions.
-/

namespace ElispLift.StraightLine

open Segmentation

variable {code is rest : List Instruction} {ret i : Instruction} {pos depth : Nat} {s s' : State}

/-! ### Blocks -/

/-- The instruction does not leave its block. -/
def Stays (i : Instruction) : Prop :=
  i.kind.opClass ≠ .jump ∧ i.kind.opClass ≠ .jumpCond ∧ i.kind.opClass ≠ .noFollow

theorem stays_of_operation : ∀ o ∈ Opcode.all, (operation? (.fixed o)).isSome = true →
    o.opClass ≠ .jump ∧ o.opClass ≠ .jumpCond ∧ o.opClass ≠ .noFollow := by
  decide

theorem Step.stays (h : Step pos i s s') : Stays i := by
  unfold Stays
  cases h with
  | value hop =>
    cases hkind : i.kind with
    | fixed o =>
      rw [hkind] at hop
      exact stays_of_operation o (Opcode.mem_all o) (by rw [hop]; rfl)
    | counted family count => simp [OpKind.opClass]
  | statement hnode =>
    unfold statement? at hnode
    split at hnode
    next hkind => rw [hkind]; decide
    next hkind => rw [hkind]; decide
    next => cases hnode

theorem Run.stays (h : Run pos is s s') : ∀ i ∈ is, Stays i := by
  induction h with
  | nil => simp
  | cons hstep _ ih => exact List.forall_mem_cons.2 ⟨hstep.stays, ih⟩

theorem jumps_eq_nil (all : List Instruction) (h : ∀ i ∈ is, i.isJump = false) :
    jumps? all is = .ok [] := by
  induction is with
  | nil => rfl
  | cons i is ih =>
    rw [jumps?, h i (by simp)]
    exact ih fun j hj => h j (List.mem_cons_of_mem _ hj)

/-- Code without a jump or a return stays in the open block. -/
theorem cut_append (all : List Instruction) (start : Nat) (last? : Option Nat)
    (h : ∀ i ∈ is, exit? all i = none) (rest : List Instruction) :
    ∃ last', cut all [] [] start last? (is ++ rest) = cut all [] [] start last' rest := by
  induction is generalizing last? with
  | nil => exact ⟨last?, rfl⟩
  | cons i is ih =>
    obtain ⟨last', hrest⟩ := ih (some i.offset) fun j hj => h j (List.mem_cons_of_mem _ hj)
    refine ⟨last', ?_⟩
    rw [List.cons_append, cut.eq_def, ← hrest]
    cases last? <;> simp [h i]

/-- Code that returns at its end is one block without jumps. -/
theorem ofInstructions_of_stays (hstays : ∀ i ∈ code, Stays i) (hret : ret.kind = .fixed .ret) :
    ∃ seg, ofInstructions (code ++ [ret]) = .ok seg ∧ seg.instructions = code ++ [ret] ∧
      seg.jumps = [] ∧ ∀ offset, seg.startsBlock offset = true →
        (code ++ [ret]).head?.map (·.offset) = some offset := by
  have hjumps : jumps? (code ++ [ret]) (code ++ [ret]) = .ok [] := by
    refine jumps_eq_nil _ fun i hi => ?_
    rcases List.mem_append.1 hi with hi | hi
    · obtain ⟨hjump, hcond, -⟩ := hstays i hi
      simp [Instruction.isJump, OpKind.isJump, hjump, hcond]
    · obtain rfl := List.mem_singleton.1 hi
      rw [Instruction.isJump, hret]
      rfl
  have hexit : ∀ i ∈ code, exit? (code ++ [ret]) i = none := by
    intro i hi
    obtain ⟨hjump, hcond, hnoFollow⟩ := hstays i hi
    unfold exit?
    dsimp only
    split <;> first | contradiction | rfl
  have hlast : exit? (code ++ [ret]) ret = some .ret := by rw [exit?, hret]; rfl
  obtain ⟨last', hcut⟩ := cut_append (code ++ [ret]) (((code ++ [ret]).head?.map (·.offset)).getD 0)
    none hexit [ret]
  have hblock : ∃ b, cut (code ++ [ret]) [] [] (((code ++ [ret]).head?.map (·.offset)).getD 0) none
      (code ++ [ret]) = [b] ∧ b.start = ((code ++ [ret]).head?.map (·.offset)).getD 0 := by
    rw [hcut, cut.eq_def]
    cases last' <;> simp [hlast, cut, block]
  obtain ⟨b, hb, hstart⟩ := hblock
  refine ⟨⟨code ++ [ret], [], [{ b with follow := none }]⟩, ?_, rfl, rfl, fun offset hoffset => ?_⟩
  · rw [ofInstructions, hjumps]
    change Except.ok (Segmentation.mk _ _ (endLast (cut _ [] [] _ none _))) = _
    rw [hb]
    rfl
  · have hoffset : b.start = offset := by simpa [startsBlock] using hoffset
    rw [← hoffset, hstart]
    cases code <;> rfl

/-! ### Markers -/

/-- Each instruction takes no more values than those before it left, `depth` at first. -/
def Feeds : (depth : Nat) → List Instruction → Prop
  | _, [] => True
  | depth, i :: rest => ∃ pops pushes, i.effect = .fixed pops pushes ∧ pops ≤ depth ∧
      Feeds (depth - pops + pushes) rest

theorem Run.feeds (h : Run pos is s s') (hrest : Feeds s'.pending.length rest) :
    Feeds s.pending.length (is ++ rest) := by
  induction h with
  | nil => exact hrest
  | cons hstep _ ih =>
    obtain ⟨pops, pushes, heffect, hpops, hheight⟩ := hstep.effect_eq
    exact ⟨pops, pushes, heffect, hpops, hheight ▸ ih hrest⟩

theorem feeds_return (hret : ret.kind = .fixed .ret) : Feeds 1 [ret] :=
  ⟨1, 0, by rw [Instruction.effect, hret]; rfl, Nat.le_refl 1, trivial⟩

/-- An instruction that finds its operands needs no marker. -/
theorem annotateFrom_cons {seg : Segmentation} {last? : Option Nat} {pops pushes : Nat}
    (hjumps : seg.jumps = []) (hdepth : seg.startsBlock i.offset = true → depth = 0)
    (heffect : i.effect = .fixed pops pushes) (hpops : pops ≤ depth) :
    seg.annotateFrom last? depth (i :: rest) =
      i :: seg.annotateFrom (some i.offset) (depth - pops + pushes) rest := by
  have harrivals : seg.arrivals i.offset = [] := by
    simp [arrivals, sources, hjumps, Sorted.descending, Sorted.sort]
  have hsame : (if seg.startsBlock i.offset then 0 else depth) = depth := by
    split
    next hstarts => exact (hdepth hstarts).symm
    next => rfl
  rw [annotateFrom, harrivals]
  dsimp only
  rw [hsame, access, heffect]
  simp [Nat.sub_eq_zero_of_le hpops, accesses]

theorem annotateFrom_of_feeds {seg : Segmentation} (hjumps : seg.jumps = [])
    (hstarts : ∀ i ∈ is, seg.startsBlock i.offset = false) (h : Feeds depth is)
    (last? : Option Nat) : seg.annotateFrom last? depth is = is := by
  induction is generalizing depth last? with
  | nil => rfl
  | cons i is ih =>
    obtain ⟨pops, pushes, heffect, hpops, hrest⟩ := h
    rw [annotateFrom_cons hjumps (by simp [hstarts i]) heffect hpops,
      ih (fun j hj => hstarts j (List.mem_cons_of_mem _ hj)) hrest]

/-- Code that finds all its values needs no markers. -/
theorem annotated_of_feeds (hstays : ∀ i ∈ code, Stays i) (hret : ret.kind = .fixed .ret)
    (hfeeds : Feeds 0 (code ++ [ret]))
    (hoffsets : (code ++ [ret]).Pairwise fun i j => i.offset < j.offset) :
    ∃ seg, ofInstructions (code ++ [ret]) = .ok seg ∧ seg.annotated = code ++ [ret] := by
  obtain ⟨seg, hseg, hinstructions, hjumps, hstarts⟩ := ofInstructions_of_stays hstays hret
  refine ⟨seg, hseg, ?_⟩
  rw [annotated, hinstructions]
  generalize code ++ [ret] = is at hfeeds hoffsets hstarts
  cases is with
  | nil => rfl
  | cons i rest =>
    obtain ⟨pops, pushes, heffect, hpops, hrest⟩ := hfeeds
    obtain ⟨hlater, -⟩ := List.pairwise_cons.1 hoffsets
    have hinside : ∀ j ∈ rest, seg.startsBlock j.offset = false := by
      intro j hj
      refine Bool.eq_false_iff.2 fun hstart => ?_
      have hsame : i.offset = j.offset := Option.some.inj (hstarts j.offset hstart)
      exact absurd hsame (Nat.ne_of_lt (hlater j hj))
    rw [annotateFrom_cons hjumps (fun _ => rfl) heffect hpops,
      annotateFrom_of_feeds hjumps hinside hrest]

end ElispLift.StraightLine
