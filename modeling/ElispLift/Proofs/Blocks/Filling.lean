import ElispLift.Proofs.Blocks.Flow

/-!
# Blocks and edges, as they are filled

A builder has a set of flags and a set of targets for the open block. The last instruction of the
block adds to them, and the block takes them when it is closed. The sets of predecessors are filled
from the successors, block after block. The blocks and the graph are the same.
-/

namespace ElispLift

/-- A block with the sets that were filled for it. -/
structure FilledBlock where
  start : Nat
  stop : Nat
  follow : Option Nat
  flags : List BlockFlag
  targets : List Nat
  effect : BlockEffect

def Block.filled (b : Block) : FilledBlock :=
  ⟨b.start, b.stop, b.follow, b.flags, b.exit.target?.toList, b.effect⟩

/-- The closed blocks, and the sets of the open one. -/
structure BlockBuilder where
  blocks : List FilledBlock
  flags : List BlockFlag
  targets : List Nat

namespace BlockBuilder

open Segmentation

/-- The first block is the entry. -/
def empty : BlockBuilder := ⟨[], [.entry], []⟩

/-- The open block takes the sets, and the next one starts with empty ones. -/
def close (is : List Instruction) (b : BlockBuilder) (start stop : Nat) (follow : Option Nat) :
    BlockBuilder where
  blocks := b.blocks ++ [⟨start, stop, follow, b.flags, b.targets,
    .replay 0 (is.filter fun i => start ≤ i.offset && i.offset ≤ stop)⟩]
  flags := []
  targets := []

/-- What an instruction that ends the open block adds to its sets. -/
def leave? (is : List Instruction) (b : BlockBuilder) (i : Instruction) : Option BlockBuilder :=
  let target := (labelOffset? is (labelText i)).getD 0
  match i.kind.opClass with
  | .jump => some ⟨b.blocks, b.flags ++ [.unconditionalJump], b.targets ++ [target]⟩
  | .jumpCond => some ⟨b.blocks, b.flags, b.targets ++ [target]⟩
  | .noFollow => some ⟨b.blocks, b.flags ++ [.noFollow], b.targets⟩
  | _ => none

/-- Close the open block in front of an instruction that a jump leads to, unless it starts there. -/
def enter (is : List Instruction) (targets : List Nat) (b : BlockBuilder) (start : Nat)
    (last? : Option Nat) (offset : Nat) : BlockBuilder × Nat :=
  match last? with
  | some last =>
    if targets.contains offset && start < offset then
      (b.close is start last (some offset), offset)
    else (b, start)
  | none => (b, start)

/-- Fill blocks with the instructions in `part`. The open block starts at `start`, and its last
instruction so far is at `last?`. -/
def run (is : List Instruction) (targets : List Nat) (b : BlockBuilder) (start : Nat)
    (last? : Option Nat) : (part : List Instruction) → BlockBuilder
  | [] =>
    match last? with
    | some last => b.close is start last none
    | none => b
  | i :: rest =>
    let (b, start) := b.enter is targets start last? i.offset
    match b.leave? is i with
    | some left =>
      let follow := (rest.head?.map (·.offset)).getD (i.offset + 1)
      run is targets (left.close is start i.offset (some follow)) follow none rest
    | none => run is targets b start (some i.offset) rest

/-- Nothing follows the last block. -/
def endLast : List FilledBlock → List FilledBlock
  | [] => []
  | [b] => [{ b with follow := none }]
  | b :: bs => b :: endLast bs

/-- The builder when the blocks `before` are closed. -/
def behind (before : List Block) : BlockBuilder :=
  ⟨before.map Block.filled, if before.isEmpty then [.entry] else [], []⟩

variable {is : List Instruction} {targets : List Nat} {before : List Block}

theorem close_behind (start stop : Nat) (follow : Option Nat) :
    (behind before).close is start stop follow =
      behind (before ++ [block is before start stop follow .next]) := by
  simp [behind, close, Block.filled, Block.flags, block, Exit.target?]

theorem enter_behind (start : Nat) (last? : Option Nat) (offset : Nat) :
    (behind before).enter is targets start last? offset =
      (behind (closeBefore is targets before start last? offset).1,
        (closeBefore is targets before start last? offset).2) := by
  unfold enter closeBefore
  cases last? with
  | none => rfl
  | some last =>
    dsimp only
    split
    · rw [close_behind]
    · rfl

/-- The sets of a block say how control leaves it. -/
theorem leave?_behind (is : List Instruction) (before : List Block) (i : Instruction) :
    (leave? is (behind before) i = none ∧ exit? is i = none) ∨
      ∃ left exit, leave? is (behind before) i = some left ∧ exit? is i = some exit ∧
        ∀ start stop follow, left.close is start stop follow =
          behind (before ++ [block is before start stop follow exit]) := by
  unfold leave? exit?
  cases i.kind.opClass
  case jump | jumpCond | noFollow =>
    exact .inr ⟨_, _, rfl, rfl, fun _ _ _ => by
      simp [behind, close, Block.filled, Block.flags, block, Exit.target?]⟩
  all_goals exact .inl ⟨rfl, rfl⟩

/-- The builder and the cut close the same blocks. -/
theorem run_behind (start : Nat) (last? : Option Nat) (part : List Instruction) :
    (behind before).run is targets start last? part =
      behind (cut is targets before start last? part) := by
  induction part generalizing before start last? with
  | nil =>
    cases last? with
    | none => rfl
    | some last => exact close_behind start last none
  | cons i rest ih =>
    obtain ⟨before', start', henter⟩ : ∃ before' start',
        closeBefore is targets before start last? i.offset = (before', start') := ⟨_, _, rfl⟩
    rw [cut_cons last? henter, run, enter_behind, henter]
    rcases leave?_behind is before' i with
      ⟨hleft, hexit⟩ | ⟨left, exit, hleft, hexit, hclose⟩
    · simp only [hleft, hexit, ih]
    · simp only [hleft, hexit, hclose, ih]

theorem endLast_map (blocks : List Block) :
    endLast (blocks.map Block.filled) = (Segmentation.endLast blocks).map Block.filled := by
  induction blocks with
  | nil => rfl
  | cons b bs ih =>
    cases bs with
    | nil => rfl
    | cons c cs => exact congrArg (b.filled :: ·) ih

/-- The blocks of a segmentation are those that the builder fills. -/
theorem filled_of_instructions {s : Segmentation} (hs : ofInstructions is = .ok s) :
    s.blocks.map Block.filled = endLast (run is (s.jumps.map (·.target)) empty
      ((is.head?.map (·.offset)).getD 0) none is).blocks := by
  rw [(ofInstructions_eq_ok hs).2.2, ← endLast_map]
  have hrun : ∀ targets start, (behind []).run is targets start none is =
      behind (cut is targets [] start none is) := fun _ start => run_behind start none is
  change _ = endLast (run is _ (behind []) _ none is).blocks
  rw [hrun]
  rfl

end BlockBuilder

namespace Segmentation

/-- Put a number into a set in ascending order. -/
def addTo (set : List Nat) (m : Nat) : List Nat :=
  if set.contains m then set else Sorted.insert (· ≤ ·) m set

/-- Put the block `m` into the sets of the blocks that may run after it. -/
def fillPredecessors (s : Segmentation) (sets : List (List Nat)) (m : Nat) : List (List Nat) :=
  (s.successors m).foldl (fun sets n => sets.modify n (addTo · m)) sets

theorem addTo_of_lt {set : List Nat} {m : Nat} (h : ∀ n ∈ set, n < m) :
    addTo set m = set ++ [m] := by
  have hinsert : Sorted.insert (· ≤ ·) m set = set ++ [m] := by
    induction set with
    | nil => rfl
    | cons n set ih =>
      have hn := h n (List.mem_cons_self ..)
      simp [Sorted.insert, Nat.not_le.2 hn, ih fun k hk => h k (List.mem_cons_of_mem _ hk)]
  have hnew : m ∉ set := fun hm => Nat.lt_irrefl m (h m hm)
  simp [addTo, hnew, hinsert]

theorem addTo_addTo (set : List Nat) (m : Nat) : addTo (addTo set m) m = addTo set m := by
  have hmem : m ∈ addTo set m := by
    unfold addTo
    split
    next h => exact List.contains_iff_mem.1 h
    next => exact Sorted.mem_insert.2 (.inl rfl)
  generalize addTo set m = set' at hmem
  simp [addTo, hmem]

theorem getElem?_fillPredecessors (s : Segmentation) (sets : List (List Nat)) (m k : Nat) :
    (s.fillPredecessors sets m)[k]? =
      sets[k]?.map fun set => if k ∈ s.successors m then addTo set m else set := by
  unfold fillPredecessors
  generalize s.successors m = next
  induction next generalizing sets with
  | nil => simp
  | cons n next ih =>
    rw [List.foldl_cons, ih, List.getElem?_modify]
    by_cases hk : n = k
    · subst hk
      cases sets[n]? <;> simp [addTo_addTo]
    · cases sets[k]? <;> simp [hk, Ne.symm hk]

/-- Block after block, the sets that are filled come to be those of the predecessors. -/
theorem filled_predecessors (s : Segmentation) :
    (List.range s.blocks.length).foldl s.fillPredecessors (List.replicate s.blocks.length []) =
      (List.range s.blocks.length).map s.predecessors := by
  have hfilled : ∀ count k,
      ((List.range count).foldl s.fillPredecessors (List.replicate s.blocks.length []))[k]? =
        if k < s.blocks.length then
          some ((List.range count).filter fun m => (s.successors m).contains k)
        else none := by
    intro count
    induction count with
    | zero => simp [List.getElem?_replicate]
    | succ count ih =>
      intro k
      have hbelow : ∀ n ∈ (List.range count).filter fun m => (s.successors m).contains k,
          n < count := fun n hn => List.mem_range.1 (List.mem_filter.1 hn).1
      rw [List.range_succ, List.foldl_concat, getElem?_fillPredecessors, ih, List.filter_append]
      by_cases hk : k < s.blocks.length
      · by_cases hmem : k ∈ s.successors count
        · simpa [hk, hmem] using addTo_of_lt hbelow
        · simp [hk, hmem]
      · simp [hk]
  refine List.ext_getElem? fun k => ?_
  rw [hfilled, List.getElem?_map]
  by_cases hk : k < s.blocks.length
  · simp [hk, predecessors]
  · simp [hk]

end Segmentation

end ElispLift
