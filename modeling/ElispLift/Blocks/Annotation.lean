import ElispLift.Blocks.Segmentation

/-!
# Markers for control flow and outer values

Parsing needs two things said among the instructions: where a jump arrives, and where an instruction
takes a value that its own block did not push. Every block is taken to start with an empty stack.
-/

namespace ElispLift.Segmentation

def comeFrom (source target : Nat) : Instruction :=
  .ofOpcode .comeFrom (some (.int source)) target

def stackAccess (reach offset : Nat) : Instruction :=
  .ofOpcode .stackAccess (some (.int reach)) offset

/-- A marker for each jump to an offset, from the last source to the first. -/
def arrivals (s : Segmentation) (offset : Nat) : List Instruction :=
  (Sorted.descending (s.sources offset)).map (comeFrom · offset)

/-- Markers for `n` values from outside, the deepest first. -/
def accesses (offset : Nat) : Nat → List Instruction
  | 0 => []
  | n + 1 => stackAccess (n + 1) offset :: accesses offset n

/-- The markers that an instruction needs when its block has pushed `depth` values, and the values
of the block after it. Branches leave the count as it is. -/
def access (depth : Nat) (i : Instruction) : List Instruction × Nat :=
  match i.effect with
  | .fixed pops pushes => (accesses i.offset (pops - depth), depth - pops + pushes)
  | .branch _ _ => ([], depth)

/-- Put the markers among the instructions in `part`, where the one before stood at `last?`. -/
def annotateFrom (s : Segmentation) (last? : Option Nat) (depth : Nat) :
    (part : List Instruction) → List Instruction
  | [] => []
  | i :: rest =>
    let arriving := if last? = some i.offset then [] else s.arrivals i.offset
    let depth := if s.startsBlock i.offset then 0 else depth
    let (accessing, depth) := access depth i
    arriving ++ accessing ++ i :: s.annotateFrom (some i.offset) depth rest

/-- The instructions with all markers. -/
def annotated (s : Segmentation) : List Instruction := s.annotateFrom none 0 s.instructions

end ElispLift.Segmentation
