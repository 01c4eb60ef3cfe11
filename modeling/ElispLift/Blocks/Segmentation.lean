import ElispLift.Error
import ElispLift.Instruction
import ElispLift.Sorted

/-!
# Basic blocks

Instructions are cut into blocks behind every jump and return, and in front of every offset that a
jump leads to. The blocks form a graph: a block is followed by the block at its jump's target and,
unless it ends in an unconditional jump or a return, by the next block.
-/

namespace ElispLift

/-- How a block ends: it runs into the next block, or in a jump or a return. -/
inductive Exit where
  | next
  | branch (target : Nat)
  | goto (target : Nat)
  | ret
deriving DecidableEq, Repr

namespace Exit

def target? : Exit → Option Nat
  | branch target => some target
  | goto target => some target
  | _ => none

/-- Whether the next instruction may run after the last of the block. -/
def fallsThrough : Exit → Bool
  | next | branch _ => true
  | goto _ | ret => false

end Exit

/-- The change of the stack's height over a block. A branch whose sides differ has a pair, for
falling through and for jumping. -/
inductive BlockEffect where
  | single (net : Int)
  | pair (fall taken : Int)
deriving DecidableEq, Repr

namespace BlockEffect

/-- Add up the declared effects, up to the first branch. -/
def replay (height : Int) : List Instruction → BlockEffect
  | [] => single height
  | i :: is =>
    match i.effect, i.effect.netTaken? with
    | e, some taken => pair (height + e.net) (height + taken)
    | e, none => replay (height + e.net) is

def toText : BlockEffect → String
  | single n => toString n
  | pair fall taken => "(" ++ toString fall ++ ", " ++ toString taken ++ ")"

end BlockEffect

inductive BlockFlag where
  | entry | unconditionalJump | noFollow
deriving DecidableEq, Repr

def BlockFlag.name : BlockFlag → String
  | entry => "Entry"
  | unconditionalJump => "UnconditionalJump"
  | noFollow => "NoFollow"

/-- The instructions from the offset `start` to the offset `stop`, and the offset that follows. -/
structure Block where
  start : Nat
  stop : Nat
  follow : Option Nat
  isEntry : Bool
  exit : Exit
  effect : BlockEffect
deriving DecidableEq, Repr

namespace Block

def contains (b : Block) (offset : Nat) : Bool := b.start ≤ offset && offset ≤ b.stop

def flags (b : Block) : List BlockFlag :=
  (if b.isEntry then [.entry] else []) ++
    match b.exit with
    | .goto _ => [.unconditionalJump]
    | .ret => [.noFollow]
    | _ => []

def toText (b : Block) : String :=
  let braced := fun (items : List String) => "\x7b" ++ ", ".intercalate items ++ "\x7d"
  let flags := match b.flags with
    | [] => ""
    | flags => ", flags=" ++ braced (flags.map BlockFlag.name)
  let follow := match b.follow with
    | some offset => toString offset
    | none => "None"
  let jumps := match b.exit.target? with
    | some target => ", jumps=" ++ braced [toString target]
    | none => ""
  "BasicBlock(range: (" ++ toString b.start ++ ", " ++ toString b.stop ++ ")" ++ flags ++
    ", follow_offset=" ++ follow ++ jumps ++ ", effect=" ++ b.effect.toText ++ ")"

instance : ToString Block := ⟨toText⟩

end Block

/-- A jump at the offset `source` to the offset `target`. -/
structure Jump where
  source : Nat
  target : Nat
deriving DecidableEq, Repr

/-- Instructions with their blocks and jumps. Jumps stand in the order of instructions. -/
structure Segmentation where
  instructions : List Instruction
  jumps : List Jump
  blocks : List Block

namespace Segmentation

/-- The text by which jumps and labels find each other. -/
def labelText (i : Instruction) : String := (i.operand.map Operand.toText).getD ""

/-- The offset of the last label with a given text. -/
def labelOffset? (is : List Instruction) (text : String) : Option Nat :=
  (is.reverse.find? fun i => i.isOp .label && labelText i == text).map (·.offset)

def target? (is : List Instruction) (jump : Instruction) : Except Error Nat :=
  match labelOffset? is (labelText jump) with
  | some offset => .ok offset
  | none => .error (.unresolvedLabel (labelText jump) jump.offset)

/-- The jumps of the instructions in `part`, with targets among those in `is`. -/
def jumps? (is : List Instruction) : (part : List Instruction) → Except Error (List Jump)
  | [] => .ok []
  | i :: rest =>
    if i.isJump then do
      let target ← target? is i
      return ⟨i.offset, target⟩ :: (← jumps? is rest)
    else jumps? is rest

/-- How control leaves an instruction, if that ends its block. -/
def exit? (is : List Instruction) (i : Instruction) : Option Exit :=
  let target := (labelOffset? is (labelText i)).getD 0
  match i.kind.opClass with
  | .jump => some (.goto target)
  | .jumpCond => some (.branch target)
  | .noFollow => some .ret
  | _ => none

/-- The block from `start` to `stop`, after the blocks `before`. -/
def block (is : List Instruction) (before : List Block) (start stop : Nat) (follow : Option Nat)
    (exit : Exit) : Block where
  start
  stop
  follow
  isEntry := before.isEmpty
  exit
  effect := .replay 0 (is.filter fun i => start ≤ i.offset && i.offset ≤ stop)

/-- Cut the instructions in `part`, after the blocks `before`. The open block starts at `start`, and
its last instruction so far is at `last?`. -/
def cut (is : List Instruction) (targets : List Nat) (before : List Block) (start : Nat)
    (last? : Option Nat) : (part : List Instruction) → List Block
  | [] =>
    match last? with
    | some last => before ++ [block is before start last none .next]
    | none => before
  | i :: rest =>
    let (before, start) := match last? with
      | some last =>
        if targets.contains i.offset && start < i.offset then
          (before ++ [block is before start last (some i.offset) .next], i.offset)
        else (before, start)
      | none => (before, start)
    match exit? is i with
    | some exit =>
      let follow := (rest.head?.map (·.offset)).getD (i.offset + 1)
      let closed := block is before start i.offset (some follow) exit
      cut is targets (before ++ [closed]) follow none rest
    | none => cut is targets before start (some i.offset) rest

/-- Nothing follows the last block. -/
def endLast : List Block → List Block
  | [] => []
  | [b] => [{ b with follow := none }]
  | b :: bs => b :: endLast bs

def ofInstructions (is : List Instruction) : Except Error Segmentation := do
  let jumps ← jumps? is is
  let start := (is.head?.map (·.offset)).getD 0
  return ⟨is, jumps, endLast (cut is (jumps.map (·.target)) [] start none is)⟩

/-- The last block that starts at an offset. -/
def blockAt? (s : Segmentation) (offset : Nat) : Option Nat :=
  ((s.blocks.zipIdx).reverse.find? fun (b, _) => b.start == offset).map (·.2)

def startsBlock (s : Segmentation) (offset : Nat) : Bool := s.blocks.any (·.start == offset)

/-- The starts of blocks in ascending order, with the blocks there. -/
def blockByStart (s : Segmentation) : List (Nat × Nat) :=
  (Sorted.ascending (s.blocks.map (·.start))).filterMap fun offset =>
    (s.blockAt? offset).map fun n => (offset, n)

/-- The offsets of the jumps to an offset, in the order of instructions. -/
def sources (s : Segmentation) (target : Nat) : List Nat :=
  (s.jumps.filter (·.target == target)).map (·.source)

/-- The targets of jumps in ascending order, with the jumps to them. -/
def jumpsToOffset (s : Segmentation) : List (Nat × List Nat) :=
  (Sorted.ascending (s.jumps.map (·.target))).map fun target => (target, s.sources target)

/-- The blocks that may run after block `n`. -/
def successors (s : Segmentation) (n : Nat) : List Nat :=
  match s.blocks[n]? with
  | none => []
  | some b =>
    let jumped := (b.exit.target?.bind s.blockAt?).toList
    let next := if b.exit.fallsThrough && n + 1 < s.blocks.length then [n + 1] else []
    Sorted.ascending (jumped ++ next)

/-- The blocks that block `n` may run after. -/
def predecessors (s : Segmentation) (n : Nat) : List Nat :=
  (List.range s.blocks.length).filter fun m => (s.successors m).contains n

theorem mem_predecessors {s : Segmentation} {m n : Nat} :
    m ∈ s.predecessors n ↔ m < s.blocks.length ∧ n ∈ s.successors m := by
  simp [predecessors]

/-- The blocks whose offsets include a given one. -/
def owners (s : Segmentation) (offset : Nat) : List Nat :=
  (s.blocks.zipIdx).filterMap fun (b, n) => if b.contains offset then some n else none

end Segmentation

end ElispLift
