import ElispLift.Error
import ElispLift.Extraction
import ElispLift.Grammar.Arity

/-!
# Parsing instructions

A list of instructions is read as a syntax tree of a start nonterminal, or the instruction is named
at which that failed, among its neighbours.
-/

namespace ElispLift

namespace ParseFailure

/-- Whether there is an instruction number `n`, and it is no label. -/
def goesOn (tokens : Array Instruction) (n : Nat) : Bool :=
  (tokens[n]?.map fun t => !t.isOp .label).getD false

/-- Go back from instruction number `n` to a label, for at most `steps` instructions. -/
def contextStart (tokens : Array Instruction) : (steps n : Nat) → Nat
  | 0, n => n
  | _, 0 => 0
  | steps + 1, n + 1 => if goesOn tokens (n + 1) then contextStart tokens steps n else n + 1

/-- Go on from instruction number `n` to before a label, for at most `steps` instructions. -/
def contextStop (tokens : Array Instruction) : (steps n : Nat) → Nat
  | 0, n => n
  | steps + 1, n => if goesOn tokens n then contextStop tokens steps (n + 1) else n

/-- Ten instructions before the one that failed and nine after it are shown, but nothing from beyond
a label. -/
def near (tokens : Array Instruction) (n : Nat) : ParseFailure :=
  match tokens[n]? with
  | none => ⟨"<end>", 0, []⟩
  | some token =>
    let start := contextStart tokens 10 n
    let stop := contextStop tokens 9 (n + 1)
    let lines := (tokens.extract start stop).toList.mapIdx fun k t =>
      (if start + k = n then "-> " else "   ") ++ t.toText
    ⟨token.name, token.offset, lines⟩

end ParseFailure

namespace Grammar

def chartOf (g : Grammar) (context : Context) (start : Nonterminal) : Chart :=
  g.chart context.allowsSpan start (context.tokens.toList.map (·.kind))

/-- The syntax tree that is found first. -/
def parse (g : Grammar) (start : Nonterminal) (tokens : List Instruction) :
    Except ParseFailure Node :=
  let context : Context := ⟨tokens.toArray⟩
  let size := tokens.length
  let chart := g.chartOf context start
  if chart.covers start 0 size then
    match Extraction.run ⟨g, context, chart.ends⟩ ⟨start, 0, size⟩ with
    | (some tree, _) => .ok tree
    | (none, memory) => .error (.near context.tokens (memory.rejectedAt.getD (size - 1)))
  else .error (.near context.tokens (min chart.furthest (size - 1)))

end Grammar

namespace Node

/-- The offsets of the first and last instruction covered. -/
def range (node : Node) : String :=
  match node.tokens.head?, node.tokens.getLast? with
  | some first, some last => toString first.offset ++ "-" ++ toString last.offset
  | _, _ => "empty"

mutual

/-- The nodes of a tree as uses of rules, children before parents. -/
def reductions : Node → List String
  | token _ => []
  | tree kind children idiom =>
    reductionsOf children ++
      [Text.padStart 9 (tree kind children idiom).range ++ " " ++ kind.name ++ " ::= " ++
        " ".intercalate (children.map name)]

def reductionsOf : List Node → List String
  | [] => []
  | node :: rest => node.reductions ++ reductionsOf rest

end

end Node

/-- Parse by the base rules, more rules, and the rules that the instructions need. -/
def parse (start : Nonterminal) (extra : List Rule) (tokens : List Instruction) :
    Except Error Node :=
  match (Grammar.withExtra extra).parse start tokens with
  | .ok tree => .ok tree
  | .error failure => .error (.noParse failure)

/-- Parse from the name of a start nonterminal. -/
def parseFrom (startName : String) (extra : List Rule) (tokens : List Instruction) :
    Except Error Node :=
  match Nonterminal.ofName? startName with
  | some start => parse start extra tokens
  | none => .error (.unknownStart startName)

end ElispLift
