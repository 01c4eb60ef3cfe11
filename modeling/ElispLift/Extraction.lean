import ElispLift.Chart
import ElispLift.Context

/-!
# Trees from a chart

For a span that the chart covers, the rules are tried in order, and for each symbol of a rule the
longest span first. A span that is being built is not built again inside itself, and the outcome of
a span is kept for the rest of the search. Each attempt at a rule has a budget.
-/

namespace ElispLift

/-- The instructions from `first` up to `last`, to be read as `kind`. -/
structure Span where
  kind : Nonterminal
  first : Nat
  last : Nat
deriving DecidableEq, Repr

instance : Ord Span :=
  ⟨compareLex (compareOn Span.first) (compareLex (compareOn Span.last)
    (compareOn fun s => s.kind.index))⟩

namespace Extraction

/-- Steps and complete splits of one attempt at a rule. -/
structure Budget where
  steps : Nat
  candidates : Nat

namespace Budget

def maxSteps : Nat := 4096

def maxCandidates : Nat := 64

def isExhausted (b : Budget) : Bool := b.steps > maxSteps || b.candidates ≥ maxCandidates

end Budget

/-- The outcomes so far, the last start of a span whose children were refused, and whether a budget
ran out. -/
structure Memory where
  known : Std.TreeMap Span (Option Node)
  rejectedAt : Option Nat
  exhausted : Bool

def Memory.start : Memory := ⟨{}, none, false⟩

/-- A search that remembers, and that may have been given too few levels. -/
abbrev Search := StateT Memory Option

/-- A search within a budget. -/
abbrev Attempt := StateT Budget Search

/-- The first outcome among the candidates. -/
def firstOf {α : Type} (f : Nat → Attempt (Option α)) : List Nat → Attempt (Option α)
  | [] => return none
  | a :: as => do
    match ← f a with
    | some found => return some found
    | none => firstOf f as

/-- What a search reads. -/
structure Input where
  grammar : Grammar
  context : Context
  ends : Ends

variable (input : Input)

/-- Where a nonterminal may end, in the order in which ends are tried. A last symbol has to end with
its rule. -/
def endsFor (kind : Nonterminal) (isLast : Bool) (pos last : Nat) : List Nat :=
  let ends := (input.ends.of kind pos).filter (· ≤ last)
  let ends := if input.grammar.isNullable kind && !ends.contains pos then ends ++ [pos] else ends
  if isLast then ends.filter (· == last) else ends

/-- Remember where children were refused. -/
def reject (first : Nat) : Attempt Unit :=
  modifyThe Memory fun m =>
    { m with rejectedAt := some (match m.rejectedAt with | none => first | some r => max r first) }

/-- Take the children of all symbols, if the rule's nonterminal may have them. -/
def accept (lhs : Nonterminal) (first pos last : Nat) (children : List Node) :
    Attempt (Option (List Node)) := do
  if pos != last then return none
  modifyThe Budget fun b => { b with candidates := b.candidates + 1 }
  if input.context.allowsChildren lhs children last then return some children
  reject first
  return none

/-- Give each symbol of `symbols` a span from `pos` on, after the children built so far. -/
def split (build : Span → Search (Option Node)) (lhs : Nonterminal) (first last : Nat) :
    (symbols : List Symbol) → (pos : Nat) → (children : List Node) →
      Attempt (Option (List Node))
  | symbols, pos, children => do
    modifyThe Budget fun b => { b with steps := b.steps + 1 }
    if (← getThe Budget).isExhausted then return none
    match symbols with
    | [] => accept input lhs first pos last children
    | .terminal kind :: rest =>
      match input.context.tokens[pos]? with
      | some token =>
        if pos < last && token.kind = kind then
          split build lhs first last rest (pos + 1) (children ++ [.token token])
        else return none
      | none => return none
    | .word _ :: _ => return none
    | .nonterminal kind :: rest =>
      firstOf (fun stop => do
        match ← build ⟨kind, pos, stop⟩ with
        | some node => split build lhs first last rest stop (children ++ [node])
        | none => return none) (endsFor input kind rest.isEmpty pos last)

/-- The node of a rule with its children. A list of items takes one more item at its end. -/
def node (r : Rule) (children : List Node) : Node :=
  if r.lhs.isCollected && r.isAppend then
    match children with
    | .tree _ items _ :: rest => .plain r.lhs (items ++ rest)
    | _ => .plain r.lhs children
  else .plain r.lhs children

/-- Try rules in turn, each with a budget of its own. -/
def tryRules (build : Span → Search (Option Node)) (span : Span) :
    (rules : List Rule) → Search (Option Node)
  | [] => return none
  | r :: rules => do
    let (children, budget) ←
      (split input build r.lhs span.first span.last r.rhs span.first []).run ⟨0, 0⟩
    match children with
    | some children => return some (node r children)
    | none =>
      if budget.isExhausted then modify fun m => { m with exhausted := true }
      tryRules build span rules

/-- Build a span, while the spans in `active` are being built around it, with `levels` more levels
of nested spans at most. -/
def build : (levels : Nat) → (active : List Span) → Span → Search (Option Node)
  | 0, _, _ => failure
  | levels + 1, active, span => do
    match (← getThe Memory).known[span]? with
    | some done => return done
    | none =>
      if active.contains span then return none
      let found ← tryRules input (build levels (span :: active)) span
        ((input.grammar.rulesFor span.kind).map (·.rule))
      modifyThe Memory fun m => { m with known := m.known.insert span found }
      return found

/-- More levels than there are spans: no span is active twice, so they are never used up. -/
def maxLevels : Nat :=
  let positions := input.context.tokens.size + 1
  Nonterminal.all.length * (positions * positions) + 1

/-- The tree of a span, and what was remembered in the end. -/
def run (span : Span) : Option Node × Memory :=
  match (build input (maxLevels input) [] span).run .start with
  | some result => result
  | none => (none, .start)

end Extraction

end ElispLift
