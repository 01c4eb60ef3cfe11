import ElispLift.Grammar.Base

/-!
# Grammars

A list of rules made ready for parsing: each rule once, the rules of every nonterminal at hand, and
the nonterminals that derive the empty sequence.
-/

namespace ElispLift

namespace Grammar

/-- Add the left side of a rule whose right side holds only members of `known`. -/
def addNullable (known : List Nonterminal) (r : Rule) : List Nonterminal :=
  let empty := r.rhs.all fun s => match s with
    | .nonterminal k => known.contains k
    | _ => false
  if empty && !known.contains r.lhs then known ++ [r.lhs] else known

/-- Go through the rules until a round adds nothing, for at most `rounds` rounds. -/
def nullableRounds (rules : List Rule) : (rounds : Nat) → List Nonterminal → List Nonterminal
  | 0, known => known
  | rounds + 1, known =>
    let next := rules.foldl addNullable known
    if next.length = known.length then known else nullableRounds rules rounds next

/-- The nonterminals that derive the empty sequence. A round that is not the last adds the left side
of some rule, so there are never more rounds than rules and one. -/
def nullableOf (rules : List Rule) : List Nonterminal :=
  nullableRounds rules (rules.length + 1) []

end Grammar

/-- A rule, with the number of its first place for a dot among those of all rules. -/
structure NumberedRule where
  place : Nat
  rule : Rule
deriving DecidableEq, Repr

/-- The number of places for a dot in a rule. -/
def Rule.places (r : Rule) : Nat := r.rhs.length + 1

structure Grammar where
  /-- The rules by the index of their left side, in order. -/
  byLhs : Array (List NumberedRule)
  /-- The number of places for a dot in all rules. -/
  places : Nat
  nullable : List Nonterminal

namespace Grammar

def rulesFor (g : Grammar) (lhs : Nonterminal) : List NumberedRule :=
  g.byLhs[lhs.index]?.getD []

def isNullable (g : Grammar) (k : Nonterminal) : Bool := g.nullable.contains k

/-- Add a rule behind those of its left side, unless it is one of them. -/
def add (g : Grammar) (r : Rule) : Grammar :=
  if (g.rulesFor r.lhs).any (·.rule == r) then g
  else
    { g with
      byLhs := g.byLhs.setIfInBounds r.lhs.index (g.rulesFor r.lhs ++ [⟨g.places, r⟩])
      places := g.places + r.places }

/-- Rules that are repeated count once, where they first stand. -/
def ofRules (rules : List Rule) : Grammar :=
  rules.foldl add ⟨Array.replicate Nonterminal.all.length [], 0, nullableOf rules⟩

/-- The base rules followed by others. -/
def withExtra (extra : List Rule) : Grammar := ofRules (base ++ extra)

end Grammar

end ElispLift
