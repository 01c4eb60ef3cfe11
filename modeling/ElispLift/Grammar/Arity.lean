import ElispLift.Grammar.Rule

/-!
# Rules for counted operations

Calls, lists and the like take as many operands as their count says, so their rules depend on the
instructions at hand. Each family and count gets one rule, and each family one promotion to an
expression, in the order in which they first occur.
-/

namespace ElispLift.Grammar

/-- `family_exprn ::= expr … FAMILY_n`, with an operand for each value taken from the stack. -/
def arityRule (family : Family) (count : Nat) : Rule :=
  ⟨.counted family, List.replicate (family.operands count) (.nonterminal .expr) ++
    [.terminal (.counted family count)]⟩

def promotion (family : Family) : Rule := ⟨.expr, [.nonterminal (.counted family)]⟩

/-- The families and counts of the instructions, in order and with repetitions. -/
def arities (is : List Instruction) : List (Family × Nat) :=
  is.filterMap fun i => match i.kind with
    | .fixed _ => none
    | .counted family count => some (family, count)

/-- The rules for a list of families and counts after those of `seen`. -/
def arityRulesAfter (seen : List (Family × Nat)) : List (Family × Nat) → List Rule
  | [] => []
  | (family, count) :: rest =>
    if seen.contains (family, count) then arityRulesAfter seen rest
    else
      let new := arityRule family count ::
        if seen.any (·.1 = family) then [] else [promotion family]
      new ++ arityRulesAfter (seen ++ [(family, count)]) rest

/-- The rules that a list of instructions needs beside the base rules. -/
def arityRules (is : List Instruction) : List Rule := arityRulesAfter [] (arities is)

end ElispLift.Grammar
