import ElispLift.Blocks.Annotation
import ElispLift.Proofs.Idioms.TempBuffer
import ElispLift.Proofs.Source.Conditionals

/-!
# Conditionals of parsed trees

The rules of the grammar put the jumps of a conditional in their places, and idioms leave them
there: an `and` that is a statement and a `when` with one statement become an `if`, with the jump
they had. So what is written for a conditional, with its expansion or with the idiom for it, runs as
the code does, unless it is reversed.
-/

namespace ElispLift

namespace Symbol

/-- The operation of an instruction. -/
def op? : Symbol → Option OpKind
  | terminal kind => some kind
  | _ => none

end Symbol

namespace Grammar

end Grammar

namespace Node

variable {start : Nonterminal} {source tokens : List Instruction} {t node e d : Node}
  {kind : Nonterminal} {children : List Node} {idiom : Option Idiom}

end Node

namespace Idiom

open Node

end Idiom

namespace Node

variable {start : Nonterminal} {source tokens : List Instruction} {t node e d : Node}
  {kind : Nonterminal} {children : List Node} {idiom : Option Idiom}

end Node

end ElispLift
