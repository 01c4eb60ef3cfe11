import ElispLift.Grammar.Nonterminal

/-!
# Grammar rules

A rule derives a list of symbols from a nonterminal. Terminals are kinds of operations.
-/

namespace ElispLift

/-- A word that names neither a kind of operation nor a nonterminal matches nothing. -/
inductive Symbol where
  | terminal (kind : OpKind)
  | nonterminal (kind : Nonterminal)
  | word (text : String)
deriving DecidableEq, Repr

namespace Symbol

def name : Symbol → String
  | terminal k => k.name
  | nonterminal k => k.name
  | word s => s

/-- The symbol with a given name. A count with leading zeros is no name of an operation. -/
def ofName (s : String) : Symbol :=
  match Nonterminal.ofName? s, OpKind.ofName? s with
  | some k, _ => nonterminal k
  | none, some k => if k.name = s then terminal k else word s
  | none, none => word s

end Symbol

structure Rule where
  lhs : Nonterminal
  rhs : List Symbol
deriving DecidableEq, Repr

namespace Rule

def toText (r : Rule) : String := String.join ((r.lhs.name ++ " ::=") :: r.rhs.map (" " ++ ·.name))

instance : ToString Rule := ⟨toText⟩

/-- A rule that puts one more item behind a list of its own nonterminal. -/
def isAppend (r : Rule) : Bool :=
  match r.rhs with
  | [first, _] => first = .nonterminal r.lhs
  | _ => false

def alternatives (lhs : Nonterminal) (bodies : List (List Symbol)) : List Rule :=
  bodies.map fun body => ⟨lhs, body⟩

def oneOrMore (lhs : Nonterminal) (item : Symbol) : List Rule :=
  alternatives lhs [[item], [.nonterminal lhs, item]]

def zeroOrMore (lhs : Nonterminal) (item : Symbol) : List Rule :=
  alternatives lhs [[.nonterminal lhs, item], []]

def atMostOne (lhs : Nonterminal) (item : Symbol) : List Rule := alternatives lhs [[item], []]

end Rule

end ElispLift
