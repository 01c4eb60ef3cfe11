import ElispLift.Bits
import ElispLift.Grammar.Table
import Std.Data.TreeMap

/-!
# Charts

A chart records which spans of the instructions a nonterminal covers. Position by position it
collects items, rules with a dot up to which they are matched, from where they began. The items of
a position are closed under three steps: a nonterminal behind the dot starts its rules, one that
derives the empty sequence is passed over, and a finished rule moves the dot of the items that
waited for it. A finished span counts only if it is allowed.
-/

namespace ElispLift

/-- A rule with a dot, by the number of the dot's place. The rule derives `lhs`, and `rest` holds
the symbols behind the dot. Those before it are matched from the position `origin` on. -/
structure Item where
  place : Nat
  lhs : Nonterminal
  rest : List Symbol
  origin : Nat
deriving DecidableEq, Repr

namespace Item

def start (r : NumberedRule) (origin : Nat) : Item := ⟨r.place, r.rule.lhs, r.rule.rhs, origin⟩

def advance (item : Item) : Item := { item with place := item.place + 1, rest := item.rest.tail }

/-- Whether a nonterminal stands behind the dot. -/
def awaits (item : Item) (kind : Nonterminal) : Bool :=
  match item.rest with
  | .nonterminal k :: _ => k = kind
  | _ => false

/-- Whether a terminal stands behind the dot. -/
def accepts (item : Item) (terminal : OpKind) : Bool :=
  match item.rest with
  | .terminal k :: _ => k = terminal
  | _ => false

/-- A number for each dot and origin. -/
def code (item : Item) (places : Nat) : Nat := item.origin * places + item.place

end Item

/-- The items that were found at a position, those of them that are still to be worked through, the
codes of all, and the nonterminals whose rules were started there. -/
structure Agenda where
  items : List Item
  todo : List Item
  seen : Bits
  started : Bits

namespace Agenda

def empty : Agenda := ⟨[], [], .empty, .empty⟩

/-- Add an item that was not found before. -/
def add (a : Agenda) (places : Nat) (item : Item) : Agenda :=
  if a.seen.contains (item.code places) then a
  else
    { a with
      items := item :: a.items
      todo := item :: a.todo
      seen := a.seen.insert (item.code places) }

def addAll (a : Agenda) (places : Nat) (items : List Item) : Agenda := items.foldl (add · places) a

end Agenda

/-- A nonterminal and the position where it starts. -/
structure Start where
  kind : Nonterminal
  first : Nat
deriving DecidableEq, Repr

instance : Ord Start := ⟨compareLex (compareOn Start.first) (compareOn fun s => s.kind.index)⟩

/-- Where spans end, the longest first. -/
abbrev Ends := Std.TreeMap Start (List Nat)

namespace Ends

def of (ends : Ends) (kind : Nonterminal) (first : Nat) : List Nat := ends.getD ⟨kind, first⟩ []

/-- Ends are added in ascending order, so that a repeated one is the head of its list. -/
def add (ends : Ends) (kind : Nonterminal) (first last : Nat) : Ends :=
  let known := ends.of kind first
  if known.head? = some last then ends else ends.insert ⟨kind, first⟩ (last :: known)

end Ends

/-- The items of the positions from the first on, and the spans that were finished. -/
structure Chart where
  sets : Array (List Item)
  ends : Ends

namespace Chart

def empty : Chart := ⟨#[], {}⟩

/-- Whether a span was finished. -/
def covers (c : Chart) (kind : Nonterminal) (first last : Nat) : Bool :=
  (c.ends.of kind first).contains last

/-- The last position that some item reached. -/
def furthest (c : Chart) : Nat :=
  ((List.range c.sets.size).reverse.find? fun i => (c.sets[i]?.map (!·.isEmpty)).getD false).getD 0

end Chart

namespace Grammar

/-- The items that start the rules of a nonterminal. -/
def startItems (g : Grammar) (kind : Nonterminal) (i : Nat) : List Item :=
  (g.rulesFor kind).map (Item.start · i)

/-- The items that wait for `kind`, with the dot moved past it. -/
def advanceOver (kind : Nonterminal) (items : List Item) : List Item :=
  (items.filter (·.awaits kind)).map Item.advance

/-- Start the rules of a nonterminal at position `i`, unless they were started there before. -/
def startRules (g : Grammar) (kind : Nonterminal) (i : Nat) (here : Agenda) : Agenda :=
  if here.started.contains kind.index then here
  else
    { here with started := here.started.insert kind.index }.addAll g.places (g.startItems kind i)

/-- Add the items that follow from an item at position `i`, where `chart` holds the positions
before. -/
def follow (g : Grammar) (allowed : Nonterminal → Nat → Nat → Bool) (chart : Chart) (i : Nat)
    (here : Agenda) (item : Item) : Agenda :=
  match item.rest with
  | .nonterminal kind :: _ =>
    let here := g.startRules kind i here
    if g.isNullable kind then here.add g.places item.advance else here
  | _ :: _ => here
  | [] =>
    if allowed item.lhs item.origin i then
      here.addAll g.places (advanceOver item.lhs (chart.sets[item.origin]?.getD here.items))
    else here

/-- The finished spans after an item at position `i`. -/
def finished (allowed : Nonterminal → Nat → Nat → Bool) (i : Nat) (item : Item) (ends : Ends) :
    Ends :=
  if item.rest.isEmpty && allowed item.lhs item.origin i then ends.add item.lhs item.origin i
  else ends

/-- Work through the items of position `i`, at most `fuel` of them. -/
def closeWith (g : Grammar) (allowed : Nonterminal → Nat → Nat → Bool) (i : Nat) :
    (fuel : Nat) → Agenda → Chart → Agenda × Chart
  | 0, here, chart => (here, chart)
  | fuel + 1, here, chart =>
    match here.todo with
    | [] => (here, chart)
    | item :: todo =>
      closeWith g allowed i fuel (g.follow allowed chart i { here with todo } item)
        { chart with ends := finished allowed i item chart.ends }

/-- Close the items of position `i`. There is at most one for each place of a dot and each
origin. -/
def close (g : Grammar) (allowed : Nonterminal → Nat → Nat → Bool) (i : Nat) (here : Agenda)
    (chart : Chart) : Chart :=
  let (here, chart) := closeWith g allowed i ((i + 1) * g.places) here chart
  { chart with sets := chart.sets.push here.items }

/-- The items of the next position that match the terminal between. -/
def scan (g : Grammar) (terminal : OpKind) (items : List Item) : Agenda :=
  Agenda.empty.addAll g.places ((items.filter (·.accepts terminal)).map Item.advance)

/-- Fill the chart from position `i` on, where `here` holds what was scanned. -/
def chartFrom (g : Grammar) (allowed : Nonterminal → Nat → Nat → Bool) (i : Nat) (here : Agenda)
    (chart : Chart) : (terminals : List OpKind) → Chart
  | [] => g.close allowed i here chart
  | terminal :: terminals =>
    let chart := g.close allowed i here chart
    chartFrom g allowed (i + 1) (g.scan terminal (chart.sets[i]?.getD [])) chart terminals

/-- The chart of a sequence of terminals for a start nonterminal. -/
def chart (g : Grammar) (allowed : Nonterminal → Nat → Nat → Bool) (start : Nonterminal)
    (terminals : List OpKind) : Chart :=
  g.chartFrom allowed 0 (g.startRules start 0 .empty) .empty terminals

end Grammar

end ElispLift
