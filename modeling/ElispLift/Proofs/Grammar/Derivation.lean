import ElispLift.Grammar.Rule
import ElispLift.Syntax

/-!
# Derivations

A derivation is an instruction, or a rule with a derivation of each symbol of its right side. The
syntax tree of a derivation has the same nodes, but that a list of items takes one more item at its
end. `Derives` says the same of positions among the terminals, without the tree. The two agree:
symbols derive a range of positions exactly if they have derivations whose instructions are there.
-/

namespace ElispLift

inductive Derivation where
  | leaf (i : Instruction)
  | node (r : Rule) (parts : List Derivation)

namespace Derivation

/-- The symbol that is derived. -/
def symbol : Derivation → Symbol
  | leaf i => .terminal i.kind
  | node r _ => .nonterminal r.lhs

def isLeaf : Derivation → Bool
  | leaf _ => true
  | node _ _ => false

mutual

/-- The instructions at the leaves, from left to right. -/
def tokens : Derivation → List Instruction
  | leaf i => [i]
  | node _ parts => tokensOf parts

def tokensOf : List Derivation → List Instruction
  | [] => []
  | d :: rest => d.tokens ++ tokensOf rest

end

/-- The children of a node for the rule `r`. A rule that puts one more item behind a list puts it
behind the items of the list. -/
def arrange (r : Rule) (trees : List Node) : List Node :=
  match trees with
  | list :: rest => if r.lhs.isCollected && r.isAppend then list.children ++ rest else list :: rest
  | [] => []

mutual

/-- The syntax tree. -/
def tree : Derivation → Node
  | leaf i => .token i
  | node r parts => .plain r.lhs (arrange r (treesOf parts))

def treesOf : List Derivation → List Node
  | [] => []
  | d :: rest => d.tree :: treesOf rest

end

mutual

/-- `p` holds of every rule that is used, with its parts and the positions from `first` on that they
cover. -/
def Everywhere (p : Rule → List Derivation → (first last : Nat) → Prop) (first : Nat) :
    Derivation → Prop
  | leaf _ => True
  | node r parts => p r parts first (first + (tokensOf parts).length) ∧ EverywhereOf p first parts

def EverywhereOf (p : Rule → List Derivation → (first last : Nat) → Prop) (first : Nat) :
    List Derivation → Prop
  | [] => True
  | d :: rest => d.Everywhere p first ∧ EverywhereOf p (first + d.tokens.length) rest

end

section

variable {p : Rule → List Derivation → (first last : Nat) → Prop}
  [∀ r parts first last, Decidable (p r parts first last)]

mutual

def decideEverywhere : (first : Nat) → (d : Derivation) → Decidable (d.Everywhere p first)
  | _, leaf _ => .isTrue trivial
  | first, node r parts =>
    have := decideEverywhereOf first parts
    inferInstanceAs (Decidable (p r parts first (first + (tokensOf parts).length) ∧
      EverywhereOf p first parts))

def decideEverywhereOf : (first : Nat) → (ds : List Derivation) →
    Decidable (EverywhereOf p first ds)
  | _, [] => .isTrue trivial
  | first, d :: rest =>
    have := decideEverywhere first d
    have := decideEverywhereOf (first + d.tokens.length) rest
    inferInstanceAs (Decidable (d.Everywhere p first ∧
      EverywhereOf p (first + d.tokens.length) rest))

end

instance (d : Derivation) (first : Nat) : Decidable (d.Everywhere p first) :=
  decideEverywhere first d

end

/-- A rule of `rules` with parts for the symbols of its right side. -/
def Fits (rules : List Rule) (r : Rule) (parts : List Derivation) : Prop :=
  r ∈ rules ∧ parts.map symbol = r.rhs

instance (rules : List Rule) (r : Rule) (parts : List Derivation) :
    Decidable (Fits rules r parts) :=
  inferInstanceAs (Decidable (_ ∧ _))

@[simp] theorem tokensOf_append (ds es : List Derivation) :
    tokensOf (ds ++ es) = tokensOf ds ++ tokensOf es := by
  induction ds with
  | nil => rfl
  | cons d ds ih => simp [tokensOf, ih]

mutual

theorem Everywhere.imp {p q : Rule → List Derivation → Nat → Nat → Prop}
    (h : ∀ r parts i j, p r parts i j → q r parts i j) :
    ∀ {d : Derivation} {first : Nat}, d.Everywhere p first → d.Everywhere q first
  | leaf _, _, _ => trivial
  | node _ _, _, hd => ⟨h _ _ _ _ hd.1, EverywhereOf.imp h hd.2⟩

theorem EverywhereOf.imp {p q : Rule → List Derivation → Nat → Nat → Prop}
    (h : ∀ r parts i j, p r parts i j → q r parts i j) :
    ∀ {ds : List Derivation} {first : Nat}, EverywhereOf p first ds → EverywhereOf q first ds
  | [], _, _ => trivial
  | _ :: _, _, hd => ⟨Everywhere.imp h hd.1, EverywhereOf.imp h hd.2⟩

end

end Derivation

namespace Grammar

/-- The symbols derive the terminals from one position up to another by `rules`, where every
nonterminal on the way satisfies `ok` with the positions that it covers. -/
inductive Derives (rules : List Rule) (word : List OpKind) (ok : Nonterminal → Nat → Nat → Prop) :
    List Symbol → Nat → Nat → Prop where
  | nil (i : Nat) : Derives rules word ok [] i i
  | terminal {kind : OpKind} {rest : List Symbol} {i j : Nat} (hk : word[i]? = some kind)
      (h : Derives rules word ok rest (i + 1) j) :
      Derives rules word ok (.terminal kind :: rest) i j
  | nonterminal {r : Rule} {rest : List Symbol} {i m j : Nat} (hr : r ∈ rules)
      (h : Derives rules word ok r.rhs i m) (hok : ok r.lhs i m)
      (h' : Derives rules word ok rest m j) :
      Derives rules word ok (.nonterminal r.lhs :: rest) i j

namespace Derives

variable {rules : List Rule} {word : List OpKind} {ok : Nonterminal → Nat → Nat → Prop}
  {s t : List Symbol} {i m j : Nat}

theorem le (h : Derives rules word ok s i j) : i ≤ j := by
  induction h with
  | nil => exact Nat.le_refl _
  | terminal _ _ ih => omega
  | nonterminal _ _ _ _ ih ih' => omega

theorem le_length (h : Derives rules word ok s i j) (hi : i ≤ word.length) : j ≤ word.length := by
  induction h with
  | nil => exact hi
  | terminal hk _ ih => exact ih (List.getElem?_eq_some_iff.1 hk).1
  | nonterminal _ _ _ _ ih ih' => exact ih' (ih hi)

theorem append (h : Derives rules word ok s i m) (h' : Derives rules word ok t m j) :
    Derives rules word ok (s ++ t) i j := by
  induction h with
  | nil => exact h'
  | terminal hk _ ih => exact .terminal hk (ih h')
  | nonterminal hr h hok _ _ ih => exact .nonterminal hr h hok (ih h')

theorem single {r : Rule} (hr : r ∈ rules) (h : Derives rules word ok r.rhs i j)
    (hok : ok r.lhs i j) : Derives rules word ok [.nonterminal r.lhs] i j :=
  .nonterminal hr h hok (.nil j)

theorem of_single {kind : Nonterminal} (h : Derives rules word ok [.nonterminal kind] i j) :
    ∃ r ∈ rules, r.lhs = kind ∧ Derives rules word ok r.rhs i j ∧ ok kind i j := by
  cases h with
  | nonterminal hr h hok h' =>
    cases h'
    exact ⟨_, hr, rfl, h, hok⟩

theorem imp {ok' : Nonterminal → Nat → Nat → Prop} (himp : ∀ kind i j, ok kind i j → ok' kind i j)
    (h : Derives rules word ok s i j) : Derives rules word ok' s i j := by
  induction h with
  | nil i => exact .nil i
  | terminal hk _ ih => exact .terminal hk ih
  | nonterminal hr _ hok _ ih ih' => exact .nonterminal hr ih (himp _ _ _ hok) ih'

end Derives

end Grammar

namespace Derivation

open Grammar

variable {rules : List Rule} {ok : Nonterminal → Nat → Nat → Prop} {input : List Instruction}

/-- A use of a rule of `rules` on an allowed span. -/
def Sound (rules : List Rule) (ok : Nonterminal → Nat → Nat → Prop) (r : Rule)
    (parts : List Derivation) (first last : Nat) : Prop := Fits rules r parts ∧ ok r.lhs first last

theorem exists_of_derives {s : List Symbol} {i j : Nat}
    (h : Derives rules (input.map (·.kind)) ok s i j) :
    ∃ ds : List Derivation, ds.map symbol = s ∧ EverywhereOf (Sound rules ok) i ds ∧
      input.drop i = tokensOf ds ++ input.drop j ∧ j = i + (tokensOf ds).length := by
  induction h with
  | nil i => exact ⟨[], rfl, trivial, rfl, rfl⟩
  | @terminal kind rest i j hk _ ih =>
    obtain ⟨ds, hs, he, ht, hj⟩ := ih
    rw [List.getElem?_map, Option.map_eq_some_iff] at hk
    obtain ⟨token, htoken, rfl⟩ := hk
    obtain ⟨hi, rfl⟩ := List.getElem?_eq_some_iff.1 htoken
    have hsound : EverywhereOf _ i (leaf input[i] :: ds) := ⟨trivial, by simpa [tokens] using he⟩
    refine ⟨leaf input[i] :: ds, by simp [symbol, hs], hsound, ?_, ?_⟩
    · simpa [tokensOf, tokens, ht] using List.drop_eq_getElem_cons hi
    · simp [tokensOf, tokens]
      omega
  | @nonterminal r rest i m j hr _ hok _ ih ih' =>
    obtain ⟨ds, hs, he, ht, hm⟩ := ih
    obtain ⟨es, hs', he', ht', hj⟩ := ih'
    refine ⟨node r ds :: es, by simp [symbol, hs'], ⟨⟨⟨⟨hr, hs⟩, hm ▸ hok⟩, he⟩, ?_⟩, ?_, ?_⟩
    · simpa [tokens, ← hm] using he'
    · simp [tokensOf, tokens, ht, ht']
    · simp [tokensOf, tokens]
      omega

theorem exists_of_derives_single {kind : Nonterminal} {i j : Nat}
    (h : Derives rules (input.map (·.kind)) ok [.nonterminal kind] i j) :
    ∃ d : Derivation, d.symbol = .nonterminal kind ∧ d.Everywhere (Sound rules ok) i ∧
      input.drop i = d.tokens ++ input.drop j ∧ j = i + d.tokens.length := by
  obtain ⟨ds, hs, he, ht, hj⟩ := exists_of_derives h
  obtain ⟨d, rfl, hd⟩ := List.map_eq_singleton_iff.1 hs
  have htokens : tokensOf [d] = d.tokens := by simp [tokensOf]
  rw [htokens] at ht hj
  exact ⟨d, hd, he.1, ht, hj⟩

mutual

theorem derives : ∀ (d : Derivation) {i : Nat} {after : List Instruction},
    d.Everywhere (Sound rules ok) i → input.drop i = d.tokens ++ after →
      Derives rules (input.map (·.kind)) ok [d.symbol] i (i + d.tokens.length)
  | leaf token, i, after, _, ht => by
    have htoken : input[i]? = some token := by
      rw [← Nat.add_zero i, ← List.getElem?_drop, ht]
      rfl
    exact .terminal (by simp [htoken]) (.nil _)
  | node r parts, i, after, ⟨⟨⟨hr, hs⟩, hok⟩, he⟩, ht =>
    .single hr (hs ▸ derivesOf parts he ht) hok

theorem derivesOf : ∀ (ds : List Derivation) {i : Nat} {after : List Instruction},
    EverywhereOf (Sound rules ok) i ds → input.drop i = tokensOf ds ++ after →
      Derives rules (input.map (·.kind)) ok (ds.map symbol) i (i + (tokensOf ds).length)
  | [], i, _, _, _ => .nil i
  | d :: rest, i, after, ⟨hd, hrest⟩, ht => by
    have htokens : input.drop i = d.tokens ++ (tokensOf rest ++ after) := by
      simpa [tokensOf] using ht
    have hfirst := derives d hd htokens
    have hdrop : input.drop (i + d.tokens.length) = tokensOf rest ++ after := by
      rw [← List.drop_drop, ht]
      simp [tokensOf]
    simpa [tokensOf, Nat.add_assoc] using hfirst.append (derivesOf rest hrest hdrop)

end

end Derivation

end ElispLift
