import ElispLift.Proofs.Extraction.Soundness

/-!
# Derivations with their nodes

Symbols assemble nodes over a range of instructions: a terminal its instruction, and a nonterminal
the node of one of its rules, whose children pass a check. Every tree that the extraction finds is
assembled with the checks on children, and every span of the chart without them. What each rule
hands on from its children to its node holds of all that is assembled.
-/

namespace ElispLift

namespace Grammar

/-- The symbols make nodes of the instructions from one position up to another by `rules`, where
every node has children that satisfy `check` with its nonterminal and its end. -/
inductive Assembles (rules : List Rule) (tokens : List Instruction)
    (check : Nonterminal → List Node → Nat → Prop) :
    List Symbol → Nat → Nat → List Node → Prop where
  | nil (i : Nat) : Assembles rules tokens check [] i i []
  | terminal {token : Instruction} {rest : List Symbol} {i j : Nat} {nodes : List Node}
      (htoken : tokens[i]? = some token) (h : Assembles rules tokens check rest (i + 1) j nodes) :
      Assembles rules tokens check (.terminal token.kind :: rest) i j (.token token :: nodes)
  | nonterminal {r : Rule} {rest : List Symbol} {i m j : Nat} {children nodes : List Node}
      (hr : r ∈ rules) (h : Assembles rules tokens check r.rhs i m children)
      (hspan : Passes (Context.allowsSpan ⟨tokens.toArray⟩) r.lhs i m)
      (hchildren : check r.lhs children m) (h' : Assembles rules tokens check rest m j nodes) :
      Assembles rules tokens check (.nonterminal r.lhs :: rest) i j
        (Extraction.node r children :: nodes)

/-- Neighbouring spans, each with the node that `S` gives to its nonterminal. -/
def Chain (tokens : List Instruction) (S : Nonterminal → Nat → Nat → Node → Prop) :
    List Symbol → (first last : Nat) → List Node → Prop
  | [], i, j, nodes => i = j ∧ nodes = []
  | .terminal kind :: rest, i, j, nodes => ∃ token nodes', tokens[i]? = some token ∧
      token.kind = kind ∧ nodes = .token token :: nodes' ∧ Chain tokens S rest (i + 1) j nodes'
  | .nonterminal kind :: rest, i, j, nodes => ∃ m node nodes', i ≤ m ∧ S kind i m node ∧
      nodes = node :: nodes' ∧ Chain tokens S rest m j nodes'
  | .word _ :: _, _, _, _ => False

variable {rules : List Rule} {tokens : List Instruction}
  {check : Nonterminal → List Node → Nat → Prop} {s : List Symbol} {i j : Nat}
  {nodes : List Node}

namespace Chain

variable {S : Nonterminal → Nat → Nat → Node → Prop}

theorem le (h : Chain tokens S s i j nodes) : i ≤ j := by
  induction s generalizing i nodes with
  | nil => exact Nat.le_of_eq h.1
  | cons x s ih =>
    cases x with
    | terminal kind =>
      obtain ⟨_, _, -, -, -, h⟩ := h
      exact Nat.le_of_succ_le (ih h)
    | nonterminal kind =>
      obtain ⟨m, _, _, hm, -, -, h⟩ := h
      exact Nat.le_trans hm (ih h)
    | word text => exact h.elim

theorem split {t : List Symbol} (h : Chain tokens S (s ++ t) i j nodes) :
    ∃ m before after, nodes = before ++ after ∧ Chain tokens S s i m before ∧
      Chain tokens S t m j after := by
  induction s generalizing i nodes with
  | nil => exact ⟨i, [], nodes, rfl, ⟨rfl, rfl⟩, h⟩
  | cons x s ih =>
    cases x with
    | terminal kind =>
      obtain ⟨token, rest, htoken, hkind, rfl, h⟩ := h
      obtain ⟨m, before, after, rfl, hbefore, hafter⟩ := ih h
      exact ⟨m, _, after, rfl, ⟨token, before, htoken, hkind, rfl, hbefore⟩, hafter⟩
    | nonterminal kind =>
      obtain ⟨q, node, rest, hq, hnode, rfl, h⟩ := h
      obtain ⟨m, before, after, rfl, hbefore, hafter⟩ := ih h
      exact ⟨m, _, after, rfl, ⟨q, node, before, hq, hnode, rfl, hbefore⟩, hafter⟩
    | word text => exact h.elim

theorem single {kind : Nonterminal} (h : Chain tokens S [.nonterminal kind] i j nodes) :
    ∃ node, S kind i j node ∧ nodes = [node] := by
  obtain ⟨m, node, rest, -, hnode, rfl, rfl, rfl⟩ := h
  exact ⟨node, hnode, rfl⟩

end Chain

namespace Assembles

theorem le (h : Assembles rules tokens check s i j nodes) : i ≤ j := by
  induction h with
  | nil => exact Nat.le_refl _
  | terminal _ _ ih => omega
  | nonterminal _ _ _ _ _ ih ih' => omega

theorem append {t : List Symbol} {m : Nat} {nodes' : List Node}
    (h : Assembles rules tokens check s i m nodes)
    (h' : Assembles rules tokens check t m j nodes') :
    Assembles rules tokens check (s ++ t) i j (nodes ++ nodes') := by
  induction h with
  | nil => exact h'
  | terminal htoken _ ih => exact .terminal htoken (ih h')
  | nonterminal hr h hspan hchildren _ _ ih => exact .nonterminal hr h hspan hchildren (ih h')

/-- What every rule hands on from its children to its node, given that the instructions satisfy
`p`, holds of all that is assembled. -/
theorem chain {S : Nonterminal → Nat → Nat → Node → Prop} (p : Nat → Nat → Prop)
    (hp : ∀ i j i' j', p i j → i ≤ i' → j' ≤ j → p i' j')
    (hstep : ∀ r ∈ rules, ∀ i j children, p i j → Chain tokens S r.rhs i j children →
      Passes (Context.allowsSpan ⟨tokens.toArray⟩) r.lhs i j → check r.lhs children j →
        S r.lhs i j (Extraction.node r children))
    (h : Assembles rules tokens check s i j nodes) (hij : p i j) : Chain tokens S s i j nodes := by
  induction h with
  | nil i => exact ⟨rfl, rfl⟩
  | terminal htoken _ ih =>
    exact ⟨_, _, htoken, rfl, rfl, ih (hp _ _ _ _ hij (Nat.le_succ _) (Nat.le_refl _))⟩
  | @nonterminal r rest i m j children nodes hr h hspan hchildren h' ih ih' =>
    have hfirst := hp _ _ _ _ hij (Nat.le_refl i) h'.le
    refine ⟨m, _, _, h.le, hstep r hr i m children hfirst (ih hfirst) hspan hchildren, rfl, ?_⟩
    exact ih' (hp _ _ _ _ hij h.le (Nat.le_refl j))

end Assembles

/-- Without a check on children, whatever is derived is assembled. -/
theorem Derives.exists_nodes
    (h : Derives rules (tokens.map (·.kind)) (Passes (Context.allowsSpan ⟨tokens.toArray⟩)) s i j) :
    ∃ nodes, Assembles rules tokens (fun _ _ _ => True) s i j nodes := by
  induction h with
  | nil i => exact ⟨[], .nil i⟩
  | terminal hk _ ih =>
    obtain ⟨nodes, hnodes⟩ := ih
    rw [List.getElem?_map, Option.map_eq_some_iff] at hk
    obtain ⟨token, htoken, rfl⟩ := hk
    exact ⟨_, .terminal htoken hnodes⟩
  | nonterminal hr _ hok _ ih ih' =>
    obtain ⟨children, hchildren⟩ := ih
    obtain ⟨nodes, hnodes⟩ := ih'
    exact ⟨_, .nonterminal hr hchildren hok trivial hnodes⟩

end Grammar

namespace Derivation

open Grammar

variable {rules : List Rule} {tokens : List Instruction}

/-- The check on children that the extraction makes. -/
def AllowsChildren (tokens : List Instruction) (kind : Nonterminal) (children : List Node)
    (last : Nat) : Prop :=
  Context.allowsChildren ⟨tokens.toArray⟩ kind children last = true

mutual

theorem assembles : ∀ (d : Derivation) {i : Nat} {after : List Instruction},
    d.Everywhere (Checked rules ⟨tokens.toArray⟩) i → tokens.drop i = d.tokens ++ after →
      Assembles rules tokens (AllowsChildren tokens) [d.symbol] i (i + d.tokens.length) [d.tree]
  | leaf token, i, after, _, ht => by
    have htoken : tokens[i]? = some token := by
      rw [← Nat.add_zero i, ← List.getElem?_drop, ht]
      rfl
    exact .terminal htoken (.nil _)
  | node r parts, i, after, ⟨hchecked, he⟩, ht => by
    have hparts := assemblesOf parts he ht
    rw [hchecked.fits.2] at hparts
    rw [← node_treesOf hchecked.fits]
    exact .nonterminal hchecked.fits.1 hparts hchecked.span_allowed hchecked.children_allowed
      (.nil _)

theorem assemblesOf : ∀ (ds : List Derivation) {i : Nat} {after : List Instruction},
    EverywhereOf (Checked rules ⟨tokens.toArray⟩) i ds → tokens.drop i = tokensOf ds ++ after →
      Assembles rules tokens (AllowsChildren tokens) (ds.map symbol) i (i + (tokensOf ds).length)
        (treesOf ds)
  | [], i, _, _, _ => .nil i
  | d :: rest, i, after, ⟨hd, hrest⟩, ht => by
    have htokens : tokens.drop i = d.tokens ++ (tokensOf rest ++ after) := by
      simpa [tokensOf] using ht
    have hdrop : tokens.drop (i + d.tokens.length) = tokensOf rest ++ after := by
      rw [← List.drop_drop, ht]
      simp [tokensOf]
    have hall := (assembles d hd htokens).append (assemblesOf rest hrest hdrop)
    simpa [tokensOf, treesOf, Nat.add_assoc] using hall

end

end Derivation

end ElispLift
