import ElispLift.Proofs.Chart.Recognition
import ElispLift.Proofs.Extraction.Search

/-!
# Trees that are found

Every tree that the extraction finds is the tree of a derivation over the instructions of its span.
All spans on the way are allowed, and so are the children of every node, as they were when the node
was built.
-/

namespace ElispLift

namespace Derivation

open Grammar

/-- A use of a rule that passed both checks: its span is allowed unless it is empty, and so are its
children. -/
structure Checked (rules : List Rule) (context : Context) (r : Rule) (parts : List Derivation)
    (first last : Nat) : Prop where
  fits : Fits rules r parts
  span_allowed : first < last → context.allowsSpan r.lhs first last = true
  children_allowed : context.allowsChildren r.lhs (treesOf parts) last = true

/-- The derivation of a tree over the instructions of a span. -/
structure Builds (d : Derivation) (rules : List Rule) (context : Context) (span : Span)
    (tree : Node) : Prop where
  symbol_eq : d.symbol = .nonterminal span.kind
  tree_eq : d.tree = tree
  tokens_eq : context.tokens.toList.drop span.first =
    d.tokens ++ context.tokens.toList.drop span.last
  last_eq : span.last = span.first + d.tokens.length
  checked : d.Everywhere (Checked rules context) span.first

theorem tree_isTree {d : Derivation} {kind : Nonterminal} (h : d.symbol = .nonterminal kind) :
    ∃ children, d.tree = .plain kind children := by
  cases d with
  | leaf i => cases h
  | node r parts =>
    cases h
    exact ⟨_, rfl⟩

/-- A rule that puts an item behind a list has the list first, whose derivation is no leaf. -/
theorem Fits.first_of_isAppend {rules : List Rule} {r : Rule} {d : Derivation}
    {rest : List Derivation} (h : Fits rules r (d :: rest)) (happend : r.isAppend = true) :
    d.symbol = .nonterminal r.lhs := by
  rw [Rule.isAppend, ← h.2, List.map_cons] at happend
  split at happend
  next heq => exact (List.cons.inj heq).1.trans (of_decide_eq_true happend)
  next => simp at happend

/-- The extraction makes the node of a rule from the trees of its parts. -/
theorem node_treesOf {rules : List Rule} {r : Rule} {parts : List Derivation}
    (h : Fits rules r parts) : Extraction.node r (treesOf parts) = (node r parts).tree := by
  rw [tree]
  unfold Extraction.node
  cases parts with
  | nil => simp [treesOf, arrange]
  | cons d rest =>
    rw [treesOf, arrange]
    split
    next hcollect =>
      have happend := (Bool.and_eq_true_iff.1 hcollect).2
      obtain ⟨children, hd⟩ := tree_isTree (h.first_of_isAppend happend)
      rw [hd]
      rfl
    next => rfl

/-- The derivations of neighbouring parts over the instructions of a span. -/
structure BuildsAll (parts : List Derivation) (rules : List Rule) (context : Context)
    (symbols : List Symbol) (first last : Nat) : Prop where
  symbols_eq : parts.map symbol = symbols
  tokens_eq : context.tokens.toList.drop first =
    tokensOf parts ++ context.tokens.toList.drop last
  last_eq : last = first + (tokensOf parts).length
  checked : EverywhereOf (Checked rules context) first parts

namespace BuildsAll

variable {rules : List Rule} {context : Context} {parts : List Derivation}
  {symbols : List Symbol} {first stop last : Nat}

theorem nil : BuildsAll [] rules context [] first first :=
  ⟨rfl, by simp [tokensOf], by simp [tokensOf], trivial⟩

theorem leaf {token : Instruction} (htoken : context.tokens[first]? = some token)
    (h : BuildsAll parts rules context symbols (first + 1) last) :
    BuildsAll (.leaf token :: parts) rules context (.terminal token.kind :: symbols) first
      last := by
  refine ⟨by simp [h.symbols_eq, symbol], ?_, ?_, ⟨trivial, by simpa [tokens] using h.checked⟩⟩
  · obtain ⟨hfirst, rfl⟩ := Array.getElem?_eq_some_iff.1 htoken
    rw [List.drop_eq_getElem_cons (by simpa using hfirst), h.tokens_eq]
    simp [tokensOf, tokens]
  · have hlast := h.last_eq
    simp only [tokensOf, tokens, List.length_append, List.length_singleton]
    omega

theorem cons {d : Derivation} {kind : Nonterminal} {tree : Node}
    (hd : d.Builds rules context ⟨kind, first, stop⟩ tree)
    (h : BuildsAll parts rules context symbols stop last) :
    BuildsAll (d :: parts) rules context (.nonterminal kind :: symbols) first last := by
  have hstop : stop = first + d.tokens.length := hd.last_eq
  refine ⟨by simp [h.symbols_eq, hd.symbol_eq], ?_, ?_, ⟨hd.checked, hstop ▸ h.checked⟩⟩
  · simp [hd.tokens_eq, h.tokens_eq, tokensOf]
  · have hlast := h.last_eq
    simp only [tokensOf, List.length_append]
    omega

/-- A rule makes a node of its parts, if both checks pass. -/
theorem node {r : Rule} (hmem : r ∈ rules) (h : BuildsAll parts rules context r.rhs first last)
    (hspan : first < last → context.allowsSpan r.lhs first last = true)
    (hchildren : context.allowsChildren r.lhs (treesOf parts) last = true) :
    (Derivation.node r parts).Builds rules context ⟨r.lhs, first, last⟩
      (Extraction.node r (treesOf parts)) := by
  have hlast := h.last_eq
  have hfits : Fits rules r parts := ⟨hmem, h.symbols_eq⟩
  refine ⟨rfl, (node_treesOf hfits).symm, h.tokens_eq, hlast, ?_, h.checked⟩
  subst hlast
  exact ⟨hfits, hspan, hchildren⟩

end BuildsAll

end Derivation

namespace Extraction

open ElispLift.Derivation Grammar

/-- What the search reads is made of `rules`, and all its spans are allowed. -/
structure Input.Sound (rules : List Rule) (input : Input) : Prop where
  mem_rules : ∀ kind, ∀ nr ∈ input.grammar.rulesFor kind, nr.rule ∈ rules ∧ nr.rule.lhs = kind
  ends_allowed : ∀ kind first, ∀ last ∈ input.ends.of kind first,
    input.context.allowsSpan kind first last = true

/-- An outcome that is no tree, or the tree of a derivation over the span. -/
def Justified (rules : List Rule) (context : Context) (span : Span) (found : Option Node) : Prop :=
  ∀ tree, found = some tree → ∃ d : Derivation, d.Builds rules context span tree

/-- Children are accepted only if those behind `children` are the trees of parts that cover the rest
of the span. -/
def Accepts (rules : List Rule) (context : Context) (lhs : Nonterminal) (last : Nat)
    (symbols : List Symbol) (pos : Nat) (children : List Node) (found : Option (List Node)) :
    Prop :=
  ∀ accepted, found = some accepted → ∃ parts : List Derivation,
    accepted = children ++ treesOf parts ∧ BuildsAll parts rules context symbols pos last ∧
      context.allowsChildren lhs accepted last = true

variable {rules : List Rule} {input : Input} {build : Span → Search (Option Node)}

theorem passes_of_mem_endsFor (h : input.Sound rules) {kind : Nonterminal} {isLast : Bool}
    {pos last stop : Nat} (hstop : stop ∈ endsFor input kind isLast pos last) :
    Passes input.context.allowsSpan kind pos stop := by
  have hmem : stop ∈ input.ends.of kind pos ∨ stop = pos := by
    unfold endsFor at hstop
    grind
  intro hlt
  rcases hmem with hmem | rfl
  · exact h.ends_allowed kind pos stop hmem
  · omega

/-- The children that are accepted are the trees of parts for all symbols, which cover the span. -/
theorem meets_split (h : input.Sound rules)
    (hbuild : ∀ span : Span, Passes input.context.allowsSpan span.kind span.first span.last →
      Search.Meets True (Justified rules input.context) (Justified rules input.context span)
        (build span)) (lhs : Nonterminal) (first last : Nat) (symbols : List Symbol) (pos : Nat)
    (children : List Node) :
    Attempt.Meets True (Justified rules input.context)
      (Accepts rules input.context lhs last symbols pos children)
      (split input build lhs first last symbols pos children) := by
  have hnone : ∀ symbols pos children,
      Accepts rules input.context lhs last symbols pos children none := by
    intro symbols pos children accepted hsome
    cases hsome
  induction symbols generalizing pos children with
  | nil =>
    refine .split (hnone _ _ _) (meets_accept (hnone _ _ _) ?_)
    rintro rfl hallowed accepted hsome
    obtain rfl := Option.some.inj hsome
    exact ⟨[], by simp [treesOf], .nil, hallowed⟩
  | cons s rest ih =>
    refine .split (hnone _ _ _) ?_
    cases s with
    | word text => exact .pure (hnone _ _ _)
    | terminal kind =>
      unfold splitRest
      dsimp only
      split
      next token htoken =>
        split
        next hkind =>
          obtain ⟨hlt, rfl⟩ : pos < last ∧ token.kind = kind := by simpa using hkind
          refine (ih (pos + 1) (children ++ [.token token])).imp ?_
          intro found hfound accepted hsome
          obtain ⟨parts, htrees, hparts, hallowed⟩ := hfound accepted hsome
          exact ⟨.leaf token :: parts, by simp [htrees, treesOf, tree], hparts.leaf htoken,
            hallowed⟩
        · exact .pure (hnone _ _ _)
      · exact .pure (hnone _ _ _)
    | nonterminal kind =>
      refine .firstOf (hnone _ _ _) fun stop hstop => ?_
      have hpasses := passes_of_mem_endsFor h hstop
      refine .bind (.lift (hbuild ⟨kind, pos, stop⟩ hpasses)) fun found hfound => ?_
      cases found with
      | none => exact .pure (hnone _ _ _)
      | some node =>
        obtain ⟨d, hd⟩ := hfound node rfl
        refine (ih stop (children ++ [node])).imp ?_
        intro found hfound accepted hsome
        obtain ⟨parts, htrees, hparts, hallowed⟩ := hfound accepted hsome
        exact ⟨d :: parts, by simp [htrees, treesOf, hd.tree_eq], .cons hd hparts, hallowed⟩

theorem meets_build (h : input.Sound rules) (levels : Nat) (active : List Span) (span : Span)
    (hspan : Passes input.context.allowsSpan span.kind span.first span.last) :
    Search.Meets True (Justified rules input.context) (Justified rules input.context span)
      (Extraction.build input levels active span) := by
  induction levels generalizing active span with
  | zero => exact Search.Meets.failure trivial
  | succ levels ih =>
    rw [Extraction.build]
    refine Search.Meets.bind (q := Memory.Keeps (Justified rules input.context))
      ⟨fun m hm => ⟨hm, hm⟩⟩ fun m hm => ?_
    split
    next found hknown => exact Search.Meets.pure (hm span found hknown)
    next =>
      split
      · exact Search.Meets.pure (by simp [Justified])
      · refine Search.Meets.bind (q := Justified rules input.context span) ?_ fun found hfound => ?_
        · refine Search.Meets.tryRules (by simp [Justified]) fun r hr => ?_
          obtain ⟨nr, hnr, rfl⟩ := List.mem_map.1 hr
          obtain ⟨hmem, hlhs⟩ := h.mem_rules span.kind nr hnr
          have hsplit := meets_split h (ih (span :: active)) nr.rule.lhs span.first span.last
            nr.rule.rhs span.first []
          refine hsplit.imp fun found hfound children hsome tree htree => ?_
          obtain ⟨parts, htrees, hparts, hallowed⟩ := hfound children hsome
          obtain rfl : children = treesOf parts := htrees
          obtain rfl := Option.some.inj htree
          have hnode := hparts.node hmem (fun hlt => hlhs ▸ hspan hlt) hallowed
          rw [hlhs] at hnode
          exact ⟨_, hnode⟩
        · exact Search.Meets.bind (q := fun _ => True) ⟨fun m hm => ⟨hm.insert hfound, trivial⟩⟩
            fun _ _ => Search.Meets.pure hfound

end Extraction

end ElispLift
