import ElispLift.Proofs.Extraction.Soundness

/-!
# Parsed trees

What holds of the derivation of a tree holds of the tree. A list of items that grew item by item is
one node in the tree, with all items side by side.
-/

namespace ElispLift

namespace Node

/-- The symbol that a node stands for. -/
def symbol : Node → Symbol
  | token i => .terminal i.kind
  | tree kind _ _ => .nonterminal kind

theorem eq_tree_of_symbol {node : Node} {kind : Nonterminal} (h : node.symbol = .nonterminal kind) :
    ∃ children idiom, node = tree kind children idiom := by
  cases node with
  | token i => cases h
  | tree kind' children idiom =>
    cases h
    exact ⟨children, idiom, rfl⟩

mutual

/-- `p` holds of every inner node, with its children and the positions from `first` on that it
covers. -/
def Everywhere (p : Nonterminal → List Node → (first last : Nat) → Prop) (first : Nat) :
    Node → Prop
  | token _ => True
  | tree kind children _ =>
    p kind children first (first + (tokensOf children).length) ∧ EverywhereOf p first children

def EverywhereOf (p : Nonterminal → List Node → (first last : Nat) → Prop) (first : Nat) :
    List Node → Prop
  | [] => True
  | node :: rest => node.Everywhere p first ∧ EverywhereOf p (first + node.tokens.length) rest

end

@[simp] theorem tokensOf_append (nodes rest : List Node) :
    tokensOf (nodes ++ rest) = tokensOf nodes ++ tokensOf rest := by
  induction nodes with
  | nil => rfl
  | cons node nodes ih => simp [tokensOf, ih]

@[simp] theorem everywhereOf_append {p : Nonterminal → List Node → Nat → Nat → Prop} {first : Nat}
    {nodes rest : List Node} :
    EverywhereOf p first (nodes ++ rest) ↔
      EverywhereOf p first nodes ∧ EverywhereOf p (first + (tokensOf nodes).length) rest := by
  induction nodes generalizing first with
  | nil => simp [EverywhereOf, tokensOf]
  | cons node nodes ih => simp [EverywhereOf, tokensOf, ih, and_assoc, Nat.add_assoc]

end Node

namespace Derivation

open Grammar

variable {rules : List Rule} {r : Rule} {parts : List Derivation}
  {p : Nonterminal → List Node → Nat → Nat → Prop} {first : Nat}

@[simp] theorem symbol_tree (d : Derivation) : d.tree.symbol = d.symbol := by
  cases d <;> rfl

@[simp] theorem symbols_treesOf (parts : List Derivation) :
    (treesOf parts).map Node.symbol = parts.map symbol := by
  induction parts with
  | nil => rfl
  | cons d parts ih => simp [treesOf, ih]

/-- The children of a node are the trees of its parts, or the items of a list and one more. -/
theorem arrange_cases (h : Fits rules r parts) :
    ((r.lhs.isCollected && r.isAppend) = false ∧ arrange r (treesOf parts) = treesOf parts) ∨
      ∃ items rest, treesOf parts = .plain r.lhs items :: rest ∧
        arrange r (treesOf parts) = items ++ rest := by
  cases parts with
  | nil =>
    refine .inl ⟨?_, rfl⟩
    rw [Rule.isAppend, ← h.2]
    exact Bool.and_false _
  | cons d rest =>
    rw [treesOf, arrange]
    split
    next hcollect =>
      have happend := (Bool.and_eq_true_iff.1 hcollect).2
      obtain ⟨items, hd⟩ := tree_isTree (h.first_of_isAppend happend)
      exact .inr ⟨items, treesOf rest, by rw [hd], by rw [hd]; rfl⟩
    next hplain => exact .inl ⟨Bool.eq_false_iff.2 hplain, rfl⟩

theorem tokensOf_arrange (h : Fits rules r parts) :
    Node.tokensOf (arrange r (treesOf parts)) = Node.tokensOf (treesOf parts) := by
  rcases arrange_cases h with ⟨-, he⟩ | ⟨items, rest, htrees, he⟩
  · rw [he]
  · rw [he, htrees, Node.tokensOf_append]
    rfl

mutual

theorem tokens_tree : ∀ {d : Derivation} {ok : Rule → List Derivation → Nat → Nat → Prop}
    {first : Nat}, (∀ r parts i j, ok r parts i j → Fits rules r parts) → d.Everywhere ok first →
      d.tree.tokens = d.tokens
  | leaf _, _, _, _, _ => rfl
  | node r parts, ok, first, hok, hd => by
    rw [tree, tokens, ← tokensOf_treesOf hok hd.2, ← tokensOf_arrange (hok _ _ _ _ hd.1)]
    rfl

theorem tokensOf_treesOf : ∀ {ds : List Derivation}
    {ok : Rule → List Derivation → Nat → Nat → Prop} {first : Nat},
    (∀ r parts i j, ok r parts i j → Fits rules r parts) → EverywhereOf ok first ds →
      Node.tokensOf (treesOf ds) = tokensOf ds
  | [], _, _, _, _ => rfl
  | d :: rest, ok, first, hok, hd => by
    rw [treesOf, Node.tokensOf, tokensOf, tokens_tree hok hd.1, tokensOf_treesOf hok hd.2]

end

mutual

/-- What every use of a rule hands on to its node, given the nodes below, holds everywhere in the
tree. -/
theorem Everywhere.tree {ok : Rule → List Derivation → Nat → Nat → Prop}
    (hfits : ∀ r parts i j, ok r parts i j → Fits rules r parts)
    (hstep : ∀ r parts i j, ok r parts i j → Node.EverywhereOf p i (treesOf parts) →
      p r.lhs (arrange r (treesOf parts)) i j) :
    ∀ {d : Derivation} {first : Nat}, d.Everywhere ok first → d.tree.Everywhere p first
  | leaf _, _, _ => trivial
  | node r parts, first, hd => by
    have hparts := EverywhereOf.trees hfits hstep hd.2
    have hfit := hfits _ _ _ _ hd.1
    have htokens := (tokensOf_arrange hfit).trans (tokensOf_treesOf hfits hd.2)
    refine ⟨?_, ?_⟩
    · rw [htokens]
      exact hstep _ _ _ _ hd.1 hparts
    · rcases arrange_cases hfit with ⟨-, he⟩ | ⟨items, rest, htrees, he⟩
      · rw [he]
        exact hparts
      · rw [he, Node.everywhereOf_append]
        rw [htrees] at hparts
        exact ⟨hparts.1.2, hparts.2⟩

theorem EverywhereOf.trees {ok : Rule → List Derivation → Nat → Nat → Prop}
    (hfits : ∀ r parts i j, ok r parts i j → Fits rules r parts)
    (hstep : ∀ r parts i j, ok r parts i j → Node.EverywhereOf p i (treesOf parts) →
      p r.lhs (arrange r (treesOf parts)) i j) :
    ∀ {ds : List Derivation} {first : Nat}, EverywhereOf ok first ds →
      Node.EverywhereOf p first (treesOf ds)
  | [], _, _ => trivial
  | d :: rest, first, hd => by
    refine ⟨Everywhere.tree hfits hstep hd.1, ?_⟩
    rw [tokens_tree hfits hd.1]
    exact EverywhereOf.trees hfits hstep hd.2

end

end Derivation

namespace Grammar

/-- The items of a list of any length. -/
def itemSymbol? : Nonterminal → Option Symbol
  | .exprs | .optExprs => some (n .exprStmt)
  | .varlist => some (n .varbind)
  | .labeledClauses => some (n .labeledClause)
  | .comeFroms => some (t .comeFrom)
  | _ => none

/-- A list holds its items and nothing else. -/
def HoldsItems (kind : Nonterminal) (children : List Node) : Prop :=
  ∀ s, itemSymbol? kind = some s → ∀ child ∈ children, child.symbol = s

/-- A list starts with its first item or with nothing, and grows by one item at its end. -/
theorem rule_of_itemSymbol (source : List Instruction) :
    ∀ r ∈ base ++ arityRules source, ∀ s, itemSymbol? r.lhs = some s →
      r.rhs = [] ∨ r.rhs = [s] ∨ r.rhs = [.nonterminal r.lhs, s] := by
  have hbase : ∀ r ∈ base, ∀ s ∈ itemSymbol? r.lhs,
      r.rhs = [] ∨ r.rhs = [s] ∨ r.rhs = [.nonterminal r.lhs, s] := by
    decide +kernel
  intro r hr s hs
  rcases List.mem_append.1 hr with hr | hr
  · exact hbase r hr s hs
  · obtain ⟨family, count, -, rfl | rfl⟩ := arityRulesAfter_mem hr <;> cases hs

theorem holdsItems_arrange {source : List Instruction} {r : Rule} {parts : List Derivation}
    {first : Nat} (hfits : Derivation.Fits (base ++ arityRules source) r parts)
    (hparts : Node.EverywhereOf (fun kind children _ _ => HoldsItems kind children) first
      (Derivation.treesOf parts)) :
    HoldsItems r.lhs (Derivation.arrange r (Derivation.treesOf parts)) := by
  intro s hs child hchild
  have hcollected : r.lhs.isCollected = true := by
    revert hs
    cases r.lhs <;> simp [itemSymbol?, Nonterminal.isCollected]
  have hsymbols := (Derivation.symbols_treesOf parts).trans hfits.2
  have hrule := rule_of_itemSymbol source r hfits.1 s hs
  rcases Derivation.arrange_cases hfits with ⟨hplain, he⟩ | ⟨items, rest, htrees, he⟩
  · have hmem := List.mem_map_of_mem (f := Node.symbol) (he ▸ hchild)
    rw [hsymbols] at hmem
    rcases hrule with hrhs | hrhs | hrhs
    · simp [hrhs] at hmem
    · simpa [hrhs] using hmem
    · simp [hcollected, Rule.isAppend, hrhs] at hplain
  · rw [htrees] at hsymbols hparts
    rw [he] at hchild
    rcases List.mem_append.1 hchild with hchild | hchild
    · exact hparts.1.1 s hs child hchild
    · have hmem := List.mem_map_of_mem (f := Node.symbol) hchild
      rcases hrule with hrhs | hrhs | hrhs
      · simp [hrhs] at hsymbols
      · rw [hrhs, List.map_cons] at hsymbols
        simp [(List.cons.inj hsymbols).2] at hmem
      · rw [hrhs, List.map_cons] at hsymbols
        simpa [(List.cons.inj hsymbols).2] using hmem

end Grammar

namespace Extraction

open Grammar ElispLift.Derivation

theorem sound_chart (rules : List Rule) (context : Context) (start : Nonterminal) :
    Input.Sound rules
      ⟨ofRules rules, context, ((ofRules rules).chartOf context start).ends⟩ := by
  have hfilled := filled_chart rules context.allowsSpan start (context.tokens.toList.map (·.kind))
  exact ⟨fun kind nr hnr => (numbered_ofRules rules).mem_rules hnr,
    fun kind first last hlast => (hfilled.records.covered kind first last hlast).1⟩

theorem exists_of_run {rules : List Rule} {input : Input} {span : Span} {tree : Node}
    {memory : Memory} (h : input.Sound rules)
    (hspan : Passes input.context.allowsSpan span.kind span.first span.last)
    (hrun : run input span = (some tree, memory)) :
    ∃ d : Derivation, d.Builds rules input.context span tree := by
  have hmeets := (meets_build h (maxLevels input) [] span hspan).outcome .start Memory.keeps_start
  unfold run at hrun
  split at hrun
  next result hresult =>
    change build input (maxLevels input) [] span .start = some result at hresult
    rw [hresult, hrun] at hmeets
    exact hmeets.2 tree rfl
  next => simp at hrun

end Extraction

/-- A parsed tree is the tree of a derivation of the instructions by the rules, whose spans and
children are all allowed. -/
theorem exists_derivation_of_parse {start : Nonterminal} {extra : List Rule}
    {tokens : List Instruction} {tree : Node} (h : parse start extra tokens = .ok tree) :
    ∃ d : Derivation, d.symbol = .nonterminal start ∧ d.tokens = tokens ∧ d.tree = tree ∧
      d.Everywhere (Derivation.Checked (Grammar.base ++ extra) ⟨tokens.toArray⟩) 0 := by
  unfold parse Grammar.parse at h
  dsimp only at h
  split at h
  next found hfound =>
    obtain rfl := Except.ok.inj h
    split at hfound
    next hcovers =>
      split at hfound
      next memory hrun =>
        obtain rfl := Except.ok.inj hfound
        have hsound := Extraction.sound_chart (Grammar.base ++ extra) ⟨tokens.toArray⟩ start
        have hallowed := hsound.ends_allowed start 0 tokens.length (List.contains_iff_mem.1 hcovers)
        obtain ⟨d, hd⟩ := Extraction.exists_of_run hsound (fun _ => hallowed) hrun
        have htokens : d.tokens = tokens := by simpa using hd.tokens_eq.symm
        have htree := hd.tree_eq
        subst htree
        exact ⟨d, hd.symbol_eq, htokens, rfl, hd.checked⟩
      next => simp at hfound
    next => simp at hfound
  next => simp at h

/-- A parsed tree holds exactly the instructions. It is the tree of a derivation by the rules, whose
spans and children are all allowed, and so are the spans of its own nodes. With rules that the
instructions need, all lists in it are flat. -/
theorem parse_sound {start : Nonterminal} {extra : List Rule} {tokens : List Instruction}
    {tree : Node} (h : parse start extra tokens = .ok tree) :
    tree.tokens = tokens ∧
    (∃ d : Derivation, d.symbol = .nonterminal start ∧ d.tokens = tokens ∧ d.tree = tree ∧
      d.Everywhere (Derivation.Checked (Grammar.base ++ extra) ⟨tokens.toArray⟩) 0) ∧
    tree.Everywhere (fun kind _ first last => first < last →
      Context.allowsSpan ⟨tokens.toArray⟩ kind first last = true) 0 ∧
    ∀ source, extra = Grammar.arityRules source →
      tree.Everywhere (fun kind children _ _ => Grammar.HoldsItems kind children) 0 := by
  obtain ⟨d, hsymbol, htokens, rfl, hd⟩ := exists_derivation_of_parse h
  have hfits : ∀ r parts i j, Derivation.Checked (Grammar.base ++ extra) ⟨tokens.toArray⟩ r
      parts i j → Derivation.Fits (Grammar.base ++ extra) r parts :=
    fun _ _ _ _ hchecked => hchecked.fits
  refine ⟨(Derivation.tokens_tree hfits hd).trans htokens, ⟨d, hsymbol, htokens, rfl, hd⟩, ?_, ?_⟩
  · exact Derivation.Everywhere.tree hfits (fun _ _ _ _ hchecked _ => hchecked.span_allowed) hd
  · rintro source rfl
    exact Derivation.Everywhere.tree hfits
      (fun _ _ _ _ hchecked hparts => Grammar.holdsItems_arrange hchecked.fits hparts) hd

/-- A variable is set to a list of one element and returned. -/
def setAndReturn : List Instruction :=
  [.ofOpcode .constant (some (.int 5)) 0, ⟨.counted .list 1, none, 1, none⟩,
    .ofOpcode .varset (some (.symbol "x")) 2, .ofOpcode .varref (some (.symbol "x")) 3,
    .ofOpcode .ret none 4]

theorem parse_sound_setAndReturn :
    ∃ tree, parse .fnBody (Grammar.arityRules setAndReturn) setAndReturn = .ok tree ∧
      tree.tokens = setAndReturn := by
  have hparsed : (parse .fnBody (Grammar.arityRules setAndReturn) setAndReturn).toOption.any
      (fun _ => true) = true := by
    decide +kernel
  obtain ⟨tree, hparse, -⟩ := exists_ok_of_any hparsed
  exact ⟨tree, hparse, (parse_sound hparse).1⟩

end ElispLift
