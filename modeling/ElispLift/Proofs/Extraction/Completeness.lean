import ElispLift.Proofs.Extraction.Failure
import ElispLift.Proofs.Extraction.Parse

/-!
# Derivations that are found

The extraction keeps one tree for a nonterminal and a span, the first that it finds, and never goes
back to another one when a rule around it refuses this one. So a derivation helps to find a tree if
its rules accept the trees that are kept for their parts, and not if they accept the parts
themselves.
-/

namespace ElispLift

namespace Extraction

open ElispLift.Derivation

/-- The tree that was found for a span. -/
def Memory.found? (m : Memory) (span : Span) : Option Node := m.known[span]?.join

/-- Whether it is remembered that a span has no tree. -/
def Memory.gaveUp (m : Memory) (span : Span) : Bool := m.known[span]?.any (·.isNone)

/-- What stands for a part that starts at `first`: an instruction for itself, and for a nonterminal
the tree that was found for it over the same instructions. -/
def Memory.tree? (m : Memory) (first : Nat) : Derivation → Option Node
  | .leaf i => some (.token i)
  | .node r parts => m.found? ⟨r.lhs, first, first + (tokensOf parts).length⟩

def Memory.trees? (m : Memory) (first : Nat) : List Derivation → Option (List Node)
  | [] => some []
  | d :: rest => do return (← m.tree? first d) :: (← m.trees? (first + d.tokens.length) rest)

/-- A use of a rule whose span is allowed, and so are the trees of its parts. -/
def Valid (rules : List Rule) (context : Context) (r : Rule) (parts : List Derivation)
    (first last : Nat) : Prop :=
  Fits rules r parts ∧ context.allowsSpan r.lhs first last = true ∧
    context.allowsChildren r.lhs (treesOf parts) last = true

/-- A use of a rule that the extraction can follow, where `m` is remembered in the end. Its span is
allowed, and so are the trees that were found for its parts. It was not given up while a part over
all its instructions was being built, which got a tree later. -/
structure Followable (rules : List Rule) (context : Context) (m : Memory) (r : Rule)
    (parts : List Derivation) (first last : Nat) : Prop where
  fits : Fits rules r parts
  span_allowed : context.allowsSpan r.lhs first last = true
  children_allowed : ∀ trees ∈ m.trees? first parts, context.allowsChildren r.lhs trees last = true
  lasting : m.gaveUp ⟨r.lhs, first, last⟩ = true → ∀ part ∈ parts,
    first + part.tokens.length = last → part.isLeaf = true ∨ m.tree? first part = none

instance (rules : List Rule) (context : Context) (r : Rule) (parts : List Derivation)
    (first last : Nat) : Decidable (Valid rules context r parts first last) :=
  inferInstanceAs (Decidable (_ ∧ _ ∧ _))

instance (rules : List Rule) (context : Context) (m : Memory) (r : Rule) (parts : List Derivation)
    (first last : Nat) : Decidable (Followable rules context m r parts first last) :=
  decidable_of_iff (Fits rules r parts ∧ context.allowsSpan r.lhs first last = true ∧
    (∀ trees ∈ m.trees? first parts, context.allowsChildren r.lhs trees last = true) ∧
    (m.gaveUp ⟨r.lhs, first, last⟩ = true → ∀ part ∈ parts,
      first + part.tokens.length = last → part.isLeaf = true ∨ (m.tree? first part).isNone = true))
    ⟨fun ⟨hfits, hspan, hchildren, hlasting⟩ => ⟨hfits, hspan, hchildren, by simpa using hlasting⟩,
      fun h => ⟨h.fits, h.span_allowed, h.children_allowed, by simpa using h.lasting⟩⟩

/-- What the search for the tree of some instructions reads. -/
def inputOf (rules : List Rule) (start : Nonterminal) (tokens : List Instruction) : Input :=
  ⟨Grammar.ofRules rules, ⟨tokens.toArray⟩,
    ((Grammar.ofRules rules).chartOf ⟨tokens.toArray⟩ start).ends⟩

/-- What is remembered when that search ends. -/
def remembered (rules : List Rule) (start : Nonterminal) (tokens : List Instruction) : Memory :=
  (run (inputOf rules start tokens) ⟨start, 0, tokens.length⟩).2

theorem Memory.gaveUp_iff {m : Memory} {span : Span} :
    m.gaveUp span = true ↔ m.known[span]? = some none := by
  unfold Memory.gaveUp
  cases m.known[span]? with
  | none => simp
  | some found => simp

section

open Grammar

variable {rules : List Rule} {tokens : List Instruction} {start kind : Nonterminal} {c : Chart}
  {m : Memory} {r : Rule} {parts rest : List Derivation} {d : Derivation} {span : Span}
  {pos last : Nat} {children : List Node}

theorem Followable.sound {context : Context} {first : Nat}
    (h : Followable rules context m r parts first last) :
    Sound rules (Passes context.allowsSpan) r parts first last :=
  ⟨h.fits, fun _ => h.span_allowed⟩

theorem derives_of_followable {after : List Instruction}
    (hd : d.Everywhere (Followable rules ⟨tokens.toArray⟩ m) pos)
    (htokens : tokens.drop pos = d.tokens ++ after) :
    Derives rules (tokens.map (·.kind)) (Passes (Context.allowsSpan ⟨tokens.toArray⟩)) [d.symbol]
      pos (pos + d.tokens.length) :=
  derives d (hd.imp fun _ _ _ _ => Followable.sound) htokens

/-- The chart has to cover the span of a derivation. -/
theorem covered {after : List Instruction}
    (hd : d.Everywhere (Followable rules ⟨tokens.toArray⟩ m) pos)
    (hsymbol : d.symbol = .nonterminal kind) (htokens : tokens.drop pos = d.tokens ++ after) :
    Covered rules (tokens.map (·.kind)) (Context.allowsSpan ⟨tokens.toArray⟩) kind pos
      (pos + d.tokens.length) := by
  have hderives := derives_of_followable hd htokens
  cases d with
  | leaf i => cases hsymbol
  | node r parts =>
    obtain rfl : r.lhs = kind := by simpa [symbol] using hsymbol
    obtain ⟨r', hr', hlhs, hparts, -⟩ := hderives.of_single
    exact ⟨hd.1.span_allowed, r', hr', hlhs, hparts⟩

/-- The parts `ds` are those behind the trees in `children`, and the chart has come to them. -/
structure Remaining (rules : List Rule) (tokens : List Instruction) (c : Chart) (m : Memory)
    (span : Span) (pos : Nat) (children : List Node) (ds : List Derivation) : Prop where
  followable : EverywhereOf (Followable rules ⟨tokens.toArray⟩ m) pos ds
  tokens_eq : ∃ after, tokens.drop pos = tokensOf ds ++ after
  reached : ∃ item ∈ c.itemsAt pos, item.rest = ds.map symbol
  first_le : span.first ≤ pos
  last_eq : span.last = pos + (tokensOf ds).length
  allowed : ∀ trees ∈ m.trees? pos ds,
    Context.allowsChildren ⟨tokens.toArray⟩ span.kind (children ++ trees) span.last = true
  lasting : ∀ part ∈ ds, span.first + part.tokens.length = span.last →
    part.isLeaf = true ∨ m.tree? span.first part = none

namespace Remaining

theorem last_eq_add (h : Remaining rules tokens c m span pos children (d :: rest)) :
    span.last = pos + d.tokens.length + (tokensOf rest).length := by
  rw [h.last_eq]
  simp [tokensOf, Nat.add_assoc]

theorem exists_tokens_eq (h : Remaining rules tokens c m span pos children (d :: rest)) :
    ∃ after, tokens.drop pos = d.tokens ++ (tokensOf rest ++ after) := by
  obtain ⟨after, hafter⟩ := h.tokens_eq
  exact ⟨after, by simpa [tokensOf] using hafter⟩

theorem awaited (h : Remaining rules tokens c m span pos children (d :: rest))
    (hsymbol : d.symbol = .nonterminal kind) : Awaited start c kind pos := by
  obtain ⟨item, hitem, hrest⟩ := h.reached
  rw [List.map_cons, hsymbol] at hrest
  exact .inr ⟨item, hitem, Item.awaits_iff.2 ⟨_, hrest⟩⟩

variable (hfilled : Filled rules (tokens.map (·.kind)) (Context.allowsSpan ⟨tokens.toArray⟩) start
  ((tokens.map (·.kind)).length + 1) c)

include hfilled

/-- With a tree for the first part, the others remain. -/
theorem next (h : Remaining rules tokens c m span pos children (d :: rest)) {tree : Node}
    (htree : m.tree? pos d = some tree) :
    Remaining rules tokens c m span (pos + d.tokens.length) (children ++ [tree]) rest := by
  obtain ⟨after, hafter⟩ := h.exists_tokens_eq
  obtain ⟨item, hitem, hrest⟩ := h.reached
  have hdrop : tokens.drop (pos + d.tokens.length) = tokensOf rest ++ after := by
    rw [← List.drop_drop, hafter, List.drop_left]
  refine ⟨h.followable.2, ⟨after, hdrop⟩, ?_, Nat.le_add_right_of_le h.first_le, h.last_eq_add,
    fun trees htrees => ?_, fun part hpart => h.lasting part (List.mem_cons_of_mem _ hpart)⟩
  · have hpos : pos ≤ (tokens.map (·.kind)).length := by
      by_contra hlt
      simp [hfilled.itemsAt_eq_nil (i := pos) (by omega)] at hitem
    have hderives := derives_of_followable h.followable.1 hafter
    obtain ⟨item', hitem', hrest', -⟩ :=
      hfilled.exists_advanced hderives (hderives.le_length hpos) hitem hrest
    exact ⟨item', hitem', hrest'⟩
  · have hall : m.trees? pos (d :: rest) = some (tree :: trees) := by
      simp only [Memory.trees?, htree, Option.mem_def.1 htrees]
      rfl
    simpa using h.allowed _ hall

/-- Where the first part ends is tried. -/
theorem mem_endsFor (h : Remaining rules tokens c m span pos children (.node r parts :: rest)) :
    pos + (Derivation.node r parts).tokens.length ∈ endsFor
      ⟨ofRules rules, ⟨tokens.toArray⟩, c.ends⟩ r.lhs (rest.map symbol).isEmpty pos span.last := by
  obtain ⟨after, hafter⟩ := h.exists_tokens_eq
  have hends := (hfilled.mem_ends_iff (h.awaited rfl)).2 (covered h.followable.1 rfl hafter)
  refine Extraction.mem_endsFor.2 ⟨.inl ⟨hends, ?_⟩, fun hlast => ?_⟩
  · rw [h.last_eq_add]
    exact Nat.le_add_right _ _
  · obtain rfl : rest = [] := by simpa using hlast
    rw [h.last_eq_add]
    rfl

end Remaining

mutual

/-- The span of a derivation is not given up. -/
theorem not_given_up
    (hfilled : Filled rules (tokens.map (·.kind)) (Context.allowsSpan ⟨tokens.toArray⟩) start
      ((tokens.map (·.kind)).length + 1) c)
    (hm : m.Accounts ⟨ofRules rules, ⟨tokens.toArray⟩, c.ends⟩ []) (hleft : m.exhausted = false) :
    ∀ {d : Derivation} {kind : Nonterminal} {pos : Nat} {after : List Instruction},
      d.symbol = .nonterminal kind →
      d.Everywhere (Followable rules ⟨tokens.toArray⟩ m) pos →
      tokens.drop pos = d.tokens ++ after → Awaited start c kind pos →
      m.gaveUp ⟨kind, pos, pos + d.tokens.length⟩ = false
  | .leaf i, _, _, _, hsymbol, _, _, _ => by cases hsymbol
  | .node r parts, kind, pos, after, hsymbol, hd, htokens, hawaited => by
    obtain rfl : r.lhs = kind := by simpa [symbol] using hsymbol
    refine Bool.eq_false_iff.2 fun hgaveUp => ?_
    obtain ⟨nr, hnr, rfl⟩ := (numbered_ofRules rules).mem_iff.2 ⟨hd.1.fits.1, rfl⟩
    have hblocked := hm.failures hleft _ (Memory.gaveUp_iff.1 hgaveUp) nr hnr
    rw [← hd.1.fits.2] at hblocked
    have hitem := hfilled.start_mem_of_awaited hawaited nr hnr
    exact not_blocked hfilled hm hleft ⟨hd.2, ⟨after, htokens⟩, ⟨_, hitem, hd.1.fits.2.symm⟩,
      Nat.le_refl _, rfl, hd.1.children_allowed, hd.1.lasting hgaveUp⟩ hblocked

/-- The parts of a rule lead to its end. -/
theorem not_blocked
    (hfilled : Filled rules (tokens.map (·.kind)) (Context.allowsSpan ⟨tokens.toArray⟩) start
      ((tokens.map (·.kind)).length + 1) c)
    (hm : m.Accounts ⟨ofRules rules, ⟨tokens.toArray⟩, c.ends⟩ []) (hleft : m.exhausted = false) :
    ∀ {ds : List Derivation} {span : Span} {pos : Nat} {children : List Node},
      Remaining rules tokens c m span pos children ds →
      ¬Blocked ⟨ofRules rules, ⟨tokens.toArray⟩, c.ends⟩ m [] span (ds.map symbol) pos children
  | [], span, pos, children, h, hblocked => by
    have hrefused := hblocked h.last_eq.symm
    rw [← List.append_nil children, h.allowed [] rfl] at hrefused
    cases hrefused
  | .leaf i :: rest, span, pos, children, h, hblocked => by
    obtain ⟨after, hafter⟩ := h.exists_tokens_eq
    have htoken : tokens.toArray[pos]? = some i := by
      rw [List.getElem?_toArray, ← Nat.add_zero pos, ← List.getElem?_drop, hafter]
      rfl
    have hlast := h.last_eq_add
    refine not_blocked hfilled hm hleft (h.next hfilled rfl) (hblocked i htoken ?_ rfl)
    simp only [hlast, Derivation.tokens, List.length_singleton]
    omega
  | .node r parts :: rest, span, pos, children, h, hblocked => by
    obtain ⟨after, hafter⟩ := h.exists_tokens_eq
    rcases hblocked _ (h.mem_endsFor hfilled) with
      hnone | ⟨-, -, hmem⟩ | ⟨tree, hknown, hwhole | hnext⟩
    · -- The part itself was given up, which it is not by the induction.
      have hkept := not_given_up hfilled hm hleft rfl h.followable.1 hafter (h.awaited rfl)
      rw [Memory.gaveUp_iff.2 hnone] at hkept
      cases hkept
    · cases hmem
    all_goals have htree : m.tree? pos (.node r parts) = some tree := congrArg Option.join hknown
    · -- The part covers all instructions of the rule, and got its tree too late.
      obtain ⟨rfl, hlast⟩ := hwhole
      rcases h.lasting (.node r parts) (by simp) hlast with hleaf | hnone
      · cases hleaf
      · rw [htree] at hnone
        cases hnone
    · exact not_blocked hfilled hm hleft (h.next hfilled htree) hnext

end

theorem forward_inputOf (rules : List Rule) (start : Nonterminal) (tokens : List Instruction) :
    (inputOf rules start tokens).Forward := by
  have hfilled := filled_chart rules (Context.allowsSpan ⟨tokens.toArray⟩) start
    (tokens.map (·.kind))
  intro kind pos stop hstop
  obtain ⟨-, r, -, -, hderives⟩ := hfilled.records.covered kind pos stop hstop
  exact hderives.le

/-- The search finds a tree for a derivation that it can follow. -/
theorem exists_run_of_followable (hsymbol : d.symbol = .nonterminal start)
    (hd : d.Everywhere (Followable rules ⟨d.tokens.toArray⟩ (remembered rules start d.tokens)) 0)
    (hexhausted : (remembered rules start d.tokens).exhausted = false) :
    ((ofRules rules).chartOf ⟨d.tokens.toArray⟩ start).covers start 0 d.tokens.length = true ∧
      ∃ tree, (run (inputOf rules start d.tokens) ⟨start, 0, d.tokens.length⟩).1 = some tree := by
  have hfilled := filled_chart rules (Context.allowsSpan ⟨d.tokens.toArray⟩) start
    (d.tokens.map (·.kind))
  have hdrop : d.tokens.drop 0 = d.tokens ++ [] := by simp
  have hends := (hfilled.mem_ends_iff (.inl ⟨rfl, rfl⟩)).2 (covered hd hsymbol hdrop)
  have hlhs : ∀ kind, ∀ nr ∈ (ofRules rules).rulesFor kind, nr.rule.lhs = kind :=
    fun kind nr hnr => ((numbered_ofRules rules).mem_rules hnr).2
  obtain ⟨haccounts, hknown⟩ := run_accounts ⟨start, 0, d.tokens.length⟩
    (forward_inputOf rules start d.tokens) hlhs (Nat.zero_le _) (Nat.le_refl _)
  have hkept := not_given_up hfilled haccounts hexhausted hsymbol hd hdrop (.inl ⟨rfl, rfl⟩)
  rw [Nat.zero_add] at hends hkept
  refine ⟨List.contains_iff_mem.2 hends, Option.ne_none_iff_exists'.1 fun hfound => ?_⟩
  rw [hfound] at hknown
  rw [Memory.gaveUp_iff.2 hknown] at hkept
  cases hkept

end

end Extraction

section

open Extraction Grammar

/-- Parsing finds a tree if there is a derivation of the instructions that the extraction can follow
and no budget ran out. -/
theorem exists_parse_of_followable {start : Nonterminal} {extra : List Rule}
    {tokens : List Instruction} {d : Derivation} (hsymbol : d.symbol = .nonterminal start)
    (htokens : d.tokens = tokens)
    (hd : d.Everywhere (Followable (base ++ extra) ⟨tokens.toArray⟩
      (remembered (base ++ extra) start tokens)) 0)
    (hexhausted : (remembered (base ++ extra) start tokens).exhausted = false) :
    ∃ tree, parse start extra tokens = .ok tree := by
  subst htokens
  obtain ⟨hcovers, tree, htree⟩ := exists_run_of_followable hsymbol hd hexhausted
  exact ⟨tree, parse_of_run hcovers htree⟩

/-- The derivation of `(if a b)`, where `b` is an instruction. -/
def conditional (branch : Instruction) : Derivation :=
  .node ⟨.fnBody, [n .body, n .optLabel, n .optReturn]⟩
    [.node ⟨.body, [n .exprs]⟩
      [.node ⟨.exprs, [n .exprStmt]⟩
        [.node ⟨.exprStmt, [n .expr, n .optDiscard]⟩
          [.node ⟨.expr, [n .ifForm]⟩
            [.node ⟨.ifForm, [n .expr, t .gotoIfNil, n .expr, n .optComeFrom, n .optLabel]⟩
              [.node ⟨.expr, [t .varref]⟩ [.leaf (.ofOpcode .varref (some (.symbol "a")) 0)],
                .leaf (.ofOpcode .gotoIfNil (some (.symbol "1")) 1),
                .node ⟨.expr, [.terminal branch.kind]⟩ [.leaf branch],
                .node ⟨.optComeFrom, []⟩ [],
                .node ⟨.optLabel, [t .label]⟩ [.leaf (.ofOpcode .label (some (.symbol "1")) 3)]]],
            .node ⟨.optDiscard, []⟩ []]]],
      .node ⟨.optLabel, []⟩ [],
      .node ⟨.optReturn, [t .ret]⟩ [.leaf (.ofOpcode .ret none 3)]]

theorem exists_parse_conditional : ∃ tree,
    parse .fnBody [] (conditional (.ofOpcode .varref (some (.symbol "b")) 2)).tokens = .ok tree := by
  let d := conditional (.ofOpcode .varref (some (.symbol "b")) 2)
  have hfollowable : d.Everywhere (Followable (base ++ []) ⟨d.tokens.toArray⟩
      (remembered (base ++ []) .fnBody d.tokens)) 0 ∧
        (remembered (base ++ []) .fnBody d.tokens).exhausted = false := by
    decide +kernel
  exact exists_parse_of_followable rfl rfl hfollowable.1 hfollowable.2

/-- A valid derivation is not enough. A constant is read as a name before the rule that reads it as
an expression is tried, and that reading is kept although the conditional refuses names. -/
theorem parse_incomplete :
    ¬∀ (start : Nonterminal) (extra : List Rule) (tokens : List Instruction),
      (∃ d : Derivation, d.symbol = .nonterminal start ∧ d.tokens = tokens ∧
        d.Everywhere (Valid (base ++ extra) ⟨tokens.toArray⟩) 0) →
      (remembered (base ++ extra) start tokens).exhausted = false →
      ∃ tree, parse start extra tokens = .ok tree := by
  intro h
  let extra : List Rule := [⟨.expr, [t .constant]⟩]
  let d := conditional (.ofOpcode .constant (some (.int 5)) 2)
  obtain ⟨hvalid, hexhausted, hfails⟩ :
      d.Everywhere (Valid (base ++ extra) ⟨d.tokens.toArray⟩) 0 ∧
        (remembered (base ++ extra) .fnBody d.tokens).exhausted = false ∧
          (parse .fnBody extra d.tokens).toOption.isNone = true := by
    decide +kernel
  obtain ⟨tree, htree⟩ := h .fnBody extra d.tokens ⟨d, rfl, rfl, hvalid⟩ hexhausted
  rw [htree] at hfails
  cases hfails

end

end ElispLift
