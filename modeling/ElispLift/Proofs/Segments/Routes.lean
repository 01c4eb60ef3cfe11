import ElispLift.Proofs.Segments.Levels
import ElispLift.Proofs.Segments.Spans

/-!
# Finding the readings of segments

Where a nonterminal is waited for, its reading over a part of a segment is always found: each symbol
of the rule for it is given the longest span that leads anywhere, and over the same instructions
only nonterminals of lower level are built in between.
-/

namespace ElispLift.StraightLine

open Grammar Extraction

/-- No instruction takes more operands than a byte can count, and a name. -/
def CountsBounded (tokens : List Instruction) : Prop :=
  ∀ i ∈ tokens, ∀ op, operation? i.kind = some op → op.arity ≤ maxCount + 1

/-- A reading of a part of a segment, where it is waited for. -/
def InnerTarget (tokens : List Instruction) (st : Nat → State) (start : Nonterminal) (span : Span)
    (tree : Node) : Prop :=
  Inner tokens st span.kind span.first span.last tree ∧
    Due (tokenRules tokens) start tokens span.kind span.first

/-- The parts over the same instructions have a lower level. -/
def InnerPart (tokens : List Instruction) (st : Nat → State) (start : Nonterminal)
    (span part : Span) (tree : Node) : Prop :=
  InnerTarget tokens st start part tree ∧
    (part.first = span.first → part.last = span.last → level part.kind < level span.kind)

variable {tokens : List Instruction} {st : Nat → State} {start kind : Nonterminal}
  {p q m e pos stop : Nat} {i : Instruction} {op : Operation} {node tree child : Node}
  {nodes : List Node} {r : Rule} {span : Span} {rest : List Symbol} {s : Symbol}

theorem Inner.isInner (h : Inner tokens st kind p e node) : isInner kind = true := by
  cases kind <;> first
    | rfl
    | exact h.elim

theorem Inner.covers (ht : Delimited tokens st) (h : Inner tokens st kind p e node) :
    Covers (tokenRules tokens) tokens ⟨kind, p, e⟩ :=
  tokenDerives_inner ht h

/-- A reading is made of steps. -/
theorem Inner.isStep (ht : Segmented tokens st) (h : Inner tokens st kind p e node) :
    ∀ q, p ≤ q → q < e → ∃ i, tokens[q]? = some i ∧ isStep i.kind = true := by
  intro q hlow hhigh
  have hform : ∀ {kind}, ReadsForm tokens st kind p e node →
      ∃ i, tokens[q]? = some i ∧ StraightLine.isStep i.kind = true := by
    rintro kind h
    obtain ⟨other, hother⟩ := h.readsExpr
    exact hother.isStep ht hlow hhigh
  have hsign : ∀ {kind}, ReadsSign tokens kind p e node →
      ∃ i, tokens[q]? = some i ∧ StraightLine.isStep i.kind = true := by
    rintro kind ⟨i, op, rfl, hi, hop, -⟩
    obtain rfl : q = p := by omega
    exact ⟨i, hi, by simp [StraightLine.isStep, hop]⟩
  unfold Inner Shape at h
  split at h
  · exact (h.resolve_right id).isStep ht hlow hhigh
  · exact ReadsExpr.isStep ht (.inr ⟨node, h, rfl⟩) hlow hhigh
  all_goals first
    | exact hform h
    | exact hsign h
    | skip
  · rcases h with ⟨rfl, -⟩ | ⟨i, rfl, hi, hkind, -⟩
    · omega
    · obtain rfl : q = p := by omega
      exact ⟨i, hi, by rw [hkind]; rfl⟩
  · rcases h with h | ⟨-, hfalse, -⟩
    · exact h.isStep ht hlow hhigh
    · exact hfalse.elim
  · obtain ⟨items, h, -⟩ := h
    exact (listed_item_iff.1 h).isStep ht hlow hhigh
  · obtain ⟨items, h, -⟩ := h
    exact (listed_item_iff.1 h).isStep ht hlow hhigh
  · exact h.elim

/-- A value that is taken is an expression. -/
theorem Spends.inner {o : Opcode} {v : Pending} (ht : Segmented tokens st)
    (h : Spends tokens st o p m v i) : Inner tokens st .expr p m v.tree := by
  obtain ⟨m', op, args, j, he, htakes, htree, -⟩ :=
    ht.exists_takes (Nat.le_of_lt (h.lt ht).2) h.pending_eq
  rw [h.first_eq] at htakes
  exact .inl (.inl ⟨m', op, args, j, he, htakes, htree⟩)

/-! ### What is covered -/

theorem calm_of_steps
    (hsteps : ∀ q, p ≤ q → q < e → ∃ i, tokens[q]? = some i ∧ isStep i.kind = true) :
    ∀ q, p ≤ q → q < e → ∀ i, tokens[q]? = some i → isStep i.kind = true ∨
      isCalm i.kind = true := by
  intro q hlow hhigh i hi
  obtain ⟨j, hj, hstep⟩ := hsteps q hlow hhigh
  obtain rfl := Option.some.inj (hi.symm.trans hj)
  exact .inl hstep

/-- Among steps, a nonterminal of segments covers its readings only. -/
theorem inner_of_covers (ht : Delimited tokens st) (hkind : isInner kind = true)
    (hsteps : ∀ q, p ≤ q → q < e → ∃ i, tokens[q]? = some i ∧ isStep i.kind = true)
    (h : Covers (tokenRules tokens) tokens ⟨kind, p, e⟩) :
    ∃ node, Inner tokens st kind p e node := by
  obtain ⟨nodes, hnodes⟩ := h.exists_nodes
  rcases inner_of_assembles ht (calm_of_steps hsteps) hnodes with hfree | ⟨node, hnode, -⟩
  · rw [not_isFree hfree] at hkind
    cases hkind
  · exact ⟨node, hnode⟩

theorem isSteep_eq_false (h : isFree kind = true ∨ StraightLine.isInner kind = true) :
    isSteep kind = false := by
  cases kind <;> first
    | rfl
    | exact absurd h (by decide)

/-- Among steps, returns and ends of bindings, nothing of a higher level is built inside a span. -/
theorem level_le_of_calm {part : Span} (ht : Delimited tokens st)
    (hcalm : ∀ q, span.first ≤ q → q < span.last → ∀ i, tokens[q]? = some i →
      isStep i.kind = true ∨ isCalm i.kind = true)
    (hspan : Covers (tokenRules tokens) tokens span)
    (hpart : part ∈ partsOf (inputOf (tokenRules tokens) start tokens) span)
    (hfirst : part.first = span.first) (hlast : part.last = span.last) :
    part = span ∨ Guards part span ∨ level part.kind ≤ level span.kind := by
  obtain ⟨nodes, hnodes⟩ := hspan.exists_nodes
  have hkind := (inner_of_assembles ht hcalm hnodes).imp id fun ⟨_, hinner, _⟩ => hinner.isInner
  exact level_le_of_mem_partsOf hspan.le (isSteep_eq_false hkind) hpart hfirst hlast

theorem level_le_of_steps {part : Span} (ht : Delimited tokens st)
    (hsteps : ∀ q, span.first ≤ q → q < span.last → ∃ i, tokens[q]? = some i ∧ isStep i.kind = true)
    (hspan : Covers (tokenRules tokens) tokens span)
    (hpart : part ∈ partsOf (inputOf (tokenRules tokens) start tokens) span)
    (hfirst : part.first = span.first) (hlast : part.last = span.last) :
    part = span ∨ Guards part span ∨ level part.kind ≤ level span.kind :=
  level_le_of_calm ht (calm_of_steps hsteps) hspan hpart hfirst hlast

/-- The rules for a nonterminal make the same tree of its reading. -/
theorem node_eq_of_assembles (ht : Delimited tokens st) {children : List Node}
    {check : Nonterminal → List Node → Nat → Prop} (h : Inner tokens st kind p e tree)
    (hr : r ∈ tokenRules tokens) (hlhs : r.lhs = kind)
    (hchildren : Assembles (tokenRules tokens) tokens check r.rhs p e children)
    (hallowed : check kind children e) : Extraction.node r children = tree := by
  subst hlhs
  obtain ⟨-, -, -, -, hpasses⟩ := (h.covers ht).of_single
  have hall : Assembles (tokenRules tokens) tokens check [.nonterminal r.lhs] p e
      [Extraction.node r children] := .nonterminal hr hchildren hpasses hallowed (.nil e)
  rcases inner_of_assembles ht (calm_of_steps (h.isStep ht.toSegmented)) hall with
    hfree | ⟨node, hnode, he⟩
  · have hinner := h.isInner
    rw [not_isFree hfree] at hinner
    cases hinner
  · rw [(List.cons.inj he).1]
    exact h.unique ht.toSegmented hnode

theorem allowsChildren_of_isInner (h : isInner kind = true) (children : List Node) (last : Nat) :
    Derivation.AllowsChildren tokens kind children last := by
  cases kind <;> first
    | rfl
    | cases h

/-! ### Routes -/

/-- A reading is routed if its rule has a route. -/
theorem routed_of_rule (nodes : List Node) (cost : Nat) (ht : Delimited tokens st)
    (h : InnerTarget tokens st start span tree) (hr : r ∈ tokenRules tokens)
    (hlhs : r.lhs = span.kind)
    (hroute : Arrives (tokenRules tokens) start tokens r.rhs span.first →
      Route (tokenRules tokens) start tokens (InnerPart tokens st start span) span.last cost r.rhs
        span.first nodes)
    (hcost : r.rhs.length + cost + 1 ≤ Budget.maxSteps) (hnode : Extraction.node r nodes = tree) :
    Routed (tokenRules tokens) start tokens (InnerPart tokens st start span) span tree := by
  obtain ⟨hinner, hdue⟩ := h
  refine .of_mem hr hlhs (fun r' hr' hlhs' _ children hchildren hallowed => ?_)
    (hroute (Due.arrives (hlhs ▸ hdue) hr)) hcost (allowsChildren_of_isInner hinner.isInner _ _)
    hnode
  exact node_eq_of_assembles ht hinner hr' hlhs' hchildren hallowed

/-- The last symbol is given its reading. -/
theorem route_final (ht : Delimited tokens st)
    (h : Arrives (tokenRules tokens) start tokens [.nonterminal kind] pos)
    (hinner : Inner tokens st kind pos span.last node)
    (hlevel : pos = span.first → level kind < level span.kind) :
    Route (tokenRules tokens) start tokens (InnerPart tokens st start span) span.last 0
      [.nonterminal kind] pos [node] :=
  Route.final h (hinner.covers ht) fun hdue => ⟨⟨hinner, hdue⟩, fun hfirst _ => hlevel hfirst⟩

/-- A symbol is given its reading if nothing longer is read, unless it is the whole of the span. -/
theorem route_next {cost : Nat} (ht : Delimited tokens st)
    (h : Arrives (tokenRules tokens) start tokens (.nonterminal kind :: s :: rest) pos)
    (hs : ∀ kind, s = .nonterminal kind → kind ∉ optional)
    (hinner : Inner tokens st kind pos stop node) (hlt : stop < span.last)
    (hlonger : ∀ q node, stop < q → q < span.last → Inner tokens st kind pos q node → False)
    (hsteps : ∀ q, pos ≤ q → q < span.last → ∃ i, tokens[q]? = some i ∧ isStep i.kind = true)
    (hrest : Arrives (tokenRules tokens) start tokens (s :: rest) stop →
      Route (tokenRules tokens) start tokens (InnerPart tokens st start span) span.last cost
        (s :: rest) stop nodes) :
    Route (tokenRules tokens) start tokens (InnerPart tokens st start span) span.last (1 + cost)
      (.nonterminal kind :: s :: rest) pos (node :: nodes) := by
  refine Route.next [span.last] h (hinner.covers ht) (Nat.le_of_lt hlt) (by simp)
    (fun q hq hle hcovers => .inr ?_) (fun hdue => ⟨⟨hinner, hdue⟩, fun _ hlast => ?_⟩) hrest
  · obtain ⟨other, hother⟩ := inner_of_covers ht hinner.isInner
      (fun q' hlow hhigh => hsteps q' hlow (by omega)) hcovers
    have heq : q = span.last := by
      by_contra hne
      exact hlonger q other hq (by omega) hother
    subst heq
    exact ⟨List.mem_singleton_self _, Extraction.stuck_at_last fun kind hkind q hcovers =>
      lt_of_covers (hs kind hkind) hcovers⟩
  · exact (Nat.ne_of_lt hlt hlast).elim

/-- The operands are found one behind the other: behind the end of an operand that is on the stack
nothing is read from its start, except for the whole span. -/
theorem route_operands {args below : List Pending} (ht : Delimited tokens st)
    (hi : tokens[m]? = some i) (hstep : isStep i.kind = true) (hlast : span.last = m + 1)
    (hpending : (st m).pending = args.reverse ++ below)
    (h : Arrives (tokenRules tokens) start tokens
      (List.replicate args.length (.nonterminal .expr) ++ [s]) (firstOf m args))
    (hs : ∀ kind, s = .nonterminal kind → kind ∉ optional)
    (hrest : Arrives (tokenRules tokens) start tokens [s] m →
      Route (tokenRules tokens) start tokens (InnerPart tokens st start span) span.last 0 [s] m
        [child]) :
    Route (tokenRules tokens) start tokens (InnerPart tokens st start span) span.last args.length
      (List.replicate args.length (.nonterminal .expr) ++ [s]) (firstOf m args)
      (args.map (·.tree) ++ [child]) := by
  have hseg := ht.toSegmented
  obtain ⟨hm, -⟩ := List.getElem?_eq_some_iff.1 hi
  induction args generalizing below with
  | nil => exact hrest h
  | cons v args ih =>
    obtain ⟨hend, htop, hhigher⟩ := hseg.operand_on_top (Nat.le_of_lt hm) hpending
    have hle : firstOf m args ≤ tokens.length := by omega
    obtain ⟨m', op, args', i', he, htakes, htree, -⟩ := hseg.exists_takes hle htop
    have hinner : Inner tokens st .expr v.first (firstOf m args) v.tree :=
      .inl (.inl ⟨m', op, args', i', he, htakes, htree⟩)
    obtain ⟨-, hbelow, -⟩ := hseg.below hle [] htop
    -- The span from the first operand on is made of steps.
    have hsteps : ∀ q, v.first ≤ q → q < span.last →
        ∃ i, tokens[q]? = some i ∧ isStep i.kind = true := by
      intro q hlow hhigh
      rcases Nat.lt_or_eq_of_le (show q ≤ m by omega) with hlt | rfl
      · have hargs : (st m).pending = args.reverse ++ v :: below := by simpa using hpending
        exact hseg.step_of_below (Nat.le_of_lt hm) _ hargs hlow hlt
      · exact ⟨i, hi, hstep⟩
    have hlonger : ∀ q node, firstOf m args < q → q < span.last →
        Inner tokens st .expr v.first q node → False := by
      intro q node hlt hhigh hread
      have hheight := hhigher q hlt (by omega)
      rcases (hread.resolve_right id).pending_cases hseg with ⟨hq, below', hpending'⟩ | ⟨hnone, -⟩
      · obtain ⟨-, hbelow', -⟩ := hseg.below hq [] hpending'
        rw [hbelow] at hbelow'
        obtain rfl : below = below' := congrArg State.pending hbelow'
        rw [hpending'] at hheight
        simp at hheight
      · rw [hnone] at hheight
        simp at hheight
    have hlt : firstOf m args < span.last := by omega
    have hnext : Arrives (tokenRules tokens) start tokens
        (List.replicate args.length (.nonterminal .expr) ++ [s]) (firstOf m args) →
          Route (tokenRules tokens) start tokens (InnerPart tokens st start span) span.last
            args.length (List.replicate args.length (.nonterminal .expr) ++ [s]) (firstOf m args)
            (args.map (·.tree) ++ [child]) :=
      fun h => @ih (v :: below) (by simpa using hpending) h
    rw [List.length_cons, List.replicate_succ, List.cons_append] at h ⊢
    rw [Nat.add_comm args.length 1]
    cases args with
    | nil => exact route_next ht h hs hinner hlt hlonger hsteps hnext
    | cons w args =>
      refine route_next ht h (fun kind hkind => ?_) hinner hlt hlonger hsteps hnext
      obtain rfl := Symbol.nonterminal.inj hkind
      decide

theorem route_sign (ht : Delimited tokens st) (hi : tokens[m]? = some i)
    (hop : operation? i.kind = some op) (hlast : span.last = m + 1)
    (hlevel : 1 < level span.kind)
    (h : Arrives (tokenRules tokens) start tokens [op.signSymbol i.kind] m) :
    Route (tokenRules tokens) start tokens (InnerPart tokens st start span) span.last 0
      [op.signSymbol i.kind] m [op.signNode i] := by
  unfold Operation.signSymbol at h ⊢
  unfold Operation.signNode
  rcases hs : op.sign with _ | sign
  · rw [hs] at h
    exact .token h hi (by omega) fun _ => hlast ▸ .nil
  · rw [hs] at h
    obtain ⟨form, hform, -⟩ := formOf_of_operation hop hs
    have hone : level sign = 1 := by
      cases sign <;> first
        | rfl
        | cases hform
    exact route_final ht h ((shape_of_sign hform).2 ⟨i, op, hlast, hi, hop, hs, rfl⟩)
      fun _ => hone ▸ hlevel

/-- What is made of one nonterminal is found with it. -/
theorem routed_of_single {outer inner : Nonterminal} {target : Span → Node → Prop}
    (hr : (⟨outer, [n inner]⟩ : Rule) ∈ base)
    (hprior : ∀ r ∈ priorRules base ⟨outer, [n inner]⟩, ∀ children,
      ¬Assembles (tokenRules tokens) tokens (Derivation.AllowsChildren tokens) r.rhs p e children)
    (hdue : Due (tokenRules tokens) start tokens outer p)
    (hcovers : Covers (tokenRules tokens) tokens ⟨inner, p, e⟩)
    (htarget : Due (tokenRules tokens) start tokens inner p → target ⟨inner, p, e⟩ node)
    (hallowed : Derivation.AllowsChildren tokens outer [node] e)
    (hnode : Extraction.node ⟨outer, [n inner]⟩ [node] = tree) :
    Routed (tokenRules tokens) start tokens target ⟨outer, p, e⟩ tree :=
  .of_prior [node] 0 hr rfl
    (fun r hr' children hchildren _ => (hprior r hr' children hchildren).elim)
    (Route.final (Due.arrives hdue (mem_tokenRules hr)) hcovers htarget)
    (by simp [Budget.maxSteps]) hallowed hnode

/-- A marker that is not there is found. -/
theorem routed_absent {target : Span → Node → Prop} (hr : (⟨kind, []⟩ : Rule) ∈ base)
    (hprior : ∀ r ∈ priorRules base ⟨kind, []⟩, ∃ terminal, r.rhs = [.terminal terminal])
    (hallowed : Derivation.AllowsChildren tokens kind [] p)
    (hnode : Extraction.node ⟨kind, []⟩ [] = tree) :
    Routed (tokenRules tokens) start tokens target ⟨kind, p, p⟩ tree := by
  refine .of_prior [] 0 hr rfl (fun r hr' children hchildren _ => ?_) .nil
    (by simp [Budget.maxSteps]) hallowed hnode
  obtain ⟨terminal, hrhs⟩ := hprior r hr'
  rw [hrhs] at hchildren
  cases hchildren with
  | terminal _ hrest => exact (Nat.lt_irrefl p hrest.le).elim

/-- A terminal is found where its instruction stands. -/
theorem At.route {rules : List Rule} {target : Span → Node → Prop} {op : Opcode} {last cost : Nat}
    (h : At tokens op q i) (hlt : q < last) (harrives : Arrives rules start tokens (t op :: rest) q)
    (hrest : Arrives rules start tokens rest (q + 1) →
      Route rules start tokens target last cost rest (q + 1) nodes) :
    Route rules start tokens target last cost (t op :: rest) q (.token i :: nodes) := by
  rw [t, ← h.2] at harrives ⊢
  exact .token harrives h.1 hlt hrest

/-! ### Operations and assignments -/

theorem not_optional_of_sign {form : Nonterminal} {k : Nat} (h : formOf? kind = some (form, k)) :
    kind ∉ optional := by
  cases kind <;> first
    | decide
    | cases h

theorem level_of_isForm (h : isForm kind = true) :
    level kind = 2 ∧ kind.isCollected = false := by
  cases kind <;> first
    | exact ⟨rfl, rfl⟩
    | cases h

section

variable (ht : Delimited tokens st) (h : InnerTarget tokens st start span tree)

include ht h

theorem routed_sign {form : Nonterminal} {k : Nat} (hsign : formOf? span.kind = some (form, k)) :
    Routed (tokenRules tokens) start tokens (InnerPart tokens st start span) span tree := by
  obtain ⟨i, op, hlast, hi, hop, hs, rfl⟩ := (shape_of_sign hsign).1 h.1
  have hcollected : span.kind.isCollected = false := by
    generalize span.kind = kind at hsign
    cases kind <;> first
      | rfl
      | cases hsign
  obtain ⟨-, hmem⟩ := (hasRules (List.mem_of_getElem? hi) hop).sign span.kind hs
  exact routed_of_rule _ 0 ht h hmem rfl
    (fun harrives => .token harrives hi (by omega) fun _ => hlast ▸ .nil)
    (by simp [Budget.maxSteps]) (node_of_not_collected hcollected _)

theorem routed_form (hbounded : CountsBounded tokens) (hform : isForm span.kind = true) :
    Routed (tokenRules tokens) start tokens (InnerPart tokens st start span) span tree := by
  obtain ⟨hlevel, hcollected⟩ := level_of_isForm hform
  obtain ⟨m, op, args, i, hlast, htakes, hkind, rfl⟩ := (shape_of_isForm hform).1 h.1
  have hi := htakes.at_eq
  have hop := htakes.operation_eq
  obtain ⟨-, hmem, -⟩ := (hasRules (List.mem_of_getElem? hi) hop).form span.kind hkind
  obtain ⟨below, hpending⟩ := htakes.pending_eq
  have hstep : isStep i.kind = true := by simp [isStep, hop]
  refine routed_of_rule _ args.length ht h hmem rfl (fun harrives => ?_) ?_
    ((node_of_not_collected hcollected _).trans (by rw [Operation.node, hkind]))
  · rw [← htakes.first_eq, Operation.symbols, ← htakes.length_eq] at harrives ⊢
    refine route_operands ht hi hstep hlast hpending harrives (fun sign hsign => ?_)
      fun hlast' => route_sign ht hi hop hlast (hlevel ▸ by decide) hlast'
    unfold Operation.signSymbol at hsign
    split at hsign
    next s hs =>
      obtain ⟨form, hform, -⟩ := formOf_of_operation hop hs
      obtain rfl := Symbol.nonterminal.inj hsign
      exact not_optional_of_sign hform
    next => cases hsign
  · have hle := hbounded i (List.mem_of_getElem? hi) op hop
    have hlength := htakes.length_eq
    simp only [Operation.symbols, List.length_append, List.length_replicate, List.length_singleton,
      maxCount, Budget.maxSteps] at hle ⊢
    omega

theorem routed_setq (hkind : span.kind = .setqForm) :
    Routed (tokenRules tokens) start tokens (InnerPart tokens st start span) span tree := by
  have hrule : (⟨.setqForm, [n .expr, t .varset]⟩ : Rule) ∈ base := by decide
  have hread : ReadsSetq tokens st span.first span.last tree := by
    have hinner := h.1
    rwa [hkind] at hinner
  obtain ⟨m, v, i, hlast, hi, hvarset, hv, hfirst, rfl⟩ := hread
  have hstep : isStep i.kind = true := by rw [hvarset]; rfl
  refine routed_of_rule _ 1 ht h (mem_tokenRules hrule) hkind.symm (fun harrives => ?_)
    (by decide) rfl
  rw [← hfirst] at harrives ⊢
  rw [t, ← hvarset] at harrives ⊢
  have hpending : (st m).pending = [v].reverse ++ [] := hv
  exact route_operands ht hi hstep hlast hpending harrives (by simp)
    fun hlast' => .token hlast' hi (by omega) fun _ => hlast ▸ .nil

/-- An expression is made of its last instruction, or of what is built of it. -/
theorem routed_expr (hkind : span.kind = .expr) :
    Routed (tokenRules tokens) start tokens (InnerPart tokens st start span) span tree := by
  have hread : ReadsExpr tokens st span.first span.last tree := by
    have hinner := h.1
    rw [hkind] at hinner
    exact hinner.resolve_right id
  rcases hread with ⟨m, op, args, i, hlast, htakes, rfl⟩ | ⟨child, hsetq, rfl⟩
  · have hi := htakes.at_eq
    have hrules := hasRules (List.mem_of_getElem? hi) htakes.operation_eq
    rcases hform : op.kind with _ | form
    · obtain ⟨hsign, harity, hmem⟩ := hrules.bare hform
      have hargs : args = [] := List.eq_nil_of_length_eq_zero (htakes.length_eq.trans harity)
      have hfirst : m = span.first := by simpa [hargs, firstOf] using htakes.first_eq
      subst hargs
      refine routed_of_rule [.token i] 0 ht h hmem hkind.symm
        (fun harrives => .token harrives (hfirst ▸ hi) (by omega) fun _ => ?_)
        (by simp [Budget.maxSteps]) ?_
      · rw [← hfirst, ← hlast]
        exact .nil
      · simp [Operation.value, Operation.node, Operation.signNode, hform, hsign, Extraction.node,
          Nonterminal.isCollected]
    · obtain ⟨-, -, hmem⟩ := hrules.form form hform
      have hisForm := isForm_of_operation htakes.operation_eq hform
      refine routed_of_rule _ 0 ht h hmem hkind.symm (fun harrives => ?_)
        (by simp [Budget.maxSteps]) rfl
      refine route_final ht harrives ((shape_of_isForm hisForm).2
        ⟨m, op, args, i, hlast, htakes, hform, rfl⟩) fun _ => ?_
      rw [(level_of_isForm hisForm).1, hkind]
      decide
  · have hrule : (⟨.expr, [n .setqForm]⟩ : Rule) ∈ base := by decide
    refine routed_of_rule _ 0 ht h (mem_tokenRules hrule) hkind.symm (fun harrives => ?_)
      (by decide) rfl
    exact route_final ht harrives hsetq fun _ => hkind ▸ by decide

/-! ### Statements -/

theorem routed_discard (hkind : span.kind = .optDiscard) :
    Routed (tokenRules tokens) start tokens (InnerPart tokens st start span) span tree := by
  have hread : ReadsDiscard tokens span.first span.last tree := by
    have hinner := h.1
    rwa [hkind] at hinner
  have hrule : (⟨.optDiscard, [t .discard]⟩ : Rule) ∈ base := by decide
  have hempty : (⟨.optDiscard, []⟩ : Rule) ∈ base := by decide
  rcases hread with ⟨hlast, rfl⟩ | ⟨i, hlast, hi, hdiscard, rfl⟩
  · exact routed_of_rule _ 0 ht h (mem_tokenRules hempty) hkind.symm
      (fun _ => hlast ▸ .nil) (by decide) rfl
  · refine routed_of_rule [.token i] 0 ht h (mem_tokenRules hrule) hkind.symm (fun harrives => ?_)
      (by decide) rfl
    rw [t, ← hdiscard] at harrives ⊢
    exact .token harrives hi (by omega) fun _ => hlast ▸ .nil

end

/-- A statement is an expression and a marker, and nothing longer is an expression. -/
theorem ReadsLine.parts (ht : Segmented tokens st) (h : ReadsLine tokens st p e node) :
    ∃ q tree marker, ReadsExpr tokens st p q tree ∧ q ≤ e ∧ ReadsDiscard tokens q e marker ∧
      node = .plain .exprStmt [tree, marker] ∧
        ∀ q' other, q < q' → q' ≤ e → ¬ReadsExpr tokens st p q' other := by
  cases h with
  | @ended m v i node he hi hv hp hnode =>
    subst he hp
    obtain ⟨hm, -⟩ := List.getElem?_eq_some_iff.1 hi
    unfold statement? at hnode
    split at hnode
    next hkind =>
      obtain rfl := Option.some.inj hnode
      exact ⟨m + 1, _, _, .inr ⟨_, ⟨m, v, i, rfl, hi, hkind, hv, rfl, rfl⟩, rfl⟩, Nat.le_refl _,
        .inl ⟨rfl, rfl⟩, rfl, fun q' _ hlt hle => by omega⟩
    next hkind =>
      obtain rfl := Option.some.inj hnode
      obtain ⟨m', op, args, i', he, htakes, htree, -⟩ := ht.exists_takes (Nat.le_of_lt hm) hv
      refine ⟨m, v.tree, _, .inl ⟨m', op, args, i', he, htakes, htree⟩, Nat.le_succ m,
        .inr ⟨i, rfl, hi, hkind, rfl⟩, rfl, fun q' other hlt hle hother => ?_⟩
      obtain rfl : q' = m + 1 := by omega
      rcases hother.at_last hi with ⟨op, hop⟩ | hvarset
      · rw [hkind] at hop
        cases hop
      · rw [hkind] at hvarset
        cases hvarset
    next => cases hnode
  | @kept v he hend hv hp =>
    subst hp
    obtain ⟨m', op, args, i', he', htakes, htree, -⟩ := ht.exists_takes he hv
    exact ⟨e, v.tree, _, .inl ⟨m', op, args, i', he', htakes, htree⟩, Nat.le_refl _,
      .inl ⟨rfl, rfl⟩, rfl, fun q' _ hlt hle => by omega⟩

section

variable (ht : Delimited tokens st) (h : InnerTarget tokens st start span tree)

include ht h

theorem routed_statement (hkind : span.kind = .exprStmt) :
    Routed (tokenRules tokens) start tokens (InnerPart tokens st start span) span tree := by
  have hseg := ht.toSegmented
  have hrule : (⟨.exprStmt, [n .expr, n .optDiscard]⟩ : Rule) ∈ base := by decide
  have hread : ReadsLine tokens st span.first span.last tree := by
    have hinner := h.1
    rw [hkind] at hinner
    rcases hinner with hinner | ⟨-, hfalse, -⟩
    · exact hinner
    · exact hfalse.elim
  have hsteps := fun q hlow hhigh => hread.isStep hseg (q := q) hlow hhigh
  obtain ⟨q, tree, marker, htree, hq, hmarker, rfl, hlonger⟩ := hread.parts hseg
  have hinner : Inner tokens st .expr span.first q tree := .inl htree
  refine routed_of_rule _ 0 ht h (mem_tokenRules hrule) hkind.symm (fun harrives => ?_)
    (by decide) rfl
  refine Route.next [] harrives (hinner.covers ht) hq (by simp)
    (fun q' hlt hle hcovers => ?_) (fun hdue => ⟨⟨hinner, hdue⟩, fun _ _ => by simp [level, hkind]⟩)
    fun hnext => route_final ht hnext (show Inner tokens st .optDiscard q span.last marker from
      hmarker) fun _ => hkind ▸ by decide
  obtain ⟨other, hother⟩ := inner_of_covers ht rfl
    (fun q'' hlow hhigh => hsteps q'' hlow (by omega)) hcovers
  exact (hlonger q' other hlt hle (hother.resolve_right id)).elim

/-- The last statement is found behind the list of those before it, if there are any. -/
theorem routed_list (hkind : span.kind = .exprs) :
    Routed (tokenRules tokens) start tokens (InnerPart tokens st start span) span tree := by
  have hseg := ht.toSegmented
  have hone : (⟨.exprs, [n .exprStmt]⟩ : Rule) ∈ base := by decide
  have hmore : (⟨.exprs, [n .exprs, n .exprStmt]⟩ : Rule) ∈ base := by decide
  obtain ⟨items, hitems, rfl⟩ : ∃ items, Listed (ReadsItem tokens st fun _ _ _ => False) span.first
      span.last items ∧ tree = .plain .exprs items := by
    have hinner := h.1
    rwa [hkind] at hinner
  have hsteps := fun q hlow hhigh => (listed_item_iff.1 hitems).isStep hseg (q := q) hlow hhigh
  generalize hlast : span.last = last at hitems hsteps
  cases hitems with
  | one hitem =>
    refine routed_of_rule _ 0 ht h (mem_tokenRules hone) hkind.symm (fun harrives => ?_)
      (by decide) rfl
    exact route_final ht harrives (hlast ▸ hitem) fun _ => hkind ▸ by decide
  | @more q _ items item hlist hitem =>
    have hitem' : ReadsLine tokens st q last item := by
      rcases hitem with hitem | ⟨-, hfalse, -⟩
      · exact hitem
      · exact hfalse.elim
    obtain ⟨hq, -, -⟩ := hitem'.first_lt hseg
    have hinner : Inner tokens st .exprs span.first q (.plain .exprs items) := ⟨items, hlist, rfl⟩
    refine routed_of_rule _ 1 ht h (mem_tokenRules hmore) hkind.symm (fun harrives => ?_)
      (by decide) (show Extraction.node ⟨.exprs, [n .exprs, n .exprStmt]⟩
        [.plain .exprs items, item] = _ from rfl)
    refine route_next ht harrives (fun kind hexprs => ?_) hinner (hlast ▸ hq)
      (fun q' node hlt hhigh hread => ?_) (hlast ▸ hsteps) fun hnext =>
        route_final ht hnext (hlast ▸ hitem) fun _ => hkind ▸ by decide
    · obtain rfl := Symbol.nonterminal.inj hexprs
      decide
    · -- No statement ends between the two ends of the last one.
      obtain ⟨items', hlist', -⟩ := hread
      obtain ⟨i, hi, hstep⟩ := hitem'.isStep hseg (Nat.le_of_lt hlt) (hlast ▸ hhigh)
      have hempty : (st q').pending = [] := by
        cases listed_item_iff.1 hlist' with
        | one hbefore => exact hbefore.pending_eq_nil hseg hi hstep
        | more _ hbefore => exact hbefore.pending_eq_nil hseg hi hstep
      exact hitem'.pending_ne_nil hseg hlt (hlast ▸ hhigh) hempty

theorem routed_body (hkind : span.kind = .body) :
    Routed (tokenRules tokens) start tokens (InnerPart tokens st start span) span tree := by
  have hrule : (⟨.body, [n .exprs]⟩ : Rule) ∈ base := by decide
  obtain ⟨items, hitems, rfl⟩ : ∃ items, Listed (ReadsItem tokens st fun _ _ _ => False) span.first
      span.last items ∧ tree = .plain .body [.plain .exprs items] := by
    have hinner := h.1
    rwa [hkind] at hinner
  refine routed_of_rule _ 0 ht h (mem_tokenRules hrule) hkind.symm (fun harrives => ?_)
    (by decide) rfl
  exact route_final ht harrives (show Inner tokens st .exprs _ _ _ from ⟨items, hitems, rfl⟩)
    fun _ => hkind ▸ by decide

/-- Every reading of a part of a segment is found where it is waited for. -/
theorem routed_inner (hbounded : CountsBounded tokens) :
    Routed (tokenRules tokens) start tokens (InnerPart tokens st start span) span tree := by
  have hkind := h.1.isInner
  obtain ⟨kind, first, last⟩ := span
  cases kind <;> first
    | exact routed_expr ht h rfl
    | exact routed_setq ht h rfl
    | exact routed_form ht h hbounded rfl
    | exact routed_sign ht h rfl
    | exact routed_discard ht h rfl
    | exact routed_statement ht h rfl
    | exact routed_list ht h rfl
    | exact routed_body ht h rfl
    | cases hkind

end

/-! ### Trees of segments and of the code around them -/

/-- What is built around segments has one tree if it is never that of a segment. -/
theorem eq_of_inner_or {builds : Span → Node → Prop} {tree' : Node} (ht : Segmented tokens st)
    (hnot : ∀ {tree tree'}, builds span tree →
      ¬Inner tokens st span.kind span.first span.last tree')
    (hbuilds : builds span tree → builds span tree' → tree' = tree)
    (h : Inner tokens st span.kind span.first span.last tree ∨ builds span tree)
    (h' : Inner tokens st span.kind span.first span.last tree' ∨ builds span tree') :
    tree' = tree := by
  rcases h with hinner | h
  · rcases h' with hinner' | h'
    · exact hinner.unique ht hinner'
    · exact (hnot h' hinner).elim
  · rcases h' with hinner' | h'
    · exact (hnot h hinner').elim
    · exact hbuilds h h'

/-- An expression that is not discarded is a statement of its own. -/
theorem routed_kept {target : Span → Node → Prop}
    (hdue : Due (tokenRules tokens) start tokens .exprStmt p)
    (hcovers : Covers (tokenRules tokens) tokens ⟨.expr, p, e⟩)
    (hexpr : Due (tokenRules tokens) start tokens .expr p → target ⟨.expr, p, e⟩ tree)
    (hmarker : Due (tokenRules tokens) start tokens .optDiscard e →
      target ⟨.optDiscard, e, e⟩ (.plain .optDiscard [])) :
    Routed (tokenRules tokens) start tokens target ⟨.exprStmt, p, e⟩ (kept tree) := by
  have hrule : (⟨.exprStmt, [n .expr, n .optDiscard]⟩ : Rule) ∈ base := by decide
  have habsent : (⟨.optDiscard, []⟩ : Rule) ∈ base := by decide
  have hprior : priorRules base ⟨.exprStmt, [n .expr, n .optDiscard]⟩ = [] := by decide
  refine .of_prior [tree, .plain .optDiscard []] 0 hrule rfl (by simp [hprior]) ?_ (by decide) rfl
    rfl
  exact Route.longest (Due.arrives hdue (mem_tokenRules hrule)) hcovers (Nat.le_refl _) (by simp)
    (fun q hlow hhigh => absurd hhigh (Nat.not_le.2 hlow)) hexpr fun harrives =>
      Route.final harrives (tokenDerives_absent habsent rfl) hmarker

/-- A single statement is a list of them. -/
theorem routed_exprs_of_single {target : Span → Node → Prop}
    (hdue : Due (tokenRules tokens) start tokens .exprs p)
    (hcovers : Covers (tokenRules tokens) tokens ⟨.exprStmt, p, e⟩)
    (htarget : Due (tokenRules tokens) start tokens .exprStmt p → target ⟨.exprStmt, p, e⟩ tree) :
    Routed (tokenRules tokens) start tokens target ⟨.exprs, p, e⟩ (.plain .exprs [tree]) := by
  have hrule : (⟨.exprs, [n .exprStmt]⟩ : Rule) ∈ base := by decide
  have hprior : priorRules base ⟨.exprs, [n .exprStmt]⟩ = [] := by decide
  exact routed_of_single hrule (by simp [hprior]) hdue hcovers htarget rfl rfl

theorem routed_body_of_exprs {target : Span → Node → Prop}
    (hdue : Due (tokenRules tokens) start tokens .body p)
    (hcovers : Covers (tokenRules tokens) tokens ⟨.exprs, p, e⟩)
    (htarget : Due (tokenRules tokens) start tokens .exprs p → target ⟨.exprs, p, e⟩ tree) :
    Routed (tokenRules tokens) start tokens target ⟨.body, p, e⟩ (.plain .body [tree]) := by
  have hrule : (⟨.body, [n .exprs]⟩ : Rule) ∈ base := by decide
  have hprior : priorRules base ⟨.body, [n .exprs]⟩ = [] := by decide
  exact routed_of_single hrule (by simp [hprior]) hdue hcovers htarget rfl rfl

/-! ### Routines that return -/

theorem routed_unlabeled {target : Span → Node → Prop} :
    Routed (tokenRules tokens) start tokens target ⟨.optLabel, p, p⟩ (.plain .optLabel []) := by
  have hrule : (⟨.optLabel, []⟩ : Rule) ∈ base := by decide
  have hprior : priorRules base ⟨.optLabel, []⟩ = [⟨.optLabel, [t .label]⟩] := by decide
  exact routed_absent hrule (by simp [hprior, t]) rfl rfl

theorem tokenDerives_return (hret : At tokens .ret e i) :
    TokenDerives tokens [.nonterminal .optReturn] e (e + 1) := by
  have hrule : (⟨.optReturn, [t .ret]⟩ : Rule) ∈ base := by decide
  exact tokenDerives_base hrule rfl hret.tokenDerives

theorem routed_return {target : Span → Node → Prop} (hret : At tokens .ret e i)
    (hdue : Due (tokenRules tokens) start tokens .optReturn e) :
    Routed (tokenRules tokens) start tokens target ⟨.optReturn, e, e + 1⟩
      (.plain .optReturn [.token i]) := by
  have hrule : (⟨.optReturn, [t .ret]⟩ : Rule) ∈ base := by decide
  have hprior : priorRules base ⟨.optReturn, [t .ret]⟩ = [] := by decide
  exact .of_prior [.token i] 0 hrule rfl (by simp [hprior])
    (hret.route (Nat.lt_succ_self e) (Due.arrives hdue (mem_tokenRules hrule)) fun _ => .nil)
    (by decide) rfl rfl

theorem tokenDerives_returned (hret : At tokens .ret e i)
    (hbody : TokenDerives tokens [.nonterminal .body] p e) :
    TokenDerives tokens [.nonterminal .fnBody] p (e + 1) := by
  have hrule : (⟨.fnBody, [n .body, n .optLabel, n .optReturn]⟩ : Rule) ∈ base := by decide
  exact tokenDerives_base hrule rfl (Derives.append hbody
    (Derives.append (tokenDerives_absent (by decide) rfl) (tokenDerives_return hret)))

/-- A routine has its body up to the return, if the return is in no body. -/
theorem routed_returned {target : Span → Node → Prop} (hret : At tokens .ret e i)
    (hdue : Due (tokenRules tokens) start tokens .fnBody p)
    (hbody : TokenDerives tokens [.nonterminal .body] p e)
    (hlonger : ¬Covers (tokenRules tokens) tokens ⟨.body, p, e + 1⟩)
    (htarget : Due (tokenRules tokens) start tokens .body p → target ⟨.body, p, e⟩ tree)
    (hlabel : Due (tokenRules tokens) start tokens .optLabel e →
      target ⟨.optLabel, e, e⟩ (.plain .optLabel []))
    (hreturn : Due (tokenRules tokens) start tokens .optReturn e →
      target ⟨.optReturn, e, e + 1⟩ (.plain .optReturn [.token i])) :
    Routed (tokenRules tokens) start tokens target ⟨.fnBody, p, e + 1⟩
      (.plain .fnBody [tree, .plain .optLabel [], .plain .optReturn [.token i]]) := by
  have hrule : (⟨.fnBody, [n .body, n .optLabel, n .optReturn]⟩ : Rule) ∈ base := by decide
  have habsent : (⟨.optLabel, []⟩ : Rule) ∈ base := by decide
  have hprior : priorRules base ⟨.fnBody, [n .body, n .optLabel, n .optReturn]⟩ = [] := by decide
  have hmarkers : ∀ r ∈ base, r.lhs = .optLabel → r.rhs = [t .label] ∨ r.rhs = [] := by
    decide +kernel
  refine .of_prior _ 0 hrule rfl (by simp [hprior]) ?_ (by decide) rfl rfl
  refine Route.longest (Due.arrives hdue (mem_tokenRules hrule)) hbody (Nat.le_succ e) (by simp)
    (fun q hlow hhigh hcovers => False.elim ?_) htarget fun harrives => ?_
  · obtain rfl : q = e + 1 := Nat.le_antisymm hhigh hlow
    exact hlonger hcovers
  refine Route.longest harrives (tokenDerives_absent habsent rfl) (Nat.le_succ e) (by simp)
    (fun q hlow hhigh hcovers => False.elim ?_) hlabel fun harrives =>
      Route.final harrives (tokenDerives_return hret) hreturn
  rcases marker_of_covers hmarkers (by simp) hcovers with rfl | ⟨-, j, hj, hkind⟩
  · omega
  · rw [hret.kind_of hj] at hkind
    cases hkind

end ElispLift.StraightLine
