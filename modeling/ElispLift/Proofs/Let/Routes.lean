import ElispLift.Proofs.Let.Readings
import ElispLift.Proofs.Segments.Routes

/-!
# Finding bindings

The parser finds the form that binds all variables around the whole body. A list of bindings is
taken up to the last one, since no body begins before it, and the body up to the end of the
bindings. All other expressions that begin with a binding end elsewhere or begin later, so they are
not tried, or are tried only after this one.
-/

namespace ElispLift.Let

open Grammar StraightLine Extraction ElispLift.Derivation

/-- The trees that the parser builds besides those of straight-line code. -/
inductive Builds (tokens : List Instruction) (st : Nat → State) (l : Parts) : Span → Node → Prop
    where
  | binding {p e : Nat} {node : Node} (h : ReadsBinding tokens st p e node) :
      Builds tokens st l ⟨.varbind, p, e⟩ node
  | bindings {e : Nat} {nodes : List Node} (h : Listed (ReadsBinding tokens st) 0 e nodes) :
      Builds tokens st l ⟨.varlist, 0, e⟩ (.plain .varlist nodes)
  | form : Builds tokens st l ⟨.letFormStar, 0, l.stop + 1⟩ l.form
  | expr : Builds tokens st l ⟨.expr, 0, l.stop + 1⟩ (.plain .expr [l.form])
  | statement : Builds tokens st l ⟨.exprStmt, 0, l.stop + 1⟩ (kept (.plain .expr [l.form]))
  | statements :
      Builds tokens st l ⟨.exprs, 0, l.stop + 1⟩ (.plain .exprs [kept (.plain .expr [l.form])])
  | body : Builds tokens st l ⟨.body, 0, l.stop + 1⟩
      (.plain .body [.plain .exprs [kept (.plain .expr [l.form])]])
  | label : Builds tokens st l ⟨.optLabel, l.stop + 1, l.stop + 1⟩ (.plain .optLabel [])
  | return :
      Builds tokens st l ⟨.optReturn, l.stop + 1, l.stop + 2⟩ (.plain .optReturn [.token l.ret])
  | routine : Builds tokens st l ⟨.fnBody, 0, l.stop + 2⟩ l.routine

/-- A tree that is built, where it is waited for. -/
def Target (tokens : List Instruction) (st : Nat → State) (l : Parts) (span : Span) (tree : Node) :
    Prop :=
  (Inner tokens st span.kind span.first span.last tree ∨ Builds tokens st l span tree) ∧
    Due (tokenRules tokens) .fnBody tokens span.kind span.first

variable {tokens : List Instruction} {st : Nat → State} {l : Parts} {p q m e : Nat}
  {i : Instruction} {node node' : Node} {nodes : List Node} {kind : Nonterminal} {r : Rule}
  {span part : Span} {tree tree' : Node}

theorem heads_letRule : ∀ r ∈ base, r.lhs = .letFormStar → heads r.rhs = [.varlist] := by
  decide +kernel

theorem isSteep_of_isKnown (hsteep : isSteep kind = true) (hknown : isKnown kind = true) :
    kind = .letFormStar := by
  cases kind <;> first
    | rfl
    | exact absurd hknown (by decide)
    | cases hsteep

/-! ### Derivations -/

section

variable (hl : Layout tokens st l)

include hl

theorem tokenDerives_binding (h : ReadsBinding tokens st p e node) :
    TokenDerives tokens [.nonterminal .varbind] p e := by
  obtain ⟨m, v, i, rfl, hi, hkind, hv, rfl, -⟩ := h
  obtain ⟨hm, -⟩ := List.getElem?_eq_some_iff.1 hi
  have hrule : (⟨.varbind, [n .expr, t .varbind]⟩ : Rule) ∈ base := by decide
  have hterminal := tokenDerives_terminal hi
  rw [hkind] at hterminal
  exact tokenDerives_base hrule rfl
    (Derives.append (tokenDerives_value hl.toSegmented (Nat.le_of_lt hm) hv) hterminal)

theorem tokenDerives_bindings (h : Listed (ReadsBinding tokens st) p e nodes) :
    TokenDerives tokens [.nonterminal .varlist] p e := by
  have hone : (⟨.varlist, [n .varbind]⟩ : Rule) ∈ base := by decide
  have hmore : (⟨.varlist, [n .varlist, n .varbind]⟩ : Rule) ∈ base := by decide
  induction h with
  | one h => exact tokenDerives_base hone rfl (tokenDerives_binding hl h)
  | more _ h ih => exact tokenDerives_base hmore rfl (Derives.append ih (tokenDerives_binding hl h))

theorem inner_body : Inner tokens st .body l.first l.stop
    (.plain .body [.plain .exprs (l.statements ++ [kept l.result.tree])]) := by
  have hlength := hl.length_eq
  have hend : MayEnd tokens l.stop := by
    intro i hi
    obtain rfl := Option.some.inj (hi.symm.trans hl.unbind_at)
    rw [Context.isAnyOf, Context.statementEnds]
    simp [Instruction.isOp, hl.unbind_kind]
  have hlist := hl.toSegmented.listed_kept hl.first_le (by omega) hl.steps hl.start_first
    hl.result_eq hend
  rw [hl.done_eq] at hlist
  exact ⟨_, listed_item_iff.2 hlist, rfl⟩

theorem tokenDerives_form : TokenDerives tokens [.nonterminal .expr] 0 (l.stop + 1) ∧
    TokenDerives tokens [.nonterminal .letFormStar] 0 (l.stop + 1) := by
  have hrule : (⟨.letFormStar, [n .varlist, n .body, t .unbind]⟩ : Rule) ∈ base := by
    decide
  have hpromotion : (⟨.expr, [n .letFormStar]⟩ : Rule) ∈ base := by decide
  have hterminal := tokenDerives_terminal hl.unbind_at
  rw [hl.unbind_kind] at hterminal
  have hform := tokenDerives_base hrule rfl (Derives.append (tokenDerives_bindings hl hl.listed)
    (Derives.append (tokenDerives_inner hl.toDelimited (inner_body hl)) hterminal))
  exact ⟨tokenDerives_base hpromotion rfl hform, hform⟩

/-- The values that are bound are taken from the stack, and the value of the body stays. -/
theorem net_eq : Context.net ⟨tokens.toArray⟩ 0 (l.stop + 1) = 1 := by
  have hlength := hl.length_eq
  have hsucc := net_succ (p := 0) (k := l.stop) (by simpa using hl.unbind_at)
  have hbefore := hl.toSegmented.net_eq_of_spent (Nat.zero_le l.stop) (by omega)
    fun q i _ hhigh hi hkind => ?_
  · rw [Nat.zero_add, Nat.zero_add] at hsucc
    rw [hsucc, hbefore, hl.result_eq, hl.start, Instruction.effect, hl.unbind_kind]
    rfl
  · rcases hl.cases_at hi with ⟨hstep, -⟩ | ⟨hvarbind, -, p, node, hbinding⟩ | ⟨-, heq⟩ | ⟨-, heq⟩
    · rw [hkind] at hstep
      cases hstep
    · obtain ⟨m, v, j, he, hj, -, hv, -⟩ := hbinding
      obtain rfl := Nat.succ.inj he
      rw [hv, Instruction.effect, hvarbind]
      rfl
    all_goals omega

theorem tokenDerives_body : TokenDerives tokens [.nonterminal .exprStmt] 0 (l.stop + 1) ∧
    TokenDerives tokens [.nonterminal .exprs] 0 (l.stop + 1) ∧
      TokenDerives tokens [.nonterminal .body] 0 (l.stop + 1) := by
  refine tokenDerives_body_of_expr (tokenDerives_form hl).1 ?_
  simp only [Context.allowsSpan, Context.allowsStatement, net_eq hl, List.getElem?_toArray,
    hl.ret_at]
  simp [Context.isAnyOf, Context.statementEnds, Instruction.isOp, hl.ret_kind]

theorem tokenDerives_routine : TokenDerives tokens [.nonterminal .fnBody] 0 (l.stop + 2) :=
  tokenDerives_returned ⟨hl.ret_at, hl.ret_kind⟩ (tokenDerives_body hl).2.2

/-! ### Trees of targets -/

/-- What is built is not straight-line code. -/
theorem not_inner_of_builds (h : Builds tokens st l span tree) :
    ¬Inner tokens st span.kind span.first span.last tree' := by
  intro hinner
  have hspans : ∀ {kind}, Inner tokens st kind 0 (l.stop + 1) tree' → False := by
    intro kind hinner
    obtain ⟨i, hi, hstep⟩ :=
      hinner.isStep hl.toSegmented l.stop (Nat.zero_le _) (Nat.lt_succ_self _)
    exact Nat.lt_irrefl _ (hl.lt_stop_of_step hi hstep)
  cases h with
  | binding | bindings | form | label | «return» | routine => exact hinner.elim
  | expr | statement | statements | body => exact hspans hinner

theorem unique (h : Target tokens st l span tree) (h' : Target tokens st l span tree') :
    tree' = tree := by
  refine eq_of_inner_or hl.toSegmented (not_inner_of_builds hl) (fun h h' => ?_) h.1 h'.1
  cases h with
  | binding hbinding =>
    cases h' with
    | binding hbinding' => exact (hbinding.unique hbinding').2
  | bindings hlist =>
    cases h' with
    | bindings hlist' =>
      rw [hlist.unique (fun _ _ _ h => (h.first_lt hl.toSegmented).1)
        (fun _ _ _ _ _ h h' => h.unique h') hlist']
  | _ =>
    cases h'
    rfl

/-! ### Levels -/

/-- Over the same instructions no level is higher inside: a list of bindings ends before the form
does that begins with it. -/
theorem descends (hspan : Covers (tokenRules tokens) tokens span)
    (hpart : part ∈ partsOf (inputOf (tokenRules tokens) .fnBody tokens) span)
    (hfirst : part.first = span.first) (hlast : part.last = span.last) :
    part = span ∨ Guards part span ∨ level part.kind ≤ level span.kind := by
  refine level_le_of_mem_partsOf hspan.le (Bool.eq_false_iff.2 fun hsteep => ?_) hpart hfirst hlast
  obtain ⟨node, hnode⟩ := shape_of_covers hl hspan
  have hkind : span.kind = .letFormStar := by
    refine isSteep_of_isKnown hsteep (isKnown_of_reads ((shape_of_not_isInner ?_).1 hnode))
    generalize span.kind = kind at hsteep
    cases kind <;> first
      | rfl
      | cases hsteep
  obtain ⟨r, hr, hlhs, hmem⟩ := exists_rule_of_mem_partsOf hpart
  have hhead := mem_heads hspan.le hmem hfirst
  have hbase : r ∈ base := mem_base_of_lhs hr (by simp [hlhs, hkind]) (by simp [hlhs, hkind])
  rw [heads_letRule r hbase (hlhs.trans hkind), List.mem_singleton] at hhead
  obtain ⟨list, hlist⟩ := shape_of_covers hl (covers_of_mem_partsOf hpart)
  rw [hhead, hlast] at hlist
  rw [hkind] at hnode
  obtain ⟨nodes, hlisted, -⟩ := hlist
  obtain ⟨m, last, hbinding⟩ := hlisted.exists_last
  obtain ⟨-, hlt, -⟩ := hnode
  exact Nat.not_lt.2 (hl.binding_le hbinding) hlt

/-! ### Routes -/

/-- The parts over the same instructions have a lower level. -/
def TargetPart (tokens : List Instruction) (st : Nat → State) (l : Parts) (span part : Span)
    (tree : Node) : Prop :=
  Target tokens st l part tree ∧
    (part.first = span.first → part.last = span.last → level part.kind < level span.kind)

theorem routed_binding (hdue : Due (tokenRules tokens) .fnBody tokens .varbind p)
    (h : ReadsBinding tokens st p e node) :
    Routed (tokenRules tokens) .fnBody tokens (TargetPart tokens st l ⟨.varbind, p, e⟩)
      ⟨.varbind, p, e⟩ node := by
  have hseg := hl.toSegmented
  have hrule : (⟨.varbind, [n .expr, t .varbind]⟩ : Rule) ∈ base := by decide
  have hfirst := hl.binding_le h
  have hlt := (h.first_lt hseg).1
  have hprior : priorRules base ⟨.varbind, [n .expr, t .varbind]⟩ = [] := by decide
  obtain ⟨m, v, i, rfl, hi, hkind, hv, rfl, rfl⟩ := h
  obtain ⟨hm, -⟩ := List.getElem?_eq_some_iff.1 hi
  obtain ⟨m', op, args, i', he, htakes, htree, -⟩ := hseg.exists_takes (Nat.le_of_lt hm) hv
  have hinner : Inner tokens st .expr v.first m v.tree :=
    .inl (.inl ⟨m', op, args, i', he, htakes, htree⟩)
  refine .of_prior _ 0 hrule rfl (by simp [hprior]) ?_ (by decide) rfl rfl
  refine Route.longest (Due.arrives hdue (mem_tokenRules hrule)) (hinner.covers hl.toDelimited)
    (Nat.le_succ m) (by simp) (fun q hlow hhigh hcovers => False.elim ?_)
    (fun hdue => ⟨⟨.inl hinner, hdue⟩, fun _ _ => by simp [level]⟩) fun harrives => ?_
  · -- The instruction that binds the value is not in an expression that ends behind it.
    obtain rfl : q = m + 1 := Nat.le_antisymm hhigh hlow
    obtain ⟨other, hreads | ⟨-, hends, -⟩⟩ := shape_of_covers hl hcovers
    · obtain ⟨j, hj, hstep⟩ := hreads.isStep hseg (Nat.le_of_lt_succ hlt) (Nat.lt_succ_self m)
      obtain rfl := Option.some.inj (hi.symm.trans hj)
      rw [hkind] at hstep
      cases hstep
    · omega
  · rw [t, ← hkind] at harrives ⊢
    exact .token harrives hi (Nat.lt_succ_self m) fun _ => .nil

/-- The last binding is found behind the list of those before it, if there are any. -/
theorem routed_bindings (hdue : Due (tokenRules tokens) .fnBody tokens .varlist 0)
    (h : Listed (ReadsBinding tokens st) 0 e nodes) :
    Routed (tokenRules tokens) .fnBody tokens (TargetPart tokens st l ⟨.varlist, 0, e⟩)
      ⟨.varlist, 0, e⟩ (.plain .varlist nodes) := by
  have hseg := hl.toSegmented
  have hone : (⟨.varlist, [n .varbind]⟩ : Rule) ∈ base := by decide
  have hmore : (⟨.varlist, [n .varlist, n .varbind]⟩ : Rule) ∈ base := by decide
  have hprior : priorRules base ⟨.varlist, [n .varlist, n .varbind]⟩ =
      [⟨.varlist, [n .varbind]⟩] := by
    decide
  cases h with
  | @one e item hitem =>
    exact routed_of_single hone (by simp [show priorRules base ⟨.varlist, [n .varbind]⟩ = [] by
      decide]) hdue (tokenDerives_binding hl hitem)
      (fun hdue => ⟨⟨.inr (.binding hitem), hdue⟩, fun _ _ => by simp [level]⟩) rfl rfl
  | @more m e items item hlist hitem =>
    have hlt := (hitem.first_lt hseg).1
    have hpos : 0 < m := hlist.first_lt fun _ _ _ h => (h.first_lt hseg).1
    refine .of_prior [.plain .varlist items, item] 1 hmore rfl (fun r hr children hchildren _ => ?_)
      ?_ (by decide) rfl rfl
    · -- A single binding does not begin so early.
      rw [hprior, List.mem_singleton] at hr
      subst hr
      obtain ⟨other, hother, -⟩ := (shape_of_assembles hl hchildren).single
      exact (Nat.ne_of_lt hpos (hitem.unique hother).1).elim
    · refine Route.next [e] (Due.arrives hdue (mem_tokenRules hmore))
        (tokenDerives_bindings hl hlist)
        (Nat.le_of_lt hlt) (by simp) (fun q hq hle hcovers => .inr ?_)
        (fun hdue => ⟨⟨.inr (.bindings hlist), hdue⟩, fun _ hlast => (Nat.ne_of_lt hlt hlast).elim⟩)
        fun harrives => Route.final harrives (tokenDerives_binding hl hitem) fun hdue =>
          ⟨⟨.inr (.binding hitem), hdue⟩, fun _ _ => by simp [level]⟩
      obtain ⟨list, others, hothers, -⟩ := shape_of_covers hl hcovers
      obtain ⟨first, last, hlast⟩ := hothers.exists_last
      rcases Nat.lt_or_eq_of_le hle with hlt' | rfl
      · have hempty := hitem.pending_ne_nil hseg hq hlt'
        rw [hlast.start_behind hseg] at hempty
        exact (hempty rfl).elim
      · refine ⟨List.mem_singleton_self _, stuck_at_last fun kind hkind q hcovers => ?_⟩
        obtain rfl := Symbol.nonterminal.inj hkind
        exact lt_of_covers (by decide) hcovers

theorem routed_form (hdue : Due (tokenRules tokens) .fnBody tokens .letFormStar 0) :
    Routed (tokenRules tokens) .fnBody tokens (TargetPart tokens st l ⟨.letFormStar, 0, l.stop + 1⟩)
      ⟨.letFormStar, 0, l.stop + 1⟩ l.form := by
  have hrule : (⟨.letFormStar, [n .varlist, n .body, t .unbind]⟩ : Rule) ∈ base := by
    decide
  have hprior : priorRules base ⟨.letFormStar, [n .varlist, n .body, t .unbind]⟩ = [] := by
    decide
  have hfirst := hl.first_lt
  have hinner := inner_body hl
  refine .of_prior _ 0 hrule rfl (by simp [hprior]) ?_ (by decide) rfl rfl
  refine Route.longest (Due.arrives hdue (mem_tokenRules hrule))
    (tokenDerives_bindings hl hl.listed)
    (show l.first ≤ l.stop + 1 by omega) (by simp) (fun q hlt hle hcovers => False.elim ?_)
    (fun hdue => ⟨⟨.inr (.bindings hl.listed), hdue⟩, fun _ hlast => ?_⟩) fun hbody => ?_
  · obtain ⟨list, others, hothers, -⟩ := shape_of_covers hl hcovers
    obtain ⟨first, last, hlast⟩ := hothers.exists_last
    exact Nat.not_lt.2 (hl.binding_le hlast) hlt
  · have hlast : l.first = l.stop + 1 := hlast
    omega
  refine Route.longest hbody (hinner.covers hl.toDelimited) (Nat.le_succ _) (by simp)
    (fun q hlt hle hcovers => False.elim ?_) (fun hdue => ⟨⟨.inl hinner, hdue⟩, fun hsame _ => ?_⟩)
    fun hunbind => ?_
  · -- Behind the value of the body there is no step.
    obtain rfl : q = l.stop + 1 := Nat.le_antisymm hle hlt
    obtain ⟨nodes, hnodes⟩ := hcovers.exists_nodes
    have hcalm : ∀ q, l.first ≤ q → q < l.stop + 1 → ∀ i, tokens[q]? = some i →
        isStep i.kind = true ∨ isCalm i.kind = true := by
      intro q hlow _ i hi
      rcases hl.cases_at hi with ⟨hstep, -⟩ | ⟨-, hq, -⟩ | ⟨hkind, -⟩ | ⟨hkind, -⟩
      · exact .inl hstep
      · omega
      all_goals
        rw [hkind]
        exact .inr rfl
    obtain ⟨node, hnode, -⟩ :=
      (inner_of_assembles hl.toDelimited hcalm hnodes).resolve_left (by simp [isFree, isOpen])
    obtain ⟨i, hi, hstep⟩ :=
      hnode.isStep hl.toSegmented l.stop hl.first_le (Nat.lt_succ_self _)
    exact (Nat.lt_irrefl _ (hl.lt_stop_of_step hi hstep)).elim
  · exact (Nat.ne_of_gt hl.first_pos hsame).elim
  · rw [t, ← hl.unbind_kind] at hunbind ⊢
    exact .token hunbind hl.unbind_at (Nat.lt_succ_self _) fun _ => .nil

theorem routed_expr (hdue : Due (tokenRules tokens) .fnBody tokens .expr 0) :
    Routed (tokenRules tokens) .fnBody tokens (TargetPart tokens st l ⟨.expr, 0, l.stop + 1⟩)
      ⟨.expr, 0, l.stop + 1⟩ (.plain .expr [l.form]) := by
  have hrule : (⟨.expr, [n .letFormStar]⟩ : Rule) ∈ base := by decide
  have hprior : ∀ r ∈ priorRules base ⟨.expr, [n .letFormStar]⟩,
      r.rhs.any (lacks isKnown isPresent) = true := by
    decide
  exact routed_of_single hrule (fun r hr _ => not_assembles_of_lacks hl (hprior r hr)) hdue
    (tokenDerives_form hl).2 (fun hdue => ⟨⟨.inr .form, hdue⟩, fun _ _ => by simp [level]⟩) rfl rfl

theorem routed_statement (hdue : Due (tokenRules tokens) .fnBody tokens .exprStmt 0) :
    Routed (tokenRules tokens) .fnBody tokens (TargetPart tokens st l ⟨.exprStmt, 0, l.stop + 1⟩)
      ⟨.exprStmt, 0, l.stop + 1⟩ (kept (.plain .expr [l.form])) := by
  have hmarker : Inner tokens st .optDiscard (l.stop + 1) (l.stop + 1) (.plain .optDiscard []) :=
    .inl ⟨rfl, rfl⟩
  exact routed_kept hdue (tokenDerives_form hl).1
    (fun hdue => ⟨⟨.inr .expr, hdue⟩, fun _ _ => by simp [level]⟩)
    fun hdue => ⟨⟨.inl hmarker, hdue⟩, fun _ _ => by simp [level]⟩

theorem routed_routine (hdue : Due (tokenRules tokens) .fnBody tokens .fnBody 0) :
    Routed (tokenRules tokens) .fnBody tokens (TargetPart tokens st l ⟨.fnBody, 0, l.stop + 2⟩)
      ⟨.fnBody, 0, l.stop + 2⟩ l.routine := by
  refine routed_returned ⟨hl.ret_at, hl.ret_kind⟩ hdue (tokenDerives_body hl).2.2
    (fun hcovers => ?_) (fun hdue => ⟨⟨.inr .body, hdue⟩, fun _ _ => by simp [level]⟩)
    (fun hdue => ⟨⟨.inr .label, hdue⟩, fun _ _ => by simp [level]⟩)
    fun hdue => ⟨⟨.inr .return, hdue⟩, fun _ _ => by simp [level]⟩
  obtain ⟨node, items, hitems, -⟩ := shape_of_covers hl hcovers
  have := (ends_of_items hl hitems).2.1
  omega

/-- Every target is found where it is waited for. -/
theorem routed (hbounded : CountsBounded tokens) (h : Target tokens st l span tree) :
    Routed (tokenRules tokens) .fnBody tokens (TargetPart tokens st l span) span tree := by
  obtain ⟨hinner | hbuilds, hdue⟩ := h
  · exact (routed_inner hl.toDelimited ⟨hinner, hdue⟩ hbounded).imp
      fun part tree h => ⟨⟨.inl h.1.1, h.1.2⟩, h.2⟩
  · cases hbuilds with
    | binding h => exact routed_binding hl hdue h
    | bindings h => exact routed_bindings hl hdue h
    | form => exact routed_form hl hdue
    | expr => exact routed_expr hl hdue
    | statement => exact routed_statement hl hdue
    | statements =>
      exact routed_exprs_of_single hdue (tokenDerives_body hl).1
        fun hdue => ⟨⟨.inr .statement, hdue⟩, fun _ _ => by simp [level]⟩
    | body =>
      exact routed_body_of_exprs hdue (tokenDerives_body hl).2.1
        fun hdue => ⟨⟨.inr .statements, hdue⟩, fun _ _ => by simp [level]⟩
    | label => exact routed_unlabeled
    | «return» => exact routed_return ⟨hl.ret_at, hl.ret_kind⟩ hdue
    | routine => exact routed_routine hl hdue

theorem plan (hbounded : CountsBounded tokens) :
    Plan (tokenRules tokens) .fnBody tokens (Target tokens st l) (level ·.kind) Guards where
  unique _ _ _ h h' := unique hl h h'
  descends _ _ hspan hpart hfirst hlast := descends hl hspan hpart hfirst hlast
  guarded _ _ _ _ hpart hguards := .inl (Guards.eq hpart hguards)
  routed _ _ h := routed hl hbounded h

/-- The parser reads the code as a routine whose only statement is the form. -/
theorem parse_layout (hbounded : CountsBounded tokens) :
    parse .fnBody (arityRules tokens) tokens = .ok l.routine := by
  refine parse_of_plan (plan hl hbounded) hl.length_eq (tokenDerives_routine hl) (Nat.succ_pos _)
    ⟨.inr .routine, .inl ⟨rfl, rfl⟩⟩ fun t ht => ?_
  cases ht.1

end

end ElispLift.Let
