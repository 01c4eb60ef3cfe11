import ElispLift.Proofs.Cond.Ranks

/-!
# Finding clauses

The parser finds the form that all clauses make up. Whatever else begins where a clause does is
refused when its tree is built, so the clause is found, and the list of those behind it is taken up
to the end.
-/

namespace ElispLift.Cond

open Grammar StraightLine Extraction ElispLift.Derivation

variable {tokens : List Instruction} {st : Nat → State} {l : Parts} {p q m e : Nat}
  {i r : Instruction} {node : Node} {nodes : List Node} {kind : Nonterminal} {span : Span}
  {tree : Node} {v : Pending}

/-- The parts over the same instructions have a lower rank. -/
def TargetPart (tokens : List Instruction) (st : Nat → State) (l : Parts) (span part : Span)
    (tree : Node) : Prop :=
  Target tokens st l part tree ∧
    (part.first = span.first → part.last = span.last → rank tokens part < rank tokens span)

theorem returns_of_readsClause (h : ReadsClause tokens st p e node) :
    Context.returns node = true := by
  obtain ⟨m, condition, q, v, r, k, -, -, hv, -, -, rfl⟩ := h
  simp [Context.returns, Node.plain, Node.children, Node.child?, Node.isOp, Node.token?,
    Instruction.isOp, hv.kind_eq]

theorem returns_of_readsPlain (h : ReadsPlain tokens st p e node) :
    Context.returns node = true := by
  obtain ⟨q, v, r, -, hv, rfl⟩ := h
  simp [Context.returns, Node.plain, Node.children, Node.child?, Node.isOp, Node.token?,
    Instruction.isOp, hv.kind_eq]

/-- Behind a label stands a clause that returns. -/
theorem returns_of_listed (h : Listed (ReadsLabeled tokens st) p e nodes) :
    ∀ clause ∈ nodes.filterMap (·.child? 1), Context.returns clause = true := by
  have hone : ∀ {p e node}, ReadsLabeled tokens st p e node →
      ∀ clause ∈ node.child? 1, Context.returns clause = true := by
    rintro p e node ⟨i, clause, -, -, hclause, rfl⟩ other hother
    obtain rfl : clause = other := by simpa [Node.plain, Node.child?, Node.children] using hother
    rcases hclause with hclause | ⟨hplain, -⟩
    · exact returns_of_readsClause hclause
    · exact returns_of_readsPlain hplain
  intro clause hclause
  obtain ⟨node, hnode, hchild⟩ := List.mem_filterMap.1 hclause
  induction h with
  | one h =>
    obtain rfl := List.mem_singleton.1 hnode
    exact hone h clause hchild
  | more _ h ih =>
    rcases List.mem_append.1 hnode with hnode | hnode
    · exact ih (List.mem_filterMap.2 ⟨node, hnode, hchild⟩) hnode
    · obtain rfl := List.mem_singleton.1 hnode
      exact hone h clause hchild

section

variable (hl : Chained tokens st)

include hl

/-- What a rule before another one makes of the same instructions is read too. -/
theorem reads_of_prior {s s' : Rule} (hs : s' ∈ priorRules base s)
    (hinner : isInner s.lhs = false) (hfree : isUnchecked s.lhs = true)
    (h : Assembles (tokenRules tokens) tokens (AllowsChildren tokens) s'.rhs p e nodes)
    (hallowed : AllowsChildren tokens s.lhs nodes e) :
    Reads tokens st s.lhs p e (Extraction.node s' nodes) := by
  obtain ⟨hmem, hlhs⟩ := mem_priorRules hs
  rw [← hlhs] at hinner hfree hallowed ⊢
  have hall : Assembles (tokenRules tokens) tokens (AllowsChildren tokens)
      [.nonterminal s'.lhs] p e [Extraction.node s' nodes] :=
    .nonterminal (mem_tokenRules hmem) h (fun _ => allowsSpan_of_unchecked hfree _ _ _) hallowed
      (.nil e)
  obtain ⟨node, hnode, he⟩ := (shape_of_assembles hl hall).single
  rw [(List.cons.inj he).1]
  exact (shape_of_not_isInner hinner).1 hnode

theorem routed_condition (hdue : Due (tokenRules tokens) .fnBody tokens .condition p)
    (h : ReadsCondition tokens st p e node) :
    Routed (tokenRules tokens) .fnBody tokens (TargetPart tokens st l ⟨.condition, p, e⟩)
      ⟨.condition, p, e⟩ node := by
  have hrule : (⟨.condition, [n .expr, t .gotoIfNil, n .optComeFrom, n .optLabel]⟩ : Rule) ∈ base :=
    by decide
  have hprior : priorRules base ⟨.condition, [n .expr, t .gotoIfNil, n .optComeFrom,
      n .optLabel]⟩ = [] := by decide
  have habsent : Nonterminal.optComeFrom ∈ markers := by decide
  have hunlabeled : Nonterminal.optLabel ∈ markers := by decide
  obtain ⟨m, v, i, rfl, hv, rfl⟩ := h
  have hlt := (hv.lt hl.toSegmented).1
  have hinner := hv.inner hl.toSegmented
  refine .of_prior _ 0 hrule rfl (by simp [hprior]) ?_ (by decide) rfl rfl
  refine Route.longest (Due.arrives hdue (mem_tokenRules hrule)) (hinner.covers hl.toDelimited)
    (Nat.le_succ m) (by simp) (fun q hlow hhigh _ => ?_)
    (fun hdue => ⟨⟨.inl hinner, hdue⟩, fun _ hlast =>
      (Nat.ne_of_lt (Nat.lt_succ_self m) hlast).elim⟩)
    fun hjump => ?_
  · -- The jump is in no expression, and none ends right behind it.
    obtain rfl : q = m + 1 := Nat.le_antisymm hhigh hlow
    refine barren_of_not_shape hl fun node hshape => ?_
    rcases hshape with hreads | hcond
    · exact false_of_step hv.at_eq (by rw [hv.kind_eq]; rfl)
        (hreads.isStep hl.toSegmented (Nat.le_of_lt hlt) (Nat.lt_succ_self m))
    · obtain ⟨j, hj, hstep⟩ := step_behind_jump hl hv.at_eq hv.kind_eq
      exact false_of_step hj (by rw [hcond.kind_eq hl hj]; rfl) ⟨j, hj, hstep⟩
  rw [t, ← hv.kind_eq] at hjump ⊢
  refine .token hjump hv.at_eq (Nat.lt_succ_self m) fun harrival => ?_
  refine Route.longest harrival (tokenDerives_marker habsent) (Nat.le_refl _) (by simp)
    (fun q hlow hhigh => absurd hhigh (Nat.not_le.2 hlow))
    (fun hdue => ⟨⟨.inr (.arrival _), hdue⟩, fun hfirst _ => ?_⟩) fun hlabel =>
      Route.final hlabel (tokenDerives_marker hunlabeled) fun hdue =>
        ⟨⟨.inr (.label _), hdue⟩, fun hfirst _ => ?_⟩
  all_goals
    change m + 1 = p at hfirst
    omega

theorem routed_end (hdue : Due (tokenRules tokens) .fnBody tokens .endClause p)
    (h : ReadsEnd tokens p e node) :
    Routed (tokenRules tokens) .fnBody tokens (TargetPart tokens st l ⟨.endClause, p, e⟩)
      ⟨.endClause, p, e⟩ node := by
  have hone : (⟨.endClause, [t .ret]⟩ : Rule) ∈ base := by decide
  have htwo : (⟨.endClause, [t .ret, t .comeFrom]⟩ : Rule) ∈ base := by decide
  have hread := id h
  obtain ⟨r, hr, hkind, ⟨rfl, rfl⟩ | ⟨k, rfl, hk, hkind', rfl⟩⟩ := h
  · refine .of_prior [.token r] 0 hone rfl (fun s hs nodes hnodes hallowed => ?_) ?_ (by decide) rfl
      rfl
    · exact hread.unique (reads_of_prior hl hs rfl rfl hnodes hallowed)
    · have harrives := Due.arrives hdue (mem_tokenRules hone)
      rw [t, ← hkind] at harrives ⊢
      exact .token harrives hr (Nat.lt_succ_self p) fun _ => .nil
  · refine .of_prior [.token r, .token k] 0 htwo rfl (fun s hs nodes hnodes hallowed => ?_) ?_
      (by decide) rfl rfl
    · exact hread.unique (reads_of_prior hl hs rfl rfl hnodes hallowed)
    · have harrives := Due.arrives hdue (mem_tokenRules htwo)
      rw [t, t, ← hkind, ← hkind'] at harrives ⊢
      exact .token harrives hr (by dsimp only; omega) fun hmarker =>
        .token hmarker hk (Nat.lt_succ_self _) fun _ => .nil

/-- The value of a clause is found, and the return behind it. -/
theorem route_value {ending : Node} (hspan : span.last = e) (hp : span.first ≤ p)
    (hne : p = span.first → q ≠ span.last)
    (h : Arrives (tokenRules tokens) .fnBody tokens [n .body, n .endClause] p)
    (hv : Spends tokens st .ret p q v r) (hend : ReadsEnd tokens q e ending) :
    Route (tokenRules tokens) .fnBody tokens (TargetPart tokens st l span) span.last 0
      [n .body, n .endClause] p [bodyOf v, ending] := by
  have hlt := (hv.lt hl.toSegmented).1
  have hle : q ≤ e := Derives.le (tokenDerives_end hend)
  have hinner := inner_body hl.toSegmented hv
  subst hspan
  refine Route.longest h (hinner.covers hl.toDelimited) hle (by simp) (fun q' hlow _ _ => ?_)
    (fun hdue => ⟨⟨.inl hinner, hdue⟩, fun hfirst hlast => (hne hfirst hlast).elim⟩) fun hreturn =>
      Route.final hreturn (tokenDerives_end hend) fun hdue =>
        ⟨⟨.inr (.ending hend), hdue⟩, fun hfirst _ => ?_⟩
  · refine barren_of_not_shape hl fun node hshape => ?_
    obtain ⟨items, hitems, -⟩ := hshape
    exact (Nat.ne_of_gt hlow) (end_of_items hl hv hitems)
  · change q = span.first at hfirst
    omega

theorem routed_clause (hdue : Due (tokenRules tokens) .fnBody tokens .clause p)
    (h : ReadsClause tokens st p e node) :
    Routed (tokenRules tokens) .fnBody tokens (TargetPart tokens st l ⟨.clause, p, e⟩)
      ⟨.clause, p, e⟩ node := by
  have hrule : (⟨.clause, [n .condition, n .body, n .endClause]⟩ : Rule) ∈ base := by
    decide
  have hprior : priorRules base ⟨.clause, [n .condition, n .body, n .endClause]⟩ = [] := by
    decide
  obtain ⟨m, condition, q, v, r, k, rfl, hcondition, hv, hk, hkind, rfl⟩ := h
  have hlt := hcondition.first_lt hl.toSegmented
  have hlt' := (hv.lt hl.toSegmented).1
  have hend : ReadsEnd tokens q (q + 2) (.plain .endClause [.token r, .token k]) :=
    ⟨r, hv.at_eq, hv.kind_eq, .inr ⟨k, rfl, hk, hkind, rfl⟩⟩
  have hallowed : AllowsChildren tokens .clause [condition, bodyOf v,
      .plain .endClause [.token r, .token k]] (q + 2) := by
    obtain ⟨m', w, i, -, -, rfl⟩ := hcondition
    simp [AllowsChildren, Context.allowsChildren, Context.allowsClause, Node.isKind, Node.kind?,
      Node.plain, Node.children, Node.isOp, Node.token?, Instruction.isOp, hkind]
  refine .of_prior _ 0 hrule rfl (by simp [hprior]) ?_ (by decide) hallowed rfl
  refine Route.longest (Due.arrives hdue (mem_tokenRules hrule))
    (tokenDerives_condition hl hcondition) (show m ≤ q + 2 by omega) (by simp)
    (fun q' hlow _ _ => ?_)
    (fun hdue => ⟨⟨.inr (.condition hcondition), hdue⟩, fun _ hlast => ?_⟩) fun hvalue =>
      route_value hl rfl (Nat.le_of_lt hlt) (fun hfirst _ => Nat.ne_of_gt hlt hfirst) hvalue hv hend
  · -- The condition ends with the jump behind its value.
    refine barren_of_not_shape hl fun node hshape => ?_
    obtain ⟨m', w, i, rfl, hw, -⟩ := hcondition
    obtain ⟨m'', w', i', rfl, hw', -⟩ := hshape
    obtain rfl := hw.end_unique hl.toSegmented rfl hw' rfl
    exact Nat.lt_irrefl _ hlow
  · change m = q + 2 at hlast
    omega

theorem routed_plain (hdue : Due (tokenRules tokens) .fnBody tokens .clause p)
    (h : ReadsPlain tokens st p e node) :
    Routed (tokenRules tokens) .fnBody tokens (TargetPart tokens st l ⟨.clause, p, e⟩)
      ⟨.clause, p, e⟩ node := by
  have hrule : (⟨.clause, [n .optLabel, n .body, n .endClause]⟩ : Rule) ∈ base := by
    decide
  have hmarkers : ∀ r ∈ base, r.lhs = .optLabel → r.rhs = [t .label] ∨ r.rhs = [] := by
    decide +kernel
  have hunlabeled : Nonterminal.optLabel ∈ markers := by decide
  have hread := id h
  obtain ⟨q, v, r, rfl, hv, rfl⟩ := h
  have hlt := (hv.lt hl.toSegmented).1
  have hstep := hv.isStep hl.toSegmented (Nat.le_refl p) hlt
  have hend : ReadsEnd tokens q (q + 1) (.plain .endClause [.token r]) :=
    ⟨r, hv.at_eq, hv.kind_eq, .inl ⟨rfl, rfl⟩⟩
  have hallowed : AllowsChildren tokens .clause [.plain .optLabel [], bodyOf v,
      .plain .endClause [.token r]] (q + 1) := by
    simp [AllowsChildren, Context.allowsChildren, Context.allowsClause, Node.isKind, Node.kind?,
      Node.plain, Node.children, Node.isOp, Node.token?, Instruction.isOp, hv.kind_eq]
  refine .of_prior _ 0 hrule rfl (fun s hs nodes hnodes hallowed => ?_) ?_ (by decide) hallowed rfl
  · rcases reads_of_prior hl hs rfl rfl hnodes hallowed with hclause | hplain |
      ⟨i, other, hi, hkind, -⟩
    · exact (hclause.not_plain hread).elim
    · exact (hread.unique hplain).2
    · exact (false_of_step hi (by rw [hkind]; rfl) hstep).elim
  refine Route.longest (Due.arrives hdue (mem_tokenRules hrule)) (tokenDerives_marker hunlabeled)
    (show p ≤ q + 1 by omega) (by simp) (fun q' hlow _ hcovers => False.elim ?_)
    (fun hdue => ⟨⟨.inr (.label p), hdue⟩, fun _ hlast => ?_⟩) fun hvalue =>
      route_value hl rfl (Nat.le_refl p) (fun _ hlast => Nat.ne_of_lt (Nat.lt_succ_self q) hlast)
        hvalue hv hend
  · rcases marker_of_covers hmarkers (by simp) hcovers with rfl | ⟨-, i, hi, hkind⟩
    · exact Nat.lt_irrefl _ hlow
    · exact false_of_step hi (by rw [hkind]; rfl) hstep
  · change p = q + 1 at hlast
    omega

theorem routed_labeled (hdue : Due (tokenRules tokens) .fnBody tokens .labeledClause p)
    (h : ReadsLabeled tokens st p e node) :
    Routed (tokenRules tokens) .fnBody tokens (TargetPart tokens st l ⟨.labeledClause, p, e⟩)
      ⟨.labeledClause, p, e⟩ node := by
  have hrule : (⟨.labeledClause, [t .label, n .clause]⟩ : Rule) ∈ base := by decide
  have hprior : priorRules base ⟨.labeledClause, [t .label, n .clause]⟩ = [] := by decide
  obtain ⟨i, clause, hi, hkind, hclause, rfl⟩ := h
  have hbuilds : Builds tokens st l ⟨.clause, p + 1, e⟩ clause := by
    rcases hclause with hclause | ⟨hplain, -⟩
    · exact .clause hclause
    · exact .plain hplain
  have hcovers : TokenDerives tokens [.nonterminal .clause] (p + 1) e := by
    rcases hclause with hclause | ⟨hplain, -⟩
    · exact tokenDerives_clause hl hclause
    · exact tokenDerives_plain hl hplain
  have hlt : p < e := Derives.le hcovers
  refine .of_prior [.token i, clause] 0 hrule rfl (by simp [hprior]) ?_ (by decide) rfl rfl
  have harrives := Due.arrives hdue (mem_tokenRules hrule)
  rw [t, ← hkind] at harrives ⊢
  exact .token harrives hi hlt fun hrest => Route.final hrest hcovers fun hdue =>
    ⟨⟨.inr hbuilds, hdue⟩, fun hfirst _ => (Nat.ne_of_gt (Nat.lt_succ_self p) hfirst).elim⟩

end

section

variable (hl : Layout tokens st l)

include hl

/-- A list of clauses begins behind the first one, so it is not all there is. -/
theorem rank_clauses (kind : Nonterminal) (h : Listed (ReadsLabeled tokens st) p e nodes) :
    rank tokens ⟨kind, p, e⟩ = if kind = .labeledClauses then 1 else 0 := by
  obtain ⟨i, hi, hkind⟩ := first_label h
  have hcontrol : isStep i.kind = false := by rw [hkind]; rfl
  have hlt : p < e := h.first_lt fun _ _ _ h => h.first_lt hl.toSegmented
  refine rank_of_part (Bool.eq_false_iff.2 fun hstraight => ?_) ?_
  · exact false_of_step hi hcontrol (isStraight_iff.1 hstraight p (Nat.le_refl p) hlt)
  · rintro ⟨rfl, -⟩
    obtain ⟨m, condition, q, v, r, k, -, ⟨m', w, j, -, hw, -⟩, -⟩ := hl.first
    exact false_of_step hi hcontrol
      (hw.isStep hl.toSegmented (Nat.le_refl 0) (hw.lt hl.toSegmented).1)

/-- The last clause is found behind the list of those before it, if there are any. -/
theorem routed_clauses (hdue : Due (tokenRules tokens) .fnBody tokens .labeledClauses p)
    (h : Listed (ReadsLabeled tokens st) p e nodes) :
    Routed (tokenRules tokens) .fnBody tokens (TargetPart tokens st l ⟨.labeledClauses, p, e⟩)
      ⟨.labeledClauses, p, e⟩ (.plain .labeledClauses nodes) := by
  have hone : (⟨.labeledClauses, [n .labeledClause]⟩ : Rule) ∈ base := by decide
  have hmore : (⟨.labeledClauses, [n .labeledClauses, n .labeledClause]⟩ : Rule) ∈ base := by
    decide
  have hprior : priorRules base ⟨.labeledClauses, [n .labeledClause]⟩ = [] := by decide
  have hrank := fun kind => rank_clauses hl kind h
  have hread := id h
  cases h with
  | @one e item hitem =>
    exact routed_of_single hone (by simp [hprior]) hdue (tokenDerives_labeled hl.toChained hitem)
      (fun hdue => ⟨⟨.inr (.labeled hitem), hdue⟩, fun _ _ => by simp [hrank]⟩) rfl rfl
  | @more m e items item hlist hitem =>
    have hlt := hitem.first_lt hl.toSegmented
    have hpos : p < m := hlist.first_lt fun _ _ _ h => h.first_lt hl.toSegmented
    refine .of_prior [.plain .labeledClauses items, item] 1 hmore rfl
      (fun s hs nodes hnodes hallowed => ?_) ?_ (by decide) rfl rfl
    · obtain ⟨others, hothers, he⟩ := reads_of_prior hl.toChained hs rfl rfl hnodes hallowed
      rw [he, hread.unique (fun _ _ _ h => h.first_lt hl.toSegmented)
        (fun _ _ _ _ _ h h' => h.unique h') hothers]
    refine Route.next [e] (Due.arrives hdue (mem_tokenRules hmore))
      (tokenDerives_clauses hl.toChained hlist) (Nat.le_of_lt hlt) (by simp)
      (fun q hq hle _ => ?_)
      (fun hdue => ⟨⟨.inr (.clauses hlist), hdue⟩, fun _ hlast => (Nat.ne_of_lt hlt hlast).elim⟩)
      fun harrives => Route.final harrives (tokenDerives_labeled hl.toChained hitem) fun hdue =>
        ⟨⟨.inr (.labeled hitem), hdue⟩, fun hfirst _ => (Nat.ne_of_gt hpos hfirst).elim⟩
    rcases Nat.lt_or_eq_of_le hle with hlt' | rfl
    · -- No clause ends within the last one.
      refine .inl (barren_of_not_shape hl.toChained fun node hshape => ?_)
      obtain ⟨others, hothers, -⟩ := hshape
      obtain ⟨first, last, hlast⟩ := hothers.exists_last
      rcases hlast.end_cases hl.toChained with rfl | ⟨i, hi, hkind⟩
      · exact Nat.not_lt.2 (hitem.le_length hl.toChained) hlt'
      · exact Nat.not_lt.2 (hitem.le_of_label hl.toChained hi hkind hq) hlt'
    · refine .inr ⟨List.mem_singleton_self _, stuck_at_last fun kind hkind q hcovers => ?_⟩
      obtain rfl := Symbol.nonterminal.inj hkind
      exact lt_of_covers (by decide) hcovers

theorem routed_form (hdue : Due (tokenRules tokens) .fnBody tokens .condForm 0) :
    Routed (tokenRules tokens) .fnBody tokens (TargetPart tokens st l ⟨.condForm, 0, tokens.length⟩)
      ⟨.condForm, 0, tokens.length⟩ l.form := by
  have hrule : (⟨.condForm, [n .clause, n .labeledClauses]⟩ : Rule) ∈ base := by decide
  have hpos : 0 < l.stop := hl.first.first_lt hl.toSegmented
  have hlt : l.stop < tokens.length :=
    hl.rest.first_lt fun _ _ _ h => h.first_lt hl.toSegmented
  have hallowed : AllowsChildren tokens .condForm [l.first, .plain .labeledClauses l.rest]
      tokens.length :=
    List.all_eq_true.2 (List.forall_mem_cons.2
      ⟨returns_of_readsClause hl.first, returns_of_listed hl.rest⟩)
  refine .of_prior _ 0 hrule rfl (fun s hs nodes hnodes hallowed => ?_) ?_ (by decide) hallowed rfl
  · obtain ⟨m, first, rest, hfirst, hrest, he⟩ :=
      reads_of_prior hl.toChained hs rfl rfl hnodes hallowed
    obtain rfl := hl.first.end_unique hl.toChained (.inl hfirst)
    rw [he, (hl.first.unique hfirst).2, hl.rest.unique (fun _ _ _ h => h.first_lt hl.toSegmented)
      (fun _ _ _ _ _ h h' => h.unique h') hrest, Parts.form]
  · refine Route.longest (Due.arrives hdue (mem_tokenRules hrule))
      (tokenDerives_clause hl.toChained hl.first) (Nat.le_of_lt hlt) (by simp)
      (fun q hlow _ _ => ?_)
      (fun hdue => ⟨⟨.inr (.clause hl.first), hdue⟩, fun _ hlast => (Nat.ne_of_lt hlt hlast).elim⟩)
      fun hrest => Route.final hrest (tokenDerives_clauses hl.toChained hl.rest) fun hdue =>
        ⟨⟨.inr (.clauses hl.rest), hdue⟩, fun hfirst _ => (Nat.ne_of_gt hpos hfirst).elim⟩
    -- Nothing longer is read as a clause.
    refine barren_of_not_shape hl.toChained fun node hshape => ?_
    exact Nat.ne_of_gt hlow (hl.first.end_unique hl.toChained hshape)

/-- Over all instructions a nonterminal is ranked by what is built around it. -/
theorem rank_whole (kind : Nonterminal) :
    rank tokens ⟨kind, 0, tokens.length⟩ = spine.length - (outer kind).length :=
  rank_of_whole (not_isStraight hl ⟨rfl, rfl⟩) ⟨rfl, rfl⟩

theorem routed_expr (hdue : Due (tokenRules tokens) .fnBody tokens .expr 0) :
    Routed (tokenRules tokens) .fnBody tokens (TargetPart tokens st l ⟨.expr, 0, tokens.length⟩)
      ⟨.expr, 0, tokens.length⟩ (.plain .expr [l.form]) := by
  have hrule : (⟨.expr, [n .condForm]⟩ : Rule) ∈ base := by decide
  have hprior : ∀ r ∈ priorRules base ⟨.expr, [n .condForm]⟩,
      r.rhs.any (lacks isKnown isPresent) = true := by
    decide
  refine routed_of_single hrule (fun r hr _ => not_assembles_of_lacks hl.toChained (hprior r hr))
    hdue (tokenDerives_form hl).2 (fun hdue => ⟨⟨.inr .form, hdue⟩, fun _ _ => ?_⟩) rfl rfl
  rw [rank_whole hl, rank_whole hl]
  decide

theorem routed_statement (hdue : Due (tokenRules tokens) .fnBody tokens .exprStmt 0) :
    Routed (tokenRules tokens) .fnBody tokens (TargetPart tokens st l ⟨.exprStmt, 0, tokens.length⟩)
      ⟨.exprStmt, 0, tokens.length⟩ (kept (.plain .expr [l.form])) := by
  have hmarker : Inner tokens st .optDiscard tokens.length tokens.length (.plain .optDiscard []) :=
    .inl ⟨rfl, rfl⟩
  refine routed_kept hdue (tokenDerives_form hl).1 (fun hdue => ⟨⟨.inr .expr, hdue⟩, fun _ _ => ?_⟩)
    fun hdue => ⟨⟨.inl hmarker, hdue⟩, fun hfirst _ => (Nat.ne_of_gt (length_pos hl) hfirst).elim⟩
  rw [rank_whole hl, rank_whole hl]
  decide

theorem routed_routine (hdue : Due (tokenRules tokens) .fnBody tokens .fnBody 0) :
    Routed (tokenRules tokens) .fnBody tokens (TargetPart tokens st l ⟨.fnBody, 0, tokens.length⟩)
      ⟨.fnBody, 0, tokens.length⟩ l.routine := by
  have hrule : (⟨.fnBody, [n .body, n .optLabel, n .optReturn]⟩ : Rule) ∈ base := by decide
  have hprior : priorRules base ⟨.fnBody, [n .body, n .optLabel, n .optReturn]⟩ = [] := by
    decide
  have hunlabeled : Nonterminal.optLabel ∈ markers := by decide
  have hunreturned : Nonterminal.optReturn ∈ markers := by decide
  refine .of_prior _ 0 hrule rfl (by simp [hprior]) ?_ (by decide) rfl rfl
  refine Route.longest (Due.arrives hdue (mem_tokenRules hrule)) (tokenDerives_body hl).2.2
    (Nat.le_refl _) (by simp) (fun q hlt hle => absurd hle (Nat.not_le.2 hlt))
    (fun hdue => ⟨⟨.inr .body, hdue⟩, fun _ _ => ?_⟩) fun hlabel => ?_
  · rw [rank_whole hl, rank_whole hl]
    decide
  · have hbehind : tokens.length ≠ 0 := Nat.ne_of_gt (length_pos hl)
    exact Route.longest hlabel (tokenDerives_marker hunlabeled) (Nat.le_refl _) (by simp)
      (fun q hlt hle => absurd hle (Nat.not_le.2 hlt))
      (fun hdue => ⟨⟨.inr (.label _), hdue⟩, fun hfirst _ => (hbehind hfirst).elim⟩)
      fun hreturn => Route.final hreturn (tokenDerives_marker hunreturned) fun hdue =>
        ⟨⟨.inr (.return _), hdue⟩, fun hfirst _ => (hbehind hfirst).elim⟩

omit hl in
theorem routed_marker (hmarker : kind ∈ markers) :
    Routed (tokenRules tokens) .fnBody tokens (TargetPart tokens st l ⟨kind, p, p⟩) ⟨kind, p, p⟩
      (.plain kind []) := by
  obtain ⟨hrule, -, op, -, hprior⟩ := rules_of_marker kind hmarker
  have hall : ∀ r ∈ priorRules base ⟨kind, []⟩, ∃ terminal, r.rhs = [.terminal terminal] := by
    rw [hprior]
    exact List.forall_mem_singleton.2 ⟨.fixed op, rfl⟩
  simp only [markers, List.mem_cons, List.not_mem_nil, or_false] at hmarker
  rcases hmarker with rfl | rfl | rfl <;> exact routed_absent hrule hall rfl rfl

/-- Every target is found where it is waited for. -/
theorem routed (hbounded : CountsBounded tokens) (h : Target tokens st l span tree) :
    Routed (tokenRules tokens) .fnBody tokens (TargetPart tokens st l span) span tree := by
  obtain ⟨hinner | hbuilds, hdue⟩ := h
  · have hstraight : ∀ {part tree}, Inner tokens st part.kind part.first part.last tree →
        isStraight tokens part = true := fun h => isStraight_iff.2 (h.isStep hl.toSegmented)
    refine (routed_inner hl.toDelimited ⟨hinner, hdue⟩ hbounded).imp fun part tree h =>
      ⟨⟨.inl h.1.1, h.1.2⟩, fun hfirst hlast => ?_⟩
    rw [rank_of_straight (hstraight h.1.1), rank_of_straight (hstraight hinner)]
    exact h.2 hfirst hlast
  · cases hbuilds with
    | condition h => exact routed_condition hl.toChained hdue h
    | ending h => exact routed_end hl.toChained hdue h
    | clause h => exact routed_clause hl.toChained hdue h
    | plain h => exact routed_plain hl.toChained hdue h
    | labeled h => exact routed_labeled hl.toChained hdue h
    | clauses h => exact routed_clauses hl hdue h
    | form => exact routed_form hl hdue
    | expr => exact routed_expr hl hdue
    | statement => exact routed_statement hl hdue
    | statements =>
      refine routed_exprs_of_single hdue (tokenDerives_body hl).1
        fun hdue => ⟨⟨.inr .statement, hdue⟩, fun _ _ => ?_⟩
      rw [rank_whole hl, rank_whole hl]
      decide
    | body =>
      refine routed_body_of_exprs hdue (tokenDerives_body hl).2.1
        fun hdue => ⟨⟨.inr .statements, hdue⟩, fun _ _ => ?_⟩
      rw [rank_whole hl, rank_whole hl]
      decide
    | arrival => exact routed_marker (show Nonterminal.optComeFrom ∈ markers by decide)
    | label => exact routed_marker (show Nonterminal.optLabel ∈ markers by decide)
    | «return» => exact routed_marker (show Nonterminal.optReturn ∈ markers by decide)
    | routine => exact routed_routine hl hdue

theorem plan (hbounded : CountsBounded tokens) :
    Plan (tokenRules tokens) .fnBody tokens (Target tokens st l) (rank tokens)
      (Surrounds tokens) where
  unique _ _ _ h h' := unique hl h h'
  descends _ _ hspan hpart hfirst hlast := descends hl hspan hpart hfirst hlast
  guarded _ _ _ hspan hpart h := surrounded hspan hpart h
  routed _ _ h := routed hl hbounded h

/-- The parser reads the code as a routine whose only statement is the form. -/
theorem parse_layout (hbounded : CountsBounded tokens) :
    parse .fnBody (arityRules tokens) tokens = .ok l.routine := by
  refine parse_of_plan (plan hl hbounded) rfl (tokenDerives_routine hl) (length_pos hl)
    ⟨.inr .routine, .inl ⟨rfl, rfl⟩⟩ fun around h => ?_
  rcases h with ⟨hguarded, -⟩ | ⟨-, -, houter⟩
  · cases hguarded
  · exact absurd houter (by simp [outer, spine])

end

end ElispLift.Cond
