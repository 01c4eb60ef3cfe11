import ElispLift.Proofs.Segments.Derivations

/-!
# Rules for segments

What the rules for straight-line code make of nodes of the forms given before has one of these forms
again. The operands of an operation are values on the stack, since an expression from elsewhere ends
where no value is needed. So a routine is described by its other rules alone.
-/

namespace ElispLift.StraightLine

open Grammar

variable {tokens : List Instruction} {st : Nat → State} {p m e : Nat} {i : Instruction}
  {op : Operation} {node tree : Node} {nodes : List Node} {kind : Nonterminal} {r : Rule}
  {E : Nat → Nat → Node → Prop} {Y : Nonterminal → Nat → Nat → Node → Prop}

/-- The base rules that straight-line code is read by, besides those for single operators. -/
def liveRules : List Rule :=
  [⟨.body, [n .exprs]⟩, ⟨.exprs, [n .exprStmt]⟩, ⟨.exprs, [n .exprs, n .exprStmt]⟩,
    ⟨.exprStmt, [n .expr, n .optDiscard]⟩, ⟨.optDiscard, [t .discard]⟩, ⟨.optDiscard, []⟩,
    ⟨.optLabel, []⟩, ⟨.expr, [n .setqForm]⟩, ⟨.setqForm, [n .expr, t .varset]⟩,
    ⟨.expr, [t .varref]⟩, ⟨.expr, [n .nameExpr]⟩, ⟨.expr, [n .nullaryExpr]⟩,
    ⟨.expr, [n .unaryExpr]⟩, ⟨.expr, [n .binaryExpr]⟩, ⟨.expr, [n .ternaryExpr]⟩,
    ⟨.nameExpr, [t .constant]⟩, ⟨.nullaryExpr, [n .nullaryOp]⟩,
    ⟨.unaryExpr, [n .expr, n .unaryOp]⟩, ⟨.binaryExpr, [n .expr, n .expr, n .binaryOp]⟩,
    ⟨.ternaryExpr, [n .expr, n .expr, n .expr, n .ternaryOp]⟩,
    ⟨.unaryExprStacked, [n .unaryOp]⟩]

/-! ### Operands -/

/-- What is needed from before is a value on the stack. -/
theorem readsExpr_of_shape (hE : ∀ p e node, E p e node → Rests tokens st e)
    (hi : tokens[e]? = some i) (hstep : isStep i.kind = true) (hne : (st e).pending ≠ [])
    (h : Shape tokens st E Y .expr p e node) : ReadsExpr tokens st p e node := by
  refine h.resolve_right fun hE' => ?_
  rcases hE _ _ _ hE' with hempty | hcontrol
  · exact hne hempty
  · rw [hcontrol i hi] at hstep
    cases hstep

section

variable (ht : Segmented tokens st) (hE : ∀ p e node, E p e node → Rests tokens st e)

include ht hE

/-- Operands that follow one another are the values on top of the stack. -/
theorem operands_of_chain {k : Nat}
    (h : Chain tokens (Shape tokens st E Y) (List.replicate k (.nonterminal .expr)) p m nodes)
    (hi : ∃ i, tokens[m]? = some i ∧ isStep i.kind = true)
    (hheight : k ≤ (st m).pending.length) :
    ∃ args, args.length = k ∧ (st m).pending = args.reverse ++ (st p).pending ∧
      firstOf m args = p ∧ nodes = args.map (·.tree) ∧
        ∃ i, tokens[p]? = some i ∧ isStep i.kind = true := by
  induction k generalizing p nodes with
  | zero =>
    obtain ⟨rfl, rfl⟩ := h
    exact ⟨[], rfl, rfl, rfl, rfl, hi⟩
  | succ k ih =>
    obtain ⟨q, node, rest, -, hq, rfl, hrest⟩ := h
    obtain ⟨args, hlen, hpending, hfirst, rfl, j, hj, hstep⟩ := ih hrest (by omega)
    have hne : (st q).pending ≠ [] := by
      intro hempty
      rw [hpending, hempty] at hheight
      simp at hheight
      omega
    have hreads := readsExpr_of_shape hE hj hstep hne hq
    rcases hreads.pending_cases ht with ⟨hq, below, hbelow⟩ | ⟨hempty, -⟩
    · have hst := congrArg State.pending (ht.below hq [] hbelow).2.1
      refine ⟨⟨p, node⟩ :: args, by simp [hlen], ?_, rfl, rfl, ?_⟩
      · rw [hst]
        simp [hpending, hbelow]
      · exact hreads.isStep ht (Nat.le_refl p) (hreads.first_lt ht).1
    · exact (hne hempty).elim

theorem takes_of_chain (hi : tokens[m]? = some i) (hop : operation? i.kind = some op)
    (h : Chain tokens (Shape tokens st E Y) (List.replicate op.arity (.nonterminal .expr)) p m
      nodes) :
    ∃ args, Takes tokens st p m op args i ∧ nodes = args.map (·.tree) := by
  have hstep : isStep i.kind = true := by simp [isStep, hop]
  obtain ⟨args, rest, hpending, hlen, -⟩ := ((ht.move m i hi).of_step hstep).of_operation hop
  have hheight : op.arity ≤ (st m).pending.length := by
    rw [hpending]
    simp [hlen]
  obtain ⟨args, hlen, hpending, hfirst, rfl, -⟩ :=
    operands_of_chain ht hE h ⟨i, hi, hstep⟩ hheight
  exact ⟨args, ⟨hi, hop, hlen, hfirst, _, hpending⟩, rfl⟩

/-- The rule of an operation: its operands, and what is applied to them. -/
theorem shape_of_application {k : Nat} {s : Symbol}
    (h : Chain tokens (Shape tokens st E Y) (List.replicate k (.nonterminal .expr) ++ [s]) p e
      nodes)
    (hs : ∀ m after, Chain tokens (Shape tokens st E Y) [s] m e after → ∃ i op, e = m + 1 ∧
      tokens[m]? = some i ∧ operation? i.kind = some op ∧ op.kind = some kind ∧ op.arity = k ∧
        after = [op.signNode i]) :
    Shape tokens st E Y kind p e (.plain kind nodes) := by
  obtain ⟨m, before, after, rfl, hargs, hlast⟩ := h.split
  obtain ⟨i, op, rfl, hi, hop, hform, rfl, rfl⟩ := hs m after hlast
  obtain ⟨args, htakes, rfl⟩ := takes_of_chain ht hE hi hop hargs
  exact (shape_of_isForm (isForm_of_operation hop hform)).2
    ⟨m, op, args, i, rfl, htakes, hform, by simp [Operation.node, hform]⟩

/-- The rule of an operation with an operator. -/
theorem shape_of_signed {sign : Nonterminal} {k : Nat} (hsign : formOf? sign = some (kind, k))
    (h : Chain tokens (Shape tokens st E Y)
      (List.replicate k (.nonterminal .expr) ++ [.nonterminal sign]) p e nodes) :
    Shape tokens st E Y kind p e (.plain kind nodes) := by
  refine shape_of_application ht hE h fun m after hlast => ?_
  obtain ⟨node, hnode, rfl⟩ := hlast.single
  obtain ⟨i, op, he, hi, hop, hopsign, rfl⟩ := (shape_of_sign hsign).1 hnode
  obtain ⟨form, hform, hkind⟩ := formOf_of_operation hop hopsign
  obtain ⟨rfl, rfl⟩ := Prod.mk.inj (Option.some.inj (hform.symm.trans hsign))
  exact ⟨i, op, he, hi, hop, hkind, rfl, by simp [Operation.signNode, hopsign]⟩

theorem shape_setq
    (h : Chain tokens (Shape tokens st E Y) [n .expr, t .varset] p e nodes) :
    Shape tokens st E Y .setqForm p e (.plain .setqForm nodes) := by
  obtain ⟨m, tree, rest, -, hexpr, rfl, i, rest', hi, hkind, rfl, rfl, rfl⟩ := h
  have hstep : isStep i.kind = true := by rw [hkind]; rfl
  have hop : operation? i.kind = none := by rw [hkind]; rfl
  obtain ⟨v, item, hv, -, -⟩ := ((ht.move m i hi).of_step hstep).of_statement hop
  have hreads := readsExpr_of_shape hE hi hstep (by simp [hv]) hexpr
  rcases hreads.pending_cases ht with ⟨-, below, hbelow⟩ | ⟨hempty, -⟩
  · obtain ⟨rfl, -⟩ := List.cons.inj (hbelow.symm.trans hv)
    exact ⟨m, _, i, rfl, hi, hkind, hv, rfl, rfl⟩
  · rw [hempty] at hv
    cases hv

end

theorem operation_of_operator : ∀ o ∈ Opcode.all, ∀ sign ∈ operatorKind? o.opClass,
    (operation? (.fixed o)).bind (·.sign) = some sign := by
  decide

theorem shape_of_operator (hmem : r ∈ operators)
    (h : Chain tokens (Shape tokens st E Y) r.rhs p e nodes) :
    Shape tokens st E Y r.lhs p e (.plain r.lhs nodes) := by
  obtain ⟨o, ho, hsome⟩ := List.mem_filterMap.1 hmem
  obtain ⟨sign, hsign, rfl⟩ := Option.map_eq_some_iff.1 hsome
  obtain ⟨op, hop, hopsign⟩ := Option.bind_eq_some_iff.1 (operation_of_operator o ho sign hsign)
  obtain ⟨i, rest, hi, hkind, rfl, rfl, rfl⟩ := h
  obtain ⟨form, hform, -⟩ := formOf_of_operation hop hopsign
  exact (shape_of_sign hform).2 ⟨i, op, rfl, hi, hkind ▸ hop, hopsign, rfl⟩

/-- An operator with an operand from outside would have to begin a statement. -/
theorem not_stacked (ht : Segmented tokens st)
    (h : Chain tokens (Shape tokens st E Y) [n .unaryOp] p e nodes)
    (hallowed : Context.allowsSpan ⟨tokens.toArray⟩ .unaryExprStacked p e = true) : False := by
  obtain ⟨node, hnode, rfl⟩ := h.single
  obtain ⟨i, op, rfl, hi, hop, hsign, -⟩ := hnode
  obtain ⟨hp, -⟩ := List.getElem?_eq_some_iff.1 hi
  obtain ⟨form, hform, -⟩ := formOf_of_operation hop hsign
  have harity : op.arity = 1 := (congrArg Prod.snd (Option.some.inj hform)).symm
  have hstep : isStep i.kind = true := by simp [isStep, hop]
  obtain ⟨args, rest, hpending, hlen, -⟩ := ((ht.move p i hi).of_step hstep).of_operation hop
  have hempty : (st p).pending = [] := by
    cases p with
    | zero => rw [ht.start]; rfl
    | succ m =>
      obtain ⟨j, hj, hmove⟩ := ht.exists_move (show m < tokens.length by omega)
      have hkind : j.kind = .fixed .varset := by
        simpa [Context.allowsSpan, Context.allowsBefore, hj, Instruction.isOp] using hallowed
      obtain ⟨v, item, -, -, hafter⟩ :=
        (hmove.of_step (by rw [hkind]; rfl)).of_statement (by rw [hkind]; rfl)
      rw [hafter]
  obtain ⟨hargs, -⟩ := List.append_eq_nil_iff.1 (hpending.symm.trans hempty)
  rw [List.reverse_eq_nil_iff.1 hargs, harity] at hlen
  cases hlen

/-! ### Statements -/

/-- A value is a statement only where it may be left. -/
theorem mayEnd_of_allowed (ht : Segmented tokens st) (he : e ≤ tokens.length) {v : Pending}
    {rest : List Pending} (hv : (st e).pending = v :: rest)
    (hallowed : Context.allowsSpan ⟨tokens.toArray⟩ .exprStmt v.first e = true) :
    MayEnd tokens e := by
  obtain ⟨hlt, hst, -⟩ := ht.below he [] hv
  have hnet := ht.net_eq (Nat.le_of_lt hlt) he fun q hlow hhigh =>
    ht.step_of_below he [] hv hlow hhigh
  rw [hv, hst] at hnet
  have hone : Context.net ⟨tokens.toArray⟩ v.first e = 1 := by
    simp only [List.length_cons] at hnet
    omega
  intro i hi
  simpa [Context.allowsSpan, Context.allowsStatement, hone, hi] using hallowed

/-- A value that is left is the only one. -/
theorem Delimited.pending_eq (ht : Delimited tokens st) (he : e ≤ tokens.length) {v : Pending}
    {rest : List Pending} (hv : (st e).pending = v :: rest) (hend : MayEnd tokens e) :
    (st e).pending = [v] := by
  have hle := ht.length_le he fun i hi => hend.isStep_eq hi
  rw [hv] at hle ⊢
  simp only [List.length_cons] at hle
  rw [List.eq_nil_of_length_eq_zero (show rest.length = 0 by omega)]

theorem shape_statement (ht : Delimited tokens st) (hE : ∀ p e node, E p e node → Rests tokens st e)
    (h : Chain tokens (Shape tokens st E Y) [n .expr, n .optDiscard] p e nodes)
    (hallowed : Passes (Context.allowsSpan ⟨tokens.toArray⟩) .exprStmt p e) :
    Shape tokens st E Y .exprStmt p e (.plain .exprStmt nodes) := by
  obtain ⟨m, tree, rest, -, hexpr, rfl, hlast⟩ := h
  obtain ⟨marker, hmarker, rfl⟩ := hlast.single
  rcases hmarker with ⟨rfl, rfl⟩ | ⟨i, rfl, hi, hkind, rfl⟩
  · rcases hexpr with hreads | hE'
    · refine .inl ?_
      obtain ⟨hlt, -⟩ := hreads.first_lt ht.toSegmented
      rcases hreads.pending_cases ht.toSegmented with ⟨he, below, hbelow⟩ | ⟨-, inner, hsetq⟩
      · have hend := mayEnd_of_allowed ht.toSegmented he hbelow (hallowed hlt)
        exact .kept he hend (ht.pending_eq he hbelow hend) rfl
      · obtain ⟨q, v, i, rfl, hi, hkind, hv, rfl, rfl⟩ := hsetq
        rcases hreads with ⟨q', op, args, i', he, htakes, -⟩ | ⟨inner, hsetq, rfl⟩
        · obtain rfl := Nat.succ.inj he
          obtain rfl := Option.some.inj (htakes.at_eq.symm.trans hi)
          have hop := htakes.operation_eq
          rw [hkind] at hop
          cases hop
        · obtain ⟨-, rfl⟩ := ReadsSetq.unique ⟨q, v, i, rfl, hi, hkind, hv, rfl, rfl⟩ hsetq
          exact .ended rfl hi hv rfl (by rw [statement?, hkind]; rfl)
    · exact .inr ⟨tree, hE', rfl⟩
  · have hstep : isStep i.kind = true := by rw [hkind]; rfl
    have hop : operation? i.kind = none := by rw [hkind]; rfl
    obtain ⟨v, item, hv, hitem, -⟩ := ((ht.move m i hi).of_step hstep).of_statement hop
    have hreads := readsExpr_of_shape hE hi hstep (by simp [hv]) hexpr
    rcases hreads.pending_cases ht.toSegmented with ⟨-, below, hbelow⟩ | ⟨hempty, -⟩
    · obtain ⟨rfl, -⟩ := List.cons.inj (hbelow.symm.trans hv)
      exact .inl (.ended rfl hi hv rfl (by rw [statement?, hkind]; rfl))
    · rw [hempty] at hv
      cases hv

/-! ### The rules for straight-line code -/

theorem shape_of_live (ht : Delimited tokens st) (hE : ∀ p e node, E p e node → Rests tokens st e)
    (hlabel : ∀ p, Y .optLabel p p (.plain .optLabel [])) (hmem : r ∈ liveRules)
    (h : Chain tokens (Shape tokens st E Y) r.rhs p e nodes)
    (hallowed : Passes (Context.allowsSpan ⟨tokens.toArray⟩) r.lhs p e) :
    Shape tokens st E Y r.lhs p e (Extraction.node r nodes) := by
  have hforms : ∀ {form}, isForm form = true →
      Chain tokens (Shape tokens st E Y) [.nonterminal form] p e nodes →
        Shape tokens st E Y .expr p e (.plain .expr nodes) := by
    intro form hform h
    obtain ⟨node, hnode, rfl⟩ := h.single
    obtain ⟨m, op, args, i, he, htakes, hkind, rfl⟩ := (shape_of_isForm hform).1 hnode
    exact .inl (.inl ⟨m, op, args, i, he, htakes, rfl⟩)
  have hseg := ht.toSegmented
  simp only [liveRules, List.mem_cons, List.not_mem_nil, or_false] at hmem
  rcases hmem with rfl | rfl | rfl | rfl | rfl | rfl | rfl | rfl | rfl | rfl | rfl | rfl | rfl |
    rfl | rfl | rfl | rfl | rfl | rfl | rfl | rfl
  · obtain ⟨node, ⟨items, hitems, rfl⟩, rfl⟩ := h.single
    exact ⟨items, hitems, rfl⟩
  · obtain ⟨node, hnode, rfl⟩ := h.single
    exact ⟨[node], .one hnode, rfl⟩
  · obtain ⟨m, node, rest, -, ⟨items, hitems, rfl⟩, rfl, hlast⟩ := h
    obtain ⟨item, hitem, rfl⟩ := hlast.single
    exact ⟨items ++ [item], .more hitems hitem, rfl⟩
  · exact shape_statement ht hE h hallowed
  · obtain ⟨i, rest, hi, hkind, rfl, rfl, rfl⟩ := h
    exact .inr ⟨i, rfl, hi, hkind, rfl⟩
  · obtain ⟨rfl, rfl⟩ := h
    exact .inl ⟨rfl, rfl⟩
  · obtain ⟨rfl, rfl⟩ := h
    exact hlabel p
  · obtain ⟨node, hnode, rfl⟩ := h.single
    exact .inl (.inr ⟨node, hnode, rfl⟩)
  · exact shape_setq hseg hE h
  · obtain ⟨i, rest, hi, hkind, rfl, rfl, rfl⟩ := h
    have hop : operation? i.kind = some ⟨none, none, 0⟩ := by rw [hkind]; rfl
    exact .inl (.inl ⟨p, _, [], i, rfl, ⟨hi, hop, rfl, rfl, _, rfl⟩, rfl⟩)
  · exact hforms rfl h
  · exact hforms rfl h
  · exact hforms rfl h
  · exact hforms rfl h
  · exact hforms rfl h
  · refine shape_of_application hseg hE (k := 0) h fun m after hlast => ?_
    obtain ⟨i, rest, hi, hkind, rfl, rfl, rfl⟩ := hlast
    exact ⟨i, ⟨some .nameExpr, none, 0⟩, rfl, hi, by rw [hkind]; rfl, rfl, rfl, rfl⟩
  · exact shape_of_signed hseg hE (k := 0) rfl h
  · exact shape_of_signed hseg hE (k := 1) rfl h
  · exact shape_of_signed hseg hE (k := 2) rfl h
  · exact shape_of_signed hseg hE (k := 3) rfl h
  · have hlt : p < e := by
      obtain ⟨node, ⟨i, -, rfl, -⟩, -⟩ := h.single
      exact Nat.lt_succ_self p
    exact (not_stacked hseg h (hallowed hlt)).elim

theorem shape_of_arityRule (ht : Segmented tokens st)
    (hE : ∀ p e node, E p e node → Rests tokens st e) (hmem : r ∈ arityRules tokens)
    (h : Chain tokens (Shape tokens st E Y) r.rhs p e nodes) :
    Shape tokens st E Y r.lhs p e (Extraction.node r nodes) := by
  obtain ⟨family, count, -, rfl | rfl⟩ := arityRulesAfter_mem hmem
  · refine shape_of_application ht hE h fun m after hlast => ?_
    obtain ⟨i, rest, hi, hkind, rfl, rfl, rfl⟩ := hlast
    exact ⟨i, _, rfl, hi, by rw [hkind]; rfl, rfl, rfl, rfl⟩
  · obtain ⟨node, ⟨m, op, args, i, he, htakes, hkind, rfl⟩, rfl⟩ := h.single
    exact .inl (.inl ⟨m, op, args, i, he, htakes, rfl⟩)

/-! ### Rules that do not apply -/

/-- A symbol without nodes, where those of `known` have some besides, and those of `present` stand
between the steps. -/
def lacks (known : Nonterminal → Bool) (present : OpKind → Bool) : Symbol → Bool
  | .terminal kind => !isStep kind && !present kind
  | .nonterminal kind => !isInner kind && !known kind
  | .word _ => true

theorem any_lacks {known : Nonterminal → Bool} {present : OpKind → Bool} {s : List Symbol}
    (hY : ∀ kind p e node, Y kind p e node → known kind = true)
    (hpresent : ∀ q, p ≤ q → q < e → ∀ i, tokens[q]? = some i →
      isStep i.kind = true ∨ present i.kind = true)
    (h : Chain tokens (Shape tokens st E Y) s p e nodes) : s.any (lacks known present) = false := by
  induction s generalizing p nodes with
  | nil => rfl
  | cons x s ih =>
    cases x with
    | word text => exact h.elim
    | terminal kind =>
      obtain ⟨i, rest, hi, rfl, rfl, hs⟩ := h
      rw [List.any_cons, ih (fun q hlow hhigh => hpresent q (by omega) hhigh) hs, Bool.or_false]
      rcases hpresent p (Nat.le_refl p) hs.le i hi with hstep | hthere
      · simp [lacks, hstep]
      · simp [lacks, hthere]
    | nonterminal kind =>
      obtain ⟨m, node, rest, hm, hnode, rfl, hs⟩ := h
      rw [List.any_cons, ih (fun q hlow hhigh => hpresent q (by omega) hhigh) hs, Bool.or_false]
      cases hkind : isInner kind with
      | true => simp [lacks, hkind]
      | false => simp [lacks, hY _ _ _ _ ((shape_of_not_isInner hkind).1 hnode)]

/-- A rule has no nodes if it needs what is not there. -/
theorem not_chain_of_lacks {known : Nonterminal → Bool} {present : OpKind → Bool} {s : List Symbol}
    (hY : ∀ kind p e node, Y kind p e node → known kind = true)
    (hpresent : ∀ q, p ≤ q → q < e → ∀ i, tokens[q]? = some i →
      isStep i.kind = true ∨ present i.kind = true)
    (hlacks : s.any (lacks known present) = true) :
    ¬Chain tokens (Shape tokens st E Y) s p e nodes := by
  intro h
  rw [any_lacks hY hpresent h] at hlacks
  cases hlacks

/-! ### Parts of segments -/

/-- Nonterminals that stand in no rule that applies. -/
def isOpen : Nonterminal → Bool
  | .fnBody | .bodyStacked | .clause | .endClause | .dolistList | .exprReturn | .optExprs
  | .varlistStackedInner | .optComeFroms | .optComeFrom | .optReturn | .dolistLoopIterSet => true
  | _ => false

/-- Nonterminals about which nothing is known in a part of a segment. -/
def isFree (kind : Nonterminal) : Bool := isOpen kind || kind = .optLabel

/-- Other instructions among which no rule for control flow applies. -/
def isCalm (kind : OpKind) : Bool := kind = .fixed .ret || kind = .fixed .unbind

theorem calm_cases : ∀ r ∈ base, r.rhs.any (lacks isFree isCalm) = true ∨ isFree r.lhs = true ∨
    r ∈ operators ∨ r ∈ liveRules := by
  decide +kernel

theorem not_isFree (h : isFree kind = true) : isInner kind = false := by
  cases kind <;> first
    | rfl
    | simp [isFree, isOpen] at h

/-- What is assembled has a shape, if the rules of `forms` hand on shapes: of the others only those
for straight-line code apply, and those for nonterminals about which nothing is known. -/
theorem shape_of_assembles {check : Nonterminal → List Node → Nat → Prop}
    {free known : Nonterminal → Bool} {present : OpKind → Bool} {s : List Symbol}
    (forms : List Rule) (ht : Delimited tokens st) (hE : ∀ p e node, E p e node → Rests tokens st e)
    (hnot : ∀ kind, free kind = true → isInner kind = false)
    (hfree : ∀ kind p e node, free kind = true → Y kind p e node)
    (hlabel : ∀ p, Y .optLabel p p (.plain .optLabel []))
    (hY : ∀ kind p e node, Y kind p e node → known kind = true)
    (hcases : ∀ r ∈ base, r.rhs.any (lacks known present) = true ∨ free r.lhs = true ∨
      r ∈ operators ∨ r ∈ liveRules ∨ r ∈ forms)
    (hforms : ∀ r ∈ forms, ∀ p e nodes, Chain tokens (Shape tokens st E Y) r.rhs p e nodes →
      check r.lhs nodes e → Shape tokens st E Y r.lhs p e (Extraction.node r nodes))
    (hpresent : ∀ q, p ≤ q → q < e → ∀ i, tokens[q]? = some i →
      isStep i.kind = true ∨ present i.kind = true)
    (h : Assembles (tokenRules tokens) tokens check s p e nodes) :
    Chain tokens (Shape tokens st E Y) s p e nodes := by
  refine h.chain (fun p e => ∀ q, p ≤ q → q < e → ∀ i, tokens[q]? = some i →
      isStep i.kind = true ∨ present i.kind = true)
    (fun p e p' e' h hlow hhigh q hq hq' => h q (by omega) (by omega))
    (fun r hr p e nodes hpresent hnodes hallowed hcheck => ?_) hpresent
  rcases List.mem_append.1 hr with hbase | hextra
  · rcases hcases r hbase with hlacks | hfree' | hop | hlive | hform
    · exact (not_chain_of_lacks hY hpresent hlacks hnodes).elim
    · exact (shape_of_not_isInner (hnot _ hfree')).2 (hfree _ _ _ _ hfree')
    · have hcollected : r.lhs.isCollected = false := by
        obtain ⟨o, -, hsome⟩ := List.mem_filterMap.1 hop
        obtain ⟨sign, hsign, rfl⟩ := Option.map_eq_some_iff.1 hsome
        unfold operatorKind? at hsign
        split at hsign <;> cases hsign <;> rfl
      rw [Extraction.node_of_not_collected hcollected]
      exact shape_of_operator hop hnodes
    · exact shape_of_live ht hE hlabel hlive hnodes hallowed
    · exact hforms r hform p e nodes hnodes hcheck
  · exact shape_of_arityRule ht.toSegmented hE hextra hnodes

/-- Among steps, returns and ends of bindings only straight-line code is read. -/
theorem inner_of_assembles {check : Nonterminal → List Node → Nat → Prop}
    (ht : Delimited tokens st)
    (hcalm : ∀ q, p ≤ q → q < e → ∀ i, tokens[q]? = some i →
      isStep i.kind = true ∨ isCalm i.kind = true)
    (h : Assembles (tokenRules tokens) tokens check [.nonterminal kind] p e nodes) :
    isFree kind = true ∨ ∃ node, Inner tokens st kind p e node ∧ nodes = [node] := by
  have hchain := shape_of_assembles (E := fun _ _ _ => False) []
    (Y := fun kind _ _ _ => isFree kind = true) ht (fun _ _ _ h => h.elim) (fun _ => not_isFree)
    (fun _ _ _ _ h => h) (fun _ => rfl) (fun _ _ _ _ h => h)
    (fun r hr => by simpa using calm_cases r hr) (by simp) hcalm h
  obtain ⟨node, hnode, rfl⟩ := hchain.single
  cases hkind : isInner kind with
  | false => exact .inl ((shape_of_not_isInner hkind).1 hnode)
  | true =>
    refine .inr ⟨node, ?_, rfl⟩
    cases kind <;> first
      | exact hnode
      | cases hkind

end ElispLift.StraightLine
