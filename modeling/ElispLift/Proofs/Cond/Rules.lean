import ElispLift.Proofs.Cond.Readings

/-!
# Rules for clauses

The rules for clauses make nodes of their readings, given the checks on children. The forms of a
single branch need a jump that leads to their end, but every jump leads past the return that
follows.
-/

namespace ElispLift.Cond

open Grammar StraightLine Extraction ElispLift.Derivation

variable {tokens : List Instruction} {st : Nat → State} {p q m e : Nat} {i : Instruction}
  {node : Node} {nodes : List Node} {kind : Nonterminal} {r : Rule} {s : List Symbol}

/-- Clauses behind the first begin with a label. -/
theorem first_label (h : Listed (ReadsLabeled tokens st) p e nodes) :
    ∃ i, tokens[p]? = some i ∧ i.kind = .fixed .label := by
  obtain ⟨m, node, i, clause, hi, hkind, -⟩ := h.exists_first
  exact ⟨i, hi, hkind⟩

section

variable (hl : Chained tokens st)

include hl

/-- The jump of a form with a single branch would lead to its end. -/
theorem not_ifForm
    (h : Chain tokens (Shape tokens st (ReadsCond tokens st) (Reads tokens st))
      [n .expr, t .gotoIfNil, n .expr, n .optComeFrom, n .optLabel] p e nodes) :
    ¬AllowsChildren tokens .ifForm nodes e := by
  intro hallowed
  obtain ⟨m, condition, rest, -, -, rfl, i, rest, hi, hkind, rfl, m', branch, rest, hlow,
    hbranch, rfl, m'', arrival, rest, -, harrival, rfl, hlast⟩ := h
  obtain ⟨label, hlabel, rfl⟩ := hlast.single
  obtain ⟨q, v, r, k, hv, hk, -, haligned⟩ := hl.behind_jump m i hi hkind
  have hle := le_of_expr_behind_jump hl hbranch hv
  -- Up to the return there is neither a marker nor a label.
  have hnone : ∀ {op : Opcode}, isStep (.fixed op) = false → op ≠ .ret →
      ∃ j, tokens[m']? = some j ∧ j.kind ≠ .fixed op := by
    intro op hop hne
    rcases Nat.lt_or_eq_of_le hle with hlt | rfl
    · exact ne_of_step hop (hv.isStep hl.toSegmented hlow hlt)
    · refine ⟨r, hv.at_eq, fun hr => hne ?_⟩
      rw [hv.kind_eq] at hr
      exact (OpKind.fixed.inj hr).symm
  obtain ⟨rfl, -⟩ := marker_eq_nil (hnone rfl (by decide)) harrival
  obtain ⟨rfl, -⟩ := marker_eq_nil (hnone rfl (by decide)) hlabel
  have hrefused := haligned _ hle
  simp [AllowsChildren, Context.allowsChildren, hrefused] at hallowed

theorem readsCondition_of_chain
    (h : Chain tokens (Shape tokens st (ReadsCond tokens st) (Reads tokens st))
      [n .expr, t .gotoIfNil, n .optComeFrom, n .optLabel] p e nodes) :
    ReadsCondition tokens st p e (.plain .condition nodes) := by
  obtain ⟨m, condition, rest, -, hcondition, rfl, i, rest, hi, hkind, rfl, m', arrival, rest, -,
    harrival, rfl, hlast⟩ := h
  obtain ⟨label, hlabel, rfl⟩ := hlast.single
  have hstep := step_behind_jump hl hi hkind
  obtain ⟨rfl, rfl⟩ := marker_eq_nil (ne_of_step rfl hstep) harrival
  obtain ⟨rfl, rfl⟩ := marker_eq_nil (ne_of_step rfl hstep) hlabel
  exact ⟨m, _, i, rfl, spends_of_expr hl hcondition hi hkind, rfl⟩

/-- A clause with a condition has to end in the marker for its jump. -/
theorem readsClause_of_chain
    (h : Chain tokens (Shape tokens st (ReadsCond tokens st) (Reads tokens st))
      [n .condition, n .body, n .endClause] p e nodes)
    (hallowed : AllowsChildren tokens .clause nodes e) :
    ReadsClause tokens st p e (.plain .clause nodes) := by
  obtain ⟨m, condition, rest, -, hcondition, rfl, q, body, rest, -, ⟨items, hitems, rfl⟩, rfl,
    hlast⟩ := h
  obtain ⟨ending, ⟨r, hr, hkind, hcases⟩, rfl⟩ := hlast.single
  obtain ⟨v, hv, rfl⟩ := items_of_return hl hr hkind hitems
  rcases hcases with ⟨rfl, rfl⟩ | ⟨k, rfl, hk, hk', rfl⟩
  · obtain ⟨m', w, i, -, -, rfl⟩ := hcondition
    simp [AllowsChildren, Context.allowsChildren, Context.allowsClause, Node.isKind, Node.kind?,
      Node.plain, Node.children, Node.isOp, Node.token?, Instruction.isOp, hkind] at hallowed
  · exact ⟨m, condition, q, v, r, k, rfl, hcondition, hv, hk, hk', rfl⟩

/-- A clause without a condition has to end in a return alone. -/
theorem reads_of_plain_chain
    (h : Chain tokens (Shape tokens st (ReadsCond tokens st) (Reads tokens st))
      [n .optLabel, n .body, n .endClause] p e nodes)
    (hallowed : AllowsChildren tokens .clause nodes e) :
    Reads tokens st .clause p e (.plain .clause nodes) := by
  obtain ⟨m, label, rest, -, hlabel, rfl, q, body, rest, -, ⟨items, hitems, rfl⟩, rfl,
    hlast⟩ := h
  obtain ⟨ending, ⟨r, hr, hkind, hcases⟩, rfl⟩ := hlast.single
  obtain ⟨v, hv, rfl⟩ := items_of_return hl hr hkind hitems
  rcases hcases with ⟨rfl, rfl⟩ | ⟨k, rfl, hk, hk', rfl⟩
  · rcases hlabel with ⟨rfl, rfl⟩ | ⟨i, rfl, hi, hi', rfl⟩
    · exact .inr (.inl ⟨q, v, r, rfl, hv, rfl⟩)
    · exact .inr (.inr ⟨i, _, hi, hi', q, v, r, rfl, hv, rfl⟩)
  · rcases hlabel with ⟨-, rfl⟩ | ⟨i, -, -, -, rfl⟩ <;>
      simp [AllowsChildren, Context.allowsChildren, Context.allowsClause, Node.isKind, Node.kind?,
        Node.plain, Node.children, Node.isOp, Node.token?, Instruction.isOp, hk'] at hallowed

theorem readsLabeled_of_chain
    (h : Chain tokens (Shape tokens st (ReadsCond tokens st) (Reads tokens st))
      [t .label, n .clause] p e nodes) :
    ReadsLabeled tokens st p e (.plain .labeledClause nodes) := by
  obtain ⟨i, rest, hi, hkind, rfl, hlast⟩ := h
  obtain ⟨clause, hclause, rfl⟩ := hlast.single
  refine ⟨i, clause, hi, hkind, ?_, rfl⟩
  rcases hclause with hclause | hplain | ⟨j, other, hj, hj', -⟩
  · exact .inl hclause
  · -- A value behind a label that is returned is the last one.
    refine .inr ⟨hplain, ?_⟩
    obtain ⟨q, v, r, rfl, hv, -⟩ := hplain
    rcases hl.behind_label p i hi hkind with ⟨q', v', i', hv'⟩ | ⟨q', v', r', hv', hlength⟩
    · obtain rfl := hv.end_unique hl.toSegmented rfl hv' rfl
      exact absurd (hv.op_unique hv') (by decide)
    · obtain rfl := hv.end_unique hl.toSegmented rfl hv' rfl
      exact hlength.symm
  · exact (false_of_step hj (by rw [hj']; rfl) (step_behind_label hl hi hkind)).elim

theorem readsClauses_of_chain
    (h : Chain tokens (Shape tokens st (ReadsCond tokens st) (Reads tokens st))
      [n .clause, n .labeledClauses] p e nodes) :
    ReadsClauses tokens st p e (.plain .condForm nodes) := by
  obtain ⟨m, clause, rest, -, hclause, rfl, hlast⟩ := h
  obtain ⟨others, ⟨items, hitems, rfl⟩, rfl⟩ := hlast.single
  refine ⟨m, clause, items, ?_, hitems, rfl⟩
  refine hclause.resolve_right fun hplain => ?_
  -- Behind a clause without a condition no label stands.
  obtain ⟨q, r, rfl, hr, hkind⟩ :
      ∃ q r, m = q + 1 ∧ tokens[q]? = some r ∧ r.kind = .fixed .ret := by
    rcases hplain with ⟨q, v, r, rfl, hv, -⟩ | ⟨-, -, -, -, q, v, r, rfl, hv, -⟩ <;>
      exact ⟨q, r, rfl, hv.at_eq, hv.kind_eq⟩
  obtain ⟨i, hi, hlabel⟩ := first_label hitems
  rcases hl.behind_return q r hr hkind with hlength | ⟨k, hk, hkind'⟩
  · obtain ⟨hlt, -⟩ := List.getElem?_eq_some_iff.1 hi
    omega
  · obtain rfl := Option.some.inj (hi.symm.trans hk)
    rw [hlabel] at hkind'
    cases hkind'

/-- The rules for clauses make nodes of their readings. -/
theorem shape_of_condRule (hr : r ∈ condRules)
    (h : Chain tokens (Shape tokens st (ReadsCond tokens st) (Reads tokens st)) r.rhs p e nodes)
    (hallowed : AllowsChildren tokens r.lhs nodes e) :
    Shape tokens st (ReadsCond tokens st) (Reads tokens st) r.lhs p e
      (Extraction.node r nodes) := by
  simp only [condRules, List.mem_cons, List.not_mem_nil, or_false] at hr
  rcases hr with rfl | rfl | rfl | rfl | rfl | rfl | rfl | rfl | rfl | rfl | rfl | rfl | rfl | rfl |
    rfl | rfl | rfl | rfl | rfl
  · obtain ⟨form, hform, rfl⟩ := h.single
    exact .inr ⟨form, hform, rfl⟩
  · exact (not_ifForm hl h hallowed).elim
  · obtain ⟨m, -, -, -, -, -, i, -, -, -, -, q, body, rest, -, ⟨items, hitems, -⟩, -, -,
      arrivals, -, -, ⟨k, hk, hkind⟩, -⟩ := h
    exact (not_items_of_comeFrom hl hk hkind hitems).elim
  · obtain ⟨m, -, -, -, -, -, q, others, -, -, ⟨items, hitems, -⟩, -, -, arrivals, -, -,
      ⟨k, hk, hkind⟩, -⟩ := h
    obtain ⟨m', last, hlast⟩ := hitems.exists_last
    rcases hlast.end_cases hl with rfl | ⟨i, hi, hlabel⟩
    · simp at hk
    · obtain rfl := Option.some.inj (hi.symm.trans hk)
      rw [hlabel] at hkind
      cases hkind
  · exact readsClauses_of_chain hl h
  · obtain ⟨item, hitem, rfl⟩ := h.single
    exact ⟨[item], .one hitem, rfl⟩
  · obtain ⟨m, others, rest, -, ⟨items, hitems, rfl⟩, rfl, hlast⟩ := h
    obtain ⟨item, hitem, rfl⟩ := hlast.single
    exact ⟨items ++ [item], .more hitems hitem, rfl⟩
  · exact readsLabeled_of_chain hl h
  · obtain ⟨i, -, -, -, -, m, -, -, -, -, -, q, body, rest, -, ⟨items, hitems, -⟩, -, -,
      arrivals, -, -, ⟨k, hk, hkind⟩, -⟩ := h
    exact (not_items_of_comeFrom hl hk hkind hitems).elim
  · exact readsCondition_of_chain hl h
  · exact .inl (readsClause_of_chain hl h hallowed)
  · exact reads_of_plain_chain hl h hallowed
  · obtain ⟨r, rest, hr, hkind, rfl, k, rest, hk, hkind', rfl, rfl, rfl⟩ := h
    exact ⟨r, hr, hkind, .inr ⟨k, rfl, hk, hkind', rfl⟩⟩
  · obtain ⟨r, rest, hr, hkind, rfl, rfl, rfl⟩ := h
    exact ⟨r, hr, hkind, .inl ⟨rfl, rfl⟩⟩
  · obtain ⟨k, -, hk, hkind, -⟩ := h
    exact ⟨k, hk, hkind⟩
  · obtain ⟨m, first, rest, -, hfirst, -⟩ := h
    exact hfirst
  · obtain ⟨k, rest, hk, hkind, rfl, rfl, rfl⟩ := h
    exact .inr ⟨k, rfl, hk, hkind, rfl⟩
  · obtain ⟨rfl, rfl⟩ := h
    exact .inl ⟨rfl, rfl⟩
  · obtain ⟨k, rest, hk, hkind, rfl, rfl, rfl⟩ := h
    exact .inr ⟨k, rfl, hk, hkind, rfl⟩

/-- What is assembled with the checks on children is read. -/
theorem shape_of_assembles (h : Assembles (tokenRules tokens) tokens (AllowsChildren tokens) s p e
    nodes) : Chain tokens (Shape tokens st (ReadsCond tokens st) (Reads tokens st)) s p e nodes :=
  StraightLine.shape_of_assembles condRules hl.toDelimited (fun _ _ _ h => h.rests hl)
    (fun _ => not_isUnread) (fun _ _ _ _ => reads_of_isUnread) (fun _ => .inl ⟨rfl, rfl⟩)
    (fun _ _ _ _ => isKnown_of_reads) cond_cases
    (fun _ hr _ _ _ hnodes hallowed => shape_of_condRule hl hr hnodes hallowed)
    (fun _ _ _ _ hi => hl.present _ (List.mem_of_getElem? hi)) h

/-- A rule has no tree if it needs what is not there. -/
theorem not_assembles_of_lacks (hlacks : s.any (lacks isKnown isPresent) = true) :
    ¬Assembles (tokenRules tokens) tokens (AllowsChildren tokens) s p e nodes :=
  fun h => not_chain_of_lacks (Y := Reads tokens st) (fun _ _ _ _ => isKnown_of_reads)
    (fun _ _ _ _ hi => hl.present _ (List.mem_of_getElem? hi)) hlacks (shape_of_assembles hl h)

/-- A span is barren if there is no reading of it. -/
theorem barren_of_not_shape
    (h : ∀ node, ¬Shape tokens st (ReadsCond tokens st) (Reads tokens st) kind p e node) :
    Barren (tokenRules tokens) tokens ⟨kind, p, e⟩ := by
  intro nodes hnodes
  obtain ⟨node, hnode, -⟩ := (shape_of_assembles hl hnodes).single
  exact h node hnode

end

end ElispLift.Cond
