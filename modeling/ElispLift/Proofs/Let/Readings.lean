import ElispLift.Proofs.Segments.Levels
import ElispLift.Proofs.Segments.Spans

/-!
# Readings of bindings

Values that are bound one after the other, and a body behind them. A value is on the stack where it
is bound, so its binding begins where its code does. The grammar has more expressions that begin
with any of the bindings: each of them ends behind the last binding, where no statement is open.
-/

namespace ElispLift.Let

open Grammar StraightLine Extraction

/-- A value, and the instruction that binds it. -/
def ReadsBinding (tokens : List Instruction) (st : Nat → State) (p e : Nat) (node : Node) : Prop :=
  ∃ (m : Nat) (v : Pending) (i : Instruction), e = m + 1 ∧ tokens[m]? = some i ∧
    i.kind = .fixed .varbind ∧ (st m).pending = [v] ∧ v.first = p ∧
      node = .plain .varbind [v.tree, .token i]

/-- What a routine is made of that binds variables around a body: the body begins at `first`, and at
`stop` its statements are done and a value is left. -/
structure Parts where
  bindings : List Node
  first : Nat
  stop : Nat
  statements : List Node
  result : Pending
  unbind : Instruction
  ret : Instruction

namespace Parts

/-- The form that binds the variables around the body. -/
def form (l : Parts) : Node :=
  .plain .letFormStar [.plain .varlist l.bindings,
    .plain .body [.plain .exprs (l.statements ++ [kept l.result.tree])], .token l.unbind]

def routine (l : Parts) : Node := StraightLine.routine [kept (.plain .expr [l.form])] l.ret

end Parts

/-- The instructions stand where they should. -/
structure Layout (tokens : List Instruction) (st : Nat → State) (l : Parts) : Prop
    extends Delimited tokens st where
  listed : Listed (ReadsBinding tokens st) 0 l.first l.bindings
  steps : ∀ q, l.first ≤ q → q < l.stop → ∃ i, tokens[q]? = some i ∧ isStep i.kind = true
  first_le : l.first ≤ l.stop
  done_eq : (st l.stop).done = l.statements
  result_eq : (st l.stop).pending = [l.result]
  unbind_at : tokens[l.stop]? = some l.unbind
  unbind_kind : l.unbind.kind = .fixed .unbind
  ret_at : tokens[l.stop + 1]? = some l.ret
  ret_kind : l.ret.kind = .fixed .ret
  length_eq : tokens.length = l.stop + 2

variable {tokens : List Instruction} {st : Nat → State} {l : Parts} {p p' q m e : Nat}
  {i : Instruction} {node node' : Node} {nodes : List Node} {kind : Nonterminal} {r : Rule}

/-! ### Bindings -/

namespace ReadsBinding

theorem unique (h : ReadsBinding tokens st p e node) (h' : ReadsBinding tokens st p' e node') :
    p' = p ∧ node' = node := by
  obtain ⟨m, v, i, rfl, hi, -, hv, rfl, rfl⟩ := h
  obtain ⟨m', v', i', he, hi', -, hv', rfl, rfl⟩ := h'
  obtain rfl := Nat.succ.inj he
  obtain rfl := Option.some.inj (hi'.symm.trans hi)
  obtain ⟨rfl, -⟩ := List.cons.inj (hv'.symm.trans hv)
  exact ⟨rfl, rfl⟩

variable (ht : Segmented tokens st)

include ht

theorem start_behind (h : ReadsBinding tokens st p e node) : st e = .start := by
  obtain ⟨m, v, i, rfl, hi, hkind, -⟩ := h
  exact ((ht.move m i hi).of_control (by rw [hkind]; rfl)).2

/-- The stack is not empty within a binding. -/
theorem pending_ne_nil (h : ReadsBinding tokens st p e node) (hlow : p < q) (hhigh : q < e) :
    (st q).pending ≠ [] := by
  obtain ⟨m, v, i, rfl, hi, -, hv, rfl, -⟩ := h
  obtain ⟨hm, -⟩ := List.getElem?_eq_some_iff.1 hi
  obtain ⟨-, -, hheight⟩ := ht.below (Nat.le_of_lt hm) [] hv
  exact List.ne_nil_of_length_pos (hheight q hlow (by omega))

theorem first_lt (h : ReadsBinding tokens st p e node) : p < e ∧ e ≤ tokens.length := by
  obtain ⟨m, v, i, rfl, hi, -, hv, rfl, -⟩ := h
  obtain ⟨hm, -⟩ := List.getElem?_eq_some_iff.1 hi
  obtain ⟨hlt, -⟩ := ht.below (Nat.le_of_lt hm) [] hv
  exact ⟨by omega, hm⟩

theorem step_or_last (h : ReadsBinding tokens st p e node) (hlow : p ≤ q) (hhigh : q < e) :
    (∃ i, tokens[q]? = some i ∧ isStep i.kind = true) ∨ q + 1 = e := by
  obtain ⟨m, v, i, rfl, hi, -, hv, rfl, -⟩ := h
  obtain ⟨hm, -⟩ := List.getElem?_eq_some_iff.1 hi
  rcases Nat.lt_or_eq_of_le (Nat.le_of_lt_succ hhigh) with hlt | rfl
  · exact .inl (ht.step_of_below (Nat.le_of_lt hm) [] hv hlow hlt)
  · exact .inr rfl

end ReadsBinding

section

variable (ht : Segmented tokens st) (h : Listed (ReadsBinding tokens st) p e nodes)
  (hlow : p ≤ q) (hhigh : q < e)

include ht h hlow hhigh

/-- A binding begins wherever the stack is empty before the last one ends. -/
theorem exists_binding_from (hempty : (st q).pending = []) :
    ∃ e node, ReadsBinding tokens st q e node := by
  have hone : ∀ {p e node}, ReadsBinding tokens st p e node → p ≤ q → q < e →
      ∃ e node, ReadsBinding tokens st q e node := by
    intro p e node h hlow hhigh
    rcases Nat.lt_or_eq_of_le hlow with hlt | rfl
    · exact (h.pending_ne_nil ht hlt hhigh hempty).elim
    · exact ⟨e, node, h⟩
  induction h with
  | one h => exact hone h hlow hhigh
  | @more m e items item _ h' ih =>
    rcases Nat.lt_or_ge q m with hlt | hge
    · exact ih hlt
    · exact hone h' hge hhigh

/-- An instruction is a step of a value, or it binds one. -/
theorem step_or_binding : (∃ i, tokens[q]? = some i ∧ isStep i.kind = true) ∨
    ∃ p node, ReadsBinding tokens st p (q + 1) node := by
  have hone : ∀ {p e node}, ReadsBinding tokens st p e node → p ≤ q → q < e →
      (∃ i, tokens[q]? = some i ∧ isStep i.kind = true) ∨
        ∃ p node, ReadsBinding tokens st p (q + 1) node := by
    intro p e node h hlow hhigh
    rcases h.step_or_last ht hlow hhigh with hstep | rfl
    · exact .inl hstep
    · exact .inr ⟨p, node, h⟩
  induction h with
  | one h => exact hone h hlow hhigh
  | @more m e items item _ h' ih =>
    rcases Nat.lt_or_ge q m with hlt | hge
    · exact ih hlt
    · exact hone h' hge hhigh

end

/-! ### Positions -/

namespace Layout

variable (hl : Layout tokens st l)

include hl

theorem start_first : st l.first = .start := by
  obtain ⟨m, node, h⟩ := hl.listed.exists_last
  exact h.start_behind hl.toSegmented

theorem first_pos : 0 < l.first :=
  hl.listed.first_lt fun _ _ _ h => (h.first_lt hl.toSegmented).1

theorem first_lt : l.first < l.stop := by
  refine Nat.lt_of_le_of_ne hl.first_le fun he => ?_
  have hresult := hl.result_eq
  rw [← he, hl.start_first] at hresult
  cases hresult

theorem stop_empty : (st (l.stop + 1)).pending = [] := by
  have hcontrol := (hl.move _ _ hl.unbind_at).of_control (by rw [hl.unbind_kind]; rfl)
  exact congrArg State.pending hcontrol.2

/-- What stands at a position. -/
theorem cases_at (hi : tokens[q]? = some i) :
    isStep i.kind = true ∧ q < l.stop ∨
      (i.kind = .fixed .varbind ∧ q < l.first ∧ ∃ p node, ReadsBinding tokens st p (q + 1) node) ∨
      (i.kind = .fixed .unbind ∧ q = l.stop) ∨ (i.kind = .fixed .ret ∧ q = l.stop + 1) := by
  obtain ⟨hq, -⟩ := List.getElem?_eq_some_iff.1 hi
  have hlength := hl.length_eq
  have hfirst := hl.first_le
  rcases Nat.lt_or_ge q l.first with hlt | hge
  · rcases step_or_binding hl.toSegmented hl.listed (Nat.zero_le q) hlt with
      ⟨j, hj, hstep⟩ | ⟨p, node, hbinding⟩
    · obtain rfl := Option.some.inj (hi.symm.trans hj)
      exact .inl ⟨hstep, by omega⟩
    · refine .inr (.inl ⟨?_, hlt, p, node, hbinding⟩)
      obtain ⟨m, v, j, he, hj, hkind, -⟩ := hbinding
      obtain rfl := Nat.succ.inj he
      obtain rfl := Option.some.inj (hi.symm.trans hj)
      exact hkind
  · rcases Nat.lt_or_ge q l.stop with hlt | hge'
    · obtain ⟨j, hj, hstep⟩ := hl.steps q hge hlt
      obtain rfl := Option.some.inj (hi.symm.trans hj)
      exact .inl ⟨hstep, hlt⟩
    · obtain rfl | rfl : q = l.stop ∨ q = l.stop + 1 := by omega
      · obtain rfl := Option.some.inj (hi.symm.trans hl.unbind_at)
        exact .inr (.inr (.inl ⟨hl.unbind_kind, rfl⟩))
      · obtain rfl := Option.some.inj (hi.symm.trans hl.ret_at)
        exact .inr (.inr (.inr ⟨hl.ret_kind, rfl⟩))

theorem lt_stop_of_step (hi : tokens[q]? = some i) (hstep : isStep i.kind = true) : q < l.stop := by
  rcases hl.cases_at hi with ⟨-, hlt⟩ | ⟨hkind, -⟩ | ⟨hkind, -⟩ | ⟨hkind, -⟩
  · exact hlt
  all_goals
    rw [hkind] at hstep
    cases hstep

theorem binding_le (h : ReadsBinding tokens st p e node) : e ≤ l.first := by
  obtain ⟨m, v, i, rfl, hi, hkind, -⟩ := h
  rcases hl.cases_at hi with ⟨hstep, -⟩ | ⟨-, hlt, -⟩ | ⟨hkind', -⟩ | ⟨hkind', -⟩
  · rw [hkind] at hstep
    cases hstep
  · exact hlt
  all_goals
    rw [hkind] at hkind'
    cases hkind'

theorem stop_of_unbind (hi : tokens[q]? = some i) (hkind : i.kind = .fixed .unbind) :
    q = l.stop := by
  rcases hl.cases_at hi with ⟨hstep, -⟩ | ⟨hkind', -⟩ | ⟨-, hq⟩ | ⟨hkind', -⟩
  · rw [hkind] at hstep
    cases hstep
  · rw [hkind] at hkind'
    cases hkind'
  · exact hq
  · rw [hkind] at hkind'
    cases hkind'

/-- What binds a variable takes a value. -/
theorem binding_of_varbind (hi : tokens[q]? = some i) (hkind : i.kind = .fixed .varbind) :
    ∃ p node, ReadsBinding tokens st p (q + 1) node := by
  rcases hl.cases_at hi with ⟨hstep, -⟩ | ⟨-, -, hbinding⟩ | ⟨hkind', -⟩ | ⟨hkind', -⟩
  · rw [hkind] at hstep
    cases hstep
  · exact hbinding
  all_goals
    rw [hkind] at hkind'
    cases hkind'

end Layout

/-! ### Expressions that begin with bindings -/

/-- A statement may end here: behind the bindings, where none is open or the body leaves its
value. -/
def Ends (st : Nat → State) (l : Parts) (e : Nat) : Prop :=
  l.first < e ∧ e ≤ l.stop + 1 ∧ ((st e).pending = [] ∨ e = l.stop)

/-- An expression that begins with one of the bindings. -/
def Crosses (tokens : List Instruction) (st : Nat → State) (l : Parts) (p e : Nat) (_ : Node) :
    Prop :=
  (∃ e' node, ReadsBinding tokens st p e' node) ∧ Ends st l e

/-- The nodes of nonterminals besides those of straight-line code. -/
def Reads (tokens : List Instruction) (st : Nat → State) (l : Parts) (kind : Nonterminal)
    (p e : Nat) (node : Node) : Prop :=
  match kind with
  | .varbind => ReadsBinding tokens st p e node
  | .varlist => ∃ nodes, Listed (ReadsBinding tokens st) p e nodes ∧ node = .plain .varlist nodes
  | .letFormStar => Crosses tokens st l p e node
  | kind => isFree kind = true

def letRules : List Rule :=
  [⟨.expr, [n .letFormStar]⟩, ⟨.letFormStar, [n .varlist, n .body, t .unbind]⟩,
    ⟨.letFormStar, [n .varlist, n .body]⟩, ⟨.varlist, [n .varbind]⟩,
    ⟨.varlist, [n .varlist, n .varbind]⟩, ⟨.varbind, [n .expr, t .varbind]⟩]

def isKnown (kind : Nonterminal) : Bool :=
  isFree kind || kind = .varbind || kind = .varlist || kind = .letFormStar

def isPresent (kind : OpKind) : Bool := isCalm kind || kind = .fixed .varbind

theorem let_cases : ∀ r ∈ base, r.rhs.any (lacks isKnown isPresent) = true ∨ isFree r.lhs = true ∨
    r ∈ operators ∨ r ∈ liveRules ∨ r ∈ letRules := by
  decide +kernel

theorem reads_of_isFree (h : isFree kind = true) : Reads tokens st l kind p e node := by
  unfold Reads
  split <;> first
    | cases h
    | exact h

theorem isKnown_of_reads (h : Reads tokens st l kind p e node) : isKnown kind = true := by
  unfold Reads at h
  split at h <;> first
    | rfl
    | simp [isKnown, h]

theorem Crosses.rests (hl : Layout tokens st l) (h : Crosses tokens st l p e node) :
    Rests tokens st e := by
  obtain ⟨-, -, -, hempty | rfl⟩ := h
  · exact .inl hempty
  · refine .inr fun i hi => ?_
    obtain rfl := Option.some.inj (hi.symm.trans hl.unbind_at)
    rw [hl.unbind_kind]
    rfl

section

variable (hl : Layout tokens st l)

include hl

/-- A statement ends behind the bindings. -/
theorem ends_of_line (h : ReadsLine tokens st p e node) : Ends st l e := by
  have hseg := hl.toSegmented
  obtain ⟨hlt, hlength, hempty⟩ := h.first_lt hseg
  have hstop : e ≤ l.stop := by
    obtain ⟨i, hi, hstep⟩ := h.isStep hseg (q := e - 1) (by omega) (by omega)
    have := hl.lt_stop_of_step hi hstep
    omega
  have hfirst : l.first < e := by
    by_contra hle
    -- The statement would begin where a binding does, and end within it.
    obtain ⟨e', other, hbinding⟩ :=
      exists_binding_from hseg hl.listed (Nat.zero_le p) (show p < l.first by omega) hempty
    obtain ⟨m, v, i, rfl, hi, hkind, -⟩ := id hbinding
    have hm : e ≤ m := by
      by_contra hlt'
      obtain ⟨j, hj, hstep⟩ := h.isStep hseg (q := m)
        (Nat.le_of_lt_succ (hbinding.first_lt hseg).1) (by omega)
      obtain rfl := Option.some.inj (hi.symm.trans hj)
      rw [hkind] at hstep
      cases hstep
    cases h with
    | ended he hi' hv hp hnode =>
      subst he
      exact hbinding.pending_ne_nil hseg hlt (by omega) (hl.pending_of_statement hi' hnode)
    | kept he hend hv hp =>
      rcases hbinding.step_or_last hseg (Nat.le_of_lt hlt) (by omega) with ⟨j, hj, hstep⟩ | heq
      · rw [hend.isStep_eq hj] at hstep
        cases hstep
      · obtain rfl := Nat.succ.inj heq
        have hmay := hend i hi
        simp [Context.isAnyOf, Context.statementEnds, Instruction.isOp, hkind] at hmay
  refine ⟨hfirst, by omega, ?_⟩
  cases h with
  | ended he hi hv hp hnode =>
    rw [he]
    exact .inl (hl.pending_of_statement hi hnode)
  | kept he hend hv hp =>
    -- No step follows, so this is where the body ends.
    refine .inr (Nat.le_antisymm hstop (Nat.le_of_not_lt fun hlt' => ?_))
    obtain ⟨j, hj, hstep⟩ := hl.steps e (Nat.le_of_lt hfirst) hlt'
    rw [hend.isStep_eq hj] at hstep
    cases hstep

theorem ends_of_items
    (h : Listed (ReadsItem tokens st (Crosses tokens st l)) p e nodes) : Ends st l e := by
  obtain ⟨m, node, hline | ⟨tree, ⟨-, hends⟩, -⟩⟩ := h.exists_last
  · exact ends_of_line hl hline
  · exact hends

/-- What is bound is a value of its own. -/
theorem readsBinding_of_expr {v : Instruction}
    (h : Shape tokens st (Crosses tokens st l) (Reads tokens st l) .expr p m node)
    (hv : tokens[m]? = some v) (hkind : v.kind = .fixed .varbind) :
    ReadsBinding tokens st p (m + 1) (.plain .varbind [node, .token v]) := by
  obtain ⟨p', other, hbinding⟩ := hl.binding_of_varbind hv hkind
  have hle := hl.binding_le hbinding
  rcases h with hreads | ⟨-, hlt, -⟩
  · obtain ⟨m', w, i, he, hi, -, hw, rfl, -⟩ := hbinding
    obtain rfl := Nat.succ.inj he
    rcases hreads.pending_cases hl.toSegmented with ⟨-, below, hbelow⟩ | ⟨hempty, -⟩
    · obtain ⟨rfl, -⟩ := List.cons.inj (hbelow.symm.trans hw)
      exact ⟨m, _, v, rfl, hv, hkind, hw, rfl, rfl⟩
    · rw [hempty] at hw
      cases hw
  · omega

/-- The rules for bindings make nodes of their readings. -/
theorem shape_of_letRule (hr : r ∈ letRules)
    (h : Grammar.Chain tokens (Shape tokens st (Crosses tokens st l) (Reads tokens st l)) r.rhs p e
      nodes) :
    Shape tokens st (Crosses tokens st l) (Reads tokens st l) r.lhs p e
      (Extraction.node r nodes) := by
  simp only [letRules, List.mem_cons, List.not_mem_nil, or_false] at hr
  rcases hr with rfl | rfl | rfl | rfl | rfl | rfl
  · obtain ⟨node, hnode, rfl⟩ := h.single
    exact .inr hnode
  · obtain ⟨q, node, rest, -, ⟨nodes, hlist, rfl⟩, rfl, q', body, rest', -, ⟨items, hitems, -⟩,
      rfl, i, rest'', hi, hkind, rfl, rfl, rfl⟩ := h
    obtain rfl := hl.stop_of_unbind hi hkind
    exact ⟨hlist.exists_first, Nat.lt_succ_of_lt hl.first_lt, Nat.le_refl _, .inl hl.stop_empty⟩
  · obtain ⟨q, node, rest, -, ⟨nodes, hlist, rfl⟩, rfl, hlast⟩ := h
    obtain ⟨body, ⟨items, hitems, -⟩, rfl⟩ := hlast.single
    exact ⟨hlist.exists_first, ends_of_items hl hitems⟩
  · obtain ⟨node, hnode, rfl⟩ := h.single
    exact ⟨[node], .one hnode, rfl⟩
  · obtain ⟨q, node, rest, -, ⟨nodes, hlist, rfl⟩, rfl, hlast⟩ := h
    obtain ⟨item, hitem, rfl⟩ := hlast.single
    exact ⟨nodes ++ [item], .more hlist hitem, rfl⟩
  · obtain ⟨m, node, rest, -, hexpr, rfl, i, rest', hi, hkind, rfl, rfl, rfl⟩ := h
    exact readsBinding_of_expr hl hexpr hi hkind

theorem present_at (hi : tokens[q]? = some i) : isStep i.kind = true ∨ isPresent i.kind = true := by
  rcases hl.cases_at hi with ⟨hstep, -⟩ | ⟨hkind, -⟩ | ⟨hkind, -⟩ | ⟨hkind, -⟩
  · exact .inl hstep
  all_goals
    rw [hkind]
    exact .inr rfl

/-- What is assembled is read. -/
theorem shape_of_assembles {check : Nonterminal → List Node → Nat → Prop} {s : List Symbol}
    (h : Assembles (tokenRules tokens) tokens check s p e nodes) :
    Grammar.Chain tokens (Shape tokens st (Crosses tokens st l) (Reads tokens st l)) s p e nodes :=
  StraightLine.shape_of_assembles letRules hl.toDelimited (fun _ _ _ h => h.rests hl)
    (fun _ => not_isFree) (fun _ _ _ _ => reads_of_isFree) (fun _ => reads_of_isFree rfl)
    (fun _ _ _ _ => isKnown_of_reads) let_cases
    (fun _ hr _ _ _ hnodes _ => shape_of_letRule hl hr hnodes)
    (fun _ _ _ _ hi => present_at hl hi) h

/-- A rule has no node if it needs what is not there. -/
theorem not_assembles_of_lacks {check : Nonterminal → List Node → Nat → Prop} {s : List Symbol}
    (hlacks : s.any (lacks isKnown isPresent) = true) :
    ¬Assembles (tokenRules tokens) tokens check s p e nodes :=
  fun h => not_chain_of_lacks (Y := Reads tokens st l) (fun _ _ _ _ => isKnown_of_reads)
    (fun _ _ _ _ hi => present_at hl hi) hlacks (shape_of_assembles hl h)

theorem shape_of_covers (h : Covers (tokenRules tokens) tokens ⟨kind, p, e⟩) :
    ∃ node, Shape tokens st (Crosses tokens st l) (Reads tokens st l) kind p e node := by
  obtain ⟨nodes, hnodes⟩ := h.exists_nodes
  obtain ⟨node, hnode, -⟩ := (shape_of_assembles hl hnodes).single
  exact ⟨node, hnode⟩

end

end ElispLift.Let
