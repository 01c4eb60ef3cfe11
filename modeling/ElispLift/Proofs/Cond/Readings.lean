import ElispLift.Proofs.Segments.Levels
import ElispLift.Proofs.Segments.Spans

/-!
# Readings of clauses

Conditions that are tried one after the other, each with a value that is returned where it holds.
The grammar groups clauses in many ways, but a tree of them is refused unless each clause with a
condition jumps to the next one, and each without a condition returns for good. What is left is read
in one way: a clause begins where its condition does, and a list of clauses goes up to one of their
ends. A form over some of the clauses ends where no statement begins.
-/

namespace ElispLift.Cond

open Grammar StraightLine Extraction

/-- The statements of a clause are its value. -/
def bodyOf (v : Pending) : Node := .plain .body [.plain .exprs [kept v.tree]]

section

variable (tokens : List Instruction) (st : Nat → State)

/-- A condition, and the jump that leads behind the clause. -/
def ReadsCondition (p e : Nat) (node : Node) : Prop :=
  ∃ (m : Nat) (v : Pending) (i : Instruction), e = m + 1 ∧ Spends tokens st .gotoIfNil p m v i ∧
    node = .plain .condition [v.tree, .token i, .plain .optComeFrom [], .plain .optLabel []]

/-- A condition and a value, up to where the jump arrives. -/
def ReadsClause (p e : Nat) (node : Node) : Prop :=
  ∃ (m : Nat) (condition : Node) (q : Nat) (v : Pending) (r k : Instruction), e = q + 2 ∧
    ReadsCondition tokens st p m condition ∧ Spends tokens st .ret m q v r ∧
      tokens[q + 1]? = some k ∧ k.kind = .fixed .comeFrom ∧
        node = .plain .clause [condition, bodyOf v, .plain .endClause [.token r, .token k]]

/-- A value that is returned. -/
def ReadsPlain (p e : Nat) (node : Node) : Prop :=
  ∃ (q : Nat) (v : Pending) (r : Instruction), e = q + 1 ∧ Spends tokens st .ret p q v r ∧
    node = .plain .clause [.plain .optLabel [], bodyOf v, .plain .endClause [.token r]]

/-- A clause where a jump arrives. The last one has no condition. -/
def ReadsLabeled (p e : Nat) (node : Node) : Prop :=
  ∃ (i : Instruction) (clause : Node), tokens[p]? = some i ∧ i.kind = .fixed .label ∧
    (ReadsClause tokens st (p + 1) e clause ∨
      ReadsPlain tokens st (p + 1) e clause ∧ e = tokens.length) ∧
    node = .plain .labeledClause [.token i, clause]

/-- A clause, and those behind it. -/
def ReadsClauses (p e : Nat) (node : Node) : Prop :=
  ∃ (m : Nat) (first : Node) (rest : List Node), ReadsClause tokens st p m first ∧
    Listed (ReadsLabeled tokens st) m e rest ∧
      node = .plain .condForm [first, .plain .labeledClauses rest]

/-- The expression that is such a form. -/
def ReadsCond (p e : Nat) (node : Node) : Prop :=
  ∃ form, ReadsClauses tokens st p e form ∧ node = .plain .expr [form]

/-- A marker that may be there. -/
def ReadsMarker (kind : Nonterminal) (op : Opcode) (p e : Nat) (node : Node) : Prop :=
  e = p ∧ node = .plain kind [] ∨
    ∃ i, e = p + 1 ∧ tokens[p]? = some i ∧ i.kind = .fixed op ∧ node = .plain kind [.token i]

/-- The return at the end of a clause, and the marker behind it if it is part of the clause. -/
def ReadsEnd (p e : Nat) (node : Node) : Prop :=
  ∃ r, tokens[p]? = some r ∧ r.kind = .fixed .ret ∧
    (e = p + 1 ∧ node = .plain .endClause [.token r] ∨
      ∃ k, e = p + 2 ∧ tokens[p + 1]? = some k ∧ k.kind = .fixed .comeFrom ∧
        node = .plain .endClause [.token r, .token k])

/-- Nonterminals about which nothing is known. -/
def isUnread : Nonterminal → Bool
  | .fnBody | .bodyStacked | .dolistList | .exprReturn | .optExprs | .varlistStackedInner
  | .optComeFroms | .optReturn | .dolistLoopIterSet => true
  | _ => false

/-- The nodes of nonterminals besides those of straight-line code. A label in front of a clause is
part of it only if the clause has no condition. -/
def Reads (kind : Nonterminal) (p e : Nat) (node : Node) : Prop :=
  match kind with
  | .condition => ReadsCondition tokens st p e node
  | .clause => ReadsClause tokens st p e node ∨ ReadsPlain tokens st p e node ∨
      ∃ i other, tokens[p]? = some i ∧ i.kind = .fixed .label ∧ ReadsPlain tokens st (p + 1) e other
  | .endClause => ReadsEnd tokens p e node
  | .optLabel => ReadsMarker tokens .optLabel .label p e node
  | .optComeFrom => ReadsMarker tokens .optComeFrom .comeFrom p e node
  | .comeFroms => ∃ i, tokens[p]? = some i ∧ i.kind = .fixed .comeFrom
  | .labeledClause => ReadsLabeled tokens st p e node
  | .labeledClauses => ∃ nodes, Listed (ReadsLabeled tokens st) p e nodes ∧
      node = .plain .labeledClauses nodes
  | .condForm => ReadsClauses tokens st p e node
  | kind => isUnread kind = true

/-- What stands between the steps. -/
def isPresent (kind : OpKind) : Bool :=
  kind = .fixed .gotoIfNil || kind = .fixed .ret || kind = .fixed .comeFrom || kind = .fixed .label

/-- What stands behind each instruction of such clauses. A jump leads past the value behind it. -/
structure Chained : Prop extends Delimited tokens st where
  operations : ∀ i ∈ tokens, isStep i.kind = true → (operation? i.kind).isSome = true
  present : ∀ i ∈ tokens, isStep i.kind = true ∨ isPresent i.kind = true
  spent : ∀ m i, tokens[m]? = some i → isStep i.kind = false →
    i.effect.net = -((st m).pending.length : Int)
  behind_jump : ∀ m i, tokens[m]? = some i → i.kind = .fixed .gotoIfNil →
    ∃ q v r k, Spends tokens st .ret (m + 1) q v r ∧ tokens[q + 1]? = some k ∧
      k.kind = .fixed .comeFrom ∧
        ∀ e, e ≤ q → Context.aligned ⟨tokens.toArray⟩ (some (.token i)) e = false
  behind_label : ∀ m i, tokens[m]? = some i → i.kind = .fixed .label →
    (∃ q v j, Spends tokens st .gotoIfNil (m + 1) q v j) ∨
      ∃ q v r, Spends tokens st .ret (m + 1) q v r ∧ tokens.length = q + 1
  behind_return : ∀ m i, tokens[m]? = some i → i.kind = .fixed .ret →
    tokens.length = m + 1 ∨ ∃ k, tokens[m + 1]? = some k ∧ k.kind = .fixed .comeFrom
  behind_comeFrom : ∀ m i, tokens[m]? = some i → i.kind = .fixed .comeFrom →
    ∃ j, tokens[m + 1]? = some j ∧ j.kind = .fixed .label

/-- The first clause, which ends at `stop`, and those behind it. -/
structure Parts where
  stop : Nat
  first : Node
  rest : List Node

namespace Parts

def form (l : Parts) : Node := .plain .condForm [l.first, .plain .labeledClauses l.rest]

def routine (l : Parts) : Node :=
  .plain .fnBody [.plain .body [.plain .exprs [kept (.plain .expr [l.form])]], .plain .optLabel [],
    .plain .optReturn []]

end Parts

/-- The clauses make up all instructions. -/
structure Layout (l : Parts) : Prop extends Chained tokens st where
  first : ReadsClause tokens st 0 l.stop l.first
  rest : Listed (ReadsLabeled tokens st) l.stop tokens.length l.rest

end

def isKnown (kind : Nonterminal) : Bool :=
  isUnread kind || kind = .condition || kind = .clause || kind = .endClause || kind = .optLabel ||
    kind = .optComeFrom || kind = .comeFroms || kind = .labeledClause || kind = .labeledClauses ||
      kind = .condForm

/-- The rules that apply among clauses, or would if their checks did not fail. -/
def condRules : List Rule :=
  [⟨.expr, [n .condForm]⟩,
    ⟨.ifForm, [n .expr, t .gotoIfNil, n .expr, n .optComeFrom, n .optLabel]⟩,
    ⟨.whenMacro, [n .expr, t .gotoIfNil, n .body, n .comeFroms, t .label]⟩,
    ⟨.condForm, [n .clause, n .labeledClauses, n .comeFroms, t .label]⟩,
    ⟨.condForm, [n .clause, n .labeledClauses]⟩, ⟨.labeledClauses, [n .labeledClause]⟩,
    ⟨.labeledClauses, [n .labeledClauses, n .labeledClause]⟩,
    ⟨.labeledClause, [t .label, n .clause]⟩,
    ⟨.labeledFinalClause, [t .label, n .condition, n .body, n .comeFroms]⟩,
    ⟨.condition, [n .expr, t .gotoIfNil, n .optComeFrom, n .optLabel]⟩,
    ⟨.clause, [n .condition, n .body, n .endClause]⟩,
    ⟨.clause, [n .optLabel, n .body, n .endClause]⟩, ⟨.endClause, [t .ret, t .comeFrom]⟩,
    ⟨.endClause, [t .ret]⟩, ⟨.comeFroms, [t .comeFrom]⟩,
    ⟨.comeFroms, [n .comeFroms, t .comeFrom]⟩, ⟨.optComeFrom, [t .comeFrom]⟩, ⟨.optComeFrom, []⟩,
    ⟨.optLabel, [t .label]⟩]

theorem cond_cases : ∀ r ∈ base, r.rhs.any (lacks isKnown isPresent) = true ∨
    isUnread r.lhs = true ∨ r ∈ operators ∨ r ∈ liveRules ∨ r ∈ condRules := by
  decide +kernel

variable {tokens : List Instruction} {st : Nat → State} {p p' q m e : Nat} {i j r : Instruction}
  {node node' tree : Node} {nodes : List Node} {kind : Nonterminal} {v : Pending}

theorem not_isUnread (h : isUnread kind = true) : isInner kind = false := by
  cases kind <;> first
    | rfl
    | cases h

theorem reads_of_isUnread (h : isUnread kind = true) : Reads tokens st kind p e node := by
  cases kind <;> first
    | exact h
    | cases h

theorem isKnown_of_reads (h : Reads tokens st kind p e node) : isKnown kind = true := by
  unfold Reads at h
  split at h <;> first
    | rfl
    | simp [isKnown, h]

/-! ### Readings are unique -/

theorem ReadsCondition.unique (h : ReadsCondition tokens st p e node)
    (h' : ReadsCondition tokens st p' e node') : p' = p ∧ node' = node := by
  obtain ⟨m, v, i, rfl, hv, rfl⟩ := h
  obtain ⟨m', v', i', he, hv', rfl⟩ := h'
  obtain rfl := Nat.succ.inj he
  obtain ⟨rfl, rfl, rfl⟩ := hv.unique hv'
  exact ⟨rfl, rfl⟩

theorem ReadsClause.unique (h : ReadsClause tokens st p e node)
    (h' : ReadsClause tokens st p' e node') : p' = p ∧ node' = node := by
  obtain ⟨m, condition, q, v, r, k, rfl, hcondition, hv, hk, -, rfl⟩ := h
  obtain ⟨m', condition', q', v', r', k', he, hcondition', hv', hk', -, rfl⟩ := h'
  obtain rfl : q' = q := by omega
  obtain ⟨rfl, rfl, rfl⟩ := hv.unique hv'
  obtain ⟨rfl, rfl⟩ := hcondition.unique hcondition'
  obtain rfl := Option.some.inj (hk'.symm.trans hk)
  exact ⟨rfl, rfl⟩

theorem ReadsPlain.unique (h : ReadsPlain tokens st p e node)
    (h' : ReadsPlain tokens st p' e node') : p' = p ∧ node' = node := by
  obtain ⟨q, v, r, rfl, hv, rfl⟩ := h
  obtain ⟨q', v', r', he, hv', rfl⟩ := h'
  obtain rfl := Nat.succ.inj he
  obtain ⟨rfl, rfl, rfl⟩ := hv.unique hv'
  exact ⟨rfl, rfl⟩

/-- What ends in a marker does not end in a return. -/
theorem ReadsClause.not_plain (h : ReadsClause tokens st p e node) :
    ¬ReadsPlain tokens st p' e node' := by
  intro h'
  obtain ⟨m, condition, q, v, r, k, rfl, -, -, hk, hkind, -⟩ := h
  obtain ⟨q', v', r', he, hv', -⟩ := h'
  obtain rfl : q' = q + 1 := by omega
  have hr := hv'.kind_eq
  rw [Option.some.inj (hv'.at_eq.symm.trans hk), hkind] at hr
  cases hr

theorem ReadsLabeled.unique (h : ReadsLabeled tokens st p e node)
    (h' : ReadsLabeled tokens st p' e node') : p' = p ∧ node' = node := by
  obtain ⟨i, clause, hi, -, hclause, rfl⟩ := h
  obtain ⟨i', clause', hi', -, hclause', rfl⟩ := h'
  have hsame : p' + 1 = p + 1 ∧ clause' = clause := by
    rcases hclause with hclause | ⟨hplain, -⟩
    · rcases hclause' with hclause' | ⟨hplain', -⟩
      · exact hclause.unique hclause'
      · exact (hclause.not_plain hplain').elim
    · rcases hclause' with hclause' | ⟨hplain', -⟩
      · exact (hclause'.not_plain hplain).elim
      · exact hplain.unique hplain'
  obtain ⟨hp, rfl⟩ := hsame
  obtain rfl := Nat.succ.inj hp
  obtain rfl := Option.some.inj (hi'.symm.trans hi)
  exact ⟨rfl, rfl⟩

/-! ### Positions -/

/-- A form of clauses begins with a condition. -/
theorem ReadsCond.exists_condition (h : ReadsCond tokens st p e node) :
    ∃ q v i, Spends tokens st .gotoIfNil p q v i := by
  obtain ⟨form, ⟨m, first, rest, hclause, -⟩, -⟩ := h
  obtain ⟨m', condition, q, v, r, k, -, ⟨q', v', i, -, hv, -⟩, -⟩ := hclause
  exact ⟨q', v', i, hv⟩

theorem marker_eq_nil {op : Opcode} (hi : ∃ j, tokens[p]? = some j ∧ j.kind ≠ .fixed op)
    (h : ReadsMarker tokens kind op p e node) : e = p ∧ node = .plain kind [] := by
  rcases h with h | ⟨i, -, hi', hkind, -⟩
  · exact h
  · obtain ⟨j, hj, hne⟩ := hi
    rw [Option.some.inj (hj.symm.trans hi')] at hne
    exact (hne hkind).elim

theorem ne_of_step {op : Opcode} (hop : isStep (.fixed op) = false)
    (hi : ∃ j, tokens[p]? = some j ∧ isStep j.kind = true) :
    ∃ j, tokens[p]? = some j ∧ j.kind ≠ .fixed op := by
  obtain ⟨j, hj, hstep⟩ := hi
  refine ⟨j, hj, fun hkind => ?_⟩
  rw [hkind, hop] at hstep
  cases hstep

section

variable (ht : Segmented tokens st)

include ht

theorem ReadsCondition.first_lt (h : ReadsCondition tokens st p e node) : p < e := by
  obtain ⟨m, v, i, rfl, hv, -⟩ := h
  exact Nat.lt_succ_of_lt (hv.lt ht).1

theorem ReadsClause.first_lt (h : ReadsClause tokens st p e node) : p < e := by
  obtain ⟨m, condition, q, v, r, k, rfl, hcondition, hv, -⟩ := h
  have := hcondition.first_lt ht
  have := (hv.lt ht).1
  omega

theorem ReadsPlain.first_lt (h : ReadsPlain tokens st p e node) : p < e := by
  obtain ⟨q, v, r, rfl, hv, -⟩ := h
  exact Nat.lt_succ_of_lt (hv.lt ht).1

theorem ReadsLabeled.first_lt (h : ReadsLabeled tokens st p e node) : p < e := by
  obtain ⟨i, clause, -, -, hclause | ⟨hplain, -⟩, -⟩ := h
  · exact Nat.lt_of_succ_lt (hclause.first_lt ht)
  · exact Nat.lt_of_succ_lt (hplain.first_lt ht)

end

section

variable (hl : Chained tokens st)

include hl

theorem step_of_spends {op : Opcode} (h : Spends tokens st op (m + 1) q v j) :
    ∃ j, tokens[m + 1]? = some j ∧ isStep j.kind = true :=
  h.isStep hl.toSegmented (Nat.le_refl _) (h.lt hl.toSegmented).1

theorem step_behind_jump (hi : tokens[m]? = some i) (hkind : i.kind = .fixed .gotoIfNil) :
    ∃ j, tokens[m + 1]? = some j ∧ isStep j.kind = true := by
  obtain ⟨q, v, r, k, hv, -⟩ := hl.behind_jump m i hi hkind
  exact step_of_spends hl hv

theorem step_behind_label (hi : tokens[m]? = some i) (hkind : i.kind = .fixed .label) :
    ∃ j, tokens[m + 1]? = some j ∧ isStep j.kind = true := by
  rcases hl.behind_label m i hi hkind with ⟨q, v, j, hv⟩ | ⟨q, v, r, hv, -⟩
  · exact step_of_spends hl hv
  · exact step_of_spends hl hv

/-- Where a marker stands for a jump that arrives, nothing is on the stack. -/
theorem pending_of_comeFrom (hi : tokens[m]? = some i) (hkind : i.kind = .fixed .comeFrom) :
    (st m).pending = [] := by
  have hspent := hl.spent m i hi (by rw [hkind]; rfl)
  rw [Instruction.effect, hkind] at hspent
  refine List.eq_nil_of_length_eq_zero ?_
  have hzero : (OpKind.fixed Opcode.comeFrom).effect.net = 0 := rfl
  omega

/-- A place where a form of clauses may end: before a label, or where all ends. -/
theorem ReadsLabeled.end_cases (h : ReadsLabeled tokens st p e node) :
    e = tokens.length ∨ ∃ i, tokens[e]? = some i ∧ i.kind = .fixed .label := by
  obtain ⟨i, clause, -, -, ⟨m, condition, q, v, r, k, rfl, -, -, hk, hkind, -⟩ | ⟨-, hlast⟩, -⟩ := h
  · exact .inr (hl.behind_comeFrom _ _ hk hkind)
  · exact .inl hlast

theorem ReadsLabeled.le_length (h : ReadsLabeled tokens st p e node) : e ≤ tokens.length := by
  rcases h.end_cases hl with rfl | ⟨i, hi, -⟩
  · exact Nat.le_refl _
  · exact Nat.le_of_lt (List.getElem?_eq_some_iff.1 hi).1

theorem ReadsCond.end_cases (h : ReadsCond tokens st p e node) :
    e = tokens.length ∨ ∃ i, tokens[e]? = some i ∧ i.kind = .fixed .label := by
  obtain ⟨form, ⟨m, first, rest, -, hlisted, -⟩, -⟩ := h
  obtain ⟨m', last, hlast⟩ := hlisted.exists_last
  exact hlast.end_cases hl

/-- No form of clauses ends before anything else. -/
theorem ReadsCond.kind_eq (h : ReadsCond tokens st p e node) (hi : tokens[e]? = some i) :
    i.kind = .fixed .label := by
  rcases h.end_cases hl with rfl | ⟨j, hj, hkind⟩
  · simp at hi
  · rwa [Option.some.inj (hi.symm.trans hj)]

theorem ReadsCond.rests (h : ReadsCond tokens st p e node) : Rests tokens st e :=
  .inr fun i hi => by rw [h.kind_eq hl hi]; rfl

/-! ### Statements -/

/-- A statement is a value that is left, or a form of clauses. -/
theorem item_cases (h : ReadsItem tokens st (ReadsCond tokens st) p e node) :
    (∃ v, e ≤ tokens.length ∧ MayEnd tokens e ∧ (st e).pending = [v] ∧ v.first = p ∧
      node = kept v.tree) ∨ ∃ tree, ReadsCond tokens st p e tree := by
  rcases h with hline | ⟨tree, htree, -⟩
  · cases hline with
    | @ended m v i node he hi hv hp hnode =>
      -- No instruction ends a statement here.
      have hnone := operation_of_statement hnode
      have hstep : isStep i.kind = true := by
        unfold statement? at hnode
        split at hnode <;> simp_all [isStep]
      have hsome := hl.operations i (List.mem_of_getElem? hi) hstep
      rw [hnone] at hsome
      cases hsome
    | kept he hend hv hp => exact .inl ⟨_, he, hend, hv, hp, rfl⟩
  · exact .inr ⟨tree, htree⟩

/-- Statements before a return are the value that it returns. -/
theorem items_of_return (hr : tokens[q]? = some r) (hkind : r.kind = .fixed .ret)
    (h : Listed (ReadsItem tokens st (ReadsCond tokens st)) p q nodes) :
    ∃ v, Spends tokens st .ret p q v r ∧ nodes = [kept v.tree] := by
  have hlast : ∀ {m node}, ReadsItem tokens st (ReadsCond tokens st) m q node →
      ∃ v, Spends tokens st .ret m q v r ∧ node = kept v.tree := by
    intro m node hitem
    rcases item_cases hl hitem with ⟨v, -, -, hv, hp, rfl⟩ | ⟨tree, htree⟩
    · exact ⟨v, ⟨hr, hkind, hv, hp⟩, rfl⟩
    · have hlabel := htree.kind_eq hl hr
      rw [hkind] at hlabel
      cases hlabel
  cases h with
  | one h =>
    obtain ⟨v, hv, rfl⟩ := hlast h
    exact ⟨v, hv, rfl⟩
  | @more m e items item hbefore h =>
    -- The statement before ends where the value begins, but no statement ends before a step.
    obtain ⟨v, hv, rfl⟩ := hlast h
    obtain ⟨j, hj, hstep⟩ := hv.isStep hl.toSegmented (Nat.le_refl m) (hv.lt hl.toSegmented).1
    obtain ⟨m', other, hother⟩ := hbefore.exists_last
    rcases item_cases hl hother with ⟨w, -, hend, -⟩ | ⟨tree, htree⟩
    · exact (false_of_step hj (hend.isStep_eq hj) ⟨j, hj, hstep⟩).elim
    · exact (false_of_step hj (by rw [htree.kind_eq hl hj]; rfl) ⟨j, hj, hstep⟩).elim

/-- Statements do not end before a marker. -/
theorem not_items_of_comeFrom (hi : tokens[q]? = some i) (hkind : i.kind = .fixed .comeFrom)
    (h : Listed (ReadsItem tokens st (ReadsCond tokens st)) p q nodes) : False := by
  obtain ⟨m, node, hitem⟩ := h.exists_last
  rcases item_cases hl hitem with ⟨v, -, -, hv, -⟩ | ⟨tree, htree⟩
  · rw [pending_of_comeFrom hl hi hkind] at hv
    cases hv
  · have hlabel := htree.kind_eq hl hi
    rw [hkind] at hlabel
    cases hlabel

/-- Statements that begin with a value which is returned are this value. -/
theorem end_of_items (hv : Spends tokens st .ret p q v r)
    (h : Listed (ReadsItem tokens st (ReadsCond tokens st)) p e nodes) : e = q := by
  have hseg := hl.toSegmented
  induction h with
  | @one e node hitem =>
    rcases item_cases hl hitem with ⟨w, he, hend, hw, rfl, -⟩ | ⟨tree, htree⟩
    · refine Nat.le_antisymm ?_ ?_
      · by_contra hlt
        exact false_of_step hv.at_eq (by rw [hv.kind_eq]; rfl)
          (hseg.step_of_below he [] hw (Nat.le_of_lt (hv.lt hseg).1) (by omega))
      · by_contra hlt
        obtain ⟨j, hj, hstep⟩ :=
          hv.isStep hseg (Nat.le_of_lt (hseg.below he [] hw).1) (show e < q by omega)
        exact false_of_step hj (hend.isStep_eq hj) ⟨j, hj, hstep⟩
    · obtain ⟨q', w, i, hw⟩ := htree.exists_condition
      obtain rfl := hv.end_unique hseg rfl hw rfl
      exact absurd (hv.op_unique hw) (by decide)
  | @more m e items node _ hitem ih =>
    -- The next statement would begin with the return.
    subst ih
    refine (false_of_step hv.at_eq (by rw [hv.kind_eq]; rfl) ?_).elim
    rcases item_cases hl hitem with ⟨w, he, -, hw, rfl, -⟩ | ⟨tree, htree⟩
    · exact hseg.step_of_below he [] hw (Nat.le_refl _) (hseg.below he [] hw).1
    · obtain ⟨q', w, i, hw⟩ := htree.exists_condition
      exact hw.isStep hseg (Nat.le_refl _) (hw.lt hseg).1

/-! ### Where clauses end -/

/-- Behind a clause with a condition the next instruction is not one of its own. -/
theorem ReadsClause.le_of_label (h : ReadsClause tokens st p e node) (hi : tokens[q]? = some i)
    (hkind : i.kind = .fixed .label) (hlow : p ≤ q) : e ≤ q := by
  have hseg := hl.toSegmented
  have hcontrol : isStep i.kind = false := by rw [hkind]; rfl
  obtain ⟨m, condition, q', v, r, k, rfl, ⟨m', w, j, rfl, hw, -⟩, hv, hk, hk', -⟩ := h
  have hne : ∀ {n x}, tokens[n]? = some x → x.kind ≠ .fixed .label → q ≠ n := by
    rintro n x hx hne rfl
    rw [Option.some.inj (hx.symm.trans hi)] at hne
    exact hne hkind
  have hcondition := hw.le_of_control hseg hi hcontrol hlow
  have hjump := hne hw.at_eq (by rw [hw.kind_eq]; decide)
  have hvalue := hv.le_of_control hseg hi hcontrol (by omega)
  have hreturn := hne hv.at_eq (by rw [hv.kind_eq]; decide)
  have hmarker := hne hk (by rw [hk']; decide)
  omega

theorem ReadsPlain.le_of_label (h : ReadsPlain tokens st p e node) (hi : tokens[q]? = some i)
    (hkind : i.kind = .fixed .label) (hlow : p ≤ q) : e ≤ q := by
  obtain ⟨q', v, r, rfl, hv, -⟩ := h
  have hvalue := hv.le_of_control hl.toSegmented hi (by rw [hkind]; rfl) hlow
  refine Nat.lt_of_le_of_ne hvalue ?_
  rintro rfl
  have hr := hv.kind_eq
  rw [Option.some.inj (hv.at_eq.symm.trans hi), hkind] at hr
  cases hr

/-- A clause holds no label but the one in front. -/
theorem ReadsLabeled.le_of_label (h : ReadsLabeled tokens st p e node) (hi : tokens[q]? = some i)
    (hkind : i.kind = .fixed .label) (hlow : p < q) : e ≤ q := by
  obtain ⟨j, clause, -, -, hclause | ⟨hplain, -⟩, -⟩ := h
  · exact hclause.le_of_label hl hi hkind hlow
  · exact hplain.le_of_label hl hi hkind hlow

/-- A clause with a condition is not read otherwise from its start on. -/
theorem ReadsClause.end_unique (h : ReadsClause tokens st p e node) {e' : Nat}
    (h' : Reads tokens st .clause p e' node') : e' = e := by
  have hseg := hl.toSegmented
  obtain ⟨m, condition, q, v, r, k, rfl, ⟨m', w, j, rfl, hw, -⟩, hv, -⟩ := h
  rcases h' with hclause | hplain | ⟨i, other, hi, hkind, -⟩
  · obtain ⟨m, condition, q', v', r', k', rfl, ⟨m', w', j', rfl, hw', -⟩, hv', -⟩ := hclause
    obtain rfl := hw.end_unique hseg rfl hw' rfl
    rw [hv.end_unique hseg rfl hv' rfl]
  · obtain ⟨q', v', r', rfl, hv', -⟩ := hplain
    obtain rfl := hw.end_unique hseg rfl hv' rfl
    exact absurd (hw.op_unique hv') (by decide)
  · exact (false_of_step hi (by rw [hkind]; rfl)
      (hw.isStep hseg (Nat.le_refl p) (hw.lt hseg).1)).elim

/-! ### Rules -/

/-- What a jump depends on is the value before it. -/
theorem spends_of_expr
    (h : Shape tokens st (ReadsCond tokens st) (Reads tokens st) .expr p m node)
    (hi : tokens[m]? = some i) (hkind : i.kind = .fixed .gotoIfNil) :
    Spends tokens st .gotoIfNil p m ⟨p, node⟩ i := by
  have hspent := hl.spent m i hi (by rw [hkind]; rfl)
  rw [Instruction.effect, hkind] at hspent
  have hone : (OpKind.fixed Opcode.gotoIfNil).effect.net = -1 := rfl
  rcases h with hreads | hcond
  · rcases hreads.pending_cases hl.toSegmented with ⟨-, below, hbelow⟩ | ⟨hempty, -⟩
    · rw [hbelow, List.length_cons] at hspent
      rw [List.eq_nil_of_length_eq_zero (show below.length = 0 by omega)] at hbelow
      exact ⟨hi, hkind, hbelow, rfl⟩
    · rw [hempty] at hspent
      cases hspent
  · have hlabel := hcond.kind_eq hl hi
    rw [hkind] at hlabel
    cases hlabel

/-- An expression behind a jump ends before the return that follows. -/
theorem le_of_expr_behind_jump
    (h : Shape tokens st (ReadsCond tokens st) (Reads tokens st) .expr (m + 1) e node)
    (hv : Spends tokens st .ret (m + 1) q v r) : e ≤ q := by
  rcases h with hreads | hcond
  · by_contra hlt
    exact false_of_step hv.at_eq (by rw [hv.kind_eq]; rfl)
      (hreads.isStep hl.toSegmented (Nat.le_of_lt (hv.lt hl.toSegmented).1) (by omega))
  · obtain ⟨q', v', i', hv'⟩ := hcond.exists_condition
    obtain rfl := hv.end_unique hl.toSegmented rfl hv' rfl
    exact absurd (hv.op_unique hv') (by decide)

end

end ElispLift.Cond
