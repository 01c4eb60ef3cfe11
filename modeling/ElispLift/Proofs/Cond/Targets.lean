import ElispLift.Proofs.Cond.Rules
import ElispLift.Proofs.Segments.Routes

/-!
# Trees of clauses

What the parser builds on its way to the form that all clauses make up. The grammar derives each of
these trees, and for each span there is only one.
-/

namespace ElispLift.Cond

open Grammar StraightLine Extraction ElispLift.Derivation

/-- What may be there but is not. -/
def markers : List Nonterminal := [.optComeFrom, .optLabel, .optReturn]

/-- The trees that the parser builds besides those of straight-line code. -/
inductive Builds (tokens : List Instruction) (st : Nat → State) (l : Parts) : Span → Node → Prop
    where
  | condition {p e : Nat} {node : Node} (h : ReadsCondition tokens st p e node) :
      Builds tokens st l ⟨.condition, p, e⟩ node
  | ending {p e : Nat} {node : Node} (h : ReadsEnd tokens p e node) :
      Builds tokens st l ⟨.endClause, p, e⟩ node
  | clause {p e : Nat} {node : Node} (h : ReadsClause tokens st p e node) :
      Builds tokens st l ⟨.clause, p, e⟩ node
  | plain {p e : Nat} {node : Node} (h : ReadsPlain tokens st p e node) :
      Builds tokens st l ⟨.clause, p, e⟩ node
  | labeled {p e : Nat} {node : Node} (h : ReadsLabeled tokens st p e node) :
      Builds tokens st l ⟨.labeledClause, p, e⟩ node
  | clauses {p e : Nat} {nodes : List Node} (h : Listed (ReadsLabeled tokens st) p e nodes) :
      Builds tokens st l ⟨.labeledClauses, p, e⟩ (.plain .labeledClauses nodes)
  | form : Builds tokens st l ⟨.condForm, 0, tokens.length⟩ l.form
  | expr : Builds tokens st l ⟨.expr, 0, tokens.length⟩ (.plain .expr [l.form])
  | statement : Builds tokens st l ⟨.exprStmt, 0, tokens.length⟩ (kept (.plain .expr [l.form]))
  | statements : Builds tokens st l ⟨.exprs, 0, tokens.length⟩
      (.plain .exprs [kept (.plain .expr [l.form])])
  | body : Builds tokens st l ⟨.body, 0, tokens.length⟩
      (.plain .body [.plain .exprs [kept (.plain .expr [l.form])]])
  | arrival (p : Nat) : Builds tokens st l ⟨.optComeFrom, p, p⟩ (.plain .optComeFrom [])
  | label (p : Nat) : Builds tokens st l ⟨.optLabel, p, p⟩ (.plain .optLabel [])
  | return (p : Nat) : Builds tokens st l ⟨.optReturn, p, p⟩ (.plain .optReturn [])
  | routine : Builds tokens st l ⟨.fnBody, 0, tokens.length⟩ l.routine

/-- A tree that is built, where it is waited for. -/
def Target (tokens : List Instruction) (st : Nat → State) (l : Parts) (span : Span) (tree : Node) :
    Prop :=
  (Inner tokens st span.kind span.first span.last tree ∨ Builds tokens st l span tree) ∧
    Due (tokenRules tokens) .fnBody tokens span.kind span.first

variable {tokens : List Instruction} {st : Nat → State} {l : Parts} {p q m e : Nat}
  {i r : Instruction} {node node' : Node} {nodes : List Node} {kind : Nonterminal}
  {span : Span} {tree tree' : Node} {v : Pending}

/-- A return is read with the marker behind it, or without. -/
theorem ReadsEnd.unique (h : ReadsEnd tokens p e node) (h' : ReadsEnd tokens p e node') :
    node' = node := by
  obtain ⟨r, hr, -, hcases⟩ := h
  obtain ⟨r', hr', -, hcases'⟩ := h'
  obtain rfl := Option.some.inj (hr'.symm.trans hr)
  rcases hcases with ⟨he, rfl⟩ | ⟨k, he, hk, -, rfl⟩ <;>
    rcases hcases' with ⟨he', rfl⟩ | ⟨k', he', hk', -, rfl⟩ <;> first
    | rfl
    | omega
    | rw [Option.some.inj (hk'.symm.trans hk)]

/-- A marker that is not there has a rule of its own, behind that for the marker. -/
theorem rules_of_marker : ∀ kind ∈ markers, (⟨kind, []⟩ : Rule) ∈ base ∧ isUnchecked kind = true ∧
    ∃ op ∈ [Opcode.comeFrom, .label, .ret], priorRules base ⟨kind, []⟩ = [⟨kind, [t op]⟩] := by
  decide

/-! ### Derivations -/

theorem tokenDerives_marker (h : kind ∈ markers) : TokenDerives tokens [.nonterminal kind] p p := by
  obtain ⟨hrule, hfree, -⟩ := rules_of_marker kind h
  exact tokenDerives_absent hrule hfree

theorem tokenDerives_end (h : ReadsEnd tokens p e node) :
    TokenDerives tokens [.nonterminal .endClause] p e := by
  have hone : (⟨.endClause, [t .ret]⟩ : Rule) ∈ base := by decide
  have htwo : (⟨.endClause, [t .ret, t .comeFrom]⟩ : Rule) ∈ base := by decide
  obtain ⟨r, hr, hkind, ⟨rfl, -⟩ | ⟨k, rfl, hk, hkind', -⟩⟩ := h
  · have hreturn := tokenDerives_terminal hr
    rw [hkind] at hreturn
    exact tokenDerives_base hone rfl hreturn
  · have hreturn := tokenDerives_terminal hr
    have hmarker := tokenDerives_terminal hk
    rw [hkind] at hreturn
    rw [hkind'] at hmarker
    exact tokenDerives_base htwo rfl (Derives.append hreturn hmarker)

/-- A value that is returned is a body. -/
theorem inner_body (ht : Segmented tokens st) (h : Spends tokens st .ret p q v r) :
    Inner tokens st .body p q (bodyOf v) := by
  have hend : MayEnd tokens q := by
    intro i hi
    obtain rfl := Option.some.inj (hi.symm.trans h.at_eq)
    simp [Context.isAnyOf, Context.statementEnds, Instruction.isOp, h.kind_eq]
  have hline : ReadsLine tokens st p q (kept v.tree) :=
    .kept (Nat.le_of_lt (h.lt ht).2) hend h.pending_eq h.first_eq
  exact ⟨_, .one (.inl hline), rfl⟩

section

variable (hl : Chained tokens st)

include hl

theorem tokenDerives_condition (h : ReadsCondition tokens st p e node) :
    TokenDerives tokens [.nonterminal .condition] p e := by
  obtain ⟨m, v, i, rfl, hv, -⟩ := h
  have hrule : (⟨.condition, [n .expr, .terminal (.fixed .gotoIfNil), n .optComeFrom,
      n .optLabel]⟩ : Rule) ∈ base := by decide
  have hvalue := tokenDerives_value hl.toSegmented (Nat.le_of_lt (hv.lt hl.toSegmented).2)
    hv.pending_eq
  have hjump := tokenDerives_terminal hv.at_eq
  rw [hv.first_eq] at hvalue
  rw [hv.kind_eq] at hjump
  exact tokenDerives_base hrule rfl (Derives.append hvalue (Derives.append hjump
    (Derives.append (tokenDerives_marker (by decide)) (tokenDerives_marker (by decide)))))

theorem tokenDerives_clause (h : ReadsClause tokens st p e node) :
    TokenDerives tokens [.nonterminal .clause] p e := by
  obtain ⟨m, condition, q, v, r, k, rfl, hcondition, hv, hk, hkind, -⟩ := h
  have hrule : (⟨.clause, [n .condition, n .body, n .endClause]⟩ : Rule) ∈ base := by
    decide
  have hend : ReadsEnd tokens q (q + 2) (.plain .endClause [.token r, .token k]) :=
    ⟨r, hv.at_eq, hv.kind_eq, .inr ⟨k, rfl, hk, hkind, rfl⟩⟩
  exact tokenDerives_base hrule rfl (Derives.append (tokenDerives_condition hl hcondition)
    (Derives.append (tokenDerives_inner hl.toDelimited (inner_body hl.toSegmented hv))
      (tokenDerives_end hend)))

theorem tokenDerives_plain (h : ReadsPlain tokens st p e node) :
    TokenDerives tokens [.nonterminal .clause] p e := by
  obtain ⟨q, v, r, rfl, hv, -⟩ := h
  have hrule : (⟨.clause, [n .optLabel, n .body, n .endClause]⟩ : Rule) ∈ base := by
    decide
  have hend : ReadsEnd tokens q (q + 1) (.plain .endClause [.token r]) :=
    ⟨r, hv.at_eq, hv.kind_eq, .inl ⟨rfl, rfl⟩⟩
  exact tokenDerives_base hrule rfl (Derives.append (tokenDerives_marker (by decide))
    (Derives.append (tokenDerives_inner hl.toDelimited (inner_body hl.toSegmented hv))
      (tokenDerives_end hend)))

theorem tokenDerives_labeled (h : ReadsLabeled tokens st p e node) :
    TokenDerives tokens [.nonterminal .labeledClause] p e := by
  obtain ⟨i, clause, hi, hkind, hclause, -⟩ := h
  have hrule : (⟨.labeledClause, [t .label, n .clause]⟩ : Rule) ∈ base := by decide
  have hlabel := tokenDerives_terminal hi
  rw [hkind] at hlabel
  refine tokenDerives_base hrule rfl (Derives.append hlabel ?_)
  rcases hclause with hclause | ⟨hplain, -⟩
  · exact tokenDerives_clause hl hclause
  · exact tokenDerives_plain hl hplain

theorem tokenDerives_clauses (h : Listed (ReadsLabeled tokens st) p e nodes) :
    TokenDerives tokens [.nonterminal .labeledClauses] p e := by
  have hone : (⟨.labeledClauses, [n .labeledClause]⟩ : Rule) ∈ base := by decide
  have hmore : (⟨.labeledClauses, [n .labeledClauses, n .labeledClause]⟩ : Rule) ∈ base := by
    decide
  induction h with
  | one h => exact tokenDerives_base hone rfl (tokenDerives_labeled hl h)
  | more _ h ih => exact tokenDerives_base hmore rfl (Derives.append ih (tokenDerives_labeled hl h))

end

section

variable (hl : Layout tokens st l)

include hl

theorem tokenDerives_form : TokenDerives tokens [.nonterminal .expr] 0 tokens.length ∧
    TokenDerives tokens [.nonterminal .condForm] 0 tokens.length := by
  have hrule : (⟨.condForm, [n .clause, n .labeledClauses]⟩ : Rule) ∈ base := by decide
  have hpromotion : (⟨.expr, [n .condForm]⟩ : Rule) ∈ base := by decide
  have hform := tokenDerives_base hrule rfl
    (Derives.append (tokenDerives_clause hl.toChained hl.first)
      (tokenDerives_clauses hl.toChained hl.rest))
  exact ⟨tokenDerives_base hpromotion rfl hform, hform⟩

theorem length_pos : 0 < tokens.length :=
  Nat.lt_trans (hl.first.first_lt hl.toSegmented)
    (hl.rest.first_lt fun _ _ _ h => h.first_lt hl.toSegmented)

/-- Where all ends nothing is left on the stack. -/
theorem start_end : st tokens.length = .start := by
  obtain ⟨m, node, hlast⟩ := hl.rest.exists_last
  obtain ⟨i, clause, -, -, ⟨m', condition, q, v, r, k, he, -, -, hk, hkind, -⟩ |
    ⟨⟨q, v, r, he, hv, -⟩, -⟩, -⟩ := hlast
  · rw [he]
    exact ((hl.move _ _ hk).of_control (by rw [hkind]; rfl)).2
  · rw [he]
    exact hv.start_behind hl.toSegmented rfl

theorem tokenDerives_body : TokenDerives tokens [.nonterminal .exprStmt] 0 tokens.length ∧
    TokenDerives tokens [.nonterminal .exprs] 0 tokens.length ∧
      TokenDerives tokens [.nonterminal .body] 0 tokens.length := by
  refine tokenDerives_body_of_expr (tokenDerives_form hl).1 ?_
  have hnet := hl.toSegmented.net_eq_of_spent (Nat.zero_le _) (Nat.le_refl _)
    fun q i _ _ hi hkind => hl.spent q i hi hkind
  rw [start_end hl, hl.start] at hnet
  simp [Context.allowsSpan, Context.allowsStatement, hnet]

theorem tokenDerives_routine : TokenDerives tokens [.nonterminal .fnBody] 0 tokens.length := by
  have hrule : (⟨.fnBody, [n .body, n .optLabel, n .optReturn]⟩ : Rule) ∈ base := by decide
  exact tokenDerives_base hrule rfl (Derives.append (tokenDerives_body hl).2.2
    (Derives.append (tokenDerives_marker (by decide)) (tokenDerives_marker (by decide))))

/-! ### Trees of targets -/

/-- Not all instructions are steps. -/
theorem exists_jump : ∃ m i, m < tokens.length ∧ tokens[m]? = some i ∧ isStep i.kind = false := by
  obtain ⟨m, condition, q, v, r, k, -, ⟨m', w, i, -, hw, -⟩, -⟩ := hl.first
  exact ⟨m', i, (hw.lt hl.toSegmented).2, hw.at_eq, by rw [hw.kind_eq]; rfl⟩

/-- What is built is not straight-line code. -/
theorem not_inner_of_builds (h : Builds tokens st l span tree) :
    ¬Inner tokens st span.kind span.first span.last tree' := by
  intro hinner
  have hspans : ∀ {kind}, Inner tokens st kind 0 tokens.length tree' → False := by
    intro kind hinner
    obtain ⟨m, i, hm, hi, hcontrol⟩ := exists_jump hl
    exact false_of_step hi hcontrol (hinner.isStep hl.toSegmented m (Nat.zero_le m) hm)
  cases h with
  | condition | ending | clause | plain | labeled | clauses | form | arrival | label | «return»
  | routine => exact hinner.elim
  | expr | statement | statements | body => exact hspans hinner

theorem unique (h : Target tokens st l span tree) (h' : Target tokens st l span tree') :
    tree' = tree := by
  refine eq_of_inner_or hl.toSegmented (not_inner_of_builds hl) (fun h h' => ?_) h.1 h'.1
  cases h with
  | condition hread =>
    cases h' with
    | condition hread' => exact (hread.unique hread').2
  | ending hread =>
    cases h' with
    | ending hread' => exact hread.unique hread'
  | clause hread =>
    cases h' with
    | clause hread' => exact (hread.unique hread').2
    | plain hread' => exact (hread.not_plain hread').elim
  | plain hread =>
    cases h' with
    | clause hread' => exact (hread'.not_plain hread).elim
    | plain hread' => exact (hread.unique hread').2
  | labeled hread =>
    cases h' with
    | labeled hread' => exact (hread.unique hread').2
  | clauses hlist =>
    cases h' with
    | clauses hlist' =>
      rw [hlist.unique (fun _ _ _ h => h.first_lt hl.toSegmented)
        (fun _ _ _ _ _ h h' => h.unique h') hlist']
  | _ =>
    cases h'
    rfl

end

end ElispLift.Cond
