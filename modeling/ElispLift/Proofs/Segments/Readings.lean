import ElispLift.Proofs.Extraction.Assembly
import ElispLift.Proofs.StraightLine.Operations

/-!
# Readings of segments

What the grammar makes of the spans of straight-line code that stands between other instructions:
values, assignments, and lists of statements, each in one way only. Over other instructions there
may be more expressions. They stand where statements stand, so a node over any span is of one of the
forms given here, in terms of the expressions that are read from elsewhere.
-/

namespace ElispLift.StraightLine

open Grammar

/-- Segments whose statements may begin behind the instructions in front of them, with at most one
value left in the end. -/
structure Delimited (tokens : List Instruction) (st : Nat → State) : Prop
    extends Segmented tokens st where
  opens : ∀ m i j, tokens[m]? = some i → isStep i.kind = false → tokens[m + 1]? = some j →
    isStep j.kind = true → (i.isJump || Context.isAnyOf i Context.assignmentStarts) = true
  last : (st tokens.length).pending.length ≤ 1

section

variable (tokens : List Instruction) (st : Nat → State)

/-- A value may be left before the instruction at position `e`. -/
def MayEnd (e : Nat) : Prop :=
  ∀ i, tokens[e]? = some i → Context.isAnyOf i Context.statementEnds = true

/-- No value is needed from before position `e`. -/
def Rests (e : Nat) : Prop :=
  (st e).pending = [] ∨ ∀ i, tokens[e]? = some i → isStep i.kind = false

/-- The instruction at position `q`, with its operation. -/
def At (op : Opcode) (q : Nat) (i : Instruction) : Prop :=
  tokens[q]? = some i ∧ i.kind = .fixed op

/-- The operation at position `m` takes the value that was computed from `p` on, the only one. -/
structure Spends (op : Opcode) (p m : Nat) (v : Pending) (i : Instruction) : Prop where
  at_eq : tokens[m]? = some i
  kind_eq : i.kind = .fixed op
  pending_eq : (st m).pending = [v]
  first_eq : v.first = p

/-- A statement of a segment: an instruction ends it, or a value is left. -/
inductive ReadsLine (p e : Nat) : Node → Prop where
  | ended {m : Nat} {v : Pending} {i : Instruction} {node : Node} (he : e = m + 1)
      (hi : tokens[m]? = some i) (hv : (st m).pending = [v]) (hp : v.first = p)
      (hnode : statement? v.tree i = some node) : ReadsLine p e node
  | kept {v : Pending} (he : e ≤ tokens.length) (hend : MayEnd tokens e)
      (hv : (st e).pending = [v]) (hp : v.first = p) : ReadsLine p e (kept v.tree)

/-- Items one behind the other. -/
inductive Listed (S : Nat → Nat → Node → Prop) (p : Nat) : Nat → List Node → Prop where
  | one {e : Nat} {item : Node} (h : S p e item) : Listed S p e [item]
  | more {m e : Nat} {items : List Node} {item : Node} (h : Listed S p m items)
      (h' : S m e item) : Listed S p e (items ++ [item])

/-- A statement of a segment, or an expression from elsewhere. -/
def ReadsItem (E : Nat → Nat → Node → Prop) (p e : Nat) (node : Node) : Prop :=
  ReadsLine tokens st p e node ∨ ∃ tree, E p e tree ∧ node = kept tree

/-- The node that a nonterminal has over a span, where `E` are the expressions from elsewhere, and
`Y` the nodes of the other nonterminals. -/
def Shape (E : Nat → Nat → Node → Prop) (Y : Nonterminal → Nat → Nat → Node → Prop)
    (kind : Nonterminal) (p e : Nat) (node : Node) : Prop :=
  match kind with
  | .expr => ReadsExpr tokens st p e node ∨ E p e node
  | .setqForm => ReadsSetq tokens st p e node
  | .nameExpr | .nullaryExpr | .unaryExpr | .binaryExpr | .ternaryExpr | .counted _ =>
    ReadsForm tokens st kind p e node
  | .nullaryOp | .unaryOp | .binaryOp | .ternaryOp => ReadsSign tokens kind p e node
  | .optDiscard => ReadsDiscard tokens p e node
  | .exprStmt => ReadsItem tokens st E p e node
  | .exprs => ∃ items, Listed (ReadsItem tokens st E) p e items ∧ node = .plain .exprs items
  | .body => ∃ items, Listed (ReadsItem tokens st E) p e items ∧
      node = .plain .body [.plain .exprs items]
  | kind => Y kind p e node

/-- The node of a nonterminal over a part of a segment. -/
def Inner : Nonterminal → Nat → Nat → Node → Prop :=
  Shape tokens st (fun _ _ _ => False) fun _ _ _ _ => False

end

/-- Nonterminals whose nodes are those of segments and of lists of statements. -/
def isInner : Nonterminal → Bool
  | .expr | .setqForm | .nameExpr | .nullaryExpr | .unaryExpr | .binaryExpr | .ternaryExpr
  | .counted _ | .nullaryOp | .unaryOp | .binaryOp | .ternaryOp | .optDiscard | .exprStmt
  | .exprs | .body => true
  | _ => false

variable {tokens : List Instruction} {st : Nat → State} {p p' m e : Nat} {i : Instruction}
  {node node' : Node} {kind : Nonterminal} {v : Pending} {rest : List Pending}
  {E : Nat → Nat → Node → Prop} {Y : Nonterminal → Nat → Nat → Node → Prop}

theorem shape_of_not_isInner (h : isInner kind = false) :
    Shape tokens st E Y kind p e node ↔ Y kind p e node := by
  cases kind <;> first
    | exact Iff.rfl
    | cases h

theorem shape_of_isForm (h : isForm kind = true) :
    Shape tokens st E Y kind p e node ↔ ReadsForm tokens st kind p e node := by
  cases kind <;> first
    | exact Iff.rfl
    | cases h

theorem shape_of_sign {form : Nonterminal} {k : Nat} (h : formOf? kind = some (form, k)) :
    Shape tokens st E Y kind p e node ↔ ReadsSign tokens kind p e node := by
  cases kind <;> first
    | exact Iff.rfl
    | cases h

/-! ### Ends of statements -/

theorem statementEnd_of_step : ∀ o ∈ Context.statementEnds, isStep (.fixed o) = false := by
  decide

/-- Where a value may be left, no step follows. -/
theorem MayEnd.isStep_eq (h : MayEnd tokens e) (hi : tokens[e]? = some i) :
    isStep i.kind = false := by
  obtain ⟨o, ho, hkind⟩ := List.any_eq_true.1 (h i hi)
  have hkind : i.kind = .fixed o := by simpa [Instruction.isOp] using hkind
  rw [hkind]
  exact statementEnd_of_step o ho

/-- Where no step follows at most one value is left. -/
theorem Delimited.length_le (ht : Delimited tokens st) (he : e ≤ tokens.length)
    (h : ∀ i, tokens[e]? = some i → isStep i.kind = false) : (st e).pending.length ≤ 1 := by
  rcases Nat.lt_or_eq_of_le he with hlt | rfl
  · obtain ⟨i, hi, hmove⟩ := ht.exists_move hlt
    exact (hmove.of_control (h i hi)).1
  · exact ht.last

/-- Behind the end of a statement the stack is empty. -/
theorem Segmented.pending_of_statement (ht : Segmented tokens st) (hi : tokens[m]? = some i)
    {tree : Node} (hnode : statement? tree i = some node) :
    (st (m + 1)).pending = [] := by
  have hstep : isStep i.kind = true := by
    unfold statement? at hnode
    split at hnode <;> simp_all [isStep]
  obtain ⟨v, node, -, -, hafter⟩ :=
    ((ht.move m i hi).of_step hstep).of_statement (operation_of_statement hnode)
  rw [hafter]

/-! ### Values that are taken -/

theorem At.kind_of {op : Opcode} {q : Nat} {j : Instruction} (h : At tokens op q i)
    (hj : tokens[q]? = some j) : j.kind = .fixed op := by
  rw [← Option.some.inj (h.1.symm.trans hj)]
  exact h.2

/-- Behind another instruction than a step nothing is left. -/
theorem At.start_behind {op : Opcode} {q : Nat} (h : At tokens op q i) (ht : Segmented tokens st)
    (hop : isStep (.fixed op) = false) : st (q + 1) = .start :=
  ((ht.move q i h.1).of_control (by rw [h.2, hop])).2

/-- Another instruction is no step. -/
theorem false_of_step {q : Nat} (hi : tokens[q]? = some i) (hcontrol : isStep i.kind = false)
    (h : ∃ j, tokens[q]? = some j ∧ isStep j.kind = true) : False := by
  obtain ⟨j, hj, hstep⟩ := h
  rw [Option.some.inj (hj.symm.trans hi), hcontrol] at hstep
  cases hstep

namespace Spends

variable {op op' : Opcode} {v' : Pending} {i' : Instruction} {q m' : Nat}

theorem unique (h : Spends tokens st op p m v i) (h' : Spends tokens st op' p' m v' i') :
    p' = p ∧ v' = v ∧ i' = i := by
  obtain ⟨hi, -, hv, rfl⟩ := h
  obtain ⟨hi', -, hv', rfl⟩ := h'
  obtain ⟨rfl, -⟩ := List.cons.inj (hv'.symm.trans hv)
  exact ⟨rfl, rfl, Option.some.inj (hi'.symm.trans hi)⟩

theorem op_unique (h : Spends tokens st op p m v i) (h' : Spends tokens st op' p' m v' i') :
    op' = op := by
  have hkind := h'.kind_eq
  rw [Option.some.inj (h'.at_eq.symm.trans h.at_eq), h.kind_eq] at hkind
  exact (OpKind.fixed.inj hkind).symm

variable (ht : Segmented tokens st) (h : Spends tokens st op p m v i)

include ht h

theorem lt : p < m ∧ m < tokens.length := by
  obtain ⟨hi, -, hv, rfl⟩ := h
  obtain ⟨hm, -⟩ := List.getElem?_eq_some_iff.1 hi
  exact ⟨(ht.below (Nat.le_of_lt hm) [] hv).1, hm⟩

theorem isStep (hlow : p ≤ q) (hhigh : q < m) :
    ∃ i, tokens[q]? = some i ∧ StraightLine.isStep i.kind = true := by
  have hm := (h.lt ht).2
  obtain ⟨-, -, hv, rfl⟩ := h
  exact ht.step_of_below (Nat.le_of_lt hm) [] hv hlow hhigh

theorem start_behind (hop : StraightLine.isStep (.fixed op) = false) : st (m + 1) = .start :=
  ((ht.move m i h.at_eq).of_control (by rw [h.kind_eq, hop])).2

/-- A value is computed up to where no step follows. -/
theorem le_of_control (hi' : tokens[m']? = some i') (hop : StraightLine.isStep i'.kind = false)
    (hlow : p ≤ m') : m ≤ m' := by
  by_contra hlt
  exact false_of_step hi' hop (h.isStep ht hlow (by omega))

theorem end_unique (hop : StraightLine.isStep (.fixed op) = false)
    (h' : Spends tokens st op' p m' v' i') (hop' : StraightLine.isStep (.fixed op') = false) :
    m' = m := by
  have hle := h.le_of_control ht h'.at_eq (by rw [h'.kind_eq, hop']) (Nat.le_of_lt (h'.lt ht).1)
  have hge := h'.le_of_control ht h.at_eq (by rw [h.kind_eq, hop]) (Nat.le_of_lt (h.lt ht).1)
  exact Nat.le_antisymm hge hle

end Spends

/-- Where the code of an expression ends its value is on the stack. -/
theorem spends_of_spells {op : Opcode} {e : Expr} {js front rest : List Instruction}
    (ht : Segmented tokens st) (hwf : e.WellFormed) (h : List.Forall₂ Spells js e.code)
    (hsplit : tokens = front ++ (js ++ i :: rest)) (hst : st front.length = .start)
    (hi : i.kind = .fixed op) :
    ∃ tree, e.Shows tree ∧
      Spends tokens st op front.length (front.length + js.length) ⟨front.length, tree⟩ i := by
  obtain ⟨tree, htree, hrun⟩ := run_expr e front.length [] [] hwf h
  have hvalue := ht.run_eq_of_split hrun hst hsplit
  exact ⟨tree, htree, by simp [hsplit, ← List.append_assoc], hi, by rw [hvalue], rfl⟩

/-! ### Readings are unique -/

theorem ReadsLine.unique (ht : Segmented tokens st) (h : ReadsLine tokens st p e node)
    (h' : ReadsLine tokens st p' e node') : p' = p ∧ node' = node := by
  cases h with
  | @ended m v i node he hi hv hp hnode =>
    have hempty := ht.pending_of_statement hi hnode
    cases h' with
    | @ended m' v' i' node' he' hi' hv' hp' hnode' =>
      obtain rfl := Nat.succ.inj (he'.symm.trans he)
      obtain rfl := Option.some.inj (hi'.symm.trans hi)
      obtain ⟨rfl, -⟩ := List.cons.inj (hv'.symm.trans hv)
      exact ⟨hp'.symm.trans hp, Option.some.inj (hnode'.symm.trans hnode)⟩
    | kept he' hend' hv' hp' =>
      rw [he, hempty] at hv'
      cases hv'
  | kept he hend hv hp =>
    cases h' with
    | @ended m' v' i' node' he' hi' hv' hp' hnode' =>
      rw [he', ht.pending_of_statement hi' hnode'] at hv
      cases hv
    | kept he' hend' hv' hp' =>
      obtain ⟨rfl, -⟩ := List.cons.inj (hv'.symm.trans hv)
      exact ⟨hp'.symm.trans hp, rfl⟩

/-- A statement is read over instructions of a segment, and begins where the stack is empty. -/
theorem ReadsLine.first_lt (ht : Segmented tokens st) (h : ReadsLine tokens st p e node) :
    p < e ∧ e ≤ tokens.length ∧ (st p).pending = [] := by
  cases h with
  | @ended m v i node he hi hv hp hnode =>
    subst hp he
    obtain ⟨hm, -⟩ := List.getElem?_eq_some_iff.1 hi
    obtain ⟨hlt, hst, -⟩ := ht.below (Nat.le_of_lt hm) [] hv
    exact ⟨by omega, hm, congrArg State.pending hst⟩
  | @kept v he hend hv hp =>
    subst hp
    obtain ⟨hlt, hst, -⟩ := ht.below he [] hv
    exact ⟨hlt, he, congrArg State.pending hst⟩

/-- The stack is not empty within a statement. -/
theorem ReadsLine.pending_ne_nil (ht : Segmented tokens st) (h : ReadsLine tokens st p e node)
    {q : Nat} (hlow : p < q) (hhigh : q < e) : (st q).pending ≠ [] := by
  have hpos : 0 < (st q).pending.length := by
    cases h with
    | @ended m v i node he hi hv hp hnode =>
      subst he hp
      obtain ⟨hm, -⟩ := List.getElem?_eq_some_iff.1 hi
      exact (ht.below (Nat.le_of_lt hm) [] hv).2.2 q hlow (by omega)
    | @kept v he hend hv hp =>
      subst hp
      exact (ht.below he [] hv).2.2 q hlow (by omega)
  exact List.ne_nil_of_length_pos hpos

/-- Where a step follows a statement, the stack is empty. -/
theorem ReadsLine.pending_eq_nil (ht : Segmented tokens st) (h : ReadsLine tokens st p e node)
    (hi : tokens[e]? = some i) (hstep : isStep i.kind = true) : (st e).pending = [] := by
  cases h with
  | ended he hi' hv hp hnode =>
    rw [he]
    exact ht.pending_of_statement hi' hnode
  | kept he hend hv hp =>
    rw [hend.isStep_eq hi] at hstep
    cases hstep

theorem ReadsLine.isStep (ht : Segmented tokens st) (h : ReadsLine tokens st p e node) {q : Nat}
    (hlow : p ≤ q) (hhigh : q < e) : ∃ i, tokens[q]? = some i ∧ isStep i.kind = true := by
  cases h with
  | @ended m v i node he hi hv hp hnode =>
    subst he hp
    obtain ⟨hm, -⟩ := List.getElem?_eq_some_iff.1 hi
    rcases Nat.lt_or_eq_of_le (Nat.le_of_lt_succ hhigh) with hlt | rfl
    · exact ht.step_of_below (Nat.le_of_lt hm) [] hv hlow hlt
    · refine ⟨i, hi, ?_⟩
      unfold statement? at hnode
      split at hnode <;> simp_all [StraightLine.isStep]
  | @kept v he hend hv hp =>
    subst hp
    exact ht.step_of_below he [] hv hlow hhigh

theorem ReadsExpr.isStep (ht : Segmented tokens st) (h : ReadsExpr tokens st p e node) {q : Nat}
    (hlow : p ≤ q) (hhigh : q < e) : ∃ i, tokens[q]? = some i ∧ isStep i.kind = true := by
  rcases h.pending_cases ht with ⟨he, rest, hpending⟩ |
    ⟨-, inner, m, v, i, rfl, hi, hkind, hv, rfl, -⟩
  · exact ht.step_of_below he [] hpending hlow hhigh
  · have hline : ReadsLine tokens st v.first (m + 1) _ := .ended rfl hi hv rfl (by
      rw [statement?, hkind])
    exact hline.isStep ht hlow hhigh

namespace Listed

variable {S : Nat → Nat → Node → Prop} {items items' : List Node}

theorem ne_nil (h : Listed S p e items) : items ≠ [] := by
  cases h <;> simp

theorem exists_first (h : Listed S p e items) : ∃ m node, S p m node := by
  induction h with
  | one h => exact ⟨_, _, h⟩
  | more _ _ ih => exact ih

theorem exists_last (h : Listed S p e items) : ∃ m node, S m e node := by
  cases h with
  | one h => exact ⟨_, _, h⟩
  | more _ h => exact ⟨_, _, h⟩

theorem imp {S' : Nat → Nat → Node → Prop} (himp : ∀ p e node, S p e node → S' p e node)
    (h : Listed S p e items) : Listed S' p e items := by
  induction h with
  | one h => exact .one (himp _ _ _ h)
  | more _ h' ih => exact .more ih (himp _ _ _ h')

theorem first_lt (hlt : ∀ p e node, S p e node → p < e) (h : Listed S p e items) : p < e := by
  induction h with
  | one h => exact hlt _ _ _ h
  | more _ h' ih => exact Nat.lt_trans ih (hlt _ _ _ h')

/-- A list is read in one way only if its items are, from the last one down. -/
theorem unique (hlt : ∀ p e node, S p e node → p < e)
    (hunique : ∀ p p' e node node', S p e node → S p' e node' → p' = p ∧ node' = node)
    (h : Listed S p e items) (h' : Listed S p e items') : items' = items := by
  induction h generalizing items' with
  | one h =>
    cases h' with
    | one h' => rw [(hunique _ _ _ _ _ h h').2]
    | more hlist h' =>
      obtain ⟨rfl, -⟩ := hunique _ _ _ _ _ h h'
      exact (Nat.lt_irrefl _ (hlist.first_lt hlt)).elim
  | more hlist h ih =>
    cases h' with
    | one h' =>
      obtain ⟨rfl, -⟩ := hunique _ _ _ _ _ h h'
      exact (Nat.lt_irrefl _ (hlist.first_lt hlt)).elim
    | more hlist' h' =>
      obtain ⟨rfl, rfl⟩ := hunique _ _ _ _ _ h h'
      rw [ih hlist']

end Listed

theorem Listed.isStep (ht : Segmented tokens st) {items : List Node}
    (h : Listed (ReadsLine tokens st) p e items) {q : Nat} (hlow : p ≤ q) (hhigh : q < e) :
    ∃ i, tokens[q]? = some i ∧ StraightLine.isStep i.kind = true := by
  induction h with
  | one h => exact h.isStep ht hlow hhigh
  | @more m e items item h h' ih =>
    rcases Nat.lt_or_ge q m with hlt | hge
    · exact ih hlt
    · exact h'.isStep ht hge hhigh

/-- The statements of a segment that are done are read one behind the other. -/
theorem Segmented.listed_done (ht : Segmented tokens st) (hle : p ≤ e) (he : e ≤ tokens.length)
    (hsteps : ∀ q, p ≤ q → q < e → ∃ i, tokens[q]? = some i ∧ isStep i.kind = true)
    (hp : st p = .start) (hempty : (st e).pending = []) :
    (e = p ∧ (st e).done = []) ∨ Listed (ReadsLine tokens st) p e (st e).done := by
  induction e using Nat.strongRecOn with
  | ind e ih =>
    rcases Nat.eq_or_lt_of_le hle with rfl | hlt
    · exact .inl ⟨rfl, by rw [hp]; rfl⟩
    obtain ⟨m, rfl⟩ := Nat.exists_eq_add_of_lt hlt
    obtain ⟨i, hi, hstep⟩ := hsteps (p + m) (by omega) (by omega)
    rcases hop : operation? i.kind with _ | op
    · obtain ⟨v, node, hv, hnode, hafter⟩ := ((ht.move _ i hi).of_step hstep).of_statement hop
      obtain ⟨hfirst, hst, hheight⟩ := ht.below (show p + m ≤ tokens.length by omega) [] hv
      have hle' : p ≤ v.first := by
        by_contra hlt'
        have hpos := hheight p (by omega) (by omega)
        rw [hp] at hpos
        exact Nat.not_lt_zero _ hpos
      have hline : ReadsLine tokens st v.first (p + m + 1) node := .ended rfl hi hv rfl hnode
      rw [hafter]
      refine .inr ?_
      rcases ih v.first (by omega) hle' (by omega)
        (fun q hlow hhigh => hsteps q hlow (by omega)) (congrArg State.pending hst) with
        ⟨heq, hnone⟩ | hlist
      · rw [hst] at hnone
        dsimp only at hnone ⊢
        rw [hnone]
        rw [heq] at hline
        exact .one hline
      · rw [hst] at hlist
        exact .more hlist hline
    · obtain ⟨args, below, -, -, hafter⟩ := ((ht.move _ i hi).of_step hstep).of_operation hop
      rw [hafter] at hempty
      cases hempty

/-- The code of statements is read as these statements, and leaves nothing on the stack. -/
theorem listed_of_spells {ss : List Statement} {js front rest : List Instruction}
    (ht : Segmented tokens st) (hwf : ∀ s ∈ ss, s.WellFormed)
    (h : List.Forall₂ Spells js (ss.map (·.code)).flatten) (hsplit : tokens = front ++ (js ++ rest))
    (hst : st front.length = .start) :
    ∃ nodes, List.Forall₂ Statement.Shows ss nodes ∧
      (st (front.length + js.length)).pending = [] ∧ (front.length + js.length = front.length ∧
        nodes = [] ∨ Listed (ReadsLine tokens st) front.length
          (front.length + js.length) nodes) := by
  obtain ⟨nodes, hnodes, hrun⟩ := run_statements ss front.length [] hwf h
  have hend := ht.run_eq_of_split hrun hst hsplit
  rw [List.nil_append] at hend
  have hdone := ht.listed_done (Nat.le_add_right front.length js.length) (by simp [hsplit])
    (fun q => step_of_split hrun.isStep hsplit) hst (by rw [hend])
  rw [hend] at hdone ⊢
  exact ⟨nodes, hnodes, rfl, hdone⟩

/-- A value that is left is read behind the statements that are done. -/
theorem Segmented.listed_kept (ht : Segmented tokens st) (hle : p ≤ e) (he : e ≤ tokens.length)
    (hsteps : ∀ q, p ≤ q → q < e → ∃ i, tokens[q]? = some i ∧ isStep i.kind = true)
    (hp : st p = .start) (hv : (st e).pending = [v]) (hend : MayEnd tokens e) :
    Listed (ReadsLine tokens st) p e ((st e).done ++ [kept v.tree]) := by
  obtain ⟨hfirst, hst, hheight⟩ := ht.below he [] hv
  have hle' : p ≤ v.first := by
    by_contra hlt'
    have hpos := hheight p (by omega) hle
    rw [hp] at hpos
    exact Nat.not_lt_zero _ hpos
  have hline : ReadsLine tokens st v.first e (kept v.tree) := .kept he hend hv rfl
  rcases ht.listed_done hle' (by omega) (fun q hlow hhigh => hsteps q hlow (by omega)) hp
    (congrArg State.pending hst) with ⟨heq, hnone⟩ | hlist
  · rw [hst] at hnone
    dsimp only at hnone
    rw [hnone, ← heq]
    exact .one hline
  · rw [hst] at hlist
    exact .more hlist hline

/-- Lists of statements of a segment. -/
theorem listed_item_iff {items : List Node} :
    Listed (ReadsItem tokens st fun _ _ _ => False) p e items ↔
      Listed (ReadsLine tokens st) p e items := by
  refine ⟨Listed.imp fun p e node h => ?_, Listed.imp fun p e node h => .inl h⟩
  rcases h with h | ⟨tree, hfalse, -⟩
  · exact h
  · exact hfalse.elim

theorem Inner.unique (ht : Segmented tokens st) (h : Inner tokens st kind p e node)
    (h' : Inner tokens st kind p e node') : node' = node := by
  have hlist : ∀ {items items' : List Node},
      Listed (ReadsItem tokens st fun _ _ _ => False) p e items →
        Listed (ReadsItem tokens st fun _ _ _ => False) p e items' → items' = items :=
    fun h h' => Listed.unique (fun _ _ _ h => (h.first_lt ht).1)
      (fun _ _ _ _ _ h h' => h.unique ht h') (listed_item_iff.1 h) (listed_item_iff.1 h')
  unfold Inner Shape at h h'
  split at h <;> dsimp only at h'
  · exact ((h.resolve_right id).unique (h'.resolve_right id)).2
  · exact (h.unique h').2
  all_goals first
    | exact (ReadsForm.unique h h').2
    | exact ReadsSign.unique h h'
    | skip
  · exact h.unique h'
  · obtain h | ⟨-, hfalse, -⟩ := h
    · obtain h' | ⟨-, hfalse, -⟩ := h'
      · exact (h.unique ht h').2
      · exact hfalse.elim
    · exact hfalse.elim
  · obtain ⟨items, h, rfl⟩ := h
    obtain ⟨items', h', rfl⟩ := h'
    rw [hlist h h']
  · obtain ⟨items, h, rfl⟩ := h
    obtain ⟨items', h', rfl⟩ := h'
    rw [hlist h h']
  · exact h.elim

end ElispLift.StraightLine
