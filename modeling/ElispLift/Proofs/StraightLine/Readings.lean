import ElispLift.Proofs.Segments.States

/-!
# Readings of straight-line code

What the grammar makes of the spans of straight-line code: values, assignments, and what their rules
are made of. Each is read in one way only, by the rule of the instruction that it ends with, from
where the values begin that the instruction takes.
-/

namespace ElispLift.StraightLine

section

variable (code : List Instruction) (st : Nat → State)

/-- The instruction at position `m` is `op`, applied to operands whose code begins at `p`. -/
structure Takes (p m : Nat) (op : Operation) (args : List Pending) (i : Instruction) : Prop where
  at_eq : code[m]? = some i
  operation_eq : operation? i.kind = some op
  length_eq : args.length = op.arity
  first_eq : firstOf m args = p
  pending_eq : ∃ rest, (st m).pending = args.reverse ++ rest

/-- The form of an operation with its operands. -/
def ReadsForm (kind : Nonterminal) (p e : Nat) (node : Node) : Prop :=
  ∃ m op args i, e = m + 1 ∧ Takes code st p m op args i ∧ op.kind = some kind ∧
    node = op.node (args.map (·.tree)) i

/-- The operator of an operation. -/
def ReadsSign (kind : Nonterminal) (p e : Nat) (node : Node) : Prop :=
  ∃ i op, e = p + 1 ∧ code[p]? = some i ∧ operation? i.kind = some op ∧ op.sign = some kind ∧
    node = .plain kind [.token i]

/-- A value is stored in a variable by the instruction before position `e`. -/
def ReadsSetq (p e : Nat) (node : Node) : Prop :=
  ∃ m v i, e = m + 1 ∧ code[m]? = some i ∧ i.kind = .fixed .varset ∧ (st m).pending = [v] ∧
    v.first = p ∧ node = .plain .setqForm [v.tree, .token i]

/-- A value, or an assignment. -/
def ReadsExpr (p e : Nat) (node : Node) : Prop :=
  (∃ m op args i, e = m + 1 ∧ Takes code st p m op args i ∧
    node = op.value (args.map (·.tree)) i) ∨
  ∃ inner, ReadsSetq code st p e inner ∧ node = .plain .expr [inner]

/-- A marker that is not there, or the instruction that discards a value. -/
def ReadsDiscard (p e : Nat) (node : Node) : Prop :=
  (e = p ∧ node = .plain .optDiscard []) ∨
    ∃ i, e = p + 1 ∧ code[p]? = some i ∧ i.kind = .fixed .discard ∧
      node = .plain .optDiscard [.token i]

/-- The forms of operations. -/
def isForm : Nonterminal → Bool
  | .nameExpr | .nullaryExpr | .unaryExpr | .binaryExpr | .ternaryExpr | .counted _ => true
  | _ => false

/-- The form that an operator makes, and the number of its operands. -/
def formOf? : Nonterminal → Option (Nonterminal × Nat)
  | .nullaryOp => some (.nullaryExpr, 0)
  | .unaryOp => some (.unaryExpr, 1)
  | .binaryOp => some (.binaryExpr, 2)
  | .ternaryOp => some (.ternaryExpr, 3)
  | _ => none

end

variable {code : List Instruction} {st : Nat → State} {p p' m e : Nat} {op op' : Operation}
  {args args' : List Pending} {i : Instruction} {node node' : Node}

theorem length_pos_of_pending {v : Pending} {rest : List Pending} (ht : Segmented code st)
    (h : (st e).pending = v :: rest) (he : e ≤ code.length) : 0 < e := by
  have := (ht.below he [] h).1
  omega

namespace Segmented

variable (ht : Segmented code st)

include ht

theorem takes_step (h : Takes code st p m op args i) :
    ∃ rest, (st m).pending = args.reverse ++ rest ∧
      st (m + 1) = ⟨⟨p, op.value (args.map (·.tree)) i⟩ :: rest, (st m).done⟩ := by
  have hstep : isStep i.kind = true := by simp [isStep, h.operation_eq]
  obtain ⟨rest, hrest⟩ := h.pending_eq
  obtain ⟨args', rest', hrest', hlen, hst⟩ :=
    ((ht.move m i h.at_eq).of_step hstep).of_operation h.operation_eq
  have heq := hrest.symm.trans hrest'
  obtain ⟨hargs, rfl⟩ := List.append_inj heq (by simp [hlen, h.length_eq])
  obtain rfl := List.reverse_injective hargs
  exact ⟨rest, hrest, h.first_eq ▸ hst⟩

/-- A value is made by the step before it. -/
theorem exists_takes {v : Pending} {rest : List Pending} (he : e ≤ code.length)
    (h : (st e).pending = v :: rest) :
    ∃ m op args i, e = m + 1 ∧ Takes code st v.first m op args i ∧
      v.tree = op.value (args.map (·.tree)) i ∧ (st m).pending = args.reverse ++ rest := by
  have hpos := length_pos_of_pending ht h he
  obtain ⟨m, rfl⟩ := Nat.exists_eq_add_one_of_ne_zero (Nat.ne_of_gt hpos)
  obtain ⟨hlt, -, -⟩ := ht.below he [] h
  obtain ⟨i, hi, hkind⟩ := ht.step_of_below he [] h (Nat.le_of_lt_succ hlt) (Nat.lt_succ_self m)
  have hstep := (ht.move m i hi).of_step hkind
  rcases hop : operation? i.kind with _ | op
  · obtain ⟨w, node, -, -, hafter⟩ := hstep.of_statement hop
    simp [hafter] at h
  · obtain ⟨args, below, hbefore, hlen, hafter⟩ := hstep.of_operation hop
    rw [hafter] at h
    obtain ⟨rfl, rfl⟩ := List.cons.inj h
    exact ⟨m, op, args, i, rfl, ⟨hi, hop, hlen, rfl, _, hbefore⟩, rfl, hbefore⟩

end Segmented

/-- A span of an expression ends with a value on the stack or with an empty stack. -/
theorem ReadsExpr.pending_cases (ht : Segmented code st) (h : ReadsExpr code st p e node) :
    (e ≤ code.length ∧ ∃ rest, (st e).pending = ⟨p, node⟩ :: rest) ∨
      (st e).pending = [] ∧ ∃ inner, ReadsSetq code st p e inner := by
  rcases h with ⟨m, op, args, i, rfl, htakes, rfl⟩ | ⟨inner, h, rfl⟩
  · obtain ⟨hm, -⟩ := List.getElem?_eq_some_iff.1 htakes.at_eq
    obtain ⟨rest, -, hafter⟩ := ht.takes_step htakes
    exact .inl ⟨hm, rest, congrArg State.pending hafter⟩
  · refine .inr ⟨?_, inner, h⟩
    obtain ⟨m, v, i, rfl, hi, hkind, -⟩ := h
    have hop : operation? i.kind = none := by rw [hkind]; rfl
    have hstep : isStep i.kind = true := by rw [hkind]; rfl
    obtain ⟨w, item, -, -, hafter⟩ := ((ht.move m i hi).of_step hstep).of_statement hop
    rw [hafter]

theorem ReadsExpr.first_lt (ht : Segmented code st) (h : ReadsExpr code st p e node) :
    p < e ∧ e ≤ code.length := by
  rcases h.pending_cases ht with ⟨he, rest, hpending⟩ | ⟨-, inner, m, v, i, rfl, hi, -, hv, rfl, -⟩
  · exact ⟨(ht.below he [] hpending).1, he⟩
  · obtain ⟨hm, -⟩ := List.getElem?_eq_some_iff.1 hi
    exact ⟨Nat.lt_succ_of_lt (ht.below (Nat.le_of_lt hm) [] hv).1, hm⟩

/-- A form is an expression. -/
theorem ReadsForm.readsExpr {kind : Nonterminal} (h : ReadsForm code st kind p e node) :
    ∃ node, ReadsExpr code st p e node := by
  obtain ⟨m, op, args, i, he, htakes, -, -⟩ := h
  exact ⟨_, .inl ⟨m, op, args, i, he, htakes, rfl⟩⟩

/-- The last instruction of an expression is an operation or stores a value. -/
theorem ReadsExpr.at_last (h : ReadsExpr code st p (m + 1) node) (hi : code[m]? = some i) :
    (∃ op, operation? i.kind = some op) ∨ i.kind = .fixed .varset := by
  rcases h with ⟨m', op, args, i', he, htakes, -⟩ | ⟨inner, ⟨m', v, i', he, hi', hkind, -⟩, -⟩
  · obtain rfl := Nat.succ.inj he
    obtain rfl := Option.some.inj (htakes.at_eq.symm.trans hi)
    exact .inl ⟨op, htakes.operation_eq⟩
  · obtain rfl := Nat.succ.inj he
    obtain rfl := Option.some.inj (hi'.symm.trans hi)
    exact .inr hkind

/-! ### Forms and operators -/

theorem isForm_of_operation {kind : OpKind} (hop : operation? kind = some op) {form : Nonterminal}
    (hform : op.kind = some form) : isForm form = true := by
  unfold operation? at hop
  split at hop
  · cases hop
    cases hform
    rfl
  · cases hop
    cases hform
  · split at hop <;> cases hop <;> cases hform <;> rfl
  · cases hop
    cases hform
    rfl

theorem formOf_of_operation {kind : OpKind} (hop : operation? kind = some op) {sign : Nonterminal}
    (hsign : op.sign = some sign) :
    ∃ form, formOf? sign = some (form, op.arity) ∧ op.kind = some form := by
  unfold operation? at hop
  split at hop
  · cases hop
    cases hsign
  · cases hop
    cases hsign
  · split at hop <;> cases hop <;> cases hsign <;> exact ⟨_, rfl, rfl⟩
  · cases hop
    cases hsign

/-! ### Readings are unique -/

theorem Takes.unique (h : Takes code st p m op args i) {i' : Instruction}
    (h' : Takes code st p' m op' args' i') : i' = i ∧ op' = op ∧ args' = args ∧ p' = p := by
  obtain rfl := Option.some.inj (h'.at_eq.symm.trans h.at_eq)
  obtain rfl := Option.some.inj (h'.operation_eq.symm.trans h.operation_eq)
  obtain ⟨rest, hrest⟩ := h.pending_eq
  obtain ⟨rest', hrest'⟩ := h'.pending_eq
  have hlen := h'.length_eq.trans h.length_eq.symm
  obtain ⟨hargs, -⟩ := List.append_inj (hrest'.symm.trans hrest) (by simp [hlen])
  obtain rfl := List.reverse_injective hargs
  exact ⟨rfl, rfl, rfl, h'.first_eq.symm.trans h.first_eq⟩

theorem ReadsSetq.unique (h : ReadsSetq code st p e node) (h' : ReadsSetq code st p' e node') :
    p' = p ∧ node' = node := by
  obtain ⟨m, v, i, rfl, hi, -, hv, rfl, rfl⟩ := h
  obtain ⟨m', v', i', he, hi', -, hv', rfl, rfl⟩ := h'
  obtain rfl := Nat.succ.inj he
  obtain rfl := Option.some.inj (hi'.symm.trans hi)
  obtain ⟨rfl, -⟩ := List.cons.inj (hv'.symm.trans hv)
  exact ⟨rfl, rfl⟩

theorem ReadsForm.unique {kind : Nonterminal} (h : ReadsForm code st kind p e node)
    (h' : ReadsForm code st kind p' e node') : p' = p ∧ node' = node := by
  obtain ⟨m, op, args, i, rfl, h, -, rfl⟩ := h
  obtain ⟨m', op', args', i', he, h', -, rfl⟩ := h'
  obtain rfl := Nat.succ.inj he
  obtain ⟨rfl, rfl, rfl, rfl⟩ := h.unique h'
  exact ⟨rfl, rfl⟩

/-- The instruction before position `e` says what ends there, and where it began. -/
theorem ReadsExpr.unique (h : ReadsExpr code st p e node) (h' : ReadsExpr code st p' e node') :
    p' = p ∧ node' = node := by
  -- An assignment ends with an instruction that is no operation.
  have hdisjoint : ∀ {p p' m op args i inner}, Takes code st p m op args i →
      ¬ReadsSetq code st p' (m + 1) inner := by
    rintro p p' m op args i inner h ⟨m', v, i', he, hi', hkind, -⟩
    obtain rfl := Nat.succ.inj he
    obtain rfl := Option.some.inj (hi'.symm.trans h.at_eq)
    have hop := h.operation_eq
    rw [hkind] at hop
    cases hop
  rcases h with ⟨m, op, args, i, rfl, h, rfl⟩ | ⟨inner, h, rfl⟩
  · rcases h' with ⟨m', op', args', i', he, h', rfl⟩ | ⟨inner', h', rfl⟩
    · obtain rfl := Nat.succ.inj he
      obtain ⟨rfl, rfl, rfl, rfl⟩ := h.unique h'
      exact ⟨rfl, rfl⟩
    · exact (hdisjoint h h').elim
  · rcases h' with ⟨m', op', args', i', rfl, h', rfl⟩ | ⟨inner', h', rfl⟩
    · exact (hdisjoint h' h).elim
    · obtain ⟨rfl, rfl⟩ := h.unique h'
      exact ⟨rfl, rfl⟩

theorem ReadsSign.unique {kind : Nonterminal} (h : ReadsSign code kind p e node)
    (h' : ReadsSign code kind p e node') : node' = node := by
  obtain ⟨i, -, -, hi, -, -, rfl⟩ := h
  obtain ⟨i', -, -, hi', -, -, rfl⟩ := h'
  obtain rfl := Option.some.inj (hi'.symm.trans hi)
  rfl

theorem ReadsDiscard.unique (h : ReadsDiscard code p e node) (h' : ReadsDiscard code p e node') :
    node' = node := by
  rcases h with ⟨he, rfl⟩ | ⟨i, he, hi, -, rfl⟩ <;>
    rcases h' with ⟨he', rfl⟩ | ⟨i', he', hi', -, rfl⟩
  · rfl
  · omega
  · omega
  · obtain rfl := Option.some.inj (hi'.symm.trans hi)
    rfl

end ElispLift.StraightLine
