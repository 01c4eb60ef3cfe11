import ElispLift.Proofs.Segments.Readings

/-!
# Derivations of segments

The grammar derives every reading of straight-line code between other instructions, and the checks
on spans let it.
-/

namespace ElispLift.StraightLine

open Grammar

/-- The rules that a routine is read with. -/
def tokenRules (tokens : List Instruction) : List Rule := base ++ arityRules tokens

/-- The symbols derive the instructions from one position up to another. -/
def TokenDerives (tokens : List Instruction) (s : List Symbol) (p e : Nat) : Prop :=
  Derives (tokenRules tokens) (tokens.map (·.kind))
    (Passes (Context.allowsSpan ⟨tokens.toArray⟩)) s p e

variable {tokens : List Instruction} {st : Nat → State} {p m e : Nat} {i : Instruction}
  {op : Operation} {node : Node} {kind : Nonterminal} {r : Rule} {items : List Node}

theorem mem_tokenRules (hr : r ∈ base) : r ∈ tokenRules tokens := List.mem_append_left _ hr

theorem tokenDerives_terminal (hi : tokens[p]? = some i) :
    TokenDerives tokens [.terminal i.kind] p (p + 1) :=
  .terminal (by simp [hi]) (.nil _)

theorem At.tokenDerives {op : Opcode} (h : At tokens op p i) :
    TokenDerives tokens [t op] p (p + 1) := by
  have hterminal := tokenDerives_terminal h.1
  rwa [h.2] at hterminal

theorem tokenDerives_rule (hr : r ∈ tokenRules tokens) (hfree : isUnchecked r.lhs = true)
    (h : TokenDerives tokens r.rhs p e) : TokenDerives tokens [.nonterminal r.lhs] p e :=
  .single hr h fun _ => allowsSpan_of_unchecked hfree _ _ _

/-- A base rule of a nonterminal that is not checked. -/
theorem tokenDerives_base {s : List Symbol} (hr : (⟨kind, s⟩ : Rule) ∈ base)
    (hfree : isUnchecked kind = true) (h : TokenDerives tokens s p e) :
    TokenDerives tokens [.nonterminal kind] p e :=
  tokenDerives_rule (mem_tokenRules hr) hfree h

theorem tokenDerives_absent (hr : (⟨kind, []⟩ : Rule) ∈ base) (hfree : isUnchecked kind = true) :
    TokenDerives tokens [.nonterminal kind] p p :=
  tokenDerives_base hr hfree (.nil _)

/-! ### Operations -/

theorem tokenDerives_sign (hi : tokens[m]? = some i) (hop : operation? i.kind = some op) :
    TokenDerives tokens [op.signSymbol i.kind] m (m + 1) := by
  have hrules := hasRules (List.mem_of_getElem? hi) hop
  have hterminal := tokenDerives_terminal hi
  unfold Operation.signSymbol
  split
  next s hs =>
    obtain ⟨hfree, hrule⟩ := hrules.sign s hs
    exact tokenDerives_rule hrule hfree hterminal
  next => exact hterminal

/-- What an operation reads from its operands and itself is an expression. -/
theorem tokenDerives_operation (hi : tokens[m]? = some i) (hop : operation? i.kind = some op)
    (hargs : TokenDerives tokens (List.replicate op.arity (.nonterminal .expr)) p m) :
    (∀ form ∈ op.kind, TokenDerives tokens [.nonterminal form] p (m + 1)) ∧
      TokenDerives tokens [.nonterminal .expr] p (m + 1) := by
  have hrules := hasRules (List.mem_of_getElem? hi) hop
  have hall := hargs.append (tokenDerives_sign hi hop)
  have hforms : ∀ form ∈ op.kind, TokenDerives tokens [.nonterminal form] p (m + 1) := by
    intro form hform
    obtain ⟨hfree, hrule, -⟩ := hrules.form form hform
    exact tokenDerives_rule hrule hfree hall
  refine ⟨hforms, ?_⟩
  rcases hkind : op.kind with _ | form
  · obtain ⟨hsign, harity, hrule⟩ := hrules.bare hkind
    rw [harity, Operation.signSymbol, hsign] at hall
    exact tokenDerives_rule hrule rfl hall
  · obtain ⟨-, -, hpromotion⟩ := hrules.form form hkind
    exact tokenDerives_rule hpromotion rfl (hforms form hkind)

/-- The values on top of the stack, the last of them on top, are read one behind the other. -/
theorem tokenDerives_operands (ht : Segmented tokens st) {tops rest : List Pending}
    (hvalue : ∀ e' ≤ e, ∀ v below, (st e').pending = v :: below →
      TokenDerives tokens [.nonterminal .expr] v.first e')
    (he : e ≤ tokens.length) (h : (st e).pending = tops ++ rest) :
    TokenDerives tokens (List.replicate tops.length (.nonterminal .expr))
      (firstOf e tops.reverse) e := by
  induction tops generalizing e with
  | nil => exact .nil e
  | cons v tops ih =>
    obtain ⟨hlt, hst, -⟩ := ht.below he [] h
    have hrest := ih (fun e' he' => hvalue e' (by omega)) (by omega) (congrArg State.pending hst)
    have hfirst : firstOf e (v :: tops).reverse = firstOf v.first tops.reverse := by
      cases htops : tops.reverse <;> simp [firstOf, htops]
    rw [hfirst, List.length_cons, List.replicate_succ']
    exact hrest.append (hvalue e (Nat.le_refl e) v _ h)

theorem tokenDerives_value (ht : Segmented tokens st) (he : e ≤ tokens.length) {v : Pending}
    {rest : List Pending} (h : (st e).pending = v :: rest) :
    TokenDerives tokens [.nonterminal .expr] v.first e := by
  induction e using Nat.strongRecOn generalizing v rest with
  | ind e ih =>
    obtain ⟨m, op, args, i, rfl, htakes, -, hpending⟩ := ht.exists_takes he h
    have hargs := tokenDerives_operands ht
      (fun e' he' v below hv => ih e' (Nat.lt_succ_of_le he') (by omega) hv) (by omega) hpending
    rw [List.reverse_reverse, htakes.first_eq, List.length_reverse, htakes.length_eq] at hargs
    exact (tokenDerives_operation htakes.at_eq htakes.operation_eq hargs).2

theorem tokenDerives_form (ht : Segmented tokens st) (h : ReadsForm tokens st kind p e node) :
    TokenDerives tokens [.nonterminal kind] p e := by
  obtain ⟨m, op, args, i, rfl, htakes, hform, -⟩ := h
  obtain ⟨hm, -⟩ := List.getElem?_eq_some_iff.1 htakes.at_eq
  obtain ⟨rest, hpending⟩ := htakes.pending_eq
  have hargs := tokenDerives_operands ht
    (fun e' he' v below hv => tokenDerives_value ht (by omega) hv) (by omega) hpending
  rw [List.reverse_reverse, htakes.first_eq, List.length_reverse, htakes.length_eq] at hargs
  exact (tokenDerives_operation htakes.at_eq htakes.operation_eq hargs).1 kind hform

/-! ### Statements -/

/-- Where the stack is empty, the instruction before a step lets an assignment begin. -/
theorem Delimited.allowsSetq (ht : Delimited tokens st)
    (hp : ∃ j, tokens[p]? = some j ∧ isStep j.kind = true) (h : (st p).pending = []) :
    Context.allowsSpan ⟨tokens.toArray⟩ .setqForm p e = true := by
  obtain ⟨j, hj, hstep⟩ := hp
  obtain ⟨hlt, -⟩ := List.getElem?_eq_some_iff.1 hj
  cases p with
  | zero => rfl
  | succ m =>
    obtain ⟨i, hi, hmove⟩ := ht.exists_move (Nat.lt_of_succ_lt hlt)
    simp only [Context.allowsSpan, Context.allowsBefore, List.getElem?_toArray, hi,
      Option.map_some, Option.getD_some]
    cases hkind : isStep i.kind with
    | false => exact ht.opens m i j hi hkind hj hstep
    | true =>
      rcases hop : operation? i.kind with _ | op
      · obtain ⟨v, node, -, hnode, -⟩ := (hmove.of_step hkind).of_statement hop
        have hends : i.kind = .fixed .varset ∨ i.kind = .fixed .discard := by
          unfold statement? at hnode
          split at hnode <;> simp_all
        rcases hends with hends | hends <;>
          simp [Context.isAnyOf, Context.assignmentStarts, Instruction.isOp, hends]
      · obtain ⟨args, below, -, -, hafter⟩ := (hmove.of_step hkind).of_operation hop
        simp [hafter] at h

theorem tokenDerives_setq (ht : Delimited tokens st) (h : ReadsSetq tokens st p e node) :
    TokenDerives tokens [.nonterminal .setqForm] p e ∧
      TokenDerives tokens [.nonterminal .expr] p e := by
  obtain ⟨m, v, i, rfl, hi, hkind, hv, rfl, -⟩ := h
  obtain ⟨hm, -⟩ := List.getElem?_eq_some_iff.1 hi
  obtain ⟨hlt, hst, -⟩ := ht.below (by omega) [] hv
  have hterminal := tokenDerives_terminal hi
  rw [hkind] at hterminal
  have hbody := (tokenDerives_value ht.toSegmented (by omega) hv).append hterminal
  have hrule : (⟨.setqForm, [n .expr, t .varset]⟩ : Rule) ∈ base := by decide
  have hpromotion : (⟨.expr, [n .setqForm]⟩ : Rule) ∈ base := by decide
  have hsetq : TokenDerives tokens [.nonterminal .setqForm] v.first (m + 1) :=
    .single (mem_tokenRules hrule) hbody fun _ =>
      ht.allowsSetq (ht.step_of_below (by omega) [] hv (Nat.le_refl _) hlt)
        (congrArg State.pending hst)
  exact ⟨hsetq, tokenDerives_base hpromotion rfl hsetq⟩

theorem tokenDerives_discard (h : ReadsDiscard tokens p e node) :
    TokenDerives tokens [.nonterminal .optDiscard] p e := by
  have hrule : (⟨.optDiscard, [t .discard]⟩ : Rule) ∈ base := by decide
  have hempty : (⟨.optDiscard, []⟩ : Rule) ∈ base := by decide
  rcases h with ⟨rfl, -⟩ | ⟨i, rfl, hi, hkind, -⟩
  · exact tokenDerives_absent hempty rfl
  · have hterminal := tokenDerives_terminal hi
    rw [hkind] at hterminal
    exact tokenDerives_base hrule rfl hterminal

theorem tokenDerives_expr (ht : Delimited tokens st) (h : ReadsExpr tokens st p e node) :
    TokenDerives tokens [.nonterminal .expr] p e := by
  rcases h with ⟨m, op, args, i, rfl, htakes, -⟩ | ⟨inner, h, -⟩
  · obtain ⟨hm, -⟩ := List.getElem?_eq_some_iff.1 htakes.at_eq
    obtain ⟨rest, -, hafter⟩ := ht.takes_step htakes
    exact tokenDerives_value (v := ⟨p, _⟩) ht.toSegmented hm (congrArg State.pending hafter)
  · exact (tokenDerives_setq ht h).2

/-- The change of the stack's height over steps, and over other instructions that take all that is
left. -/
theorem Segmented.net_eq_of_spent (ht : Segmented tokens st) (hle : p ≤ e)
    (he : e ≤ tokens.length)
    (h : ∀ q i, p ≤ q → q < e → tokens[q]? = some i → isStep i.kind = false →
      i.effect.net = -((st q).pending.length : Int)) :
    Context.net ⟨tokens.toArray⟩ p e =
      ((st e).pending.length : Int) - (st p).pending.length := by
  obtain ⟨k, rfl⟩ := Nat.exists_eq_add_of_le hle
  refine net_of_heights k fun q hlow hhigh => ?_
  obtain ⟨i, hi, hmove⟩ := ht.exists_move (show q < tokens.length by omega)
  refine ⟨i, hi, ?_⟩
  cases hkind : isStep i.kind with
  | true => exact (hmove.of_step hkind).net_eq
  | false =>
    rw [h q i hlow hhigh hi hkind, (hmove.of_control hkind).2]
    simp [State.start]

/-- The change of the stack's height over steps. -/
theorem Segmented.net_eq (ht : Segmented tokens st) (hle : p ≤ e) (he : e ≤ tokens.length)
    (h : ∀ q, p ≤ q → q < e → ∃ i, tokens[q]? = some i ∧ isStep i.kind = true) :
    Context.net ⟨tokens.toArray⟩ p e =
      ((st e).pending.length : Int) - (st p).pending.length := by
  refine ht.net_eq_of_spent hle he fun q i hlow hhigh hi hkind => ?_
  obtain ⟨j, hj, hstep⟩ := h q hlow hhigh
  obtain rfl := Option.some.inj (hi.symm.trans hj)
  rw [hkind] at hstep
  cases hstep

/-- A statement that leaves the stack empty, or its one value where it may, is allowed. -/
theorem ReadsLine.allowed (ht : Segmented tokens st) (h : ReadsLine tokens st p e node) :
    Context.allowsSpan ⟨tokens.toArray⟩ .exprStmt p e = true := by
  obtain ⟨hlt, he, hempty⟩ := h.first_lt ht
  have hnet := ht.net_eq (Nat.le_of_lt hlt) he fun q hlow hhigh => h.isStep ht hlow hhigh
  rw [hempty] at hnet
  simp only [Context.allowsSpan, Context.allowsStatement, Bool.or_eq_true, beq_iff_eq]
  cases h with
  | ended he hi hv hp hnode =>
    subst he
    rw [ht.pending_of_statement hi hnode] at hnet
    exact .inl (by simpa using hnet)
  | kept he hend hv hp =>
    rw [hv] at hnet
    refine .inr (Bool.and_eq_true_iff.2 ⟨by simp [hnet], ?_⟩)
    simp only [List.getElem?_toArray]
    split
    · rfl
    next i hi => exact hend i hi

theorem tokenDerives_line (ht : Delimited tokens st) (h : ReadsLine tokens st p e node) :
    TokenDerives tokens [.nonterminal .exprStmt] p e := by
  have hrule : (⟨.exprStmt, [n .expr, n .optDiscard]⟩ : Rule) ∈ base := by decide
  have hallowed := h.allowed ht.toSegmented
  refine .single (mem_tokenRules hrule) ?_ fun _ => hallowed
  cases h with
  | @ended m v i node he hi hv hp hnode =>
    subst hp he
    obtain ⟨hm, -⟩ := List.getElem?_eq_some_iff.1 hi
    unfold statement? at hnode
    split at hnode
    next hkind =>
      exact Derives.append (tokenDerives_setq ht ⟨m, v, i, rfl, hi, hkind, hv, rfl, rfl⟩).2
        (tokenDerives_discard (.inl ⟨rfl, rfl⟩))
    next hkind =>
      exact Derives.append (tokenDerives_value ht.toSegmented (by omega) hv)
        (tokenDerives_discard (.inr ⟨i, rfl, hi, hkind, rfl⟩))
    next => cases hnode
  | @kept v he hend hv hp =>
    subst hp
    exact Derives.append (tokenDerives_value ht.toSegmented he hv)
      (tokenDerives_discard (.inl ⟨rfl, rfl⟩))

/-- Statements are read one behind the other. -/
theorem tokenDerives_list {S : Nat → Nat → Node → Prop}
    (hS : ∀ p e node, S p e node → TokenDerives tokens [.nonterminal .exprStmt] p e)
    (h : Listed S p e items) : TokenDerives tokens [.nonterminal .exprs] p e := by
  have hone : (⟨.exprs, [n .exprStmt]⟩ : Rule) ∈ base := by decide
  have hmore : (⟨.exprs, [n .exprs, n .exprStmt]⟩ : Rule) ∈ base := by decide
  induction h with
  | one h => exact tokenDerives_base hone rfl (hS _ _ _ h)
  | more _ h ih => exact tokenDerives_base hmore rfl (Derives.append ih (hS _ _ _ h))

/-- An expression is a body if it is allowed as a statement. -/
theorem tokenDerives_body_of_expr (h : TokenDerives tokens [.nonterminal .expr] p e)
    (hallowed : Context.allowsSpan ⟨tokens.toArray⟩ .exprStmt p e = true) :
    TokenDerives tokens [.nonterminal .exprStmt] p e ∧
      TokenDerives tokens [.nonterminal .exprs] p e ∧
        TokenDerives tokens [.nonterminal .body] p e := by
  have hrule : (⟨.exprStmt, [n .expr, n .optDiscard]⟩ : Rule) ∈ base := by decide
  have hone : (⟨.exprs, [n .exprStmt]⟩ : Rule) ∈ base := by decide
  have hbody : (⟨.body, [n .exprs]⟩ : Rule) ∈ base := by decide
  have hstatement : TokenDerives tokens [.nonterminal .exprStmt] p e :=
    .single (mem_tokenRules hrule) (Derives.append h (tokenDerives_discard (.inl ⟨rfl, rfl⟩)))
      fun _ => hallowed
  have hexprs := tokenDerives_base hone rfl hstatement
  exact ⟨hstatement, hexprs, tokenDerives_base hbody rfl hexprs⟩

/-- The grammar derives every reading. -/
theorem tokenDerives_inner (ht : Delimited tokens st) (h : Inner tokens st kind p e node) :
    TokenDerives tokens [.nonterminal kind] p e := by
  have hsign : ∀ {kind}, ReadsSign tokens kind p e node →
      TokenDerives tokens [.nonterminal kind] p e := by
    rintro kind ⟨i, op, rfl, hi, hop, hsign, -⟩
    have hderives := tokenDerives_sign hi hop
    rwa [Operation.signSymbol, hsign] at hderives
  have hitem : ∀ p e node, ReadsItem tokens st (fun _ _ _ => False) p e node →
      TokenDerives tokens [.nonterminal .exprStmt] p e := by
    rintro p e node (h | ⟨-, hfalse, -⟩)
    · exact tokenDerives_line ht h
    · exact hfalse.elim
  have hbody : (⟨.body, [n .exprs]⟩ : Rule) ∈ base := by decide
  unfold Inner Shape at h
  split at h
  · exact tokenDerives_expr ht (h.resolve_right id)
  · exact (tokenDerives_setq ht h).1
  all_goals first
    | exact tokenDerives_form ht.toSegmented h
    | exact hsign h
    | skip
  · exact tokenDerives_discard h
  · exact hitem _ _ _ h
  · obtain ⟨items, h, -⟩ := h
    exact tokenDerives_list hitem h
  · obtain ⟨items, h, -⟩ := h
    exact tokenDerives_base hbody rfl (tokenDerives_list hitem h)
  · exact h.elim

end ElispLift.StraightLine
