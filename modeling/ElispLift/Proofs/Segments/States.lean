import ElispLift.Proofs.StraightLine.Stack

/-!
# Straight-line code between other instructions

Instructions that are no steps of straight-line code divide a routine into segments. Each segment
runs on a stack of its own, so the states of all of them are given by position: a step leads on from
the state before it, and whatever else stands between the steps starts anew. A value on the stack
was computed by steps only, all of them in its own segment.
-/

namespace ElispLift.StraightLine

/-- What runs on the stack: operations and the ends of statements. -/
def isStep (kind : OpKind) : Bool :=
  (operation? kind).isSome || kind = .fixed .varset || kind = .fixed .discard

/-- One instruction of a routine, at position `pos`: a step, or another one where at most one value
is left, behind which the stack is empty. -/
inductive Move (pos : Nat) (i : Instruction) : State → State → Prop where
  | step {s s' : State} (h : Step pos i s s') : Move pos i s s'
  | restart {s : State} (h : isStep i.kind = false) (hs : s.pending.length ≤ 1) :
      Move pos i s .start

/-- Instructions one behind the other, the first at position `pos`. -/
inductive Walk : (pos : Nat) → List Instruction → State → State → Prop where
  | nil (pos : Nat) (s : State) : Walk pos [] s s
  | cons {pos : Nat} {i : Instruction} {is : List Instruction} {s s' s'' : State}
      (h : Move pos i s s') (h' : Walk (pos + 1) is s' s'') : Walk pos (i :: is) s s''

/-- The states of all segments, by position. -/
structure Segmented (tokens : List Instruction) (st : Nat → State) : Prop where
  start : st 0 = .start
  move : ∀ pos i, tokens[pos]? = some i → Move pos i (st pos) (st (pos + 1))

variable {tokens : List Instruction} {st : Nat → State} {pos e m : Nat} {i : Instruction}
  {s s' s'' : State} {op : Operation} {v : Pending} {rest : List Pending}

/-! ### Steps -/

theorem operation_of_statement {tree node : Node} {i : Instruction}
    (h : statement? tree i = some node) : operation? i.kind = none := by
  unfold statement? at h
  split at h
  next hkind => rw [hkind]; rfl
  next hkind => rw [hkind]; rfl
  next => cases h

theorem Step.of_operation (h : Step pos i s s') (hop : operation? i.kind = some op) :
    ∃ args rest, s.pending = args.reverse ++ rest ∧ args.length = op.arity ∧
      s' = ⟨⟨firstOf pos args, op.value (args.map (·.tree)) i⟩ :: rest, s.done⟩ := by
  cases h with
  | @value op' args rest done hop' hargs =>
    obtain rfl : op' = op := Option.some.inj (hop'.symm.trans hop)
    exact ⟨args, rest, rfl, hargs, rfl⟩
  | statement hnode =>
    rw [operation_of_statement hnode] at hop
    cases hop

/-- An instruction that is no operation ends a statement. -/
theorem Step.of_statement (h : Step pos i s s') (hop : operation? i.kind = none) :
    ∃ v node, s.pending = [v] ∧ statement? v.tree i = some node ∧
      s' = ⟨[], s.done ++ [node]⟩ := by
  cases h with
  | value hop' =>
    rw [hop] at hop'
    cases hop'
  | @statement v done node hnode => exact ⟨v, node, rfl, hnode, rfl⟩

theorem Step.isStep (h : Step pos i s s') : isStep i.kind = true := by
  cases h with
  | value hop => simp [StraightLine.isStep, hop]
  | statement hnode =>
    unfold statement? at hnode
    split at hnode <;> simp_all [StraightLine.isStep]

theorem Run.isStep {is : List Instruction} (h : Run pos is s s') :
    ∀ i ∈ is, isStep i.kind = true := by
  induction h with
  | nil => simp
  | cons hstep _ ih => exact List.forall_mem_cons.2 ⟨hstep.isStep, ih⟩

theorem isStep_of_spells {e : Expr} {is : List Instruction} (hwf : e.WellFormed)
    (h : List.Forall₂ Spells is e.code) : ∀ i ∈ is, isStep i.kind = true := by
  obtain ⟨tree, -, hrun⟩ := run_expr e 0 [] [] hwf h
  exact hrun.isStep

/-- A step leads to one state only. -/
theorem Step.unique (h : Step pos i s s') (h' : Step pos i s s'') : s'' = s' := by
  rcases hop : operation? i.kind with _ | op
  · obtain ⟨v, node, hv, hnode, rfl⟩ := h.of_statement hop
    obtain ⟨v', node', hv', hnode', rfl⟩ := h'.of_statement hop
    obtain ⟨rfl, -⟩ := List.cons.inj (hv'.symm.trans hv)
    rw [Option.some.inj (hnode'.symm.trans hnode)]
  · obtain ⟨args, rest, hargs, hlen, rfl⟩ := h.of_operation hop
    obtain ⟨args', rest', hargs', hlen', rfl⟩ := h'.of_operation hop
    obtain ⟨hsame, rfl⟩ := List.append_inj (hargs'.symm.trans hargs) (by simp [hlen, hlen'])
    rw [List.reverse_injective hsame]

theorem Move.of_step (h : Move pos i s s') (hi : StraightLine.isStep i.kind = true) :
    Step pos i s s' := by
  cases h with
  | step h => exact h
  | restart hno =>
    rw [hi] at hno
    cases hno

theorem Move.of_control (h : Move pos i s s') (hi : StraightLine.isStep i.kind = false) :
    s.pending.length ≤ 1 ∧ s' = .start := by
  cases h with
  | step h =>
    rw [h.isStep] at hi
    cases hi
  | restart _ hs => exact ⟨hs, rfl⟩

/-- Steps that stand one behind the other stand at the positions between. -/
theorem step_of_split {is front rest : List Instruction} (h : ∀ i ∈ is, isStep i.kind = true)
    (hsplit : tokens = front ++ (is ++ rest)) {q : Nat} (hlow : front.length ≤ q)
    (hhigh : q < front.length + is.length) : ∃ i, tokens[q]? = some i ∧ isStep i.kind = true := by
  obtain ⟨k, rfl⟩ := Nat.exists_eq_add_of_le hlow
  have hk : k < is.length := by omega
  refine ⟨is[k], ?_, h _ (List.getElem_mem hk)⟩
  rw [hsplit, List.getElem?_append_right hlow, Nat.add_sub_cancel_left,
    List.getElem?_append_left hk, List.getElem?_eq_getElem hk]

/-! ### Walks -/

namespace Walk

variable {is js : List Instruction}

theorem append (h : Walk pos is s s') (h' : Walk (pos + is.length) js s' s'') :
    Walk pos (is ++ js) s s'' := by
  induction h with
  | nil => exact h'
  | cons hmove _ ih =>
    refine .cons hmove (ih ?_)
    rwa [Nat.add_right_comm, Nat.add_assoc]

theorem of_run (h : Run pos is s s') : Walk pos is s s' := by
  induction h with
  | nil => exact .nil _ _
  | cons hstep _ ih => exact .cons (.step hstep) ih

theorem exists_states (h : Walk pos is s s') :
    ∃ st : Nat → State, st pos = s ∧ st (pos + is.length) = s' ∧
      ∀ k i, is[k]? = some i → Move (pos + k) i (st (pos + k)) (st (pos + k + 1)) := by
  induction h with
  | nil pos s => exact ⟨fun _ => s, rfl, rfl, by simp⟩
  | @cons pos i is s s' s'' hmove _ ih =>
    obtain ⟨st, hstart, hend, hmoves⟩ := ih
    have hlater : ∀ n, pos < n → (if n ≤ pos then s else st n) = st n := fun n hn =>
      if_neg (by omega)
    refine ⟨fun n => if n ≤ pos then s else st n, by simp, ?_, fun k j hk => ?_⟩
    · refine (hlater _ (by simp)).trans ?_
      rw [← hend, List.length_cons, Nat.add_assoc, Nat.add_comm 1]
    · cases k with
      | zero =>
        obtain rfl : i = j := by simpa using hk
        dsimp only [Nat.add_zero]
        rw [if_pos (Nat.le_refl pos), hlater _ (Nat.lt_succ_self pos), hstart]
        exact hmove
      | succ k =>
        have hnext := hmoves k j (by simpa using hk)
        rw [show pos + (k + 1) = pos + 1 + k by omega]
        dsimp only
        rwa [hlater _ (by omega), hlater _ (by omega)]

/-- The states of a walk from the start, by position. -/
theorem exists_segmented {tokens : List Instruction} (h : Walk 0 tokens .start s) :
    ∃ st, Segmented tokens st ∧ st tokens.length = s := by
  obtain ⟨st, hstart, hend, hmoves⟩ := h.exists_states
  exact ⟨st, ⟨hstart, fun k i hk => by simpa using hmoves k i hk⟩, by simpa using hend⟩

end Walk

namespace Segmented

variable (ht : Segmented tokens st)

include ht

theorem exists_move (hpos : pos < tokens.length) :
    ∃ i, tokens[pos]? = some i ∧ Move pos i (st pos) (st (pos + 1)) :=
  ⟨tokens[pos], List.getElem?_eq_getElem hpos,
    ht.move pos _ (List.getElem?_eq_getElem hpos)⟩

/-- A run over instructions of a segment gives the state behind them. -/
theorem run_eq {is : List Instruction} (h : Run pos is s s') (hs : st pos = s)
    (hat : ∀ k i, is[k]? = some i → tokens[pos + k]? = some i) : st (pos + is.length) = s' := by
  induction h with
  | nil => exact hs
  | @cons pos i is s s' s'' hstep _ ih =>
    have hi : tokens[pos]? = some i := hat 0 i rfl
    have hnext : st (pos + 1) = s' := by
      have hmove := (ht.move pos i hi).of_step hstep.isStep
      rw [hs] at hmove
      exact hstep.unique hmove
    have hlater := ih hnext fun k j hk => by
      have hj := hat (k + 1) j hk
      rwa [show pos + (k + 1) = pos + 1 + k by omega] at hj
    rwa [Nat.add_assoc, Nat.add_comm 1] at hlater

theorem run_eq_of_split {is front rest : List Instruction} (h : Run front.length is s s')
    (hs : st front.length = s) (hsplit : tokens = front ++ (is ++ rest)) :
    st (front.length + is.length) = s' := by
  refine ht.run_eq h hs fun k i hi => ?_
  obtain ⟨hk, -⟩ := List.getElem?_eq_some_iff.1 hi
  rw [hsplit, List.getElem?_append_right (Nat.le_add_right _ _), Nat.add_sub_cancel_left,
    List.getElem?_append_left hk, hi]

/-- Where the code of a value begins, the stack is what lies below the value. From there on it is
higher as long as the value is on it. -/
theorem below (he : e ≤ tokens.length) (above : List Pending)
    (h : (st e).pending = above ++ v :: rest) :
    v.first < e ∧ st v.first = ⟨rest, (st e).done⟩ ∧
      ∀ q, v.first < q → q ≤ e → rest.length < (st q).pending.length := by
  induction e generalizing above rest v with
  | zero => simp [ht.start, State.start] at h
  | succ e ih =>
    have hheight : rest.length < (st (e + 1)).pending.length := by
      rw [h]
      simp
      omega
    obtain ⟨i, -, hmove⟩ := ht.exists_move (Nat.lt_of_succ_le he)
    have hkind : isStep i.kind = true := eq_true_of_ne_false fun hkind => by
      simp [(hmove.of_control hkind).2, State.start] at h
    have hstep := hmove.of_step hkind
    -- A value that was on the stack before the step stays where it is.
    have hcontinue : ∀ (above : List Pending) {w : Pending}, (st e).pending = above ++ w :: rest →
        (st (e + 1)).done = (st e).done → w.first < e + 1 ∧ st w.first = ⟨rest, (st (e + 1)).done⟩ ∧
          ∀ q, w.first < q → q ≤ e + 1 → rest.length < (st q).pending.length := by
      intro above w hbefore hdone
      obtain ⟨hlt, hst, hq⟩ := ih (by omega) above hbefore
      refine ⟨by omega, hdone ▸ hst, fun q hlow hhigh => ?_⟩
      rcases Nat.lt_or_eq_of_le hhigh with hlt | rfl
      · exact hq q hlow (by omega)
      · exact hheight
    rcases hop : operation? i.kind with _ | op
    · obtain ⟨w, node, -, -, hafter⟩ := hstep.of_statement hop
      simp [hafter] at h
    · obtain ⟨args, below, hbefore, -, hafter⟩ := hstep.of_operation hop
      rw [hafter] at h
      cases above with
      | nil =>
        obtain ⟨rfl, rfl⟩ := List.cons.inj h
        cases args with
        | nil =>
          refine ⟨Nat.lt_succ_self e, ?_, fun q hlow hhigh => ?_⟩
          · change st e = _
            rw [hafter]
            exact congrArg (State.mk · _) hbefore
          · obtain rfl : q = e + 1 := by
              change e < q at hlow
              omega
            exact hheight
        | cons a args =>
          exact hcontinue args.reverse (w := a) (by simp [hbefore]) (by rw [hafter])
      | cons top above =>
        obtain ⟨-, rfl⟩ := List.cons.inj h
        exact hcontinue (args.reverse ++ above) (by simp [hbefore]) (by rw [hafter])

/-- A value was computed by steps. -/
theorem step_of_below (he : e ≤ tokens.length) (above : List Pending)
    (h : (st e).pending = above ++ v :: rest) {q : Nat} (hlow : v.first ≤ q) (hhigh : q < e) :
    ∃ i, tokens[q]? = some i ∧ isStep i.kind = true := by
  obtain ⟨-, -, hheight⟩ := ht.below he above h
  obtain ⟨i, hi, hmove⟩ := ht.exists_move (show q < tokens.length by omega)
  refine ⟨i, hi, eq_true_of_ne_false fun hkind => ?_⟩
  have hq := hheight (q + 1) (by omega) (by omega)
  rw [(hmove.of_control hkind).2] at hq
  exact Nat.not_lt_zero _ hq

/-- Where the first of several operands ends it is on top of the stack, and the stack is higher from
there on. -/
theorem operand_on_top (hm : m ≤ tokens.length) {args : List Pending}
    (h : (st m).pending = (v :: args).reverse ++ rest) :
    firstOf m args ≤ m ∧ (st (firstOf m args)).pending = v :: rest ∧
      ∀ q, firstOf m args < q → q ≤ m → rest.length + 1 < (st q).pending.length := by
  cases args with
  | nil =>
    refine ⟨Nat.le_refl m, h, fun q hlt hle => ?_⟩
    change m < q at hlt
    omega
  | cons w args =>
    obtain ⟨hlt, hst, hq⟩ := ht.below (v := w) hm args.reverse (by simpa using h)
    exact ⟨Nat.le_of_lt hlt, congrArg State.pending hst, hq⟩

end Segmented

end ElispLift.StraightLine
