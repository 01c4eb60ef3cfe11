import ElispLift.Context
import ElispLift.Proofs.Grammar.Arity
import ElispLift.Proofs.StraightLine.Readings

/-!
# Operations of straight-line code

The rules that read an operation with its operands, and the heights of the stack between steps.
-/

namespace ElispLift.StraightLine

open Grammar

/-- A nonterminal that may cover any span. -/
def isUnchecked : Nonterminal → Bool
  | .exprStmt | .setqForm | .unaryExprStacked | .saveCurrentBufferForm => false
  | _ => true

theorem allowsSpan_of_unchecked {kind : Nonterminal} (h : isUnchecked kind = true)
    (context : Context) (p e : Nat) : context.allowsSpan kind p e = true := by
  unfold Context.allowsSpan
  split <;> simp_all [isUnchecked]

namespace Operation

/-- The symbol behind the operands. -/
def signSymbol (op : Operation) (kind : OpKind) : Symbol :=
  match op.sign with
  | some sign => .nonterminal sign
  | none => .terminal kind

/-- The operands and what is applied to them. -/
def symbols (op : Operation) (kind : OpKind) : List Symbol :=
  List.replicate op.arity (.nonterminal .expr) ++ [op.signSymbol kind]

end Operation

/-- The rules that read an operation, none of which is checked. -/
structure HasRules (rules : List Rule) (kind : OpKind) (op : Operation) : Prop where
  sign : ∀ sign ∈ op.sign, isUnchecked sign = true ∧ ⟨sign, [.terminal kind]⟩ ∈ rules
  form : ∀ form ∈ op.kind, isUnchecked form = true ∧ ⟨form, op.symbols kind⟩ ∈ rules ∧
    ⟨.expr, [.nonterminal form]⟩ ∈ rules
  bare : op.kind = none → op.sign = none ∧ op.arity = 0 ∧ ⟨.expr, [.terminal kind]⟩ ∈ rules

instance (rules : List Rule) (kind : OpKind) (op : Operation) :
    Decidable (HasRules rules kind op) :=
  decidable_of_iff
    ((∀ sign ∈ op.sign, isUnchecked sign = true ∧ ⟨sign, [.terminal kind]⟩ ∈ rules) ∧
      (∀ form ∈ op.kind, isUnchecked form = true ∧ ⟨form, op.symbols kind⟩ ∈ rules ∧
        ⟨.expr, [.nonterminal form]⟩ ∈ rules) ∧
      (op.kind = none → op.sign = none ∧ op.arity = 0 ∧ ⟨.expr, [.terminal kind]⟩ ∈ rules))
    ⟨fun h => ⟨h.1, h.2.1, h.2.2⟩, fun h => ⟨h.sign, h.form, h.bare⟩⟩

theorem hasRules_fixed : ∀ o ∈ Opcode.all, ∀ op ∈ operation? (.fixed o),
    HasRules base (.fixed o) op := by
  decide +kernel

theorem hasRules {is : List Instruction} {i : Instruction} {op : Operation} (hi : i ∈ is)
    (hop : operation? i.kind = some op) : HasRules (base ++ arityRules is) i.kind op := by
  rcases hkind : i.kind with o | ⟨family, count⟩
  · rw [hkind] at hop
    obtain ⟨hsign, hform, hbare⟩ := hasRules_fixed o (Opcode.mem_all o) op hop
    refine ⟨fun s hs => ?_, fun f hf => ?_, fun hnone => ?_⟩
    · obtain ⟨hfree, hrule⟩ := hsign s hs
      exact ⟨hfree, List.mem_append_left _ hrule⟩
    · obtain ⟨hfree, hrule, hpromotion⟩ := hform f hf
      exact ⟨hfree, List.mem_append_left _ hrule, List.mem_append_left _ hpromotion⟩
    · obtain ⟨hs, harity, hrule⟩ := hbare hnone
      exact ⟨hs, harity, List.mem_append_left _ hrule⟩
  · rw [hkind] at hop
    obtain rfl := Option.some.inj hop
    obtain ⟨hrule, hpromotion⟩ := mem_arityRules hi hkind
    refine ⟨by simp, fun f hf => ?_, by simp⟩
    obtain rfl : f = .counted family := by simpa using hf.symm
    exact ⟨rfl, List.mem_append_right _ hrule, List.mem_append_right _ hpromotion⟩

variable {st : Nat → State} {p : Nat} {op : Operation} {i : Instruction} {node : Node}

/-- Only expressions and counted operations have rules besides those of the grammar. -/
theorem mem_base_of_lhs {is : List Instruction} {r : Rule} (hmem : r ∈ base ++ arityRules is)
    (hexpr : r.lhs ≠ .expr) (hcounted : ∀ family, r.lhs ≠ .counted family) : r ∈ base := by
  rcases List.mem_append.1 hmem with hbase | hextra
  · exact hbase
  · obtain ⟨family, count, -, rfl | rfl⟩ := arityRulesAfter_mem hextra
    · exact (hcounted family rfl).elim
    · exact (hexpr rfl).elim

/-! ### Heights -/

theorem effect_fixed : ∀ o ∈ Opcode.all, ∀ op ∈ operation? (.fixed o),
    o.effect = .fixed op.arity 1 := by
  decide

theorem effect_of_operation {kind : OpKind} (hop : operation? kind = some op) :
    kind.effect = .fixed op.arity 1 := by
  cases kind with
  | fixed o => exact effect_fixed o (Opcode.mem_all o) op hop
  | counted family count =>
    obtain rfl := Option.some.inj hop
    rfl

theorem effect_of_statement {tree : Node} (h : statement? tree i = some node) :
    i.effect = .fixed 1 0 := by
  unfold statement? at h
  split at h
  next hkind => rw [Instruction.effect, hkind]; rfl
  next hkind => rw [Instruction.effect, hkind]; rfl
  next => cases h

/-- An instruction takes from the stack what its effect says, and leaves as much. -/
theorem Step.effect_eq {pos : Nat} {s s' : State} (h : Step pos i s s') :
    ∃ pops pushes, i.effect = .fixed pops pushes ∧ pops ≤ s.pending.length ∧
      s'.pending.length = s.pending.length - pops + pushes := by
  cases h with
  | value hop hargs =>
    refine ⟨_, _, effect_of_operation hop, ?_, ?_⟩ <;> simp [hargs]
  | statement hnode => exact ⟨_, _, effect_of_statement hnode, by simp, by simp⟩

theorem Step.net_eq {pos : Nat} {s s' : State} (h : Step pos i s s') :
    i.effect.net = (s'.pending.length : Int) - s.pending.length := by
  obtain ⟨pops, pushes, heffect, hpops, hheight⟩ := h.effect_eq
  rw [heffect, Effect.net, hheight]
  omega

theorem net_succ {tokens : List Instruction} {k : Nat} (hi : tokens[p + k]? = some i) :
    Context.net ⟨tokens.toArray⟩ p (p + (k + 1)) =
      Context.net ⟨tokens.toArray⟩ p (p + k) + i.effect.net := by
  have hnext : (tokens.drop p)[k]? = some i := by rw [List.getElem?_drop, hi]
  obtain ⟨hk, hget⟩ := List.getElem?_eq_some_iff.1 hnext
  simp only [Context.net, List.extract_toArray, List.extract_eq_take_drop,
    Nat.add_sub_cancel_left]
  rw [List.take_succ_eq_append_getElem hk, hget, Instruction.net_append]
  simp [Instruction.net]

/-- Where each instruction changes the stack as it says, so do all of them. -/
theorem net_of_heights {tokens : List Instruction} (k : Nat)
    (h : ∀ q, p ≤ q → q < p + k → ∃ i, tokens[q]? = some i ∧
      i.effect.net = ((st (q + 1)).pending.length : Int) - (st q).pending.length) :
    Context.net ⟨tokens.toArray⟩ p (p + k) =
      ((st (p + k)).pending.length : Int) - (st p).pending.length := by
  induction k with
  | zero => simp [Context.net, Instruction.net]
  | succ k ih =>
    obtain ⟨i, hi, hnet⟩ := h (p + k) (Nat.le_add_right _ _) (by omega)
    rw [net_succ hi, ih fun q hlow hhigh => h q hlow (by omega), hnet, ← Nat.add_assoc]
    omega

end ElispLift.StraightLine
