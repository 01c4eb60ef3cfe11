import ElispLift.Proofs.Segments.Annotation
import ElispLift.Proofs.StraightLine.Blocks
import ElispLift.Proofs.StraightLine.Nodes
import ElispLift.Proofs.StraightLine.Parsing
import ElispLift.Proofs.StraightLine.Rendering

/-!
# The round trip of straight-line programs

The code of a straight-line program is a single block that takes no value from outside, so nothing
is put among its instructions. They are parsed as the statements of the program and rendered as its
lines.
-/

namespace ElispLift.StraightLine

open Segmentation

variable {code is rest : List Instruction} {ret i : Instruction} {pos : Nat} {s s' : State}
  {tree node : Node} {trees : List Node}

/-! ### Counts -/

theorem arity_fixed : ∀ o ∈ Opcode.all, ∀ op ∈ operation? (.fixed o), op.arity ≤ 3 := by
  decide

theorem arity_of_operation {kind : OpKind} {op : Operation} (hop : operation? kind = some op)
    (hcount : ∀ family count, kind = .counted family count → count ≤ maxCount) :
    op.arity ≤ maxCount + 1 := by
  cases kind with
  | fixed o =>
    have hle := arity_fixed o (Opcode.mem_all o) op hop
    unfold maxCount
    omega
  | counted family count =>
    have hle := hcount family count rfl
    obtain rfl := Option.some.inj hop
    have hoperands : family.operands count ≤ count + 1 := by
      cases family <;> simp [Family.operands]
    dsimp only
    omega

mutual

/-- No operation of an expression counts more than a byte can hold. -/
theorem count_le : ∀ (e : Expr), e.WellFormed → ∀ x ∈ e.code, ∀ family count,
    x.1 = .counted family count → count ≤ maxCount
  | .constant operand, _, x, hx => by
    obtain rfl := List.mem_singleton.1 hx
    simp
  | .reference name, _, x, hx => by
    obtain rfl := List.mem_singleton.1 hx
    simp
  | .apply op args, hwf, x, hx => by
    rcases List.mem_append.1 hx with hx | hx
    · exact count_le_all args hwf.2 x hx
    · obtain rfl := List.mem_singleton.1 hx
      simp
  | .call callee args, hwf, x, hx => by
    rcases List.mem_append.1 hx with hx | hx
    · rcases List.mem_cons.1 hx with rfl | hx
      · simp
      · exact count_le_all args hwf.2.2 x hx
    · obtain rfl := List.mem_singleton.1 hx
      rintro family count he
      obtain ⟨-, rfl⟩ := OpKind.counted.inj he
      exact hwf.2.1
  | .form family args, hwf, x, hx => by
    rcases List.mem_append.1 hx with hx | hx
    · exact count_le_all args hwf.2.2 x hx
    · obtain rfl := List.mem_singleton.1 hx
      rintro family' count he
      obtain ⟨-, rfl⟩ := OpKind.counted.inj he
      exact hwf.2.1

theorem count_le_all : ∀ (es : List Expr), Expr.AllWellFormed es → ∀ x ∈ Expr.codeOf es,
    ∀ family count, x.1 = .counted family count → count ≤ maxCount
  | [], _, x, hx => by simp [Expr.codeOf] at hx
  | e :: es, hwf, x, hx => by
    rcases List.mem_append.1 hx with hx | hx
    · exact count_le e hwf.1 x hx
    · exact count_le_all es hwf.2 x hx

end

theorem Statement.count_le {s : Statement} (hwf : s.WellFormed) : ∀ x ∈ s.code, ∀ family count,
    x.1 = .counted family count → count ≤ maxCount := by
  intro x hx
  cases s with
  | setq name value =>
    rcases List.mem_append.1 hx with hx | hx
    · exact StraightLine.count_le value hwf x hx
    · obtain rfl := List.mem_singleton.1 hx
      simp
  | discard value =>
    rcases List.mem_append.1 hx with hx | hx
    · exact StraightLine.count_le value hwf x hx
    · obtain rfl := List.mem_singleton.1 hx
      simp

theorem count_le_statements {statements : List Statement} (hwf : ∀ s ∈ statements, s.WellFormed) :
    ∀ x ∈ (statements.map (·.code)).flatten, ∀ family count,
      x.1 = .counted family count → count ≤ maxCount := by
  intro x hx
  obtain ⟨part, hpart, hx⟩ := List.mem_flatten.1 hx
  obtain ⟨s, hs, rfl⟩ := List.mem_map.1 hpart
  exact Statement.count_le (hwf s hs) x hx

theorem Program.count_le {p : Program} (hwf : p.WellFormed) : ∀ x ∈ p.code, ∀ family count,
    x.1 = .counted family count → count ≤ maxCount := by
  intro x hx
  rw [Program.code, Program.parts, List.flatten_append, List.flatten_singleton] at hx
  rcases List.mem_append.1 hx with hx | hx
  · rcases List.mem_append.1 hx with hx | hx
    · exact count_le_statements hwf.1 x hx
    · exact StraightLine.count_le p.value hwf.2 x hx
  · obtain rfl := List.mem_singleton.1 hx
    simp

theorem exists_spelled {ops : List (OpKind × Option Operand)} (h : List.Forall₂ Spells is ops) :
    ∀ i ∈ is, ∃ x ∈ ops, Spells i x := by
  induction h with
  | nil => simp
  | cons hspells _ ih =>
    refine List.forall_mem_cons.2 ⟨⟨_, List.mem_cons_self, hspells⟩, fun i hi => ?_⟩
    obtain ⟨x, hx, hi⟩ := ih i hi
    exact ⟨x, List.mem_cons_of_mem _ hx, hi⟩

/-- Instructions take no more operands than the operations that they spell. -/
theorem countsBounded_of_spells {ops : List (OpKind × Option Operand)}
    (hcount : ∀ x ∈ ops, ∀ family count, x.1 = .counted family count → count ≤ maxCount)
    (h : List.Forall₂ Spells is ops) : CountsBounded is := by
  intro i hi op hop
  obtain ⟨x, hx, hspells⟩ := exists_spelled h i hi
  exact arity_of_operation hop fun family count hkind =>
    hcount x hx family count (hspells.1 ▸ hkind)

/-- Markers take no operands. -/
theorem CountsBounded.annotated {seg : Segmentation} (h : CountsBounded is)
    (hseg : ofInstructions is = .ok seg) : CountsBounded seg.annotated := by
  intro i hi op hop
  rcases mem_annotateFrom hi with hi | ⟨hmarker, -⟩
  · exact h i ((ofInstructions_eq_ok hseg).2.1 ▸ hi) op hop
  · rw [isMarker, Bool.or_eq_true, Instruction.isOp_iff, Instruction.isOp_iff] at hmarker
    rcases hmarker with hkind | hkind <;> rw [hkind] at hop <;> cases hop

/-! ### Programs -/

/-- Instructions that spell the code of a straight-line program get no markers. They are parsed as a
routine with one statement node for each statement and for the value, over just their code, and the
routine is rendered as the Lisp text of the program, line by line. -/
theorem round_trip {p : Program} {is : List Instruction} (hwf : p.WellFormed) (h : Compiled p is)
    (indent : String) :
    ∃ seg tree, ofInstructions is = .ok seg ∧ seg.annotated = is ∧
      parse .fnBody (Grammar.arityRules is) is = .ok tree ∧
      List.Forall₂ (fun node part => List.Forall₂ Spells node.tokens part)
        (statementNodes tree) p.parts ∧
      tree.render indent =
        .ok ⟨Text.spaces indent.utf8ByteSize ++ ("\n" ++ indent).intercalate p.lines, []⟩ := by
  obtain ⟨code, ret, nodes, first, tree, rfl, hret, hnodes, htree, hrun⟩ :=
    run_program hwf h.spells
  obtain ⟨seg, hseg, hannotated⟩ :=
    annotated_of_feeds hrun.stays hret (hrun.feeds (feeds_return hret)) h.ascending
  obtain ⟨st, hr⟩ := exists_returned hrun hret
  have hparse := parse_code hr (countsBounded_of_spells (Program.count_le hwf) h.spells)
  have hstatements := Program.isStatement hwf hnodes htree
  refine ⟨seg, _, hseg, hannotated, hparse, ?_, render_routine ret hwf hnodes htree indent⟩
  rw [statementNodes_routine hstatements]
  exact hstatements.imp fun _ _ hnode => hnode.spells

/-- A variable is set to the value of a call, the point is moved, and a pair is returned. -/
def setMoveAndPair : Program where
  statements :=
    [.setq (.symbol "x") (.call "f" [.constant (.symbol "y")]),
      .discard (.apply .forwardLine [.reference (.symbol "x")])]
  value := .apply .cons [.reference (.symbol "x"), .form .list [.constant (.int 5)]]

def setMoveAndPairCode : List Instruction :=
  [⟨.fixed .constant, some (.symbol "f"), 0, none⟩, ⟨.fixed .constant, some (.symbol "y"), 1, none⟩,
    ⟨.counted .call 1, none, 2, none⟩, ⟨.fixed .varset, some (.symbol "x"), 3, none⟩,
    ⟨.fixed .varref, some (.symbol "x"), 4, none⟩, ⟨.fixed .forwardLine, none, 5, none⟩,
    ⟨.fixed .discard, none, 6, none⟩, ⟨.fixed .varref, some (.symbol "x"), 7, none⟩,
    ⟨.fixed .constant, some (.int 5), 8, none⟩, ⟨.counted .list 1, none, 9, none⟩,
    ⟨.fixed .cons, none, 10, none⟩, ⟨.fixed .ret, none, 11, none⟩]

theorem wellFormed_setMoveAndPair : setMoveAndPair.WellFormed := by
  have hforward : arity? Opcode.forwardLine.opClass = some 1 := rfl
  have hcons : arity? Opcode.cons.opClass = some 2 := rfl
  have hlist : Family.list ∈ [Family.list, .concat, .insert] := by decide
  have hone : 1 ≤ maxCount := by decide
  have hx : (Operand.symbol "x").toText ≠ "" := by decide
  have hy : (Operand.symbol "y").toText ≠ "" := by decide
  have hfive : (Operand.int 5).toText ≠ "" := by decide
  refine ⟨List.forall_mem_cons.2 ⟨?_, List.forall_mem_cons.2 ⟨?_, by simp⟩⟩, ?_⟩
  · exact ⟨by decide, hone, hy, trivial⟩
  · exact ⟨hforward, hx, trivial⟩
  · exact ⟨hcons, hx, ⟨hlist, hone, hfive, trivial⟩, trivial⟩

theorem compiled_setMoveAndPair : Compiled setMoveAndPair setMoveAndPairCode where
  spells := by
    simp [setMoveAndPair, setMoveAndPairCode, Program.code, Program.parts, Statement.code,
      Expr.code, Expr.codeOf, Spells]
  ascending := by decide

theorem round_trip_setMoveAndPair :
    ∃ seg tree, ofInstructions setMoveAndPairCode = .ok seg ∧
      seg.annotated = setMoveAndPairCode ∧
      parse .fnBody (Grammar.arityRules setMoveAndPairCode) setMoveAndPairCode = .ok tree ∧
      (statementNodes tree).length = 3 ∧
      tree.render "" = .ok ⟨"(setq x (f 'y))\n(forward-line x)\n(cons x (list 5))", []⟩ := by
  have htext : Text.spaces "".utf8ByteSize ++ ("\n" ++ "").intercalate setMoveAndPair.lines =
      "(setq x (f 'y))\n(forward-line x)\n(cons x (list 5))" := rfl
  obtain ⟨seg, tree, hseg, hannotated, hparse, hparts, hrender⟩ :=
    round_trip wellFormed_setMoveAndPair compiled_setMoveAndPair ""
  rw [htext] at hrender
  exact ⟨seg, tree, hseg, hannotated, hparse, hparts.length_eq, hrender⟩

end ElispLift.StraightLine
