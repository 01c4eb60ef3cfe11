import ElispLift.Proofs.Loop.Readings
import ElispLift.Proofs.Segments.Annotation
import ElispLift.Proofs.StraightLine.RoundTrip

/-!
# Loops behind statements

Statements, and a loop whose condition is an expression and whose body is statements. The code tests
the condition at a label that the body jumps back to, and leaves the loop for a label behind it with
the value that ended it. The labels get a marker each, and the return one for that value. A single
assignment in front of the loop is read as its start value.
-/

namespace ElispLift.Loop

open StraightLine Segmentation

/-- Statements, and a loop with the names of the labels in front of it and behind it. -/
structure Form where
  statements : List Statement
  condition : Expr
  body : List Statement
  entry : String
  exit : String

/-- The text of a loop, with its body on lines of their own. -/
def loopLisp (indent : String) (condition : Expr) (body : List Statement) : String :=
  "(" ++ ("while " ++ condition.lisp) ++ "\n" ++ (indent ++ "  ") ++
    ("\n" ++ (indent ++ "  ")).intercalate (body.map (·.lisp)) ++ ")"

namespace Form

structure WellFormed (f : Form) : Prop where
  statements : ∀ s ∈ f.statements, s.WellFormed
  condition : f.condition.WellFormed
  body : ∀ s ∈ f.body, s.WellFormed
  body_ne_nil : f.body ≠ []
  entry_ne_exit : f.entry ≠ f.exit

def code (f : Form) : List (OpKind × Option Operand) :=
  (f.statements.map (·.code)).flatten ++ (.fixed .label, some (.symbol f.entry)) ::
    (f.condition.code ++ (.fixed .gotoIfNilElsePop, some (.symbol f.exit)) ::
      ((f.body.map (·.code)).flatten ++ [(.fixed .goto, some (.symbol f.entry)),
        (.fixed .label, some (.symbol f.exit)), (.fixed .ret, none)]))

/-- The statements and the loop, one below the other. -/
def lines (indent : String) (f : Form) : List String :=
  f.statements.map (·.lisp) ++ [loopLisp indent f.condition f.body]

def lisp (indent : String) (f : Form) : String := ("\n" ++ indent).intercalate (f.lines indent)

/-- Whether a single assignment stands in front of the loop. -/
def isStarted (f : Form) : Bool :=
  match f.statements with
  | [.setq _ _] => true
  | _ => false

/-- The form as it is written: a single assignment in front of the loop is left out. -/
def written (f : Form) : Form :=
  { f with statements := if f.isStarted then [] else f.statements }

end Form

/-- Instructions that spell the code of a form, at ascending offsets. A label may share the offset
of the instruction behind it. -/
structure Compiled (f : Form) (is : List Instruction) : Prop where
  spells : List.Forall₂ Spells is f.code
  ordered : Ordered is

/-- The instructions of a form. -/
structure Pieces where
  front : List Instruction
  test : List Instruction
  body : List Instruction
  entry : Instruction
  branch : Instruction
  back : Instruction
  exit : Instruction
  ret : Instruction

namespace Pieces

def all (c : Pieces) : List Instruction :=
  c.front ++ c.entry :: (c.test ++ c.branch :: (c.body ++ [c.back, c.exit, c.ret]))

/-- The instructions with their markers. -/
def marked (c : Pieces) (arrive leave access : Instruction) : List Instruction :=
  c.front ++ arrive :: c.entry ::
    (c.test ++ c.branch :: (c.body ++ [c.back, leave, c.exit, access, c.ret]))

/-- The parts spell the parts of the code of the form. -/
structure Spell (c : Pieces) (f : Form) : Prop where
  front : List.Forall₂ Spells c.front (f.statements.map (·.code)).flatten
  entry : Spells c.entry (.fixed .label, some (.symbol f.entry))
  test : List.Forall₂ Spells c.test f.condition.code
  branch : Spells c.branch (.fixed .gotoIfNilElsePop, some (.symbol f.exit))
  body : List.Forall₂ Spells c.body (f.body.map (·.code)).flatten
  back : Spells c.back (.fixed .goto, some (.symbol f.entry))
  exit : Spells c.exit (.fixed .label, some (.symbol f.exit))
  ret : c.ret.kind = .fixed .ret

end Pieces

variable {f : Form} {c : Pieces} {is : List Instruction} {arrive leave access i : Instruction}
  {seg : Segmentation} {st : Nat → State}

/-! ### Spelling -/

theorem exists_pieces (h : List.Forall₂ Spells is f.code) :
    ∃ c : Pieces, is = c.all ∧ c.Spell f := by
  obtain ⟨front, loop, rfl, hfront, hloop⟩ := spells_append h
  obtain ⟨entry, inner, hentry, hinner, rfl⟩ := List.forall₂_cons_right_iff.1 hloop
  obtain ⟨test, tail, rfl, htest, htail⟩ := spells_append hinner
  obtain ⟨branch, rest, hbranch, hrest, rfl⟩ := List.forall₂_cons_right_iff.1 htail
  obtain ⟨body, ends, rfl, hbody, hends⟩ := spells_append hrest
  cases hends with
  | cons hback hends =>
    cases hends with
    | cons hexit hends =>
      cases hends with
      | cons hret hends =>
        cases hends
        exact ⟨⟨front, test, body, entry, branch, _, _, _⟩, rfl,
          hfront, hentry, htest, hbranch, hbody, hback, hexit, hret.1⟩

section

variable (hwf : f.WellFormed) (h : c.Spell f)

include hwf h

/-- The statements, the condition and the body are steps. -/
theorem Pieces.Spell.steps : (∀ i ∈ c.front, isStep i.kind = true) ∧
    (∀ i ∈ c.test, isStep i.kind = true) ∧ ∀ i ∈ c.body, isStep i.kind = true := by
  obtain ⟨_, -, hfront⟩ := run_statements f.statements 0 [] hwf.statements h.front
  obtain ⟨_, -, hbody⟩ := run_statements f.body 0 [] hwf.body h.body
  exact ⟨hfront.isStep, isStep_of_spells hwf.condition h.test, hbody.isStep⟩

/-- Both jumps have a label of their own. -/
theorem Pieces.Spell.linked (hordered : Ordered c.all) : Linked c.all := by
  obtain ⟨hfront, htest, hbody⟩ := h.steps hwf
  obtain ⟨hlabels, hjumps⟩ := filter_of_isStep hfront
  obtain ⟨hlabels', hjumps'⟩ := filter_of_isStep htest
  obtain ⟨hlabels'', hjumps''⟩ := filter_of_isStep hbody
  have hentry : c.entry.isOp .label = true ∧ c.entry.isJump = false := signs_of_kind h.entry.1
  have hbranch : c.branch.isOp .label = false ∧ c.branch.isJump = true := signs_of_kind h.branch.1
  have hback : c.back.isOp .label = false ∧ c.back.isJump = true := signs_of_kind h.back.1
  have hexit : c.exit.isOp .label = true ∧ c.exit.isJump = false := signs_of_kind h.exit.1
  have hret : c.ret.isOp .label = false ∧ c.ret.isJump = false := signs_of_kind h.ret
  have hbetween : ∀ i ∈ c.test ++ c.branch :: (c.body ++ [c.back]), i.isOp .label = false := by
    intro i hi
    simp only [List.mem_append, List.mem_cons, List.not_mem_nil, or_false] at hi
    rcases hi with hi | rfl | hi | rfl
    · exact (signs_of_isStep (htest i hi)).1
    · exact hbranch.1
    · exact (signs_of_isStep (hbody i hi)).1
    · exact hback.1
  have hsplit : c.all = c.front ++ c.entry ::
      ((c.test ++ c.branch :: (c.body ++ [c.back])) ++ [c.exit, c.ret]) := by simp [Pieces.all]
  refine ⟨hordered, ?_, ?_, ?_⟩
  · rw [hsplit]
    refine apart_append (fun i hi => (signs_of_isStep (hfront i hi)).1)
      (List.isChain_cons.2 ⟨fun i hi _ => ?_, ?_⟩)
    · rw [List.head?_append_of_ne_nil _ (by simp)] at hi
      exact hbetween i (List.mem_of_head? hi)
    · exact apart_append hbetween (by simp [hret.1])
  · simp [Pieces.all, hlabels, hlabels', hlabels'', hentry.1, hbranch.1, hback.1, hexit.1, hret.1,
      (labelText_of_spells h.entry).1, (labelText_of_spells h.exit).1, hwf.entry_ne_exit]
  · simp only [Pieces.all, List.filter_append, List.filter_cons, hlabels, hlabels', hlabels'',
      hjumps, hjumps', hjumps'', hentry, hbranch, hback, hexit, hret]
    simp [(labelText_of_spells h.entry).1, (labelText_of_spells h.exit).1,
      (labelText_of_spells h.branch).1, (labelText_of_spells h.back).1, List.Perm.swap]

/-- The labels get a marker each, and the return gets one for the value that ended the loop. -/
theorem Pieces.Spell.annotated_eq (hordered : Ordered c.all)
    (hseg : ofInstructions c.all = .ok seg) :
    ∃ source source', seg.annotated = c.marked (comeFrom source c.entry.offset)
      (comeFrom source' c.exit.offset) (stackAccess 1 c.ret.offset) := by
  have hl := h.linked hwf hordered
  obtain ⟨nodes, -, hfront⟩ := run_statements f.statements 0 [] hwf.statements h.front
  obtain ⟨tree, -, htest⟩ := run_expr f.condition 0 [] [] hwf.condition h.test
  obtain ⟨nodes', -, hbody⟩ := run_statements f.body 0 [] hwf.body h.body
  have hjump : c.branch.isJump = true ∧ c.back.isJump = true :=
    ⟨(signs_of_kind h.branch.1).2, (signs_of_kind h.back.1).2⟩
  have hnone : (∀ depth, (access depth c.branch).1 = []) ∧ (access 0 c.back).1 = [] := by
    simp only [access, Instruction.effect, h.branch.1, h.back.1]
    exact ⟨fun _ => rfl, rfl⟩
  have hreturns : access 0 c.ret = ([stackAccess 1 c.ret.offset], 0) := by
    rw [access, Instruction.effect, h.ret]
    rfl
  have hfork : c.all = c.front ++ [c.entry] ++
      (c.test ++ c.branch :: (c.body ++ [c.back, c.exit, c.ret])) := by simp [Pieces.all]
  have hturn : c.all = c.front ++ [c.entry] ++ c.test ++ [c.branch] ++
      (c.body ++ c.back :: [c.exit, c.ret]) := by simp [Pieces.all]
  have hexit : c.all = c.front ++ [c.entry] ++ c.test ++ [c.branch] ++ c.body ++ [c.back] ++
      c.exit :: [c.ret] := by simp [Pieces.all]
  have hret : c.all = c.front ++ [c.entry] ++ c.test ++ [c.branch] ++ c.body ++ [c.back] ++
      [c.exit] ++ [c.ret] := by simp [Pieces.all]
  obtain ⟨source, harrive⟩ : ∃ source, seg.annotateBehind c.front 0 (c.entry :: _) = _ :=
    hl.annotateBehind_label hseg rfl (Instruction.isOp_iff.2 h.entry.1)
  obtain ⟨source', hleave⟩ : ∃ source, seg.annotateBehind _ 0 (c.exit :: [c.ret]) = _ :=
    hl.annotateBehind_label hseg hexit (Instruction.isOp_iff.2 h.exit.1)
  have hstatements : seg.annotateBehind [] 0 c.all = c.front ++ seg.annotateBehind c.front 0 _ :=
    annotateBehind_run hl hseg hfront (List.nil_append _).symm fun _ => rfl
  have hinstructions : seg.annotated = seg.annotateBehind [] 0 c.all := by
    rw [annotated, (ofInstructions_eq_ok hseg).2.1]
    rfl
  refine ⟨source, source', ?_⟩
  rw [hinstructions, hstatements, harrive,
    annotateBehind_toJump hl hseg htest hfork hjump.1 (hnone.1 _),
    annotateBehind_toJump hl hseg hbody hturn hjump.2 hnone.2, hleave,
    hl.annotateBehind_other hseg hret (signs_of_kind h.ret).1 fun _ => rfl, hreturns]
  rfl

end

end ElispLift.Loop
