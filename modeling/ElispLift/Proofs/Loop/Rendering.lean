import ElispLift.Proofs.Loop.Layouts
import ElispLift.Proofs.StraightLine.Rendering

/-!
# Rendering loops

A loop is rendered with its condition behind its name and its body on lines of their own, the same
with a start value and without one. A start value is put on the stack for the condition and the
body, and is not written.
-/

namespace ElispLift.Loop

open StraightLine Rendering

variable {f : Form} {l : Parts} {condition : Expr} {statements : List Statement} {test : Node}
  {nodes : List Node} {indent : String}

theorem Form.Opening.written {start : Option Node} (h : f.Opening start nodes) :
    List.Forall₂ Statement.Shows f.written.statements nodes := by
  cases h with
  | started h => simp [Form.written, Form.isStarted, h]
  | behind h hnodes => simpa [Form.written, h] using hnodes

theorem Form.WellFormed.written (hwf : f.WellFormed) :
    ∀ s ∈ f.written.statements, s.WellFormed := by
  intro s hs
  rw [Form.written] at hs
  dsimp only at hs
  split at hs
  · cases hs
  · exact hwf.statements s hs

theorem lays_body (h : List.Forall₂ Statement.Shows statements nodes)
    (hwf : ∀ s ∈ statements, s.WellFormed) {levels : Nat}
    (hlevels : Node.sizeSum nodes + 2 ≤ levels) :
    Lays indent (("\n" ++ indent).intercalate (statements.map (·.lisp)))
      (Rendering.node levels (.plain .body [.plain .exprs nodes])) := by
  have hlays := lays_body_of_lines (printLines h hwf indent) hlevels
  rwa [filter_lisp hwf] at hlays

section

variable (hwf : f.WellFormed) (h : f.Shows l)

include hwf h

theorem printsLine_loop (indent : String) :
    PrintsLine indent (loopLisp indent f.condition f.body) l.loop := by
  refine printsLine_of_tree fun levels hlevels => ?_
  simp only [Parts.parts, Node.sizeSum, Node.plain, Node.size] at hlevels
  have htest := prints_expr f.condition hwf.condition h.condition levels (by omega)
  have hhead := (Writes.write "while ").append (htest.append .nothing)
  rw [String.append_empty] at hhead
  exact opens_block rfl (hhead.lays indent) (lays_body h.body hwf.body (by omega))

/-- The start value of a loop is not written, whatever it is. -/
theorem printsLine_startedLoop (start : Node) (indent : String) :
    PrintsLine indent (loopLisp indent f.condition f.body) (l.startedLoop start) := by
  refine printsLine_of_tree fun levels hlevels => ?_
  simp only [Parts.parts, Node.sizeSum, Node.plain, Node.size] at hlevels
  have htest := prints_expr f.condition hwf.condition h.condition levels (by omega)
  have hhead := ((Writes.write "while ").lays indent).append
    ((lays_push (.node start) indent).append ((htest.append .nothing).lays indent))
  rw [String.empty_append, String.append_empty] at hhead
  exact opens_block rfl hhead (lays_body h.body hwf.body (by omega))

theorem printsLine_form (indent : String) :
    PrintsLine indent (loopLisp indent f.condition f.body) l.form := by
  rw [Parts.form]
  cases l.start with
  | none => exact printsLine_loop hwf h indent
  | some start => exact printsLine_startedLoop hwf h start indent

/-- The routine is rendered as the loop, behind the statements that are not its start value. -/
theorem render_routine (indent : String) : l.routine.render indent =
    .ok ⟨Text.spaces indent.utf8ByteSize ++ f.written.lisp indent, []⟩ := by
  have hmarkers : PrintsLine indent "" (.plain .optComeFroms []) :=
    (prints_nothing rfl fun _ _ => rfl).line indent
  have hlabel : PrintsLine indent "" (.plain .optLabel []) :=
    (prints_nothing rfl fun _ _ => rfl).line indent
  have hreturn : PrintsLine indent "" (.plain .stackedReturn [.token l.access, .token l.ret]) :=
    (prints_nothing rfl fun _ _ => rfl).line indent
  have hbody : PrintLines indent (l.statements ++ [kept (.plain .expr [l.form])])
      (f.written.lines indent) :=
    List.rel_append (printLines h.opening.written hwf.written indent)
      (.cons (printsLine_kept (printsLine_form hwf h indent)) .nil)
  have hlines :=
    render_body (List.rel_append hbody (.cons hmarkers (.cons hlabel (.cons hreturn .nil))))
  have hfilter : (f.written.lines indent ++ ["", "", ""]).filter (!·.isEmpty) =
      f.written.lines indent := by
    rw [Form.lines, List.filter_append, List.filter_append, filter_lisp hwf.written]
    simp [loopLisp]
  rwa [hfilter] at hlines

end

end ElispLift.Loop
