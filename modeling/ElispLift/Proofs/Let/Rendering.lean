import ElispLift.Proofs.Let.Form
import ElispLift.Proofs.StraightLine.Rendering

/-!
# Rendering bindings

A form that binds variables is rendered with its bindings below one another, at the column behind
the parenthesis that opens them, and its body on lines that are indented.
-/

namespace ElispLift.Let

open StraightLine Rendering

variable {render : Node → Rendering Unit} {node varlist body tree : Node} {texts : List String}
  {indent t : String} {nodes : List Node} {b : Binding} {f : Form}

/-- The bindings are aligned behind the opening parenthesis. -/
theorem opens_letStar (hvarlist : node.child? 0 = some varlist) (hbody : node.child? 1 = some body)
    (hbindings : List.Forall₂ (fun node s => Writes false s (render node)) varlist.children texts)
    (ht : Lays (indent ++ "  ") t (render body)) :
    Opens indent (headOf varlist.children.length ++
      ("\n" ++ Text.spaces (indent.utf8ByteSize +
        (headOf varlist.children.length).utf8ByteSize)).intercalate texts ++ ")" ++
      "\n" ++ (indent ++ "  ") ++ t ++ ")") (letStar render node) := by
  generalize hword : (if varlist.children.length = 1 then "let " else "let* ") = word
  have hhead : headOf varlist.children.length = "(" ++ (word ++ "(") := by rw [headOf, hword]
  have hline : '\n' ∉ word.toList ∧ '\n' ∉ ("(" : String).toList := by
    rw [← hword]
    split <;> decide
  have hcolumn : indent.utf8ByteSize + (headOf varlist.children.length).utf8ByteSize =
      indent.utf8ByteSize + 1 + word.utf8ByteSize + ("(" : String).utf8ByteSize := by
    rw [hhead, String.utf8ByteSize_append, String.utf8ByteSize_append]
    change _ + (1 + _) = _
    omega
  have hrun : letStar render node = (do
      openForm
      write word
      write "("
      (do align; eachOnLine render varlist.children; closeForm)
      lastPart (child render node 1)) := by
    simp only [letStar, hvarlist, hword, bind_assoc]
  have hlast : Lays (indent ++ "  ") t (child render node 1) := by rwa [child, hbody]
  have hlist : LaysAt (indent.utf8ByteSize + 1 + word.utf8ByteSize + ("(" : String).utf8ByteSize)
      _ _ _ := laysAt_eachOnLine (hbindings.imp fun _ _ h => (h.lays _).at _)
  have hopens := opens_form ((((Writes.write word).lays indent).at _).append hline.1
    ((((Writes.write "(").lays indent).at _).append hline.2
      (hlist.aligned.append_lays (lays_lastPart hlast))))
  rw [hrun, hcolumn, hhead]
  simpa only [String.append_assoc] using hopens

/-- A binding has a line of its own. -/
theorem Binding.Shows.prints (hwf : b.value.WellFormed) (h : b.Shows node) :
    Prints false b.lisp node := by
  obtain ⟨i, tree, hi, htree, rfl⟩ := h
  refine prints_of_tree fun levels hlevels => ?_
  have hvalue := prints_expr b.value hwf htree levels (Nat.le_trans (Nat.le_add_right _ _) hlevels)
  have hname : Node.nameText (some (.token i)) = b.name := by
    simp [Node.nameText, Node.token?, Instruction.operandText?, hi.2 _ rfl, Operand.text?]
  have hwrites : Writes false _ _ :=
    (Writes.write ("(" ++ b.name ++ " ")).append (hvalue.append (.write ")"))
  rw [Binding.lisp, @String.append_assoc _ b.value.lisp]
  simpa only [Rendering.tree, binding, Node.plain, Node.children, List.getLast?_cons_cons,
    List.getLast?_singleton, hname, child, Node.child?, List.getElem?_cons_zero] using hwrites

theorem allPrint_bindings {bs : List Binding} (hwf : ∀ b ∈ bs, b.value.WellFormed)
    (h : List.Forall₂ Binding.Shows bs nodes) : AllPrint nodes (bs.map (·.lisp)) := by
  induction h with
  | nil => exact .nil
  | cons hnode _ ih =>
    exact .cons (hnode.prints (hwf _ (by simp))) (ih fun b hb => hwf b (List.mem_cons_of_mem _ hb))

/-- The form is rendered as its text. -/
theorem printsLine_form {l : Parts} (hwf : f.WellFormed)
    (hbindings : List.Forall₂ Binding.Shows f.bindings l.bindings)
    (hstatements : List.Forall₂ Statement.Shows f.body.statements l.statements)
    (hvalue : f.body.value.Shows l.result.tree) (indent : String) :
    PrintsLine indent (f.lisp indent) l.form := by
  refine printsLine_of_tree fun levels hlevels => ?_
  obtain ⟨-, hvalues, hbody⟩ := hwf
  simp only [Node.sizeSum, Node.plain, Node.size] at hlevels
  have hlist := (allPrint_bindings hvalues hbindings).writes
    (show Node.sizeSum l.bindings ≤ levels by omega)
  have hlines := lays_body_of_lines (printLines_program hbody hstatements hvalue (indent ++ "  "))
    (show _ ≤ levels by omega)
  rw [Program.lines_filter hbody] at hlines
  have hopens : Opens indent _ (letStar (Rendering.node levels) l.form) :=
    opens_letStar rfl rfl hlist hlines
  rwa [show (Node.plain .varlist l.bindings).children.length = f.bindings.length from
    hbindings.length_eq.symm] at hopens

/-- The routine is rendered as the form. -/
theorem render_routine {l : Parts} (hwf : f.WellFormed)
    (hbindings : List.Forall₂ Binding.Shows f.bindings l.bindings)
    (hstatements : List.Forall₂ Statement.Shows f.body.statements l.statements)
    (hvalue : f.body.value.Shows l.result.tree) (indent : String) :
    l.routine.render indent = .ok ⟨Text.spaces indent.utf8ByteSize ++ f.lisp indent, []⟩ := by
  have hline := printsLine_kept (printsLine_form hwf hbindings hstatements hvalue indent)
  have hfilter : [f.lisp indent].filter (!·.isEmpty) = [f.lisp indent] := by
    simp [Form.lisp, headOf]
  have hrender := render_lines l.ret (.cons hline .nil) hfilter
  rwa [String.intercalate_singleton] at hrender

end ElispLift.Let
