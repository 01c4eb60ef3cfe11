import ElispLift.Proofs.Source.Writing
import ElispLift.Proofs.StraightLine.Stack

/-!
# Rendering straight-line programs

The tree of an expression is rendered as the expression's own text, and the tree of a program as its
statements and its value, one on a line.
-/

namespace ElispLift.StraightLine

open Rendering

variable {unquoted : Bool} {s t : String} {tree node : Node} {children trees : List Node}
  {kind : Nonterminal} {i : Instruction} {render : Node → Rendering Unit}

/-- With enough levels, the rendering of a node writes a text. -/
def Prints (unquoted : Bool) (s : String) (node : Node) : Prop :=
  ∀ levels, node.size ≤ levels → Writes unquoted s (Rendering.node levels node)

theorem prints_of_tree (h : ∀ levels, Node.sizeSum children ≤ levels →
    Writes unquoted s (Rendering.tree (Rendering.node levels) kind (.plain kind children))) :
    Prints unquoted s (.plain kind children) := by
  intro levels hlevels
  have hsize : Node.sizeSum children + 1 ≤ levels := hlevels
  have hone : 1 ≤ levels := Nat.le_trans (Nat.succ_le_succ (Nat.zero_le _)) hsize
  obtain ⟨levels, rfl⟩ := Nat.exists_eq_add_of_le' hone
  exact h levels (by omega)

theorem prints_of_instruction (h : ∀ render, Yields unquoted s (instructionText render i)) :
    Prints unquoted s (.token i) := by
  intro levels hlevels
  have hsize : 1 ≤ levels := hlevels
  obtain ⟨levels, rfl⟩ := Nat.exists_eq_add_of_le' hsize
  exact (h _).bind (.write s)

/-- A node that stands around another one only. -/
theorem prints_around
    (hkind : ∀ render node, Rendering.tree render kind node = each render node.children)
    (h : Prints unquoted s node) : Prints unquoted s (.plain kind [node]) := by
  refine prints_of_tree fun levels hlevels => ?_
  rw [hkind]
  exact writes_each (h levels hlevels)

@[simp] theorem sizeSum_append (a b : List Node) :
    Node.sizeSum (a ++ b) = Node.sizeSum a + Node.sizeSum b := by
  induction a with
  | nil => simp [Node.sizeSum]
  | cons node a ih => simp [Node.sizeSum, ih, Nat.add_assoc]

/-- Nodes print texts. -/
def AllPrint (trees : List Node) (texts : List String) : Prop :=
  List.Forall₂ (fun node s => Prints false s node) trees texts

theorem AllPrint.writes {texts : List String} (h : AllPrint trees texts) {levels : Nat}
    (hlevels : Node.sizeSum trees ≤ levels) :
    List.Forall₂ (fun node s => Writes false s (Rendering.node levels node)) trees texts := by
  induction h with
  | nil => exact .nil
  | @cons node text trees texts hnode _ ih =>
    rw [Node.sizeSum] at hlevels
    exact .cons (hnode levels (by omega)) (ih (by omega))

/-! ### Instructions -/

theorem prints_constant {operand : Operand} (h : Spells i (.fixed .constant, some operand)) :
    Prints unquoted (constantText unquoted (some operand)) (.token i) := by
  refine prints_of_instruction fun render => ⟨fun p hp => ?_⟩
  rw [instructionText, h.1, h.2 operand rfl]
  subst hp
  rfl

theorem prints_reference {name : Operand} (h : Spells i (.fixed .varref, some name)) :
    Prints unquoted name.toText (.token i) := by
  refine prints_of_instruction fun render => ⟨fun p _ => ?_⟩
  rw [instructionText, h.1, h.2 name rfl]
  rfl

theorem prints_operator {op : Opcode} {n : Nat} (hi : i.kind = .fixed op)
    (hop : arity? op.opClass = some n) : Prints unquoted op.lisp (.token i) := by
  refine prints_of_instruction fun render => ⟨fun p _ => ?_⟩
  rw [instructionText, hi]
  cases op <;> first
    | rfl
    | cases hop

/-! ### Expressions -/

theorem lispOf_eq (es : List Expr) : Expr.lispOf es = argumentsText (es.map (·.lisp)) := by
  induction es with
  | nil => rfl
  | cons e es ih => rw [Expr.lispOf, ih, List.map_cons, argumentsText]

theorem Expr.Shows.eq_expr {e : Expr} (h : e.Shows tree) :
    ∃ inner, tree = .plain .expr [inner] := by
  cases e <;> simp only [Expr.Shows, ShowsConstant] at h
  case constant => exact ⟨_, h.choose_spec.2⟩
  case reference => exact ⟨_, h.choose_spec.2⟩
  case apply =>
    obtain ⟨i, operation, trees, -, -, -, rfl⟩ := h
    exact ⟨_, rfl⟩
  case call =>
    obtain ⟨i, name, trees, -, -, -, rfl⟩ := h
    exact ⟨_, rfl⟩
  case form =>
    obtain ⟨i, trees, -, -, rfl⟩ := h
    exact ⟨_, rfl⟩

theorem Expr.AllShow.eq_expr {es : List Expr} (h : Expr.AllShow es trees) :
    ∀ tree ∈ trees, ∃ inner, tree = .plain .expr [inner] := by
  induction es generalizing trees with
  | nil =>
    obtain rfl : trees = [] := h
    simp
  | cons e es ih =>
    obtain ⟨tree, trees', rfl, htree, hrest⟩ := h
    exact List.forall_mem_cons.2 ⟨htree.eq_expr, ih hrest⟩

theorem Expr.AllShow.filter_isTree {es : List Expr} (h : Expr.AllShow es trees) (i : Instruction) :
    (trees ++ [Node.token i]).filter Node.isTree = trees := by
  have htrees : ∀ tree ∈ trees, tree.isTree = true := by
    intro tree hmem
    obtain ⟨inner, rfl⟩ := h.eq_expr tree hmem
    rfl
  rw [List.filter_append, List.filter_eq_self.2 htrees]
  exact List.append_nil trees

theorem prints_showsConstant {operand : Operand} (h : ShowsConstant operand tree) :
    Prints unquoted (constantText unquoted (some operand)) tree := by
  obtain ⟨i, hi, rfl⟩ := h
  exact prints_around (fun _ _ => rfl) (prints_around (fun _ _ => rfl) (prints_constant hi))

theorem quoted_eq (operand : Operand) :
    constantText false (some operand) = Expr.quoted operand := by
  cases operand <;> rfl

theorem prints_application {sign : Nonterminal} {texts : List String}
    (hkind : ∀ render node, Rendering.tree render kind node = application render node)
    (hsign : Prints false s (.plain sign [.token i])) (h : AllPrint trees texts) :
    Prints false ("(" ++ s ++ argumentsText texts)
      (.plain kind (trees ++ [.plain sign [.token i]])) := by
  refine prints_of_tree fun levels hlevels => ?_
  rw [sizeSum_append] at hlevels
  have hlast : Node.sizeSum [.plain sign [.token i]] ≤ levels := by omega
  rw [hkind, String.append_assoc]
  exact writes_application rfl (yields_operands (h.writes (by omega))) (hsign levels hlast)

/-- The node of an operator's application writes the operator before the operands. -/
theorem prints_apply {op : Opcode} {operation : Operation} {texts : List String}
    (harity : arity? op.opClass = some trees.length) (hi : i.kind = .fixed op)
    (hop : operation? (.fixed op) = some operation)
    (htrees : ∀ tree ∈ trees, tree.isOp .stackAccess = false) (h : AllPrint trees texts) :
    Prints false ("(" ++ op.lisp ++ argumentsText texts) (operation.value trees i) := by
  have hoperator : ∀ {kind},
      (∀ render node, Rendering.tree render kind node = each render node.children) →
        Prints false op.lisp (.plain kind [.token i]) := fun hkind =>
    prints_around hkind (prints_operator hi harity)
  rw [operation_of_opcode harity] at hop
  refine prints_around (fun _ _ => rfl) ?_
  cases hclass : op.opClass <;> rw [hclass] at hop harity <;> dsimp only at hop <;> cases hop
  case nullary =>
    obtain rfl : trees = [] := List.eq_nil_of_length_eq_zero (Option.some.inj harity).symm
    cases h
    refine prints_of_tree fun levels hlevels => ?_
    have hsign : Prints false op.lisp (.plain .nullaryOp [.token i]) := hoperator fun _ _ => rfl
    have hfill : Writes false _ (fill (Rendering.node levels) (.plain .nullaryExpr
        [.plain .nullaryOp [.token i]]) [.text "(", .child 0, .text ")"]) :=
      (Writes.write "(").append ((hsign levels hlevels).append ((Writes.write ")").append .nothing))
    rwa [String.append_empty, ← String.append_assoc] at hfill
  case unary =>
    obtain ⟨tree, rfl⟩ := List.length_eq_one_iff.1 (Option.some.inj harity).symm
    cases h with
    | @cons _ text _ _ htext hrest =>
      cases hrest
      refine prints_of_tree fun levels hlevels => ?_
      have hsizes : tree.size + (Node.plain .unaryOp [.token i]).size ≤ levels := hlevels
      have happend : "(" ++ op.lisp ++ argumentsText [text] =
          "(" ++ (op.lisp ++ (" " ++ (text ++ ")"))) := by
        simp [argumentsText, String.append_assoc]
      have hsign : Prints false op.lisp (.plain .unaryOp [.token i]) := hoperator fun _ _ => rfl
      have htree : ∀ render node, Rendering.tree render .unaryExpr node = unary render node :=
        fun _ _ => rfl
      rw [happend, htree]
      exact writes_unary rfl (htrees tree (by simp)) (hsign levels (by omega))
        (htext levels (by omega))
  case binary => exact prints_application (fun _ _ => rfl) (hoperator fun _ _ => rfl) h
  case ternary => exact prints_application (fun _ _ => rfl) (hoperator fun _ _ => rfl) h

mutual

theorem prints_expr : ∀ (e : Expr) {tree : Node}, e.WellFormed → e.Shows tree →
    Prints false e.lisp tree
  | .constant operand, tree, _, h => by
    rw [Expr.lisp, ← quoted_eq]
    exact prints_showsConstant h
  | .reference name, tree, _, h => by
    obtain ⟨i, hi, rfl⟩ := h
    exact prints_around (fun _ _ => rfl) (prints_reference hi)
  | .apply op args, tree, hwf, h => by
    obtain ⟨i, operation, trees, hi, hop, htrees, rfl⟩ := h
    have hprint := prints_all args hwf.2 htrees
    have hlength : trees.length = args.length := by
      simpa using hprint.length_eq
    rw [Expr.lisp, lispOf_eq]
    refine prints_apply (hlength ▸ hwf.1) hi.1 hop (fun tree hmem => ?_) hprint
    obtain ⟨inner, rfl⟩ := htrees.eq_expr tree hmem
    rfl
  | .call callee args, tree, hwf, h => by
    obtain ⟨i, name, trees, hi, hname, htrees, rfl⟩ := h
    have hprint := prints_all args hwf.2.2 htrees
    have hcallee : Prints true callee name := prints_showsConstant hname
    have hfilter : (name :: trees ++ [Node.token i]).filter Node.isTree = name :: trees := by
      obtain ⟨j, -, rfl⟩ := hname
      exact congrArg (List.cons _) (htrees.filter_isTree i)
    refine prints_around (fun _ _ => rfl) (prints_of_tree fun levels hlevels => ?_)
    rw [sizeSum_append, Node.sizeSum] at hlevels
    rw [Expr.lisp, lispOf_eq, String.append_assoc]
    refine writes_call ?_
    rw [Node.plain, Node.children, hfilter]
    exact yields_called (hcallee levels (by omega)) (hprint.writes (by omega))
  | .form family args, tree, hwf, h => by
    obtain ⟨i, trees, hi, htrees, rfl⟩ := h
    have hprint := prints_all args hwf.2.2 htrees
    have hfamily : family ≠ .call := by
      rintro rfl
      exact absurd hwf.1 (by decide)
    refine prints_around (fun _ _ => rfl) (prints_of_tree fun levels hlevels => ?_)
    rw [sizeSum_append] at hlevels
    rw [Expr.lisp, lispOf_eq, String.append_assoc]
    refine writes_counted hfamily ?_
    rw [Node.plain, Node.children, htrees.filter_isTree]
    exact yields_operands (hprint.writes (by omega))

theorem prints_all : ∀ (es : List Expr) {trees : List Node}, Expr.AllWellFormed es →
    Expr.AllShow es trees → AllPrint trees (es.map (·.lisp))
  | [], trees, _, h => by
    obtain rfl : trees = [] := h
    exact .nil
  | e :: es, trees, hwf, h => by
    obtain ⟨tree, trees', rfl, htree, hrest⟩ := h
    exact .cons (prints_expr e hwf.1 htree) (prints_all es hwf.2 hrest)

end

/-! ### Statements -/

/-- With enough levels, a node is rendered as `s` where a line begins at an indentation. -/
def PrintsLine (indent s : String) (node : Node) : Prop :=
  ∀ levels, node.size ≤ levels → Opens indent s (Rendering.node levels node)

theorem Prints.line (h : Prints false s node) (indent : String) : PrintsLine indent s node :=
  fun levels hlevels => (h levels hlevels).begins.opens indent

/-- Nodes print texts on lines of their own. -/
def PrintLines (indent : String) (nodes : List Node) (texts : List String) : Prop :=
  List.Forall₂ (fun node s => PrintsLine indent s node) nodes texts

theorem PrintLines.opens {indent : String} {nodes : List Node} {texts : List String}
    (h : PrintLines indent nodes texts) {levels : Nat} (hlevels : Node.sizeSum nodes ≤ levels) :
    List.Forall₂ (fun node s => Opens indent s (Rendering.node levels node)) nodes texts := by
  induction h with
  | nil => exact .nil
  | cons hnode _ ih =>
    rw [Node.sizeSum] at hlevels
    exact .cons (hnode levels (by omega)) (ih (by omega))

/-- The marker behind a statement is not rendered. -/
theorem prints_statement {marker : Node} (h : Prints unquoted s tree) :
    Prints unquoted s (.plain .exprStmt [tree, marker]) := by
  refine prints_of_tree fun levels hlevels => ?_
  have hsize : tree.size + (marker.size + 0) ≤ levels := hlevels
  exact h levels (by omega)

theorem prints_nothing (hkind : kind.template? = some [])
    (htree : ∀ render node, Rendering.tree render kind node = match kind.template? with
      | some directives => fill render node directives
      | none => (do issue (.noRendering kind); write missingText)) :
    Prints unquoted "" (.plain kind children) := by
  refine prints_of_tree fun levels _ => ?_
  rw [htree, hkind]
  exact .nothing

theorem Statement.Shows.printsLine {statement : Statement} (hwf : statement.WellFormed)
    (h : statement.Shows node) (indent : String) : PrintsLine indent statement.lisp node := by
  cases statement with
  | setq name value =>
    obtain ⟨i, tree, hi, htree, rfl⟩ := h
    intro levels hlevels
    have hsize : tree.size + (1 + 0) + 1 + 0 + 1 + (0 + 1 + 0) + 1 ≤ levels := hlevels
    obtain ⟨levels, rfl⟩ := Nat.exists_eq_add_of_le' (show 3 ≤ levels by omega)
    have hname : operandText (.token i) = name.toText := by
      simp [operandText, Node.firstToken?, Node.tokens, hi.2 name rfl]
    exact (begins_each (begins_setq rfl hname
      (prints_expr value hwf htree levels (by omega)))).opens indent
  | discard value =>
    obtain ⟨i, tree, -, htree, rfl⟩ := h
    exact (prints_statement (prints_expr value hwf htree)).line indent

theorem printLines {statements : List Statement} {nodes : List Node}
    (h : List.Forall₂ Statement.Shows statements nodes) (hwf : ∀ s ∈ statements, s.WellFormed)
    (indent : String) : PrintLines indent nodes (statements.map (·.lisp)) := by
  induction h with
  | nil => exact .nil
  | cons hnode _ ih =>
    exact .cons (hnode.printsLine (hwf _ (by simp)) indent)
      (ih fun s hs => hwf s (List.mem_cons_of_mem _ hs))

theorem lisp_ne_empty (e : Expr) (hwf : e.WellFormed) : e.lisp ≠ "" := by
  cases e with
  | constant operand =>
    cases operand with
    | symbol name =>
      rw [Expr.lisp, Expr.quoted]
      split
      · exact hwf
      · simp
    | routine r => simp [Expr.lisp, Expr.quoted]
    | _ => exact hwf
  | reference name => exact hwf
  | _ => simp [Expr.lisp]

theorem Statement.lisp_ne_empty (s : Statement) (hwf : s.WellFormed) : s.lisp ≠ "" := by
  cases s with
  | setq name value => simp [Statement.lisp]
  | discard value => exact StraightLine.lisp_ne_empty value hwf

/-- No statement is left out. -/
theorem filter_lisp {statements : List Statement} (hwf : ∀ s ∈ statements, s.WellFormed) :
    (statements.map (·.lisp)).filter (!·.isEmpty) = statements.map (·.lisp) := by
  refine List.filter_eq_self.2 fun line hline => ?_
  obtain ⟨s, hs, rfl⟩ := List.mem_map.1 hline
  rw [String.isEmpty_eq_false_iff.2 (s.lisp_ne_empty (hwf s hs))]
  rfl

theorem Program.lines_filter {p : Program} (hwf : p.WellFormed) :
    p.lines.filter (!·.isEmpty) = p.lines := by
  have hvalue := String.isEmpty_eq_false_iff.2 (StraightLine.lisp_ne_empty p.value hwf.2)
  rw [Program.lines, List.filter_append, filter_lisp hwf.1]
  simp [hvalue]

theorem printsLine_of_tree {indent : String}
    (h : ∀ levels, Node.sizeSum children ≤ levels →
      Opens indent s (Rendering.tree (Rendering.node levels) kind (.plain kind children))) :
    PrintsLine indent s (.plain kind children) := by
  intro levels hlevels
  have hsize : Node.sizeSum children + 1 ≤ levels := hlevels
  obtain ⟨levels, rfl⟩ := Nat.exists_eq_add_of_le' (show 1 ≤ levels by omega)
  exact h levels (by omega)

/-- A form is a statement if its expression is one. -/
theorem printsLine_kept {indent : String} {form : Node} (h : PrintsLine indent s form) :
    PrintsLine indent s (kept (.plain .expr [form])) := by
  refine printsLine_of_tree fun levels hlevels => ?_
  have hsize : (form.size + 0 + 1) + (1 + 0) ≤ levels := hlevels
  obtain ⟨levels, rfl⟩ := Nat.exists_eq_add_of_le' (show 1 ≤ levels by omega)
  exact opens_each (h levels (by omega))

/-- A body is written line by line, but for statements without a text. -/
theorem lays_body_of_lines {indent : String} {nodes : List Node} {texts : List String}
    (h : PrintLines indent nodes texts) {levels : Nat}
    (hlevels : Node.sizeSum nodes + 2 ≤ levels) :
    Lays indent (("\n" ++ indent).intercalate (texts.filter (!·.isEmpty)))
      (Rendering.node levels (.plain .body [.plain .exprs nodes])) := by
  obtain ⟨levels, rfl⟩ := Nat.exists_eq_add_of_le' (show 2 ≤ levels by omega)
  exact lays_each (lays_statements (h.opens (show Node.sizeSum nodes ≤ levels by omega)))

/-- The statements of a program and its value. -/
theorem printLines_program {p : Program} {nodes : List Node} (hwf : p.WellFormed)
    (hstatements : List.Forall₂ Statement.Shows p.statements nodes) (hvalue : p.value.Shows tree)
    (indent : String) : PrintLines indent (nodes ++ [kept tree]) p.lines :=
  List.rel_append (printLines hstatements hwf.1 indent)
    (.cons ((prints_statement (prints_expr p.value hwf.2 hvalue)).line indent) .nil)

theorem size_lt_maxLevels (tree : Node) : tree.size < tree.maxLevels :=
  Nat.lt_of_lt_of_le Nat.lt_two_pow_self (Nat.le_mul_of_pos_left _ (Nat.succ_pos _))

/-- The body of a routine is rendered line by line, and what follows the body too. -/
theorem render_body {indent : String} {nodes tail : List Node} {texts : List String}
    (h : PrintLines indent (nodes ++ tail) texts) :
    (Node.plain .fnBody (.plain .body [.plain .exprs nodes] :: tail)).render indent =
      .ok ⟨Text.spaces indent.utf8ByteSize ++
        ("\n" ++ indent).intercalate (texts.filter (!·.isEmpty)), []⟩ := by
  generalize htree : Node.plain .fnBody (.plain .body [.plain .exprs nodes] :: tail) = tree
  have hsize : tree.size = Node.sizeSum (nodes ++ tail) + 3 := by
    subst htree
    simp only [Node.plain, Node.size, Node.sizeSum, sizeSum_append]
    omega
  obtain ⟨levels, hmax⟩ := Nat.exists_eq_add_of_lt (size_lt_maxLevels tree)
  have hnode : Rendering.node (tree.size + levels + 1) tree =
      statements (Rendering.node (tree.size + levels)) (nodes ++ tail) := by
    subst htree
    rfl
  have hlevels : Node.sizeSum (nodes ++ tail) ≤ tree.size + levels := by omega
  obtain ⟨values, filled, hrun⟩ :=
    (lays_statements (h.opens hlevels)).run_eq (.start indent) rfl rfl
  unfold Node.render
  rw [hmax, hnode, StateT.run, hrun]
  simp [Page.start]

/-- A routine is rendered as the lines of its statements. -/
theorem render_lines {indent : String} {nodes : List Node} {texts : List String} (ret : Instruction)
    (h : PrintLines indent nodes texts) (hfilter : texts.filter (!·.isEmpty) = texts) :
    (routine nodes ret).render indent =
      .ok ⟨Text.spaces indent.utf8ByteSize ++ ("\n" ++ indent).intercalate texts, []⟩ := by
  have hlabel : PrintsLine indent "" (.plain .optLabel []) :=
    (prints_nothing rfl fun _ _ => rfl).line indent
  have hreturn : PrintsLine indent "" (.plain .optReturn [.token ret]) :=
    (prints_nothing rfl fun _ _ => rfl).line indent
  have hlines := render_body (List.rel_append h (.cons hlabel (.cons hreturn .nil)))
  have hmarkers : ["", ""].filter (!·.isEmpty) = ([] : List String) := rfl
  rwa [List.filter_append, hfilter, hmarkers, List.append_nil] at hlines

/-- The routine of a program is rendered as the lines of the program. -/
theorem render_routine {p : Program} {nodes : List Node} (ret : Instruction) (hwf : p.WellFormed)
    (hstatements : List.Forall₂ Statement.Shows p.statements nodes) (hvalue : p.value.Shows tree)
    (indent : String) :
    (routine (nodes ++ [kept tree]) ret).render indent =
      .ok ⟨Text.spaces indent.utf8ByteSize ++ ("\n" ++ indent).intercalate p.lines, []⟩ :=
  render_lines ret (printLines_program hwf hstatements hvalue indent) (Program.lines_filter hwf)

end ElispLift.StraightLine
