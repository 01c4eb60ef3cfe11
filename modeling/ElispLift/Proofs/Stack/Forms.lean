import ElispLift.Proofs.Stack.Runs

/-!
# Forms as runs

Every form does its tasks, so every node is rendered by a run, however deep it is.
-/

namespace ElispLift.Stack

open Node Rendering

variable {ts : List Task} {render : Node → Rendering Unit} {node : Node}

section forms

variable (hrender : Acts render)

include hrender

/-! ### Children and templates -/

theorem does_child (n : Nat) : Does ((visit node n).map .node) (child render node n) := by
  unfold child visit
  cases node.child? n with
  | none => exact .missing
  | some c => exact hrender c

theorem does_directive (d : Directive) :
    Does (directiveTasks node d) (directive render node d) := by
  cases d with
  | text s => exact .write s
  | child n => exact does_child hrender n
  | unquoted n =>
    change Does ((visit node n).map .node) _
    cases hc : node.child? n with
    | none =>
      simp only [directive, visit, hc]
      exact .missing
    | some c =>
      simp only [directive, visit, hc]
      exact (hrender c).withUnquoted
  | operand n =>
    change Does [] _
    cases hc : node.child? n with
    | none =>
      simp only [directive, hc]
      exact .missing
    | some c =>
      simp only [directive, hc]
      exact .write _
  | push n =>
    cases hc : node.child? n with
    | none =>
      simp only [directive, directiveTasks, hc]
      exact (Does.issue (by simp)).after fun _ => .push _
    | some c =>
      simp only [directive, directiveTasks, hc]
      exact .push _
  | pop => exact (does_pop hrender).andNothing fun s => .write s
  | indentation => exact .get_bind fun p => .write _
  | indentMore => exact .indentTo _
  | dedent => exact .dedent
  | openForm => exact .openForm
  | closeForm => exact .closeForm

theorem does_fill (directives : List Directive) :
    Does (directives.flatMap (directiveTasks node)) (fill render node directives) := by
  induction directives with
  | nil => exact .pure ()
  | cons d rest ih => exact (does_directive hrender d).bind fun _ => ih

theorem does_each (nodes : List Node) : Does (nodes.map .node) (each render nodes) := by
  induction nodes with
  | nil => exact .pure ()
  | cons c rest ih => exact (hrender c).bind fun _ => ih

theorem does_eachOnLine (nodes : List Node) :
    Does (nodes.map .node) (eachOnLine render nodes) := by
  induction nodes with
  | nil => exact .pure ()
  | cons c rest ih =>
    cases rest with
    | nil => exact hrender c
    | cons next rest => exact (hrender c).bind fun _ => Does.newline.after fun _ => ih

/-! ### Applications -/

theorem does_unary : Does (unaryTasks node) (unary render node) := by
  have hpop : Does [.pop] (do write (← pop render); write ")") :=
    (does_pop hrender).andNothing fun s => (Does.write s).after fun _ => .write _
  unfold unaryTasks unary
  cases hlast : node.children.getLast? with
  | none => exact .missing
  | some op =>
    refine (Does.write _).after fun _ => (hrender op).bind fun _ => (Does.write _).after fun _ => ?_
    rcases node.children with _ | ⟨argument, _ | ⟨head, _ | ⟨third, rest⟩⟩⟩
    case cons.cons.nil =>
      dsimp only
      split
      · exact hpop
      · exact (hrender argument).andNothing fun _ => .write _
    all_goals exact hpop

theorem does_binaryStacked : Does (binaryStackedTasks node) (binaryStacked render node) := by
  unfold binaryStackedTasks binaryStacked
  cases hlast : node.children.getLast? with
  | none => exact .missing
  | some op =>
    have hend : ∀ operands : String × String, Does [.node op] (do
        write "("
        render op
        write (" " ++ operands.1 ++ " " ++ operands.2 ++ ")")) := fun operands =>
      (Does.write _).after fun _ => (hrender op).andNothing fun _ => .write _
    rcases node.children with _ | ⟨first, _ | ⟨second, _ | ⟨third, rest⟩⟩⟩
    case cons.cons.nil =>
      exact (hrender first).capture.bind fun s => (does_pop hrender).bind fun popped =>
        (Does.pure (popped, s)).after hend
    -- The first operand is on the stack, and the second one is the first child that is a tree.
    all_goals
      dsimp only
      generalize List.find? isTree _ = found
      refine (does_pop hrender).bind fun first => ?_
      cases found with
      | none => exact (Does.pure (first, missingText)).after hend
      | some second =>
        exact (hrender second).capture.bind fun s => (Does.pure (first, s)).after hend

theorem does_operands (firstUnquoted : Bool) (nodes : List Node) :
    Does [.operands 0 nodes] (operands render firstUnquoted nodes) := by
  intro p texts p' hrun own outer hp
  obtain ⟨found, q, hfound, hrun⟩ := exists_of_run_bind hrun
  cases hrun
  obtain ⟨es, own', outer', hq, hsteps, hissues⟩ := run_toOperands hrender hfound hp
  obtain ⟨es', own'', outer'', hvalues, hclear⟩ := exists_run_clear texts.length own' outer'
  refine ⟨es ++ es', own'', outer'', by rw [hvalues, hq], fun rest => ?_, fun id hid => ?_⟩
  · have hsteps := hsteps 0 rest
    rw [Nat.zero_add] at hsteps
    exact hsteps.trans (.step .applied (hclear _ rest))
  · exact (hissues id hid).imp_right fun h => List.mem_append_left _ h

theorem does_application :
    Does (match node.children.getLast? with
      | none => []
      | some op => [.operands 0 node.children.dropLast, .node op]) (application render node) := by
  unfold application
  cases hlast : node.children.getLast? with
  | none => exact .missing
  | some op =>
    exact (does_operands hrender false _).bind fun texts => (Does.write _).after fun _ =>
      (hrender op).andNothing fun _ => does_arguments texts

theorem does_countedApplication {family : Family} :
    Does [.operands 0 (node.children.filter isTree)] (countedApplication render node family) := by
  refine (does_operands hrender _ _).andNothing fun texts => (Does.write _).after fun _ => ?_
  split
  · exact (Does.write _).after fun _ => does_arguments _
  · exact Does.missing.after fun _ => does_arguments _
  · exact (Does.write _).after fun _ => does_arguments _

/-! ### Conditionals -/

theorem does_progn (body : Node) : Does [.node body] (progn render body) := by
  unfold progn
  split
  · exact hrender body
  · exact (Does.write _).after fun _ => (Does.indentTo _).after fun _ => Does.newline.after fun _ =>
      (hrender body).andNothing fun _ => .closeForm

theorem does_ifElse : Does ((visit node 0 ++ (visit node 2 ++ visit node 6)).map .node)
    (ifElse render node) := by
  have hno : Does ((visit node 6).map .node) (do dedent; newline; child render node 6; closeForm) :=
    Does.dedent.after fun _ => Does.newline.after fun _ =>
      (does_child hrender 6).andNothing fun _ => .closeForm
  rw [List.map_append, List.map_append]
  refine Does.openForm.after fun _ => (Does.write _).after fun _ => (does_child hrender 0).bind
    fun _ => (Does.indentTo _).after fun _ => (Does.indentTo _).after fun _ =>
      Does.newline.after fun _ => ?_
  unfold visit
  cases node.child? 2 with
  | none => exact Does.missing.after fun _ => hno
  | some yes => exact (does_progn hrender yes).bind fun _ => hno

theorem does_cond : Does ((clauses node).map .node) (cond render node) :=
  Does.openForm.after fun _ => (Does.write _).after fun _ => (Does.indentTo _).after fun _ =>
    (does_eachOnLine hrender _).andNothing fun _ => .closeForm

theorem does_clause (condition body : Nat) :
    Does ((clauseParts node condition body).map .node) (clause render node condition body) := by
  unfold clauseParts clause
  cases node.child? condition with
  | none => exact .missing
  | some conditionNode =>
    cases node.child? body with
    | none => exact .missing
    | some bodyNode =>
      have hend : ∀ text : String, Does [] (do
          if !text.isEmpty then
            if bodyNode.lines.length > 1 then newline else write " "
            write text
          closeForm) := fun text => by
        dsimp only
        split
        · split
          · exact Does.newline.after fun _ => (Does.write _).after fun _ => .closeForm
          · exact (Does.write _).after fun _ => (Does.write _).after fun _ => .closeForm
        · exact .closeForm
      have hbody : Does [.node bodyNode] (do
          let text ← capture (render bodyNode)
          if !text.isEmpty then
            if bodyNode.lines.length > 1 then newline else write " "
            write text
          closeForm) := (hrender bodyNode).capture.andNothing hend
      rw [List.map_append]
      refine (Does.write _).after fun _ => (Does.indentTo _).after fun _ => ?_
      dsimp only
      split
      · exact (does_child hrender 0).bind fun _ => hbody
      · exact (Does.write _).after fun _ => hbody

/-! ### Bindings and loops -/

theorem does_binding : Does ((visit node 0).map .node) (binding render node) :=
  (Does.write _).after fun _ => (does_child hrender 0).andNothing fun _ => .write _

theorem does_letStar :
    Does (((node.child? 0).map fun varlist =>
      (varlist.children ++ visit node 1).map .node).getD []) (letStar render node) := by
  unfold letStar
  cases node.child? 0 with
  | none => exact .missing
  | some varlist =>
    rw [Option.map_some, Option.getD_some, List.map_append]
    exact Does.openForm.after fun _ => (Does.write _).after fun _ => (Does.write _).after fun _ =>
      (Does.indentTo _).after fun _ => (does_eachOnLine hrender _).bind fun _ =>
        Does.closeForm.after fun _ => does_lastPart (does_child hrender 1)

theorem does_eachBinding (bindings : List (String × Node)) :
    Does ((bindings.flatMap fun b => visit b.2 0).map .node) (eachBinding render bindings) := by
  induction bindings with
  | nil => exact .pure ()
  | cons b rest ih =>
    rw [List.flatMap_cons, List.map_append]
    refine (Does.write _).after fun _ => (does_child hrender 0).bind fun _ =>
      (Does.write _).after fun _ => ?_
    dsimp only
    split
    · exact Does.newline.after fun _ => ih
    · exact ih

/-- The value of the variable lies on the stack for the body, and is cleared away after it. -/
theorem does_scope (name : String) (n : Nat) : Does [.scope name (visit node n)] (do
    let height := (← get).values.length
    push (.text name)
    lastPart (child render node n)
    truncate height) := by
  rintro p ⟨⟩ p' hrun own outer hp
  rw [run_bind (show (get : Rendering Page) p = some (p, p) from rfl)] at hrun
  obtain ⟨⟨⟩, q, hpush, hrun⟩ := exists_of_run_bind hrun
  cases hpush
  obtain ⟨⟨⟩, q', hbody, hrun⟩ := exists_of_run_bind hrun
  cases hrun
  obtain ⟨es, own', outer', hq', hsteps, hissues⟩ := does_lastPart (does_child hrender n) _ _ _
    hbody (.text name :: own) outer (congrArg (StackValue.text name :: ·) hp)
  obtain ⟨es', own'', outer'', hvalues, htruncate⟩ :=
    exists_run_truncate p.values.length own' outer'
  rw [hq'] at hvalues
  refine ⟨es ++ es', own'', outer'', hvalues, fun rest => .step .scope ?_, fun id hid =>
    (hissues id hid).imp_right fun h => List.mem_append_left _ h⟩
  rw [hp]
  exact (hsteps _).trans (htruncate _ rest)

theorem does_letStacked : Does (letStackedTasks node) (letStacked render node) := by
  unfold letStackedTasks letStacked
  cases node.child? 0 with
  | none => exact .missing
  | some varlist =>
    exact Does.openForm.after fun _ => (Does.write _).after fun _ =>
      (Does.indentTo _).after fun _ => (does_eachBinding hrender _).bind fun _ =>
        Does.closeForm.after fun _ => does_scope hrender _ 1

theorem does_dolistExpansion :
    Does ((dolistParts node).map .node) (dolistExpansion render node) := by
  have hbody : Does ((visit node 6).map .node) (do
      write ")"
      lastPart (child render node 6)) :=
    (Does.write _).after fun _ => does_lastPart (does_child hrender 6)
  have hend : Does (((if node.isKind .dolistMacroResult then visit node 16 else []) ++
      visit node 6).map .node) (do
        if node.isKind .dolistMacroResult then
          write " "
          child render node 16
        write ")"
        lastPart (child render node 6)) := by
    dsimp only
    rw [List.map_append]
    split
    · exact (Does.write _).after fun _ => (does_child hrender 16).bind fun _ => hbody
    · exact hbody
  unfold dolistParts
  rw [List.map_append]
  refine Does.openForm.after fun _ => (Does.write _).after fun _ => ?_
  cases node.child? 0 with
  | none => exact Does.missing.after fun _ => hend
  | some list => exact (does_child hrender 0).bind fun _ => hend

/-! ### All nodes -/

theorem does_tree (kind : Nonterminal) :
    Does (treeTasks kind node) (Rendering.tree render kind node) := by
  have htemplate : ∀ directives, kind.template? = some directives →
      Does ((kind.template?.getD []).flatMap (directiveTasks node)) (fill render node directives) :=
    fun directives h => by
      rw [h]
      exact does_fill hrender directives
  cases kind with
  | exprs | optExprs | bodyStacked => exact does_statements hrender _
  | fnBody =>
    change Does (treeTasks .fnBody node) (routineBody render node)
    unfold treeTasks routineBody
    cases node.children with
    | nil => exact .missing
    | cons body tail => exact does_statements hrender _
  | exprStmt => exact does_child hrender 0
  | labeledClause => exact does_child hrender 1
  | unaryExpr | unaryExprStacked => exact does_unary hrender
  | binaryExprStacked => exact does_binaryStacked hrender
  | ifElseForm => exact does_ifElse hrender
  | condForm => exact does_cond hrender
  | clause => exact does_clause hrender 0 1
  | labeledFinalClause => exact does_clause hrender 1 2
  | letFormStar => exact does_letStar hrender
  | varbind => exact does_binding hrender
  | letFormStacked => exact does_letStacked hrender
  | dolistMacro | dolistMacroResult => exact does_dolistExpansion hrender
  | binaryExpr | ternaryExpr => exact does_application hrender
  | counted family => exact does_countedApplication hrender
  | body | expr | exprStacked | nameExpr | nullaryOp | unaryOp | binaryOp | ternaryOp | condition
  | dolistList => exact does_each hrender _
  | varlist | labeledClauses | varlistStacked | varlistStackedInner | dolistInitVar
  | dolistLoopIterSet | dolistLoopIterSetStacking =>
    exact (Does.issue (by simp)).after fun _ => .write _
  | _ => exact htemplate _ rfl

theorem does_form : Does (nodeTasks node) (form render node) := by
  cases node with
  | token i => exact does_instruction hrender i
  | tree kind children idiom => exact does_tree hrender kind

end forms

/-- Every node is rendered by steps of its own, however deep it is. -/
theorem acts_node (levels : Nat) : Acts (Rendering.node levels) := by
  induction levels with
  | zero =>
    intro n p a p' hrun
    cases hrun
  | succ levels ih =>
    intro n p a p' hrun own outer hp
    obtain ⟨es, own', outer', hp', hsteps, hissues⟩ := does_form ih p a p' hrun own outer hp
    exact ⟨es, own', outer', hp', fun rest => .step .node (hsteps rest), hissues⟩

end ElispLift.Stack
