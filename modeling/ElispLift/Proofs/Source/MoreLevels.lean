import ElispLift.Proofs.Source.Termination

/-!
# More levels

The levels of a rendering only bound how deep nodes lie in one another. A rendering that has come to
an end within some levels comes to the same end within more.
-/

namespace ElispLift

namespace Rendering

open Node

variable {α β : Type} {render render' : Node → Rendering Unit} {node : Node}

/-- Whatever the first rendering results in, the second results in as well. -/
def Extends (x y : Rendering α) : Prop := ∀ p r, x p = some r → y p = some r

namespace Extends

theorem refl (x : Rendering α) : Extends x x := fun _ _ h => h

theorem trans {x y z : Rendering α} (h : Extends x y) (h' : Extends y z) : Extends x z :=
  fun p r hr => h' p r (h p r hr)

theorem bind {x y : Rendering α} {f g : α → Rendering β} (hx : Extends x y)
    (hf : ∀ a, Extends (f a) (g a)) : Extends (x >>= f) (y >>= g) := by
  rintro p ⟨b, p''⟩ hrun
  obtain ⟨a, p', ha, hb⟩ := exists_of_run_bind hrun
  exact (run_bind (hx p (a, p') ha)).trans (hf a p' (b, p'') hb)

/-- Both start with the same. -/
theorem after {x : Rendering α} {f g : α → Rendering β} (hf : ∀ a, Extends (f a) (g a)) :
    Extends (x >>= f) (x >>= g) := (refl x).bind hf

/-- Both end with the same. -/
theorem before {x y : Rendering α} {f : α → Rendering β} (hx : Extends x y) :
    Extends (x >>= f) (y >>= f) := hx.bind fun a => refl (f a)

theorem capture {x y : Rendering Unit} (h : Extends x y) : Extends (capture x) (capture y) :=
  .after fun _ => .after fun _ => h.before

theorem withUnquoted {x y : Rendering α} {unquoted : Bool} (h : Extends x y) :
    Extends (withUnquoted unquoted x) (withUnquoted unquoted y) :=
  .after fun _ => .after fun _ => h.before

theorem lastPart {x y : Rendering Unit} (h : Extends x y) : Extends (lastPart x) (lastPart y) :=
  .after fun _ => .after fun _ => h.before

end Extends

section forms

variable (h : ∀ n, Extends (render n) (render' n))

include h

/-! ### Values and instructions -/

theorem extends_valueText {take : Bool} (v : StackValue) :
    Extends (valueText render take v) (valueText render' take v) := by
  cases v with
  | node n => exact (h n).capture
  | _ => exact .refl _

theorem extends_pop : Extends (pop render) (pop render') := by
  refine .after fun p => ?_
  cases p.values with
  | nil => exact .refl _
  | cons v rest => exact .after fun _ => extends_valueText h v

theorem extends_peek : Extends (peek render) (peek render') := by
  refine .after fun p => ?_
  cases p.values with
  | nil => exact .refl _
  | cons v rest => exact extends_valueText h v

theorem extends_stackRef {depth offset : Nat} :
    Extends (stackRef render depth offset) (stackRef render' depth offset) := by
  refine .after fun p => ?_
  cases p.values[depth]? with
  | none => exact .refl _
  | some v => exact extends_valueText h v

theorem extends_instruction (i : Instruction) :
    Extends (instruction render i) (instruction render' i) := by
  refine .before ?_
  unfold instructionText
  split <;> first | exact extends_peek h | exact extends_stackRef h | exact .refl _

/-! ### Children and templates -/

theorem extends_child (n : Nat) : Extends (child render node n) (child render' node n) := by
  unfold child
  cases node.child? n with
  | none => exact .refl _
  | some c => exact h c

theorem extends_directive (d : Directive) :
    Extends (directive render node d) (directive render' node d) := by
  cases d with
  | child n => exact extends_child h n
  | unquoted n =>
    cases hc : node.child? n with
    | none =>
      simp only [directive, hc]
      exact .refl _
    | some c =>
      simp only [directive, hc]
      exact (h c).withUnquoted
  | pop => exact (extends_pop h).before
  | _ => exact .refl _

theorem extends_fill (directives : List Directive) :
    Extends (fill render node directives) (fill render' node directives) := by
  induction directives with
  | nil => exact .refl _
  | cons d rest ih => exact (extends_directive h d).bind fun _ => ih

theorem extends_each (nodes : List Node) : Extends (each render nodes) (each render' nodes) := by
  induction nodes with
  | nil => exact .refl _
  | cons c rest ih => exact (h c).bind fun _ => ih

theorem extends_eachOnLine (nodes : List Node) :
    Extends (eachOnLine render nodes) (eachOnLine render' nodes) := by
  induction nodes with
  | nil => exact .refl _
  | cons c rest ih =>
    cases rest with
    | nil => exact h c
    | cons next rest => exact (h c).bind fun _ => .after fun _ => ih

/-! ### Statements -/

theorem extends_toSlots (nodes : List Node) :
    Extends (toSlots render nodes) (toSlots render' nodes) := by
  induction nodes with
  | nil => exact .refl _
  | cons c rest ih =>
    refine (h c).capture.bind fun text => .after fun id => ?_
    dsimp only
    split
    · exact .after fun _ => ih.before
    · exact ih.before

theorem extends_statements (nodes : List Node) :
    Extends (statements render nodes) (statements render' nodes) := (extends_toSlots h nodes).before

theorem extends_routineBody : Extends (routineBody render node) (routineBody render' node) := by
  unfold routineBody
  cases node.children with
  | nil => exact .refl _
  | cons body tail => exact extends_statements h _

/-! ### Applications -/

theorem extends_unary : Extends (unary render node) (unary render' node) := by
  unfold unary
  cases node.children.getLast? with
  | none => exact .refl _
  | some op =>
    refine .after fun _ => (h op).bind fun _ => .after fun _ => ?_
    split
    · split
      · exact (extends_pop h).before
      · exact (h _).before
    · exact (extends_pop h).before

theorem extends_binaryStacked :
    Extends (binaryStacked render node) (binaryStacked render' node) := by
  unfold binaryStacked
  cases node.children.getLast? with
  | none => exact .refl _
  | some op =>
    have hend : ∀ operands : String × String, Extends (do
        write "("
        render op
        write (" " ++ operands.1 ++ " " ++ operands.2 ++ ")")) (do
        write "("
        render' op
        write (" " ++ operands.1 ++ " " ++ operands.2 ++ ")")) := fun operands =>
      .after fun _ => (h op).before
    rcases node.children with _ | ⟨first, _ | ⟨second, _ | ⟨third, rest⟩⟩⟩
    case cons.cons.nil =>
      exact (h first).capture.bind fun s => (extends_pop h).bind fun popped => .after hend
    all_goals
      refine (extends_pop h).bind fun popped => ?_
      dsimp only
      split
      · exact (h _).capture.bind fun s => .after hend
      · exact .after hend

theorem extends_toOperands {firstUnquoted : Bool} (nodes : List Node) :
    Extends (toOperands render firstUnquoted nodes) (toOperands render' firstUnquoted nodes) := by
  induction nodes generalizing firstUnquoted with
  | nil => exact .refl _
  | cons c rest ih => exact (h c).capture.withUnquoted.bind fun _ => .after fun _ => ih.before

theorem extends_operands {firstUnquoted : Bool} (nodes : List Node) :
    Extends (operands render firstUnquoted nodes) (operands render' firstUnquoted nodes) :=
  (extends_toOperands h nodes).before

theorem extends_application : Extends (application render node) (application render' node) := by
  unfold application
  cases node.children.getLast? with
  | none => exact .refl _
  | some op =>
    exact (extends_operands h _).bind fun _ => .after fun _ => (h op).before

theorem extends_countedApplication {family : Family} :
    Extends (countedApplication render node family) (countedApplication render' node family) :=
  (extends_operands h _).before

/-! ### Conditionals and bindings -/

theorem extends_progn (body : Node) : Extends (progn render body) (progn render' body) := by
  unfold progn
  split
  · exact h body
  · exact .after fun _ => .after fun _ => .after fun _ => (h body).before

theorem extends_ifElse : Extends (ifElse render node) (ifElse render' node) := by
  refine .after fun _ => .after fun _ => (extends_child h 0).bind fun _ => .after fun _ =>
    .after fun _ => .after fun _ => ?_
  have hno : Extends (do dedent; newline; child render node 6; closeForm)
      (do dedent; newline; child render' node 6; closeForm) :=
    .after fun _ => .after fun _ => (extends_child h 6).before
  cases node.child? 2 with
  | none => exact .after fun _ => hno
  | some yes => exact (extends_progn h yes).bind fun _ => hno

theorem extends_cond : Extends (cond render node) (cond render' node) :=
  .after fun _ => .after fun _ => .after fun _ => (extends_eachOnLine h _).before

theorem extends_clause (condition body : Nat) :
    Extends (clause render node condition body) (clause render' node condition body) := by
  unfold clause
  cases node.child? condition with
  | none => exact .refl _
  | some conditionNode =>
    cases node.child? body with
    | none => exact .refl _
    | some bodyNode =>
      refine .after fun _ => .after fun _ => ?_
      dsimp only
      split
      · exact (extends_child h 0).bind fun _ => (h bodyNode).capture.before
      · exact .after fun _ => (h bodyNode).capture.before

theorem extends_binding : Extends (binding render node) (binding render' node) :=
  .after fun _ => (extends_child h 0).before

theorem extends_letStar : Extends (letStar render node) (letStar render' node) := by
  unfold letStar
  cases node.child? 0 with
  | none => exact .refl _
  | some varlist =>
    refine .after fun _ => .after fun _ => .after fun _ => .after fun _ => ?_
    exact (extends_eachOnLine h _).bind fun _ => .after fun _ =>
      (extends_child h 1).lastPart

theorem extends_eachBinding (bindings : List (String × Node)) :
    Extends (eachBinding render bindings) (eachBinding render' bindings) := by
  induction bindings with
  | nil => exact .refl _
  | cons b rest ih =>
    refine .after fun _ => (extends_child h 0).bind fun _ => .after fun _ => ?_
    dsimp only
    split
    · exact .after fun _ => ih
    · exact ih

theorem extends_letStacked : Extends (letStacked render node) (letStacked render' node) := by
  unfold letStacked
  cases node.child? 0 with
  | none => exact .refl _
  | some varlist =>
    refine .after fun _ => .after fun _ => .after fun _ => ?_
    refine (extends_eachBinding h _).bind fun _ => .after fun _ => .after fun p =>
      .after fun _ => ?_
    exact (extends_child h 1).lastPart.before

theorem extends_dolistExpansion :
    Extends (dolistExpansion render node) (dolistExpansion render' node) := by
  have hbody : Extends (do write ")"; lastPart (child render node 6))
      (do write ")"; lastPart (child render' node 6)) :=
    .after fun _ => (extends_child h 6).lastPart
  have hend : Extends (do
      if node.isKind .dolistMacroResult then
        write " "
        child render node 16
      write ")"
      lastPart (child render node 6)) (do
      if node.isKind .dolistMacroResult then
        write " "
        child render' node 16
      write ")"
      lastPart (child render' node 6)) := by
    dsimp only
    split
    · exact .after fun _ => (extends_child h 16).bind fun _ => hbody
    · exact hbody
  refine .after fun _ => .after fun _ => ?_
  cases node.child? 0 with
  | none => exact .after fun _ => hend
  | some list => exact (extends_child h 0).bind fun _ => hend

theorem extends_tree (kind : Nonterminal) :
    Extends (tree render kind node) (tree render' kind node) := by
  cases kind with
  | exprs | optExprs | bodyStacked => exact extends_statements h _
  | fnBody => exact extends_routineBody h
  | exprStmt => exact extends_child h 0
  | labeledClause => exact extends_child h 1
  | unaryExpr | unaryExprStacked => exact extends_unary h
  | binaryExprStacked => exact extends_binaryStacked h
  | ifElseForm => exact extends_ifElse h
  | condForm => exact extends_cond h
  | clause => exact extends_clause h 0 1
  | labeledFinalClause => exact extends_clause h 1 2
  | letFormStar => exact extends_letStar h
  | varbind => exact extends_binding h
  | letFormStacked => exact extends_letStacked h
  | dolistMacro | dolistMacroResult => exact extends_dolistExpansion h
  | binaryExpr | ternaryExpr => exact extends_application h
  | counted family => exact extends_countedApplication h
  | body | expr | exprStacked | nameExpr | nullaryOp | unaryOp | binaryOp | ternaryOp | condition
  | dolistList => exact extends_each h _
  | varlist | labeledClauses | varlistStacked | varlistStackedInner | dolistInitVar
  | dolistLoopIterSet | dolistLoopIterSetStacking => exact .refl _
  | _ => exact extends_fill h _

theorem extends_form : Extends (form render node) (form render' node) := by
  cases node with
  | token i => exact extends_instruction h i
  | tree kind children idiom => exact extends_tree h kind

end forms

/-- One more level changes nothing. -/
theorem extends_succ (levels : Nat) (n : Node) :
    Extends (Rendering.node levels n) (Rendering.node (levels + 1) n) := by
  induction levels generalizing n with
  | zero => exact fun p r hr => nomatch hr
  | succ levels ih => exact extends_form ih

theorem extends_node {levels more : Nat} (hle : levels ≤ more) (n : Node) :
    Extends (Rendering.node levels n) (Rendering.node more n) := by
  induction hle with
  | refl => exact .refl _
  | step _ ih => exact ih.trans (extends_succ _ n)

end Rendering

namespace Node

theorem weight_le_load {p : Page} {c : Node} (h : .node c ∈ p.values) : c.weight 0 ≤ p.load :=
  List.le_sum_of_mem (List.mem_map.2 ⟨.node c, h, rfl⟩)

/-- Rendering a node comes to an end, on whatever page, if its loops start with values that do not
read the stack and the stack stores such nodes only, which do not read it themselves. The stack may
be popped and read in between, and grow. What remains to be done weighs less all the same. -/
theorem render_terminates {n : Node} {p : Page} (hloops : n.LoopsStartQuiet)
    (hstored : ∀ c, .node c ∈ p.values → c.LoopsStartQuiet ∧ c.isQuiet = true) :
    ∃ page, (∀ levels, p.load + n.weight (n.weight 0 + p.load) ≤ levels →
        Rendering.node levels n p = some ((), page)) ∧
      ∀ c, .node c ∈ page.values → c.LoopsStartQuiet ∧ c.isQuiet = true := by
  have hready : n.Ready False (n.weight 0 + p.load) :=
    ⟨⟨hloops, Nat.le_add_right _ _, False.elim⟩, False.elim⟩
  have hp : p.Fair False (n.weight 0 + p.load) := by
    refine ⟨fun c hc => ?_, False.elim⟩
    obtain ⟨hloops, hquiet⟩ := hstored c hc
    have hlight := weight_le_load hc
    exact ⟨⟨⟨hloops, by omega, False.elim⟩, False.elim⟩, hquiet⟩
  obtain ⟨⟨⟩, page, hrun, hpage, -⟩ := Rendering.renders_node _ n hready p hp le_rfl
  refine ⟨page, fun levels hle => Rendering.extends_node hle n p _ hrun, fun c hc => ?_⟩
  have hc := hpage.stored c hc
  exact ⟨hc.loops, hc.isQuiet⟩

/-- A page on whose stack a variable lies, which is rendered where it is read. -/
def storedVariable : Page :=
  { Page.start "" with values := [.node (.token (.ofOpcode .varref (some (.symbol "a")) 0))] }

theorem render_terminates_dup : (Node.token (.ofOpcode .dup none 1)).LoopsStartQuiet ∧
    (∀ c, .node c ∈ storedVariable.values → c.LoopsStartQuiet ∧ c.isQuiet = true) ∧
    ∃ page, ∀ levels, 4 ≤ levels →
      Rendering.node levels (.token (.ofOpcode .dup none 1)) storedVariable = some ((), page) := by
  have hquiet : ∀ i : Instruction, (Node.token i).LoopsStartQuiet := by
    simp [LoopsStartQuiet, subnodes, startsQuiet]
  have hstored : ∀ c, .node c ∈ storedVariable.values → c.LoopsStartQuiet ∧ c.isQuiet = true := by
    simp only [storedVariable, List.mem_singleton, StackValue.node.injEq, forall_eq]
    exact ⟨hquiet _, rfl⟩
  obtain ⟨page, hpage, -⟩ := render_terminates (hquiet (.ofOpcode .dup none 1)) hstored
  exact ⟨hquiet _, hstored, page, hpage⟩

end Node

end ElispLift
