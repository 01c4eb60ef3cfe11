import ElispLift.Proofs.Source.Termination

/-!
# The stack of a rendering

What a rendering does to the stack does not depend on what it writes. A form has tasks: it renders
other nodes, takes values and puts others, and clears away what it has put. A moment is what lies on
the stack and in the slots, and what is left to do. Steps lead from moment to moment, and every
rendering runs through them. The values that lay there at first are kept apart from those that were
put on them, so that each step says whose values it takes.
-/

namespace ElispLift.Stack

open Node Rendering

/-- Something that is done to the stack. -/
inductive Task where
  | node (n : Node)
  | pop
  | read (depth : Nat)
  | push (v : StackValue)
  /-- Render statements. Those before them are in the slots `ids`. -/
  | statements (ids : List Nat) (nodes : List Node)
  /-- Keep a statement that was rendered in a slot. -/
  | keep (ids : List Nat) (node : Node) (rest : List Node)
  /-- Write what is left in slots. -/
  | leave (ids : List Nat)
  /-- Render operands, with `count` of them on the stack. -/
  | operands (count : Nat) (nodes : List Node)
  | operand (count : Nat) (rest : List Node)
  /-- Take operands off the top, `count` at most. -/
  | clear (count : Nat)
  /-- Render a body with the value of a variable on the stack. -/
  | scope (name : String) (body : List Node)
  | truncate (height : Nat)

/-- What a step does with a value. -/
inductive Event where
  /-- A statement was rendered as a text, which is put into a slot. -/
  | kept (id : Nat) (text : String)
  /-- A value is popped, one of those `own` to the rendering or one that lay there before. -/
  | popped (own : Bool) (v : StackValue)
  /-- The text of a slot is taken. -/
  | took (id : Nat) (text : String)
  /-- The text of a slot is printed with its list. -/
  | printed (id : Nat) (text : String)
  /-- A value that lay there before is cleared away. -/
  | lost (v : StackValue)
  /-- A slot is read that has no text. -/
  | gone (id : Nat)

/-! ### Tasks of forms -/

def visit (node : Node) (n : Nat) : List Node := (node.child? n).toList

def directiveTasks (node : Node) : Directive → List Task
  | .child n | .unquoted n => (visit node n).map .node
  | .push n => [.push (((node.child? n).map .node).getD (.text missingText))]
  | .pop => [.pop]
  | _ => []

def instructionTasks (i : Instruction) : List Task :=
  match i.kind with
  | .fixed .dup => [.read 0]
  | .fixed .stackRef => [.read (i.operandInt?.getD 0).toNat]
  | _ => []

def unaryTasks (node : Node) : List Task :=
  match node.children.getLast? with
  | none => []
  | some op => .node op ::
    match node.children with
    | [argument, _] => if argument.isOp .stackAccess then [.pop] else [.node argument]
    | _ => [.pop]

def binaryStackedTasks (node : Node) : List Task :=
  match node.children.getLast? with
  | none => []
  | some op =>
    (match node.children with
      | [second, _] => [.node second, .pop]
      | nodes => .pop :: (nodes.find? isTree).toList.map .node) ++ [.node op]

def clauseParts (node : Node) (condition body : Nat) : List Node :=
  match node.child? condition, node.child? body with
  | some conditionNode, some bodyNode =>
    (if conditionNode.isKind .condition then visit conditionNode 0 else []) ++ [bodyNode]
  | _, _ => []

def letStackedTasks (node : Node) : List Task :=
  match node.child? 0 with
  | none => []
  | some varlist =>
    let name := nameText (varlist.child? 3)
    let inner := ((varlist.child? 1).map nestedBindings).getD []
    (((name, varlist) :: inner).flatMap fun b => visit b.2 0).map .node ++
      [.scope name (visit node 1)]

def dolistParts (node : Node) : List Node :=
  ((node.child? 0).map (visit · 0)).getD [] ++
    ((if node.isKind .dolistMacroResult then visit node 16 else []) ++ visit node 6)

def treeTasks (kind : Nonterminal) (node : Node) : List Task :=
  match kind with
  | .exprs | .optExprs => [.statements [] node.children]
  | .fnBody =>
    match node.children with
    | [] => []
    | body :: tail => [.statements [] (body.lines ++ tail)]
  | .bodyStacked =>
    [.statements [] (node.children.take 1 ++ ((node.child? 2).map children).getD [])]
  | .exprStmt | .varbind => (visit node 0).map .node
  | .labeledClause => (visit node 1).map .node
  | .unaryExpr | .unaryExprStacked => unaryTasks node
  | .binaryExprStacked => binaryStackedTasks node
  | .ifElseForm => (visit node 0 ++ (visit node 2 ++ visit node 6)).map .node
  | .condForm => (clauses node).map .node
  | .clause => (clauseParts node 0 1).map .node
  | .labeledFinalClause => (clauseParts node 1 2).map .node
  | .letFormStar =>
    ((node.child? 0).map fun varlist => (varlist.children ++ visit node 1).map .node).getD []
  | .letFormStacked => letStackedTasks node
  | .dolistMacro | .dolistMacroResult => (dolistParts node).map .node
  | .binaryExpr | .ternaryExpr =>
    match node.children.getLast? with
    | none => []
    | some op => [.operands 0 node.children.dropLast, .node op]
  | .counted _ => [.operands 0 (node.children.filter isTree)]
  | .body | .expr | .exprStacked | .nameExpr | .nullaryOp | .unaryOp | .binaryOp | .ternaryOp
  | .condition | .dolistList => node.children.map .node
  | kind => (kind.template?.getD []).flatMap (directiveTasks node)

def nodeTasks : Node → List Task
  | .token i => instructionTasks i
  | .tree kind children idiom => treeTasks kind (.tree kind children idiom)

/-! ### Steps -/

structure Moment where
  /-- The values that were put on the stack, the top first. -/
  own : List StackValue
  /-- What is left of the values that lay there before. -/
  outer : List StackValue
  slots : Array (Option String)
  tasks : List Task

def Moment.values (m : Moment) : List StackValue := m.own ++ m.outer

/-- A node on the stack is rendered where it is read. -/
def valueTasks : StackValue → List Task
  | .node n => [.node n]
  | _ => []

def slotsWithout (slots : Array (Option String)) : StackValue → Array (Option String)
  | .slot id => slots.setIfInBounds id none
  | _ => slots

def readEvents (take : Bool) (slots : Array (Option String)) : StackValue → List Event
  | .slot id =>
    match slots[id]?.join with
    | some text => if take then [.took id text] else []
    | none => [.gone id]
  | _ => []

def isSlotOf (ids : List Nat) (v : StackValue) : Bool := (v.slot?.map ids.contains).getD false

/-- One thing is done. -/
inductive Step : Moment → List Event → Moment → Prop
  | node : Step ⟨own, outer, slots, .node n :: tasks⟩ [] ⟨own, outer, slots, nodeTasks n ++ tasks⟩
  | popOwn : Step ⟨v :: own, outer, slots, .pop :: tasks⟩
      (.popped true v :: readEvents true slots v)
      ⟨own, outer, slotsWithout slots v, valueTasks v ++ tasks⟩
  | popOuter : Step ⟨[], v :: outer, slots, .pop :: tasks⟩
      (.popped false v :: readEvents true slots v)
      ⟨[], outer, slotsWithout slots v, valueTasks v ++ tasks⟩
  | popNothing : Step ⟨[], [], slots, .pop :: tasks⟩ [] ⟨[], [], slots, tasks⟩
  | read (h : (own ++ outer)[depth]? = some v) : Step ⟨own, outer, slots, .read depth :: tasks⟩
      (readEvents false slots v) ⟨own, outer, slots, valueTasks v ++ tasks⟩
  | readNothing (h : (own ++ outer)[depth]? = none) :
      Step ⟨own, outer, slots, .read depth :: tasks⟩ [] ⟨own, outer, slots, tasks⟩
  | push : Step ⟨own, outer, slots, .push v :: tasks⟩ [] ⟨v :: own, outer, slots, tasks⟩
  | statement : Step ⟨own, outer, slots, .statements ids (n :: nodes) :: tasks⟩ []
      ⟨own, outer, slots, .node n :: .keep ids n nodes :: tasks⟩
  | keep (text : String) : Step ⟨own, outer, slots, .keep ids n nodes :: tasks⟩
      [.kept slots.size text]
      ⟨if n.keepsValue then .slot slots.size :: own else own, outer, slots.push (some text),
        .statements (ids ++ [slots.size]) nodes :: tasks⟩
  | dropSlots : Step ⟨own, outer, slots, .statements ids [] :: tasks⟩
      ((outer.filter (isSlotOf ids)).map .lost)
      ⟨own.filter (!isSlotOf ids ·), outer.filter (!isSlotOf ids ·), slots, .leave ids :: tasks⟩
  | leave {id : Nat} : Step ⟨own, outer, slots, .leave (id :: ids) :: tasks⟩
      (slots[id]?.join.map (.printed id)).toList
      ⟨own, outer, slots.setIfInBounds id none, .leave ids :: tasks⟩
  | left : Step ⟨own, outer, slots, .leave [] :: tasks⟩ [] ⟨own, outer, slots, tasks⟩
  | operand : Step ⟨own, outer, slots, .operands count (n :: nodes) :: tasks⟩ []
      ⟨own, outer, slots, .node n :: .operand count nodes :: tasks⟩
  | hold (text : String) : Step ⟨own, outer, slots, .operand count nodes :: tasks⟩ []
      ⟨.operand text :: own, outer, slots, .operands (count + 1) nodes :: tasks⟩
  | applied : Step ⟨own, outer, slots, .operands count [] :: tasks⟩ []
      ⟨own, outer, slots, .clear count :: tasks⟩
  | clearOwn (h : v.isOperand = true) :
      Step ⟨v :: own, outer, slots, .clear (count + 1) :: tasks⟩ []
        ⟨own, outer, slots, .clear count :: tasks⟩
  | clearOuter (h : v.isOperand = true) :
      Step ⟨[], v :: outer, slots, .clear (count + 1) :: tasks⟩ [.lost v]
        ⟨[], outer, slots, .clear count :: tasks⟩
  | cleared (h : count ≠ 0 → ∀ v ∈ (own ++ outer).head?, v.isOperand = false) :
      Step ⟨own, outer, slots, .clear count :: tasks⟩ [] ⟨own, outer, slots, tasks⟩
  | scope {name : String} : Step ⟨own, outer, slots, .scope name nodes :: tasks⟩ []
      ⟨.text name :: own, outer, slots,
        nodes.map .node ++ .truncate (own ++ outer).length :: tasks⟩
  | truncateOwn (h : height < (v :: own ++ outer).length) :
      Step ⟨v :: own, outer, slots, .truncate height :: tasks⟩ []
        ⟨own, outer, slots, .truncate height :: tasks⟩
  | truncateOuter (h : height < (v :: outer).length) :
      Step ⟨[], v :: outer, slots, .truncate height :: tasks⟩ [.lost v]
        ⟨[], outer, slots, .truncate height :: tasks⟩
  | truncated (h : (own ++ outer).length ≤ height) :
      Step ⟨own, outer, slots, .truncate height :: tasks⟩ [] ⟨own, outer, slots, tasks⟩

/-- Steps one after another, with all that they do. -/
inductive Run : Moment → List Event → Moment → Prop
  | refl (m : Moment) : Run m [] m
  | head {m m' m'' : Moment} {es es' : List Event} (hstep : Step m es m') (hrun : Run m' es' m'') :
      Run m (es ++ es') m''

namespace Run

variable {m m' m'' : Moment} {es es' : List Event}

theorem single (h : Step m es m') : Run m es m' := by
  simpa using Run.head h (.refl m')

theorem trans (h : Run m es m') (h' : Run m' es' m'') : Run m (es ++ es') m'' := by
  induction h with
  | refl m => exact h'
  | head hstep _ ih =>
    rw [List.append_assoc]
    exact .head hstep (ih h')

/-- Steps that do nothing to values. -/
theorem step (h : Step m [] m') (hrun : Run m' es m'') : Run m es m'' := .head h hrun

end Run

/-! ### What forms start with -/

/-- Tasks of a form whose nodes satisfy `P`. Only some forms, `loops`, put something on the stack
that stays there. -/
inductive Task.Starts (P : Node → Prop) (loops : Prop) : Task → Prop
  | node {c : Node} (h : P c) : Starts P loops (.node c)
  | pop : Starts P loops .pop
  | read (depth : Nat) : Starts P loops (.read depth)
  | pushNode {c : Node} (hloops : loops) (h : P c) : Starts P loops (.push (.node c))
  | pushText (s : String) (hloops : loops) : Starts P loops (.push (.text s))
  | statements {nodes : List Node} (h : ∀ c ∈ nodes, P c) : Starts P loops (.statements [] nodes)
  | operands {nodes : List Node} (h : ∀ c ∈ nodes, P c) : Starts P loops (.operands 0 nodes)
  | scope {nodes : List Node} (name : String) (h : ∀ c ∈ nodes, P c) :
      Starts P loops (.scope name nodes)

section starts

variable {P : Node → Prop} {loops : Prop} {node : Node}

theorem starts_nodes {nodes : List Node} (h : ∀ c ∈ nodes, P c) :
    ∀ t ∈ nodes.map Task.node, t.Starts P loops := by
  intro t ht
  obtain ⟨c, hc, rfl⟩ := List.mem_map.1 ht
  exact .node (h c hc)

variable (hP : ∀ m : Node, P m → ∀ c ∈ m.children, P c) (hnode : P node)

include hP hnode

theorem visit_of_parts (n : Nat) : ∀ c ∈ visit node n, P c := fun c hc =>
  hP node hnode c (List.mem_of_getElem? (Option.mem_toList.1 hc))

theorem grandchildren_of_parts (n : Nat) : ∀ c ∈ ((node.child? n).map children).getD [], P c := by
  intro c hc
  cases hlist : node.child? n with
  | none => simp [hlist] at hc
  | some list =>
    exact hP list (hP node hnode list (List.mem_of_getElem? hlist)) c (by simpa [hlist] using hc)

theorem lines_of_parts : ∀ c ∈ node.lines, P c := by
  unfold Node.lines
  split
  · exact hP node hnode
  · exact grandchildren_of_parts hP hnode 0

theorem clauses_of_parts : ∀ c ∈ clauses node, P c := by
  intro c hc
  obtain ⟨part, hpart, hc⟩ := List.mem_flatMap.1 hc
  have hpart := hP node hnode part hpart
  split at hc
  · exact hP part hpart c hc
  · split at hc
    · exact List.mem_singleton.1 hc ▸ hpart
    · simp at hc

theorem nestedBindings_of_parts : ∀ b ∈ nestedBindings node, P b.2 := by
  fun_induction nestedBindings node with
  | case1 kind value inner name idiom ih =>
    exact List.forall_mem_cons.2 ⟨hnode, ih (hP _ hnode _ (by simp [Node.children]))⟩
  | case2 => simp

theorem clauseParts_of_parts (condition body : Nat) :
    ∀ c ∈ clauseParts node condition body, P c := by
  unfold clauseParts
  split
  next conditionNode bodyNode hcondition hbody =>
    have hfirst : P conditionNode := hP node hnode _ (List.mem_of_getElem? hcondition)
    have hlast : P bodyNode := hP node hnode _ (List.mem_of_getElem? hbody)
    intro c hc
    rcases List.mem_append.1 hc with hc | hc
    · split at hc
      · exact visit_of_parts hP hfirst 0 c hc
      · simp at hc
    · exact List.mem_singleton.1 hc ▸ hlast
  next => simp

theorem dolistParts_of_parts : ∀ c ∈ dolistParts node, P c := by
  intro c hc
  rcases List.mem_append.1 hc with hc | hc
  · cases hlist : node.child? 0 with
    | none => simp [hlist] at hc
    | some list =>
      rw [hlist] at hc
      exact visit_of_parts hP (hP node hnode list (List.mem_of_getElem? hlist)) 0 c hc
  · rcases List.mem_append.1 hc with hc | hc
    · split at hc
      · exact visit_of_parts hP hnode 16 c hc
      · simp at hc
    · exact visit_of_parts hP hnode 6 c hc

theorem starts_directiveTasks {d : Directive} (hloops : ∀ n, d = .push n → loops) :
    ∀ t ∈ directiveTasks node d, t.Starts P loops := by
  cases d with
  | child n | unquoted n => exact starts_nodes (visit_of_parts hP hnode n)
  | push n =>
    refine List.forall_mem_singleton.2 ?_
    cases hc : node.child? n with
    | none => exact .pushText _ (hloops n rfl)
    | some c => exact .pushNode (hloops n rfl) (hP node hnode c (List.mem_of_getElem? hc))
  | pop => exact List.forall_mem_singleton.2 .pop
  | _ => simp [directiveTasks]

theorem starts_unaryTasks : ∀ t ∈ unaryTasks node, t.Starts P loops := by
  have hchild := hP node hnode
  unfold unaryTasks
  cases hlast : node.children.getLast? with
  | none => simp
  | some op =>
    refine List.forall_mem_cons.2 ⟨.node (hchild op (List.mem_of_getLast? hlast)), ?_⟩
    split
    next argument head hchildren =>
      split
      · exact List.forall_mem_singleton.2 .pop
      · exact List.forall_mem_singleton.2 (.node (hchild argument (by simp [hchildren])))
    next => exact List.forall_mem_singleton.2 .pop

theorem starts_binaryStackedTasks : ∀ t ∈ binaryStackedTasks node, t.Starts P loops := by
  have hchild := hP node hnode
  unfold binaryStackedTasks
  cases hlast : node.children.getLast? with
  | none => simp
  | some op =>
    have hop : Task.Starts P loops (.node op) := .node (hchild op (List.mem_of_getLast? hlast))
    refine List.forall_mem_append.2 ⟨?_, List.forall_mem_singleton.2 hop⟩
    split
    next second head hchildren =>
      have hsecond : Task.Starts P loops (.node second) :=
        .node (hchild second (by simp [hchildren]))
      exact List.forall_mem_cons.2 ⟨hsecond, List.forall_mem_singleton.2 .pop⟩
    next =>
      refine List.forall_mem_cons.2 ⟨.pop, starts_nodes fun c hc => ?_⟩
      exact hchild c (List.mem_of_find?_eq_some (Option.mem_toList.1 hc))

theorem starts_letStackedTasks : ∀ t ∈ letStackedTasks node, t.Starts P loops := by
  unfold letStackedTasks
  cases hc : node.child? 0 with
  | none => simp
  | some varlist =>
    have hlist : P varlist := hP node hnode _ (List.mem_of_getElem? hc)
    refine List.forall_mem_append.2 ⟨starts_nodes fun c hc => ?_,
      List.forall_mem_singleton.2 (.scope _ (visit_of_parts hP hnode 1))⟩
    obtain ⟨b, hb, hc⟩ := List.mem_flatMap.1 hc
    refine visit_of_parts hP ?_ 0 c hc
    rcases List.mem_cons.1 hb with rfl | hb
    · exact hlist
    · cases hinner : varlist.child? 1 with
      | none => simp [hinner] at hb
      | some inner =>
        exact nestedBindings_of_parts hP (hP varlist hlist inner (List.mem_of_getElem? hinner)) b
          (by simpa [hinner] using hb)

theorem starts_treeTasks {kind : Nonterminal} (hloops : kind = .whileForm1 → loops) :
    ∀ t ∈ treeTasks kind node, t.Starts P loops := by
  have hchild := hP node hnode
  have htemplate : ∀ t ∈ (kind.template?.getD []).flatMap (directiveTasks node),
      t.Starts P loops := by
    intro t ht
    obtain ⟨d, hd, ht⟩ := List.mem_flatMap.1 ht
    refine starts_directiveTasks hP hnode (fun n hn => ?_) t ht
    cases htemplate : kind.template? with
    | none => simp [htemplate] at hd
    | some directives =>
      rw [htemplate, Option.getD_some, hn] at hd
      exact hloops (Directive.push_mem_template htemplate hd).1
  cases kind with
  | exprs | optExprs => exact List.forall_mem_singleton.2 (.statements hchild)
  | fnBody =>
    unfold treeTasks
    dsimp only
    split
    next => simp
    next body tail hchildren =>
      refine List.forall_mem_singleton.2 (.statements (List.forall_mem_append.2 ⟨?_, ?_⟩))
      · exact lines_of_parts hP (hchild body (by simp [hchildren]))
      · exact fun c hc => hchild c (by simp [hchildren, hc])
  | bodyStacked =>
    exact List.forall_mem_singleton.2 (.statements (List.forall_mem_append.2
      ⟨fun c hc => hchild c (List.mem_of_mem_take hc), grandchildren_of_parts hP hnode 2⟩))
  | exprStmt | varbind => exact starts_nodes (visit_of_parts hP hnode 0)
  | labeledClause => exact starts_nodes (visit_of_parts hP hnode 1)
  | unaryExpr | unaryExprStacked => exact starts_unaryTasks hP hnode
  | binaryExprStacked => exact starts_binaryStackedTasks hP hnode
  | ifElseForm =>
    exact starts_nodes (List.forall_mem_append.2 ⟨visit_of_parts hP hnode 0,
      List.forall_mem_append.2 ⟨visit_of_parts hP hnode 2, visit_of_parts hP hnode 6⟩⟩)
  | condForm => exact starts_nodes (clauses_of_parts hP hnode)
  | clause => exact starts_nodes (clauseParts_of_parts hP hnode 0 1)
  | labeledFinalClause => exact starts_nodes (clauseParts_of_parts hP hnode 1 2)
  | letFormStar =>
    unfold treeTasks
    dsimp only
    cases hc : node.child? 0 with
    | none => simp
    | some varlist =>
      exact starts_nodes (List.forall_mem_append.2
        ⟨hP varlist (hchild varlist (List.mem_of_getElem? hc)), visit_of_parts hP hnode 1⟩)
  | letFormStacked => exact starts_letStackedTasks hP hnode
  | dolistMacro | dolistMacroResult => exact starts_nodes (dolistParts_of_parts hP hnode)
  | binaryExpr | ternaryExpr =>
    unfold treeTasks
    dsimp only
    cases hlast : node.children.getLast? with
    | none => simp
    | some op =>
      exact List.forall_mem_cons.2 ⟨.operands fun c hc => hchild c (List.mem_of_mem_dropLast hc),
        List.forall_mem_singleton.2 (.node (hchild op (List.mem_of_getLast? hlast)))⟩
  | counted family =>
    exact List.forall_mem_singleton.2
      (.operands fun c hc => hchild c (List.mem_of_mem_filter hc))
  | body | expr | exprStacked | nameExpr | nullaryOp | unaryOp | binaryOp | ternaryOp | condition
  | dolistList => exact starts_nodes hchild
  | _ => exact htemplate

end starts

/-- What a node starts with are its parts. -/
theorem starts_nodeTasks {P : Node → Prop} (hP : ∀ m : Node, P m → ∀ c ∈ m.children, P c) {n : Node}
    (hn : P n) : ∀ t ∈ nodeTasks n, t.Starts P (n.isKind .whileForm1 = true) := by
  cases n with
  | token i =>
    change ∀ t ∈ instructionTasks i, _
    unfold instructionTasks
    split
    · exact List.forall_mem_singleton.2 (.read _)
    · exact List.forall_mem_singleton.2 (.read _)
    · simp
  | tree kind children idiom =>
    refine starts_treeTasks hP hn fun hkind => ?_
    subst hkind
    rfl

end ElispLift.Stack
