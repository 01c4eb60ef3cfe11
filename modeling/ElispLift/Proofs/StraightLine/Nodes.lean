import ElispLift.Proofs.Extraction.Parse
import ElispLift.Proofs.Idioms.NormalForm
import ElispLift.Proofs.StraightLine.Rendering

/-!
# Nodes of trees

The nodes of a kind in a tree, from left to right. The tree of an expression has only nodes of
operations and names, and that of a statement one node of a statement besides. The instructions of
each spell its code, and the leftmost one of an expression takes no value from outside.
-/

namespace ElispLift.StraightLine

variable {tree node : Node} {trees nodes : List Node} {kind kind' : Nonterminal} {i : Instruction}

/-- The nodes of statements in a tree, from left to right. -/
def statementNodes (tree : Node) : List Node := tree.subnodes.filter (·.isKind .exprStmt)

def nodesOf (kind : Nonterminal) (tree : Node) : List Node := tree.subnodes.filter (·.isKind kind)

def nodesOfAll (kind : Nonterminal) (trees : List Node) : List Node :=
  (Node.subnodesOf trees).filter (·.isKind kind)

@[simp] theorem nodesOf_token (kind : Nonterminal) (i : Instruction) :
    nodesOf kind (.token i) = [] := rfl

@[simp] theorem nodesOf_plain (kind kind' : Nonterminal) (trees : List Node) :
    nodesOf kind (.plain kind' trees) =
      (if kind' = kind then [.plain kind' trees] else []) ++ nodesOfAll kind trees := by
  have hself : (Node.tree kind' trees none).isKind kind = decide (kind' = kind) := by
    simp [Node.isKind, Node.kind?]
  rw [nodesOf, Node.plain, Node.subnodes, List.filter_cons, hself]
  by_cases h : kind' = kind <;> simp [h, nodesOfAll]

@[simp] theorem nodesOfAll_nil (kind : Nonterminal) : nodesOfAll kind [] = [] := rfl

@[simp] theorem nodesOfAll_cons (kind : Nonterminal) (node : Node) (nodes : List Node) :
    nodesOfAll kind (node :: nodes) = nodesOf kind node ++ nodesOfAll kind nodes :=
  List.filter_append ..

@[simp] theorem nodesOfAll_append (kind : Nonterminal) (nodes nodes' : List Node) :
    nodesOfAll kind (nodes ++ nodes') = nodesOfAll kind nodes ++ nodesOfAll kind nodes' := by
  simp [nodesOfAll]

/-! ### Expressions -/

/-- Nonterminals in the trees of expressions. -/
def isTerm : Nonterminal → Bool
  | .expr | .setqForm | .nameExpr | .nullaryExpr | .unaryExpr | .binaryExpr | .ternaryExpr
  | .counted _ | .nullaryOp | .unaryOp | .binaryOp | .ternaryOp | .optDiscard => true
  | _ => false

/-- Trees of expressions, whose instructions spell operations. -/
structure Codes (trees : List Node) (code : List (OpKind × Option Operand)) : Prop where
  nodes_eq : ∀ kind, isTerm kind = false → nodesOfAll kind trees = []
  spells : List.Forall₂ Spells (Node.tokensOf trees) code

namespace Codes

variable {a b : List (OpKind × Option Operand)} {trees' : List Node}

theorem nil : Codes [] [] := ⟨fun _ _ => rfl, .nil⟩

theorem token {op : OpKind × Option Operand} (h : Spells i op) : Codes [.token i] [op] :=
  ⟨fun _ _ => rfl, .cons h .nil⟩

theorem append (h : Codes trees a) (h' : Codes trees' b) : Codes (trees ++ trees') (a ++ b) := by
  refine ⟨fun kind hkind => ?_, ?_⟩
  · rw [nodesOfAll_append, h.nodes_eq kind hkind, h'.nodes_eq kind hkind, List.nil_append]
  · rw [Node.tokensOf_append]
    exact List.rel_append h.spells h'.spells

theorem wrap (h : Codes trees a) (hkind : isTerm kind = true) : Codes [.plain kind trees] a := by
  refine ⟨fun kind' hkind' => ?_, ?_⟩
  · have hne : kind ≠ kind' := by
      rintro rfl
      rw [hkind] at hkind'
      cases hkind'
    simp [hne, h.nodes_eq kind' hkind']
  · change List.Forall₂ Spells (Node.tokensOf trees ++ []) a
    rw [List.append_nil]
    exact h.spells

end Codes

theorem codes_showsConstant {operand : Operand} (h : ShowsConstant operand tree) :
    Codes [tree] [(.fixed .constant, some operand)] := by
  obtain ⟨i, hi, rfl⟩ := h
  exact ((Codes.token hi).wrap rfl).wrap rfl

theorem codes_apply {op : Opcode} {operation : Operation} {code : List (OpKind × Option Operand)}
    (harity : arity? op.opClass = some trees.length) (hi : Spells i (.fixed op, none))
    (hop : operation? (.fixed op) = some operation) (h : Codes trees code) :
    Codes [operation.value trees i] (code ++ [(.fixed op, none)]) := by
  have hform : ∀ {kind sign : Nonterminal}, isTerm kind = true → isTerm sign = true →
      Codes [.plain .expr [.plain kind (trees ++ [.plain sign [.token i]])]]
        (code ++ [(.fixed op, none)]) := fun hkind hsign =>
    ((h.append ((Codes.token hi).wrap hsign)).wrap hkind).wrap rfl
  rw [operation_of_opcode harity] at hop
  cases hclass : op.opClass <;> rw [hclass] at hop <;> dsimp only at hop <;> cases hop <;>
    exact hform rfl rfl

mutual

theorem codes_expr : ∀ (e : Expr) {tree : Node}, e.WellFormed → e.Shows tree → Codes [tree] e.code
  | .constant operand, tree, _, h => codes_showsConstant h
  | .reference name, tree, _, h => by
    obtain ⟨i, hi, rfl⟩ := h
    exact (Codes.token hi).wrap rfl
  | .apply op args, tree, hwf, h => by
    obtain ⟨i, operation, trees, hi, hop, htrees, rfl⟩ := h
    have hlength : trees.length = args.length := by
      simpa using (prints_all args hwf.2 htrees).length_eq
    exact codes_apply (hlength ▸ hwf.1) hi hop (codes_all args hwf.2 htrees)
  | .call callee args, tree, hwf, h => by
    obtain ⟨i, name, trees, hi, hname, htrees, rfl⟩ := h
    have hall := (codes_showsConstant hname).append (codes_all args hwf.2.2 htrees)
    exact ((hall.append (Codes.token hi)).wrap rfl).wrap rfl
  | .form family args, tree, hwf, h => by
    obtain ⟨i, trees, hi, htrees, rfl⟩ := h
    exact (((codes_all args hwf.2.2 htrees).append (Codes.token hi)).wrap rfl).wrap rfl

theorem codes_all : ∀ (es : List Expr) {trees : List Node}, Expr.AllWellFormed es →
    Expr.AllShow es trees → Codes trees (Expr.codeOf es)
  | [], trees, _, h => by
    obtain rfl : trees = [] := h
    exact .nil
  | e :: es, trees, hwf, h => by
    obtain ⟨tree, trees', rfl, htree, hrest⟩ := h
    exact (codes_expr e hwf.1 htree).append (codes_all es hwf.2 hrest)

end

/-! ### Leftmost nodes -/

theorem not_stacked_of_operation : ∀ o ∈ Opcode.all, (operation? (.fixed o)).isSome = true →
    (o = .stackAccess || (Text.before? Context.stackedSuffix o.name.toList).isSome) = false := by
  decide +kernel

theorem not_stacked_of_family : ∀ family ∈ [Family.list, .concat, .insert],
    (Text.before? Context.stackedSuffix (OpKind.counted family 0).name.toList).isSome = false := by
  decide

theorem startsStacked_token {op : Opcode} (hi : i.kind = .fixed op)
    (hop : (operation? (.fixed op)).isSome = true) : Context.startsStacked (.token i) = false := by
  rw [Context.startsStacked, Instruction.isOp, Instruction.name, hi, OpKind.name]
  simpa using not_stacked_of_operation op (Opcode.mem_all op) hop

theorem startsStacked_plain (h : isTerm kind = true) :
    Context.startsStacked (.plain kind (node :: trees)) = Context.startsStacked node := by
  have hname : (Text.before? Context.stackedSuffix kind.name.toList).isSome = false := by
    cases kind with
    | counted family => cases family <;> decide
    | _ => first
      | decide
      | cases h
  rw [Node.plain, Context.startsStacked, hname, Bool.false_or]

theorem startsStacked_constant {operand : Operand} (h : ShowsConstant operand tree) :
    Context.startsStacked tree = false := by
  obtain ⟨i, hi, rfl⟩ := h
  rw [startsStacked_plain rfl, startsStacked_plain rfl]
  exact startsStacked_token hi.1 rfl

theorem startsStacked_apply {op : Opcode} {operation : Operation}
    (harity : arity? op.opClass = some trees.length) (hi : i.kind = .fixed op)
    (hop : operation? (.fixed op) = some operation)
    (h : ∀ tree, trees.head? = some tree → Context.startsStacked tree = false) :
    Context.startsStacked (operation.value trees i) = false := by
  have hsome : (operation? (.fixed op)).isSome = true := by rw [hop]; rfl
  have hform : ∀ {kind sign : Nonterminal}, isTerm kind = true → isTerm sign = true →
      Context.startsStacked (.plain .expr [.plain kind (trees ++ [.plain sign [.token i]])]) =
        false := by
    intro kind sign hkind hsign
    rw [startsStacked_plain rfl]
    cases trees with
    | nil =>
      rw [List.nil_append, startsStacked_plain hkind, startsStacked_plain hsign]
      exact startsStacked_token hi hsome
    | cons first rest =>
      rw [List.cons_append, startsStacked_plain hkind]
      exact h first rfl
  rw [operation_of_opcode harity] at hop
  cases hclass : op.opClass <;> rw [hclass] at hop <;> dsimp only at hop <;> cases hop <;>
    exact hform rfl rfl

/-- The leftmost instruction of an expression takes no value from outside. -/
theorem startsStacked_expr : ∀ (e : Expr) {tree : Node}, e.WellFormed → e.Shows tree →
    Context.startsStacked tree = false
  | .constant operand, tree, _, h => startsStacked_constant h
  | .reference name, tree, _, h => by
    obtain ⟨i, hi, rfl⟩ := h
    rw [startsStacked_plain rfl]
    exact startsStacked_token hi.1 rfl
  | .apply op [], tree, hwf, h => by
    obtain ⟨i, operation, trees, hi, hop, rfl, rfl⟩ := h
    exact startsStacked_apply hwf.1 hi.1 hop nofun
  | .apply op (e :: es), tree, hwf, h => by
    obtain ⟨i, operation, trees, hi, hop, htrees, rfl⟩ := h
    have hlength : trees.length = (e :: es).length := by
      simpa using (prints_all (e :: es) hwf.2 htrees).length_eq
    obtain ⟨first, rest, rfl, hfirst, -⟩ := htrees
    refine startsStacked_apply (hlength ▸ hwf.1) hi.1 hop fun tree htree => ?_
    obtain rfl := Option.some.inj htree
    exact startsStacked_expr e hwf.2.1 hfirst
  | .call callee args, tree, _, h => by
    obtain ⟨i, name, trees, hi, hname, htrees, rfl⟩ := h
    rw [startsStacked_plain rfl, List.cons_append, startsStacked_plain rfl]
    exact startsStacked_constant hname
  | .form family [], tree, hwf, h => by
    obtain ⟨i, trees, hi, rfl, rfl⟩ := h
    rw [startsStacked_plain rfl, List.nil_append, startsStacked_plain rfl, Context.startsStacked,
      Instruction.isOp, Instruction.name, hi.1]
    simpa using not_stacked_of_family family hwf.1
  | .form family (e :: es), tree, hwf, h => by
    obtain ⟨i, trees, hi, ⟨first, rest, rfl, hfirst, -⟩, rfl⟩ := h
    rw [startsStacked_plain rfl, List.cons_append, startsStacked_plain rfl]
    exact startsStacked_expr e hwf.2.2.1 hfirst

/-! ### Statements -/

/-- The node is that of one statement with these operations. -/
structure IsStatement (node : Node) (code : List (OpKind × Option Operand)) : Prop where
  nodes_eq : ∀ kind, isTerm kind = false →
    nodesOf kind node = if kind = .exprStmt then [node] else []
  spells : List.Forall₂ Spells node.tokens code

theorem Codes.statement {code : List (OpKind × Option Operand)} (h : Codes trees code) :
    IsStatement (.plain .exprStmt trees) code := by
  refine ⟨fun kind hkind => ?_, h.spells⟩
  rw [nodesOf_plain, h.nodes_eq kind hkind, List.append_nil]
  simp only [eq_comm]

theorem Statement.Shows.isStatement {s : Statement} (hwf : s.WellFormed) (h : s.Shows node) :
    IsStatement node s.code := by
  have hempty : Codes [.plain .optDiscard []] [] := Codes.nil.wrap rfl
  cases s with
  | setq name value =>
    obtain ⟨i, tree, hi, htree, rfl⟩ := h
    have hsetq : Codes [.plain .setqForm [tree, .token i]] _ :=
      ((codes_expr value hwf htree).append (Codes.token hi)).wrap rfl
    have hexpr : Codes [.plain .expr [.plain .setqForm [tree, .token i]]] _ := hsetq.wrap rfl
    have hall := hexpr.append hempty
    rw [List.append_nil] at hall
    exact hall.statement
  | discard value =>
    obtain ⟨i, tree, hi, htree, rfl⟩ := h
    exact ((codes_expr value hwf htree).append ((Codes.token hi).wrap rfl)).statement

theorem isStatement_kept {e : Expr} (hwf : e.WellFormed) (h : e.Shows tree) :
    IsStatement (kept tree) e.code := by
  have hempty : Codes [.plain .optDiscard []] [] := Codes.nil.wrap rfl
  have hall := (codes_expr e hwf h).append hempty
  rw [List.append_nil] at hall
  exact hall.statement

theorem isStatement_of_shows {statements : List Statement}
    (h : List.Forall₂ Statement.Shows statements nodes) (hwf : ∀ s ∈ statements, s.WellFormed) :
    List.Forall₂ IsStatement nodes (statements.map (·.code)) := by
  induction h with
  | nil => exact .nil
  | @cons s node statements nodes hnode _ ih =>
    exact .cons (hnode.isStatement (hwf s (by simp)))
      (ih fun s' hs' => hwf s' (List.mem_cons_of_mem _ hs'))

theorem Program.isStatement {p : Program} (hwf : p.WellFormed)
    (hstatements : List.Forall₂ Statement.Shows p.statements nodes) (hvalue : p.value.Shows tree) :
    List.Forall₂ IsStatement (nodes ++ [kept tree]) p.parts :=
  List.rel_append (isStatement_of_shows hstatements hwf.1)
    (.cons (isStatement_kept hwf.2 hvalue) .nil)

theorem nodesOfAll_statements {codes : List (List (OpKind × Option Operand))}
    (h : List.Forall₂ IsStatement nodes codes) (hkind : isTerm kind = false) :
    nodesOfAll kind nodes = if kind = .exprStmt then nodes else [] := by
  induction h with
  | nil => simp
  | cons hnode _ ih =>
    rw [nodesOfAll_cons, hnode.nodes_eq kind hkind, ih]
    split <;> simp

theorem statementNodes_routine {codes : List (List (OpKind × Option Operand))}
    (h : List.Forall₂ IsStatement nodes codes) (ret : Instruction) :
    statementNodes (routine nodes ret) = nodes := by
  have hall : nodesOfAll .exprStmt nodes = nodes := nodesOfAll_statements h rfl
  change nodesOf .exprStmt (routine nodes ret) = nodes
  simp [routine, hall]

end ElispLift.StraightLine
