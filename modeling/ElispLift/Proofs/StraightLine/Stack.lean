import ElispLift.Proofs.StraightLine.Program
import ElispLift.Syntax

/-!
# The stack of a straight-line program

Running the code on a stack of trees makes the tree of every expression. Each value remembers where
its code began. A run is followed position by position: the values on the stack stand side by side
in the code, each begins where the stack was as high as below it, and the stack is higher than that
until the value is taken.
-/

namespace ElispLift.StraightLine

/-- What an operation with a value does: it takes operands, and its node is made of theirs and its
own instruction, which has a node of its own for operators. A variable is its instruction. -/
structure Operation where
  kind : Option Nonterminal
  sign : Option Nonterminal
  arity : Nat

def operation? : OpKind → Option Operation
  | .fixed .constant => some ⟨some .nameExpr, none, 0⟩
  | .fixed .varref => some ⟨none, none, 0⟩
  | .fixed op =>
    match op.opClass with
    | .nullary => some ⟨some .nullaryExpr, some .nullaryOp, 0⟩
    | .unary => some ⟨some .unaryExpr, some .unaryOp, 1⟩
    | .binary => some ⟨some .binaryExpr, some .binaryOp, 2⟩
    | .ternary => some ⟨some .ternaryExpr, some .ternaryOp, 3⟩
    | _ => none
  | .counted family count => some ⟨some (.counted family), none, family.operands count⟩

namespace Operation

def signNode (op : Operation) (i : Instruction) : Node :=
  match op.sign with
  | some kind => .plain kind [.token i]
  | none => .token i

/-- The node of the operation's application to operands. -/
def node (op : Operation) (args : List Node) (i : Instruction) : Node :=
  match op.kind with
  | some kind => .plain kind (args ++ [op.signNode i])
  | none => op.signNode i

def value (op : Operation) (args : List Node) (i : Instruction) : Node :=
  .plain .expr [op.node args i]

end Operation

/-- A value on the stack, and the position where its code begins. -/
structure Pending where
  first : Nat
  tree : Node

/-- The stack, its top first, and the statements before. -/
structure State where
  pending : List Pending
  done : List Node

def State.start : State := ⟨[], []⟩

/-- Where the code of operands begins that ends at position `i`. -/
def firstOf (i : Nat) (args : List Pending) : Nat := (args.head?.map (·.first)).getD i

def assignment (value : Node) (i : Instruction) : Node :=
  .plain .exprStmt [.plain .expr [.plain .setqForm [value, .token i]], .plain .optDiscard []]

def discarded (value : Node) (i : Instruction) : Node :=
  .plain .exprStmt [value, .plain .optDiscard [.token i]]

def kept (value : Node) : Node := .plain .exprStmt [value, .plain .optDiscard []]

/-- The node of a routine with statements, of which the last one leaves the value returned. -/
def routine (statements : List Node) (ret : Instruction) : Node :=
  .plain .fnBody [.plain .body [.plain .exprs statements], .plain .optLabel [],
    .plain .optReturn [.token ret]]

/-- The node of a statement that an instruction ends. -/
def statement? (value : Node) (i : Instruction) : Option Node :=
  match i.kind with
  | .fixed .varset => some (assignment value i)
  | .fixed .discard => some (discarded value i)
  | _ => none

/-- One instruction, at position `pos`. A statement ends with nothing left on the stack. -/
inductive Step (pos : Nat) (i : Instruction) : State → State → Prop where
  | value {op : Operation} {args rest : List Pending} {done : List Node}
      (hop : operation? i.kind = some op) (hargs : args.length = op.arity) :
      Step pos i ⟨args.reverse ++ rest, done⟩
        ⟨⟨firstOf pos args, op.value (args.map (·.tree)) i⟩ :: rest, done⟩
  | statement {v : Pending} {done : List Node} {node : Node}
      (hnode : statement? v.tree i = some node) : Step pos i ⟨[v], done⟩ ⟨[], done ++ [node]⟩

/-- Instructions one behind the other, the first at position `pos`. -/
inductive Run : (pos : Nat) → List Instruction → State → State → Prop where
  | nil (pos : Nat) (s : State) : Run pos [] s s
  | cons {pos : Nat} {i : Instruction} {is : List Instruction} {s s' s'' : State}
      (h : Step pos i s s') (h' : Run (pos + 1) is s' s'') : Run pos (i :: is) s s''

theorem Run.append {pos : Nat} {is js : List Instruction} {s s' s'' : State}
    (h : Run pos is s s') (h' : Run (pos + is.length) js s' s'') : Run pos (is ++ js) s s'' := by
  induction h with
  | nil => exact h'
  | cons hstep _ ih =>
    refine .cons hstep (ih ?_)
    rwa [Nat.add_right_comm, Nat.add_assoc]

theorem Run.single {pos : Nat} {i : Instruction} {s s' : State} (h : Step pos i s s') :
    Run pos [i] s s' := .cons h (.nil _ _)

/-! ### Runs of programs -/

/-- The tree of a constant. -/
def ShowsConstant (operand : Operand) (tree : Node) : Prop :=
  ∃ i : Instruction, Spells i (.fixed .constant, some operand) ∧
    tree = .plain .expr [.plain .nameExpr [.token i]]

namespace Expr

mutual

/-- The tree is that of the expression. -/
def Shows : Expr → Node → Prop
  | constant operand, tree => ShowsConstant operand tree
  | reference name, tree => ∃ i : Instruction, Spells i (.fixed .varref, some name) ∧
      tree = .plain .expr [.token i]
  | apply op args, tree => ∃ (i : Instruction) (operation : Operation) (trees : List Node),
      Spells i (.fixed op, none) ∧ operation? (.fixed op) = some operation ∧
        AllShow args trees ∧ tree = operation.value trees i
  | call callee args, tree => ∃ (i : Instruction) (name : Node) (trees : List Node),
      Spells i (.counted .call args.length, none) ∧ ShowsConstant (.symbol callee) name ∧
        AllShow args trees ∧
          tree = .plain .expr [.plain (.counted .call) (name :: trees ++ [.token i])]
  | form family args, tree => ∃ (i : Instruction) (trees : List Node),
      Spells i (.counted family args.length, none) ∧ AllShow args trees ∧
        tree = .plain .expr [.plain (.counted family) (trees ++ [.token i])]

def AllShow : List Expr → List Node → Prop
  | [], trees => trees = []
  | e :: rest, trees => ∃ tree trees', trees = tree :: trees' ∧ e.Shows tree ∧ AllShow rest trees'

end

end Expr

/-- The node is that of the statement. -/
def Statement.Shows : Statement → Node → Prop
  | setq name value, node => ∃ (i : Instruction) (tree : Node),
      Spells i (.fixed .varset, some name) ∧ value.Shows tree ∧ node = assignment tree i
  | discard value, node => ∃ (i : Instruction) (tree : Node),
      Spells i (.fixed .discard, none) ∧ value.Shows tree ∧ node = discarded tree i

theorem spells_append {is : List Instruction} {a b : List (OpKind × Option Operand)}
    (h : List.Forall₂ Spells is (a ++ b)) :
    ∃ js ks, is = js ++ ks ∧ List.Forall₂ Spells js a ∧ List.Forall₂ Spells ks b :=
  ⟨_, _, (List.take_append_drop a.length is).symm, List.forall₂_take_append _ _ _ h,
    List.forall₂_drop_append _ _ _ h⟩

theorem spells_snoc {is : List Instruction} {a : List (OpKind × Option Operand)}
    {op : OpKind × Option Operand} (h : List.Forall₂ Spells is (a ++ [op])) :
    ∃ js i, is = js ++ [i] ∧ List.Forall₂ Spells js a ∧ Spells i op := by
  obtain ⟨js, ks, rfl, hjs, hks⟩ := spells_append h
  obtain ⟨i, ks', hi, hks', rfl⟩ := List.forall₂_cons_right_iff.1 hks
  rw [List.forall₂_nil_right_iff] at hks'
  exact ⟨js, i, by rw [hks'], hjs, hi⟩

theorem firstOf_cons (pos : Nat) (v : Pending) (args : List Pending) :
    firstOf pos (v :: args) = v.first := rfl

/-- An operation takes the operands on top of the stack. -/
theorem step_value {pos : Nat} {i : Instruction} {op : Operation} {rest : List Pending}
    {done : List Node} {first : Nat} (args : List Pending) (hop : operation? i.kind = some op)
    (hargs : args.length = op.arity) (hfirst : firstOf pos args = first) :
    Step pos i ⟨args.reverse ++ rest, done⟩
      ⟨⟨first, op.value (args.map (·.tree)) i⟩ :: rest, done⟩ :=
  hfirst ▸ .value hop hargs

theorem run_constant {is : List Instruction} {operand : Operand} (pos : Nat) (rest : List Pending)
    (done : List Node) (h : List.Forall₂ Spells is [(.fixed .constant, some operand)]) :
    ∃ tree, ShowsConstant operand tree ∧ is.length = 1 ∧
      Run pos is ⟨rest, done⟩ ⟨⟨pos, tree⟩ :: rest, done⟩ := by
  obtain ⟨js, i, rfl, hjs, hi⟩ := spells_snoc (a := []) h
  rw [List.forall₂_nil_right_iff] at hjs
  subst hjs
  have hop : operation? i.kind = some ⟨some .nameExpr, none, 0⟩ := by rw [hi.1]; rfl
  exact ⟨_, ⟨i, hi, rfl⟩, rfl, .single (step_value [] hop rfl rfl)⟩

theorem operation_of_opcode {op : Opcode} {n : Nat} (h : arity? op.opClass = some n) :
    operation? (.fixed op) = match op.opClass with
      | .nullary => some ⟨some .nullaryExpr, some .nullaryOp, 0⟩
      | .unary => some ⟨some .unaryExpr, some .unaryOp, 1⟩
      | .binary => some ⟨some .binaryExpr, some .binaryOp, 2⟩
      | .ternary => some ⟨some .ternaryExpr, some .ternaryOp, 3⟩
      | _ => none := by
  have hne : op ≠ .constant ∧ op ≠ .varref := by
    constructor <;> rintro rfl <;> simp [arity?, Opcode.opClass, Opcode.row] at h
  rw [operation?]
  all_goals simp [hne]

theorem operation_of_arity {op : Opcode} {n : Nat} (h : arity? op.opClass = some n) :
    ∃ operation, operation? (.fixed op) = some operation ∧ operation.arity = n := by
  rw [operation_of_opcode h]
  unfold arity? at h
  split at h <;> simp_all

mutual

/-- The code of an expression puts its tree on the stack. -/
theorem run_expr : ∀ (e : Expr) {is : List Instruction} (pos : Nat) (rest : List Pending)
    (done : List Node), e.WellFormed → List.Forall₂ Spells is e.code →
      ∃ tree, e.Shows tree ∧ Run pos is ⟨rest, done⟩ ⟨⟨pos, tree⟩ :: rest, done⟩
  | .constant operand, is, pos, rest, done, _, h => by
    obtain ⟨tree, htree, -, hrun⟩ := run_constant pos rest done h
    exact ⟨tree, htree, hrun⟩
  | .reference name, is, pos, rest, done, _, h => by
    obtain ⟨js, i, rfl, hjs, hi⟩ := spells_snoc (a := []) h
    rw [List.forall₂_nil_right_iff] at hjs
    subst hjs
    have hop : operation? i.kind = some ⟨none, none, 0⟩ := by rw [hi.1]; rfl
    exact ⟨_, ⟨i, hi, rfl⟩, .single (step_value [] hop rfl rfl)⟩
  | .apply op args, is, pos, rest, done, hwf, h => by
    obtain ⟨js, i, rfl, hjs, hi⟩ := spells_snoc h
    obtain ⟨vs, hvs, hlen, hfirst, hrun⟩ := run_all args pos rest done hwf.2 hjs
    obtain ⟨operation, hop, harity⟩ := operation_of_arity hwf.1
    have hkind : operation? i.kind = some operation := by rw [hi.1]; exact hop
    refine ⟨_, ⟨i, operation, vs.map (·.tree), hi, hop, hvs, rfl⟩, hrun.append (.single ?_)⟩
    exact step_value vs hkind (hlen.trans harity.symm) hfirst
  | .call callee args, is, pos, rest, done, hwf, h => by
    obtain ⟨js, i, rfl, hjs, hi⟩ := spells_snoc h
    obtain ⟨js, ks, rfl, hjs, hks⟩ := spells_append (a := [_]) hjs
    obtain ⟨name, hname, hone, hrun⟩ := run_constant pos rest done hjs
    obtain ⟨vs, hvs, hlen, -, hrun'⟩ :=
      run_all args (pos + js.length) (⟨pos, name⟩ :: rest) done hwf.2.2 hks
    have hkind : operation? i.kind = some ⟨some (.counted .call), none, args.length + 1⟩ := by
      rw [hi.1]
      rfl
    refine ⟨_, ⟨i, name, vs.map (·.tree), hi, hname, hvs, rfl⟩,
      (hrun.append hrun').append (.single ?_)⟩
    have hstep : Step (pos + (js ++ ks).length) i
        ⟨(⟨pos, name⟩ :: vs : List Pending).reverse ++ rest, done⟩ _ :=
      step_value _ hkind (by simp [hlen]) (firstOf_cons _ _ _)
    simpa [Operation.value, Operation.node, Operation.signNode] using hstep
  | .form family args, is, pos, rest, done, hwf, h => by
    obtain ⟨js, i, rfl, hjs, hi⟩ := spells_snoc h
    obtain ⟨vs, hvs, hlen, hfirst, hrun⟩ := run_all args pos rest done hwf.2.2 hjs
    have harity : family.operands args.length = args.length := by
      have hfamily := hwf.1
      cases family <;> simp at hfamily <;> rfl
    have hkind : operation? i.kind = some ⟨some (.counted family), none, args.length⟩ := by
      rw [hi.1, operation?, harity]
    refine ⟨_, ⟨i, vs.map (·.tree), hi, hvs, rfl⟩, hrun.append (.single ?_)⟩
    exact step_value vs hkind hlen hfirst

theorem run_all : ∀ (es : List Expr) {is : List Instruction} (pos : Nat) (rest : List Pending)
    (done : List Node), Expr.AllWellFormed es → List.Forall₂ Spells is (Expr.codeOf es) →
      ∃ vs : List Pending, Expr.AllShow es (vs.map (·.tree)) ∧ vs.length = es.length ∧
        firstOf (pos + is.length) vs = pos ∧ Run pos is ⟨rest, done⟩ ⟨vs.reverse ++ rest, done⟩
  | [], is, pos, rest, done, _, h => by
    rw [Expr.codeOf, List.forall₂_nil_right_iff] at h
    subst h
    exact ⟨[], rfl, rfl, rfl, .nil _ _⟩
  | e :: es, is, pos, rest, done, hwf, h => by
    obtain ⟨js, ks, rfl, hjs, hks⟩ := spells_append h
    obtain ⟨tree, htree, hrun⟩ := run_expr e pos rest done hwf.1 hjs
    obtain ⟨vs, hvs, hlen, -, hrun'⟩ :=
      run_all es (pos + js.length) (⟨pos, tree⟩ :: rest) done hwf.2 hks
    refine ⟨⟨pos, tree⟩ :: vs, ⟨tree, vs.map (·.tree), rfl, htree, hvs⟩, by simp [hlen], rfl, ?_⟩
    simpa using hrun.append hrun'

end

theorem run_statement (s : Statement) {is : List Instruction} (pos : Nat) (done : List Node)
    (hwf : s.WellFormed) (h : List.Forall₂ Spells is s.code) :
    ∃ node, s.Shows node ∧ Run pos is ⟨[], done⟩ ⟨[], done ++ [node]⟩ := by
  cases s with
  | setq name value =>
    obtain ⟨js, i, rfl, hjs, hi⟩ := spells_snoc h
    obtain ⟨tree, htree, hrun⟩ := run_expr value pos [] done hwf hjs
    exact ⟨_, ⟨i, tree, hi, htree, rfl⟩, hrun.append (.single (.statement (by
      rw [statement?, hi.1])))⟩
  | discard value =>
    obtain ⟨js, i, rfl, hjs, hi⟩ := spells_snoc h
    obtain ⟨tree, htree, hrun⟩ := run_expr value pos [] done hwf hjs
    exact ⟨_, ⟨i, tree, hi, htree, rfl⟩, hrun.append (.single (.statement (by
      rw [statement?, hi.1])))⟩

theorem run_statements (ss : List Statement) {is : List Instruction} (pos : Nat)
    (done : List Node) (hwf : ∀ s ∈ ss, s.WellFormed)
    (h : List.Forall₂ Spells is (ss.map (·.code)).flatten) :
    ∃ nodes, List.Forall₂ Statement.Shows ss nodes ∧
      Run pos is ⟨[], done⟩ ⟨[], done ++ nodes⟩ := by
  induction ss generalizing is pos done with
  | nil =>
    rw [List.map_nil, List.flatten_nil, List.forall₂_nil_right_iff] at h
    subst h
    exact ⟨[], .nil, by simpa using Run.nil pos ⟨[], done⟩⟩
  | cons s ss ih =>
    obtain ⟨js, ks, rfl, hjs, hks⟩ := spells_append h
    obtain ⟨node, hnode, hrun⟩ := run_statement s pos done (hwf s (by simp)) hjs
    obtain ⟨nodes, hnodes, hrun'⟩ := ih (pos + js.length) (done ++ [node])
      (fun s' hs' => hwf s' (List.mem_cons_of_mem _ hs')) hks
    exact ⟨node :: nodes, .cons hnode hnodes, by simpa using hrun.append hrun'⟩

/-- The statements of a program are done when its value is on the stack, and then it returns. -/
theorem run_program {p : Program} {is : List Instruction} (hwf : p.WellFormed)
    (h : List.Forall₂ Spells is p.code) :
    ∃ code ret nodes first tree, is = code ++ [ret] ∧ ret.kind = .fixed .ret ∧
      List.Forall₂ Statement.Shows p.statements nodes ∧ p.value.Shows tree ∧
        Run 0 code .start ⟨[⟨first, tree⟩], nodes⟩ := by
  obtain ⟨code, ret, rfl, hcode, hret⟩ := spells_snoc h
  rw [Program.parts, List.flatten_append] at hcode
  obtain ⟨js, ks, rfl, hjs, hks⟩ := spells_append hcode
  obtain ⟨nodes, hnodes, hrun⟩ := run_statements p.statements 0 [] hwf.1 hjs
  rw [List.flatten_singleton] at hks
  obtain ⟨tree, htree, hrun'⟩ := run_expr p.value (0 + js.length) [] ([] ++ nodes) hwf.2 hks
  exact ⟨js ++ ks, ret, nodes, _, tree, rfl, hret.1, hnodes, htree, hrun.append hrun'⟩

end ElispLift.StraightLine
