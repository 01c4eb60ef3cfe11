import ElispLift.Proofs.Idioms.Value
import ElispLift.Proofs.Source.Termination
import ElispLift.Proofs.Source.Writing

/-!
# Reads of operands

The operands of an application are on the stack from when they are rendered until the last one is,
and an instruction among them may stand for a value that it reads there. The trace of nested
applications says what they write, and which operand each of these instructions reads. Rendering
writes what the trace says.
-/

namespace ElispLift

/-- An operand on the stack, and how it is written. -/
structure PlacedOperand where
  node : Node
  text : String

/-- An instruction that reads the stack, and the operand that it reads if there is one. -/
structure StackRead where
  reader : Instruction
  operand : Option PlacedOperand

/-- A result with the reads on the way to it. -/
structure Traced (α : Type) where
  value : α
  reads : List StackRead

namespace Instruction

/-- How many values lie on the one that an instruction reads, if it reads any. -/
def readDepth? (i : Instruction) : Option Nat :=
  if i.isOp .dup then some 0
  else if i.isOp .stackRef then some (i.operandInt?.getD 0).toNat
  else none

/-- What an instruction writes that reads nothing. -/
def plainText (unquoted : Bool) (i : Instruction) : String :=
  if i.isOp .constant then constantText unquoted i.operand
  else if i.isOp .varref then (i.operand.map Operand.toText).getD ""
  else
    match i.kind with
    | .fixed op => op.applied
    | .counted _ _ => ""

variable {i : Instruction} {op : Opcode}

theorem isOp_eq_false (other : Opcode) (hi : i.kind = .fixed op)
    (hclass : op.opClass ≠ other.opClass) : i.isOp other = false := by
  refine decide_eq_false fun h => hclass ?_
  rw [OpKind.fixed.inj (hi.symm.trans h)]

theorem readDepth?_of_isOp (h : i.isOp op = true) (hdup : op ≠ .dup) (href : op ≠ .stackRef) :
    i.readDepth? = none := by
  have hkind : i.kind = .fixed op := of_decide_eq_true h
  simp [readDepth?, isOp, hkind, hdup, href]

theorem readDepth?_of_opClass (hi : i.kind = .fixed op) (hclass : op.opClass ≠ .other) :
    i.readDepth? = none := by
  simp only [readDepth?, isOp_eq_false .dup hi hclass, isOp_eq_false .stackRef hi hclass,
    Bool.false_eq_true, if_false]

theorem plainText_of_opClass (hi : i.kind = .fixed op) (hclass : op.opClass ≠ .other)
    (unquoted : Bool) : i.plainText unquoted = op.applied := by
  simp only [plainText, isOp_eq_false .constant hi hclass, isOp_eq_false .varref hi hclass,
    Bool.false_eq_true, if_false, hi]

end Instruction

/-- How an application to any number of operands is written, given their texts. A call applies the
first of them. -/
def Family.layout : Family → List String → String
  | call, callee :: arguments => "(" ++ (callee ++ Rendering.argumentsText arguments)
  | call, [] => "(" ++ (missingText ++ Rendering.argumentsText [])
  | family, texts => "(" ++ (family.lisp ++ Rendering.argumentsText texts)

namespace Nonterminal

/-- The kinds of operations on a number of operands, and of their operators. -/
def IsOperation (kind operator : Nonterminal) : Prop :=
  kind = binaryExpr ∧ operator = binaryOp ∨ kind = ternaryExpr ∧ operator = ternaryOp

/-- How an application is written, given the texts of its children. The operator of an operation is
its last child. -/
def layout? : Nonterminal → Option (List String → String)
  | binaryExpr | ternaryExpr => some fun texts =>
    "(" ++ (texts.getLastD "" ++ Rendering.argumentsText texts.dropLast)
  | counted family => some family.layout
  | _ => none

end Nonterminal

namespace Node

mutual

/-- What a nested application writes, and what it reads, where the operands in `stack` were rendered
before. -/
def trace (unquoted : Bool) (stack : List PlacedOperand) : Node → Traced String
  | token i =>
    match i.readDepth? with
    | some depth => ⟨(stack[depth]?.map (·.text)).getD missingText, [⟨i, stack[depth]?⟩]⟩
    | none => ⟨i.plainText unquoted, []⟩
  | tree kind children _ =>
    match kind.layout? with
    | some layout =>
      let operands := traceOperands (kind = .counted .call) stack children
      ⟨layout (operands.value.map (·.text)), operands.reads⟩
    | none =>
      let parts := traceParts unquoted stack children
      ⟨if kind = .kbd then "(kbd" ++ (" " ++ (parts.value ++ ")")) else parts.value, parts.reads⟩

/-- The operands of an application, each of which can read those before it. The operator of an
operation comes last, where nothing reads it. Instructions among operands are counts. -/
def traceOperands (unquoted : Bool) (stack : List PlacedOperand) :
    List Node → Traced (List PlacedOperand)
  | [] => ⟨[], []⟩
  | token _ :: rest => traceOperands unquoted stack rest
  | node :: rest =>
    let first := trace unquoted stack node
    let later := traceOperands false (⟨node, first.value⟩ :: stack) rest
    ⟨⟨node, first.value⟩ :: later.value, first.reads ++ later.reads⟩

/-- Parts next to one another, which leave nothing on the stack. -/
def traceParts (unquoted : Bool) (stack : List PlacedOperand) : List Node → Traced String
  | [] => ⟨"", []⟩
  | node :: rest =>
    let first := trace unquoted stack node
    let later := traceParts unquoted stack rest
    ⟨first.value ++ later.value, first.reads ++ later.reads⟩

end

/-- What the node reads are its own operands. -/
def Closed (node : Node) : Prop := ∀ r ∈ (node.trace false []).reads, r.operand.isSome = true

/-- Whether an expression applies an operation or its family. -/
def applies (op : Opcode) (family : Family) (node : Node) : Bool :=
  match node.unwrap with
  | tree .binaryExpr [_, _, o] _ => o.operatorIs op
  | tree (.counted f) _ _ => f = family
  | _ => false

/-- Whether an expression is a function that defines a variable. -/
def isDefinition (node : Node) : Bool :=
  ((node.constant?.bind Instruction.operandText?).bind Idiom.definition?).isSome

/-- Nested applications to constants, variables and values that are read from the stack. Where reads
are to be kept `apart`, what an operand reads does not become a value between other operands when
nested applications become one, and no call is the definition of a variable. -/
inductive StackExpr (apart : Prop) : Node → Prop
  | constant {i : Instruction} {idiom : Option Idiom} (h : i.isOp .constant = true) :
    StackExpr apart (tree .nameExpr [token i] idiom)
  | key {i : Instruction} {idiom : Option Idiom} (h : i.isOp .constant = true) :
    StackExpr apart (tree .kbd [token i] idiom)
  | reference {i : Instruction} {idiom : Option Idiom} (h : i.isOp .varref = true) :
    StackExpr apart (tree .expr [token i] idiom)
  | read {i : Instruction} {idiom : Option Idiom} (h : i.readDepth?.isSome = true) :
    StackExpr apart (tree .expr [token i] idiom)
  | wrapper {node : Node} {idiom : Option Idiom} (h : StackExpr apart node) :
    StackExpr apart (tree .expr [node] idiom)
  | binary {a b op : Node} {o : Opcode} {idiom : Option Idiom}
    (hop : op.opcode? .binaryOp = some o) (hclass : o.opClass = .binary)
    (ha : StackExpr apart a) (hb : StackExpr apart b)
    (hapart : apart → ∀ family, (o, family) ∈ Idiom.associative → a.applies o family = true →
      b.Closed) : StackExpr apart (tree .binaryExpr [a, b, op] idiom)
  | ternary {a b c op : Node} {o : Opcode} {idiom : Option Idiom}
    (hop : op.opcode? .ternaryOp = some o) (hclass : o.opClass = .ternary)
    (ha : StackExpr apart a) (hb : StackExpr apart b) (hc : StackExpr apart c) :
    StackExpr apart (tree .ternaryExpr [a, b, c, op] idiom)
  | counted {family : Family} {children : List Node} {idiom : Option Idiom}
    (hoperands : ∀ c ∈ children, c.isTree = true → StackExpr apart c)
    (hcounts : ∀ i, token i ∈ children → ∃ n, i.kind = .counted family n)
    (hapart : apart → family = .call → ∀ c ∈ children.head?, c.isDefinition = false) :
    StackExpr apart (tree (.counted family) children idiom)

variable {apart : Prop} {unquoted : Bool} {stack : List PlacedOperand} {node op : Node}
  {kind operator : Nonterminal} {o : Opcode} {operands : List Node}

theorem StackExpr.isTree (h : StackExpr apart node) : node.isTree = true := by
  cases h <;> rfl

/-- An operator is written as what it applies, and reads nothing. -/
theorem trace_operator (hkind : kind.IsOperation operator) (hop : op.opcode? operator = some o)
    (hclass : o.opClass ≠ .other) : op.trace unquoted stack = ⟨o.applied, []⟩ := by
  obtain ⟨i, idiom, rfl, hi⟩ := opcode?_eq_some_iff.1 hop
  rcases hkind with ⟨-, rfl⟩ | ⟨-, rfl⟩ <;>
    simp [trace, traceParts, Nonterminal.layout?, Instruction.readDepth?_of_opClass hi hclass,
      Instruction.plainText_of_opClass hi hclass]

/-- The operator of an operation is behind its operands, where nothing reads it. -/
theorem traceOperands_operator (hkind : kind.IsOperation operator)
    (hop : op.opcode? operator = some o) (hclass : o.opClass ≠ .other) :
    traceOperands unquoted stack (operands ++ [op]) =
      ⟨(traceOperands unquoted stack operands).value ++ [⟨op, o.applied⟩],
        (traceOperands unquoted stack operands).reads⟩ := by
  induction operands generalizing unquoted stack with
  | nil =>
    have hoperator := @trace_operator unquoted stack _ _ _ _ hkind hop hclass
    obtain ⟨i, idiom, rfl, hi⟩ := opcode?_eq_some_iff.1 hop
    simp [traceOperands, hoperator]
  | cons node operands ih =>
    cases node with
    | token i => exact ih
    | tree kind children idiom => simp [traceOperands, ih]

/-- An operation is written as its operator applied to its operands. -/
theorem trace_operation {idiom : Option Idiom} (hkind : kind.IsOperation operator)
    (hop : op.opcode? operator = some o) (hclass : o.opClass ≠ .other) :
    (tree kind (operands ++ [op]) idiom).trace unquoted stack =
      ⟨"(" ++ (o.applied ++ Rendering.argumentsText
        ((traceOperands false stack operands).value.map (·.text))),
        (traceOperands false stack operands).reads⟩ := by
  have hoperator := @traceOperands_operator false stack _ _ _ _ operands hkind hop hclass
  rcases hkind with ⟨rfl, -⟩ | ⟨rfl, -⟩ <;> simp [trace, Nonterminal.layout?, hoperator]

end Node

namespace Rendering

open Node

variable {α β : Type} {unquoted : Bool} {values : List StackValue} {s t : String} {a : α} {b : β}
  {render : Node → Rendering Unit}

/-- Among these values on the stack, the rendering writes `s` and results in `a` if it comes to an
end. Else it only notes what is odd. -/
def Puts (unquoted : Bool) (values : List StackValue) (s : String) (a : α) (x : Rendering α) :
    Prop :=
  ∀ p result p', p.unquoted = unquoted → p.values = values → x p = some (result, p') →
    result = a ∧ p' = { p with text := p.text ++ s, issues := p'.issues }

namespace Puts

theorem bind {x : Rendering α} {f : α → Rendering β} (hx : Puts unquoted values s a x)
    (hf : Puts unquoted values t b (f a)) : Puts unquoted values (s ++ t) b (x >>= f) := by
  intro p result p'' hp hvalues hrun
  obtain ⟨a', p', hfirst, hrest⟩ := exists_of_run_bind hrun
  obtain ⟨rfl, hp'⟩ := hx p a' p' hp hvalues hfirst
  obtain ⟨rfl, hp''⟩ := hf p' result p'' (by rw [hp']; exact hp) (by rw [hp']; exact hvalues) hrest
  refine ⟨rfl, ?_⟩
  rw [hp'', hp', String.append_assoc]

/-- What follows a rendering that writes nothing. -/
theorem andThen {x : Rendering α} {f : α → Rendering β} (hx : Puts unquoted values "" a x)
    (hf : Puts unquoted values s b (f a)) : Puts unquoted values s b (x >>= f) := by
  have hboth := hx.bind hf
  rwa [String.empty_append] at hboth

theorem pure (a : α) : Puts unquoted values "" a (pure a) := by
  intro p result p' _ _ hrun
  cases hrun
  exact ⟨rfl, by rw [String.append_empty]⟩

theorem write (s : String) : Puts unquoted values s () (write s) := by
  intro p result p' _ _ hrun
  cases hrun
  exact ⟨rfl, rfl⟩

theorem issue (i : Issue) : Puts unquoted values "" () (issue i) := by
  intro p result p' _ _ hrun
  cases hrun
  exact ⟨rfl, by rw [String.append_empty]⟩

/-- What depends on the page may use its stack and whether it quotes. -/
theorem get_bind {f : Page → Rendering β}
    (hf : ∀ p : Page, p.unquoted = unquoted → p.values = values →
      Puts unquoted values s b (f p)) :
    Puts unquoted values s b (get >>= f) := fun p result p' hp hvalues hrun =>
  hf p hp hvalues p result p' hp hvalues hrun

theorem capture {x : Rendering Unit} (hx : Puts unquoted values s () x) :
    Puts unquoted values "" s (capture x) := by
  intro p result p' hp hvalues hrun
  obtain ⟨⟨⟨⟩, inner⟩, hinner, hrest⟩ := Option.bind_eq_some_iff.1
    (show (x { p with text := "", startColumn := p.indent.utf8ByteSize }).bind _ = some (result, p')
      from hrun)
  obtain ⟨-, hend⟩ := hx { p with text := "", startColumn := p.indent.utf8ByteSize } () inner hp
    hvalues hinner
  cases hrest
  rw [hend]
  exact ⟨String.empty_append, by rw [String.append_empty]⟩

theorem withUnquoted {x : Rendering α} {before : Bool} (hx : Puts unquoted values s a x) :
    Puts before values s a (withUnquoted unquoted x) := by
  intro p result p' hp hvalues hrun
  obtain ⟨⟨found, inner⟩, hinner, hrest⟩ := Option.bind_eq_some_iff.1
    (show (x { p with unquoted }).bind _ = some (result, p') from hrun)
  obtain ⟨rfl, hend⟩ := hx { p with unquoted } found inner rfl hvalues hinner
  cases hrest
  refine ⟨rfl, ?_⟩
  rw [hend]

end Puts

/-- Operands as values on the stack. -/
def stackValues (stack : List PlacedOperand) : List StackValue := stack.map (.operand ·.text)

variable {stack : List PlacedOperand} {nodes : List Node} {node op : Node} {i : Instruction}

theorem puts_arguments (texts : List String) :
    Puts unquoted values (argumentsText texts) () (writeArguments texts) := by
  induction texts with
  | nil => exact .write ")"
  | cons text texts ih => exact (Puts.write _).bind ih

theorem puts_missingText (i : Issue) :
    Puts unquoted values "" missingText (do issue i; return missingText) :=
  (Puts.issue i).andThen (.pure missingText)

theorem puts_stackRef (depth offset : Nat) : Puts unquoted (stackValues stack) ""
    ((stack[depth]?.map (·.text)).getD missingText) (stackRef render depth offset) := by
  refine .get_bind fun p _ hvalues => ?_
  rw [hvalues, stackValues, List.getElem?_map]
  cases stack[depth]? with
  | none => exact puts_missingText _
  | some operand => exact .pure _

theorem puts_peek : Puts unquoted (stackValues stack) ""
    ((stack[0]?.map (·.text)).getD missingText) (peek render) := by
  refine .get_bind fun p _ hvalues => ?_
  rw [hvalues]
  cases stack with
  | nil => exact puts_missingText _
  | cons operand stack => exact .pure _

/-- The instructions of nested applications write what the trace says. -/
theorem puts_instruction (h : i.isOp .constant = true ∨ i.isOp .varref = true ∨
    i.readDepth?.isSome = true ∨ ∃ op, i.kind = .fixed op ∧ op.opClass ≠ .other) :
    Puts unquoted (stackValues stack) ((token i).trace unquoted stack).value ()
      (instruction render i) := by
  refine Puts.andThen (a := ((token i).trace unquoted stack).value) ?_ (.write _)
  obtain ⟨kind, operand, offset, label⟩ := i
  rcases h with h | h | h | ⟨op, h, hclass⟩
  · obtain rfl : kind = .fixed .constant := of_decide_eq_true h
    exact .get_bind fun p hp _ => hp ▸ .pure _
  · obtain rfl : kind = .fixed .varref := of_decide_eq_true h
    exact .pure _
  · by_cases hdup : kind = .fixed .dup
    · subst hdup
      exact puts_peek
    · by_cases href : kind = .fixed .stackRef
      · subst href
        exact puts_stackRef _ _
      · simp [Instruction.readDepth?, Instruction.isOp, hdup, href] at h
  · obtain rfl : kind = .fixed op := h
    cases op <;> first | exact (hclass rfl).elim | exact .pure _

/-- Every expression among the nodes is rendered as its trace says. -/
def Follows (render : Node → Rendering Unit) (nodes : List Node) : Prop :=
  ∀ c ∈ nodes, c.isTree = true → ∀ unquoted stack,
    Puts unquoted (stackValues stack) (c.trace unquoted stack).value () (render c)

/-- The operands so far are on the stack, the last one on its top. -/
theorem run_toOperands_follows (h : Follows render nodes) {unquoted : Bool} {p p' : Page}
    {texts : List String} (hp : p.values = stackValues stack)
    (hrun : toOperands render unquoted (nodes.filter isTree) p = some (texts, p')) :
    texts = (traceOperands unquoted stack nodes).value.map (·.text) ∧
      p' = { p with
        values := (texts.map StackValue.operand).reverse ++ p.values, issues := p'.issues } := by
  induction nodes generalizing unquoted stack p texts with
  | nil =>
    cases hrun
    exact ⟨rfl, rfl⟩
  | cons node nodes ih =>
    have hnodes : Follows render nodes := fun c hc => h c (List.mem_cons_of_mem _ hc)
    cases node with
    | token i => exact ih hnodes hp hrun
    | tree kind children idiom =>
      have hfirst : Puts p.unquoted (stackValues stack) "" _ (withUnquoted unquoted _) :=
        (h (.tree kind children idiom) (by simp) rfl unquoted stack).capture.withUnquoted
      rw [List.filter_cons_of_pos rfl, toOperands] at hrun
      obtain ⟨text, p₁, hcapture, hrun⟩ := exists_of_run_bind hrun
      obtain ⟨rfl, hp₁⟩ := hfirst p text p₁ rfl hp hcapture
      obtain ⟨⟨⟩, p₂, hpush, hrun⟩ := exists_of_run_bind hrun
      obtain ⟨later, p₃, hlater, hrun⟩ := exists_of_run_bind hrun
      cases hrun
      cases hpush
      have hstack : p₁.values = stackValues stack := by rw [hp₁, hp]
      obtain ⟨rfl, hp'⟩ := @ih (⟨.tree kind children idiom, _⟩ :: stack) hnodes _ _ _
        (congrArg (StackValue.operand _ :: ·) hstack) hlater
      refine ⟨rfl, ?_⟩
      rw [hp', hp₁]
      simp

/-- Operands are taken off the stack that they were put on. -/
theorem puts_operands_of_run {firstUnquoted : Bool} {texts : List String}
    (h : ∀ p found p', p.values = values →
      toOperands render firstUnquoted nodes p = some (found, p') → found = texts ∧ p' = { p with
        values := (found.map StackValue.operand).reverse ++ p.values, issues := p'.issues }) :
    Puts unquoted values "" texts (operands render firstUnquoted nodes) := by
  intro p result p' _ hvalues hrun
  obtain ⟨found, p₁, hfound, hrun⟩ := exists_of_run_bind hrun
  obtain ⟨htexts, hp₁⟩ := h p found p₁ hvalues hfound
  cases hrun
  have hdrop := dropOperands_append (result.map StackValue.operand).reverse p.values fun v hv => by
    obtain ⟨text, -, rfl⟩ := List.mem_map.1 (List.mem_reverse.1 hv)
    rfl
  rw [List.length_reverse, List.length_map] at hdrop
  refine ⟨htexts, ?_⟩
  rw [hp₁]
  dsimp only
  rw [hdrop, String.append_empty]

theorem puts_operands (h : Follows render nodes) {firstUnquoted : Bool} :
    Puts unquoted (stackValues stack) ""
      ((traceOperands firstUnquoted stack nodes).value.map (·.text))
      (operands render firstUnquoted (nodes.filter isTree)) :=
  puts_operands_of_run fun _ _ _ hvalues hrun => run_toOperands_follows h hvalues hrun

theorem puts_layout (family : Family) (texts : List String) :
    Puts unquoted values (family.layout texts) () (do
      write "("
      match family, texts with
      | .call, callee :: arguments => do
        write callee
        writeArguments arguments
      | .call, [] => do
        missing node (some 0)
        writeArguments []
      | _, _ => do
        write family.lisp
        writeArguments texts) := by
  have happlied : ∀ name texts, Puts unquoted values ("(" ++ (name ++ argumentsText texts)) () (do
      write "("; write name; writeArguments texts) := fun name texts =>
    (Puts.write _).bind ((Puts.write _).bind (puts_arguments _))
  have hmissing : Puts unquoted values missingText () (missing node (some 0)) :=
    (Puts.issue _).andThen (.write _)
  cases family with
  | call =>
    cases texts with
    | nil => exact (Puts.write _).bind (hmissing.bind (puts_arguments []))
    | cons callee arguments => exact happlied callee arguments
  | _ => exact happlied _ texts

theorem puts_counted {family : Family} {idiom : Option Idiom} (h : Follows render nodes) :
    Puts unquoted (stackValues stack)
      ((Node.tree (.counted family) nodes idiom).trace unquoted stack).value ()
      (countedApplication render (.tree (.counted family) nodes idiom) family) := by
  have hcall : decide (Nonterminal.counted family = .counted .call) = decide (family = .call) := by
    simp
  rw [trace]
  simp only [Nonterminal.layout?, hcall]
  exact (puts_operands h).andThen (puts_layout family _)

/-- With no levels left there is no rendering. -/
theorem puts_node_zero : Puts unquoted values s () (Rendering.node 0 node) := by
  intro p result p' _ _ hrun
  cases hrun

theorem puts_each (h : Puts unquoted values s () (render node)) :
    Puts unquoted values (s ++ "") () (each render [node]) := h.bind (.pure ())

theorem puts_token (h : i.isOp .constant = true ∨ i.isOp .varref = true ∨
    i.readDepth?.isSome = true ∨ ∃ op, i.kind = .fixed op ∧ op.opClass ≠ .other) (levels : Nat) :
    Puts unquoted (stackValues stack) ((token i).trace unquoted stack).value ()
      (Rendering.node levels (token i)) := by
  cases levels with
  | zero => exact puts_node_zero
  | succ levels => exact puts_instruction h

theorem puts_operator {kind operator : Nonterminal} {o : Opcode}
    (hkind : kind.IsOperation operator) (hop : op.opcode? operator = some o)
    (hclass : o.opClass ≠ .other) (levels : Nat) :
    Puts unquoted (stackValues stack) o.applied () (Rendering.node levels op) := by
  obtain ⟨i, idiom, rfl, hi⟩ := opcode?_eq_some_iff.1 hop
  cases levels with
  | zero => exact puts_node_zero
  | succ levels =>
    have htoken : Puts unquoted (stackValues stack) _ () _ :=
      puts_each (puts_token (.inr (.inr (.inr ⟨o, hi, hclass⟩))) levels)
    simp only [trace, Instruction.readDepth?_of_opClass hi hclass,
      Instruction.plainText_of_opClass hi hclass, String.append_empty] at htoken
    rcases hkind with ⟨-, rfl⟩ | ⟨-, rfl⟩ <;> exact htoken

theorem puts_operation {kind operator : Nonterminal} {o : Opcode} {args : List Node}
    {idiom : Option Idiom} {levels : Nat} (hkind : kind.IsOperation operator)
    (hop : op.opcode? operator = some o) (hclass : o.opClass ≠ .other)
    (htrees : ∀ a ∈ args, a.isTree = true) (hargs : Follows (Rendering.node levels) args) :
    Puts unquoted (stackValues stack)
      ((Node.tree kind (args ++ [op]) idiom).trace unquoted stack).value ()
      (Rendering.node (levels + 1) (.tree kind (args ++ [op]) idiom)) := by
  have hoperands : Puts unquoted (stackValues stack) ""
      ((traceOperands false stack args).value.map (·.text))
      (operands (Rendering.node levels) false (args.filter isTree)) := puts_operands hargs
  rw [List.filter_eq_self.2 htrees] at hoperands
  have happlication : Puts unquoted (stackValues stack) ("(" ++ (o.applied ++ argumentsText
      ((traceOperands false stack args).value.map (·.text)))) ()
      (application (Rendering.node levels) (.tree kind (args ++ [op]) idiom)) := by
    rw [application, Node.children, List.getLast?_concat, List.dropLast_concat]
    exact hoperands.andThen ((Puts.write _).bind
      ((puts_operator hkind hop hclass levels).bind (puts_arguments _)))
  rw [trace_operation hkind hop hclass]
  rcases hkind with ⟨rfl, -⟩ | ⟨rfl, -⟩ <;> exact happlication

/-- Rendering nested applications writes what their trace says, where the operands rendered before
are on the stack. -/
theorem puts_node {apart : Prop} (h : StackExpr apart node) (levels : Nat) :
    ∀ unquoted stack, Puts unquoted (stackValues stack) (node.trace unquoted stack).value ()
      (Rendering.node levels node) := by
  intro unquoted stack
  induction h generalizing levels unquoted stack with
  | constant h =>
    cases levels with
    | zero => exact puts_node_zero
    | succ levels => exact puts_each (puts_token (.inl h) levels)
  | @key i idiom h =>
    cases levels with
    | zero => exact puts_node_zero
    | succ levels =>
      have htoken : Puts unquoted (stackValues stack) _ () (Rendering.node levels (token i)) :=
        puts_token (.inl h) levels
      have htext : ((Node.tree .kbd [token i] idiom).trace unquoted stack).value = "(kbd" ++ (" " ++
          (((token i).trace unquoted stack).value ++ (")" ++ ""))) := by
        simp [trace, traceParts, Nonterminal.layout?]
      rw [htext]
      exact (Puts.write "(kbd").bind ((Puts.write " ").bind
        (htoken.bind ((Puts.write ")").bind (.pure ()))))
  | reference h =>
    cases levels with
    | zero => exact puts_node_zero
    | succ levels => exact puts_each (puts_token (.inr (.inl h)) levels)
  | read h =>
    cases levels with
    | zero => exact puts_node_zero
    | succ levels => exact puts_each (puts_token (.inr (.inr (.inl h))) levels)
  | wrapper h ih =>
    cases levels with
    | zero => exact puts_node_zero
    | succ levels => exact puts_each (ih levels unquoted stack)
  | @binary a b op o idiom hop hclass ha hb _ iha ihb =>
    cases levels with
    | zero => exact puts_node_zero
    | succ levels =>
      have hargs : Follows (Rendering.node levels) [a, b] := List.forall_mem_cons.2
        ⟨fun _ => iha levels, List.forall_mem_singleton.2 fun _ => ihb levels⟩
      rw [show [a, b, op] = [a, b] ++ [op] from rfl]
      exact puts_operation (.inl ⟨rfl, rfl⟩) hop (by simp [hclass])
        (by simp [ha.isTree, hb.isTree]) hargs
  | @ternary a b c op o idiom hop hclass ha hb hc iha ihb ihc =>
    cases levels with
    | zero => exact puts_node_zero
    | succ levels =>
      have hargs : Follows (Rendering.node levels) [a, b, c] := List.forall_mem_cons.2
        ⟨fun _ => iha levels, List.forall_mem_cons.2 ⟨fun _ => ihb levels,
          List.forall_mem_singleton.2 fun _ => ihc levels⟩⟩
      rw [show [a, b, c, op] = [a, b, c] ++ [op] from rfl]
      exact puts_operation (.inr ⟨rfl, rfl⟩) hop (by simp [hclass])
        (by simp [ha.isTree, hb.isTree, hc.isTree]) hargs
  | counted hoperands hcounts hapart ih =>
    cases levels with
    | zero => exact puts_node_zero
    | succ levels => exact puts_counted fun c hc htree => ih c hc htree levels

end Rendering

namespace Node

variable {apart : Prop} {node op : Node} {kind operator : Nonterminal} {o : Opcode}

theorem loopsStartQuiet_token (i : Instruction) : (token i).LoopsStartQuiet := by
  simp [LoopsStartQuiet, subnodes, startsQuiet]

theorem loopsStartQuiet_operator (hop : op.opcode? operator = some o)
    (hkind : kind.IsOperation operator) : op.LoopsStartQuiet := by
  obtain ⟨i, idiom, rfl, -⟩ := opcode?_eq_some_iff.1 hop
  refine loopsStartQuiet_tree.2 ⟨?_, List.forall_mem_singleton.2 (loopsStartQuiet_token i)⟩
  rcases hkind with ⟨-, rfl⟩ | ⟨-, rfl⟩ <;> rfl

namespace StackExpr

theorem loopsStartQuiet (h : StackExpr apart node) : node.LoopsStartQuiet := by
  induction h with
  | constant | key | reference | read =>
    exact loopsStartQuiet_tree.2 ⟨rfl, List.forall_mem_singleton.2 (loopsStartQuiet_token _)⟩
  | wrapper _ ih => exact loopsStartQuiet_tree.2 ⟨rfl, List.forall_mem_singleton.2 ih⟩
  | binary hop _ _ _ _ iha ihb =>
    have hoperator := loopsStartQuiet_operator hop (.inl ⟨rfl, rfl⟩)
    exact loopsStartQuiet_tree.2 ⟨rfl, by simp [iha, ihb, hoperator]⟩
  | ternary hop _ _ _ _ iha ihb ihc =>
    have hoperator := loopsStartQuiet_operator hop (.inr ⟨rfl, rfl⟩)
    exact loopsStartQuiet_tree.2 ⟨rfl, by simp [iha, ihb, ihc, hoperator]⟩
  | counted _ _ _ ih =>
    refine loopsStartQuiet_tree.2 ⟨rfl, fun c hc => ?_⟩
    cases c with
    | token i => exact loopsStartQuiet_token i
    | tree kind children idiom => exact ih _ hc rfl

/-- The source of nested applications is what their trace says. -/
theorem exists_render (h : StackExpr apart node) (indent : String) :
    ∃ source, node.render indent = .ok source ∧
      source.text = Text.spaces indent.utf8ByteSize ++ (node.trace false []).value := by
  obtain ⟨page, hrun, hrender, -⟩ := exists_page h.loopsStartQuiet (False.elim : False → _) indent
  obtain ⟨-, hpage⟩ := Rendering.puts_node h _ false [] (.start indent) () page rfl rfl hrun
  refine ⟨_, hrender, ?_⟩
  rw [hpage]
  change Text.spaces indent.utf8ByteSize ++ ("" ++ _) = _
  rw [String.empty_append]

end StackExpr

end Node

end ElispLift
