import ElispLift.Proofs.Source.Reads

/-!
# Quotes of callees

A call names its function without a quote. The callee may be a form itself, with forms in it, and a
constant is looked at from where it stands: its path says in which part of which form it is, up to
the outermost form. Which paths take the quote away decides what is written. Operands get their
quotes back, but those of unary operations and of `set` do not.
-/

namespace ElispLift.Quotes

open Node Rendering

/-! ### Forms -/

/-- What is only around an expression. -/
inductive Wrapper where
  | expr
  | nameExpr
deriving DecidableEq

def Wrapper.kind : Wrapper → Nonterminal
  | expr => .expr
  | nameExpr => .nameExpr

/-- An instruction that applies a function. -/
structure Operator where
  instruction : Instruction
  op : Opcode
  kind_eq : instruction.kind = .fixed op
  applies : op.opClass ≠ .other

/-- Calls and other applications, nested to any depth. Instructions may read the operands that were
rendered before them. -/
inductive Form where
  | constant (wrapper : Wrapper) (i : Instruction) (h : i.isOp .constant = true)
  | reference (i : Instruction) (h : i.isOp .varref = true)
  | read (i : Instruction) (h : i.readDepth?.isSome = true)
  | wrapped (wrapper : Wrapper) (form : Form)
  | nullary (operator : Operator)
  | unary (argument : Form) (operator : Operator)
  | binary (arguments : List Form) (operator : Operator)
  | ternary (arguments : List Form) (operator : Operator)
  | set (name value : Form) (i : Instruction)
  /-- A call applies the first of its operands. -/
  | counted (family : Family) (operands : List Form) (i : Instruction)

/-- In which part of a form another form is. -/
inductive Place where
  | callee
  | operand
  | unaryOperand
  | partOfSet
deriving DecidableEq

namespace Place

/-- Where the operands of an application start. -/
def first (family : Family) : Place := if family = .call then callee else operand

/-- Whether a path, from the inside out, is that of a callee. -/
def isCallee (path : List Place) : Bool := path.head? = some callee

/-- Whether a constant has no quote. -/
def losesQuote : List Place → Bool
  | callee :: _ => true
  | unaryOperand :: outer | partOfSet :: outer => losesQuote outer
  | operand :: _ | [] => false

/-- The path leads to a callee, and from there only through unary operations and `set`. -/
def IsBelowCallee (path : List Place) : Prop :=
  ∃ below outer, path = below ++ callee :: outer ∧ below ≠ [] ∧
    ∀ p ∈ below, p = unaryOperand ∨ p = partOfSet

end Place

namespace Form

mutual

/-- The syntax tree of a form. -/
def node : Form → Node
  | constant wrapper i _ => .plain wrapper.kind [.token i]
  | reference i _ | read i _ => .plain .expr [.token i]
  | wrapped wrapper form => .plain wrapper.kind [form.node]
  | nullary operator => .plain .nullaryExpr [.plain .nullaryOp [.token operator.instruction]]
  | unary argument operator =>
    .plain .unaryExpr [argument.node, .plain .unaryOp [.token operator.instruction]]
  | binary arguments operator =>
    .plain .binaryExpr (nodes arguments ++ [.plain .binaryOp [.token operator.instruction]])
  | ternary arguments operator =>
    .plain .ternaryExpr (nodes arguments ++ [.plain .ternaryOp [.token operator.instruction]])
  | set name value i => .plain .setExpr [name.node, value.node, .token i]
  | counted family operands i => .plain (.counted family) (nodes operands ++ [.token i])

def nodes : List Form → List Node
  | [] => []
  | form :: rest => form.node :: nodes rest

end

mutual

/-- How a form is written at a path, if the paths that satisfy `loses` take the quotes from
constants, and the operands in `stack` were rendered before. -/
def text (loses : List Place → Bool) (path : List Place) (stack : List PlacedOperand) :
    Form → String
  | constant _ i _ => constantText (loses path) i.operand
  | reference i _ => (i.operand.map Operand.toText).getD ""
  | read i _ => (stack[i.readDepth?.getD 0]?.map (·.text)).getD missingText
  | wrapped _ form => form.text loses path stack
  | nullary operator => "(" ++ (operator.op.applied ++ argumentsText [])
  | unary argument operator =>
    "(" ++ (operator.op.applied ++
      argumentsText [argument.text loses (.unaryOperand :: path) stack])
  | binary arguments operator | ternary arguments operator =>
    "(" ++ (operator.op.applied ++ argumentsText (texts loses .operand path stack arguments))
  | set name value _ =>
    "(set" ++ argumentsText [name.text loses (.partOfSet :: path) stack,
      value.text loses (.partOfSet :: path) stack]
  | counted family operands _ =>
    family.layout (texts loses (.first family) path stack operands)

/-- The operands of an application, the first of them in a place of its own. -/
def texts (loses : List Place → Bool) (first : Place) (path : List Place)
    (stack : List PlacedOperand) : List Form → List String
  | [] => []
  | form :: rest =>
    let s := form.text loses (first :: path) stack
    s :: texts loses .operand path (⟨form.node, s⟩ :: stack) rest

end

mutual

/-- The constants of a form with their paths. -/
def constants (path : List Place) : Form → List (List Place × Option Operand)
  | constant _ i _ => [(path, i.operand)]
  | reference _ _ | read _ _ | nullary _ => []
  | wrapped _ form => form.constants path
  | unary argument _ => argument.constants (.unaryOperand :: path)
  | binary arguments _ | ternary arguments _ => constantsOf .operand path arguments
  | set name value _ =>
    name.constants (.partOfSet :: path) ++ value.constants (.partOfSet :: path)
  | counted family operands _ => constantsOf (.first family) path operands

def constantsOf (first : Place) (path : List Place) :
    List Form → List (List Place × Option Operand)
  | [] => []
  | form :: rest => form.constants (first :: path) ++ constantsOf .operand path rest

end

variable {loses loses' : List Place → Bool}

mutual

/-- Forms are written alike if their constants are. -/
theorem text_congr : ∀ (form : Form) (path : List Place) (stack : List PlacedOperand),
    (∀ c ∈ form.constants path, constantText (loses c.1) c.2 = constantText (loses' c.1) c.2) →
      form.text loses path stack = form.text loses' path stack
  | constant _ i _, path, stack, h => h (path, i.operand) (List.mem_singleton_self _)
  | reference _ _, _, _, _ | read _ _, _, _, _ | nullary _, _, _, _ => rfl
  | wrapped _ form, path, stack, h => text_congr form path stack h
  | unary argument _, path, stack, h => by
    rw [text, text, text_congr argument _ stack h]
  | binary arguments _, path, stack, h | ternary arguments _, path, stack, h => by
    rw [text, text, texts_congr arguments .operand path stack h]
  | set name value _, path, stack, h => by
    rw [text, text, text_congr name _ stack fun c hc => h c (List.mem_append_left _ hc),
      text_congr value _ stack fun c hc => h c (List.mem_append_right _ hc)]
  | counted family operands _, path, stack, h => by
    rw [text, text, texts_congr operands (.first family) path stack h]

theorem texts_congr : ∀ (forms : List Form) (first : Place) (path : List Place)
    (stack : List PlacedOperand), (∀ c ∈ constantsOf first path forms,
      constantText (loses c.1) c.2 = constantText (loses' c.1) c.2) →
      texts loses first path stack forms = texts loses' first path stack forms
  | [], _, _, _, _ => rfl
  | form :: rest, first, path, stack, h => by
    rw [texts, texts, text_congr form _ stack fun c hc => h c (List.mem_append_left _ hc),
      texts_congr rest .operand path _ fun c hc => h c (List.mem_append_right _ hc)]

end

end Form

namespace Place

theorem losesQuote_iff {path : List Place} : losesQuote path = true ↔
    ∃ below outer, path = below ++ callee :: outer ∧
      ∀ p ∈ below, p = unaryOperand ∨ p = partOfSet := by
  induction path with
  | nil => simp [losesQuote]
  | cons p outer ih =>
    cases p with
    | callee => exact ⟨fun _ => ⟨[], outer, rfl, by simp⟩, fun _ => rfl⟩
    | operand =>
      simp only [losesQuote, Bool.false_eq_true, false_iff]
      rintro ⟨_ | ⟨q, below⟩, outer', hpath, hbelow⟩
      · cases hpath
      · obtain ⟨rfl, -⟩ := List.cons.inj hpath
        simpa using hbelow operand (by simp)
    | unaryOperand | partOfSet =>
      rw [losesQuote, ih]
      constructor
      · rintro ⟨below, outer', rfl, hbelow⟩
        exact ⟨_ :: below, outer', rfl, List.forall_mem_cons.2 ⟨by simp, hbelow⟩⟩
      · rintro ⟨_ | ⟨q, below⟩, outer', hpath, hbelow⟩
        · cases hpath
        · obtain ⟨-, rfl⟩ := List.cons.inj hpath
          exact ⟨below, outer', rfl, fun p hp => hbelow p (List.mem_cons_of_mem _ hp)⟩

/-- A constant that is no callee has its quote, unless it is in a callee below unary operations and
`set` only. -/
theorem losesQuote_eq_isCallee {path : List Place} (h : ¬ IsBelowCallee path) :
    losesQuote path = isCallee path := by
  rw [Bool.eq_iff_iff, losesQuote_iff, isCallee, decide_eq_true_iff]
  constructor
  · rintro ⟨below, outer, rfl, hbelow⟩
    by_cases hne : below = []
    · rw [hne]
      rfl
    · exact (h ⟨below, outer, rfl, hne, hbelow⟩).elim
  · intro hhead
    obtain ⟨outer, rfl⟩ := List.head?_eq_some_iff.1 hhead
    exact ⟨[], outer, rfl, by simp⟩

end Place

/-! ### Rendering -/

section

variable {render : Node → Rendering Unit} {path : List Place} {stack : List PlacedOperand}
  {unquoted : Bool} {forms : List Form}

theorem Form.isTree_node (form : Form) : form.node.isTree = true := by cases form <;> rfl

theorem Form.filter_nodes (forms : List Form) (i : Instruction) :
    (nodes forms ++ [Node.token i]).filter isTree = nodes forms := by
  induction forms with
  | nil => rfl
  | cons form rest ih => rw [nodes, List.cons_append, List.filter_cons_of_pos form.isTree_node, ih]

/-- What every form is written as, wherever it is. -/
def RendersForms (render : Node → Rendering Unit) : Prop :=
  ∀ (form : Form) (path : List Place) (stack : List PlacedOperand),
    Puts (Place.losesQuote path) (stackValues stack) (form.text Place.losesQuote path stack) ()
      (render form.node)

/-- The operands so far are on the stack, the last one on its top. -/
theorem run_toOperands_forms (h : RendersForms render) {first : Place} {p p' : Page}
    {texts : List String} (hp : p.values = stackValues stack)
    (hrun : toOperands render (Place.losesQuote (first :: path)) (Form.nodes forms) p =
      some (texts, p')) :
    texts = Form.texts Place.losesQuote first path stack forms ∧
      p' = { p with
        values := (texts.map StackValue.operand).reverse ++ p.values, issues := p'.issues } := by
  induction forms generalizing first stack p texts with
  | nil =>
    cases hrun
    exact ⟨rfl, rfl⟩
  | cons form rest ih =>
    have hfirst : Puts p.unquoted (stackValues stack) "" _ (withUnquoted _ _) :=
      (h form (first :: path) stack).capture.withUnquoted
    rw [Form.nodes, toOperands] at hrun
    obtain ⟨text, p₁, hcapture, hrun⟩ := exists_of_run_bind hrun
    obtain ⟨rfl, hp₁⟩ := hfirst p text p₁ rfl hp hcapture
    obtain ⟨⟨⟩, p₂, hpush, hrun⟩ := exists_of_run_bind hrun
    obtain ⟨later, p₃, hlater, hrun⟩ := exists_of_run_bind hrun
    cases hrun
    cases hpush
    have hstack : p₁.values = stackValues stack := by rw [hp₁, hp]
    obtain ⟨rfl, hp'⟩ := @ih (⟨form.node, _⟩ :: stack) .operand _ _
      (congrArg (StackValue.operand _ :: ·) hstack) hlater
    refine ⟨rfl, ?_⟩
    rw [hp', hp₁]
    simp

theorem puts_operands_forms (h : RendersForms render) (forms : List Form) (first : Place)
    (path : List Place) :
    Puts unquoted (stackValues stack) "" (Form.texts Place.losesQuote first path stack forms)
      (operands render (Place.losesQuote (first :: path)) (Form.nodes forms)) :=
  puts_operands_of_run fun _ _ _ hvalues hrun => run_toOperands_forms h hvalues hrun

/-- The node of an operator writes the function that it applies. -/
theorem puts_operator_of_each (kind : Nonterminal) (operator : Operator) (levels : Nat)
    (hkind : ∀ render node, Rendering.tree render kind node = each render node.children) :
    Puts unquoted (stackValues stack) operator.op.applied ()
      (Rendering.node levels (.plain kind [.token operator.instruction])) := by
  cases levels with
  | zero => exact puts_node_zero
  | succ levels =>
    have htoken : Puts unquoted (stackValues stack) _ () _ :=
      puts_each (puts_token (.inr (.inr (.inr ⟨_, operator.kind_eq, operator.applies⟩))) levels)
    simp only [trace, Instruction.readDepth?_of_opClass operator.kind_eq operator.applies,
      Instruction.plainText_of_opClass operator.kind_eq operator.applies, String.append_empty]
      at htoken
    change Puts _ _ _ () (Rendering.tree _ kind _)
    rw [hkind]
    exact htoken

theorem puts_wrapped {node : Node} {s : String} (wrapper : Wrapper)
    (h : Puts unquoted (stackValues stack) s () (render node)) :
    Puts unquoted (stackValues stack) s ()
      (form render (.plain wrapper.kind [node])) := by
  have hnode := puts_each h
  rw [String.append_empty] at hnode
  cases wrapper <;> exact hnode

/-- Operations write their operator before the operands. -/
theorem puts_application {node operator : Node} {operands : List Form} {name : String}
    (h : RendersForms render) (path : List Place)
    (hchildren : node.children = Form.nodes operands ++ [operator])
    (hoperator : Puts unquoted (stackValues stack) name () (render operator)) :
    Puts unquoted (stackValues stack) ("(" ++ (name ++ argumentsText
      (Form.texts Place.losesQuote .operand path stack operands))) ()
      (application render node) := by
  rw [application, hchildren, List.getLast?_concat, List.dropLast_concat]
  exact (puts_operands_forms h operands .operand path).andThen
    ((Puts.write _).bind (hoperator.bind (puts_arguments _)))

theorem puts_unary {argument operator : Node} {name s : String}
    (hargument : Puts unquoted (stackValues stack) s () (render argument))
    (htree : argument.isTree = true)
    (hoperator : Puts unquoted (stackValues stack) name () (render operator)) :
    Puts unquoted (stackValues stack) ("(" ++ (name ++ argumentsText [s])) ()
      (unary render (.plain .unaryExpr [argument, operator])) := by
  have haccess : argument.isOp .stackAccess = false := by
    cases argument with
    | token i => cases htree
    | tree => rfl
  have hrest : Puts unquoted (stackValues stack) (" " ++ (s ++ ")")) () (do
      write " "
      render argument
      write ")") := (Puts.write _).bind (hargument.bind (.write _))
  rw [← String.append_assoc] at hrest
  change Puts _ _ _ () (do
    write "("
    render operator
    write " "
    if argument.isOp .stackAccess then write (← pop render) else render argument
    write ")")
  rw [haccess]
  exact (Puts.write _).bind (hoperator.bind hrest)

theorem puts_set {name value : Node} {rest : List Node} {s t : String}
    (hname : Puts unquoted (stackValues stack) s () (render name))
    (hvalue : Puts unquoted (stackValues stack) t () (render value)) :
    Puts unquoted (stackValues stack) ("(set" ++ argumentsText [s, t]) ()
      (fill render (.plain .setExpr (name :: value :: rest))
        (Directive.call "set" [.child 0, .child 1])) := by
  have hfill : Puts unquoted (stackValues stack)
      ("(set" ++ (" " ++ (s ++ (" " ++ (t ++ (")" ++ "")))))) () (fill render
        (.plain .setExpr (name :: value :: rest)) (Directive.call "set" [.child 0, .child 1])) :=
    (Puts.write _).bind ((Puts.write _).bind (hname.bind ((Puts.write _).bind (hvalue.bind
      ((Puts.write _).bind (.pure ()))))))
  simpa [argumentsText, String.append_assoc] using hfill

end

/-- Every form is rendered as it is written with the quotes that are lost. -/
theorem rendersForms_node (levels : Nat) : RendersForms (Rendering.node levels) := by
  induction levels with
  | zero => exact fun _ _ _ => puts_node_zero
  | succ levels ih =>
    intro f path stack
    cases f with
    | constant wrapper i h =>
      have htoken : Puts (Place.losesQuote path) (stackValues stack) _ () _ :=
        puts_wrapped wrapper (puts_token (.inl h) levels)
      have htext : ((Node.token i).trace (Place.losesQuote path) stack).value =
          constantText (Place.losesQuote path) i.operand := by
        simp [trace, Instruction.readDepth?_of_isOp h (by decide) (by decide),
          Instruction.plainText, h]
      rwa [htext] at htoken
    | reference i h =>
      have htoken : Puts (Place.losesQuote path) (stackValues stack) _ () _ :=
        puts_wrapped .expr (puts_token (.inr (.inl h)) levels)
      have htext : ((Node.token i).trace (Place.losesQuote path) stack).value =
          (i.operand.map Operand.toText).getD "" := by
        simp [trace, Instruction.readDepth?_of_isOp h (by decide) (by decide),
          Instruction.plainText, Instruction.isOp, of_decide_eq_true h]
      rwa [htext] at htoken
    | read i h =>
      have htoken : Puts (Place.losesQuote path) (stackValues stack) _ () _ :=
        puts_wrapped .expr (puts_token (.inr (.inr (.inl h))) levels)
      obtain ⟨depth, hdepth⟩ := Option.isSome_iff_exists.1 h
      have htext : ((Node.token i).trace (Place.losesQuote path) stack).value =
          (stack[depth]?.map (·.text)).getD missingText := by
        simp [trace, hdepth]
      rw [htext] at htoken
      rw [Form.text, hdepth]
      exact htoken
    | wrapped wrapper form => exact puts_wrapped wrapper (ih form path stack)
    | nullary operator =>
      have hoperator : Puts (Place.losesQuote path) (stackValues stack) _ () _ :=
        puts_operator_of_each .nullaryOp operator levels fun _ _ => rfl
      exact (Puts.write _).bind (hoperator.bind ((Puts.write ")").bind (.pure ())))
    | unary argument operator =>
      exact puts_unary (ih argument (.unaryOperand :: path) stack) argument.isTree_node
        (puts_operator_of_each _ operator levels fun _ _ => rfl)
    | binary arguments operator =>
      exact puts_application ih path rfl (puts_operator_of_each _ operator levels fun _ _ => rfl)
    | ternary arguments operator =>
      exact puts_application ih path rfl (puts_operator_of_each _ operator levels fun _ _ => rfl)
    | set name value i =>
      exact puts_set (ih name (.partOfSet :: path) stack) (ih value (.partOfSet :: path) stack)
    | counted family operands i =>
      have hfirst : Place.losesQuote (.first family :: path) = decide (family = .call) := by
        cases family <;> rfl
      have hoperands : Puts (Place.losesQuote path) (stackValues stack) "" _ _ :=
        puts_operands_forms ih operands (.first family) path
      rw [hfirst, ← Form.filter_nodes operands i] at hoperands
      exact hoperands.andThen (puts_layout family _)

namespace Form

mutual

theorem loopsStartQuiet : ∀ form : Form, form.node.LoopsStartQuiet
  | constant wrapper i _ => by
    refine loopsStartQuiet_tree.2 ⟨?_, List.forall_mem_singleton.2 (loopsStartQuiet_token i)⟩
    cases wrapper <;> rfl
  | reference i _ | read i _ =>
    loopsStartQuiet_tree.2 ⟨rfl, List.forall_mem_singleton.2 (loopsStartQuiet_token i)⟩
  | wrapped wrapper form => by
    refine loopsStartQuiet_tree.2 ⟨?_, List.forall_mem_singleton.2 form.loopsStartQuiet⟩
    cases wrapper <;> rfl
  | nullary operator =>
    loopsStartQuiet_tree.2 ⟨rfl, List.forall_mem_singleton.2 (loopsStartQuiet_tree.2
      ⟨rfl, List.forall_mem_singleton.2 (loopsStartQuiet_token _)⟩)⟩
  | unary argument operator =>
    loopsStartQuiet_tree.2 ⟨rfl, List.forall_mem_cons.2 ⟨argument.loopsStartQuiet,
      List.forall_mem_singleton.2 (loopsStartQuiet_tree.2
        ⟨rfl, List.forall_mem_singleton.2 (loopsStartQuiet_token _)⟩)⟩⟩
  | binary arguments operator | ternary arguments operator =>
    loopsStartQuiet_tree.2 ⟨rfl, List.forall_mem_append.2 ⟨loopsStartQuiet_nodes arguments,
      List.forall_mem_singleton.2 (loopsStartQuiet_tree.2
        ⟨rfl, List.forall_mem_singleton.2 (loopsStartQuiet_token _)⟩)⟩⟩
  | set name value i =>
    loopsStartQuiet_tree.2 ⟨rfl, List.forall_mem_cons.2 ⟨name.loopsStartQuiet,
      List.forall_mem_cons.2 ⟨value.loopsStartQuiet,
        List.forall_mem_singleton.2 (loopsStartQuiet_token i)⟩⟩⟩
  | counted family operands i =>
    loopsStartQuiet_tree.2 ⟨rfl, List.forall_mem_append.2 ⟨loopsStartQuiet_nodes operands,
      List.forall_mem_singleton.2 (loopsStartQuiet_token i)⟩⟩

theorem loopsStartQuiet_nodes : ∀ forms : List Form, ∀ c ∈ nodes forms, c.LoopsStartQuiet
  | [] => by simp [nodes]
  | form :: rest =>
    List.forall_mem_cons.2 ⟨form.loopsStartQuiet, loopsStartQuiet_nodes rest⟩

end

/-- Nested applications are written so that exactly the constants have no quote that are callees, or
that are reached from a callee through unary operations and `set` alone. Where there are none of the
latter, only callees lose their quote. -/
theorem quotes_of_render (form : Form) (indent : String) :
    ∃ source, form.node.render indent = .ok source ∧
      source.text = Text.spaces indent.utf8ByteSize ++ form.text Place.losesQuote [] [] ∧
      ((∀ c ∈ form.constants [], ¬ Place.IsBelowCallee c.1) →
        form.text Place.losesQuote [] [] = form.text Place.isCallee [] []) := by
  obtain ⟨page, hrun, hrender, -⟩ :=
    exists_page form.loopsStartQuiet (False.elim : False → _) indent
  obtain ⟨-, hpage⟩ := rendersForms_node _ form [] [] (.start indent) () page rfl rfl hrun
  refine ⟨_, hrender, ?_, fun hbelow => text_congr form [] [] fun c hc => ?_⟩
  · rw [hpage]
    change Text.spaces indent.utf8ByteSize ++ ("" ++ _) = _
    rw [String.empty_append]
  · rw [Place.losesQuote_eq_isCallee (hbelow c hc)]

/-- The function that is called is in the list `foo`. -/
def carOfFoo : Form :=
  .counted .call [.wrapped .expr (.unary
    (.wrapped .expr (.constant .nameExpr (.ofOpcode .constant (some (.symbol "foo")) 0) rfl))
    ⟨.ofOpcode .car none 1, .car, rfl, by decide⟩)] ⟨.counted .call 0, none, 2, none⟩

/-- In the form that computes a callee, `car` leaves its argument without a quote. -/
theorem unquoted_carOfFoo : carOfFoo.text Place.isCallee [] [] = "((car 'foo))" ∧
    ∃ source, carOfFoo.node.render "" = .ok source ∧ source.text = "((car foo))" := by
  have hrender : (carOfFoo.node.render "").toOption.any (·.text = "((car foo))") = true := by
    decide
  obtain ⟨source, hsource, htext⟩ := exists_ok_of_any hrender
  exact ⟨by decide, source, hsource, of_decide_eq_true htext⟩

end Form

end ElispLift.Quotes
