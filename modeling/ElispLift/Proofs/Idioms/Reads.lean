import ElispLift.Blocks.Annotation
import ElispLift.Parse
import ElispLift.Proofs.Source.Reads

/-!
# Idioms and reads of operands

An idiom that changes how many operands are on the stack changes what is read there. Nested
applications of one function become one application: the operands of one that is nested on the right
lie on the stack as before, but those of one that is nested on the left take the place of its value,
and what comes after them must not read from the stack. Nor may the value in the definition of a
variable, for the function that it was passed to is gone.
-/

namespace ElispLift

namespace Node

/-- The operands are the same, but idioms are in place of their expansions, or a key sequence is in
words. -/
def Rewrites (n n' : Node) : Prop :=
  n' = n.idiomatic ∨ ∃ key i, n.idiomatic.constant? = some key ∧ i.offset = key.offset ∧
    n' = plain .expr [plain .kbd [token i]]

end Node

/-- Two reads by the same instruction of the same operand. -/
structure SameRead (r r' : StackRead) : Prop where
  reader : r'.reader = r.reader
  operand : Option.Rel (fun o o' => o.node.Rewrites o'.node) r.operand r'.operand

/-- Two stacks of the same operands. -/
abbrev SameStack (stack stack' : List PlacedOperand) : Prop :=
  List.Forall₂ (fun o o' => o.node.Rewrites o'.node) stack stack'

namespace Node

variable {unquoted unquoted' : Bool} {stack stack' below : List PlacedOperand} {node n n' : Node}
  {nodes nodes' : List Node}

/-! ### What is read inside -/

mutual

/-- What reads only operands that are there does not change when there are others below them. -/
theorem trace_append (unquoted : Bool) (stack below : List PlacedOperand) : ∀ node : Node,
    (∀ r ∈ (node.trace unquoted stack).reads, r.operand.isSome = true) →
      node.trace unquoted (stack ++ below) = node.trace unquoted stack
  | token i, h => by
    rw [trace] at h ⊢
    rw [trace]
    cases hdepth : i.readDepth? with
    | none => rfl
    | some depth =>
      simp only [hdepth, List.mem_singleton, forall_eq] at h
      obtain ⟨hlt, -⟩ := List.getElem?_eq_some_iff.1 (Option.some_get h).symm
      simp [List.getElem?_append_left hlt]
  | tree kind children idiom, h => by
    rw [trace] at h ⊢
    rw [trace]
    cases hlayout : kind.layout? with
    | none =>
      simp only [hlayout] at h
      simp only [traceParts_append unquoted stack below children h]
    | some layout =>
      simp only [hlayout] at h
      simp only [traceOperands_append _ stack below children h]

theorem traceOperands_append (unquoted : Bool) (stack below : List PlacedOperand) :
    ∀ nodes : List Node,
      (∀ r ∈ (traceOperands unquoted stack nodes).reads, r.operand.isSome = true) →
        traceOperands unquoted (stack ++ below) nodes = traceOperands unquoted stack nodes
  | [], _ => rfl
  | token _ :: rest, h => traceOperands_append unquoted stack below rest h
  | tree kind children idiom :: rest, h => by
    obtain ⟨hfirst, hlater⟩ := List.forall_mem_append.1 h
    have hnode := trace_append unquoted stack below (tree kind children idiom) hfirst
    have hrest := traceOperands_append false (⟨tree kind children idiom, _⟩ :: stack) below rest
      hlater
    rw [List.cons_append] at hrest
    simp only [traceOperands, hnode, hrest]

theorem traceParts_append (unquoted : Bool) (stack below : List PlacedOperand) :
    ∀ nodes : List Node,
      (∀ r ∈ (traceParts unquoted stack nodes).reads, r.operand.isSome = true) →
        traceParts unquoted (stack ++ below) nodes = traceParts unquoted stack nodes
  | [], _ => rfl
  | node :: rest, h => by
    obtain ⟨hfirst, hlater⟩ := List.forall_mem_append.1 h
    simp only [traceParts, trace_append unquoted stack below node hfirst,
      traceParts_append unquoted stack below rest hlater]

end

theorem Closed.reads_eq (h : node.Closed) (stack stack' : List PlacedOperand) :
    (node.trace false stack).reads = (node.trace false stack').reads := by
  have hstack := trace_append false [] stack node h
  have hstack' := trace_append false [] stack' node h
  rw [List.nil_append] at hstack hstack'
  rw [hstack, hstack']

/-- Operands are on the stack for the ones behind them. -/
theorem reads_append (nodes rest : List Node) (stack : List PlacedOperand) :
    (traceOperands false stack (nodes ++ rest)).reads = (traceOperands false stack nodes).reads ++
      (traceOperands false ((traceOperands false stack nodes).value.reverse ++ stack)
        rest).reads := by
  induction nodes generalizing stack with
  | nil => rfl
  | cons node nodes ih =>
    cases node with
    | token i => exact ih stack
    | tree kind children idiom => simp [traceOperands, ih]

theorem traceOperands_single (h : node.isTree = true) :
    traceOperands false stack [node] =
      ⟨[⟨node, (node.trace false stack).value⟩], (node.trace false stack).reads⟩ := by
  cases node with
  | token i => cases h
  | tree kind children idiom => simp [traceOperands]

/-! ### Nested applications -/

open Idiom (arguments)

variable {op : Opcode} {family : Family}

theorem arguments_eq_single {apart : Prop} (h : StackExpr apart node)
    (happlies : node.applies op family = false) (whole : Node) :
    arguments op family whole node = [whole] := by
  induction h with
  | constant | key | ternary => exact if_neg nofun
  | reference | read => rfl
  | wrapper _ ih => exact ih happlies
  | binary => exact if_neg (Bool.eq_false_iff.1 happlies)
  | @counted family' children idiom =>
    have hne : Nonterminal.counted family' ≠ .counted family := by
      rintro ⟨⟩
      simp [applies, Node.unwrap] at happlies
    exact if_neg hne

theorem reads_wrapper {idiom : Option Idiom} :
    ((tree .expr [node] idiom).trace unquoted stack).reads =
      (node.trace unquoted stack).reads := by
  simp [trace, traceParts, Nonterminal.layout?]

theorem reads_single (h : node.isTree = true) (stack : List PlacedOperand) :
    (traceOperands false stack [node]).reads = (node.trace false stack).reads := by
  rw [traceOperands_single h]

/-- Arguments of two nested applications, of which the second one reads only its own operands if the
first one is among those that are gathered. -/
theorem reads_both {a b : Node} (hleft : a.applies op family = true → b.Closed)
    (ha : StackExpr True a)
    (hreadsA : ∀ stack, (traceOperands false stack (arguments op family a a)).reads =
      (a.trace false stack).reads)
    (hreadsB : ∀ stack, (traceOperands false stack (arguments op family b b)).reads =
      (b.trace false stack).reads) (hb : b.isTree = true) (stack : List PlacedOperand) :
    (traceOperands false stack (arguments op family a a ++ arguments op family b b)).reads =
      (traceOperands false stack [a, b]).reads := by
  refine Eq.trans ?_ (reads_append [a] [b] stack).symm
  rw [reads_append, hreadsA, hreadsB, reads_single ha.isTree, reads_single hb]
  by_cases happlies : a.applies op family = true
  · rw [(hleft happlies).reads_eq]
  · rw [arguments_eq_single ha (Bool.eq_false_iff.2 happlies)]

theorem reads_counted {children : List Node} {idiom : Option Idiom} (hfamily : family ≠ .call) :
    ((tree (.counted family) children idiom).trace unquoted stack).reads =
      (traceOperands false stack children).reads := by
  simp [trace, Nonterminal.layout?, hfamily]

theorem ne_call (hop : (op, family) ∈ Idiom.associative) : family ≠ .call :=
  Interpretation.call_ne (Idiom.mem_associative hop)

/-- What the arguments of nested applications read is what the applications read. -/
theorem reads_arguments (hop : (op, family) ∈ Idiom.associative) {whole : Node}
    (hwhole : whole.isTree = true) (h : StackExpr True node)
    (hsame : ∀ stack, (whole.trace false stack).reads = (node.trace false stack).reads)
    (stack : List PlacedOperand) :
    (traceOperands false stack (arguments op family whole node)).reads =
      (node.trace false stack).reads := by
  have hself : (traceOperands false stack [whole]).reads = (node.trace false stack).reads :=
    (reads_single hwhole stack).trans (hsame stack)
  fun_induction arguments op family whole node generalizing stack with
  | case1 whole only idiom ih =>
    cases h with
    | reference | read => exact hself
    | wrapper h =>
      have hsame' := fun stack => (hsame stack).trans reads_wrapper
      exact (ih hwhole h hsame' stack ((reads_single hwhole stack).trans (hsame' stack))).trans
        reads_wrapper.symm
  | case2 => cases h
  | case3 whole a b o rest idiom ho iha ihb =>
    cases h with
    | @binary _ _ _ o' _ hoperator hclass ha hb hapart =>
      obtain rfl := (operatorIs_iff hoperator).1 ho
      rw [show [a, b, o] = [a, b] ++ [o] from rfl,
        trace_operation (.inl ⟨rfl, rfl⟩) hoperator (by simp [hclass])]
      exact reads_both (hapart trivial family hop) ha
        (fun stack => iha ha.isTree ha (fun _ => rfl) stack (reads_single ha.isTree stack))
        (fun stack => ihb hb.isTree hb (fun _ => rfl) stack (reads_single hb.isTree stack))
        hb.isTree stack
  | case4 => exact hself
  | case5 whole children idiom => exact (reads_counted (ne_call hop)).symm
  | case6 => exact hself
  | case7 => exact hself

/-- What may be among the operands of a family: expressions, and instructions that count them. -/
def IsOperand (apart : Prop) (family : Family) (node : Node) : Prop :=
  (node.isTree = true → StackExpr apart node) ∧
    ∀ i, node = token i → ∃ n, i.kind = .counted family n

theorem StackExpr.isOperand {apart : Prop} (h : StackExpr apart node) :
    node.IsOperand apart family := by
  refine ⟨fun _ => h, ?_⟩
  rintro i rfl
  cases h

theorem isOperand_arguments {whole : Node} (hwhole : StackExpr True whole)
    (h : StackExpr True node) :
    ∀ c ∈ arguments op family whole node, c.IsOperand True family := by
  have hself : ∀ c ∈ [whole], c.IsOperand True family :=
    List.forall_mem_singleton.2 hwhole.isOperand
  fun_induction arguments op family whole node with
  | case1 whole only idiom ih =>
    cases h with
    | reference | read => exact hself
    | wrapper h => exact ih hwhole h hself
  | case2 => cases h
  | case3 whole a b o rest idiom ho iha ihb =>
    cases h with
    | binary _ _ ha hb _ =>
      exact List.forall_mem_append.2 ⟨iha ha ha (List.forall_mem_singleton.2 ha.isOperand),
        ihb hb hb (List.forall_mem_singleton.2 hb.isOperand)⟩
  | case4 => exact hself
  | case5 whole children idiom =>
    cases h with
    | counted hoperands hcounts _ =>
      exact fun c hc => ⟨hoperands c hc, fun i hi => hcounts i (hi ▸ hc)⟩
  | case6 => exact hself
  | case7 => exact hself

/-! ### One step -/

/-- The form is read from the stack like the node in whose place it is. -/
structure KeepsReads (n n' : Node) : Prop where
  expr : StackExpr True n'
  rewrites : n.Rewrites n'
  reads : ∀ unquoted unquoted' stack stack', SameStack stack stack' →
    List.Forall₂ SameRead (n.trace unquoted stack).reads (n'.trace unquoted' stack').reads

/-- Children of an application and of the one in its place. -/
inductive KeepsOperand : Node → Node → Prop
  | count (i : Instruction) : KeepsOperand (token i) (token i)
  | operand {n n' : Node} (htree : n.isTree = true) (h : KeepsReads n n') : KeepsOperand n n'

theorem reads_operands (h : List.Forall₂ KeepsOperand nodes nodes')
    (hstack : SameStack stack stack') : List.Forall₂ SameRead
      (traceOperands unquoted stack nodes).reads (traceOperands unquoted' stack' nodes').reads := by
  induction h generalizing unquoted unquoted' stack stack' with
  | nil => exact .nil
  | @cons n n' nodes nodes' hn _ ih =>
    cases hn with
    | count i => exact ih hstack
    | operand htree hkeeps =>
      cases n with
      | token i => cases htree
      | tree kind children idiom =>
        cases n' with
        | token i => cases hkeeps.expr
        | tree kind' children' idiom' =>
          have hfirst := hkeeps.reads unquoted unquoted' stack stack' hstack
          exact List.rel_append hfirst (ih (.cons hkeeps.rewrites hstack))

theorem sameStack_getElem? (h : SameStack stack stack') (depth : Nat) :
    Option.Rel (fun o o' => o.node.Rewrites o'.node) stack[depth]? stack'[depth]? := by
  induction h generalizing depth with
  | nil => exact .none
  | cons hfirst _ ih =>
    cases depth with
    | zero => exact .some hfirst
    | succ depth => exact ih depth

/-- A nested application with idioms in place of their expansions. The node above sees no
difference. -/
structure Survives (n : Node) : Prop where
  keeps : KeepsReads n n.idiomatic
  applies : ∀ op family, (op, family) ∈ Idiom.associative →
    n.idiomatic.applies op family = true → n.applies op family = true
  definition : n.idiomatic.isDefinition = n.isDefinition

/-- Instructions are not rewritten. -/
theorem survives_leaf (h : StackExpr True n) (hsame : n.idiomatic = n)
    (hreads : ∀ unquoted unquoted' stack stack', SameStack stack stack' →
      List.Forall₂ SameRead (n.trace unquoted stack).reads (n.trace unquoted' stack').reads) :
    n.Survives := by
  refine ⟨⟨?_, .inl rfl, ?_⟩, ?_, ?_⟩ <;> rw [hsame]
  · exact h
  · exact hreads
  · exact fun _ _ _ happlies => happlies

theorem survives_wrapper {idiom : Option Idiom} (h : n.Survives) :
    (tree .expr [n] idiom).Survives := by
  have hidiomatic : (tree .expr [n] idiom).idiomatic = tree .expr [n.idiomatic] idiom := rfl
  refine ⟨⟨?_, .inl rfl, ?_⟩, ?_, ?_⟩ <;> rw [hidiomatic]
  · exact .wrapper h.keeps.expr
  · intro unquoted unquoted' stack stack' hstack
    rw [reads_wrapper, reads_wrapper]
    exact h.keeps.reads unquoted unquoted' stack stack' hstack
  · exact h.applies
  · exact h.definition

theorem isSome_of_sameRead {reads reads' : List StackRead} (h : List.Forall₂ SameRead reads reads')
    (hsome : ∀ r ∈ reads, r.operand.isSome = true) :
    ∀ r ∈ reads', r.operand.isSome = true := by
  induction h with
  | nil => exact hsome
  | @cons r r' _ _ hr _ ih =>
    obtain ⟨hfirst, hrest⟩ := List.forall_mem_cons.1 hsome
    refine List.forall_mem_cons.2 ⟨?_, ih hrest⟩
    cases hsame : r.operand with
    | none => simp [hsame] at hfirst
    | some o =>
      have hoperand := hr.operand
      rw [hsame] at hoperand
      cases hfound : r'.operand with
      | none => simp [hfound] at hoperand
      | some o' => rfl

theorem Survives.closed (h : n.Survives) (hclosed : n.Closed) : n.idiomatic.Closed :=
  isSome_of_sameRead (h.keeps.reads false false [] [] .nil) hclosed

theorem flatten?_eq {a b o found : Node} (h : Idiom.flatten? [a, b, o] = some found) :
    ∃ op family, (op, family) ∈ Idiom.associative ∧ o.operatorIs op = true ∧
      found = .tree (.counted family) (arguments op family a a ++ arguments op family b b)
        (some .flatten) := by
  cases Idiom.makes_of_flatten? h with
  | flatten hmem hop => exact ⟨_, _, hmem, hop, rfl⟩

variable {a b c o : Node} {idiom : Option Idiom} {opcode : Opcode}

theorem reads_binary (hop : o.opcode? .binaryOp = some opcode) (hclass : opcode.opClass = .binary) :
    ((tree .binaryExpr [a, b, o] idiom).trace unquoted stack).reads =
      (traceOperands false stack [a, b]).reads := by
  rw [show [a, b, o] = [a, b] ++ [o] from rfl,
    trace_operation (.inl ⟨rfl, rfl⟩) hop (by simp [hclass])]

theorem survives_binary (hop : o.opcode? .binaryOp = some opcode)
    (hclass : opcode.opClass = .binary)
    (hapart : ∀ family, (opcode, family) ∈ Idiom.associative → a.applies opcode family = true →
      b.Closed) (ha : a.Survives) (hb : b.Survives) (htreeA : a.isTree = true)
    (htreeB : b.isTree = true) : (tree .binaryExpr [a, b, o] idiom).Survives := by
  have hoperator : o.idiomatic = o := idiomatic_of_opcode? hop fun _ => rfl
  have hpair : List.Forall₂ KeepsOperand [a, b] [a.idiomatic, b.idiomatic] :=
    .cons (.operand htreeA ha.keeps) (.cons (.operand htreeB hb.keeps) .nil)
  have hapart' : ∀ family, (opcode, family) ∈ Idiom.associative →
      a.idiomatic.applies opcode family = true → b.idiomatic.Closed := fun family hmem happlies =>
    hb.closed (hapart family hmem (ha.applies opcode family hmem happlies))
  have hidiomatic : (tree .binaryExpr [a, b, o] idiom).idiomatic =
      (Idiom.flatten? [a.idiomatic, b.idiomatic, o]).getD
        (tree .binaryExpr [a.idiomatic, b.idiomatic, o] idiom) := by
    simp only [idiomatic, idiomaticAll, hoperator, Idiom.recognize?]
  cases hflatten : Idiom.flatten? [a.idiomatic, b.idiomatic, o] with
  | none =>
    rw [hflatten, Option.getD_none] at hidiomatic
    refine ⟨⟨?_, .inl rfl, ?_⟩, ?_, ?_⟩ <;> rw [hidiomatic]
    · exact .binary hop hclass ha.keeps.expr hb.keeps.expr fun _ => hapart'
    · intro unquoted unquoted' stack stack' hstack
      rw [reads_binary hop hclass, reads_binary hop hclass]
      exact reads_operands hpair hstack
    · exact fun _ _ _ happlies => happlies
    · rfl
  | some found =>
    obtain ⟨op, family, hmem, his, rfl⟩ := flatten?_eq hflatten
    obtain rfl := (operatorIs_iff hop).1 his
    have hargs : ∀ c ∈ arguments opcode family a.idiomatic a.idiomatic ++
        arguments opcode family b.idiomatic b.idiomatic, c.IsOperand True family :=
      List.forall_mem_append.2 ⟨isOperand_arguments ha.keeps.expr ha.keeps.expr,
        isOperand_arguments hb.keeps.expr hb.keeps.expr⟩
    have hcall := ne_call hmem
    rw [hflatten, Option.getD_some] at hidiomatic
    refine ⟨⟨?_, .inl rfl, ?_⟩, ?_, ?_⟩ <;> rw [hidiomatic]
    · exact .counted (fun c hc => (hargs c hc).1) (fun i hi => (hargs _ hi).2 i rfl)
        fun _ hfamily => (hcall hfamily).elim
    · intro unquoted unquoted' stack stack' hstack
      rw [reads_binary hop hclass, reads_counted hcall,
        reads_both (hapart' family hmem) ha.keeps.expr
          (reads_arguments hmem ha.keeps.expr.isTree ha.keeps.expr fun _ => rfl)
          (reads_arguments hmem hb.keeps.expr.isTree hb.keeps.expr fun _ => rfl)
          hb.keeps.expr.isTree]
      exact reads_operands hpair hstack
    · intro op' family' hmem' happlies
      obtain rfl : family = family' := of_decide_eq_true happlies
      rw [Option.some.inj ((Idiom.mem_associative hmem').symm.trans (Idiom.mem_associative hmem))]
      exact his
    · rfl

theorem reads_ternary (hop : o.opcode? .ternaryOp = some opcode)
    (hclass : opcode.opClass = .ternary) :
    ((tree .ternaryExpr [a, b, c, o] idiom).trace unquoted stack).reads =
      (traceOperands false stack [a, b, c]).reads := by
  rw [show [a, b, c, o] = [a, b, c] ++ [o] from rfl,
    trace_operation (.inr ⟨rfl, rfl⟩) hop (by simp [hclass])]

theorem survives_ternary (hop : o.opcode? .ternaryOp = some opcode)
    (hclass : opcode.opClass = .ternary) (ha : a.Survives) (hb : b.Survives) (hc : c.Survives)
    (htreeA : a.isTree = true) (htreeB : b.isTree = true) (htreeC : c.isTree = true) :
    (tree .ternaryExpr [a, b, c, o] idiom).Survives := by
  have hoperator : o.idiomatic = o := idiomatic_of_opcode? hop fun _ => rfl
  have hall : List.Forall₂ KeepsOperand [a, b, c] [a.idiomatic, b.idiomatic, c.idiomatic] :=
    .cons (.operand htreeA ha.keeps) (.cons (.operand htreeB hb.keeps)
      (.cons (.operand htreeC hc.keeps) .nil))
  have hidiomatic : (tree .ternaryExpr [a, b, c, o] idiom).idiomatic =
      tree .ternaryExpr [a.idiomatic, b.idiomatic, c.idiomatic, o] idiom := by
    simp only [idiomatic, idiomaticAll, hoperator, Idiom.recognize?, Option.getD_none]
  refine ⟨⟨?_, .inl rfl, ?_⟩, ?_, ?_⟩ <;> rw [hidiomatic]
  · exact .ternary hop hclass ha.keeps.expr hb.keeps.expr hc.keeps.expr
  · intro unquoted unquoted' stack stack' hstack
    rw [reads_ternary hop hclass, reads_ternary hop hclass]
    exact reads_operands hall hstack
  · exact fun _ _ _ happlies => happlies
  · rfl

/-! ### Calls -/

variable {children : List Node}

theorem defvar?_eq_none (h : ∀ callee ∈ children.head?, callee.isDefinition = false) :
    Idiom.defvar? children = none := by
  unfold Idiom.defvar?
  split
  case h_2 => rfl
  case h_1 callee value call =>
    have hnone : (callee.constant?.bind Instruction.operandText?).bind Idiom.definition? = none :=
      Option.not_isSome_iff_eq_none.1 (Bool.eq_false_iff.1 (h callee rfl))
    cases hconstant : callee.constant? with
    | none => rfl
    | some function =>
      cases htext : function.operandText? with
      | none => simp [htext]
      | some text =>
        have hdefinition : Idiom.definition? text = none := by
          simpa [hconstant, htext] using hnone
        simp [htext, hdefinition]

/-- A key sequence is not what a call applies. -/
theorem kbd?_eq {kind : Nonterminal} {found : Node} (h : Idiom.kbd? kind children = some found) :
    ∃ place old key i, children[place + 1]? = some old ∧ old.constant? = some key ∧
      i.offset = key.offset ∧ i.isOp .constant = true ∧
      found = tree kind (children.set (place + 1) (plain .expr [plain .kbd [token i]]))
        (some .kbd) := by
  simp only [Idiom.kbd?, Option.bind_eq_bind, Option.bind_eq_some_iff] at h
  obtain ⟨first, -, f, -, callee, -, place, hplace, old, hold, key, hkey, operand, -, description,
    -, hfound⟩ := h
  obtain ⟨place, rfl⟩ : ∃ n, place = n + 1 := by
    unfold Idiom.keyPlace? at hplace
    split at hplace
    · exact ⟨0, (Option.some.inj hplace).symm⟩
    · split at hplace
      · exact ⟨1, (Option.some.inj hplace).symm⟩
      · cases hplace
  let words : Operand := .str ("\"" ++ description ++ "\"")
  exact ⟨place, old, key, .ofOpcode .constant (some words) key.offset, hold, hkey, rfl, rfl,
    (Option.some.inj hfound).symm⟩

theorem reads_token {kind : Nonterminal} {i : Instruction} (hlayout : kind.layout? = none)
    (hi : i.readDepth? = none) : ((tree kind [token i] idiom).trace unquoted stack).reads = [] := by
  simp [trace, traceParts, hlayout, hi]

theorem reads_constant {apart : Prop} {key : Instruction} (h : StackExpr apart n)
    (hkey : n.constant? = some key) : (n.trace unquoted stack).reads = [] := by
  induction h with
  | constant h => exact reads_token rfl (Instruction.readDepth?_of_isOp h nofun nofun)
  | wrapper _ ih => exact reads_wrapper.trans (ih hkey)
  | _ => cases hkey

theorem forall₂_set {R : Node → Node → Prop} (h : List.Forall₂ R nodes nodes') {place : Nat}
    {x : Node} (hx : ∀ n, nodes[place]? = some n → R n x) :
    List.Forall₂ R nodes (nodes'.set place x) := by
  induction h generalizing place with
  | nil => exact .nil
  | cons hfirst hrest ih =>
    cases place with
    | zero => exact .cons (hx _ rfl) hrest
    | succ place => exact .cons hfirst (ih hx)

/-- A key sequence is written in words where it was before. -/
theorem keepsOperand_kbd {key i : Instruction} (h : n.Survives) (htree : n.isTree = true)
    (hkey : n.idiomatic.constant? = some key) (hoffset : i.offset = key.offset)
    (hi : i.isOp .constant = true) : KeepsOperand n (plain .expr [plain .kbd [token i]]) := by
  have hwords : ∀ unquoted stack,
      ((plain .expr [plain .kbd [token i]]).trace unquoted stack).reads = [] := fun _ _ =>
    reads_wrapper.trans (reads_token rfl (Instruction.readDepth?_of_isOp hi nofun nofun))
  refine .operand htree ⟨.wrapper (.key hi), .inr ⟨key, i, hkey, hoffset, rfl⟩, ?_⟩
  intro unquoted unquoted' stack stack' hstack
  have hreads := h.keeps.reads unquoted unquoted' stack stack' hstack
  rw [reads_constant h.keeps.expr hkey] at hreads
  rw [hwords]
  exact hreads

theorem isOperand_of_keepsOperand (h : List.Forall₂ KeepsOperand nodes nodes')
    (hcounts : ∀ i, token i ∈ nodes → ∃ n, i.kind = .counted family n) :
    ∀ c ∈ nodes', c.IsOperand True family := by
  induction h with
  | nil => simp
  | cons hfirst _ ih =>
    refine List.forall_mem_cons.2 ⟨?_, ih fun i hi => hcounts i (List.mem_cons_of_mem _ hi)⟩
    cases hfirst with
    | count i => exact ⟨nofun, fun j hj => hcounts j (by simp [hj])⟩
    | operand _ hkeeps => exact hkeeps.expr.isOperand

/-- An application to any number of operands survives if its operands do. -/
theorem survives_of_operands {idiom' : Option Idiom} (h : List.Forall₂ KeepsOperand nodes nodes')
    (hcounts : ∀ i, token i ∈ nodes → ∃ n, i.kind = .counted family n)
    (hhead : family = .call → ∀ c ∈ nodes'.head?, c.isDefinition = false)
    (hidiomatic : (tree (.counted family) nodes idiom).idiomatic =
      tree (.counted family) nodes' idiom') : (tree (.counted family) nodes idiom).Survives := by
  have hall := isOperand_of_keepsOperand h hcounts
  refine ⟨⟨?_, .inl rfl, ?_⟩, ?_, ?_⟩ <;> rw [hidiomatic]
  · exact .counted (fun c hc => (hall c hc).1) (fun i hi => (hall _ hi).2 i rfl) fun _ => hhead
  · exact fun _ _ _ _ hstack => reads_operands h hstack
  · exact fun _ _ _ happlies => happlies
  · rfl

theorem survives_counted (hoperands : ∀ c ∈ children, c.isTree = true → c.Survives)
    (hcounts : ∀ i, token i ∈ children → ∃ n, i.kind = .counted family n)
    (hapart : family = .call → ∀ c ∈ children.head?, c.isDefinition = false) :
    (tree (.counted family) children idiom).Survives := by
  have hall : List.Forall₂ KeepsOperand children (children.map idiomatic) := by
    refine List.forall₂_map_right_iff.2 (List.forall₂_same.2 fun c hc => ?_)
    cases c with
    | token i => exact .count i
    | tree kind children' idiom' => exact .operand rfl (hoperands _ hc rfl).keeps
  have hhead : family = .call → ∀ c ∈ (children.map idiomatic).head?, c.isDefinition = false := by
    intro hcall c hc
    rw [List.head?_map] at hc
    obtain ⟨callee, hcallee, rfl⟩ := Option.map_eq_some_iff.1 hc
    have hplain := hapart hcall callee hcallee
    cases callee with
    | token i => exact hplain
    | tree kind children' idiom' =>
      exact (hoperands _ (List.mem_of_mem_head? hcallee) rfl).definition.trans hplain
  have hidiomatic : (tree (.counted family) children idiom).idiomatic =
      (Idiom.recognize? (.counted family) (children.map idiomatic)).getD
        (tree (.counted family) (children.map idiomatic) idiom) := by
    rw [idiomatic, idiomaticAll_eq_map]
  by_cases hcall : family = .call
  · subst hcall
    simp only [Idiom.recognize?, defvar?_eq_none (hhead rfl), Option.none_or] at hidiomatic
    cases hkbd : Idiom.kbd? (.counted .call) (children.map idiomatic) with
    | none =>
      rw [hkbd, Option.getD_none] at hidiomatic
      exact survives_of_operands hall hcounts hhead hidiomatic
    | some found =>
      obtain ⟨place, old, key, i, hold, hkey, hoffset, hi, rfl⟩ := kbd?_eq hkbd
      rw [hkbd, Option.getD_some] at hidiomatic
      refine survives_of_operands (forall₂_set hall fun n hn => ?_) hcounts (fun _ => ?_) hidiomatic
      · rw [List.getElem?_map, hn] at hold
        cases hold
        cases n with
        | token i => cases hkey
        | tree kind children' idiom' =>
          exact keepsOperand_kbd (hoperands _ (List.mem_of_getElem? hn) rfl) rfl hkey hoffset hi
      · cases children with
        | nil => simp
        | cons callee rest => exact hhead rfl
  · have hnone : Idiom.recognize? (.counted family) (children.map idiomatic) = none := by
      cases family <;> first | exact (hcall rfl).elim | rfl
    rw [hnone, Option.getD_none] at hidiomatic
    exact survives_of_operands hall hcounts hhead hidiomatic

/-- An instruction reads the same operand of the same stack. -/
theorem reads_instruction {kind : Nonterminal} {i : Instruction} (hlayout : kind.layout? = none)
    (hstack : SameStack stack stack') :
    List.Forall₂ SameRead ((tree kind [token i] idiom).trace unquoted stack).reads
      ((tree kind [token i] idiom).trace unquoted' stack').reads := by
  simp only [trace, traceParts, hlayout, List.append_nil]
  cases i.readDepth? with
  | none => exact .nil
  | some depth => exact .cons ⟨rfl, sameStack_getElem? hstack depth⟩ .nil

theorem StackExpr.survives (h : StackExpr True n) : n.Survives := by
  induction h with
  | constant h => exact survives_leaf (.constant h) rfl fun _ _ _ _ => reads_instruction rfl
  | key h => exact survives_leaf (.key h) rfl fun _ _ _ _ => reads_instruction rfl
  | reference h => exact survives_leaf (.reference h) rfl fun _ _ _ _ => reads_instruction rfl
  | read h => exact survives_leaf (.read h) rfl fun _ _ _ _ => reads_instruction rfl
  | wrapper _ ih => exact survives_wrapper ih
  | binary hop hclass ha hb hapart iha ihb =>
    exact survives_binary hop hclass (hapart trivial) iha ihb ha.isTree hb.isTree
  | ternary hop hclass ha hb hc iha ihb ihc =>
    exact survives_ternary hop hclass iha ihb ihc ha.isTree hb.isTree hc.isTree
  | counted _ hcounts hapart ih => exact survives_counted ih hcounts (hapart trivial)

/-- Nested applications are written as their traces say, before and after idioms are recognised, and
each instruction that reads the stack reads the same operand. What is behind an application that is
nested on the left must read only its own operands, and no call may be the definition of a
variable. -/
theorem StackExpr.reads_idiomatic (h : StackExpr True n) (indent : String) :
    (∃ source, n.render indent = .ok source ∧
      source.text = Text.spaces indent.utf8ByteSize ++ (n.trace false []).value) ∧
    (∃ source, n.idiomatic.render indent = .ok source ∧
      source.text = Text.spaces indent.utf8ByteSize ++ (n.idiomatic.trace false []).value) ∧
    List.Forall₂ SameRead (n.trace false []).reads (n.idiomatic.trace false []).reads :=
  ⟨h.exists_render indent, h.survives.keeps.expr.exists_render indent,
    h.survives.keeps.reads false false [] [] .nil⟩

/-- The value of a variable, the value that lies on top of the stack, and two lists joined. -/
def variableValue (name : String) (offset : Nat) : Node :=
  .plain .expr [.token (.ofOpcode .varref (some (.symbol name)) offset)]

def topValue (offset : Nat) : Node := .plain .expr [.token (.ofOpcode .dup none offset)]

def joined (a b : Node) (offset : Nat) : Node :=
  .plain .expr [.plain .binaryExpr [a, b, operator .binaryOp .nconc offset]]

theorem stackExpr_variableValue {apart : Prop} (name : String) (offset : Nat) :
    StackExpr apart (variableValue name offset) := .reference rfl

theorem stackExpr_topValue {apart : Prop} (offset : Nat) : StackExpr apart (topValue offset) :=
  .read rfl

theorem stackExpr_joined {apart : Prop} {offset : Nat} (ha : StackExpr apart a)
    (hb : StackExpr apart b)
    (hapart : apart → ∀ family, a.applies .nconc family = true → b.Closed) :
    StackExpr apart (joined a b offset) :=
  .wrapper (.binary (opcode?_operator _ _ _) rfl ha hb fun h family _ => hapart h family)

/-- Two lists, each joined to itself, and then joined. -/
def joinedCopies : Node :=
  joined (joined (variableValue "a" 0) (topValue 1) 2)
    (joined (variableValue "b" 3) (topValue 4) 5) 6

theorem StackExpr.reads_idiomatic_joinedCopies : joinedCopies.StackExpr True ∧
    (∃ source, joinedCopies.render "" = .ok source ∧
      source.text = Text.spaces "".utf8ByteSize ++ (joinedCopies.trace false []).value) ∧
    (∃ source, joinedCopies.idiomatic.render "" = .ok source ∧
      source.text = Text.spaces "".utf8ByteSize ++
        (joinedCopies.idiomatic.trace false []).value) ∧
    List.Forall₂ SameRead (joinedCopies.trace false []).reads
      (joinedCopies.idiomatic.trace false []).reads := by
  have hcopy (name : String) (offset offset' offset'' : Nat) : StackExpr True
      (joined (variableValue name offset) (topValue offset') offset'') :=
    stackExpr_joined (stackExpr_variableValue name offset) (stackExpr_topValue offset') nofun
  have hclosed : (joined (variableValue "b" 3) (topValue 4) 5).Closed :=
    List.all_eq_true.1 (by decide)
  have hexpr : joinedCopies.StackExpr True :=
    stackExpr_joined (hcopy "a" 0 1 2) (hcopy "b" 3 4 5) fun _ _ _ => hclosed
  exact ⟨hexpr, hexpr.reads_idiomatic ""⟩

/-- Two lists are joined, and the outcome to itself. -/
def joinedTwice : Node :=
  joined (joined (variableValue "a" 0) (variableValue "b" 1) 2) (topValue 3) 4

/-- What `joinedTwice` is compiled to, and a return. -/
def joinTwice : List Instruction :=
  [.ofOpcode .varref (some (.symbol "a")) 0, .ofOpcode .varref (some (.symbol "b")) 1,
    .ofOpcode .nconc none 2, .ofOpcode .dup none 3, .ofOpcode .nconc none 4,
    .ofOpcode .ret none 5]

/-- The source of a routine that returns `joinedTwice`, and with idioms in place of their
expansions. -/
theorem exists_parse_joinTwice : ∃ s tree, Segmentation.ofInstructions joinTwice = .ok s ∧
    parse .fnBody (Grammar.arityRules s.annotated) s.annotated = .ok tree ∧
    (∃ source, tree.render "" = .ok source ∧ source.text = "(nconc (nconc a b) (nconc a b))") ∧
    ∃ source, tree.idiomatic.render "" = .ok source ∧ source.text = "(nconc a b b)" := by
  have hparsed : (Segmentation.ofInstructions joinTwice).toOption.any (fun s =>
      (parse .fnBody (Grammar.arityRules s.annotated) s.annotated).toOption.any fun tree =>
        (tree.render "").toOption.any (·.text = "(nconc (nconc a b) (nconc a b))") &&
          (tree.idiomatic.render "").toOption.any (·.text = "(nconc a b b)")) = true := by
    decide +kernel
  obtain ⟨s, hs, hparsed⟩ := exists_ok_of_any hparsed
  obtain ⟨tree, hparse, htexts⟩ := exists_ok_of_any hparsed
  obtain ⟨hraw, hidiomatic⟩ := Bool.and_eq_true_iff.1 htexts
  obtain ⟨source, hsource, htext⟩ := exists_ok_of_any hraw
  obtain ⟨source', hsource', htext'⟩ := exists_ok_of_any hidiomatic
  exact ⟨s, tree, hs, hparse, ⟨source, hsource, of_decide_eq_true htext⟩, source', hsource',
    of_decide_eq_true htext'⟩

/-- The value on top of the stack is the outcome of the first application, and with one application
in place of both it is the second list. -/
theorem redirected_joinedTwice : joinedTwice.StackExpr False ∧
    ¬ List.Forall₂ SameRead (joinedTwice.trace false []).reads
      (joinedTwice.idiomatic.trace false []).reads ∧
    ∃ s tree, Segmentation.ofInstructions joinTwice = .ok s ∧
      parse .fnBody (Grammar.arityRules s.annotated) s.annotated = .ok tree ∧
      (∃ source, tree.render "" = .ok source ∧ source.text = "(nconc (nconc a b) (nconc a b))") ∧
      ∃ source, tree.idiomatic.render "" = .ok source ∧ source.text = "(nconc a b b)" := by
  have hexpr : joinedTwice.StackExpr False :=
    stackExpr_joined (stackExpr_joined (stackExpr_variableValue "a" 0)
      (stackExpr_variableValue "b" 1) nofun) (stackExpr_topValue 3) nofun
  refine ⟨hexpr, fun hsame => ?_, exists_parse_joinTwice⟩
  let first := joined (variableValue "a" 0) (variableValue "b" 1) 2
  have hsame : List.Forall₂ SameRead [⟨.ofOpcode .dup none 3, some ⟨first, "(nconc a b)"⟩⟩]
      [⟨.ofOpcode .dup none 3, some ⟨variableValue "b" 1, "b"⟩⟩] := hsame
  obtain ⟨hread, -⟩ := List.forall₂_cons.1 hsame
  cases hread.operand with
  | some hrewrites =>
    rcases hrewrites with h | ⟨key, i, hkey, -⟩
    · exact absurd (congrArg (·.tokens.length) h) (by decide)
    · cases hkey

end Node

end ElispLift
