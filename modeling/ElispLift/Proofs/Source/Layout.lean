import ElispLift.Proofs.Source.Nesting
import ElispLift.Proofs.Stack.Steps

/-!
# Layout of forms

Every form ends at the depth at which it starts: templates by a count over their directives, and the
other forms step by step. So rendering a node leaves the indentation as it was, and what it writes
is balanced if the texts of its operands are.
-/

namespace ElispLift

/-- The text inside an operand is balanced if the operand is. -/
theorem Operand.balanced_of_text? {operand : Operand} {s : String} (hs : operand.text? = some s)
    (h : Text.Balanced operand.toText) : Text.Balanced s := by
  cases operand with
  | int n => cases hs
  | str text =>
    cases hs
    exact h
  | symbol name =>
    cases hs
    exact h
  | routine r =>
    cases hs
    have hhead : Text.Balanced "<compiled-function " := Text.balanced_iff.2 rfl
    have htail : Text.Balanced ">" := Text.balanced_iff.2 rfl
    exact hhead.of_append_left (htail.of_append_right h)

namespace Node

variable {node c : Node}

theorem mem_tokensOf {i : Instruction} {nodes : List Node} :
    i ∈ tokensOf nodes ↔ ∃ c ∈ nodes, i ∈ c.tokens := by
  induction nodes with
  | nil => simp [tokensOf]
  | cons c rest ih => simp [tokensOf, ih]

/-- The text of a node's operand is empty, or that of one of its operands. -/
theorem operandText_cases (node : Node) : Rendering.operandText node = "" ∨
    ∃ i ∈ node.tokens, ∃ operand, i.operand = some operand ∧
      Rendering.operandText node = operand.toText := by
  unfold Rendering.operandText firstToken?
  cases hoperand : node.tokens.head?.bind (·.operand) with
  | none => exact .inl rfl
  | some operand =>
    obtain ⟨i, hi, hoperand⟩ := Option.bind_eq_some_iff.1 hoperand
    exact .inr ⟨i, List.mem_of_mem_head? hi, operand, hoperand, rfl⟩

/-- A name is the text inside an operand, or missing. -/
theorem nameText_cases (found : Option Node) : nameText found = missingText ∨
    ∃ c, found = some c ∧ ∃ i ∈ c.tokens, ∃ operand, i.operand = some operand ∧
      operand.text? = some (nameText found) := by
  unfold nameText
  cases htext : (found.bind token?).bind Instruction.operandText? with
  | none => exact .inl rfl
  | some text =>
    obtain ⟨i, hi, htext⟩ := Option.bind_eq_some_iff.1 htext
    obtain ⟨c, hc, hi⟩ := Option.bind_eq_some_iff.1 hi
    obtain ⟨operand, hoperand, htext⟩ := Option.bind_eq_some_iff.1 htext
    cases c with
    | tree kind children idiom => cases hi
    | token i' =>
      cases hi
      exact .inr ⟨_, hc, i, by simp [tokens], operand, hoperand, htext⟩

namespace OperandsBalanced

theorem of_mem (h : node.OperandsBalanced) (hc : c ∈ node.children) : c.OperandsBalanced := by
  cases node with
  | token i => simp [Node.children] at hc
  | tree kind children idiom => exact fun i hi => h i (mem_tokensOf.2 ⟨c, hc, hi⟩)

theorem child? (h : node.OperandsBalanced) {n : Nat} (hc : node.child? n = some c) :
    c.OperandsBalanced := h.of_mem (List.mem_of_getElem? hc)

theorem grandchildren (h : node.OperandsBalanced) {n : Nat} :
    ∀ c ∈ ((node.child? n).map children).getD [], c.OperandsBalanced :=
  Stack.grandchildren_of_parts (fun _ hm _ hc => hm.of_mem hc) h n

theorem lines (h : node.OperandsBalanced) : ∀ c ∈ node.lines, c.OperandsBalanced :=
  Stack.lines_of_parts (fun _ hm _ hc => hm.of_mem hc) h

theorem clauses (h : node.OperandsBalanced) :
    ∀ c ∈ Rendering.clauses node, c.OperandsBalanced :=
  Stack.clauses_of_parts (fun _ hm _ hc => hm.of_mem hc) h

theorem operandText (h : node.OperandsBalanced) : Text.Balanced (Rendering.operandText node) := by
  rcases operandText_cases node with htext | ⟨i, hi, operand, hoperand, htext⟩
  · exact htext ▸ Text.balanced_iff.2 rfl
  · exact htext ▸ h i hi operand hoperand

theorem nameText {found : Option Node} (h : ∀ c, found = some c → c.OperandsBalanced) :
    Text.Balanced (Node.nameText found) := by
  rcases nameText_cases found with htext | ⟨c, hc, i, hi, operand, hoperand, htext⟩
  · exact htext ▸ Rendering.balanced_missingText
  · exact Operand.balanced_of_text? htext (h c hc i hi operand hoperand)

theorem nestedBindings (h : node.OperandsBalanced) :
    ∀ b ∈ Rendering.nestedBindings node, Text.Balanced b.1 ∧ b.2.OperandsBalanced := by
  fun_induction Rendering.nestedBindings node with
  | case1 kind value inner name idiom ih =>
    have hname : name.OperandsBalanced := h.of_mem (by simp [Node.children])
    have hinner := ih (h.of_mem (by simp [Node.children]))
    refine List.forall_mem_cons.2 ⟨⟨nameText fun c hc => ?_, h⟩, hinner⟩
    exact Option.some.inj hc ▸ hname
  | case2 => simp

end OperandsBalanced

end Node

/-- The depth that a directive leads to, if it returns from no indentation and closes no parenthesis
that there is not. -/
def Directive.depth? (d : Depth) : Directive → Option Depth
  | text s => (Text.opened? d.parens s.toList).map fun k => ⟨d.indents, k⟩
  | indentMore => some ⟨d.indents + 1, d.parens⟩
  | dedent =>
    match d.indents with
    | n + 1 => some ⟨n, d.parens⟩
    | 0 => none
  | openForm => some ⟨d.indents, d.parens + 1⟩
  | closeForm =>
    match d with
    | ⟨n + 1, k + 1⟩ => some ⟨n, k⟩
    | _ => none
  | _ => some d

/-- The depth that directives lead to one after another. -/
def Directive.depthBehind? (d : Depth) : List Directive → Option Depth
  | [] => some d
  | directive :: rest => (directive.depth? d).bind fun d' => depthBehind? d' rest

theorem Directive.depthBehind?_template {kind : Nonterminal} {directives : List Directive}
    (h : kind.template? = some directives) (d : Depth) :
    depthBehind? d directives = some d := by
  cases kind <;> cases h <;> rfl

namespace Rendering

open Node

variable {balanced : Prop} {n k : Nat} {render : Node → Rendering Unit} {node : Node}
  {nodes : List Node}

/-! ### Instructions -/

theorem balanced_constantText {unquoted : Bool} {operand : Option Operand}
    (h : ∀ o, operand = some o → Text.Balanced o.toText) :
    Text.Balanced (constantText unquoted operand) := by
  have hquote : Text.Balanced "'" := Text.balanced_iff.2 rfl
  have hfunction : Text.Balanced "#'" := Text.balanced_iff.2 rfl
  unfold constantText
  split
  next => exact Text.balanced_iff.2 rfl
  next n => exact h (.int n) rfl
  next s => exact h (.str s) rfl
  next r =>
    have hname : Text.Balanced r.name := Operand.balanced_of_text? rfl (h (.routine r) rfl)
    split
    · exact hname
    · exact hfunction.append hname
  next s =>
    have hname : Text.Balanced s := h (.symbol s) rfl
    split
    · exact hname
    · exact hquote.append hname

theorem balanced_applied (op : Opcode) : Text.Balanced op.applied :=
  Text.balanced_iff.2 (by cases op <;> rfl)

theorem gives_instructionText (hrender : Nesting balanced render) {i : Instruction}
    (hi : balanced → ∀ operand, i.operand = some operand → Text.Balanced operand.toText) :
    Gives balanced (instructionText render i) := by
  intro d
  have hname : balanced → Text.Balanced ((i.operand.map Operand.toText).getD "") := fun hb => by
    cases hoperand : i.operand with
    | none => exact Text.balanced_iff.2 rfl
    | some operand => exact hi hb operand hoperand
  unfold instructionText
  split
  case h_1 => exact .pure fun _ => Text.balanced_iff.2 rfl
  case h_2 => exact .get_bind fun _ _ _ => .pure fun hb => balanced_constantText (hi hb)
  case h_6 => exact gives_peek hrender d
  case h_7 => exact gives_stackRef hrender d
  case h_8 => exact .pure fun _ => balanced_applied _
  all_goals exact .pure hname

/-! ### Steps of several forms -/

theorem nests_leftOver {d : Depth} (ids : List Nat) :
    Nests balanced d d (fun texts => ∀ s ∈ texts, Text.Balanced s) (leftOver ids) := by
  induction ids with
  | nil => exact .pure fun _ => by simp
  | cons id ids ih =>
    refine nests_takeSlot.bind fun text htext => ih.bind fun rest hrest => ?_
    cases text with
    | none => exact .pure hrest
    | some text =>
      have hboth : balanced → ∀ s ∈ text :: rest, Text.Balanced s := fun hb =>
        List.forall_mem_cons.2 ⟨htext hb text rfl, hrest hb⟩
      dsimp only
      split
      · exact .pure hrest
      · exact .pure hboth

/-- A name behind what opens a parenthesis. -/
theorem opened?_heading {head name : String} (h : Text.opened? k head.toList = some n)
    (hname : Text.Balanced name) : Text.opened? k (head ++ name ++ " ").toList = some n :=
  Text.opened?_append_balanced (Text.opened?_append_balanced h hname) (Text.balanced_iff.2 rfl)

/-- The last part of a form closes it. -/
theorem moves_lastPart {part : Rendering Unit} (h : Keeps balanced part) :
    Moves balanced ⟨n, k + 1⟩ ⟨n, k⟩ (lastPart part) :=
  moves_indentMore.seq ((keeps_newline _).seq ((h _).seq moves_closeForm))

theorem moves_writeArguments {texts : List String} (h : balanced → ∀ s ∈ texts, Text.Balanced s) :
    Moves balanced ⟨n, k + 1⟩ ⟨n, k⟩ (writeArguments texts) := by
  induction texts with
  | nil => exact moves_write fun _ => rfl
  | cons text rest ih =>
    have hspace : Text.Balanced " " := Text.balanced_iff.2 rfl
    have htext : balanced → Text.Balanced (" " ++ text) := fun hb =>
      hspace.append (h hb text (by simp))
    exact (keeps_write htext _).seq (ih fun hb s hs => h hb s (List.mem_cons_of_mem _ hs))

/-- What a clause writes behind its condition. -/
theorem moves_clauseEnd {body : Node} {text : String} (h : balanced → Text.Balanced text) :
    Moves balanced ⟨n + 1, k + 1⟩ ⟨n, k⟩ (do
      if !text.isEmpty then
        if body.lines.length > 1 then newline else write " "
        write text
      closeForm) := by
  have hrest : Moves balanced ⟨n + 1, k + 1⟩ ⟨n, k⟩ (do write text; closeForm) :=
    (keeps_write h _).seq moves_closeForm
  dsimp only
  split
  · split
    · exact (keeps_newline _).seq hrest
    · exact (moves_write fun _ => rfl).seq hrest
  · exact moves_closeForm

section

variable (hrender : Nesting balanced render) (hnode : balanced → node.OperandsBalanced)

include hrender hnode

/-! ### Children and templates -/

theorem keeps_child : Keeps balanced (child render node n) := by
  unfold child
  split
  next c hc => exact hrender c fun hb => (hnode hb).child? hc
  next => exact keeps_missing

theorem moves_directive {directive : Directive} {d d' : Depth} (h : directive.depth? d = some d') :
    Moves balanced d d' (Rendering.directive render node directive) := by
  cases directive with
  | text s =>
    obtain ⟨k, hk, rfl⟩ := Option.map_eq_some_iff.1 h
    exact moves_write fun _ => hk
  | child n =>
    cases h
    exact keeps_child hrender hnode d
  | unquoted n =>
    cases h
    cases hc : node.child? n with
    | none => simpa only [Rendering.directive, hc] using keeps_missing d
    | some c =>
      simp only [Rendering.directive, hc]
      exact nests_withUnquoted (hrender c (fun hb => (hnode hb).child? hc) d)
  | operand n =>
    cases h
    cases hc : node.child? n with
    | none => simpa only [Rendering.directive, hc] using keeps_missing d
    | some c =>
      simp only [Rendering.directive, hc]
      exact keeps_write (fun hb => ((hnode hb).child? hc).operandText) d
  | push n =>
    cases h
    cases hc : node.child? n with
    | none =>
      simp only [Rendering.directive, hc]
      exact (keeps_issue (by simp) d).seq
        (keeps_push (v := .text missingText) (fun _ => balanced_missingText) d)
    | some c =>
      simp only [Rendering.directive, hc]
      exact keeps_push (v := .node c) (fun hb => (hnode hb).child? hc) d
  | pop =>
    cases h
    exact (gives_pop hrender d).bind fun _ hs => keeps_write hs d
  | indentation =>
    cases h
    exact .get_bind fun _ p hp =>
      keeps_write (fun hb => (hp.stored hb).indents p.indent (by simp)) d
  | indentMore =>
    cases h
    exact moves_indentMore
  | dedent =>
    obtain ⟨n, k⟩ := d
    cases n with
    | zero => cases h
    | succ n =>
      cases h
      exact moves_dedent
  | openForm =>
    cases h
    exact moves_openForm
  | closeForm =>
    obtain ⟨n, k⟩ := d
    cases n <;> cases k <;> cases h
    exact moves_closeForm

theorem moves_fill {directives : List Directive} {d d' : Depth}
    (h : Directive.depthBehind? d directives = some d') :
    Moves balanced d d' (fill render node directives) := by
  induction directives generalizing d with
  | nil =>
    cases h
    exact Keeps.nothing _
  | cons directive rest ih =>
    obtain ⟨between, hfirst, hrest⟩ := Option.bind_eq_some_iff.1 h
    exact (moves_directive hrender hnode hfirst).seq (ih hrest)

end

section

variable (hrender : Nesting balanced render)

include hrender

/-! ### Lists of nodes -/

theorem keeps_each (h : ∀ c ∈ nodes, balanced → c.OperandsBalanced) :
    Keeps balanced (each render nodes) := by
  intro d
  induction nodes with
  | nil => exact Keeps.nothing d
  | cons c rest ih =>
    exact (hrender c (h c (by simp)) d).seq (ih fun n hn => h n (List.mem_cons_of_mem _ hn))

theorem keeps_eachOnLine (h : ∀ c ∈ nodes, balanced → c.OperandsBalanced) :
    Keeps balanced (eachOnLine render nodes) := by
  intro d
  induction nodes with
  | nil => exact Keeps.nothing d
  | cons c rest ih =>
    have hc := hrender c (h c (by simp)) d
    have hrest := ih fun n hn => h n (List.mem_cons_of_mem _ hn)
    cases rest with
    | nil => exact hc
    | cons next rest => exact hc.seq ((keeps_newline d).seq hrest)

theorem nests_toSlots {d : Depth} (h : ∀ c ∈ nodes, balanced → c.OperandsBalanced) :
    Nests balanced d d (fun _ => True) (toSlots render nodes) := by
  induction nodes with
  | nil => exact .pure fun _ => trivial
  | cons c rest ih =>
    have hlater : ∀ id : Nat, Nests balanced d d (fun _ => True)
        (do return id :: (← toSlots render rest)) := fun id =>
      (ih fun n hn => h n (List.mem_cons_of_mem _ hn)).bind fun _ _ => .pure fun _ => trivial
    refine (gives_capture (hrender c (h c (by simp))) d).bind fun text htext =>
      (nests_newSlot htext).bind fun id _ => ?_
    split
    · exact (keeps_push (v := .slot id) (fun _ => trivial) d).seq (hlater id)
    · exact hlater id

theorem keeps_statements (h : ∀ c ∈ nodes, balanced → c.OperandsBalanced) :
    Keeps balanced (statements render nodes) := by
  intro d
  refine (nests_toSlots hrender h).bind fun ids _ => ?_
  have hdrop : Keeps balanced (dropSlots ids) :=
    keeps_values fun vs _ hvs v hv => hvs v (List.mem_of_mem_filter hv)
  refine (hdrop d).seq ((nests_leftOver ids).bind fun texts htexts => .get_bind fun _ p hp => ?_)
  refine keeps_write (fun hb => ?_) d
  have hbreak : Text.Balanced "\n" := Text.balanced_iff.2 rfl
  exact Text.balanced_intercalate
    (hbreak.append ((hp.stored hb).indents p.indent (by simp))) (htexts hb)

theorem keeps_routineBody (hnode : balanced → node.OperandsBalanced) :
    Keeps balanced (routineBody render node) := by
  unfold routineBody
  split
  next => exact keeps_missing
  next body tail hchildren =>
    have hchild : ∀ c ∈ body :: tail, balanced → c.OperandsBalanced := fun c hc hb =>
      (hnode hb).of_mem (hchildren ▸ hc)
    refine keeps_statements hrender fun c hc hb => ?_
    rcases List.mem_append.1 hc with hc | hc
    · exact (hchild body (by simp) hb).lines c hc
    · exact hchild c (List.mem_cons_of_mem _ hc) hb

theorem keeps_stackedBody (hnode : balanced → node.OperandsBalanced) :
    Keeps balanced (stackedBody render node) := by
  refine keeps_statements hrender fun c hc hb => ?_
  rcases List.mem_append.1 hc with hc | hc
  · exact (hnode hb).of_mem (List.mem_of_mem_take hc)
  · exact (hnode hb).grandchildren c hc

/-! ### Applications -/

theorem keeps_unary (hnode : balanced → node.OperandsBalanced) :
    Keeps balanced (unary render node) := by
  rintro ⟨n, k⟩
  have hpop : Moves balanced ⟨n, k + 1⟩ ⟨n, k⟩ (do write (← pop render); write ")") :=
    (gives_pop hrender _).bind fun _ hs => (keeps_write hs _).seq (moves_write fun _ => rfl)
  unfold unary
  cases hlast : node.children.getLast? with
  | none => exact keeps_missing _
  | some op =>
    have hop := hrender op fun hb => (hnode hb).of_mem (List.mem_of_getLast? hlast)
    refine (moves_write fun _ => rfl).seq ((hop ⟨n, k + 1⟩).seq
      (Moves.seq (moves_write fun _ => rfl) ?_))
    dsimp only
    split
    next argument head hchildren =>
      split
      · exact hpop
      · have hargument := hrender argument fun hb => (hnode hb).of_mem (by simp [hchildren])
        exact (hargument _).seq (moves_write fun _ => rfl)
    next => exact hpop

theorem keeps_binaryStacked (hnode : balanced → node.OperandsBalanced) :
    Keeps balanced (binaryStacked render node) := by
  rintro ⟨n, k⟩
  unfold binaryStacked
  cases hlast : node.children.getLast? with
  | none => exact keeps_missing _
  | some op =>
    have hchild : ∀ c ∈ node.children, Keeps balanced (render c) := fun c hc =>
      hrender c fun hb => (hnode hb).of_mem hc
    have hend : ∀ operands : String × String,
        (balanced → Text.Balanced operands.1 ∧ Text.Balanced operands.2) →
        Moves balanced ⟨n, k⟩ ⟨n, k⟩ (do
          write "("
          render op
          write (" " ++ operands.1 ++ " " ++ operands.2 ++ ")")) := by
      intro operands hoperands
      refine (moves_write fun _ => rfl).seq ((hchild op (List.mem_of_getLast? hlast) ⟨n, k + 1⟩).seq
        (moves_write fun hb => ?_))
      have hspace : Text.Balanced " " := Text.balanced_iff.2 rfl
      obtain ⟨hfirst, hsecond⟩ := hoperands hb
      have hboth := ((hspace.append hfirst).append hspace).append hsecond
      rw [String.toList_append, Text.opened?_append, hboth.opened?]
      rfl
    dsimp only
    split
    next second head hchildren =>
      exact (gives_capture (hchild second (by simp [hchildren])) _).bind fun s hs =>
        (gives_pop hrender _).bind fun first hfirst =>
          Nests.bind (.pure fun hb => ⟨hfirst hb, hs hb⟩) hend
    next =>
      refine (gives_pop hrender _).bind fun first hfirst => ?_
      split
      next second hfound =>
        exact (gives_capture (hchild second (List.mem_of_find?_eq_some hfound)) _).bind fun s hs =>
          Nests.bind (.pure fun hb => ⟨hfirst hb, hs hb⟩) hend
      next => exact Nests.bind (.pure fun hb => ⟨hfirst hb, balanced_missingText⟩) hend

theorem nests_toOperands {d : Depth} (firstUnquoted : Bool)
    (h : ∀ c ∈ nodes, balanced → c.OperandsBalanced) :
    Nests balanced d d (fun texts => ∀ s ∈ texts, Text.Balanced s)
      (toOperands render firstUnquoted nodes) := by
  induction nodes generalizing firstUnquoted with
  | nil => exact .pure fun _ => by simp
  | cons c rest ih =>
    have htext := gives_capture (hrender c (h c (by simp))) d
    refine (nests_withUnquoted htext).bind fun text htext =>
      (keeps_push (v := .operand text) htext d).seq ?_
    exact (ih false fun n hn => h n (List.mem_cons_of_mem _ hn)).bind fun rest hrest =>
      .pure fun hb => List.forall_mem_cons.2 ⟨htext hb, hrest hb⟩

theorem nests_operands {d : Depth} (firstUnquoted : Bool)
    (h : ∀ c ∈ nodes, balanced → c.OperandsBalanced) :
    Nests balanced d d (fun texts => ∀ s ∈ texts, Text.Balanced s)
      (operands render firstUnquoted nodes) := by
  refine (nests_toOperands hrender firstUnquoted h).bind fun texts htexts => ?_
  have hdrop : Keeps balanced (modify fun p : Page =>
      { p with values := dropOperands texts.length p.values }) :=
    keeps_values fun vs _ hvs v hv => hvs v ((dropOperands_sublist _ _).subset hv)
  exact (hdrop d).seq (.pure htexts)

theorem keeps_application (hnode : balanced → node.OperandsBalanced) :
    Keeps balanced (application render node) := by
  rintro ⟨n, k⟩
  unfold application
  cases hlast : node.children.getLast? with
  | none => exact keeps_missing _
  | some op =>
    have hop := hrender op fun hb => (hnode hb).of_mem (List.mem_of_getLast? hlast)
    refine (nests_operands hrender false fun c hc hb =>
      (hnode hb).of_mem (List.mem_of_mem_dropLast hc)).bind fun texts htexts => ?_
    exact (moves_write fun _ => rfl).seq ((hop ⟨n, k + 1⟩).seq (moves_writeArguments htexts))

theorem keeps_countedApplication {family : Family} (hnode : balanced → node.OperandsBalanced) :
    Keeps balanced (countedApplication render node family) := by
  rintro ⟨n, k⟩
  have hfamily : Text.Balanced family.lisp := Text.balanced_iff.2 (by cases family <;> rfl)
  refine (nests_operands hrender _ fun c hc hb =>
    (hnode hb).of_mem (List.mem_of_mem_filter hc)).bind fun texts htexts => ?_
  refine Moves.seq (e := ⟨n, k + 1⟩) (moves_write fun _ => rfl) ?_
  split
  next callee arguments =>
    exact (keeps_write (fun hb => htexts hb callee (by simp)) _).seq
      (moves_writeArguments fun hb s hs => htexts hb s (List.mem_cons_of_mem _ hs))
  next => exact (keeps_missing _).seq (moves_writeArguments fun _ => by simp)
  next => exact (keeps_write (fun _ => hfamily) _).seq (moves_writeArguments htexts)

/-! ### Conditionals -/

theorem keeps_progn {body : Node} (hbody : balanced → body.OperandsBalanced) :
    Keeps balanced (progn render body) := by
  rintro ⟨n, k⟩
  unfold progn
  split
  · exact hrender body hbody _
  · exact (moves_write fun _ => rfl).seq (moves_indentMore.seq ((keeps_newline _).seq
      ((hrender body hbody _).seq moves_closeForm)))

theorem keeps_ifElse (hnode : balanced → node.OperandsBalanced) :
    Keeps balanced (ifElse render node) := by
  rintro ⟨n, k⟩
  have hno : Moves balanced ⟨n + 2, k + 1⟩ ⟨n, k⟩
      (do dedent; newline; child render node 6; closeForm) :=
    moves_dedent.seq ((keeps_newline _).seq ((keeps_child hrender hnode _).seq moves_closeForm))
  refine moves_openForm.seq (Moves.seq (moves_write fun _ => rfl)
    ((keeps_child hrender hnode _).seq (moves_indentMore.seq (moves_indentMore.seq
      ((keeps_newline _).seq ?_)))))
  cases hc : node.child? 2 with
  | none => exact (keeps_missing _).seq hno
  | some yes => exact (keeps_progn hrender (fun hb => (hnode hb).child? hc) _).seq hno

theorem keeps_cond (hnode : balanced → node.OperandsBalanced) :
    Keeps balanced (cond render node) := by
  rintro ⟨n, k⟩
  have hclauses := keeps_eachOnLine hrender fun c hc hb => (hnode hb).clauses c hc
  exact moves_openForm.seq (Moves.seq (moves_write fun _ => rfl) (moves_align.seq
    ((hclauses _).seq moves_closeForm)))

theorem keeps_clause {condition body : Nat} (hnode : balanced → node.OperandsBalanced) :
    Keeps balanced (clause render node condition body) := by
  rintro ⟨n, k⟩
  unfold clause
  split
  next conditionNode bodyNode hcondition hbody =>
    have hrest : Moves balanced ⟨n + 1, k + 1⟩ ⟨n, k⟩ (do
        let text ← capture (render bodyNode)
        if !text.isEmpty then
          if bodyNode.lines.length > 1 then newline else write " "
          write text
        closeForm) :=
      (gives_capture (hrender bodyNode fun hb => (hnode hb).child? hbody) _).bind fun _ htext =>
        moves_clauseEnd htext
    refine (moves_write fun _ => rfl).seq (Moves.seq moves_align ?_)
    dsimp only
    split
    · exact (keeps_child hrender (fun hb => (hnode hb).child? hcondition) _).seq hrest
    · exact (moves_write fun _ => rfl).seq hrest
  next => exact keeps_missing _

/-! ### Bindings and loops -/

theorem keeps_binding (hnode : balanced → node.OperandsBalanced) :
    Keeps balanced (binding render node) := by
  rintro ⟨n, k⟩
  refine Moves.seq (e := ⟨n, k + 1⟩) (moves_write fun hb => ?_)
    ((keeps_child hrender hnode _).seq (moves_write fun _ => rfl))
  have hname : Text.Balanced (nameText node.children.getLast?) :=
    OperandsBalanced.nameText fun c hc => (hnode hb).of_mem (List.mem_of_getLast? hc)
  exact opened?_heading rfl hname

theorem keeps_letStar (hnode : balanced → node.OperandsBalanced) :
    Keeps balanced (letStar render node) := by
  rintro ⟨n, k⟩
  unfold letStar
  split
  next => exact keeps_missing _
  next varlist hc =>
    have hbindings := keeps_eachOnLine hrender fun c hmem hb => ((hnode hb).child? hc).of_mem hmem
    have hword : Moves balanced ⟨n, k + 1⟩ ⟨n, k + 1⟩
        (write (if varlist.children.length = 1 then "let " else "let* ")) := by
      split <;> exact moves_write fun _ => rfl
    exact moves_openForm.seq (hword.seq (Moves.seq (moves_write fun _ => rfl) (moves_align.seq
      ((hbindings ⟨n + 1, k + 2⟩).seq (moves_closeForm.seq
        (moves_lastPart (keeps_child hrender hnode)))))))

theorem keeps_eachBinding {bindings : List (String × Node)}
    (h : ∀ b ∈ bindings, balanced → Text.Balanced b.1 ∧ b.2.OperandsBalanced) :
    Keeps balanced (eachBinding render bindings) := by
  rintro ⟨n, k⟩
  induction bindings with
  | nil => exact Keeps.nothing _
  | cons b rest ih =>
    have hb := h b (by simp)
    have hrest := ih fun b hmem => h b (List.mem_cons_of_mem _ hmem)
    refine Moves.seq (e := ⟨n, k + 1⟩) (moves_write fun hbal => opened?_heading rfl (hb hbal).1)
      ((keeps_child hrender (fun hbal => (hb hbal).2) _).seq
        (Moves.seq (e := ⟨n, k⟩) (moves_write fun _ => rfl) ?_))
    dsimp only
    split
    · exact (keeps_newline _).seq hrest
    · exact hrest

theorem keeps_letStacked (hnode : balanced → node.OperandsBalanced) :
    Keeps balanced (letStacked render node) := by
  rintro ⟨n, k⟩
  unfold letStacked
  split
  next => exact keeps_missing _
  next varlist hc =>
    have hlist : balanced → varlist.OperandsBalanced := fun hb => (hnode hb).child? hc
    have hname : balanced → Text.Balanced (nameText (varlist.child? 3)) := fun hb =>
      OperandsBalanced.nameText fun c hc => (hlist hb).child? hc
    have hbindings : Keeps balanced (eachBinding render ((nameText (varlist.child? 3), varlist) ::
        ((varlist.child? 1).map nestedBindings).getD [])) := by
      refine keeps_eachBinding hrender (List.forall_mem_cons.2 ⟨fun hb => ⟨hname hb, hlist hb⟩, ?_⟩)
      intro b hmem hb
      cases hinner : varlist.child? 1 with
      | none => simp [hinner] at hmem
      | some inner =>
        exact ((hlist hb).child? hinner).nestedBindings b (by simpa [hinner] using hmem)
    have htruncate : ∀ height, Keeps balanced (truncate height) := fun height =>
      keeps_values (f := fun vs => vs.drop (vs.length - height)) fun vs _ hvs v hv =>
        hvs v (List.mem_of_mem_drop hv)
    have hbody : Moves balanced ⟨n, k + 1⟩ ⟨n, k⟩ (do
        let height := (← get).values.length
        push (.text (nameText (varlist.child? 3)))
        lastPart (child render node 1)
        truncate height) := .get_bind fun _ p _ =>
      (keeps_push (v := .text _) hname _).seq
        ((moves_lastPart (keeps_child hrender hnode)).seq (htruncate _ _))
    have hword : Moves balanced ⟨n, k + 1⟩ ⟨n, k + 2⟩
        (write (if (((varlist.child? 1).map nestedBindings).getD []).isEmpty then "let ("
          else "let* (")) := by
      split <;> exact moves_write fun _ => rfl
    exact moves_openForm.seq (hword.seq (moves_align.seq
      ((hbindings ⟨n + 1, k + 2⟩).seq (moves_closeForm.seq hbody))))

theorem keeps_dolistExpansion (hnode : balanced → node.OperandsBalanced) :
    Keeps balanced (dolistExpansion render node) := by
  rintro ⟨n, k⟩
  have hname : balanced → Text.Balanced (nameText ((((node.child? 5).map children).getD
      []).reverse.find? (·.isOp .varset))) := fun hb => OperandsBalanced.nameText fun c hc =>
    (hnode hb).grandchildren c (List.mem_reverse.1 (List.mem_of_find?_eq_some hc))
  have hbody : Moves balanced ⟨n, k + 2⟩ ⟨n, k⟩ (do
      write ")"
      lastPart (child render node 6)) :=
    (moves_write fun _ => rfl).seq (moves_lastPart (keeps_child hrender hnode))
  have hend : Moves balanced ⟨n, k + 2⟩ ⟨n, k⟩ (do
      if node.isKind .dolistMacroResult then
        write " "
        child render node 16
      write ")"
      lastPart (child render node 6)) := by
    dsimp only
    split
    · exact Moves.seq (moves_write fun _ => rfl) ((keeps_child hrender hnode _).seq hbody)
    · exact hbody
  refine moves_openForm.seq (Moves.seq (e := ⟨n, k + 2⟩)
    (moves_write fun hb => opened?_heading rfl (hname hb)) ?_)
  cases hc : node.child? 0 with
  | none => exact (keeps_missing _).seq hend
  | some list => exact (keeps_child hrender (fun hb => (hnode hb).child? hc) _).seq hend

/-! ### All nodes -/

theorem keeps_tree {kind : Nonterminal} (hnode : balanced → node.OperandsBalanced) :
    Keeps balanced (Rendering.tree render kind node) := by
  have hchildren : ∀ c ∈ node.children, balanced → c.OperandsBalanced := fun c hc hb =>
    (hnode hb).of_mem hc
  have htemplate : ∀ directives, kind.template? = some directives →
      Keeps balanced (fill render node directives) := fun _ h d =>
    moves_fill hrender hnode (Directive.depthBehind?_template h d)
  cases kind with
  | exprs | optExprs => exact keeps_statements hrender hchildren
  | fnBody => exact keeps_routineBody hrender hnode
  | bodyStacked => exact keeps_stackedBody hrender hnode
  | exprStmt | labeledClause => exact keeps_child hrender hnode
  | unaryExpr | unaryExprStacked => exact keeps_unary hrender hnode
  | binaryExprStacked => exact keeps_binaryStacked hrender hnode
  | ifElseForm => exact keeps_ifElse hrender hnode
  | condForm => exact keeps_cond hrender hnode
  | clause | labeledFinalClause => exact keeps_clause hrender hnode
  | letFormStar => exact keeps_letStar hrender hnode
  | varbind => exact keeps_binding hrender hnode
  | letFormStacked => exact keeps_letStacked hrender hnode
  | dolistMacro | dolistMacroResult => exact keeps_dolistExpansion hrender hnode
  | binaryExpr | ternaryExpr => exact keeps_application hrender hnode
  | counted family => exact keeps_countedApplication hrender hnode
  | body | expr | exprStacked | nameExpr | nullaryOp | unaryOp | binaryOp | ternaryOp | condition
  | dolistList => exact keeps_each hrender hchildren
  | varlist | labeledClauses | varlistStacked | varlistStackedInner | dolistInitVar
  | dolistLoopIterSet | dolistLoopIterSetStacking =>
    exact fun d => (keeps_issue (by simp) d).seq (keeps_write (fun _ => balanced_missingText) d)
  | _ => exact htemplate _ rfl

theorem keeps_form (hnode : balanced → node.OperandsBalanced) :
    Keeps balanced (form render node) := by
  cases node with
  | token i =>
    have htext := gives_instructionText hrender fun hb => hnode hb i (by simp [tokens])
    exact fun d => (htext d).bind fun s hs => keeps_write hs d
  | tree kind children idiom => exact keeps_tree hrender hnode

end

/-- Nodes are rendered so that the page comes back to its depth, however deep they are. -/
theorem nesting_node (levels : Nat) : Nesting balanced (Rendering.node levels) := by
  induction levels with
  | zero =>
    intro node _ d base p _ a p' hrun
    cases hrun
  | succ levels ih => exact fun node hnode => keeps_form ih hnode

end Rendering

/-- Two pages on which a line is laid out alike, and constants are quoted alike. -/
structure Page.SameLayout (p q : Page) : Prop where
  indent : p.indent = q.indent
  outerIndents : p.outerIndents = q.outerIndents
  startColumn : p.startColumn = q.startColumn
  unquoted : p.unquoted = q.unquoted

/-- However a node is rendered, the layout is afterwards what it was before, and no indentation was
asked back that there was not. -/
theorem Rendering.sameLayout_of_node {levels : Nat} {node : Node} {p p' : Page}
    (h : Rendering.node levels node p = some ((), p')) :
    p'.SameLayout p ∧ (.belowBase ∈ p'.issues → .belowBase ∈ p.issues) := by
  have hstart : p.Nested False p ⟨0, 0⟩ := ⟨rfl, rfl, rfl, id, False.elim, False.elim⟩
  obtain ⟨hend, -⟩ := nesting_node levels node False.elim ⟨0, 0⟩ p p hstart () p' h
  have hindents : p'.indent :: p'.outerIndents = p.indent :: p.outerIndents := hend.indents
  obtain ⟨hindent, houter⟩ := List.cons.inj hindents
  exact ⟨⟨hindent, houter, hend.startColumn, hend.unquoted⟩, hend.belowBase⟩

namespace Node

/-- Every tree is rendered unless a loop of it starts with a value that reads the stack, whatever is
missing in it. No indentation is asked back that there is not, and each node that is rendered on the
way leaves the layout as it was. -/
theorem render_restores_layout {tree : Node} (hloops : tree.LoopsStartQuiet) (indent : String) :
    (∃ source, tree.render indent = .ok source ∧ .belowBase ∉ source.issues) ∧
      ∀ levels node p p', Rendering.node levels node p = some ((), p') →
        p'.SameLayout p ∧ (.belowBase ∈ p'.issues → .belowBase ∈ p.issues) := by
  refine ⟨?_, fun _ _ _ _ h => Rendering.sameLayout_of_node h⟩
  obtain ⟨page, hrun, hrender, -⟩ := exists_page hloops (False.elim : False → _) indent
  obtain ⟨-, hbelow⟩ := Rendering.sameLayout_of_node hrun
  exact ⟨_, hrender, fun hmem => nomatch hbelow hmem⟩

/-- A loop whose start value reads a variable, and whose other parts are missing. -/
def startOfLoop : Node := .plain .whileForm1 [.token (.ofOpcode .varref (some (.symbol "a")) 0)]

theorem render_restores_layout_startOfLoop : startOfLoop.LoopsStartQuiet ∧
    (∃ source, startOfLoop.render "  " = .ok source ∧ .belowBase ∉ source.issues) ∧
      ∀ levels node p p', Rendering.node levels node p = some ((), p') →
        p'.SameLayout p ∧ (.belowBase ∈ p'.issues → .belowBase ∈ p.issues) := by
  have hloops : startOfLoop.LoopsStartQuiet := List.all_eq_true.1 (by decide)
  exact ⟨hloops, render_restores_layout hloops "  "⟩

/-- The source of a tree is balanced if its operands are, and if what its lines are indented by is.
-/
theorem exists_balanced {tree : Node} (hloops : tree.LoopsStartQuiet)
    (hoperands : tree.OperandsBalanced) {indent : String} (hindent : Text.Balanced indent) :
    ∃ source, tree.render indent = .ok source ∧ Text.Balanced source.text := by
  obtain ⟨page, hrun, hrender, -⟩ := exists_page hloops (False.elim : False → _) indent
  have hstart : (Page.start indent).Nested True (Page.start indent) ⟨0, 0⟩ :=
    ⟨rfl, rfl, rfl, id, fun _ => rfl, fun _ =>
      ⟨List.forall_mem_singleton.2 hindent, by simp [Page.start], by simp [Page.start]⟩⟩
  obtain ⟨hend, -⟩ := Rendering.nesting_node tree.maxLevels tree (fun _ => hoperands) ⟨0, 0⟩
    (.start indent) (.start indent) hstart () page hrun
  have htext : Text.Balanced page.text := Text.balanced_iff.2 (hend.opened trivial)
  exact ⟨_, hrender, (Text.balanced_spaces _).append htext⟩

/-- The source of a tree is balanced if its operands are, whatever is missing in it and however many
blanks its lines are indented by. -/
theorem balanced_render {tree : Node} (hloops : tree.LoopsStartQuiet)
    (hoperands : tree.OperandsBalanced) (width : Nat) :
    ∃ source, tree.render (Text.spaces width) = .ok source ∧ Text.Balanced source.text :=
  exists_balanced hloops hoperands (Text.balanced_spaces width)

/-- The variable `a` is read in an excursion. -/
def excursion : Node := .plain .saveExcursionForm [.token (.ofOpcode .saveExcursion none 0),
  .token (.ofOpcode .varref (some (.symbol "a")) 1)]

theorem loopsStartQuiet_excursion : excursion.LoopsStartQuiet := List.all_eq_true.1 (by decide)

theorem operandsBalanced_excursion : excursion.OperandsBalanced := by
  have hname : Text.Balanced (Operand.symbol "a").toText := Text.balanced_iff.2 rfl
  simpa [OperandsBalanced, excursion, plain, tokens, tokensOf, Instruction.ofOpcode] using hname

theorem balanced_render_excursion : excursion.LoopsStartQuiet ∧ excursion.OperandsBalanced ∧
    ∃ source, excursion.render (Text.spaces 2) = .ok source ∧ Text.Balanced source.text :=
  ⟨loopsStartQuiet_excursion, operandsBalanced_excursion,
    balanced_render loopsStartQuiet_excursion operandsBalanced_excursion 2⟩

end Node

end ElispLift
