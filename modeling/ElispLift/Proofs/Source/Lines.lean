import ElispLift.Proofs.Source.Indentation

/-!
# Lines of source

Every form leaves an indented page indented. Most forms start new lines with the line break and the
indentation at once. Templates write the two apart, so it is checked that no template writes
anything between them. It follows that every line of the source of a tree starts with the
indentation that the tree is rendered at.
-/

namespace ElispLift

/-- Whether directives indent every line that they start, the current one too if it is `begun`. -/
def Directive.indentLines : (begun : Bool) → List Directive → Bool
  | begun, [] => !begun
  | true, indentMore :: rest => indentLines true rest
  | true, indentation :: rest => indentLines false rest
  | true, _ :: _ => false
  | false, text s :: rest =>
    !s.toList.dropLast.contains '\n' && indentLines (s.toList.getLast? = some '\n') rest
  | false, _ :: rest => indentLines false rest

theorem Directive.indentLines_template {kind : Nonterminal} {directives : List Directive}
    (h : kind.template? = some directives) : indentLines false directives = true := by
  cases kind <;> cases h <;> rfl

/-- The page is indented but for the line that was started last. -/
def Page.LineBegun (n : Nat) (p : Page) : Prop :=
  ∃ s, p.text = s ++ "\n" ∧ Page.Indented n { p with text := s }

namespace Rendering

open Node

variable {n : Nat} {render : Node → Rendering Unit} {node : Node} {nodes : List Node}

/-! ### Instructions -/

theorem indented_constantText {unquoted : Bool} {operand : Option Operand}
    (h : ∀ o, operand = some o → '\n' ∉ o.toText.toList) :
    Text.Indented n (constantText unquoted operand) := by
  have hquote : Text.Indented n "'" := .of_not_mem (by decide)
  have hfunction : Text.Indented n "#'" := .of_not_mem (by decide)
  unfold constantText
  split
  next => exact .of_not_mem (by decide)
  next k => exact .of_not_mem (h (.int k) rfl)
  next s => exact .of_not_mem (h (.str s) rfl)
  next r =>
    have hname : Text.Indented n r.name :=
      .of_not_mem (Operand.unbroken_of_text? (show (Operand.routine r).text? = some r.name from rfl)
        (h (.routine r) rfl))
    split
    · exact hname
    · exact hfunction.append hname
  next s =>
    have hname : Text.Indented n s := .of_not_mem (h (.symbol s) rfl)
    split
    · exact hname
    · exact hquote.append hname

theorem indented_applied (op : Opcode) : Text.Indented n op.applied :=
  .of_not_mem (by cases op <;> decide)

theorem supplies_instructionText (hrender : Indenting n render) {i : Instruction}
    (hi : ∀ operand, i.operand = some operand → '\n' ∉ operand.toText.toList) :
    Supplies n (instructionText render i) := by
  have hname : Text.Indented n ((i.operand.map Operand.toText).getD "") := by
    cases hoperand : i.operand with
    | none => exact .of_not_mem (by decide)
    | some operand => exact .of_not_mem (hi operand hoperand)
  unfold instructionText
  split
  case h_1 => exact .pure (.of_not_mem (by decide))
  case h_2 => exact .get_bind fun _ _ => .pure (indented_constantText hi)
  case h_6 => exact supplies_peek hrender
  case h_7 => exact supplies_stackRef hrender
  case h_8 => exact .pure (indented_applied _)
  all_goals exact .pure hname

/-! ### Steps of several forms -/

/-- The last part of a form closes it. -/
theorem stays_lastPart {part : Rendering Unit} (h : Stays n part) : Stays n (lastPart part) :=
  stays_indentMore.seq (stays_newline.seq (h.seq stays_closeForm))

theorem stays_writeArguments {texts : List String} (h : ∀ s ∈ texts, Text.Indented n s) :
    Stays n (writeArguments texts) := by
  induction texts with
  | nil => exact stays_words (by decide)
  | cons text rest ih =>
    have hspace : Text.Indented n " " := .of_not_mem (by decide)
    exact (stays_write (hspace.append (h text (by simp)))).seq
      (ih fun s hs => h s (List.mem_cons_of_mem _ hs))

/-- What opens a form, a name, and a space. -/
theorem stays_heading {head name : String} (hhead : '\n' ∉ head.toList)
    (hname : '\n' ∉ name.toList) : Stays n (write (head ++ name ++ " ")) :=
  stays_write (((Text.Indented.of_not_mem hhead).append (.of_not_mem hname)).append
    (.of_not_mem (by decide)))

section

variable (hrender : Indenting n render)

include hrender

section

variable (hnode : node.OperandsUnbroken)

include hnode

/-! ### Children and templates -/

theorem stays_child (k : Nat) : Stays n (child render node k) := by
  unfold child
  split
  next c hc => exact hrender c (hnode.child? hc)
  next => exact stays_missing

/-- A directive other than a text. -/
theorem stays_directive {d : Directive} (hd : ∀ s, d = .text s → Text.Indented n s) :
    Stays n (directive render node d) := by
  cases d with
  | text s => exact stays_write (hd s rfl)
  | child k => exact stays_child hrender hnode k
  | unquoted k =>
    cases hc : node.child? k with
    | none => simpa only [directive, hc] using stays_missing
    | some c =>
      simp only [directive, hc]
      exact indents_withUnquoted (hrender c (hnode.child? hc))
  | operand k =>
    cases hc : node.child? k with
    | none => simpa only [directive, hc] using stays_missing
    | some c =>
      simp only [directive, hc]
      exact stays_words (hnode.child? hc).operandText
  | push k =>
    cases hc : node.child? k with
    | none =>
      simp only [directive, hc]
      exact stays_issue.seq (stays_push (v := .text missingText) indented_missingText)
    | some c =>
      simp only [directive, hc]
      exact stays_push (v := .node c) (hnode.child? hc)
  | pop => exact (supplies_pop hrender).bind fun _ hs => stays_write hs
  | indentation =>
    refine .get_bind fun p hp => ?_
    obtain ⟨m, -, hindent⟩ := hp.indent
    exact hindent ▸ stays_write (.spaces m)
  | indentMore => exact stays_indentMore
  | dedent => exact stays_dedent
  | openForm => exact stays_openForm
  | closeForm => exact stays_closeForm

omit hrender hnode in
/-- The indentation is written behind the line break. -/
theorem indented_of_indentation {p p' : Page} (hp : p.LineBegun n)
    (hrun : directive render node .indentation p = some ((), p')) : p'.Indented n := by
  obtain ⟨s, htext, hs⟩ := hp
  obtain ⟨m, hm, hindent⟩ := hs.indent
  obtain rfl : p' = { p with text := p.text ++ p.indent } := by
    cases hrun
    rfl
  have hline := hs.write (Text.Indented.newline hm)
  rwa [← hindent, ← String.append_assoc, ← htext] at hline

omit hrender hnode in
theorem lineBegun_of_indentMore {p p' : Page} (hp : p.LineBegun n)
    (hrun : directive render node .indentMore p = some ((), p')) : p'.LineBegun n := by
  obtain ⟨s, htext, hs⟩ := hp
  cases hrun
  exact ⟨s, htext, (stays_indentMore _ hs () _ rfl).1⟩

omit hrender hnode in
/-- A text starts a line at its end if at all. -/
theorem lineBegun_of_text {s : String} {p p' : Page} (hp : p.Indented n)
    (hs : '\n' ∉ s.toList.dropLast) (hlast : s.toList.getLast? = some '\n')
    (hrun : directive render node (.text s) p = some ((), p')) : p'.LineBegun n := by
  cases hrun
  obtain ⟨front, hfront⟩ := List.getLast?_eq_some_iff.1 hlast
  refine ⟨p.text ++ String.ofList front, ?_, hp.write (.of_not_mem ?_)⟩
  · rw [String.append_assoc, ← String.toList_inj]
    simp [hfront]
  · rw [hfront, List.dropLast_concat] at hs
    rwa [String.toList_ofList]

/-- Templates leave no line that is not indented. -/
theorem indented_of_fill {directives : List Directive} {p p' : Page} (begun : Bool)
    (h : Directive.indentLines begun directives = true)
    (hp : if begun then p.LineBegun n else p.Indented n)
    (hrun : fill render node directives p = some ((), p')) : p'.Indented n := by
  induction directives generalizing begun p with
  | nil =>
    cases begun with
    | true => cases h
    | false =>
      cases hrun
      exact hp
  | cons d rest ih =>
    obtain ⟨⟨⟩, q, hfirst, hrest⟩ := exists_of_run_bind hrun
    cases begun with
    | true =>
      cases d with
      | indentMore => exact ih true h (lineBegun_of_indentMore hp hfirst) hrest
      | indentation => exact ih false h (indented_of_indentation hp hfirst) hrest
      | _ => cases h
    | false =>
      by_cases htext : ∃ s, d = .text s
      · obtain ⟨s, rfl⟩ := htext
        obtain ⟨hs, hlater⟩ := Bool.and_eq_true_iff.1 h
        have hfront : '\n' ∉ s.toList.dropLast := by simpa using hs
        refine ih _ hlater ?_ hrest
        split
        next hlast => exact lineBegun_of_text hp hfront (of_decide_eq_true hlast) hfirst
        next hlast =>
          have hwords : '\n' ∉ s.toList :=
            Text.not_mem_of_dropLast hfront fun he => hlast (decide_eq_true he)
          exact (stays_words hwords p hp () q hfirst).1
      · have hkept := (stays_directive hrender hnode (d := d)
          (fun s hs => (htext ⟨s, hs⟩).elim) p hp () q hfirst).1
        have hlater : Directive.indentLines false rest = true := by
          cases d <;> first | exact h | exact (htext ⟨_, rfl⟩).elim
        exact ih false hlater hkept hrest

end

/-! ### Lists of nodes -/

theorem stays_each (h : ∀ c ∈ nodes, c.OperandsUnbroken) : Stays n (each render nodes) := by
  induction nodes with
  | nil => exact stays_nothing
  | cons c rest ih =>
    exact (hrender c (h c (by simp))).seq (ih fun m hm => h m (List.mem_cons_of_mem _ hm))

theorem stays_eachOnLine (h : ∀ c ∈ nodes, c.OperandsUnbroken) :
    Stays n (eachOnLine render nodes) := by
  induction nodes with
  | nil => exact stays_nothing
  | cons c rest ih =>
    have hc := hrender c (h c (by simp))
    have hrest := ih fun m hm => h m (List.mem_cons_of_mem _ hm)
    cases rest with
    | nil => exact hc
    | cons next rest => exact hc.seq (stays_newline.seq hrest)

theorem indents_toSlots (h : ∀ c ∈ nodes, c.OperandsUnbroken) :
    Indents n (fun _ => True) (toSlots render nodes) := by
  induction nodes with
  | nil => exact .pure trivial
  | cons c rest ih =>
    have hlater : ∀ id : Nat, Indents n (fun _ => True)
        (do return id :: (← toSlots render rest)) := fun id =>
      (ih fun m hm => h m (List.mem_cons_of_mem _ hm)).bind fun _ _ => .pure trivial
    refine (supplies_capture (hrender c (h c (by simp)))).bind fun text htext =>
      (indents_newSlot htext).bind fun id _ => ?_
    split
    · exact (stays_push (v := .slot id) trivial).seq (hlater id)
    · exact hlater id

theorem stays_statements (h : ∀ c ∈ nodes, c.OperandsUnbroken) :
    Stays n (statements render nodes) := by
  refine (indents_toSlots hrender h).bind fun ids _ => ?_
  have hdrop : Stays n (dropSlots ids) :=
    stays_values fun vs hvs v hv => hvs v (List.mem_of_mem_filter hv)
  refine hdrop.seq ((indents_leftOver ids).bind fun texts htexts => .get_bind fun p hp => ?_)
  obtain ⟨m, hm, hindent⟩ := hp.indent
  exact hindent ▸ stays_write ((Text.Indented.newline hm).intercalate htexts)

theorem stays_routineBody (hnode : node.OperandsUnbroken) : Stays n (routineBody render node) := by
  unfold routineBody
  split
  next => exact stays_missing
  next body tail hchildren =>
    have hchild : ∀ c ∈ body :: tail, c.OperandsUnbroken := hchildren ▸ hnode.of_mem
    exact stays_statements hrender (List.forall_mem_append.2
      ⟨(hchild body (by simp)).lines, fun c hc => hchild c (List.mem_cons_of_mem _ hc)⟩)

theorem stays_stackedBody (hnode : node.OperandsUnbroken) : Stays n (stackedBody render node) :=
  stays_statements hrender (List.forall_mem_append.2
    ⟨fun c hc => hnode.of_mem c (List.mem_of_mem_take hc), hnode.grandchildren⟩)

/-! ### Applications -/

theorem stays_unary (hnode : node.OperandsUnbroken) : Stays n (unary render node) := by
  have hclose : Stays n (write ")") := stays_words (by decide)
  have hpop : Stays n (do write (← pop render); write ")") :=
    (supplies_pop hrender).bind fun _ hs => (stays_write hs).seq hclose
  unfold unary
  cases hlast : node.children.getLast? with
  | none => exact stays_missing
  | some op =>
    have hop := hrender op (hnode.of_mem op (List.mem_of_getLast? hlast))
    refine (stays_words (by decide)).seq (hop.seq (Stays.seq (stays_words (by decide)) ?_))
    dsimp only
    split
    next argument head hchildren =>
      split
      · exact hpop
      · exact (hrender argument (hnode.of_mem argument (by simp [hchildren]))).seq hclose
    next => exact hpop

theorem stays_binaryStacked (hnode : node.OperandsUnbroken) :
    Stays n (binaryStacked render node) := by
  have hchild : ∀ c ∈ node.children, Stays n (render c) := fun c hc =>
    hrender c (hnode.of_mem c hc)
  unfold binaryStacked
  cases hlast : node.children.getLast? with
  | none => exact stays_missing
  | some op =>
    have hend : ∀ operands : String × String,
        Text.Indented n operands.1 ∧ Text.Indented n operands.2 → Stays n (do
          write "("
          render op
          write (" " ++ operands.1 ++ " " ++ operands.2 ++ ")")) := by
      rintro ⟨first, second⟩ ⟨hfirst, hsecond⟩
      have hspace : Text.Indented n " " := .of_not_mem (by decide)
      have hclose : Text.Indented n ")" := .of_not_mem (by decide)
      exact (stays_words (by decide)).seq ((hchild op (List.mem_of_getLast? hlast)).seq
        (stays_write ((((hspace.append hfirst).append hspace).append hsecond).append hclose)))
    dsimp only
    split
    next second head hchildren =>
      exact (supplies_capture (hchild second (by simp [hchildren]))).bind fun s hs =>
        (supplies_pop hrender).bind fun first hfirst => Indents.bind (.pure ⟨hfirst, hs⟩) hend
    next =>
      refine (supplies_pop hrender).bind fun first hfirst => ?_
      split
      next second hfound =>
        exact (supplies_capture (hchild second (List.mem_of_find?_eq_some hfound))).bind
          fun s hs => Indents.bind (.pure ⟨hfirst, hs⟩) hend
      next => exact Indents.bind (.pure ⟨hfirst, indented_missingText⟩) hend

theorem indents_toOperands (firstUnquoted : Bool) (h : ∀ c ∈ nodes, c.OperandsUnbroken) :
    Indents n (fun texts => ∀ s ∈ texts, Text.Indented n s)
      (toOperands render firstUnquoted nodes) := by
  induction nodes generalizing firstUnquoted with
  | nil => exact .pure (by simp)
  | cons c rest ih =>
    have htext := supplies_capture (hrender c (h c (by simp)))
    refine (indents_withUnquoted htext).bind fun text htext =>
      (stays_push (v := .operand text) htext).seq ?_
    exact (ih false fun m hm => h m (List.mem_cons_of_mem _ hm)).bind fun rest hrest =>
      .pure (List.forall_mem_cons.2 ⟨htext, hrest⟩)

theorem indents_operands (firstUnquoted : Bool) (h : ∀ c ∈ nodes, c.OperandsUnbroken) :
    Indents n (fun texts => ∀ s ∈ texts, Text.Indented n s)
      (operands render firstUnquoted nodes) := by
  refine (indents_toOperands hrender firstUnquoted h).bind fun texts htexts => ?_
  have hdrop : Stays n (modify fun p : Page =>
      { p with values := dropOperands texts.length p.values }) :=
    stays_values fun vs hvs v hv => hvs v ((dropOperands_sublist _ _).subset hv)
  exact hdrop.seq (.pure htexts)

theorem stays_application (hnode : node.OperandsUnbroken) : Stays n (application render node) := by
  unfold application
  cases hlast : node.children.getLast? with
  | none => exact stays_missing
  | some op =>
    have hop := hrender op (hnode.of_mem op (List.mem_of_getLast? hlast))
    refine (indents_operands hrender false fun c hc =>
      hnode.of_mem c (List.mem_of_mem_dropLast hc)).bind fun texts htexts => ?_
    exact (stays_words (by decide)).seq (hop.seq (stays_writeArguments htexts))

theorem stays_countedApplication {family : Family} (hnode : node.OperandsUnbroken) :
    Stays n (countedApplication render node family) := by
  have hfamily : '\n' ∉ family.lisp.toList := by cases family <;> decide
  refine (indents_operands hrender _ fun c hc =>
    hnode.of_mem c (List.mem_of_mem_filter hc)).bind fun texts htexts => ?_
  refine (stays_words (by decide)).seq ?_
  split
  next callee arguments =>
    exact (stays_write (htexts callee (by simp))).seq
      (stays_writeArguments fun s hs => htexts s (List.mem_cons_of_mem _ hs))
  next => exact stays_missing.seq (stays_writeArguments (by simp))
  next => exact (stays_words hfamily).seq (stays_writeArguments htexts)

/-! ### Conditionals -/

theorem stays_progn {body : Node} (hbody : body.OperandsUnbroken) :
    Stays n (progn render body) := by
  unfold progn
  split
  · exact hrender body hbody
  · exact (stays_words (by decide)).seq (stays_indentMore.seq (stays_newline.seq
      ((hrender body hbody).seq stays_closeForm)))

theorem stays_ifElse (hnode : node.OperandsUnbroken) : Stays n (ifElse render node) := by
  have hno : Stays n (do dedent; newline; child render node 6; closeForm) :=
    stays_dedent.seq (stays_newline.seq ((stays_child hrender hnode 6).seq stays_closeForm))
  refine stays_openForm.seq (Stays.seq (stays_words (by decide))
    ((stays_child hrender hnode 0).seq (stays_indentMore.seq (stays_indentMore.seq
      (stays_newline.seq ?_)))))
  cases hc : node.child? 2 with
  | none => exact stays_missing.seq hno
  | some yes => exact (stays_progn hrender (hnode.child? hc)).seq hno

theorem stays_cond (hnode : node.OperandsUnbroken) : Stays n (cond render node) :=
  stays_openForm.seq (Stays.seq (stays_words (by decide)) (stays_align.seq
    ((stays_eachOnLine hrender hnode.clauses).seq stays_closeForm)))

theorem stays_clause {condition body : Nat} (hnode : node.OperandsUnbroken) :
    Stays n (clause render node condition body) := by
  unfold clause
  split
  next conditionNode bodyNode hcondition hbody =>
    have hrest : Stays n (do
        let text ← capture (render bodyNode)
        if !text.isEmpty then
          if bodyNode.lines.length > 1 then newline else write " "
          write text
        closeForm) := by
      refine (supplies_capture (hrender bodyNode (hnode.child? hbody))).bind fun text htext => ?_
      have hend : Stays n (do write text; closeForm) := (stays_write htext).seq stays_closeForm
      dsimp only
      split
      · split
        · exact stays_newline.seq hend
        · exact (stays_words (by decide)).seq hend
      · exact stays_closeForm
    refine (stays_words (by decide)).seq (Stays.seq stays_align ?_)
    dsimp only
    split
    · exact (stays_child hrender (hnode.child? hcondition) 0).seq hrest
    · exact (stays_words (by decide)).seq hrest
  next => exact stays_missing

/-! ### Bindings and loops -/

theorem stays_binding (hnode : node.OperandsUnbroken) : Stays n (binding render node) := by
  have hname : '\n' ∉ (nameText node.children.getLast?).toList :=
    OperandsUnbroken.nameText fun c hc => hnode.of_mem c (List.mem_of_getLast? hc)
  exact (stays_heading (by decide) hname).seq
    ((stays_child hrender hnode 0).seq (stays_words (by decide)))

theorem stays_letStar (hnode : node.OperandsUnbroken) : Stays n (letStar render node) := by
  unfold letStar
  split
  next => exact stays_missing
  next varlist hc =>
    have hbindings := stays_eachOnLine hrender (hnode.child? hc).of_mem
    have hword : Stays n (write (if varlist.children.length = 1 then "let " else "let* ")) := by
      split <;> exact stays_words (by decide)
    exact stays_openForm.seq (hword.seq (Stays.seq (stays_words (by decide)) (stays_align.seq
      (hbindings.seq (stays_closeForm.seq (stays_lastPart (stays_child hrender hnode 1)))))))

theorem stays_eachBinding {bindings : List (String × Node)}
    (h : ∀ b ∈ bindings, '\n' ∉ b.1.toList ∧ b.2.OperandsUnbroken) :
    Stays n (eachBinding render bindings) := by
  induction bindings with
  | nil => exact stays_nothing
  | cons b rest ih =>
    obtain ⟨hname, hnode⟩ := h b (by simp)
    have hrest := ih fun b hmem => h b (List.mem_cons_of_mem _ hmem)
    refine Stays.seq (stays_heading (by decide) hname)
      ((stays_child hrender hnode 0).seq (Stays.seq (stays_words (by decide)) ?_))
    dsimp only
    split
    · exact stays_newline.seq hrest
    · exact hrest

theorem stays_letStacked (hnode : node.OperandsUnbroken) : Stays n (letStacked render node) := by
  unfold letStacked
  split
  next => exact stays_missing
  next varlist hc =>
    have hlist := hnode.child? hc
    have hname : '\n' ∉ (nameText (varlist.child? 3)).toList :=
      OperandsUnbroken.nameText fun c hc => hlist.child? hc
    have hinner : ∀ b ∈ ((varlist.child? 1).map nestedBindings).getD [],
        '\n' ∉ b.1.toList ∧ b.2.OperandsUnbroken := by
      intro b hmem
      cases hinner : varlist.child? 1 with
      | none => simp [hinner] at hmem
      | some inner => exact (hlist.child? hinner).nestedBindings b (by simpa [hinner] using hmem)
    have hbindings : Stays n (eachBinding render ((nameText (varlist.child? 3), varlist) ::
        ((varlist.child? 1).map nestedBindings).getD [])) :=
      stays_eachBinding hrender (List.forall_mem_cons.2 ⟨⟨hname, hlist⟩, hinner⟩)
    have htruncate : ∀ height, Stays n (truncate height) := fun height =>
      stays_values (f := fun vs => vs.drop (vs.length - height)) fun vs hvs v hv =>
        hvs v (List.mem_of_mem_drop hv)
    have hbody : Stays n (do
        let height := (← get).values.length
        push (.text (nameText (varlist.child? 3)))
        lastPart (child render node 1)
        truncate height) := .get_bind fun _ _ =>
      (stays_push (v := .text _) (.of_not_mem hname)).seq
        ((stays_lastPart (stays_child hrender hnode 1)).seq (htruncate _))
    have hword : Stays n (write (if (((varlist.child? 1).map nestedBindings).getD []).isEmpty
        then "let (" else "let* (")) := by
      split <;> exact stays_words (by decide)
    exact stays_openForm.seq (hword.seq (stays_align.seq
      (hbindings.seq (stays_closeForm.seq hbody))))

theorem stays_dolistExpansion (hnode : node.OperandsUnbroken) :
    Stays n (dolistExpansion render node) := by
  have hname : '\n' ∉ (nameText ((((node.child? 5).map children).getD
      []).reverse.find? (·.isOp .varset))).toList := OperandsUnbroken.nameText fun c hc =>
    hnode.grandchildren c (List.mem_reverse.1 (List.mem_of_find?_eq_some hc))
  have hbody : Stays n (do
      write ")"
      lastPart (child render node 6)) :=
    (stays_words (by decide)).seq (stays_lastPart (stays_child hrender hnode 6))
  have hend : Stays n (do
      if node.isKind .dolistMacroResult then
        write " "
        child render node 16
      write ")"
      lastPart (child render node 6)) := by
    dsimp only
    split
    · exact Stays.seq (stays_words (by decide)) ((stays_child hrender hnode 16).seq hbody)
    · exact hbody
  refine stays_openForm.seq (Stays.seq (stays_heading (by decide) hname) ?_)
  cases hc : node.child? 0 with
  | none => exact stays_missing.seq hend
  | some list => exact (stays_child hrender (hnode.child? hc) 0).seq hend

/-! ### All nodes -/

theorem stays_tree {kind : Nonterminal} (hnode : node.OperandsUnbroken) :
    Stays n (Rendering.tree render kind node) := by
  have htemplate : ∀ directives, kind.template? = some directives →
      Stays n (fill render node directives) := fun directives h p hp _ p' hrun =>
    ⟨indented_of_fill hrender hnode false (Directive.indentLines_template h) hp hrun,
      trivial⟩
  cases kind with
  | exprs | optExprs => exact stays_statements hrender hnode.of_mem
  | fnBody => exact stays_routineBody hrender hnode
  | bodyStacked => exact stays_stackedBody hrender hnode
  | exprStmt => exact stays_child hrender hnode 0
  | labeledClause => exact stays_child hrender hnode 1
  | unaryExpr | unaryExprStacked => exact stays_unary hrender hnode
  | binaryExprStacked => exact stays_binaryStacked hrender hnode
  | ifElseForm => exact stays_ifElse hrender hnode
  | condForm => exact stays_cond hrender hnode
  | clause | labeledFinalClause => exact stays_clause hrender hnode
  | letFormStar => exact stays_letStar hrender hnode
  | varbind => exact stays_binding hrender hnode
  | letFormStacked => exact stays_letStacked hrender hnode
  | dolistMacro | dolistMacroResult => exact stays_dolistExpansion hrender hnode
  | binaryExpr | ternaryExpr => exact stays_application hrender hnode
  | counted family => exact stays_countedApplication hrender hnode
  | body | expr | exprStacked | nameExpr | nullaryOp | unaryOp | binaryOp | ternaryOp | condition
  | dolistList => exact stays_each hrender hnode.of_mem
  | varlist | labeledClauses | varlistStacked | varlistStackedInner | dolistInitVar
  | dolistLoopIterSet | dolistLoopIterSetStacking =>
    exact stays_issue.seq (stays_write indented_missingText)
  | _ => exact htemplate _ rfl

theorem stays_form (hnode : node.OperandsUnbroken) : Stays n (form render node) := by
  cases node with
  | token i =>
    have htext := supplies_instructionText hrender fun operand => hnode i (by simp [tokens]) operand
    exact htext.bind fun s hs => stays_write hs
  | tree kind children idiom => exact stays_tree hrender hnode

end

/-- Nodes are rendered so that the page stays indented, however deep they are. -/
theorem indenting_node (n levels : Nat) : Indenting n (Rendering.node levels) := by
  induction levels with
  | zero =>
    intro node _ p _ a p' hrun
    cases hrun
  | succ levels ih => exact fun node hnode => stays_form ih hnode

end Rendering

namespace Node

/-- Every line of the source of a tree starts with the spaces that the tree is indented by, however
its forms are nested and whatever is missing in them, if no operand breaks a line. -/
theorem lines_of_render {tree : Node} (hloops : tree.LoopsStartQuiet)
    (hoperands : tree.OperandsUnbroken) (n : Nat) :
    ∃ source, tree.render (Text.spaces n) = .ok source ∧
      ∀ line ∈ Text.pieces (· == '\n') source.text.toList, List.replicate n ' ' <+: line := by
  obtain ⟨page, hrun, hrender, -⟩ :=
    exists_page hloops (False.elim : False → _) (Text.spaces n)
  have hstart : (Page.start (Text.spaces n)).Indented n :=
    ⟨trivial, (Rendering.utf8ByteSize_spaces n).ge,
      List.forall_mem_singleton.2 ⟨n, le_refl n, rfl⟩, by simp [Page.start], by simp [Page.start]⟩
  obtain ⟨hend, -⟩ := Rendering.indenting_node n tree.maxLevels tree hoperands _ hstart () page hrun
  exact ⟨_, hrender, hend.text.forall_lines hend.startColumn⟩

theorem operandsUnbroken_excursion : excursion.OperandsUnbroken := by
  have hname : '\n' ∉ (Operand.symbol "a").toText.toList := by decide
  simpa [OperandsUnbroken, excursion, plain, tokens, tokensOf, Instruction.ofOpcode] using hname

theorem lines_of_render_excursion : excursion.LoopsStartQuiet ∧ excursion.OperandsUnbroken ∧
    ∃ source, excursion.render (Text.spaces 2) = .ok source ∧
      ∀ line ∈ Text.pieces (· == '\n') source.text.toList, List.replicate 2 ' ' <+: line :=
  ⟨loopsStartQuiet_excursion, operandsUnbroken_excursion,
    lines_of_render loopsStartQuiet_excursion operandsUnbroken_excursion 2⟩

end Node

end ElispLift
