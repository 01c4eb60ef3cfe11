import ElispLift.Proofs.Source.Layout
import ElispLift.Proofs.Source.Writing
import ElispLift.Proofs.Stack.Steps
import ElispLift.Proofs.Text.Indented

/-!
# Indentation

New lines start at the indentation of the page, which is never to the left of the one that the
rendering started with: it is moved to the right, to the current column, or back to where it was
before. What was rendered on a page of its own, and what was put on the stack or into a slot, keeps
its line breaks when it is pasted elsewhere. So everything that is stored is indented like the page.
-/

namespace ElispLift

/-- The text inside an operand has no line break if the operand has none. -/
theorem Operand.unbroken_of_text? {operand : Operand} {s : String} (hs : operand.text? = some s)
    (h : '\n' ∉ operand.toText.toList) : '\n' ∉ s.toList := by
  cases operand with
  | int n => cases hs
  | str text | symbol name =>
    cases hs
    exact h
  | routine r =>
    have hname : r.name = s := Option.some.inj hs
    have htext : '\n' ∉ ("<compiled-function " ++ r.name ++ ">").toList := h
    simp only [String.toList_append, List.mem_append, not_or] at htext
    rw [← hname]
    exact htext.1.2

/-- No operand of an instruction has a line break in its text. -/
def Node.OperandsUnbroken (node : Node) : Prop :=
  ∀ i ∈ node.tokens, ∀ operand, i.operand = some operand → '\n' ∉ operand.toText.toList

namespace Node.OperandsUnbroken

variable {node c : Node} {n : Nat}

theorem of_mem (h : node.OperandsUnbroken) : ∀ c ∈ node.children, c.OperandsUnbroken := by
  intro c hc
  cases node with
  | token i => simp [Node.children] at hc
  | tree kind children idiom => exact fun i hi => h i (mem_tokensOf.2 ⟨c, hc, hi⟩)

theorem child? (h : node.OperandsUnbroken) (hc : node.child? n = some c) : c.OperandsUnbroken :=
  h.of_mem c (List.mem_of_getElem? hc)

theorem grandchildren (h : node.OperandsUnbroken) :
    ∀ c ∈ ((node.child? n).map children).getD [], c.OperandsUnbroken :=
  Stack.grandchildren_of_parts (fun _ hm => hm.of_mem) h n

theorem lines (h : node.OperandsUnbroken) : ∀ c ∈ node.lines, c.OperandsUnbroken :=
  Stack.lines_of_parts (fun _ hm => hm.of_mem) h

theorem clauses (h : node.OperandsUnbroken) :
    ∀ c ∈ Rendering.clauses node, c.OperandsUnbroken :=
  Stack.clauses_of_parts (fun _ hm => hm.of_mem) h

theorem operandText (h : node.OperandsUnbroken) : '\n' ∉ (Rendering.operandText node).toList := by
  rcases operandText_cases node with htext | ⟨i, hi, operand, hoperand, htext⟩
  · exact htext ▸ by decide
  · exact htext ▸ h i hi operand hoperand

theorem nameText {found : Option Node} (h : ∀ c, found = some c → c.OperandsUnbroken) :
    '\n' ∉ (Node.nameText found).toList := by
  rcases nameText_cases found with htext | ⟨c, hc, i, hi, operand, hoperand, htext⟩
  · exact htext ▸ by decide
  · exact Operand.unbroken_of_text? htext (h c hc i hi operand hoperand)

theorem nestedBindings (h : node.OperandsUnbroken) :
    ∀ b ∈ Rendering.nestedBindings node, '\n' ∉ b.1.toList ∧ b.2.OperandsUnbroken := by
  fun_induction Rendering.nestedBindings node with
  | case1 kind value inner name idiom ih =>
    have hname : name.OperandsUnbroken := h.of_mem name (by simp [Node.children])
    have hinner := ih (h.of_mem inner (by simp [Node.children]))
    refine List.forall_mem_cons.2 ⟨⟨nameText fun c hc => ?_, h⟩, hinner⟩
    exact Option.some.inj hc ▸ hname
  | case2 => simp

end Node.OperandsUnbroken

/-- What is read from the value is indented. -/
def StackValue.Indented (n : Nat) : StackValue → Prop
  | text s => Text.Indented n s
  | operand s => Text.Indented n s
  | node m => m.OperandsUnbroken
  | slot _ => True

/-- Every line of the page starts with `n` spaces, as does every line that it may get. -/
structure Page.Indented (n : Nat) (p : Page) : Prop where
  text : Text.Indented n p.text
  startColumn : n ≤ p.startColumn
  indents : ∀ s ∈ p.indent :: p.outerIndents, ∃ m, n ≤ m ∧ s = Text.spaces m
  values : ∀ v ∈ p.values, v.Indented n
  slots : ∀ s, some s ∈ p.slots → Text.Indented n s

namespace Page.Indented

variable {n : Nat} {p : Page}

theorem indent (hp : p.Indented n) : ∃ m, n ≤ m ∧ p.indent = Text.spaces m :=
  hp.indents p.indent (by simp)

theorem write (hp : p.Indented n) {s : String} (hs : Text.Indented n s) :
    Page.Indented n { p with text := p.text ++ s } :=
  ⟨hp.text.append hs, hp.startColumn, hp.indents, hp.values, hp.slots⟩

/-- The column is behind the spaces of its line. -/
theorem le_column (hp : p.Indented n) : n ≤ p.column := by
  by_cases hbreak : '\n' ∈ p.text.toList
  · obtain ⟨before, rest, htext, hrest⟩ := hp.text.exists_last_line hbreak
    have hline : '\n' ∉ (Text.spaces n ++ rest).toList := by simpa [Text.spaces] using hrest
    have hcolumn := @Rendering.column_newline _ { p with text := before } hline
    rw [← htext, String.utf8ByteSize_append, Rendering.utf8ByteSize_spaces] at hcolumn
    exact hcolumn ▸ Nat.le_add_right _ _
  · have hstart : Page.column { p with text := "" } = p.startColumn :=
      Rendering.column_of_empty rfl
    have hcolumn := @Rendering.column_append p.text { p with text := "" } hbreak
    rw [hstart, String.empty_append] at hcolumn
    exact hcolumn ▸ hp.startColumn.trans (Nat.le_add_right _ _)

end Page.Indented

namespace Rendering

open Node

variable {α β : Type} {n : Nat} {Q : α → Prop} {R : β → Prop} {render : Node → Rendering Unit}
  {node : Node} {nodes : List Node}

/-- The rendering leaves an indented page indented, and what it results in satisfies `Q`. -/
def Indents (n : Nat) (Q : α → Prop) (x : Rendering α) : Prop :=
  ∀ p : Page, p.Indented n → ∀ a p', x p = some (a, p') → p'.Indented n ∧ Q a

/-- The rendering leaves an indented page indented. -/
abbrev Stays (n : Nat) (x : Rendering Unit) : Prop := Indents n (fun _ => True) x

/-- The rendering results in an indented text. -/
abbrev Supplies (n : Nat) (x : Rendering String) : Prop := Indents n (Text.Indented n) x

/-! ### Steps one after another -/

namespace Indents

theorem bind {x : Rendering α} {f : α → Rendering β} (hx : Indents n Q x)
    (hf : ∀ a, Q a → Indents n R (f a)) : Indents n R (x >>= f) := by
  intro p hp b p'' hrun
  obtain ⟨a, p', ha, hb⟩ := exists_of_run_bind hrun
  obtain ⟨hp', hQ⟩ := hx p hp a p' ha
  exact hf a hQ p' hp' b p'' hb

theorem pure {a : α} (h : Q a) : Indents n Q (pure a) := by
  intro p hp b p' hrun
  cases hrun
  exact ⟨hp, h⟩

/-- What depends on the page may use what holds of it. -/
theorem get_bind {f : Page → Rendering β} (hf : ∀ p, p.Indented n → Indents n R (f p)) :
    Indents n R (get >>= f) := fun p hp b p' hrun => hf p hp p hp b p' hrun

theorem modify {f : Page → Page} (h : ∀ p : Page, p.Indented n → (f p).Indented n) :
    Stays n (modify f) := by
  intro p hp a p' hrun
  cases hrun
  exact ⟨h p hp, trivial⟩

end Indents

/-- A step without a result, and what follows. -/
theorem Stays.seq {x : Rendering Unit} {y : Rendering β} (hx : Stays n x) (hy : Indents n R y) :
    Indents n R (do x; y) := Indents.bind hx fun _ _ => hy

theorem stays_nothing : Stays n (pure ()) := .pure trivial

/-! ### Writing -/

theorem stays_write {s : String} (h : Text.Indented n s) : Stays n (write s) :=
  .modify fun _ hp => hp.write h

/-- Text without a line break. -/
theorem stays_words {s : String} (h : '\n' ∉ s.toList) : Stays n (write s) :=
  stays_write (.of_not_mem h)

theorem stays_issue {i : Issue} : Stays n (issue i) :=
  .modify fun _ hp => ⟨hp.text, hp.startColumn, hp.indents, hp.values, hp.slots⟩

theorem indented_missingText : Text.Indented n missingText := .of_not_mem (by decide)

theorem stays_missing {child : Option Nat} : Stays n (missing node child) :=
  stays_issue.seq (stays_write indented_missingText)

/-- A text in place of a value that is not there. -/
theorem supplies_missingText {i : Issue} : Supplies n (do issue i; return missingText) :=
  stays_issue.seq (.pure indented_missingText)

theorem stays_newline : Stays n newline := by
  refine .modify fun p hp => ?_
  obtain ⟨m, hm, hindent⟩ := hp.indent
  have hline := hp.write (Text.Indented.newline hm)
  rwa [← hindent, ← String.append_assoc] at hline

/-! ### Moving the indentation -/

theorem stays_indentTo {indent : Page → String}
    (h : ∀ p : Page, p.Indented n → ∃ m, n ≤ m ∧ indent p = Text.spaces m) :
    Stays n (indentTo indent) :=
  .modify fun p hp => ⟨hp.text, hp.startColumn, List.forall_mem_cons.2 ⟨h p hp, hp.indents⟩,
    hp.values, hp.slots⟩

theorem stays_indentMore : Stays n indentMore := by
  refine stays_indentTo fun p hp => ?_
  obtain ⟨m, hm, hindent⟩ := hp.indent
  refine ⟨m + 2, by omega, ?_⟩
  rw [hindent, Text.spaces, Text.spaces, ← List.replicate_append_replicate, String.ofList_append]
  rfl

theorem stays_align : Stays n align := stays_indentTo fun p hp => ⟨p.column, hp.le_column, rfl⟩

theorem stays_dedent : Stays n dedent := by
  refine .get_bind fun q hq => ?_
  cases houter : q.outerIndents with
  | nil => exact stays_issue
  | cons outer rest =>
    have hindents : ∀ s ∈ outer :: rest, ∃ m, n ≤ m ∧ s = Text.spaces m := fun s hs =>
      hq.indents s (List.mem_cons_of_mem _ (houter ▸ hs))
    exact .modify fun p hp => ⟨hp.text, hp.startColumn, hindents, hp.values, hp.slots⟩

theorem stays_openForm : Stays n openForm := by
  have hopen : Stays n (write "(") := stays_words (by decide)
  refine .get_bind fun p hp => ?_
  split
  · exact stays_newline.seq hopen
  · exact stays_nothing.seq hopen

theorem stays_closeForm : Stays n closeForm := (stays_words (by decide)).seq stays_dedent

/-! ### Pages of their own -/

/-- The page of its own starts at the indentation, and without a text. -/
theorem supplies_capture {x : Rendering Unit} (hx : Stays n x) : Supplies n (capture x) := by
  intro p hp s p' hrun
  obtain ⟨⟨⟨⟩, inner⟩, hinner, hrest⟩ := Option.bind_eq_some_iff.1
    (show (x { p with text := "", startColumn := p.indent.utf8ByteSize }).bind _ = some (s, p')
      from hrun)
  cases hrest
  have hstart : n ≤ p.indent.utf8ByteSize := by
    obtain ⟨m, hm, hindent⟩ := hp.indent
    rwa [hindent, utf8ByteSize_spaces]
  have hown : Page.Indented n { p with text := "", startColumn := p.indent.utf8ByteSize } :=
    ⟨trivial, hstart, hp.indents, hp.values, hp.slots⟩
  obtain ⟨hend, -⟩ := hx _ hown () inner hinner
  exact ⟨⟨hp.text, hp.startColumn, hend.indents, hend.values, hend.slots⟩, hend.text⟩

theorem indents_withUnquoted {x : Rendering α} {unquoted : Bool} (hx : Indents n Q x) :
    Indents n Q (withUnquoted unquoted x) := by
  intro p hp a p' hrun
  obtain ⟨⟨result, inner⟩, hinner, hrest⟩ := Option.bind_eq_some_iff.1
    (show (x { p with unquoted }).bind _ = some (a, p') from hrun)
  cases hrest
  obtain ⟨hend, hQ⟩ := hx { p with unquoted }
    ⟨hp.text, hp.startColumn, hp.indents, hp.values, hp.slots⟩ _ inner hinner
  exact ⟨⟨hend.text, hend.startColumn, hend.indents, hend.values, hend.slots⟩, hQ⟩

/-! ### The stack and the slots -/

/-- A change of the stack that puts nothing on it that is not indented. -/
theorem stays_values {f : List StackValue → List StackValue}
    (h : ∀ vs, (∀ v ∈ vs, v.Indented n) → ∀ v ∈ f vs, v.Indented n) :
    Stays n (modify fun p => { p with values := f p.values }) :=
  .modify fun _ hp => ⟨hp.text, hp.startColumn, hp.indents, h _ hp.values, hp.slots⟩

theorem stays_push {v : StackValue} (h : v.Indented n) : Stays n (push v) :=
  stays_values fun _ hvs => List.forall_mem_cons.2 ⟨h, hvs⟩

theorem indents_newSlot {text : String} (h : Text.Indented n text) :
    Indents n (fun _ => True) (newSlot text) := by
  refine .get_bind fun _ _ => Stays.seq (.modify fun q hq => ?_) (.pure trivial)
  refine ⟨hq.text, hq.startColumn, hq.indents, hq.values, fun s hs => ?_⟩
  rcases Array.mem_push.1 hs with hs | hs
  · exact hq.slots s hs
  · exact Option.some.inj hs ▸ h

theorem indents_readSlot {id : Nat} :
    Indents n (fun text => ∀ s, text = some s → Text.Indented n s) (readSlot id) := by
  refine .get_bind fun p hp => .pure fun s hs => ?_
  refine hp.slots s (Array.mem_of_getElem? (i := id) ?_)
  simpa [Option.join_eq_some_iff] using hs

theorem stays_emptySlot {id : Nat} : Stays n (emptySlot id) := by
  refine .modify fun p hp => ⟨hp.text, hp.startColumn, hp.indents, hp.values, fun s hs => ?_⟩
  rcases Array.mem_or_eq_of_mem_setIfInBounds hs with hs | hs
  · exact hp.slots s hs
  · cases hs

theorem indents_takeSlot {id : Nat} :
    Indents n (fun text => ∀ s, text = some s → Text.Indented n s) (takeSlot id) :=
  indents_readSlot.bind fun _ htext => stays_emptySlot.seq (.pure htext)

theorem indents_leftOver (ids : List Nat) :
    Indents n (fun texts => ∀ s ∈ texts, Text.Indented n s) (leftOver ids) := by
  induction ids with
  | nil => exact .pure (by simp)
  | cons id ids ih =>
    refine indents_takeSlot.bind fun text htext => ih.bind fun rest hrest => ?_
    cases text with
    | none => exact .pure hrest
    | some text =>
      dsimp only
      split
      · exact .pure hrest
      · exact .pure (List.forall_mem_cons.2 ⟨htext text rfl, hrest⟩)

/-- Every node without line breaks in its operands is rendered so that the page stays indented. -/
def Indenting (n : Nat) (render : Node → Rendering Unit) : Prop :=
  ∀ node : Node, node.OperandsUnbroken → Stays n (render node)

section

variable (hrender : Indenting n render)

include hrender

theorem supplies_valueText {take : Bool} {v : StackValue} (hv : v.Indented n) :
    Supplies n (valueText render take v) := by
  cases v with
  | text s => exact .pure hv
  | operand s => exact .pure hv
  | node m => exact supplies_capture (hrender m hv)
  | slot id =>
    cases take
    case' true => refine indents_takeSlot.bind fun text htext => ?_
    case' false => refine indents_readSlot.bind fun text htext => ?_
    all_goals
      cases text with
      | some text => exact .pure (htext text rfl)
      | none => exact supplies_missingText

theorem supplies_pop : Supplies n (pop render) := by
  refine .get_bind fun p hp => ?_
  cases hvalues : p.values with
  | nil => exact supplies_missingText
  | cons v rest =>
    have hv : ∀ w ∈ v :: rest, w.Indented n := hvalues ▸ hp.values
    have hrest : Stays n (modify fun p => { p with values := rest }) :=
      stays_values (f := fun _ => rest) fun _ _ w hw => hv w (List.mem_cons_of_mem _ hw)
    exact hrest.seq (supplies_valueText hrender (hv v (by simp)))

theorem supplies_peek : Supplies n (peek render) := by
  refine .get_bind fun p hp => ?_
  cases hvalues : p.values with
  | nil => exact supplies_missingText
  | cons v rest => exact supplies_valueText hrender (hp.values v (by simp [hvalues]))

theorem supplies_stackRef {depth offset : Nat} : Supplies n (stackRef render depth offset) := by
  refine .get_bind fun p hp => ?_
  cases hv : p.values[depth]? with
  | none => exact supplies_missingText
  | some v => exact supplies_valueText hrender (hp.values v (List.mem_of_getElem? hv))

end

end Rendering

end ElispLift
