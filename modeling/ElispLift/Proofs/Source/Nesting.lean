import ElispLift.Proofs.Source.Levels
import ElispLift.Proofs.Source.Parentheses

/-!
# Nesting

A form opens parentheses and moves the indentation, and takes both back at its end. How deep a page
is nested below a base page says which indentations are left to return to, and how many parentheses
are left to close. Each step of a rendering leads from one depth to another, and a whole node back
to the depth that it started from. Parentheses are only counted if whatever the page holds is
balanced.
-/

namespace ElispLift

/-- The operands of all instructions have balanced texts. -/
def Node.OperandsBalanced (node : Node) : Prop :=
  ∀ i ∈ node.tokens, ∀ operand, i.operand = some operand → Text.Balanced operand.toText

/-- Indentations to return from, and parentheses to close. -/
structure Depth where
  indents : Nat
  parens : Nat

/-- What is read from the value is balanced. -/
def StackValue.Balanced : StackValue → Prop
  | text s => Text.Balanced s
  | operand s => Text.Balanced s
  | node n => n.OperandsBalanced
  | slot _ => True

/-- What a page may write later is balanced: its indentations, the values on its stack, and the
statements in its slots. -/
structure BalancedStore (indents : List String) (values : List StackValue)
    (slots : Array (Option String)) : Prop where
  indents : ∀ s ∈ indents, Text.Balanced s
  values : ∀ v ∈ values, v.Balanced
  slots : ∀ s, some s ∈ slots → Text.Balanced s

/-- A page that is nested deeper than a base page, and else laid out like it. -/
structure Page.Nested (balanced : Prop) (p base : Page) (d : Depth) : Prop where
  indents : (p.indent :: p.outerIndents).drop d.indents = base.indent :: base.outerIndents
  startColumn : p.startColumn = base.startColumn
  unquoted : p.unquoted = base.unquoted
  belowBase : .belowBase ∈ p.issues → .belowBase ∈ base.issues
  opened : balanced → Text.opened? 0 p.text.toList = some d.parens
  stored : balanced → BalancedStore (p.indent :: p.outerIndents) p.values p.slots

namespace Rendering

/-- The rendering leads from one depth to another, and what it results in satisfies `Q` if texts are
balanced. -/
def Nests {α : Type} (balanced : Prop) (d d' : Depth) (Q : α → Prop) (x : Rendering α) : Prop :=
  ∀ base p, p.Nested balanced base d → ∀ a p', x p = some (a, p') →
    p'.Nested balanced base d' ∧ (balanced → Q a)

/-- The rendering leads from one depth to another. -/
abbrev Moves (balanced : Prop) (d d' : Depth) (x : Rendering Unit) : Prop :=
  Nests balanced d d' (fun _ => True) x

/-- The rendering comes back to the depth at which it starts. -/
def Keeps (balanced : Prop) (x : Rendering Unit) : Prop := ∀ d, Moves balanced d d x

/-- The rendering results in a balanced text and comes back to the depth at which it starts. -/
def Gives (balanced : Prop) (x : Rendering String) : Prop :=
  ∀ d, Nests balanced d d Text.Balanced x

variable {α β : Type} {balanced : Prop} {d d' d'' : Depth} {n k k' : Nat} {Q : α → Prop}
  {R : β → Prop} {render : Node → Rendering Unit}

/-! ### Steps one after another -/

namespace Nests

theorem bind {x : Rendering α} {f : α → Rendering β} (hx : Nests balanced d d' Q x)
    (hf : ∀ a, (balanced → Q a) → Nests balanced d' d'' R (f a)) :
    Nests balanced d d'' R (x >>= f) := by
  intro base p hp b p'' hrun
  obtain ⟨a, p', ha, hb⟩ := exists_of_run_bind hrun
  obtain ⟨hp', hQ⟩ := hx base p hp a p' ha
  exact hf a hQ base p' hp' b p'' hb

theorem pure {a : α} (h : balanced → Q a) : Nests balanced d d Q (pure a) := by
  intro base p hp b p' hrun
  cases hrun
  exact ⟨hp, h⟩

/-- What depends on the page may use what holds of it. -/
theorem get_bind {f : Page → Rendering β}
    (hf : ∀ base p, p.Nested balanced base d → Nests balanced d d' R (f p)) :
    Nests balanced d d' R (get >>= f) := fun base p hp b p' hrun =>
  hf base p hp base p hp b p' hrun

theorem modify {f : Page → Page} (h : ∀ base p : Page, p.Nested balanced base d →
    (f p).Nested balanced base d') : Moves balanced d d' (modify f) := by
  intro base p hp a p' hrun
  cases hrun
  exact ⟨h base p hp, fun _ => trivial⟩

end Nests

/-- A step without a result, and what follows. -/
theorem Moves.seq {e : Depth} {x : Rendering Unit} {y : Rendering β} (hx : Moves balanced d e x)
    (hy : Nests balanced e d' R y) : Nests balanced d d' R (do x; y) :=
  Nests.bind hx fun _ _ => hy

theorem Keeps.nothing : Keeps balanced (pure ()) := fun _ => .pure fun _ => trivial

/-! ### Writing -/

theorem moves_write {s : String} (h : balanced → Text.opened? k s.toList = some k') :
    Moves balanced ⟨n, k⟩ ⟨n, k'⟩ (write s) := by
  refine .modify fun base p hp => ?_
  refine ⟨hp.indents, hp.startColumn, hp.unquoted, hp.belowBase, fun hb => ?_,
    hp.stored⟩
  rw [String.toList_append, Text.opened?_append, hp.opened hb]
  exact h hb

theorem keeps_write {s : String} (h : balanced → Text.Balanced s) : Keeps balanced (write s) :=
  fun d => moves_write fun hb => (h hb).opened? d.parens

theorem keeps_issue {i : Issue} (h : i ≠ .belowBase) : Keeps balanced (issue i) := by
  refine fun d => .modify fun base p hp => ⟨hp.indents, hp.startColumn, hp.unquoted, ?_, hp.opened,
    hp.stored⟩
  intro hmem
  rcases List.mem_append.1 hmem with hmem | hmem
  · exact hp.belowBase hmem
  · exact (h (List.mem_singleton.1 hmem).symm).elim

theorem balanced_missingText : Text.Balanced missingText := Text.balanced_iff.2 rfl

theorem keeps_missing {node : Node} {n : Option Nat} : Keeps balanced (missing node n) :=
  fun d => (keeps_issue (by simp) d).seq (keeps_write (fun _ => balanced_missingText) d)

/-- A text in place of a value that is not there. -/
theorem gives_missingText {i : Issue} (h : i ≠ .belowBase) :
    Gives balanced (do issue i; return missingText) :=
  fun d => (keeps_issue h d).seq (.pure fun _ => balanced_missingText)

theorem keeps_newline : Keeps balanced newline := by
  refine fun d => .modify fun base p hp => ⟨hp.indents, hp.startColumn, hp.unquoted, hp.belowBase,
    fun hb => ?_, hp.stored⟩
  have hindent : Text.Balanced p.indent := (hp.stored hb).indents _ (by simp)
  have hbreak : Text.Balanced "\n" := Text.balanced_iff.2 rfl
  rw [String.append_assoc, String.toList_append, Text.opened?_append, hp.opened hb]
  exact (hbreak.append hindent).opened? _

/-! ### Indentation -/

theorem moves_indentTo {indent : Page → String}
    (h : ∀ p : Page, Text.Balanced p.indent → Text.Balanced (indent p)) :
    Moves balanced ⟨n, k⟩ ⟨n + 1, k⟩ (indentTo indent) := by
  refine .modify fun base p hp => ⟨hp.indents, hp.startColumn, hp.unquoted, hp.belowBase, hp.opened,
    fun hb => ⟨?_, (hp.stored hb).values, (hp.stored hb).slots⟩⟩
  have hindents := (hp.stored hb).indents
  exact List.forall_mem_cons.2 ⟨h p (hindents p.indent (by simp)), hindents⟩

theorem moves_indentMore : Moves balanced ⟨n, k⟩ ⟨n + 1, k⟩ indentMore :=
  moves_indentTo fun _ hp => hp.append (Text.balanced_iff.2 rfl)

theorem moves_align : Moves balanced ⟨n, k⟩ ⟨n + 1, k⟩ align :=
  moves_indentTo fun p _ => Text.balanced_spaces p.column

/-- Where the page is nested there is an indentation to return to. -/
theorem moves_dedent : Moves balanced ⟨n + 1, k⟩ ⟨n, k⟩ dedent := by
  intro base p hp a p' hrun
  have hindents := hp.indents
  rw [dedent, run_bind (show (get : Rendering Page) p = some (p, p) from rfl)] at hrun
  rw [List.drop_succ_cons] at hindents
  cases houter : p.outerIndents with
  | nil => simp [houter] at hindents
  | cons outer rest =>
    rw [houter] at hindents
    simp only [houter] at hrun
    cases hrun
    refine ⟨⟨hindents, hp.startColumn, hp.unquoted, hp.belowBase, hp.opened, fun hb =>
      ⟨fun s hs => ?_, (hp.stored hb).values, (hp.stored hb).slots⟩⟩, fun _ => trivial⟩
    exact (hp.stored hb).indents s (by simp [houter, List.mem_cons.1 hs])

theorem moves_openForm : Moves balanced ⟨n, k⟩ ⟨n, k + 1⟩ openForm := by
  refine .get_bind fun base p hp => ?_
  have hopen : Moves balanced ⟨n, k⟩ ⟨n, k + 1⟩ (write "(") := moves_write fun _ => rfl
  split
  · exact (keeps_newline _).seq hopen
  · exact (Keeps.nothing _).seq hopen

theorem moves_closeForm : Moves balanced ⟨n + 1, k + 1⟩ ⟨n, k⟩ closeForm :=
  (moves_write fun _ => rfl).seq moves_dedent

/-! ### Pages of their own -/

/-- The page of its own starts without open parentheses, so its text is balanced. -/
theorem gives_capture {x : Rendering Unit} (hx : Keeps balanced x) :
    Gives balanced (capture x) := by
  intro d base p hp s p' hrun
  obtain ⟨⟨⟨⟩, inner⟩, hinner, hrest⟩ := Option.bind_eq_some_iff.1
    (show (x { p with text := "", startColumn := p.indent.utf8ByteSize }).bind _ = some (s, p')
      from hrun)
  cases hrest
  have hstart : Page.Nested balanced { p with text := "", startColumn := p.indent.utf8ByteSize }
      { base with startColumn := p.indent.utf8ByteSize } ⟨d.indents, 0⟩ :=
    ⟨hp.indents, rfl, hp.unquoted, hp.belowBase, fun _ => rfl, hp.stored⟩
  obtain ⟨hend, -⟩ := hx _ _ _ hstart () inner hinner
  exact ⟨⟨hend.indents, hp.startColumn, hend.unquoted, hend.belowBase, hp.opened, hend.stored⟩,
    fun hb => Text.balanced_iff.2 (hend.opened hb)⟩

theorem nests_withUnquoted {x : Rendering α} {unquoted : Bool} (hx : Nests balanced d d Q x) :
    Nests balanced d d Q (withUnquoted unquoted x) := by
  intro base p hp a p' hrun
  obtain ⟨⟨result, inner⟩, hinner, hrest⟩ := Option.bind_eq_some_iff.1
    (show (x { p with unquoted }).bind _ = some (a, p') from hrun)
  cases hrest
  have hstart : Page.Nested balanced { p with unquoted } { base with unquoted } d :=
    ⟨hp.indents, hp.startColumn, rfl, hp.belowBase, hp.opened, hp.stored⟩
  obtain ⟨hend, hQ⟩ := hx _ _ hstart _ inner hinner
  exact ⟨⟨hend.indents, hend.startColumn, hp.unquoted, hend.belowBase, hend.opened, hend.stored⟩,
    hQ⟩

/-! ### The stack and the slots -/

/-- A change of the stack that puts nothing unbalanced on it. -/
theorem keeps_values {f : List StackValue → List StackValue}
    (h : ∀ vs, balanced → (∀ v ∈ vs, v.Balanced) → ∀ v ∈ f vs, v.Balanced) :
    Keeps balanced (modify fun p => { p with values := f p.values }) :=
  fun _ => .modify fun _ _ hp => ⟨hp.indents, hp.startColumn, hp.unquoted, hp.belowBase, hp.opened,
    fun hb => ⟨(hp.stored hb).indents, h _ hb (hp.stored hb).values, (hp.stored hb).slots⟩⟩

theorem keeps_push {v : StackValue} (h : balanced → v.Balanced) : Keeps balanced (push v) :=
  keeps_values fun _ hb hvs => List.forall_mem_cons.2 ⟨h hb, hvs⟩

theorem nests_newSlot {text : String} (h : balanced → Text.Balanced text) :
    Nests balanced d d (fun _ => True) (newSlot text) := by
  refine .get_bind fun _ _ _ => Moves.seq (.modify fun base q hq => ?_) (.pure fun _ => trivial)
  refine ⟨hq.indents, hq.startColumn, hq.unquoted, hq.belowBase, hq.opened, fun hb =>
    ⟨(hq.stored hb).indents, (hq.stored hb).values, fun s hs => ?_⟩⟩
  rcases Array.mem_push.1 hs with hs | hs
  · exact (hq.stored hb).slots s hs
  · exact Option.some.inj hs ▸ h hb

theorem nests_readSlot {id : Nat} :
    Nests balanced d d (fun text => ∀ s, text = some s → Text.Balanced s) (readSlot id) := by
  refine .get_bind fun base p hp => .pure fun hb s hs => ?_
  refine (hp.stored hb).slots s (Array.mem_of_getElem? (i := id) ?_)
  simpa [Option.join_eq_some_iff] using hs

theorem keeps_emptySlot {id : Nat} : Keeps balanced (emptySlot id) := by
  refine fun d => .modify fun base p hp => ⟨hp.indents, hp.startColumn, hp.unquoted, hp.belowBase,
    hp.opened, fun hb => ⟨(hp.stored hb).indents, (hp.stored hb).values, fun s hs => ?_⟩⟩
  rcases Array.mem_or_eq_of_mem_setIfInBounds hs with hs | hs
  · exact (hp.stored hb).slots s hs
  · cases hs

theorem nests_takeSlot {id : Nat} :
    Nests balanced d d (fun text => ∀ s, text = some s → Text.Balanced s) (takeSlot id) :=
  nests_readSlot.bind fun _ htext => (keeps_emptySlot d).seq (.pure htext)

/-- Every node is rendered so that the page comes back to its depth. -/
def Nesting (balanced : Prop) (render : Node → Rendering Unit) : Prop :=
  ∀ node : Node, (balanced → node.OperandsBalanced) → Keeps balanced (render node)

section values

variable (hrender : Nesting balanced render)

include hrender

theorem gives_valueText {take : Bool} {v : StackValue} (hv : balanced → v.Balanced) :
    Gives balanced (valueText render take v) := by
  intro d
  cases v with
  | text s => exact .pure hv
  | operand s => exact .pure hv
  | node n => exact gives_capture (hrender n hv) d
  | slot id =>
    cases take
    case' true => refine nests_takeSlot.bind fun text htext => ?_
    case' false => refine nests_readSlot.bind fun text htext => ?_
    all_goals
      cases text with
      | some text => exact .pure fun hb => htext hb text rfl
      | none => exact gives_missingText (by simp) d

theorem gives_pop : Gives balanced (pop render) := by
  refine fun d => .get_bind fun base p hp => ?_
  cases hvalues : p.values with
  | nil => exact gives_missingText (by simp) d
  | cons v rest =>
    have hv : ∀ w ∈ v :: rest, balanced → w.Balanced := fun w hw hb =>
      (hp.stored hb).values w (hvalues ▸ hw)
    have hrest : Moves balanced d d (modify fun p => { p with values := rest }) :=
      keeps_values (f := fun _ => rest) (fun _ hb _ w hw => hv w (by simp [hw]) hb) d
    exact hrest.seq (gives_valueText hrender (hv v (by simp)) d)

theorem gives_peek : Gives balanced (peek render) := by
  refine fun d => .get_bind fun base p hp => ?_
  cases hvalues : p.values with
  | nil => exact gives_missingText (by simp) d
  | cons v rest =>
    exact gives_valueText hrender (fun hb => (hp.stored hb).values v (by simp [hvalues])) d

theorem gives_stackRef {depth offset : Nat} : Gives balanced (stackRef render depth offset) := by
  refine fun d => .get_bind fun base p hp => ?_
  cases hv : p.values[depth]? with
  | none => exact gives_missingText (by simp) d
  | some v =>
    exact gives_valueText hrender
      (fun hb => (hp.stored hb).values v (List.mem_of_getElem? hv)) d

end values

end Rendering

end ElispLift
