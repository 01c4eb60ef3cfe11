import Mathlib.Data.List.Forall2
import ElispLift.Source

/-!
# Renderings that only write

Most renderings put a text behind that of the page and leave everything else as it was. Such
renderings follow one another, and can be captured as the text of an operand or a statement.
-/

namespace ElispLift.Rendering

variable {α β : Type} {unquoted : Bool} {s t : String} {render : Node → Rendering Unit}

/-- Where constants have quotes or not, the rendering writes `s` and changes nothing else. -/
structure Writes (unquoted : Bool) (s : String) (x : Rendering Unit) : Prop where
  run_eq : ∀ p : Page, p.unquoted = unquoted → x p = some ((), { p with text := p.text ++ s })

/-- The same for a page without a text so far. -/
structure Begins (unquoted : Bool) (s : String) (x : Rendering Unit) : Prop where
  run_eq : ∀ p : Page, p.unquoted = unquoted → p.text = "" → x p = some ((), { p with text := s })

/-- Where constants have quotes or not, the rendering has the result `a` and changes nothing. -/
structure Yields (unquoted : Bool) (a : α) (x : Rendering α) : Prop where
  run_eq : ∀ p : Page, p.unquoted = unquoted → x p = some (a, p)

theorem run_bind {x : Rendering α} {f : α → Rendering β} {p p' : Page} {a : α}
    (h : x p = some (a, p')) : (x >>= f) p = f a p' := by
  change (x p).bind (fun found => f found.1 found.2) = _
  rw [h]
  rfl

theorem run_pure (a : α) (p : Page) : (pure a : Rendering α) p = some (a, p) := rfl

theorem Writes.write (s : String) : Writes unquoted s (write s) := ⟨fun _ _ => rfl⟩

theorem Writes.nothing : Writes unquoted "" (pure ()) := by
  refine ⟨fun p _ => ?_⟩
  rw [String.append_empty]
  rfl

theorem Writes.append {x y : Rendering Unit} (hx : Writes unquoted s x)
    (hy : Writes unquoted t y) : Writes unquoted (s ++ t) (do x; y) := by
  refine ⟨fun p hp => ?_⟩
  rw [run_bind (hx.run_eq p hp), hy.run_eq { p with text := p.text ++ s } hp, String.append_assoc]

theorem Yields.bind {x : Rendering α} {f : α → Rendering Unit} {a : α} (hx : Yields unquoted a x)
    (hf : Writes unquoted s (f a)) : Writes unquoted s (x >>= f) :=
  ⟨fun p hp => (run_bind (hx.run_eq p hp)).trans (hf.run_eq p hp)⟩

theorem Writes.begins {x : Rendering Unit} (hx : Writes unquoted s x) : Begins unquoted s x := by
  refine ⟨fun p hp htext => ?_⟩
  rw [hx.run_eq p hp, htext, String.empty_append]

theorem Begins.append {x y : Rendering Unit} (hx : Begins unquoted s x)
    (hy : Writes unquoted t y) : Begins unquoted (s ++ t) (do x; y) :=
  ⟨fun p hp htext => (run_bind (hx.run_eq p hp htext)).trans (hy.run_eq { p with text := s } hp)⟩

theorem Begins.capture {x : Rendering Unit} (hx : Begins unquoted s x) :
    Yields unquoted s (capture x) := by
  refine ⟨fun p hp => ?_⟩
  have hcaptured := hx.run_eq { p with text := "", startColumn := p.indent.utf8ByteSize } hp rfl
  change (x { p with text := "", startColumn := p.indent.utf8ByteSize }).bind _ = _
  rw [hcaptured]
  rfl

theorem Writes.capture {x : Rendering Unit} (hx : Writes unquoted s x) :
    Yields unquoted s (capture x) := hx.begins.capture

/-- The page is quoted again as it was. -/
theorem Yields.withUnquoted {x : Rendering α} {a : α} {before : Bool} (hx : Yields unquoted a x) :
    Yields before a (withUnquoted unquoted x) := by
  refine ⟨fun p _ => ?_⟩
  have hresult := hx.run_eq { p with unquoted := unquoted } rfl
  change (x { p with unquoted := unquoted }).bind _ = _
  rw [hresult]
  rfl

/-! ### Applications -/

/-- The text of operands up to the closing parenthesis. -/
def argumentsText : List String → String
  | [] => ")"
  | text :: rest => " " ++ text ++ argumentsText rest

theorem writes_arguments (texts : List String) :
    Writes unquoted (argumentsText texts) (writeArguments texts) := by
  induction texts with
  | nil => exact .write ")"
  | cons text texts ih => exact (Writes.write _).append ih

theorem begins_each {node : Node} (h : Begins unquoted s (render node)) :
    Begins unquoted s (each render [node]) := by
  have hboth := h.append Writes.nothing
  rwa [String.append_empty] at hboth

theorem writes_each {node : Node} (h : Writes unquoted s (render node)) :
    Writes unquoted s (each render [node]) := by
  have hboth := h.append Writes.nothing
  rwa [String.append_empty] at hboth

theorem dropOperands_append (operands values : List StackValue)
    (h : ∀ v ∈ operands, v.isOperand = true) :
    dropOperands operands.length (operands ++ values) = values := by
  induction operands with
  | nil =>
    rw [List.nil_append, List.length_nil, dropOperands]
    simp
  | cons v operands ih =>
    rw [List.length_cons, List.cons_append, dropOperands, if_pos (h v (by simp))]
    exact ih fun w hw => h w (List.mem_cons_of_mem _ hw)

theorem run_toOperands {nodes : List Node} {texts : List String}
    (h : List.Forall₂ (fun node s => Writes false s (render node)) nodes texts) (p : Page) :
    toOperands render false nodes p = some (texts,
      { p with values := (texts.map .operand).reverse ++ p.values }) := by
  induction h generalizing p with
  | nil => rfl
  | @cons node text nodes texts hnode _ ih =>
    rw [toOperands, run_bind (hnode.capture.withUnquoted.run_eq p rfl)]
    have hpush : push (.operand text) p =
        some ((), { p with values := .operand text :: p.values }) := rfl
    rw [run_bind hpush, run_bind (ih _)]
    simp [run_pure]

/-- Operands are on the stack only while they are rendered. -/
theorem yields_of_toOperands {nodes : List Node} {texts : List String} {firstUnquoted : Bool}
    (h : ∀ p, toOperands render firstUnquoted nodes p = some (texts,
      { p with values := (texts.map .operand).reverse ++ p.values })) :
    Yields unquoted texts (operands render firstUnquoted nodes) := by
  refine ⟨fun p _ => ?_⟩
  have hdrop := dropOperands_append (texts.map StackValue.operand).reverse p.values fun v hv => by
    obtain ⟨text, -, rfl⟩ := List.mem_map.1 (List.mem_reverse.1 hv)
    rfl
  rw [List.length_reverse, List.length_map] at hdrop
  rw [operands, run_bind (h p)]
  change some (_, { p with values := dropOperands _ _ }) = _
  rw [hdrop]

theorem yields_operands {nodes : List Node} {texts : List String}
    (h : List.Forall₂ (fun node s => Writes false s (render node)) nodes texts) :
    Yields unquoted texts (operands render false nodes) :=
  yields_of_toOperands (run_toOperands h)

/-- What is called is written without a quote. -/
theorem yields_called {nodes : List Node} {texts : List String} {node : Node}
    (hfirst : Writes true s (render node))
    (hrest : List.Forall₂ (fun node s => Writes false s (render node)) nodes texts) :
    Yields unquoted (s :: texts) (operands render true (node :: nodes)) := by
  refine yields_of_toOperands fun p => ?_
  rw [toOperands, run_bind (hfirst.capture.withUnquoted.run_eq p rfl)]
  have hpush : push (.operand s) p = some ((), { p with values := .operand s :: p.values }) := rfl
  rw [run_bind hpush, run_bind (run_toOperands hrest _)]
  simp [run_pure]

theorem writes_unary {node argument op : Node} (hchildren : node.children = [argument, op])
    (hargument : argument.isOp .stackAccess = false) (hop : Writes unquoted s (render op))
    (h : Writes unquoted t (render argument)) :
    Writes unquoted ("(" ++ (s ++ (" " ++ (t ++ ")")))) (unary render node) := by
  rw [unary, hchildren]
  dsimp only [List.getLast?_cons_cons, List.getLast?_singleton]
  rw [hargument]
  exact (Writes.write _).append (hop.append ((Writes.write _).append (h.append (.write _))))

theorem writes_application {node op : Node} {args : List Node} {texts : List String}
    (hchildren : node.children = args ++ [op])
    (hargs : Yields unquoted texts (operands render false args))
    (hop : Writes unquoted s (render op)) :
    Writes unquoted ("(" ++ (s ++ argumentsText texts)) (application render node) := by
  rw [application, hchildren, List.getLast?_concat, List.dropLast_concat]
  exact hargs.bind ((Writes.write _).append (hop.append (writes_arguments texts)))

theorem writes_call {node : Node} {texts : List String}
    (hargs : Yields unquoted (s :: texts)
      (operands render true (node.children.filter Node.isTree))) :
    Writes unquoted ("(" ++ (s ++ argumentsText texts)) (countedApplication render node .call) := by
  rw [countedApplication]
  exact hargs.bind ((Writes.write _).append ((Writes.write _).append (writes_arguments texts)))

theorem writes_counted {node : Node} {family : Family} {texts : List String}
    (hfamily : family ≠ .call)
    (hargs : Yields unquoted texts (operands render false (node.children.filter Node.isTree))) :
    Writes unquoted ("(" ++ (family.lisp ++ argumentsText texts))
      (countedApplication render node family) := by
  have hquoted : decide (family = .call) = false := by simpa using hfamily
  rw [countedApplication, hquoted]
  refine hargs.bind ((Writes.write _).append ?_)
  have hwrites : Writes unquoted (family.lisp ++ argumentsText texts) _ :=
    (Writes.write family.lisp).append (writes_arguments texts)
  cases family <;> first
    | exact (hfamily rfl).elim
    | exact hwrites

/-! ### Templates -/

theorem run_openForm {p : Page} (htext : p.text = "") :
    openForm p = some ((), { p with text := "(" }) := by
  have hstart : p.isAtLineStart = true := by simp [Page.isAtLineStart, htext]
  have hget : (get : Rendering Page) p = some (p, p) := rfl
  rw [openForm, run_bind hget, hstart]
  change some ((), { p with text := p.text ++ "(" }) = _
  rw [htext, String.empty_append]

theorem run_closeForm {p : Page} {outer : String} {rest : List String}
    (h : p.outerIndents = outer :: rest) : closeForm p =
      some ((), { p with text := p.text ++ ")", indent := outer, outerIndents := rest }) := by
  have hwrite : write ")" p = some ((), { p with text := p.text ++ ")" }) := rfl
  have hget : ∀ q : Page, (get : Rendering Page) q = some (q, q) := fun _ => rfl
  rw [closeForm, run_bind hwrite, dedent, run_bind (hget _)]
  dsimp only
  rw [h]
  rfl

/-- An assignment stands on a line of its own, and its value is indented. -/
theorem begins_setq {node value name : Node} (hchildren : node.children = [value, name])
    (hname : operandText name = s) (hvalue : Writes unquoted t (render value)) :
    Begins unquoted ("(setq " ++ s ++ " " ++ t ++ ")") (fill render node (Directive.setq 1 0)) := by
  refine ⟨fun p hp htext => ?_⟩
  have hwrite : ∀ (s : String) (q : Page), write s q = some ((), { q with text := q.text ++ s }) :=
    fun _ _ => rfl
  have hindent : ∀ q : Page, indentMore q = some ((), { q with
      indent := q.indent ++ "  ", outerIndents := q.indent :: q.outerIndents }) := fun _ => rfl
  have hchild₀ : node.child? 0 = some value := by rw [Node.child?, hchildren]; rfl
  have hchild₁ : node.child? 1 = some name := by rw [Node.child?, hchildren]; rfl
  have hinner := hvalue.run_eq { p with
    text := "(" ++ "setq " ++ s ++ " "
    indent := p.indent ++ "  "
    outerIndents := p.indent :: p.outerIndents } hp
  simp only [Directive.setq, fill, directive, hchild₀, hchild₁, hname, child]
  rw [run_bind (run_openForm htext), run_bind (hwrite _ _), run_bind (hwrite _ _),
    run_bind (hwrite _ _), run_bind (hindent _), run_bind hinner, run_bind (run_closeForm rfl)]
  simp [run_pure, String.append_assoc]

/-! ### Statements -/

/-- At an indentation, the rendering writes `s`. It may fill new slots and change the stack. -/
structure Lays (indent s : String) (x : Rendering Unit) : Prop where
  run_eq : ∀ p : Page, p.unquoted = false → p.indent = indent → ∃ values filled,
    x p = some ((), { p with text := p.text ++ s, values, slots := p.slots ++ filled })

/-- The same for a page without a text so far, that starts at the indentation. -/
structure Opens (indent s : String) (x : Rendering Unit) : Prop where
  run_eq : ∀ p : Page, p.unquoted = false → p.indent = indent → p.text = "" →
    p.startColumn = indent.utf8ByteSize → ∃ values filled,
      x p = some ((), { p with text := s, values, slots := p.slots ++ filled })

theorem Writes.lays {x : Rendering Unit} (hx : Writes false s x) (indent : String) :
    Lays indent s x := by
  refine ⟨fun p hp _ => ⟨p.values, #[], ?_⟩⟩
  rw [Array.append_empty]
  exact hx.run_eq p hp

theorem Begins.opens {x : Rendering Unit} (hx : Begins false s x) (indent : String) :
    Opens indent s x := by
  refine ⟨fun p hp _ htext _ => ⟨p.values, #[], ?_⟩⟩
  rw [Array.append_empty]
  exact hx.run_eq p hp htext

theorem Opens.capture {x : Rendering Unit} {indent : String} (hx : Opens indent s x) (p : Page)
    (hp : p.unquoted = false) (hindent : p.indent = indent) : ∃ values filled,
      capture x p = some (s, { p with values, slots := p.slots ++ filled }) := by
  obtain ⟨values, filled, hrun⟩ :=
    hx.run_eq { p with text := "", startColumn := p.indent.utf8ByteSize } hp hindent rfl
      (congrArg String.utf8ByteSize hindent)
  refine ⟨values, filled, ?_⟩
  change (x { p with text := "", startColumn := p.indent.utf8ByteSize }).bind _ = _
  rw [hrun]
  rfl

theorem Lays.append {x y : Rendering Unit} {indent : String} (hx : Lays indent s x)
    (hy : Lays indent t y) : Lays indent (s ++ t) (do x; y) := by
  refine ⟨fun p hp hindent => ?_⟩
  obtain ⟨values, filled, hrun⟩ := hx.run_eq p hp hindent
  obtain ⟨values', filled', hrun'⟩ :=
    hy.run_eq { p with text := p.text ++ s, values, slots := p.slots ++ filled } hp hindent
  refine ⟨values', filled ++ filled', ?_⟩
  rw [run_bind hrun, hrun', String.append_assoc, Array.append_assoc]

theorem lays_push (v : StackValue) (indent : String) : Lays indent "" (push v) := by
  refine ⟨fun p _ _ => ⟨v :: p.values, #[], ?_⟩⟩
  rw [String.append_empty, Array.append_empty]
  rfl

theorem lays_each {node : Node} {indent : String} (h : Lays indent s (render node)) :
    Lays indent s (each render [node]) := by
  have hboth := h.append (Writes.nothing.lays indent)
  rwa [String.append_empty] at hboth

theorem opens_each {node : Node} {indent : String} (h : Opens indent s (render node)) :
    Opens indent s (each render [node]) := by
  refine ⟨fun p hp hindent htext hcolumn => ?_⟩
  obtain ⟨values, filled, hrun⟩ := h.run_eq p hp hindent htext hcolumn
  exact ⟨values, filled, run_bind hrun⟩

/-- New slots with texts, each slot once. -/
structure Filled (old filled : Array (Option String)) (entries : List (Nat × String)) : Prop where
  nodup : (entries.map (·.1)).Nodup
  le : ∀ e ∈ entries, old.size ≤ e.1
  getElem? : ∀ e ∈ entries, (old ++ filled)[e.1]? = some (some e.2)

/-- Every statement gets a slot with its text, in order. -/
theorem run_toSlots {nodes : List Node} {texts : List String} {indent : String}
    (h : List.Forall₂ (fun node s => Opens indent s (render node)) nodes texts) (p : Page)
    (hp : p.unquoted = false) (hindent : p.indent = indent) :
    ∃ entries values filled, entries.map (·.2) = texts ∧ Filled p.slots filled entries ∧
      toSlots render nodes p =
        some (entries.map (·.1), { p with values, slots := p.slots ++ filled }) := by
  induction h generalizing p with
  | nil => exact ⟨[], p.values, #[], rfl, ⟨.nil, by simp, by simp⟩, by simp [toSlots, run_pure]⟩
  | @cons node text nodes texts hnode _ ih =>
    obtain ⟨values, inner, hcapture⟩ := hnode.capture p hp hindent
    have hslot : newSlot text { p with values, slots := p.slots ++ inner } =
      some ((p.slots ++ inner).size,
        { p with values, slots := (p.slots ++ inner).push (some text) }) := rfl
    have hlater : ∀ values, ∃ entries values' filled, entries.map (·.2) = text :: texts ∧
        Filled p.slots filled entries ∧
        (do return (p.slots ++ inner).size :: (← toSlots render nodes) : Rendering (List Nat))
          { p with slots := (p.slots ++ inner).push (some text), values } =
            some (entries.map (·.1), { p with values := values', slots := p.slots ++ filled }) := by
      intro values
      obtain ⟨entries, values', later, htexts, hfilled, hrest⟩ :=
        ih { p with slots := (p.slots ++ inner).push (some text), values } hp hindent
      have hslots : (p.slots ++ inner).push (some text) ++ later =
          p.slots ++ (inner.push (some text) ++ later) := by
        simp [Array.append_assoc]
      have hbehind : ∀ e ∈ entries, (p.slots ++ inner).size < e.1 := fun e he => by
        have hle := hfilled.le e he
        rwa [Array.size_push] at hle
      refine ⟨((p.slots ++ inner).size, text) :: entries, values', inner.push (some text) ++ later,
        by rw [List.map_cons, htexts], ⟨?_, ?_, ?_⟩, ?_⟩
      · refine List.nodup_cons.2 ⟨fun hmem => ?_, hfilled.nodup⟩
        obtain ⟨e, he, hsame⟩ := List.mem_map.1 hmem
        exact absurd hsame (Nat.ne_of_gt (hbehind e he))
      · refine List.forall_mem_cons.2 ⟨by simp, fun e he => ?_⟩
        have hle := hbehind e he
        rw [Array.size_append] at hle
        omega
      · rw [← hslots]
        refine List.forall_mem_cons.2 ⟨?_, hfilled.getElem?⟩
        rw [Array.getElem?_append_left (by simp), Array.getElem?_push_size]
      · rw [run_bind hrest, ← hslots]
        rfl
    rw [toSlots, run_bind hcapture, run_bind hslot]
    -- A statement that leaves a value is also on the stack.
    split
    · exact hlater (.slot (p.slots ++ inner).size :: values)
    · exact hlater values

/-- The texts in slots are taken, and empty ones left out. Slots from before stay as they are. -/
theorem run_leftOver {old filled : Array (Option String)} {entries : List (Nat × String)} {p : Page}
    (hslots : p.slots = old ++ filled) (h : Filled old filled entries) :
    ∃ filled', leftOver (entries.map (·.1)) p = some ((entries.map (·.2)).filter (!·.isEmpty),
      { p with slots := old ++ filled' }) := by
  induction entries generalizing p filled with
  | nil => exact ⟨filled, by rw [← hslots]; rfl⟩
  | cons e entries ih =>
    have hslot : (p.slots[e.1]?).join = some e.2 := by rw [hslots, h.getElem? e (by simp)]; rfl
    have htake : takeSlot e.1 p =
        some (some e.2, { p with slots := p.slots.setIfInBounds e.1 none }) := by
      rw [← hslot]
      rfl
    have hset : p.slots.setIfInBounds e.1 none =
        old ++ filled.setIfInBounds (e.1 - old.size) none := by
      rw [hslots, Array.setIfInBounds_append_right (h.le e (by simp))]
    obtain ⟨hnew, hnodup⟩ := List.nodup_cons.1 h.nodup
    have hfilled : Filled old (filled.setIfInBounds (e.1 - old.size) none) entries := by
      refine ⟨hnodup, fun e' he' => h.le e' (List.mem_cons_of_mem _ he'), fun e' he' => ?_⟩
      have hne : e.1 ≠ e'.1 := fun hsame => hnew (List.mem_map.2 ⟨e', he', hsame.symm⟩)
      rw [← hset, Array.getElem?_setIfInBounds_ne hne, hslots]
      exact h.getElem? e' (List.mem_cons_of_mem _ he')
    obtain ⟨filled', hrest⟩ :=
      @ih _ { p with slots := p.slots.setIfInBounds e.1 none } hset hfilled
    refine ⟨filled', ?_⟩
    rw [List.map_cons, leftOver, run_bind htake, run_bind hrest]
    by_cases hempty : e.2.isEmpty = true <;> simp [hempty, run_pure]

/-- Statements are written on lines of their own, but for those without a text. -/
theorem lays_statements {nodes : List Node} {texts : List String} {indent : String}
    (h : List.Forall₂ (fun node s => Opens indent s (render node)) nodes texts) :
    Lays indent (("\n" ++ indent).intercalate (texts.filter (!·.isEmpty)))
      (statements render nodes) := by
  refine ⟨fun p hp hindent => ?_⟩
  obtain ⟨entries, values, filled, rfl, hfilled, hrun⟩ := run_toSlots h p hp hindent
  have hdrop : dropSlots (entries.map (·.1)) { p with values, slots := p.slots ++ filled } =
      some ((), _) := rfl
  obtain ⟨filled', hleft⟩ :=
    @run_leftOver _ _ _ { p with values := _, slots := p.slots ++ filled } rfl hfilled
  exact ⟨_, filled', by
    rw [statements, run_bind hrun, run_bind hdrop, run_bind hleft, ← hindent]
    rfl⟩

/-! ### Forms with a body -/

theorem fill_append (node : Node) (ds ds' : List Directive) :
    fill render node (ds ++ ds') = (do fill render node ds; fill render node ds') := by
  induction ds with
  | nil => rfl
  | cons d ds ih =>
    rw [List.cons_append, fill, fill, ih]
    simp only [bind_assoc]

/-- A form with a body begins with its head. The body is on lines of its own. -/
theorem opens_block {node body : Node} {head : List Directive} {n : Nat} {indent : String}
    (hbody : node.child? n = some body) (hs : Lays indent s (fill render node head))
    (ht : Lays (indent ++ "  ") t (render body)) :
    Opens indent ("(" ++ s ++ "\n" ++ (indent ++ "  ") ++ t ++ ")")
      (fill render node (Directive.block head n)) := by
  refine ⟨fun p hp hindent htext _ => ?_⟩
  have hwrite : ∀ (s : String) (q : Page), write s q = some ((), { q with text := q.text ++ s }) :=
    fun _ _ => rfl
  have hmore : ∀ q : Page, indentMore q = some ((), { q with
      indent := q.indent ++ "  ", outerIndents := q.indent :: q.outerIndents }) := fun _ => rfl
  have hget : ∀ q : Page, (get : Rendering Page) q = some (q, q) := fun _ => rfl
  obtain ⟨values, filled, hhead⟩ := hs.run_eq { p with text := "(" } hp hindent
  obtain ⟨values', filled', hrun⟩ := ht.run_eq { p with
    text := "(" ++ s ++ "\n" ++ (indent ++ "  ")
    indent := indent ++ "  "
    outerIndents := indent :: p.outerIndents
    values, slots := p.slots ++ filled } hp rfl
  refine ⟨values', filled ++ filled', ?_⟩
  rw [Directive.block, fill_append]
  simp only [fill, directive, hbody, child, bind_assoc]
  rw [run_bind (run_openForm htext), run_bind hhead, run_bind (hwrite _ _), run_bind (hmore _),
    run_bind (hget _), run_bind (hwrite _ _)]
  subst hindent
  rw [run_bind hrun, run_bind (run_closeForm rfl)]
  simp [run_pure, Array.append_assoc]

/-! ### Lines and columns -/

theorem utf8ByteSize_ofList (cs : List Char) :
    (String.ofList cs).utf8ByteSize = Text.byteLength cs := by
  induction cs with
  | nil => rfl
  | cons c cs ih =>
    rw [String.ofList_cons, String.utf8ByteSize_append, String.utf8ByteSize_singleton, ih,
      Text.byteLength]

theorem utf8ByteSize_spaces (n : Nat) : (Text.spaces n).utf8ByteSize = n := by
  rw [Text.spaces, utf8ByteSize_ofList]
  induction n with
  | zero => rfl
  | succ n ih =>
    rw [List.replicate_succ, Text.byteLength, ih]
    exact Nat.add_comm 1 n

theorem byteLength_reverse (s : String) : Text.byteLength s.toList.reverse = s.utf8ByteSize := by
  have hreverse : ∀ cs : List Char, Text.byteLength cs.reverse = Text.byteLength cs := by
    intro cs
    induction cs with
    | nil => rfl
    | cons c cs ih => simp [Text.byteLength_append, Text.byteLength, ih, Nat.add_comm]
  rw [hreverse, ← utf8ByteSize_ofList, String.ofList_toList]

theorem not_newline_of_mem (hs : '\n' ∉ s.toList) :
    ∀ c ∈ s.toList.reverse, (c != '\n') = true := fun _ hc =>
  bne_iff_ne.2 fun he => hs (he ▸ List.mem_reverse.1 hc)

/-- A page without a text is at the column where it starts. -/
theorem column_of_empty {p : Page} (h : p.text = "") : p.column = p.startColumn := by
  simp [Page.column, h, Text.byteLength]

/-- Text without a line break moves the column on by its bytes. -/
theorem column_append {p : Page} (hs : '\n' ∉ s.toList) :
    Page.column { p with text := p.text ++ s } = p.column + s.utf8ByteSize := by
  simp only [Page.column, String.toList_append, List.reverse_append,
    List.takeWhile_append_of_pos (not_newline_of_mem hs), List.length_append,
    Text.byteLength_append, String.length_append, byteLength_reverse, List.length_reverse,
    String.length_toList]
  split <;> split <;> omega

/-- A line break moves the column back to where the new line starts. -/
theorem column_newline {p : Page} (hs : '\n' ∉ s.toList) :
    Page.column { p with text := p.text ++ "\n" ++ s } = s.utf8ByteSize := by
  have hbreak : ("\n" : String).toList.reverse = ['\n'] := rfl
  have hlength : ("\n" : String).length = 1 := rfl
  simp only [Page.column, String.toList_append, List.reverse_append,
    List.takeWhile_append_of_pos (not_newline_of_mem hs), hbreak, List.cons_append,
    List.nil_append, String.length_append, hlength]
  rw [List.takeWhile_cons_of_neg (by simp), List.append_nil, byteLength_reverse,
    List.length_reverse, String.length_toList, if_neg (by omega)]

/-- Where the page is at a column, the rendering writes `s` at an indentation. -/
structure LaysAt (column : Nat) (indent s : String) (x : Rendering Unit) : Prop where
  run_eq : ∀ p : Page, p.unquoted = false → p.indent = indent → p.column = column →
    ∃ values filled,
      x p = some ((), { p with text := p.text ++ s, values, slots := p.slots ++ filled })

section

variable {x y : Rendering Unit} {indent : String} {column : Nat}

theorem Lays.at (h : Lays indent s x) (column : Nat) : LaysAt column indent s x :=
  ⟨fun p hp hindent _ => h.run_eq p hp hindent⟩

theorem LaysAt.append_lays (hx : LaysAt column indent s x) (hy : Lays indent t y) :
    LaysAt column indent (s ++ t) (do x; y) := by
  refine ⟨fun p hp hindent hcolumn => ?_⟩
  obtain ⟨values, filled, hrun⟩ := hx.run_eq p hp hindent hcolumn
  obtain ⟨values', filled', hrun'⟩ :=
    hy.run_eq { p with text := p.text ++ s, values, slots := p.slots ++ filled } hp hindent
  refine ⟨values', filled ++ filled', ?_⟩
  rw [run_bind hrun, hrun', String.append_assoc, Array.append_assoc]

/-- Text without a line break moves the column on. -/
theorem LaysAt.append (hx : LaysAt column indent s x) (hs : '\n' ∉ s.toList)
    (hy : LaysAt (column + s.utf8ByteSize) indent t y) :
    LaysAt column indent (s ++ t) (do x; y) := by
  refine ⟨fun p hp hindent hcolumn => ?_⟩
  obtain ⟨values, filled, hrun⟩ := hx.run_eq p hp hindent hcolumn
  have hafter : Page.column
      { p with text := p.text ++ s, values, slots := p.slots ++ filled } =
        column + s.utf8ByteSize := by
    rw [← hcolumn]
    exact column_append hs
  obtain ⟨values', filled', hrun'⟩ :=
    hy.run_eq { p with text := p.text ++ s, values, slots := p.slots ++ filled } hp hindent hafter
  refine ⟨values', filled ++ filled', ?_⟩
  rw [run_bind hrun, hrun', String.append_assoc, Array.append_assoc]

/-- A new line starts at the column of the indentation. -/
theorem LaysAt.newline (hindent : '\n' ∉ indent.toList)
    (hy : LaysAt indent.utf8ByteSize indent t y) :
    Lays indent ("\n" ++ indent ++ t) (do newline; y) := by
  refine ⟨fun p hp hsame => ?_⟩
  have hnewline : Rendering.newline p = some ((), { p with text := p.text ++ "\n" ++ indent }) := by
    rw [← hsame]
    rfl
  obtain ⟨values, filled, hrun⟩ := hy.run_eq { p with text := p.text ++ "\n" ++ indent } hp hsame
    (column_newline hindent)
  refine ⟨values, filled, ?_⟩
  rw [run_bind hnewline, hrun]
  simp only [String.append_assoc]

theorem not_newline_spaces (n : Nat) : '\n' ∉ (Text.spaces n).toList := by
  simp [Text.spaces]

/-- Nodes below one another. -/
theorem laysAt_eachOnLine {nodes : List Node} {texts : List String}
    (h : List.Forall₂ (fun node s => LaysAt column (Text.spaces column) s (render node)) nodes
      texts) :
    LaysAt column (Text.spaces column) (("\n" ++ Text.spaces column).intercalate texts)
      (eachOnLine render nodes) := by
  induction h with
  | nil => exact (Writes.nothing.lays _).at _
  | @cons node text nodes texts hnode hrest ih =>
    cases hrest with
    | nil => rwa [String.intercalate_singleton]
    | cons _ _ =>
      rw [String.intercalate_cons_cons, String.append_assoc]
      refine hnode.append_lays (LaysAt.newline (not_newline_spaces column) ?_)
      rwa [utf8ByteSize_spaces]

/-- What is aligned with the column, up to a closing parenthesis. -/
theorem LaysAt.aligned (hx : LaysAt column (Text.spaces column) s x) :
    LaysAt column indent (s ++ ")") (do align; x; closeForm) := by
  refine ⟨fun p hp hindent hcolumn => ?_⟩
  have halign : align p = some ((), { p with
      indent := Text.spaces column, outerIndents := p.indent :: p.outerIndents }) := by
    rw [← hcolumn]
    rfl
  obtain ⟨values, filled, hrun⟩ := hx.run_eq { p with
    indent := Text.spaces column, outerIndents := p.indent :: p.outerIndents } hp rfl hcolumn
  refine ⟨values, filled, ?_⟩
  rw [run_bind halign, run_bind hrun, run_closeForm rfl, String.append_assoc]

/-- The last part of a form is indented. -/
theorem lays_lastPart (hx : Lays (indent ++ "  ") s x) :
    Lays indent ("\n" ++ (indent ++ "  ") ++ s ++ ")") (lastPart x) := by
  refine ⟨fun p hp hindent => ?_⟩
  have hmore : indentMore p = some ((), { p with
      indent := indent ++ "  ", outerIndents := p.indent :: p.outerIndents }) := by
    rw [← hindent]
    rfl
  have hnewline : ∀ q : Page, Rendering.newline q =
      some ((), { q with text := q.text ++ "\n" ++ q.indent }) := fun _ => rfl
  obtain ⟨values, filled, hrun⟩ := hx.run_eq { p with
    text := p.text ++ "\n" ++ (indent ++ "  ")
    indent := indent ++ "  "
    outerIndents := p.indent :: p.outerIndents } hp rfl
  refine ⟨values, filled, ?_⟩
  rw [lastPart, run_bind hmore, run_bind (hnewline _), run_bind hrun, run_closeForm rfl]
  simp only [String.append_assoc]

/-- A form on a line of its own. -/
theorem opens_form (hx : LaysAt (indent.utf8ByteSize + 1) indent s x) :
    Opens indent ("(" ++ s) (do openForm; x) := by
  refine ⟨fun p hp hindent htext hstart => ?_⟩
  have hcolumn : Page.column { p with text := "(" } = indent.utf8ByteSize + 1 := by
    have hopen := @column_append "(" p (by decide)
    rw [htext, String.empty_append] at hopen
    rw [hopen, column_of_empty htext, hstart]
    rfl
  obtain ⟨values, filled, hrun⟩ := hx.run_eq { p with text := "(" } hp hindent hcolumn
  exact ⟨values, filled, (run_bind (run_openForm htext)).trans hrun⟩

end

end ElispLift.Rendering
