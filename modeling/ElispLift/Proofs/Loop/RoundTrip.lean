import ElispLift.Proofs.Loop.Rendering
import ElispLift.Proofs.Loop.Routes
import ElispLift.Proofs.Source.Lockstep

/-!
# The round trip of loops

The code of statements and a loop behind them is parsed as a routine with one loop. It has a start
value if what stands in front of it is a single assignment, which is missing in the text then. In
all other cases the text has all statements, and the loop behind them.
-/

namespace ElispLift.Loop

open StraightLine Segmentation

/-- The characters of a text but for blanks and line breaks. -/
def inked (text : String) : List Char := text.toList.filter (!·.isWhitespace)

variable {f : Form} {is : List Instruction} {seg : Segmentation} {l : Parts} {kind : Nonterminal}

/-! ### Counts -/

/-- No operation of a form counts more than a byte can hold. -/
theorem count_le (hwf : f.WellFormed) : ∀ x ∈ f.code, ∀ family count,
    x.1 = .counted family count → count ≤ maxCount := by
  intro x hx
  simp only [Form.code, List.mem_append, List.mem_cons, List.not_mem_nil, or_false] at hx
  rcases hx with hx | rfl | hx | rfl | hx | rfl | rfl | rfl
  · exact count_le_statements hwf.statements x hx
  · simp
  · exact StraightLine.count_le f.condition hwf.condition x hx
  · simp
  · exact count_le_statements hwf.body x hx
  · simp
  · simp
  · simp

/-! ### Nodes -/

theorem Form.Opening.isStarted_eq {start : Option Node} {nodes : List Node}
    (h : f.Opening start nodes) : f.isStarted = start.isSome := by
  cases h with
  | started hsingle => rw [Form.isStarted, hsingle]; rfl
  | behind hplain => exact hplain

/-- There are only operations in the start value of a loop. -/
theorem Form.Opening.nodesOf_start {start : Node} {nodes : List Node}
    (h : f.Opening (some start) nodes) (hwf : f.WellFormed) (hkind : isTerm kind = false) :
    nodesOf kind start = [] := by
  cases h with
  | @started name value i tree hsingle hi htree =>
    have hvalue : value.WellFormed := hwf.statements (.setq name value) (by simp [hsingle])
    have hcodes := (codes_expr value hvalue htree).append (.token hi)
    simpa using ((hcodes.wrap rfl).wrap rfl).nodes_eq kind hkind

section

variable (hwf : f.WellFormed) (h : f.Shows l)

include hwf h

/-- There are only operations and statements in front of a loop and within it. -/
theorem nodesOfAll_parts (hkind : isTerm kind = false)
    (hne : kind ≠ .exprStmt ∧ kind ≠ .exprs ∧ kind ≠ .body) :
    nodesOfAll kind l.statements = [] ∧ nodesOfAll kind l.parts = [] := by
  have hnone : ∀ {statements nodes}, List.Forall₂ Statement.Shows statements nodes →
      (∀ s ∈ statements, s.WellFormed) → nodesOfAll kind nodes = [] := by
    intro statements nodes hshows hwf
    rw [nodesOfAll_statements (isStatement_of_shows hshows hwf) hkind, if_neg hne.1]
  have htest := (codes_expr f.condition hwf.condition h.condition).nodes_eq kind hkind
  have hbody := hnone h.body hwf.body
  exact ⟨hnone h.opening.written hwf.written,
    by simpa [Parts.parts, hbody, hne.2.1.symm, hne.2.2.symm] using htest⟩

/-- The routine has one loop, with a start value or without one. -/
theorem nodesOf_routine : nodesOf .whileForm1 l.routine = (if f.isStarted then [l.form] else []) ∧
    nodesOf .whileForm2 l.routine = (if f.isStarted then [] else [l.form]) := by
  obtain ⟨hstatements, hparts⟩ : nodesOfAll .whileForm1 l.statements = [] ∧ _ :=
    nodesOfAll_parts hwf h rfl (by decide)
  obtain ⟨hstatements', hparts'⟩ : nodesOfAll .whileForm2 l.statements = [] ∧ _ :=
    nodesOfAll_parts hwf h rfl (by decide)
  have hopening := h.opening
  have hstarted := hopening.isStarted_eq
  cases hl : l.start with
  | none =>
    rw [hl] at hstarted
    simp [Parts.routine, Parts.form, Parts.loop, kept, hl, hstarted, hstatements, hstatements',
      hparts, hparts']
  | some start =>
    rw [hl] at hopening hstarted
    have hstart : nodesOf .whileForm1 start = [] := hopening.nodesOf_start hwf rfl
    have hstart' : nodesOf .whileForm2 start = [] := hopening.nodesOf_start hwf rfl
    simp [Parts.routine, Parts.form, Parts.startedLoop, kept, hl, hstarted, hstatements,
      hstatements', hparts, hparts', hstart, hstart']

end

/-! ### Texts -/

theorem inked_append (s t : String) : inked (s ++ t) = inked s ++ inked t := by
  simp [inked]

/-- A form loses a part of its text exactly if a single assignment stands in front of the loop. -/
theorem inked_written_iff (f : Form) (indent : String) :
    inked (f.written.lisp indent) = inked (f.lisp indent) ↔ f.isStarted = false := by
  refine ⟨fun h => Bool.eq_false_iff.2 fun hstarted => ?_, fun h => by simp [Form.written, h]⟩
  obtain ⟨name, value, hsingle⟩ := isStarted_eq_true hstarted
  have hwritten : f.written.lisp indent = loopLisp indent f.condition f.body := by
    simp [Form.written, hstarted, Form.lisp, Form.lines]
  have hlisp : f.lisp indent = (Statement.setq name value).lisp ++ ("\n" ++ indent) ++
      loopLisp indent f.condition f.body := by
    simp [Form.lisp, Form.lines, hsingle]
  rw [hwritten, hlisp, inked_append, inked_append, List.self_eq_append_left,
    List.append_eq_nil_iff] at h
  have hparenthesis : '(' ∈ inked (Statement.setq name value).lisp := by
    simp [inked, Statement.lisp]
  rw [h.1] at hparenthesis
  cases hparenthesis

/-! ### Loops -/

/-- Instructions that spell the code of statements and a loop are parsed, with their markers, as a
routine with one loop, and rendered without an issue. If a single assignment stands in front of the
loop it is read as its start value, and the text is that of the loop alone. Otherwise the text has
all statements in their order and the loop behind them. -/
theorem loop_round_trip (hwf : f.WellFormed) (h : Compiled f is) (indent : String) :
    ∃ seg tree, ofInstructions is = .ok seg ∧
      parse .fnBody (Grammar.arityRules seg.annotated) seg.annotated = .ok tree ∧
      (nodesOf .whileForm1 tree).length = (if f.isStarted then 1 else 0) ∧
      (nodesOf .whileForm2 tree).length = (if f.isStarted then 0 else 1) ∧
      tree.render indent = .ok ⟨Text.spaces indent.utf8ByteSize ++ f.written.lisp indent, []⟩ ∧
      (inked (f.written.lisp indent) = inked (f.lisp indent) ↔ f.isStarted = false) := by
  obtain ⟨seg, st, l, hseg, hl, hshows⟩ := exists_layout hwf h
  obtain ⟨hstarted, hplain⟩ := nodesOf_routine hwf hshows
  have hbounded := (countsBounded_of_spells (count_le hwf) h.spells).annotated hseg
  refine ⟨seg, l.routine, hseg, parse_layout hl hbounded, ?_, ?_,
    render_routine hwf hshows indent, inked_written_iff f indent⟩
  · rw [hstarted]
    split <;> rfl
  · rw [hplain]
    split <;> rfl

/-- Point is moved and a variable is set, and then lines are skipped as long as it is small. -/
def skipLines : Form where
  statements := [.discard (.apply .gotoChar [.reference (.symbol "start")]),
    .setq (.symbol "i") (.constant (.int 0))]
  condition := .apply .lss [.reference (.symbol "i"), .reference (.symbol "n")]
  body := [.discard (.apply .forwardLine [.reference (.symbol "i")]),
    .setq (.symbol "i") (.apply .add1 [.reference (.symbol "i")])]
  entry := "1"
  exit := "2"

def skipLinesCode : List Instruction :=
  [.ofOpcode .varref (some (.symbol "start")) 0, .ofOpcode .gotoChar none 1,
    .ofOpcode .discard none 2, .ofOpcode .constant (some (.int 0)) 3,
    .ofOpcode .varset (some (.symbol "i")) 4, .ofOpcode .label (some (.symbol "1")) 5,
    .ofOpcode .varref (some (.symbol "i")) 5, .ofOpcode .varref (some (.symbol "n")) 6,
    .ofOpcode .lss none 7, .ofOpcode .gotoIfNilElsePop (some (.symbol "2")) 8,
    .ofOpcode .varref (some (.symbol "i")) 11, .ofOpcode .forwardLine none 12,
    .ofOpcode .discard none 13, .ofOpcode .varref (some (.symbol "i")) 14,
    .ofOpcode .add1 none 15, .ofOpcode .varset (some (.symbol "i")) 16,
    .ofOpcode .goto (some (.symbol "1")) 17, .ofOpcode .label (some (.symbol "2")) 20,
    .ofOpcode .ret none 20]

theorem wellFormed_skipLines : skipLines.WellFormed where
  statements := by
    have hgoto : arity? Opcode.gotoChar.opClass = some 1 := rfl
    have htext : (Operand.symbol "start").toText ≠ "" ∧ (Operand.int 0).toText ≠ "" := by decide
    exact List.forall_mem_cons.2 ⟨⟨hgoto, htext.1, trivial⟩, List.forall_mem_singleton.2 htext.2⟩
  condition := by
    have hlss : arity? Opcode.lss.opClass = some 2 := rfl
    have htext : (Operand.symbol "i").toText ≠ "" ∧ (Operand.symbol "n").toText ≠ "" := by decide
    exact ⟨hlss, htext.1, htext.2, trivial⟩
  body := by
    have hforward : arity? Opcode.forwardLine.opClass = some 1 := rfl
    have hadd : arity? Opcode.add1.opClass = some 1 := rfl
    have htext : (Operand.symbol "i").toText ≠ "" := by decide
    exact List.forall_mem_cons.2 ⟨⟨hforward, htext, trivial⟩,
      List.forall_mem_singleton.2 ⟨hadd, htext, trivial⟩⟩
  body_ne_nil := by simp [skipLines]
  entry_ne_exit := by decide

theorem compiled_skipLines : Compiled skipLines skipLinesCode where
  spells := by
    simp [skipLines, skipLinesCode, Form.code, Statement.code, Expr.code, Expr.codeOf, Spells,
      Instruction.ofOpcode]
  ordered := by decide

theorem loop_round_trip_skipLines :
    ∃ seg tree, ofInstructions skipLinesCode = .ok seg ∧
      parse .fnBody (Grammar.arityRules seg.annotated) seg.annotated = .ok tree ∧
      (nodesOf .whileForm1 tree).length = 0 ∧ (nodesOf .whileForm2 tree).length = 1 ∧
      tree.render "" = .ok ⟨"(goto-char start)\n(setq i 0)\n" ++
        "(while (< i n)\n  (forward-line i)\n  (setq i (1+ i)))", []⟩ := by
  have htext : Text.spaces "".utf8ByteSize ++ skipLines.written.lisp "" =
      "(goto-char start)\n(setq i 0)\n" ++
        "(while (< i n)\n  (forward-line i)\n  (setq i (1+ i)))" := rfl
  obtain ⟨seg, tree, hseg, hparse, hstarted, hplain, hrender, -⟩ :=
    loop_round_trip wellFormed_skipLines compiled_skipLines ""
  rw [htext] at hrender
  exact ⟨seg, tree, hseg, hparse, hstarted, hplain, hrender⟩

/-- What `setAndWait` was compiled from. -/
def setBeforeWait : Form where
  statements := [.setq (.symbol "i") (.constant (.int 0))]
  condition := .reference (.symbol "a")
  body := [.discard (.reference (.symbol "b"))]
  entry := "1"
  exit := "2"

theorem wellFormed_setBeforeWait : setBeforeWait.WellFormed where
  statements := List.forall_mem_singleton.2 (show (Operand.int 0).toText ≠ "" by decide)
  condition := show (Operand.symbol "a").toText ≠ "" by decide
  body := List.forall_mem_singleton.2 (show (Operand.symbol "b").toText ≠ "" by decide)
  body_ne_nil := by simp [setBeforeWait]
  entry_ne_exit := by decide

theorem compiled_setBeforeWait : Compiled setBeforeWait setAndWait where
  spells := by
    simp [setBeforeWait, setAndWait, Form.code, Statement.code, Expr.code, Spells,
      Instruction.ofOpcode]
  ordered := by decide

/-- The text lacks the assignment. -/
theorem lost_setAndWait : setBeforeWait.WellFormed ∧ Compiled setBeforeWait setAndWait ∧
    setBeforeWait.lisp "" = "(setq i 0)\n(while a\n  b)" ∧
    ∃ s tree source, ofInstructions setAndWait = .ok s ∧
      parse .fnBody (Grammar.arityRules s.annotated) s.annotated = .ok tree ∧
      tree.render "" = .ok source ∧ source.text = "(while a\n  b)" ∧
      inked source.text ≠ inked (setBeforeWait.lisp "") := by
  obtain ⟨s, tree, hs, hparse, -, source, hsource, htext⟩ := exists_parse_setAndWait
  have hlisp : setBeforeWait.lisp "" = "(setq i 0)\n(while a\n  b)" := rfl
  have hwritten : setBeforeWait.written.lisp "" = "(while a\n  b)" := rfl
  refine ⟨wellFormed_setBeforeWait, compiled_setBeforeWait, hlisp, s, tree, source, hs, hparse,
    hsource, htext, ?_⟩
  rw [htext, ← hwritten]
  exact (inked_written_iff setBeforeWait "").not.2 (by decide)

end ElispLift.Loop
