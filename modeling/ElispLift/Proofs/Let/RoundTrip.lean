import ElispLift.Proofs.Let.Rendering
import ElispLift.Proofs.Let.Routes
import ElispLift.Proofs.StraightLine.RoundTrip

/-!
# The round trip of bindings

The code of a form that binds variables gets no markers. It is parsed as a routine with one form
that holds the bindings in their order, and rendered as the text of the form.
-/

namespace ElispLift.Let

open StraightLine Segmentation

variable {f : Form} {is bound body : List Instruction} {unbind ret : Instruction} {l : Parts}
  {bs : List Binding} {b : Binding} {nodes : List Node} {node : Node} {kind : Nonterminal}

/-! ### Counts -/

/-- No operation of a form counts more than a byte can hold. -/
theorem count_le (hwf : f.WellFormed) : ∀ x ∈ f.code, ∀ family count,
    x.1 = .counted family count → count ≤ maxCount := by
  intro x hx
  obtain ⟨-, hbindings, hbody⟩ := hwf
  rcases List.mem_append.1 hx with hx | hx
  · obtain ⟨b, hb, hx⟩ := List.mem_flatMap.1 hx
    rcases List.mem_append.1 hx with hx | hx
    · exact StraightLine.count_le b.value (hbindings b hb) x hx
    · obtain rfl := List.mem_singleton.1 hx
      simp
  · rcases List.mem_append.1 hx with hx | hx
    · exact Program.count_le hbody x (List.mem_append_left _ hx)
    · simp only [List.mem_cons, List.not_mem_nil, or_false] at hx
      rcases hx with rfl | rfl <;> simp

/-! ### Nodes -/

/-- A binding holds no other node of a binding, and its instructions spell its code. -/
theorem Binding.Shows.nodes_eq (hwf : b.value.WellFormed) (h : b.Shows node) :
    nodesOf .varbind node = [node] ∧ nodesOf .letFormStar node = [] ∧
      List.Forall₂ Spells node.tokens b.code := by
  obtain ⟨i, tree, hi, htree, rfl⟩ := h
  have hcodes := (codes_expr b.value hwf htree).append (.token hi)
  have hbindings := hcodes.nodes_eq .varbind rfl
  have hforms := hcodes.nodes_eq .letFormStar rfl
  exact ⟨by simpa using hbindings, by simpa using hforms, hcodes.spells⟩

theorem nodesOfAll_bindings (hwf : ∀ b ∈ bs, b.value.WellFormed)
    (h : List.Forall₂ Binding.Shows bs nodes) :
    nodesOfAll .varbind nodes = nodes ∧ nodesOfAll .letFormStar nodes = [] ∧
      List.Forall₂ (fun node b => List.Forall₂ Spells node.tokens b.code) nodes bs := by
  induction h with
  | nil => exact ⟨rfl, rfl, .nil⟩
  | @cons b node bs nodes hnode _ ih =>
    obtain ⟨hbinding, hform, hspells⟩ := hnode.nodes_eq (hwf b (by simp))
    obtain ⟨hbindings, hforms, hrest⟩ := ih fun b' hb' => hwf b' (List.mem_cons_of_mem _ hb')
    exact ⟨by rw [nodesOfAll_cons, hbinding, hbindings, List.singleton_append],
      by rw [nodesOfAll_cons, hform, hforms, List.nil_append], .cons hspells hrest⟩

/-- The routine holds the form, and the form holds the bindings. -/
theorem nodesOf_form (hwf : f.WellFormed)
    (hbindings : List.Forall₂ Binding.Shows f.bindings l.bindings)
    (hstatements : List.Forall₂ Statement.Shows f.body.statements l.statements)
    (hvalue : f.body.value.Shows l.result.tree) :
    nodesOf .letFormStar l.routine = [l.form] ∧ nodesOf .varbind l.form = l.bindings := by
  obtain ⟨-, hvalues, hbody⟩ := hwf
  obtain ⟨hinner, houter, -⟩ := nodesOfAll_bindings hvalues hbindings
  have hparts := Program.isStatement hbody hstatements hvalue
  have hrest : ∀ kind, isTerm kind = false → kind ≠ .exprStmt →
      nodesOfAll kind l.statements ++ nodesOf kind (kept l.result.tree) = [] := by
    intro kind hkind hne
    have hall := nodesOfAll_statements hparts hkind
    rwa [if_neg hne, nodesOfAll_append, nodesOfAll_cons, nodesOfAll_nil, List.append_nil] at hall
  have hforms := hrest .letFormStar rfl (by decide)
  have hbinds := hrest .varbind rfl (by decide)
  have hform : nodesOf .letFormStar l.form = [l.form] := by
    simp [Parts.form, houter, hforms]
  refine ⟨?_, by simp [Parts.form, hinner, hbinds]⟩
  simp [Parts.routine, routine, kept, hform]

/-! ### Forms -/

/-- Instructions that spell the code of a form get no markers. They are parsed as a routine with one
form, which has one node for each of the bindings in their order, over just its code, and the
routine is rendered as the text of the form. -/
theorem bindings_round_trip (hwf : f.WellFormed) (h : Compiled f is) (indent : String) :
    ∃ seg tree form, ofInstructions is = .ok seg ∧ seg.annotated = is ∧
      parse .fnBody (Grammar.arityRules is) is = .ok tree ∧
      nodesOf .letFormStar tree = [form] ∧
      List.Forall₂ (fun node b => List.Forall₂ Spells node.tokens b.code)
        (nodesOf .varbind form) f.bindings ∧
      tree.render indent = .ok ⟨Text.spaces indent.utf8ByteSize ++ f.lisp indent, []⟩ := by
  obtain ⟨bound, body, unbind, ret, hsplit⟩ := exists_split h.spells
  obtain ⟨seg, hseg, hannotated⟩ := hsplit.annotated_eq hwf h.ascending
  obtain ⟨st, l, hl, hbindings, hstatements, hvalue⟩ := hsplit.exists_layout hwf
  obtain ⟨hform, hbinds⟩ := nodesOf_form hwf hbindings hstatements hvalue
  obtain ⟨-, -, hspells⟩ := nodesOfAll_bindings hwf.2.1 hbindings
  refine ⟨seg, l.routine, l.form, hseg, hannotated,
    parse_layout hl (countsBounded_of_spells (count_le hwf) h.spells), hform, ?_,
    render_routine hwf hbindings hstatements hvalue indent⟩
  rwa [hbinds]

/-- Two variables are bound, the second to a value that refers to the first; the point is moved, and
a pair is returned. -/
def moveBetween : Form where
  bindings := [⟨"start", .apply .point []⟩,
    ⟨"next", .apply .add1 [.reference (.symbol "start")]⟩]
  body := {
    statements := [.discard (.apply .forwardLine [.reference (.symbol "next")])]
    value := .apply .cons [.reference (.symbol "start"), .constant (.int 5)] }

def moveBetweenCode : List Instruction :=
  [⟨.fixed .point, none, 0, none⟩, ⟨.fixed .varbind, some (.symbol "start"), 1, none⟩,
    ⟨.fixed .varref, some (.symbol "start"), 2, none⟩, ⟨.fixed .add1, none, 3, none⟩,
    ⟨.fixed .varbind, some (.symbol "next"), 4, none⟩,
    ⟨.fixed .varref, some (.symbol "next"), 5, none⟩, ⟨.fixed .forwardLine, none, 6, none⟩,
    ⟨.fixed .discard, none, 7, none⟩, ⟨.fixed .varref, some (.symbol "start"), 8, none⟩,
    ⟨.fixed .constant, some (.int 5), 9, none⟩, ⟨.fixed .cons, none, 10, none⟩,
    ⟨.fixed .unbind, some (.int 2), 11, none⟩, ⟨.fixed .ret, none, 12, none⟩]

theorem wellFormed_moveBetween : moveBetween.WellFormed := by
  have hpoint : arity? Opcode.point.opClass = some 0 := rfl
  have hadd : arity? Opcode.add1.opClass = some 1 := rfl
  have hforward : arity? Opcode.forwardLine.opClass = some 1 := rfl
  have hcons : arity? Opcode.cons.opClass = some 2 := rfl
  have hstart : (Operand.symbol "start").toText ≠ "" := by decide
  have hnext : (Operand.symbol "next").toText ≠ "" := by decide
  have hfive : (Operand.int 5).toText ≠ "" := by decide
  refine ⟨by simp [moveBetween], List.forall_mem_cons.2 ⟨⟨hpoint, trivial⟩,
    List.forall_mem_cons.2 ⟨⟨hadd, hstart, trivial⟩, by simp⟩⟩, ?_⟩
  exact ⟨List.forall_mem_cons.2 ⟨⟨hforward, hnext, trivial⟩, by simp⟩,
    hcons, hstart, hfive, trivial⟩

theorem compiled_moveBetween : Compiled moveBetween moveBetweenCode where
  spells := by
    simp [moveBetween, moveBetweenCode, Form.code, Binding.code, Program.parts, Statement.code,
      Expr.code, Expr.codeOf, Spells]
  ascending := by decide

theorem bindings_round_trip_moveBetween :
    ∃ seg tree form, ofInstructions moveBetweenCode = .ok seg ∧
      seg.annotated = moveBetweenCode ∧
      parse .fnBody (Grammar.arityRules moveBetweenCode) moveBetweenCode = .ok tree ∧
      nodesOf .letFormStar tree = [form] ∧ (nodesOf .varbind form).length = 2 ∧
      tree.render "" = .ok ⟨"(let* ((start (point))\n       (next (1+ start)))\n" ++
        "  (forward-line next)\n  (cons start 5))", []⟩ := by
  have htext : Text.spaces "".utf8ByteSize ++ moveBetween.lisp "" =
      "(let* ((start (point))\n       (next (1+ start)))\n" ++
        "  (forward-line next)\n  (cons start 5))" := rfl
  obtain ⟨seg, tree, form, hseg, hannotated, hparse, hform, hbindings, hrender⟩ :=
    bindings_round_trip wellFormed_moveBetween compiled_moveBetween ""
  rw [htext] at hrender
  exact ⟨seg, tree, form, hseg, hannotated, hparse, hform, hbindings.length_eq, hrender⟩

end ElispLift.Let
