import ElispLift.Proofs.Cond.Rendering
import ElispLift.Proofs.Cond.Routes

/-!
# The round trip of clauses

The code of a form of clauses gets one marker in front of each label. It is parsed as a routine with
one form that holds all clauses in their order, and rendered as the text of the form.
-/

namespace ElispLift.Cond

open StraightLine Segmentation

variable {f : Form} {is : List Instruction} {c : Clause} {cs : List Clause} {e : Expr}
  {node : Node} {nodes : List Node} {kind : Nonterminal} {l : Parts}

/-- The code of a clause, and the marker that stands in front of the label behind it. -/
def Clause.part (c : Clause) : List (OpKind × Option Operand) :=
  c.condition.code ++ (.fixed .gotoIfNil, some (.symbol c.label)) ::
    (c.value.code ++ [(.fixed .ret, none), (.fixed .comeFrom, none)])

/-- What is read of each clause and of the value at the end. -/
def Form.parts (f : Form) : List (List (OpKind × Option Operand)) :=
  f.clauses.map (·.part) ++ [f.otherwise.code ++ [(.fixed .ret, none)]]

/-! ### Nodes -/

/-- A clause holds no other node of a clause, and its instructions spell its part. -/
theorem Clause.Shows.nodes_eq (hwf : c.WellFormed) (h : c.Shows node) :
    nodesOf .clause node = [node] ∧ nodesOf .condForm node = [] ∧
      List.Forall₂ Spells node.tokens c.part := by
  obtain ⟨v, w, g, r, k, hv, hg, hw, hr, hk, rfl⟩ := h
  have hcondition := codes_expr c.condition hwf.1 hv
  have hvalue := codes_expr c.value hwf.2 hw
  have hnone : ∀ kind, isTerm kind = false → nodesOf kind v = [] ∧ nodesOf kind w = [] := by
    intro kind hkind
    exact ⟨by simpa using hcondition.nodes_eq kind hkind, by simpa using hvalue.nodes_eq kind hkind⟩
  obtain ⟨hv, hw⟩ := hnone .clause rfl
  obtain ⟨hv', hw'⟩ := hnone .condForm rfl
  refine ⟨by simp [kept, hv, hw], by simp [kept, hv', hw'], ?_⟩
  have htokens : ∀ tree, Node.tokensOf [tree] = tree.tokens := fun tree => List.append_nil _
  have hends : List.Forall₂ Spells [r, k] [(.fixed .ret, none), (.fixed .comeFrom, none)] :=
    .cons ⟨hr, by simp⟩ (.cons ⟨hk, by simp⟩ .nil)
  have hspells := List.rel_append (htokens v ▸ hcondition.spells)
    (List.Forall₂.cons hg (List.rel_append (htokens w ▸ hvalue.spells) hends))
  rw [Clause.part]
  simpa [Node.plain, Node.tokens, Node.tokensOf, kept] using hspells

theorem ShowsLast.nodes_eq (hwf : e.WellFormed) (h : ShowsLast e node) :
    nodesOf .clause node = [node] ∧ nodesOf .condForm node = [] ∧
      List.Forall₂ Spells node.tokens (e.code ++ [(.fixed .ret, none)]) := by
  obtain ⟨v, r, hv, hr, rfl⟩ := h
  have hvalue := codes_expr e hwf hv
  have hclauses : nodesOf .clause v = [] := by simpa using hvalue.nodes_eq .clause rfl
  have hforms : nodesOf .condForm v = [] := by simpa using hvalue.nodes_eq .condForm rfl
  refine ⟨by simp [kept, hclauses], by simp [kept, hforms], ?_⟩
  have htokens : Node.tokensOf [v] = v.tokens := List.append_nil _
  have hspells := List.rel_append (htokens ▸ hvalue.spells)
    (List.Forall₂.cons (show Spells r (.fixed .ret, none) from ⟨hr, by simp⟩) .nil)
  simpa [Node.plain, Node.tokens, Node.tokensOf, kept] using hspells

theorem ShowRest.nodes_eq (hwf : ∀ c ∈ cs, c.WellFormed) (he : e.WellFormed)
    (h : ShowRest e cs nodes) : nodesOfAll .condForm nodes = [] ∧
      List.Forall₂ (fun node part => List.Forall₂ Spells node.tokens part)
        (nodesOfAll .clause nodes) (cs.map (·.part) ++ [e.code ++ [(.fixed .ret, none)]]) := by
  induction h with
  | last h =>
    obtain ⟨hclause, hform, hspells⟩ := h.nodes_eq he
    exact ⟨by simp [hform], by simpa [hclause] using hspells⟩
  | more h _ ih =>
    obtain ⟨hclause, hform, hspells⟩ := h.nodes_eq (hwf _ (by simp))
    obtain ⟨hforms, hrest⟩ := ih fun c hc => hwf c (List.mem_cons_of_mem _ hc)
    exact ⟨by simp [hform, hforms], by simpa [hclause] using ⟨hspells, hrest⟩⟩

/-- The routine holds the form, and the form holds the clauses. -/
theorem nodesOf_form (hwf : f.WellFormed) (h : f.Shows l.form) :
    nodesOf .condForm l.routine = [l.form] ∧
      List.Forall₂ (fun node part => List.Forall₂ Spells node.tokens part)
        (nodesOf .clause l.form) f.parts := by
  obtain ⟨c, cs, first, rest, hclauses, hfirst, hrest, hform⟩ := h
  obtain ⟨-, hwf, -, hother⟩ := hwf
  rw [hclauses] at hwf
  obtain ⟨hclause, hnone, hspells⟩ := hfirst.nodes_eq (hwf c (by simp))
  obtain ⟨hnone', hall⟩ := hrest.nodes_eq (fun c hc => hwf c (List.mem_cons_of_mem _ hc)) hother
  constructor
  · rw [Parts.routine, hform]
    simp [kept, hnone, hnone']
  · rw [hform, Form.parts, hclauses]
    simpa [hclause] using ⟨hspells, hall⟩

/-! ### Forms -/

/-- Instructions that spell the code of a form are parsed, with their markers, as a routine with one
form. It has one node for each of the clauses and for the value at the end, in their order, over
just their code, and the routine is rendered as the text of the form. -/
theorem clauses_round_trip (hwf : f.WellFormed) (h : Compiled f is) (indent : String) :
    ∃ seg tree form, ofInstructions is = .ok seg ∧
      parse .fnBody (Grammar.arityRules seg.annotated) seg.annotated = .ok tree ∧
      nodesOf .condForm tree = [form] ∧
      List.Forall₂ (fun node part => List.Forall₂ Spells node.tokens part)
        (nodesOf .clause form) f.parts ∧
      tree.render indent = .ok ⟨Text.spaces indent.utf8ByteSize ++ f.lisp indent, []⟩ := by
  obtain ⟨seg, hseg⟩ := (linked hwf h).exists_segmentation
  obtain ⟨st, l, hl, hshows⟩ := exists_layout hwf h hseg
  obtain ⟨hform, hclauses⟩ := nodesOf_form hwf hshows
  exact ⟨seg, l.routine, l.form, hseg, parse_layout hl (countsBounded hwf h hseg), hform, hclauses,
    render_routine hwf hshows indent⟩

/-- A number is compared with two others, and a name is returned. -/
def compareCode : List Instruction :=
  [⟨.fixed .varref, some (.symbol "x"), 0, none⟩, ⟨.fixed .varref, some (.symbol "low"), 1, none⟩,
    ⟨.fixed .lss, none, 2, none⟩, ⟨.fixed .gotoIfNil, some (.symbol "1"), 3, none⟩,
    ⟨.fixed .constant, some (.symbol "below"), 6, none⟩, ⟨.fixed .ret, none, 7, none⟩,
    ⟨.fixed .label, some (.symbol "1"), 8, none⟩, ⟨.fixed .varref, some (.symbol "x"), 8, none⟩,
    ⟨.fixed .varref, some (.symbol "high"), 9, none⟩, ⟨.fixed .gtr, none, 10, none⟩,
    ⟨.fixed .gotoIfNil, some (.symbol "2"), 11, none⟩,
    ⟨.fixed .constant, some (.symbol "above"), 14, none⟩, ⟨.fixed .ret, none, 15, none⟩,
    ⟨.fixed .label, some (.symbol "2"), 16, none⟩,
    ⟨.fixed .constant, some (.symbol "between"), 16, none⟩, ⟨.fixed .ret, none, 17, none⟩]

def compare : Form where
  clauses :=
    [⟨.apply .lss [.reference (.symbol "x"), .reference (.symbol "low")],
        .constant (.symbol "below"), "1"⟩,
      ⟨.apply .gtr [.reference (.symbol "x"), .reference (.symbol "high")],
        .constant (.symbol "above"), "2"⟩]
  otherwise := .constant (.symbol "between")

theorem wellFormed_compare : compare.WellFormed := by
  have hlss : arity? Opcode.lss.opClass = some 2 := rfl
  have hgtr : arity? Opcode.gtr.opClass = some 2 := rfl
  have htext : ∀ name ∈ ["x", "low", "high", "below", "above", "between"],
      (Operand.symbol name).toText ≠ "" := by decide
  exact ⟨by simp [compare], List.forall_mem_cons.2
    ⟨⟨⟨hlss, htext _ (by simp), htext _ (by simp), trivial⟩, htext _ (by simp)⟩,
      List.forall_mem_cons.2
        ⟨⟨⟨hgtr, htext _ (by simp), htext _ (by simp), trivial⟩, htext _ (by simp)⟩, by simp⟩⟩,
    by decide, htext _ (by simp)⟩

theorem compiled_compare : Compiled compare compareCode where
  spells := by
    simp [compare, compareCode, Form.code, Clause.code, Expr.code, Expr.codeOf, Spells]
  ordered := by decide

theorem clauses_round_trip_compare :
    ∃ seg tree form, ofInstructions compareCode = .ok seg ∧
      parse .fnBody (Grammar.arityRules seg.annotated) seg.annotated = .ok tree ∧
      nodesOf .condForm tree = [form] ∧ (nodesOf .clause form).length = 3 ∧
      tree.render "" = .ok ⟨"(cond ((< x low) 'below)\n      ((> x high) 'above)\n" ++
        "      (t 'between))", []⟩ := by
  have htext : Text.spaces "".utf8ByteSize ++ compare.lisp "" =
      "(cond ((< x low) 'below)\n      ((> x high) 'above)\n" ++ "      (t 'between))" := rfl
  obtain ⟨seg, tree, form, hseg, hparse, hform, hclauses, hrender⟩ :=
    clauses_round_trip wellFormed_compare compiled_compare ""
  rw [htext] at hrender
  exact ⟨seg, tree, form, hseg, hparse, hform, hclauses.length_eq, hrender⟩

end ElispLift.Cond
