import ElispLift.Proofs.Cond.Layouts
import ElispLift.Proofs.StraightLine.Rendering

/-!
# Rendering clauses

A form of clauses is rendered with its clauses below one another, at the column behind its name,
each with its condition and its value on one line.
-/

namespace ElispLift.Cond

open StraightLine Rendering

variable {render : Node → Rendering Unit} {node first body : Node} {texts : List String}
  {indent s t : String} {column : Nat} {nodes : List Node} {e : Expr} {c : Clause}
  {cs : List Clause}

/-- A text that is captured and then written, or what depends on it. -/
theorem lays_capture {x : Rendering Unit} {f : String → Rendering Unit} (hx : Lays indent s x)
    (hf : Lays indent t (f s)) : Lays indent t (capture x >>= f) := by
  refine ⟨fun p hp hindent => ?_⟩
  have hopens : Opens indent s x := by
    refine ⟨fun p hp hindent htext _ => ?_⟩
    obtain ⟨values, filled, hrun⟩ := hx.run_eq p hp hindent
    exact ⟨values, filled, by rw [hrun, htext, String.empty_append]⟩
  obtain ⟨values, filled, hrun⟩ := hopens.capture p hp hindent
  obtain ⟨values', filled', hrun'⟩ :=
    hf.run_eq { p with values, slots := p.slots ++ filled } hp hindent
  refine ⟨values', filled ++ filled', ?_⟩
  rw [run_bind hrun, hrun', Array.append_assoc]

/-- A clause is aligned behind its parenthesis. -/
theorem clause_eq (hfirst : node.child? 0 = some first) (hbody : node.child? 1 = some body) :
    clause render node 0 1 = (do
      write "("
      (do
        align
        (do
          (if first.isKind .condition then child render first 0 else write "t")
          capture (render body) >>= fun text => do
            if !text.isEmpty then
              (if body.lines.length > 1 then newline else write " ")
              write text)
        closeForm)) := by
  have hbehind : ∀ text : String, (if (!text.isEmpty) = true then
      if body.lines.length > 1 then (do newline; write text; closeForm)
      else (do write " "; write text; closeForm)
    else closeForm) = (do
      (do
        if !text.isEmpty then
          (if body.lines.length > 1 then newline else write " ")
          write text)
      closeForm) := by
    intro text
    split
    · split <;> simp
    · rfl
  rw [clause, hfirst, hbody]
  simp only [bind_assoc]
  refine congrArg _ (funext fun _ => congrArg _ (funext fun _ => ?_))
  split <;> exact congrArg _ (funext fun _ => congrArg _ (funext hbehind))

/-- A clause with a value of one line. -/
theorem laysAt_clause (hfirst : node.child? 0 = some first) (hbody : node.child? 1 = some body)
    (hs : Writes false s (if first.isKind .condition then child render first 0 else write "t"))
    (ht : ∀ indent, Lays indent t (render body)) (hne : t.isEmpty = false)
    (hlines : body.lines.length ≤ 1) :
    LaysAt column (Text.spaces column) ("(" ++ s ++ " " ++ t ++ ")")
      (tree render .clause node) := by
  have hvalue : ∀ indent, Lays indent (" " ++ t) (capture (render body) >>= fun text => do
      if !text.isEmpty then
        (if body.lines.length > 1 then newline else write " ")
        write text) := by
    intro indent
    refine lays_capture (ht indent) ?_
    rw [hne, if_neg (Nat.not_lt.2 hlines)]
    exact ((Writes.write " ").lays indent).append ((Writes.write t).lays indent)
  have hline : '\n' ∉ ("(" : String).toList := by decide
  have hinner : LaysAt (column + 1) (Text.spaces (column + 1)) (s ++ (" " ++ t)) _ :=
    ((hs.lays _).append (hvalue _)).at _
  have hlays := (((Writes.write "(").lays (Text.spaces column)).at column).append hline
    hinner.aligned
  change LaysAt column _ _ (clause render node 0 1)
  rw [clause_eq hfirst hbody]
  simpa only [String.append_assoc] using hlays

/-- With enough levels, a node is rendered as `s` from any column on. -/
def PrintsAt (s : String) (node : Node) : Prop :=
  ∀ levels column, node.size ≤ levels →
    LaysAt column (Text.spaces column) s (Rendering.node levels node)

theorem printsAt_of_tree {kind : Nonterminal} {children : List Node}
    (h : ∀ levels column, Node.sizeSum children ≤ levels → LaysAt column (Text.spaces column) s
      (Rendering.tree (Rendering.node levels) kind (.plain kind children))) :
    PrintsAt s (.plain kind children) := by
  intro levels column hlevels
  have hsize : Node.sizeSum children + 1 ≤ levels := hlevels
  obtain ⟨levels, rfl⟩ := Nat.exists_eq_add_of_le' (show 1 ≤ levels by omega)
  exact h levels column (by omega)

theorem laysAt_of_printsAt (h : List.Forall₂ (fun node s => PrintsAt s node) nodes texts)
    {levels : Nat} (hlevels : Node.sizeSum nodes ≤ levels) :
    List.Forall₂ (fun node s => LaysAt column (Text.spaces column) s (Rendering.node levels node))
      nodes texts := by
  induction h with
  | nil => exact .nil
  | cons hnode _ ih =>
    rw [Node.sizeSum] at hlevels
    exact .cons (hnode levels column (by omega)) (ih (by omega))

/-- The value of a clause is a body of one line. -/
theorem lays_value {w : Node} {levels : Nat} (hwf : e.WellFormed) (hw : e.Shows w)
    (hlevels : (Node.plain .body [.plain .exprs [kept w]]).size ≤ levels) (indent : String) :
    Lays indent e.lisp (Rendering.node levels (.plain .body [.plain .exprs [kept w]])) := by
  have hline : PrintLines indent [kept w] [e.lisp] :=
    .cons ((prints_statement (prints_expr e hwf hw)).line indent) .nil
  have hfilter : [e.lisp].filter (!·.isEmpty) = [e.lisp] := by
    simp [String.isEmpty_eq_false_iff.2 (lisp_ne_empty e hwf)]
  have hlays := lays_body_of_lines hline hlevels
  rwa [hfilter, String.intercalate_singleton] at hlays

theorem Clause.Shows.printsAt (hwf : c.WellFormed) (h : c.Shows node) : PrintsAt c.lisp node := by
  obtain ⟨v, w, g, r, k, hv, -, hw, -, -, rfl⟩ := h
  refine printsAt_of_tree fun levels column hlevels => ?_
  simp only [Node.sizeSum, Node.plain, Node.size] at hlevels
  have hcondition : Writes false c.condition.lisp (Rendering.node levels v) :=
    prints_expr c.condition hwf.1 hv levels (by omega)
  exact laysAt_clause rfl rfl hcondition
    (lays_value hwf.2 hw (by simp only [Node.sizeSum, Node.plain, Node.size]; omega))
    (String.isEmpty_eq_false_iff.2 (lisp_ne_empty _ hwf.2)) (Nat.le_refl 1)

theorem ShowsLast.printsAt (hwf : e.WellFormed) (h : ShowsLast e node) :
    PrintsAt ("(t " ++ e.lisp ++ ")") node := by
  obtain ⟨v, r, hv, -, rfl⟩ := h
  refine printsAt_of_tree fun levels column hlevels => ?_
  simp only [Node.sizeSum, Node.plain, Node.size] at hlevels
  exact laysAt_clause (s := "t") rfl rfl (.write "t")
    (lays_value hwf hv (by simp only [Node.sizeSum, Node.plain, Node.size]; omega))
    (String.isEmpty_eq_false_iff.2 (lisp_ne_empty _ hwf)) (Nat.le_refl 1)

/-- A clause is rendered the same behind its label. -/
theorem printsAt_labeled {i : Instruction} (h : PrintsAt s node) :
    PrintsAt s (.plain .labeledClause [.token i, node]) := by
  refine printsAt_of_tree fun levels column hlevels => ?_
  simp only [Node.sizeSum, Node.size] at hlevels
  exact h levels column (by omega)

theorem ShowRest.printsAt (hwf : ∀ c ∈ cs, c.WellFormed) (he : e.WellFormed)
    (h : ShowRest e cs nodes) : List.Forall₂ (fun node s => PrintsAt s node) nodes
      (cs.map (·.lisp) ++ ["(t " ++ e.lisp ++ ")"]) := by
  induction h with
  | last h => exact .cons (printsAt_labeled (h.printsAt he)) .nil
  | more h _ ih =>
    exact .cons (printsAt_labeled (h.printsAt (hwf _ (by simp))))
      (ih fun c hc => hwf c (List.mem_cons_of_mem _ hc))

/-- The clauses are aligned behind the name of the form. -/
theorem opens_cond (h : List.Forall₂ (fun node s => LaysAt (indent.utf8ByteSize + 6)
      (Text.spaces (indent.utf8ByteSize + 6)) s (render node)) (clauses node) texts) :
    Opens indent ("(cond " ++
      ("\n" ++ Text.spaces (indent.utf8ByteSize + 6)).intercalate texts ++ ")")
      (tree render .condForm node) := by
  have hline : '\n' ∉ ("cond " : String).toList := by decide
  have hopens := opens_form
    ((((Writes.write "cond ").lays indent).at _).append hline (laysAt_eachOnLine h).aligned)
  rw [show "(cond " = "(" ++ "cond " from rfl, String.append_assoc, String.append_assoc]
  exact hopens

/-- The form is rendered as its text. -/
theorem printsLine_form {f : Form} (hwf : f.WellFormed) (h : f.Shows node) (indent : String) :
    PrintsLine indent (f.lisp indent) node := by
  obtain ⟨c, cs, first, rest, hclauses, hfirst, hrest, rfl⟩ := h
  obtain ⟨-, hwf, -, hother⟩ := hwf
  rw [hclauses] at hwf
  have hall : List.Forall₂ (fun node s => PrintsAt s node) (first :: rest)
      (f.clauses.map (·.lisp) ++ ["(t " ++ f.otherwise.lisp ++ ")"]) := by
    rw [hclauses]
    exact .cons (hfirst.printsAt (hwf c (by simp)))
      (hrest.printsAt (fun c' hc' => hwf c' (List.mem_cons_of_mem _ hc')) hother)
  have hnodes : clauses (.plain .condForm [first, .plain .labeledClauses rest]) =
      first :: rest := by
    obtain ⟨v, w, g, r, k, -, -, -, -, -, rfl⟩ := hfirst
    exact congrArg _ (List.append_nil rest)
  refine printsLine_of_tree fun levels hlevels => opens_cond ?_
  simp only [Node.sizeSum, Node.plain, Node.size] at hlevels
  rw [hnodes]
  exact laysAt_of_printsAt hall (by rw [Node.sizeSum]; omega)

/-- The routine is rendered as the form. -/
theorem render_routine {f : Form} {l : Parts} (hwf : f.WellFormed) (h : f.Shows l.form)
    (indent : String) :
    l.routine.render indent = .ok ⟨Text.spaces indent.utf8ByteSize ++ f.lisp indent, []⟩ := by
  have hline := printsLine_kept (printsLine_form hwf h indent)
  have hlabel : PrintsLine indent "" (.plain .optLabel []) :=
    (prints_nothing rfl fun _ _ => rfl).line indent
  have hreturn : PrintsLine indent "" (.plain .optReturn []) :=
    (prints_nothing rfl fun _ _ => rfl).line indent
  have hlines : PrintLines indent ([_] ++ [_, _]) [_, "", ""] :=
    .cons hline (.cons hlabel (.cons hreturn .nil))
  have hrender := render_body hlines
  have hfilter : [f.lisp indent, "", ""].filter (!·.isEmpty) = [f.lisp indent] := by
    simp [Form.lisp]
  rw [hfilter, String.intercalate_singleton] at hrender
  exact hrender

end ElispLift.Cond
