import ElispLift.Proofs.Loop.Form

/-!
# Layouts of loops

Where the parts of a form stand among its instructions. A single assignment in front of the loop
ends where the loop begins and is an expression over all that stands there, so it is the loop's
start value. No other list of statements is an expression.
-/

namespace ElispLift.Loop

open StraightLine Segmentation

/-- The start value of the loop of a form, and the statements in front of it. -/
inductive Form.Opening (f : Form) : Option Node → List Node → Prop where
  | started {name : Operand} {value : Expr} {i : Instruction} {tree : Node}
      (h : f.statements = [.setq name value]) (hi : Spells i (.fixed .varset, some name))
      (htree : value.Shows tree) :
      Opening f (some (.plain .expr [.plain .setqForm [tree, .token i]])) []
  | behind {nodes : List Node} (h : f.isStarted = false)
      (hnodes : List.Forall₂ Statement.Shows f.statements nodes) : Opening f none nodes

/-- The parts are those of the form. -/
structure Form.Shows (f : Form) (l : Parts) : Prop where
  opening : f.Opening l.start l.statements
  condition : f.condition.Shows l.test.tree
  body : List.Forall₂ Statement.Shows f.body l.body

namespace Pieces

variable (c : Pieces)

/-- Where the condition is tested. -/
def fork : Nat := c.front.length + 2 + c.test.length

/-- Where the body ends. -/
def turn : Nat := c.fork + 1 + c.body.length

/-- What stands from the end of the body on. -/
theorem getElem?_turn (arrive leave access : Instruction) (n : Nat) :
    (c.marked arrive leave access)[c.turn + n]? = [c.back, leave, c.exit, access, c.ret][n]? := by
  have hsplit : c.marked arrive leave access =
      (c.front ++ arrive :: c.entry :: (c.test ++ c.branch :: c.body)) ++
        [c.back, leave, c.exit, access, c.ret] := by simp [marked]
  have hlength :
      c.turn = (c.front ++ arrive :: c.entry :: (c.test ++ c.branch :: c.body)).length := by
    simp [turn, fork]
    omega
  rw [hsplit, hlength, List.getElem?_append_right (Nat.le_add_right _ _), Nat.add_sub_cancel_left]

theorem length_marked (arrive leave access : Instruction) :
    (c.marked arrive leave access).length = c.turn + 5 := by
  simp [marked, turn, fork]
  omega

end Pieces

variable {f : Form} {c : Pieces} {is tokens : List Instruction}
  {arrive leave access i : Instruction}
  {seg : Segmentation} {st : Nat → State} {head e : Nat} {nodes : List Node} {start node : Node}
  {s : Statement}

/-! ### Openings -/

/-- A statement whose node is an assignment is one. -/
theorem exists_setq_of_shows {tree : Node} (h : s.Shows (assignment tree i)) : ∃ name value,
    s = .setq name value ∧ Spells i (.fixed .varset, some name) ∧ value.Shows tree := by
  cases s with
  | setq name value =>
    obtain ⟨j, tree', hj, htree, hnode⟩ := h
    cases hnode
    exact ⟨name, value, rfl, hj, htree⟩
  | discard value =>
    obtain ⟨j, tree', -, -, hnode⟩ := h
    cases hnode

theorem isStarted_eq_true (h : f.isStarted = true) :
    ∃ name value, f.statements = [.setq name value] := by
  unfold Form.isStarted at h
  split at h
  next name value hstatements => exact ⟨name, value, hstatements⟩
  next => cases h

/-- A single assignment is an expression. -/
theorem readsExpr_of_assignment {tree : Node} (hclear : (st head).pending = [])
    (hlisted : Listed (ReadsLine tokens st) 0 head [assignment tree i]) :
    ReadsExpr tokens st 0 head (.plain .expr [.plain .setqForm [tree, .token i]]) := by
  have hline : ReadsLine tokens st 0 head (assignment tree i) := by
    generalize hnodes : [assignment tree i] = nodes at hlisted
    cases hlisted with
    | one h => exact (List.singleton_inj.1 hnodes) ▸ h
    | more hbefore h => exact absurd hnodes (by simp [List.singleton_eq_append_iff, hbefore.ne_nil])
  generalize hassigns : assignment tree i = node at hline
  cases hline with
  | @ended m v j node he hj hv hfirst hnode =>
    subst hassigns
    unfold statement? at hnode
    split at hnode
    next hkind =>
      obtain ⟨rfl, rfl⟩ : v.tree = tree ∧ j = i := by simpa [assignment, Node.plain] using hnode
      exact .inr ⟨_, ⟨m, v, j, he, hj, hkind, hv, hfirst, rfl⟩, rfl⟩
    next => simp [assignment, discarded, Node.plain] at hnode
    next => cases hnode
  | kept he hend hv hfirst =>
    rw [hclear] at hv
    cases hv

section

variable (ht : Segmented tokens st) (hclear : (st head).pending = [])

include ht hclear

/-- Statements are an expression only if they are a single assignment. -/
theorem exists_assignment (hlisted : Listed (ReadsLine tokens st) 0 head nodes)
    (h : ReadsExpr tokens st 0 head start) : ∃ tree i,
      start = .plain .expr [.plain .setqForm [tree, .token i]] ∧ nodes = [assignment tree i] := by
  have hsetq : ∃ inner, start = .plain .expr [inner] ∧ ReadsSetq tokens st 0 head inner := by
    rcases h with ⟨m, op, args, i, rfl, htakes, -⟩ | ⟨inner, hinner, rfl⟩
    · obtain ⟨rest, -, hafter⟩ := ht.takes_step htakes
      rw [hafter] at hclear
      cases hclear
    · exact ⟨inner, rfl, hinner⟩
  obtain ⟨_, rfl, m, v, i, rfl, hi, hkind, hv, hfirst, rfl⟩ := hsetq
  have hline : ReadsLine tokens st 0 (m + 1) (assignment v.tree i) :=
    .ended rfl hi hv hfirst (by rw [statement?, hkind])
  refine ⟨v.tree, i, rfl, ?_⟩
  cases hlisted with
  | one h => rw [(hline.unique ht h).2]
  | more hbefore h =>
    obtain ⟨rfl, -⟩ := hline.unique ht h
    exact (Nat.lt_irrefl _ (hbefore.first_lt fun _ _ _ h => (h.first_lt ht).1)).elim

/-- A single assignment in front of the loop is its start value. -/
theorem exists_opening (hstatements : List.Forall₂ Statement.Shows f.statements nodes)
    (hlisted : head = 0 ∧ nodes = [] ∨ Listed (ReadsLine tokens st) 0 head nodes) :
    ∃ start statements, f.Opening start statements ∧ ∀ l : Parts, l.head = head →
      l.start = start → l.statements = statements → Opens tokens st l := by
  by_cases hread : ∃ start, ReadsExpr tokens st 0 head start
  · obtain ⟨start, hread⟩ := hread
    have hlt : 0 < head := (hread.first_lt ht).1
    obtain ⟨tree, i, rfl, rfl⟩ :=
      exists_assignment ht hclear (hlisted.resolve_left fun h => by omega) hread
    obtain ⟨s, hs, hsingle⟩ : ∃ s, Statement.Shows s (assignment tree i) ∧ f.statements = [s] := by
      obtain ⟨s, rest, hs, hrest, hsplit⟩ := List.forall₂_cons_right_iff.1 hstatements
      rw [List.forall₂_nil_right_iff.1 hrest] at hsplit
      exact ⟨s, hs, hsplit⟩
    obtain ⟨name, value, rfl, hi, htree⟩ := exists_setq_of_shows hs
    exact ⟨_, _, .started hsingle hi htree, fun l hhead hstart hnone =>
      .started hstart (hhead ▸ hread) hnone⟩
  · have hplain : f.isStarted = false := by
      refine Bool.eq_false_iff.2 fun hstarted => hread ?_
      obtain ⟨name, value, hsingle⟩ := isStarted_eq_true hstarted
      rw [hsingle] at hstatements
      obtain ⟨node, rest, ⟨i, tree, -, -, rfl⟩, hrest, rfl⟩ :=
        List.forall₂_cons_left_iff.1 hstatements
      rw [List.forall₂_nil_left_iff.1 hrest] at hlisted
      exact ⟨_, readsExpr_of_assignment hclear (hlisted.resolve_left (by simp))⟩
    refine ⟨none, nodes, .behind hplain hstatements, fun l hhead hstart hnodes => ?_⟩
    rcases hlisted with ⟨rfl, rfl⟩ | hlisted
    · exact .first hstart hhead hnodes
    · exact .behind hstart (fun start h => hread ⟨start, hhead ▸ h⟩) (hhead ▸ hnodes ▸ hlisted)

end

/-! ### Positions -/

section

variable (hwf : f.WellFormed) (h : c.Spell f) (harrive : arrive.kind = .fixed .comeFrom)
  (hleave : leave.kind = .fixed .comeFrom) (haccess : access.kind = .fixed .stackAccess)

include hwf h harrive hleave haccess

/-- Every segment ends with nothing on the stack, but for the value that is tested. -/
theorem Pieces.Spell.walk : Walk 0 (c.marked arrive leave access) .start .start := by
  have hcontrol : ∀ {i : Instruction} {op : Opcode}, i.kind = .fixed op →
      isStep (.fixed op) = false → isStep i.kind = false := fun hkind hop => hkind ▸ hop
  obtain ⟨nodes, -, hfront⟩ := run_statements f.statements 0 [] hwf.statements h.front
  obtain ⟨tree, -, htest⟩ :=
    run_expr f.condition (0 + c.front.length + 1 + 1) [] [] hwf.condition h.test
  obtain ⟨nodes', -, hbody⟩ := run_statements f.body
    (0 + c.front.length + 1 + 1 + c.test.length + 1) [] hwf.body h.body
  have hends : ∀ p, Walk p [c.back, leave, c.exit, access, c.ret] ⟨[], nodes'⟩ .start := fun p =>
    .cons (.restart (hcontrol h.back.1 rfl) (Nat.zero_le 1))
      (.cons (.restart (hcontrol hleave rfl) (Nat.zero_le 1))
        (.cons (.restart (hcontrol h.exit.1 rfl) (Nat.zero_le 1))
          (.cons (.restart (hcontrol haccess rfl) (Nat.zero_le 1))
            (.cons (.restart (hcontrol h.ret rfl) (Nat.zero_le 1)) (.nil _ _)))))
  exact (Walk.of_run hfront).append
    (.cons (.restart (hcontrol harrive rfl) (Nat.zero_le 1))
      (.cons (.restart (hcontrol h.entry.1 rfl) (Nat.zero_le 1))
        ((Walk.of_run htest).append (.cons (.restart (hcontrol h.branch.1 rfl) (Nat.le_refl 1))
          ((Walk.of_run hbody).append (hends _))))))

omit haccess in
/-- Statements begin behind jumps, labels and markers for jumps. -/
theorem Pieces.Spell.opens {m : Nat} {i j : Instruction}
    (hi : (c.marked arrive leave access)[m]? = some i) (hcontrol : isStep i.kind = false)
    (hj : (c.marked arrive leave access)[m + 1]? = some j) (hstep : isStep j.kind = true) :
    (i.isJump || Context.isAnyOf i Context.assignmentStarts) = true := by
  obtain ⟨hfront, htest, hbody⟩ := h.steps hwf
  have hsplit : c.marked arrive leave access = (c.front ++ arrive :: c.entry ::
      (c.test ++ c.branch :: (c.body ++ [c.back, leave, c.exit]))) ++ [access, c.ret] := by
    simp [Pieces.marked]
  rw [hsplit] at hi hj
  generalize hpart : c.front ++ arrive :: c.entry ::
    (c.test ++ c.branch :: (c.body ++ [c.back, leave, c.exit])) = part at hi hj
  rcases Nat.lt_or_ge m part.length with hlt | hge
  · rw [List.getElem?_append_left hlt] at hi
    have hmem := List.mem_of_getElem? hi
    obtain ⟨op, hop, hkind⟩ : ∃ op ∈ [Opcode.comeFrom, .label, .gotoIfNilElsePop, .goto],
        i.kind = .fixed op := by
      simp only [← hpart, List.mem_append, List.mem_cons, List.not_mem_nil, or_false] at hmem
      rcases hmem with hmem | rfl | rfl | hmem | rfl | hmem | rfl | rfl | rfl
      · rw [hfront i hmem] at hcontrol
        cases hcontrol
      · exact ⟨_, by simp, harrive⟩
      · exact ⟨_, by simp, h.entry.1⟩
      · rw [htest i hmem] at hcontrol
        cases hcontrol
      · exact ⟨_, by simp, h.branch.1⟩
      · rw [hbody i hmem] at hcontrol
        cases hcontrol
      · exact ⟨_, by simp, h.back.1⟩
      · exact ⟨_, by simp, hleave⟩
      · exact ⟨_, by simp, h.exit.1⟩
    have hopens : ∀ op ∈ [Opcode.comeFrom, .label, .gotoIfNilElsePop, .goto],
        ((OpKind.fixed op).isJump ||
          Context.assignmentStarts.any fun o => decide (OpKind.fixed op = .fixed o)) = true := by
      decide
    change (i.kind.isJump || Context.assignmentStarts.any fun o =>
      decide (i.kind = .fixed o)) = true
    rw [hkind]
    exact hopens op hop
  · -- Behind the marker for a value there is the return.
    obtain ⟨k, rfl⟩ := Nat.exists_eq_add_of_le hge
    rw [List.getElem?_append_right (by omega)] at hj
    rw [show part.length + k + 1 - part.length = k + 1 by omega, List.getElem?_cons_succ] at hj
    obtain rfl := List.mem_singleton.1 (List.mem_of_getElem? hj)
    rw [h.ret] at hstep
    cases hstep

/-- The jump behind the condition leads behind the body. -/
theorem Pieces.Spell.misaligned
    (hpairwise : (c.marked arrive leave access).Pairwise fun i j => i.offset ≤ j.offset)
    (hlt : c.back.offset < c.exit.offset) (he : e ≤ c.turn) :
    Context.aligned ⟨(c.marked arrive leave access).toArray⟩ (some (.token c.branch)) e =
      false := by
  obtain ⟨hfront, htest, hbody⟩ := h.steps hwf
  refine StraightLine.aligned_eq_false c.exit.offset (fun k hk hlabel htext => ?_) fun j hj => ?_
  · have hnot : ∀ {part : List Instruction}, (∀ i ∈ part, isStep i.kind = true) → k ∉ part := by
      intro part hpart hmem
      rw [(signs_of_isStep (hpart k hmem)).1] at hlabel
      cases hlabel
    have hother : ∀ {op : Opcode}, op ≠ .label → k.kind ≠ .fixed op := fun hne hkind =>
      hne (OpKind.fixed.inj (hkind.symm.trans (Instruction.isOp_iff.1 hlabel)))
    simp only [Pieces.marked, List.mem_append, List.mem_cons, List.not_mem_nil, or_false] at hk
    rcases hk with hk | rfl | rfl | hk | rfl | hk | rfl | rfl | rfl | rfl | rfl
    · exact (hnot hfront hk).elim
    · exact (hother (by decide) harrive).elim
    · rw [(labelText_of_spells h.entry).2, (labelText_of_spells h.branch).2] at htext
      exact (hwf.entry_ne_exit (Option.some.inj htext)).elim
    · exact (hnot htest hk).elim
    · exact (hother (by decide) h.branch.1).elim
    · exact (hnot hbody hk).elim
    · exact (hother (by decide) h.back.1).elim
    · exact (hother (by decide) hleave).elim
    · exact Nat.le_refl _
    · exact (hother (by decide) haccess).elim
    · exact (hother (by decide) h.ret).elim
  · refine Nat.lt_of_le_of_lt ?_ hlt
    obtain ⟨hturn, hback⟩ := List.getElem?_eq_some_iff.1 (c.getElem?_turn arrive leave access 0)
    obtain ⟨he', rfl⟩ := List.getElem?_eq_some_iff.1 hj
    rw [← hback]
    rcases Nat.lt_or_eq_of_le he with hlt | rfl
    · exact List.pairwise_iff_getElem.1 hpairwise _ _ he' hturn hlt
    · exact Nat.le_refl _

/-- The marked instructions are laid out as the form. -/
theorem Pieces.Spell.exists_layout
    (hpairwise : (c.marked arrive leave access).Pairwise fun i j => i.offset ≤ j.offset)
    (hlt : c.back.offset < c.exit.offset) :
    ∃ st l, Layout (c.marked arrive leave access) st l ∧ f.Shows l := by
  obtain ⟨st, ht, hend⟩ := (h.walk hwf harrive hleave haccess).exists_segmented
  have hturn := c.getElem?_turn arrive leave access
  -- The statements in front of the loop.
  obtain ⟨nodes, hnodes, hclear, hfront⟩ := listed_of_spells ht hwf.statements h.front
    (List.nil_append _).symm ht.start
  obtain ⟨start, statements, hopening, hopens⟩ :=
    exists_opening (by simpa using ht) (by simpa using hclear) hnodes (by simpa using hfront)
  have harriving : (c.marked arrive leave access)[c.front.length]? = some arrive := by
    simp [Pieces.marked]
  have hentering : (c.marked arrive leave access)[c.front.length + 1]? = some c.entry := by
    simp [Pieces.marked]
  have hstart := ((ht.move _ c.entry hentering).of_control (by rw [h.entry.1]; rfl)).2
  -- The condition.
  have hcondition : c.marked arrive leave access = (c.front ++ [arrive, c.entry]) ++
      (c.test ++ c.branch :: (c.body ++ [c.back, leave, c.exit, access, c.ret])) := by
    simp [Pieces.marked]
  obtain ⟨tree, htree, htest⟩ := spends_of_spells ht hwf.condition h.test hcondition
    (by simpa using hstart) h.branch.1
  have hfork : (c.front ++ [arrive, c.entry]).length + c.test.length = c.fork := by
    simp [Pieces.fork]
  rw [hfork, List.length_append] at htest
  -- The body.
  have hbetween : c.marked arrive leave access =
      (c.front ++ [arrive, c.entry] ++ c.test ++ [c.branch]) ++
      (c.body ++ [c.back, leave, c.exit, access, c.ret]) := by
    simp [Pieces.marked]
  have hbehind : (c.front ++ [arrive, c.entry] ++ c.test ++ [c.branch]).length = c.fork + 1 := by
    simp [Pieces.fork]
    omega
  obtain ⟨nodes', hnodes', hclear', hbody⟩ := listed_of_spells ht hwf.body h.body hbetween
    (hbehind ▸ htest.start_behind ht rfl)
  rw [hbehind] at hclear' hbody
  have hne : nodes' ≠ [] := fun hnil =>
    hwf.body_ne_nil (List.forall₂_nil_right_iff.1 (hnil ▸ hnodes'))
  refine ⟨st, ⟨c.front.length, c.fork, c.turn, statements, start, ⟨c.front.length + 2, tree⟩,
    nodes', arrive, c.entry, c.branch, c.back, leave, c.exit, access, c.ret⟩, ?_, hopening, htree,
    hnodes'⟩
  exact {
    toSegmented := ht
    opens := fun m i j => h.opens hwf harrive hleave
    last := by rw [hend]; exact Nat.zero_le 1
    opening := hopens _ rfl rfl rfl
    arrive := ⟨harriving, harrive⟩
    entry := ⟨hentering, h.entry.1⟩
    test := htest
    body := hbody.resolve_left fun hnone => hne hnone.2
    back := ⟨hturn 0, h.back.1⟩
    leave := ⟨hturn 1, hleave⟩
    exit := ⟨hturn 2, h.exit.1⟩
    access := ⟨hturn 3, haccess⟩
    ret := ⟨hturn 4, h.ret⟩
    length_eq := c.length_marked arrive leave access
    clear := ⟨by simpa using hclear, hclear'⟩
    plain := startsStacked_expr f.condition hwf.condition htree
    misaligned := fun e he => h.misaligned hwf harrive hleave haccess hpairwise hlt he }

end

/-! ### Forms -/

/-- The annotated code of a form is laid out as the form. -/
theorem exists_layout (hwf : f.WellFormed) (h : Compiled f is) :
    ∃ seg st l, ofInstructions is = .ok seg ∧ Layout seg.annotated st l ∧ f.Shows l := by
  obtain ⟨c, rfl, hspell⟩ := exists_pieces h.spells
  obtain ⟨seg, hseg⟩ := (hspell.linked hwf h.ordered).exists_segmentation
  obtain ⟨source, source', hannotated⟩ := hspell.annotated_eq hwf h.ordered hseg
  have hpairwise : seg.annotated.Pairwise fun i j => i.offset ≤ j.offset :=
    pairwise_annotateFrom ((ofInstructions_eq_ok hseg).2.1 ▸ h.ordered.pairwise)
  have hlt : c.back.offset < c.exit.offset := by
    have hsplit : c.all = (c.front ++ c.entry :: (c.test ++ c.branch :: c.body)) ++
        c.back :: c.exit :: [c.ret] := by simp [Pieces.all]
    exact Ordered.lt_of_not_label (hsplit ▸ h.ordered) (signs_of_kind hspell.back.1).1
  rw [hannotated] at hpairwise
  obtain ⟨st, l, hl, hshows⟩ := hspell.exists_layout hwf rfl rfl rfl hpairwise hlt
  exact ⟨seg, st, l, hseg, hannotated ▸ hl, hshows⟩

end ElispLift.Loop
