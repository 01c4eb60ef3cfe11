import ElispLift.Proofs.Loop.Readings

/-!
# Rules for loops

The rules for loops make nodes of their readings, given the checks on children. The instructions
from the marker in front of a loop to the label behind it are read in one way.
-/

namespace ElispLift.Loop

open Grammar StraightLine Extraction ElispLift.Derivation

variable {tokens : List Instruction} {st : Nat → State} {l : Parts} {p q e : Nat}
  {i : Instruction} {node : Node} {nodes : List Node} {kind : Nonterminal} {r : Rule}
  {s : List Symbol}

/-- An expression that ends elsewhere is not the loop. -/
theorem readsExpr_of_shape
    (h : Shape tokens st (ReadsLoop tokens st l) (Reads tokens st l) .expr p e node)
    (he : e ≠ l.turn + 3) : ReadsExpr tokens st p e node :=
  h.resolve_right fun hloop => he hloop.1

section

variable (hl : Layout tokens st l)

include hl

/-- Within the loop statements are those of straight-line code. -/
theorem listed_within (h : Listed (ReadsItem tokens st (ReadsLoop tokens st l)) p e nodes)
    (hlow : l.head + 2 ≤ p) : Listed (ReadsLine tokens st) p e nodes := by
  have hline : ∀ {p e node}, ReadsItem tokens st (ReadsLoop tokens st l) p e node →
      l.head + 2 ≤ p → ReadsLine tokens st p e node := by
    intro p e node hitem hlow
    have hturn := lt_turn hl
    have hfork := lt_fork hl
    obtain ⟨hlt, hextends⟩ := extends_of_item hl hitem
    refine hitem.resolve_right ?_
    rintro ⟨tree, ⟨he, -⟩, -⟩
    omega
  induction h with
  | one h => exact .one (hline h hlow)
  | @more m e items item hlist h ih =>
    have := (extends_of_items hl hlist).1
    exact .more ih (hline h (by omega))

/-- From the marker in front of the loop on, there is one reading up to the label behind it. -/
theorem parts_of_chain
    (h : Chain tokens (Shape tokens st (ReadsLoop tokens st l) (Reads tokens st l)) loopSymbols p e
      nodes) :
    p = l.head ∧ e = l.turn + 3 ∧ nodes = l.parts := by
  have hfollows := follows_of_chain hl h
  have hfork := lt_fork hl
  have hturn := lt_turn hl
  simp only [loopSymbols, Parts.Follows, Parts.Stands, Parts.Spans, Parts.Extends, t, n] at hfollows
  obtain ⟨arrive, _, harrive, -, rfl, entry, _, hentry, -, rfl, q, test, _, -, htest, rfl,
    branch, _, hbranch, hkind, rfl, q', body, _, -, ⟨items, hitems, rfl⟩, rfl, back, _, hback,
    hkind', rfl, leave, _, hleave, -, rfl, exit, _, hexit, -, rfl, rfl, rfl⟩ := h
  obtain rfl : q = l.fork := stands_of_kind hl hbranch hkind
  obtain rfl : q' = l.turn := stands_of_kind hl hback hkind'
  obtain rfl : p = l.head := by
    have := (extends_of_expr hl htest).2
    omega
  have hvalue : test = l.test.tree := by
    have hreads := readsExpr_of_shape htest (by omega)
    rcases hreads.pending_cases hl.toSegmented with ⟨-, below, hbelow⟩ | ⟨hempty, -⟩
    · rw [hl.test.pending_eq] at hbelow
      rw [(List.cons.inj hbelow).1]
    · rw [hl.test.pending_eq] at hempty
      cases hempty
  have hbody : items = l.body :=
    Listed.unique (fun _ _ _ h => (h.first_lt hl.toSegmented).1)
      (fun _ _ _ _ _ h h' => h.unique hl.toSegmented h') hl.body
      (listed_within hl hitems (by omega))
  refine ⟨rfl, rfl, ?_⟩
  rw [Parts.parts, hvalue, hbody, Option.some.inj (harrive.symm.trans hl.arrive.1),
    Option.some.inj (hentry.symm.trans hl.entry.1),
    Option.some.inj (hbranch.symm.trans hl.test.at_eq),
    Option.some.inj (hback.symm.trans hl.back.1), Option.some.inj (hleave.symm.trans hl.leave.1),
    Option.some.inj (hexit.symm.trans hl.exit.1)]

theorem shape_of_loopRule (hr : r ∈ loopRules)
    (h : Chain tokens (Shape tokens st (ReadsLoop tokens st l) (Reads tokens st l)) r.rhs p e
      nodes) :
    Shape tokens st (ReadsLoop tokens st l) (Reads tokens st l) r.lhs p e
      (Extraction.node r nodes) := by
  simp only [loopRules, List.mem_cons, List.not_mem_nil, or_false] at hr
  rcases hr with rfl | rfl | rfl | rfl
  · obtain ⟨form, ⟨he, start, hstart, rfl⟩, rfl⟩ := h.single
    exact .inr ⟨he, .inr ⟨start, hstart, rfl⟩⟩
  · obtain ⟨form, ⟨he, hp, rfl⟩, rfl⟩ := h.single
    exact .inr ⟨he, .inl ⟨hp, rfl⟩⟩
  · obtain ⟨q, start, rest, -, hstart, rfl, hrest⟩ := h
    obtain ⟨rfl, rfl, rfl⟩ := parts_of_chain hl hrest
    have hfork := lt_fork hl
    have hturn := lt_turn hl
    exact ⟨rfl, start, readsExpr_of_shape hstart (by omega), rfl⟩
  · obtain ⟨rfl, rfl, rfl⟩ := parts_of_chain hl h
    exact ⟨rfl, rfl, rfl⟩

/-- The jump of the loop leads past the body, so it is that of no other form. -/
theorem not_andForm
    (h : Chain tokens (Shape tokens st (ReadsLoop tokens st l) (Reads tokens st l)) andRule.rhs p e
      nodes) : ¬AllowsChildren tokens .andForm nodes e := by
  intro hallowed
  have hfork := lt_fork hl
  have hturn := lt_turn hl
  have hfollows := follows_of_chain hl h
  obtain ⟨q, condition, rest, -, -, rfl, i, rest, hi, hkind, rfl, -⟩ := h
  have hbranch : q = l.fork := stands_of_kind hl hi hkind
  have hle : e ≤ l.turn := by
    simp only [andRule, Parts.Follows, Parts.Stands, Parts.Spans, Parts.Extends, t, n] at hfollows
    grind
  obtain rfl : i = l.branch := by
    rw [hbranch] at hi
    exact Option.some.inj (hi.symm.trans hl.test.at_eq)
  have hrefused := hl.misaligned e hle
  simp [AllowsChildren, Context.allowsChildren, hrefused] at hallowed

/-- The rules for loops make nodes of their readings. -/
theorem shape_of_rule (hr : r ∈ andRule :: (loopRules ++ spanRules ++ idleRules))
    (h : Chain tokens (Shape tokens st (ReadsLoop tokens st l) (Reads tokens st l)) r.rhs p e nodes)
    (hallowed : AllowsChildren tokens r.lhs nodes e) :
    Shape tokens st (ReadsLoop tokens st l) (Reads tokens st l) r.lhs p e
      (Extraction.node r nodes) := by
  have hfollows := follows_of_chain hl h
  rcases List.mem_cons.1 hr with rfl | hr
  · exact (not_andForm hl h hallowed).elim
  · rcases List.mem_append.1 hr with hr | hr
    · rcases List.mem_append.1 hr with hr | hr
      · exact shape_of_loopRule hl hr h
      · obtain ⟨hinner, hloop⟩ := lhs_of_spanRule r hr
        exact (shape_of_not_isInner hinner).2
          (reads_of_spans (Parts.spans_of_follows (lt_fork hl) (lt_turn hl) hr hfollows) hloop)
    · exact (Parts.not_follows (lt_fork hl) (lt_turn hl) hr hfollows).elim

/-- What is assembled with the checks on children is read. -/
theorem shape_of_assembles (h : Assembles (tokenRules tokens) tokens (AllowsChildren tokens) s p e
    nodes) : Chain tokens (Shape tokens st (ReadsLoop tokens st l) (Reads tokens st l)) s p e
      nodes :=
  StraightLine.shape_of_assembles (andRule :: (loopRules ++ spanRules ++ idleRules)) hl.toDelimited
    (fun _ _ _ h => h.rests hl) (fun _ => not_isUnread) (fun _ _ _ _ => reads_of_isUnread)
    (fun _ => .inl rfl) (fun _ _ _ _ => isKnown_of_reads) loop_cases
    (fun _ hr _ _ _ hnodes hallowed => shape_of_rule hl hr hnodes hallowed)
    (fun _ _ _ _ hi => (stands hl hi).present) h

/-- A rule has no tree if it needs what is not there. -/
theorem not_assembles_of_lacks (hlacks : s.any (lacks isKnown isPresent) = true) :
    ¬Assembles (tokenRules tokens) tokens (AllowsChildren tokens) s p e nodes :=
  fun h => not_chain_of_lacks (Y := Reads tokens st l) (fun _ _ _ _ => isKnown_of_reads)
    (fun _ _ _ _ hi => (stands hl hi).present) hlacks (shape_of_assembles hl h)

/-- A span is barren if there is no reading of it. -/
theorem barren_of_not_shape
    (h : ∀ node, ¬Shape tokens st (ReadsLoop tokens st l) (Reads tokens st l) kind p e node) :
    Barren (tokenRules tokens) tokens ⟨kind, p, e⟩ := by
  intro nodes hnodes
  obtain ⟨node, hnode, -⟩ := (shape_of_assembles hl hnodes).single
  exact h node hnode

end

end ElispLift.Loop
