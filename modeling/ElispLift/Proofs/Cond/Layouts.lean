import ElispLift.Proofs.Cond.Form
import ElispLift.Proofs.Segments.Routes
import ElispLift.Proofs.StraightLine.RoundTrip

/-!
# Layouts of clauses

Where the parts of a form stand among its instructions. The clauses follow each other up to the end,
so there is a layout for the form whose nodes show its clauses.
-/

namespace ElispLift.Cond

open StraightLine Segmentation

section

variable (tokens : List Instruction) (st : Nat → State) (e : Expr)

/-- A condition and the jump behind it, and the value up to the label. -/
structure Stands (c : Clause) (p m q : Nat) (v w : Pending) (g r k l : Instruction) : Prop where
  condition : Spends tokens st .gotoIfNil p m v g
  shows : c.condition.Shows v.tree
  jump : Spells g (.fixed .gotoIfNil, some (.symbol c.label))
  value : Spends tokens st .ret (m + 1) q w r
  shows_value : c.value.Shows w.tree
  marker : tokens[q + 1]? = some k
  marker_kind : k.kind = .fixed .comeFrom
  label : tokens[q + 2]? = some l
  label_spells : Spells l (.fixed .label, some (.symbol c.label))
  lt : r.offset < l.offset

/-- Clauses from position `p` on, and the value at the end. -/
inductive StandFrom : (p : Nat) → List Clause → Prop where
  | last {p q : Nat} {v : Pending} {r : Instruction} (hv : Spends tokens st .ret p q v r)
      (hshows : e.Shows v.tree) (hend : tokens.length = q + 1) : StandFrom p []
  | more {p m q : Nat} {c : Clause} {cs : List Clause} {v w : Pending} {g r k l : Instruction}
      (hc : Stands tokens st c p m q v w g r k l) (h : StandFrom (q + 3) cs) :
      StandFrom p (c :: cs)

/-- What may stand at position `m`, by its kind. -/
inductive Place (m : Nat) (i : Instruction) : OpKind → Prop where
  | step {kind : OpKind} (h : isStep kind = true) : Place m i kind
  | jump {c : Clause} {p q : Nat} {v w : Pending} {r k l : Instruction}
      (hc : Stands tokens st c p m q v w i r k l) : Place m i (.fixed .gotoIfNil)
  | ret {p : Nat} {v : Pending} (hv : Spends tokens st .ret p m v i)
      (h : tokens.length = m + 1 ∨ ∃ k, tokens[m + 1]? = some k ∧ k.kind = .fixed .comeFrom) :
      Place m i (.fixed .ret)
  | marker (hst : st m = .start)
      (h : ∃ l, tokens[m + 1]? = some l ∧ l.kind = .fixed .label) : Place m i (.fixed .comeFrom)
  | label (hst : st m = .start)
      (h : (∃ q v j, Spends tokens st .gotoIfNil (m + 1) q v j) ∨
        ∃ q v r, Spends tokens st .ret (m + 1) q v r ∧ tokens.length = q + 1) :
      Place m i (.fixed .label)

end

variable {tokens all is js front rest : List Instruction} {st : Nat → State} {e : Expr} {c : Clause}
  {cs : List Clause} {p m q : Nat} {v w : Pending} {g r k l i : Instruction} {seg : Segmentation}

/-! ### Positions -/

/-- What is marked stands where it is. -/
theorem Marks.standFrom (ht : Segmented all st) (hwf : ∀ c ∈ cs, c.WellFormed) (he : e.WellFormed)
    (h : Marks e cs tokens) (hall : all = front ++ tokens) (hst : st front.length = .start) :
    StandFrom all st e front.length cs := by
  induction h generalizing front with
  | @last js r hvalue hret =>
    obtain ⟨tree, htree, hv⟩ := spends_of_spells ht he hvalue hall hst hret
    exact .last hv htree (by simp [hall, Nat.add_assoc])
  | @more c cs js ks tokens g r k l hsplit hk hlt h ih =>
    have hc := hwf c (by simp)
    obtain ⟨v, hv, hcondition⟩ := spends_of_spells ht hc.1 hsplit.condition hall hst hsplit.jump.1
    have hstart := hcondition.start_behind ht rfl
    have hbetween : all = (front ++ js ++ [g]) ++ (ks ++ r :: k :: l :: tokens) :=
      by simpa using hall
    obtain ⟨w, hw, hvalue⟩ := spends_of_spells ht hc.2 hsplit.value hbetween
      (by simpa [Nat.add_assoc] using hstart) hsplit.ret
    have hlength : (front ++ js ++ [g]).length = front.length + js.length + 1 := by
      simp
      omega
    rw [hlength] at hvalue
    have hq : front.length + js.length + 1 + ks.length = (front ++ js ++ [g] ++ ks).length := by
      simp
      omega
    have hbehind : ∀ n, all[front.length + js.length + 1 + ks.length + n]? =
        (r :: k :: l :: tokens)[n]? := by
      intro n
      have hsplit : all = front ++ js ++ [g] ++ ks ++ r :: k :: l :: tokens := by simpa using hall
      rw [hq, hsplit, List.getElem?_append_right (Nat.le_add_right _ _), Nat.add_sub_cancel_left]
    have hlabel : isStep l.kind = false := by rw [hsplit.label.1]; rfl
    have hnext := ((ht.move _ l (hbehind 2)).of_control hlabel).2
    refine .more ⟨hcondition, hv, hsplit.jump, hvalue, hw, hbehind 1, hk, hbehind 2,
      hsplit.label, hlt⟩ ?_
    have hlater : all = (front ++ js ++ [g] ++ ks ++ [r, k, l]) ++ tokens := by simpa using hall
    have hrest := ih (fun c' hc' => hwf c' (List.mem_cons_of_mem _ hc')) hlater
    rw [List.length_append, ← hq] at hrest
    exact hrest hnext

/-! ### Places -/

namespace StandFrom

/-- Where clauses begin, a condition stands that a jump depends on, or the value at the end. -/
theorem begins (h : StandFrom tokens st e p cs) :
    (∃ q v j, Spends tokens st .gotoIfNil p q v j) ∨
      ∃ q v r, Spends tokens st .ret p q v r ∧ tokens.length = q + 1 := by
  cases h with
  | last hv _ hend => exact .inr ⟨_, _, _, hv, hend⟩
  | more hc _ => exact .inl ⟨_, _, _, hc.condition⟩

theorem place (ht : Segmented tokens st) (h : StandFrom tokens st e p cs) (hlow : p ≤ m)
    (hi : tokens[m]? = some i) : Place tokens st m i i.kind := by
  have hsteps : ∀ {op : Opcode} {p q : Nat} {v : Pending} {g : Instruction},
      Spends tokens st op p q v g → p ≤ m → m < q → Place tokens st m i i.kind := by
    intro op p q v g hv hlow hhigh
    obtain ⟨j, hj, hstep⟩ := hv.isStep ht hlow hhigh
    obtain rfl := Option.some.inj (hj.symm.trans hi)
    exact .step hstep
  have hret : ∀ {p : Nat} {v : Pending} {r : Instruction}, Spends tokens st .ret p m v r →
      (tokens.length = m + 1 ∨ ∃ k, tokens[m + 1]? = some k ∧ k.kind = .fixed .comeFrom) →
        Place tokens st m i i.kind := by
    intro p v r hv h
    obtain rfl := Option.some.inj (hv.at_eq.symm.trans hi)
    exact hv.kind_eq ▸ .ret hv h
  have hm := (List.getElem?_eq_some_iff.1 hi).1
  induction h with
  | @last p q v r hv hshows hend =>
    rcases Nat.lt_or_ge m q with hlt | hge
    · exact hsteps hv hlow hlt
    · obtain rfl : m = q := by omega
      exact hret hv (.inl hend)
  | @more p m' q c cs v w g r k l hc h ih =>
    have hlabel : l.kind = .fixed .label := hc.label_spells.1
    have hreturned := hc.value.start_behind ht rfl
    have hmarked := ((ht.move _ k hc.marker).of_control (by rw [hc.marker_kind]; rfl)).2
    rcases Nat.lt_or_ge m (q + 3) with hlt | hge
    · rcases Nat.lt_trichotomy m m' with hless | rfl | hgreater
      · exact hsteps hc.condition hlow hless
      · obtain rfl := Option.some.inj (hc.condition.at_eq.symm.trans hi)
        exact hc.condition.kind_eq ▸ .jump hc
      · rcases Nat.lt_trichotomy m q with hless | rfl | hgreater'
        · exact hsteps hc.value hgreater hless
        · exact hret hc.value (.inr ⟨k, hc.marker, hc.marker_kind⟩)
        · rcases Nat.lt_or_ge m (q + 2) with hless | hge
          · obtain rfl : m = q + 1 := by omega
            obtain rfl := Option.some.inj (hc.marker.symm.trans hi)
            exact hc.marker_kind ▸ .marker hreturned ⟨l, hc.label, hlabel⟩
          · obtain rfl : m = q + 2 := by omega
            obtain rfl := Option.some.inj (hc.label.symm.trans hi)
            exact hlabel ▸ .label hmarked h.begins
    · exact ih hge

end StandFrom

/-- The jump of a clause leads behind the clause. -/
theorem Stands.aligned_eq_false {z : Nat}
    (hpairwise : tokens.Pairwise fun i j => i.offset ≤ j.offset)
    (hlabels : ∀ i ∈ tokens, i.isOp .label = true → i.operandText? = some c.label →
      l.offset ≤ i.offset)
    (h : Stands tokens st c p m q v w g r k l) (hz : z ≤ q) :
    Context.aligned ⟨tokens.toArray⟩ (some (.token g)) z = false := by
  refine StraightLine.aligned_eq_false l.offset (fun i hi hlabel htext => ?_) fun j hj => ?_
  · exact hlabels i hi hlabel (htext.trans (labelText_of_spells h.jump).2)
  · refine Nat.lt_of_le_of_lt ?_ h.lt
    obtain ⟨hq, hr⟩ := List.getElem?_eq_some_iff.1 h.value.at_eq
    obtain ⟨hz', rfl⟩ := List.getElem?_eq_some_iff.1 hj
    rcases Nat.lt_or_eq_of_le hz with hlt | rfl
    · exact hr ▸ List.pairwise_iff_getElem.1 hpairwise z q hz' hq hlt
    · rw [hr]

/-- What stands where clauses stand is chained. -/
theorem StandFrom.chained (ht : Segmented tokens st) (h : StandFrom tokens st e 0 cs)
    (hend : st tokens.length = .start)
    (hoperations : ∀ i ∈ tokens, isStep i.kind = true → (operation? i.kind).isSome = true)
    (hpairwise : tokens.Pairwise fun i j => i.offset ≤ j.offset)
    (hlabels : ∀ l ∈ tokens, ∀ i ∈ tokens, l.isOp .label = true → i.isOp .label = true →
      i.operandText? = l.operandText? → l.offset ≤ i.offset) : Chained tokens st := by
  have hplace : ∀ {m i}, tokens[m]? = some i → Place tokens st m i i.kind := fun hi =>
    h.place ht (Nat.zero_le _) hi
  have hcontrol : ∀ i ∈ tokens, isStep i.kind = false →
      i.kind = .fixed .gotoIfNil ∨ i.kind = .fixed .ret ∨ i.kind = .fixed .comeFrom ∨
        i.kind = .fixed .label := by
    intro i hi hstep
    obtain ⟨m, hm⟩ := List.mem_iff_getElem?.1 hi
    have h := hplace hm
    generalize hkind : i.kind = kind at h hstep
    cases h with
    | step h =>
      rw [h] at hstep
      cases hstep
    | _ => simp
  refine ⟨⟨ht, fun _ i _ hi hstep _ _ => ?_, by rw [hend]; exact Nat.zero_le 1⟩, hoperations,
    fun i hi => ?_, fun m i hi hstep => ?_, fun m i hi hkind => ?_, fun m i hi hkind => ?_,
    fun m i hi hkind => ?_, fun m i hi hkind => ?_⟩
  · have hjump : (OpKind.fixed Opcode.gotoIfNil).isJump = true := rfl
    rcases hcontrol i (List.mem_of_getElem? hi) hstep with hkind | hkind | hkind | hkind <;>
      simp [Instruction.isJump, Context.isAnyOf, Context.assignmentStarts, Instruction.isOp, hkind,
        hjump]
  · cases hstep : isStep i.kind with
    | true => exact .inl rfl
    | false =>
      rcases hcontrol i hi hstep with hkind | hkind | hkind | hkind <;> simp [isPresent, hkind]
  · have h := hplace hi
    rw [Instruction.effect]
    generalize i.kind = kind at h hstep ⊢
    cases h with
    | step h =>
      rw [h] at hstep
      cases hstep
    | jump hc =>
      rw [hc.condition.pending_eq]
      rfl
    | ret hv =>
      rw [hv.pending_eq]
      rfl
    | marker hst | label hst =>
      rw [hst]
      rfl
  · have h := hplace hi
    rw [hkind] at h
    cases h with
    | step h => cases h
    | @jump c p q v w r k l hc =>
      refine ⟨q, w, r, k, hc.value, hc.marker, hc.marker_kind, fun z hz => ?_⟩
      have hl := List.mem_of_getElem? hc.label
      exact hc.aligned_eq_false hpairwise (fun j hj hlabel htext => hlabels l hl j hj
        (Instruction.isOp_iff.2 hc.label_spells.1) hlabel
          (htext.trans (labelText_of_spells hc.label_spells).2.symm)) hz
  · have h := hplace hi
    rw [hkind] at h
    cases h with
    | step h => cases h
    | label _ h => exact h
  · have h := hplace hi
    rw [hkind] at h
    cases h with
    | step h => cases h
    | ret _ h => exact h
  · have h := hplace hi
    rw [hkind] at h
    cases h with
    | step h => cases h
    | marker _ h => exact h

/-! ### Nodes -/

namespace Clause

/-- The node is that of the clause. -/
def Shows (c : Clause) (node : Node) : Prop :=
  ∃ (v w : Node) (g r k : Instruction), c.condition.Shows v ∧
    Spells g (.fixed .gotoIfNil, some (.symbol c.label)) ∧ c.value.Shows w ∧
      r.kind = .fixed .ret ∧ k.kind = .fixed .comeFrom ∧
        node = .plain .clause
          [.plain .condition [v, .token g, .plain .optComeFrom [], .plain .optLabel []],
            .plain .body [.plain .exprs [kept w]], .plain .endClause [.token r, .token k]]

end Clause

/-- The node is that of the value at the end. -/
def ShowsLast (e : Expr) (node : Node) : Prop :=
  ∃ (v : Node) (r : Instruction), e.Shows v ∧ r.kind = .fixed .ret ∧
    node = .plain .clause [.plain .optLabel [], .plain .body [.plain .exprs [kept v]],
      .plain .endClause [.token r]]

/-- The nodes of the clauses and of the value at the end, each behind a label. -/
inductive ShowRest (e : Expr) : List Clause → List Node → Prop where
  | last {i : Instruction} {node : Node} (h : ShowsLast e node) :
      ShowRest e [] [.plain .labeledClause [.token i, node]]
  | more {c : Clause} {cs : List Clause} {i : Instruction} {node : Node} {nodes : List Node}
      (h : c.Shows node) (hrest : ShowRest e cs nodes) :
      ShowRest e (c :: cs) (.plain .labeledClause [.token i, node] :: nodes)

/-- The node is that of the form, with its clauses in their order. -/
def Form.Shows (f : Form) (node : Node) : Prop :=
  ∃ (c : Clause) (cs : List Clause) (first : Node) (rest : List Node), f.clauses = c :: cs ∧
    c.Shows first ∧ ShowRest f.otherwise cs rest ∧
      node = .plain .condForm [first, .plain .labeledClauses rest]

theorem Stands.exists_node (h : Stands tokens st c p m q v w g r k l) :
    ∃ node, c.Shows node ∧ ReadsClause tokens st p (q + 2) node :=
  ⟨_, ⟨v.tree, w.tree, g, r, k, h.shows, h.jump, h.shows_value, h.value.kind_eq,
    h.marker_kind, rfl⟩,
    m + 1, _, q, w, r, k, rfl, ⟨m, v, g, rfl, h.condition, rfl⟩, h.value, h.marker, h.marker_kind,
    rfl⟩

theorem listed_cons {S : Nat → Nat → Node → Prop} {e : Nat} {item : Node} {items : List Node}
    (h : S p m item) (hrest : Listed S m e items) : Listed S p e (item :: items) := by
  induction hrest with
  | one h' => exact .more (.one h) h'
  | more _ h' ih => exact .more ih h'

/-- Clauses behind a label are read one behind the other. -/
theorem StandFrom.exists_nodes (h : StandFrom tokens st e (p + 1) cs) (hi : tokens[p]? = some i)
    (hkind : i.kind = .fixed .label) : ∃ nodes, ShowRest e cs nodes ∧
      Listed (ReadsLabeled tokens st) p tokens.length nodes := by
  generalize hstart : p + 1 = start at h
  induction h generalizing p i with
  | @last _ q v r hv hshows hend =>
    subst hstart
    refine ⟨_, .last (i := i) ⟨v.tree, r, hshows, hv.kind_eq, rfl⟩, .one ⟨i, _, hi, hkind, ?_, rfl⟩⟩
    exact .inr ⟨⟨q, v, r, hend, hv, rfl⟩, rfl⟩
  | @more _ m q c cs v w g r k l hc h ih =>
    subst hstart
    obtain ⟨node, hshows, hread⟩ := hc.exists_node
    obtain ⟨nodes, hrest, hlisted⟩ := ih hc.label hc.label_spells.1 rfl
    exact ⟨_, .more (i := i) hshows hrest,
      listed_cons ⟨i, node, hi, hkind, .inl hread, rfl⟩ hlisted⟩

/-! ### Forms -/

/-- What is marked is code of expressions, or no step, and its labels have names. -/
theorem Marks.cases_of_mem (hwf : ∀ c ∈ cs, c.WellFormed) (he : e.WellFormed)
    (h : Marks e cs tokens) : ∀ i ∈ tokens,
      (∃ e' : Expr, e'.WellFormed ∧ ∃ x ∈ e'.code, Spells i x) ∨ isStep i.kind = false ∧
        (i.isOp .label = true → ∃ name, Spells i (.fixed .label, some (.symbol name))) := by
  have hcontrol : ∀ {i : Instruction} {op : Opcode}, i.kind = .fixed op →
      isStep (.fixed op) = false → op ≠ .label → isStep i.kind = false ∧
        (i.isOp .label = true → ∃ name, Spells i (.fixed .label, some (.symbol name))) := by
    intro i op hkind hstep hne
    refine ⟨hkind ▸ hstep, fun hlabel => ?_⟩
    rw [Instruction.isOp_iff, hkind] at hlabel
    exact (hne (OpKind.fixed.inj hlabel)).elim
  induction h with
  | last hvalue hret =>
    intro i hi
    rcases List.mem_append.1 hi with hi | hi
    · exact .inl ⟨e, he, exists_spelled hvalue i hi⟩
    · obtain rfl := List.mem_singleton.1 hi
      exact .inr (hcontrol hret rfl (by decide))
  | @more c cs js ks tokens g r k l hsplit hk hlt h ih =>
    obtain ⟨hcondition, hvalue⟩ := hwf c (by simp)
    intro i hi
    simp only [List.mem_append, List.mem_cons] at hi
    rcases hi with hi | rfl | hi | rfl | rfl | rfl | hi
    · exact .inl ⟨_, hcondition, exists_spelled hsplit.condition i hi⟩
    · exact .inr (hcontrol hsplit.jump.1 rfl (by decide))
    · exact .inl ⟨_, hvalue, exists_spelled hsplit.value i hi⟩
    · exact .inr (hcontrol hsplit.ret rfl (by decide))
    · exact .inr (hcontrol hk rfl (by decide))
    · exact .inr ⟨by rw [hsplit.label.1]; rfl, fun _ => ⟨_, hsplit.label⟩⟩
    · exact ih (fun c' hc' => hwf c' (List.mem_cons_of_mem _ hc')) i hi

section

variable {f : Form} (hwf : f.WellFormed) (h : Compiled f is) (hseg : ofInstructions is = .ok seg)

include hwf h hseg

theorem marks_annotated : Marks f.otherwise f.clauses seg.annotated := by
  have hmarks := marks_annotateBehind (linked hwf h) hseg hwf.2.1 hwf.2.2.2 h.spells
    (List.nil_append is).symm
  have hinstructions := (ofInstructions_eq_ok hseg).2.1
  rwa [annotateBehind, List.getLast?_nil, Option.map_none, ← hinstructions] at hmarks

/-- No operation of a form counts more than a byte can hold. -/
theorem countsBounded : CountsBounded seg.annotated := by
  intro i hi op hop
  rcases (marks_annotated hwf h hseg).cases_of_mem hwf.2.1 hwf.2.2.2 i hi with
    ⟨e, he, x, hx, hspells⟩ | ⟨hstep, -⟩
  · exact arity_of_operation hop fun family count hkind =>
      count_le e he x hx family count (hspells.1 ▸ hkind)
  · simp [isStep, hop] at hstep

/-- Labels of one name are the same. -/
theorem offset_of_name (hl : l ∈ seg.annotated) (hi : i ∈ seg.annotated)
    (hlabel : l.isOp .label = true) (hlabel' : i.isOp .label = true)
    (htext : i.operandText? = l.operandText?) : l.offset ≤ i.offset := by
  have hnamed : ∀ {j}, j ∈ seg.annotated → j.isOp .label = true → j ∈ is ∧
      ∃ name, labelText j = name ∧ j.operandText? = some name := by
    intro j hj hlabel
    constructor
    · rcases mem_annotateFrom hj with hj | ⟨hmarker, -⟩
      · exact (ofInstructions_eq_ok hseg).2.1 ▸ hj
      · rw [Instruction.isOp_iff] at hlabel
        simp [isMarker, Instruction.isOp, hlabel] at hmarker
    · rcases (marks_annotated hwf h hseg).cases_of_mem hwf.2.1 hwf.2.2.2 j hj with
        ⟨e, he, x, hx, hspells⟩ | ⟨-, hname⟩
      · have hop := operation_of_code e he x hx
        rw [← hspells.1, Instruction.isOp_iff.1 hlabel] at hop
        cases hop
      · obtain ⟨name, hname⟩ := hname hlabel
        exact ⟨name, labelText_of_spells hname⟩
  obtain ⟨hl, name, hname, htext'⟩ := hnamed hl hlabel
  obtain ⟨hi, name', hname', htext''⟩ := hnamed hi hlabel'
  rw [htext', htext''] at htext
  have hsame : labelText i = labelText l := by rw [hname, hname', Option.some.inj htext]
  rw [(linked hwf h).eq_of_text hi hlabel' hl hlabel hsame]

/-- The annotated code of a form is laid out as one. -/
theorem exists_layout : ∃ st l, Layout seg.annotated st l ∧ f.Shows l.form := by
  have hmarks := marks_annotated hwf h hseg
  obtain ⟨st, ht, hend⟩ := (hmarks.walk hwf.2.1 hwf.2.2.2 0).exists_segmented
  have hstands : StandFrom seg.annotated st f.otherwise 0 f.clauses :=
    hmarks.standFrom ht hwf.2.1 hwf.2.2.2 (List.nil_append _).symm ht.start
  have hoperations : ∀ i ∈ seg.annotated, isStep i.kind = true →
      (operation? i.kind).isSome = true := by
    intro i hi hstep
    rcases hmarks.cases_of_mem hwf.2.1 hwf.2.2.2 i hi with ⟨e, he, x, hx, hspells⟩ | ⟨hno, -⟩
    · exact hspells.1 ▸ operation_of_code e he x hx
    · rw [hno] at hstep
      cases hstep
  have hpairwise : seg.annotated.Pairwise fun i j => i.offset ≤ j.offset :=
    pairwise_annotateFrom ((ofInstructions_eq_ok hseg).2.1 ▸ h.ordered.pairwise)
  have hchained := hstands.chained ht hend hoperations hpairwise fun l hl i hi =>
    offset_of_name hwf h hseg hl hi
  obtain ⟨hne, -⟩ := hwf
  generalize hclauses : f.clauses = cs at hstands hne
  cases hstands with
  | last => exact (hne rfl).elim
  | @more _ m q c cs v w g r k l hc hrest =>
    obtain ⟨first, hfirst, hread⟩ := hc.exists_node
    obtain ⟨nodes, hnodes, hlisted⟩ := hrest.exists_nodes hc.label hc.label_spells.1
    exact ⟨st, ⟨q + 2, first, nodes⟩, ⟨hchained, hread, hlisted⟩,
      c, cs, first, nodes, hclauses, hfirst, hnodes, rfl⟩

end

end ElispLift.Cond
