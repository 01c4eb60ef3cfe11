import ElispLift.Proofs.Segments.Routes

/-!
# Parsing straight-line programs

A straight-line program is a segment with one value left, and a return. Over its instructions only
straight-line code is read, so the parser finds the statements and the value, and the return behind
them.
-/

namespace ElispLift.StraightLine

open Grammar Extraction

/-- Statements of a segment, and a return behind them. -/
structure Returned (tokens : List Instruction) (st : Nat → State) (stop : Nat)
    (statements : List Node) (ret : Instruction) : Prop extends Delimited tokens st where
  listed : Listed (ReadsLine tokens st) 0 stop statements
  ret : At tokens .ret stop ret
  length_eq : tokens.length = stop + 1

/-- What is built around the statements. -/
inductive Builds (stop : Nat) (statements : List Node) (ret : Instruction) : Span → Node → Prop
    where
  | label : Builds stop statements ret ⟨.optLabel, stop, stop⟩ (.plain .optLabel [])
  | return : Builds stop statements ret ⟨.optReturn, stop, stop + 1⟩
      (.plain .optReturn [.token ret])
  | routine : Builds stop statements ret ⟨.fnBody, 0, stop + 1⟩ (routine statements ret)

/-- The tree of a span that is built. -/
def Target (tokens : List Instruction) (st : Nat → State) (stop : Nat) (statements : List Node)
    (ret : Instruction) (span : Span) (tree : Node) : Prop :=
  (Inner tokens st span.kind span.first span.last tree ∨ Builds stop statements ret span tree) ∧
    Due (tokenRules tokens) .fnBody tokens span.kind span.first

variable {tokens code : List Instruction} {st : Nat → State} {stop q first : Nat}
  {statements nodes : List Node} {i ret : Instruction} {span part : Span} {tree tree' value : Node}

/-- The code of a program is a segment and a return. -/
theorem exists_returned (h : Run 0 code .start ⟨[⟨first, value⟩], nodes⟩)
    (hret : ret.kind = .fixed .ret) :
    ∃ st, Returned (code ++ [ret]) st code.length (nodes ++ [kept value]) ret := by
  have hcontrol : isStep ret.kind = false := by rw [hret]; rfl
  have hwalk : Walk 0 (code ++ [ret]) .start .start :=
    (Walk.of_run h).append (.cons (.restart hcontrol (Nat.le_refl 1)) (.nil _ _))
  obtain ⟨st, ht, hlast⟩ := hwalk.exists_segmented
  have hend := ht.run_eq h ht.start fun k i hi => by
    obtain ⟨hk, -⟩ := List.getElem?_eq_some_iff.1 hi
    rw [Nat.zero_add, List.getElem?_append_left hk, hi]
  rw [Nat.zero_add] at hend
  have hopens : ∀ i ∈ code ++ [ret], isStep i.kind = false →
      (i.isJump || Context.isAnyOf i Context.assignmentStarts) = true := by
    intro i hi hcontrol
    rcases List.mem_append.1 hi with hi | hi
    · rw [h.isStep i hi] at hcontrol
      cases hcontrol
    · obtain rfl := List.mem_singleton.1 hi
      simp [Context.isAnyOf, Context.assignmentStarts, Instruction.isOp, hret]
  have hmayEnd : MayEnd (code ++ [ret]) code.length := by
    intro i hi
    obtain rfl : ret = i := by simpa using hi
    simp [Context.isAnyOf, Context.statementEnds, Instruction.isOp, hret]
  have hlisted := ht.listed_kept (Nat.zero_le code.length) (by simp)
    (fun q _ hq =>
      step_of_split h.isStep (List.nil_append _).symm (Nat.zero_le q) (by simpa using hq))
    ht.start (by rw [hend]) hmayEnd
  rw [hend] at hlisted
  exact ⟨st, ⟨ht, fun _ i _ hi hcontrol _ _ => hopens i (List.mem_of_getElem? hi) hcontrol,
    by rw [hlast]; exact Nat.zero_le 1⟩, hlisted, ⟨by simp, hret⟩, by simp⟩

section

variable (hr : Returned tokens st stop statements ret)

include hr

/-- No rule for control flow applies. -/
theorem Returned.calm (hi : tokens[q]? = some i) : isStep i.kind = true ∨ isCalm i.kind = true := by
  obtain ⟨hq, -⟩ := List.getElem?_eq_some_iff.1 hi
  rw [hr.length_eq] at hq
  rcases Nat.lt_or_eq_of_le (Nat.le_of_lt_succ hq) with hlt | rfl
  · obtain ⟨j, hj, hstep⟩ := hr.listed.isStep hr.toSegmented (Nat.zero_le q) hlt
    rw [Option.some.inj (hi.symm.trans hj)]
    exact .inl hstep
  · rw [hr.ret.kind_of hi]
    exact .inr rfl

theorem inner_body : Inner tokens st .body 0 stop (.plain .body [.plain .exprs statements]) :=
  ⟨statements, listed_item_iff.2 hr.listed, rfl⟩

/-- The return is in no body. -/
theorem not_covers_body : ¬Covers (tokenRules tokens) tokens ⟨.body, 0, stop + 1⟩ := by
  intro h
  obtain ⟨nodes, hnodes⟩ := h.exists_nodes
  rcases inner_of_assembles hr.toDelimited (fun _ _ _ _ hi => hr.calm hi) hnodes with
    hfree | ⟨node, hinner, -⟩
  · cases hfree
  · exact false_of_step hr.ret.1 (by rw [hr.ret.2]; rfl)
      (hinner.isStep hr.toSegmented stop (Nat.zero_le _) (Nat.lt_succ_self _))

theorem unique (h : Target tokens st stop statements ret span tree)
    (h' : Target tokens st stop statements ret span tree') : tree' = tree := by
  refine eq_of_inner_or hr.toSegmented (fun h hinner => ?_) (fun h h' => ?_) h.1 h'.1
  · cases h <;> exact hinner.elim
  · cases h <;> cases h' <;> rfl

/-- Every target is found where it is waited for. -/
theorem routed (hbounded : CountsBounded tokens)
    (h : Target tokens st stop statements ret span tree) :
    Routed (tokenRules tokens) .fnBody tokens (fun part tree =>
      Target tokens st stop statements ret part tree ∧ (part.first = span.first →
        part.last = span.last → level part.kind < level span.kind)) span tree := by
  obtain ⟨hinner | hbuilds, hdue⟩ := h
  · exact (routed_inner hr.toDelimited ⟨hinner, hdue⟩ hbounded).imp
      fun part tree h => ⟨⟨.inl h.1.1, h.1.2⟩, h.2⟩
  · have hbody := inner_body hr
    cases hbuilds with
    | label => exact routed_unlabeled
    | «return» => exact routed_return hr.ret hdue
    | routine =>
      exact routed_returned hr.ret hdue (hbody.covers hr.toDelimited) (not_covers_body hr)
        (fun hdue => ⟨⟨.inl hbody, hdue⟩, fun _ _ => by simp [level]⟩)
        (fun hdue => ⟨⟨.inr .label, hdue⟩, fun _ _ => by simp [level]⟩)
        fun hdue => ⟨⟨.inr .return, hdue⟩, fun _ _ => by simp [level]⟩

theorem plan (hbounded : CountsBounded tokens) :
    Plan (tokenRules tokens) .fnBody tokens (Target tokens st stop statements ret) (level ·.kind)
      Guards where
  unique _ _ _ h h' := unique hr h h'
  descends _ _ hspan hpart hfirst hlast :=
    level_le_of_calm hr.toDelimited (fun _ _ _ _ hi => hr.calm hi) hspan hpart hfirst hlast
  guarded _ _ _ _ hpart hguards := .inl (Guards.eq hpart hguards)
  routed _ _ h := routed hr hbounded h

/-- The parser reads the code of a straight-line program as its statements and its value. -/
theorem parse_code (hbounded : CountsBounded tokens) :
    parse .fnBody (arityRules tokens) tokens = .ok (routine statements ret) := by
  refine parse_of_plan (plan hr hbounded) hr.length_eq
    (tokenDerives_returned hr.ret ((inner_body hr).covers hr.toDelimited)) (Nat.succ_pos stop)
    ⟨.inr .routine, .inl ⟨rfl, rfl⟩⟩ fun t ht => ?_
  cases ht.1

end

end ElispLift.StraightLine
