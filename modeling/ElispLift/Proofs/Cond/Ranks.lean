import ElispLift.Proofs.Cond.Targets

/-!
# Ranks of spans among clauses

Over the whole of the instructions, everything but the routine is built inside the one expression
that it is, and inside the statement and the body around it. So nothing there is built again on its
way down. Over steps the levels descend, and over other instructions only lists of clauses begin
with themselves.
-/

namespace ElispLift.Cond

open Grammar StraightLine Extraction ElispLift.Derivation

/-- What the whole of the instructions is read as, one inside the other. -/
def spine : List Nonterminal := [.fnBody, .body, .exprs, .exprStmt, .expr]

/-- What is being built over the whole of the instructions when a nonterminal is. -/
def outer (kind : Nonterminal) : List Nonterminal := spine.takeWhile (· ≠ kind)

/-- The span of all instructions. -/
def IsWhole (tokens : List Instruction) (span : Span) : Prop :=
  span.first = 0 ∧ span.last = tokens.length

instance (tokens : List Instruction) (span : Span) : Decidable (IsWhole tokens span) :=
  inferInstanceAs (Decidable (_ ∧ _))

/-- Spans of steps are ranked by level, and those of all instructions by what is built around them.
Of the others, lists of clauses are ranked above their last clause. -/
def rank (tokens : List Instruction) (span : Span) : Nat :=
  if isStraight tokens span then level span.kind
  else if IsWhole tokens span then spine.length - (outer span.kind).length
  else if span.kind = .labeledClauses then 1 else 0

/-- Forms are built inside the expression that they are, and whatever is read over the whole of the
instructions inside what is read around it. -/
def Surrounds (tokens : List Instruction) (around span : Span) : Prop :=
  Guards around span ∨
    IsWhole tokens around ∧ IsWhole tokens span ∧ around.kind ∈ outer span.kind

variable {tokens : List Instruction} {st : Nat → State} {l : Parts} {span part around : Span}

theorem rank_of_straight (h : isStraight tokens span = true) : rank tokens span = level span.kind :=
  if_pos h

theorem rank_of_whole (hnot : isStraight tokens span = false) (h : IsWhole tokens span) :
    rank tokens span = spine.length - (outer span.kind).length := by
  simp [rank, hnot, h]

theorem rank_of_part (hnot : isStraight tokens span = false) (h : ¬IsWhole tokens span) :
    rank tokens span = if span.kind = .labeledClauses then 1 else 0 := by
  simp [rank, hnot, h]

theorem outer_of_base : ∀ r ∈ base, ∀ kind ∈ heads r.rhs, ∀ k ∈ outer kind,
    k = r.lhs ∨ k ∈ outer r.lhs := by
  decide +kernel

theorem length_outer_of_base : ∀ r ∈ base, ∀ kind ∈ heads r.rhs,
    kind ∈ outer r.lhs ∨ (outer r.lhs).length ≤ (outer kind).length := by
  decide +kernel

theorem labeledClauses_of_base : ∀ r ∈ base, .labeledClauses ∈ heads r.rhs →
    r.lhs = .labeledClauses := by
  decide +kernel

theorem outer_counted (family : Family) : outer (.counted family) = spine := by
  cases family <;> rfl

/-- What begins a rule is a head of one of the grammar, or an expression and its form. -/
theorem head_cases (hle : span.first ≤ span.last)
    (hpart : part ∈ partsOf (inputOf (tokenRules tokens) .fnBody tokens) span)
    (hfirst : part.first = span.first) :
    (∃ r ∈ base, r.lhs = span.kind ∧ part.kind ∈ heads r.rhs) ∨
      (∃ family, span.kind = .counted family ∧ part.kind = .expr) ∨
        ∃ family, span.kind = .expr ∧ part.kind = .counted family := by
  obtain ⟨r, hr, hlhs, hmem⟩ := exists_rule_of_mem_partsOf hpart
  have hhead := mem_heads hle hmem hfirst
  rcases List.mem_append.1 hr with hbase | hextra
  · exact .inl ⟨r, hbase, hlhs, hhead⟩
  · obtain ⟨family, count, -, rfl | rfl⟩ := arityRulesAfter_mem hextra
    · have hsymbols := mem_symbols_of_mem_partsFrom hmem
      obtain ⟨-, hexpr⟩ : _ ∧ part.kind = .expr := by simpa [arityRule] using hsymbols
      exact .inr (.inl ⟨family, hlhs.symm, hexpr⟩)
    · exact .inr (.inr ⟨family, hlhs.symm, by simpa [promotion, heads] using hhead⟩)

/-- What surrounds a part surrounds the span that it is built in, or is this span. -/
theorem surrounded (hspan : Covers (tokenRules tokens) tokens span)
    (hpart : part ∈ partsOf (inputOf (tokenRules tokens) .fnBody tokens) span)
    (h : Surrounds tokens around part) : around = span ∨ Surrounds tokens around span := by
  rcases h with hguards | ⟨hwhole, ⟨hfirst, hlast⟩, hkind⟩
  · exact .inl (Guards.eq hpart hguards)
  · -- What holds a part over all instructions is over all of them.
    obtain ⟨r, hr, hlhs, hmem⟩ := exists_rule_of_mem_partsOf hpart
    obtain ⟨hlow, -, hhigh⟩ :=
      within_of_mem_partsFrom (forward_inputOf (tokenRules tokens) .fnBody tokens) hspan.le hmem
    have hlength := Derives.le_length hspan (by omega)
    rw [List.length_map] at hlength
    have hall : IsWhole tokens span := ⟨by omega, by omega⟩
    have houter : around.kind = span.kind ∨ around.kind ∈ outer span.kind := by
      rcases head_cases hspan.le hpart (by omega) with ⟨r, hr, hlhs, hhead⟩ |
        ⟨family, hcounted, hexpr⟩ | ⟨family, hexpr, hcounted⟩
      · exact hlhs ▸ outer_of_base r hr _ hhead _ hkind
      · rw [hexpr] at hkind
        rw [hcounted, outer_counted]
        exact .inr (List.takeWhile_subset _ hkind)
      · rw [hcounted, outer_counted] at hkind
        rw [hexpr]
        generalize around.kind = k at hkind
        revert k
        decide
    rcases houter with houter | houter
    · left
      obtain ⟨kind, first, last⟩ := around
      obtain ⟨kind', first', last'⟩ := span
      obtain ⟨rfl, rfl⟩ := hwhole
      obtain ⟨rfl, rfl⟩ := hall
      exact congrArg (Span.mk · _ _) houter
    · exact .inr (.inr ⟨hwhole, hall, houter⟩)

section

variable (hl : Layout tokens st l)

include hl

theorem not_isStraight (h : IsWhole tokens span) : isStraight tokens span = false := by
  refine Bool.eq_false_iff.2 fun hstraight => ?_
  obtain ⟨m, i, hm, hi, hcontrol⟩ := exists_jump hl
  obtain ⟨hfirst, hlast⟩ := h
  exact false_of_step hi hcontrol (isStraight_iff.1 hstraight m (by omega) (by omega))

/-- Over the same instructions no rank is higher inside. -/
theorem descends (hspan : Covers (tokenRules tokens) tokens span)
    (hpart : part ∈ partsOf (inputOf (tokenRules tokens) .fnBody tokens) span)
    (hfirst : part.first = span.first) (hlast : part.last = span.last) :
    part = span ∨ Surrounds tokens part span ∨ rank tokens part ≤ rank tokens span := by
  have hwhole : IsWhole tokens part ↔ IsWhole tokens span := by rw [IsWhole, IsWhole, hfirst, hlast]
  have hsame : isStraight tokens part = isStraight tokens span := by
    rw [isStraight, isStraight, hfirst, hlast]
  have hheads := head_cases hspan.le hpart hfirst
  cases hstraight : isStraight tokens span with
  | true =>
    rw [rank_of_straight (hsame.trans hstraight), rank_of_straight hstraight]
    exact (level_le_of_steps hl.toDelimited (isStraight_iff.1 hstraight) hspan hpart hfirst
      hlast).imp id (Or.imp .inl id)
  | false =>
    by_cases hall : IsWhole tokens span
    · rw [rank_of_whole (hsame.trans hstraight) (hwhole.2 hall), rank_of_whole hstraight hall]
      have houter : part.kind ∈ outer span.kind ∨
          (outer span.kind).length ≤ (outer part.kind).length := by
        rcases hheads with ⟨r, hr, hlhs, hhead⟩ | ⟨family, hcounted, hexpr⟩ |
          ⟨family, hexpr, hcounted⟩
        · exact hlhs ▸ length_outer_of_base r hr _ hhead
        · rw [hcounted, hexpr, outer_counted]
          exact .inl (by decide)
        · rw [hcounted, hexpr, outer_counted]
          exact .inr (by decide)
      rcases houter with houter | hlength
      · exact .inr (.inl (.inr ⟨hwhole.2 hall, hall, houter⟩))
      · exact .inr (.inr (Nat.sub_le_sub_left hlength _))
    · rw [rank_of_part (hsame.trans hstraight) (mt hwhole.1 hall), rank_of_part hstraight hall]
      by_cases hlist : part.kind = .labeledClauses
      · have hkind : span.kind = .labeledClauses := by
          rcases hheads with ⟨r, hr, hlhs, hhead⟩ | ⟨family, -, hexpr⟩ | ⟨family, -, hcounted⟩
          · exact hlhs ▸ labeledClauses_of_base r hr (hlist ▸ hhead)
          · rw [hlist] at hexpr
            cases hexpr
          · rw [hlist] at hcounted
            cases hcounted
        rw [hlist, hkind]
        exact .inr (.inr (Nat.le_refl _))
      · rw [if_neg hlist]
        exact .inr (.inr (Nat.zero_le _))

end

end ElispLift.Cond
