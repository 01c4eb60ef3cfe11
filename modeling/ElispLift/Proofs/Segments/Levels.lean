import ElispLift.Proofs.Extraction.Targets
import ElispLift.Proofs.Segments.Derivations

/-!
# Levels of nonterminals

What is built inside a span over the same instructions begins a rule for it, and has no higher level
but for a few forms. The forms of expressions are an exception, since an expression may begin them:
they are built only inside the expression that they are, which is not built again.
-/

namespace ElispLift.StraightLine

open Grammar Extraction

/-- The level of a nonterminal. -/
def level : Nonterminal → Nat
  | .fnBody => 9
  | .clause => 8
  | .body => 7
  | .exprs | .optExprs => 6
  | .exprStmt | .varlist => 5
  | .condition | .dolistList | .exprReturn | .varbind | .varlistStacked
  | .varlistStackedInner => 4
  | .expr => 3
  | .nullaryOp | .unaryOp | .binaryOp | .ternaryOp | .optDiscard => 1
  | _ => 2

/-- Forms that are expressions and nothing else. -/
def isGuarded : Nonterminal → Bool
  | .ifElseForm | .ifForm | .whenMacro | .condForm | .orForm | .andForm | .whileForm1 | .whileForm2
  | .dolistMacro | .dolistMacroResult | .unwindProtectForm | .letFormStar | .letFormStacked
  | .saveExcursionForm | .saveRestrictionForm | .withCurrentBufferSafeMacro
  | .saveCurrentBufferForm | .setBuffer | .setqForm | .setqFormDup | .setqFormStacked | .setExpr
  | .popExpr | .binaryExpr | .ternaryExpr | .unaryExpr | .nullaryExpr | .nameExpr
  | .counted _ => true
  | _ => false

/-- Forms that begin with a nonterminal of a higher level. -/
def isSteep : Nonterminal → Bool
  | .binaryExprStacked | .condForm | .dolistMacro | .dolistMacroResult | .dolistInitVar
  | .letFormStar | .letFormStacked => true
  | _ => false

/-- A form is built inside the expression over the same instructions. -/
def Guards (t span : Span) : Prop :=
  isGuarded span.kind = true ∧ t = ⟨.expr, span.first, span.last⟩

/-- The nonterminals that may begin where their rule begins. -/
def heads : List Symbol → List Nonterminal
  | .nonterminal kind :: rest => kind :: if kind ∈ optional then heads rest else []
  | _ => []

/-- Whether all instructions of a span are steps. -/
def isStraight (tokens : List Instruction) (span : Span) : Bool :=
  (List.range' span.first (span.last - span.first)).all fun q =>
    (tokens[q]?.map (isStep ·.kind)).getD false

variable {tokens : List Instruction} {start kind : Nonterminal} {p e pos last : Nat}
  {symbols : List Symbol} {span part t : Span} {r : Rule}

theorem isStraight_iff : isStraight tokens span = true ↔ ∀ q, span.first ≤ q → q < span.last →
    ∃ i, tokens[q]? = some i ∧ isStep i.kind = true := by
  rw [isStraight, List.all_eq_true]
  refine ⟨fun h q hlow hhigh => ?_, fun h q hq => ?_⟩
  · have hq := h q (List.mem_range'_1.2 ⟨hlow, by omega⟩)
    cases hi : tokens[q]? with
    | none => simp [hi] at hq
    | some i => exact ⟨i, rfl, by simpa [hi] using hq⟩
  · obtain ⟨hlow, hhigh⟩ := List.mem_range'_1.1 hq
    obtain ⟨i, hi, hstep⟩ := h q hlow (by omega)
    simp [hi, hstep]

/-- Only markers are read where a span ends. -/
theorem lt_of_covers (hkind : kind ∉ optional)
    (h : Covers (tokenRules tokens) tokens ⟨kind, p, e⟩) : p < e := by
  have hle : p ≤ e := h.le
  refine Nat.lt_of_le_of_ne hle ?_
  rintro rfl
  obtain ⟨r, hr, rfl, hrhs, -⟩ := h.of_single
  exact hkind (optional_of_nullable (closed_nullableOf r hr (hrhs.vanishes rfl)))

/-- What may stand in one place, or not, is read over one instruction or none. -/
theorem marker_of_covers {terminal : OpKind}
    (hrules : ∀ r ∈ base, r.lhs = kind → r.rhs = [.terminal terminal] ∨ r.rhs = [])
    (hkind : kind ≠ .expr ∧ ∀ family, kind ≠ .counted family)
    (h : Covers (tokenRules tokens) tokens ⟨kind, p, e⟩) :
    e = p ∨ e = p + 1 ∧ ∃ i, tokens[p]? = some i ∧ i.kind = terminal := by
  obtain ⟨r, hr, rfl, hrhs, -⟩ := h.of_single
  dsimp only at hrhs
  rcases hrules r (mem_base_of_lhs hr hkind.1 hkind.2) rfl with heq | heq <;> rw [heq] at hrhs
  · cases hrhs with
    | terminal hk hrest =>
      cases hrest
      obtain ⟨i, hi, hkind⟩ := Option.map_eq_some_iff.1 ((List.getElem?_map ..).symm.trans hk)
      exact .inr ⟨rfl, i, hi, hkind⟩
  · cases hrhs
    exact .inl rfl

theorem mem_heads (hpos : pos ≤ last)
    (h : part ∈ partsFrom (inputOf (tokenRules tokens) start tokens) last symbols pos)
    (hfirst : part.first = pos) : part.kind ∈ heads symbols := by
  have hforward := forward_inputOf (tokenRules tokens) start tokens
  induction symbols generalizing pos with
  | nil => simp [partsFrom] at h
  | cons s rest ih =>
    cases s with
    | word text => simp [partsFrom] at h
    | terminal kind =>
      rw [partsFrom] at h
      split at h
      · split at h
        next hmatches =>
          have hlt : pos < last := by simp_all
          have hwithin := (within_of_mem_partsFrom hforward hlt h).1
          omega
        · simp at h
      · simp at h
    | nonterminal kind =>
      rw [partsFrom] at h
      obtain ⟨stop, hstop, hpart⟩ := List.mem_flatMap.1 h
      rcases List.mem_cons.1 hpart with rfl | hrest
      · exact List.mem_cons_self
      · -- What stands before the part is empty.
        obtain ⟨hcovers, hend, -⟩ := covers_of_mem_endsFor hstop
        have hle : pos ≤ stop := hcovers.le
        have hwithin := (within_of_mem_partsFrom hforward (show stop ≤ last by omega) hrest).1
        obtain rfl : stop = pos := by omega
        have hoptional : kind ∈ optional := by
          by_contra hnot
          exact Nat.lt_irrefl _ (lt_of_covers hnot hcovers)
        rw [heads, if_pos hoptional]
        exact List.mem_cons_of_mem _ (ih hpos hrest hfirst)

/-- Whether a symbol is a form that is an expression and nothing else. -/
def isGuardedSymbol : Symbol → Bool
  | .nonterminal kind => isGuarded kind
  | _ => false

theorem guarded_base : ∀ r ∈ base, ∀ s ∈ r.rhs, isGuardedSymbol s = true →
    r.lhs = .expr ∧ r.rhs = [s] := by
  decide +kernel

/-- A form is built inside the expression that it is. -/
theorem Guards.eq (h : part ∈ partsOf (inputOf (tokenRules tokens) start tokens) span)
    (hguards : Guards t part) : t = span := by
  obtain ⟨r, hr, hlhs, hpart⟩ := exists_rule_of_mem_partsOf h
  obtain ⟨hguarded, rfl⟩ := hguards
  have hmem := mem_symbols_of_mem_partsFrom hpart
  have hrule : r.lhs = .expr ∧ r.rhs = [.nonterminal part.kind] := by
    rcases List.mem_append.1 hr with hbase | hextra
    · exact guarded_base r hbase _ hmem hguarded
    · obtain ⟨family, count, -, rfl | rfl⟩ := arityRulesAfter_mem hextra
      · obtain ⟨-, hexpr⟩ : _ ∧ part.kind = .expr := by simpa [arityRule] using hmem
        rw [hexpr] at hguarded
        cases hguarded
      · have hcounted : part.kind = .counted family := by simpa [promotion] using hmem
        rw [hcounted]
        exact ⟨rfl, rfl⟩
  rw [hrule.2] at hpart
  obtain ⟨stop, hstop, hpart⟩ := List.mem_flatMap.1 hpart
  obtain ⟨-, -, hlast⟩ := covers_of_mem_endsFor hstop
  obtain rfl := hlast rfl
  have hspan : part = ⟨part.kind, span.first, span.last⟩ := by simpa [partsFrom] using hpart
  rw [hspan, ← hrule.1, hlhs]

theorem level_le_of_base : ∀ r ∈ base, isSteep r.lhs = false → ∀ kind ∈ heads r.rhs,
    kind = r.lhs ∨ (isGuarded r.lhs = true ∧ kind = .expr) ∨ level kind ≤ level r.lhs := by
  decide +kernel

/-- Over the same instructions nothing of a higher level is built inside a span, but for the span
itself and the expression that guards it. -/
theorem level_le_of_mem_partsOf (hle : span.first ≤ span.last) (hsteep : isSteep span.kind = false)
    (h : part ∈ partsOf (inputOf (tokenRules tokens) start tokens) span)
    (hfirst : part.first = span.first) (hlast : part.last = span.last) :
    part = span ∨ Guards part span ∨ level part.kind ≤ level span.kind := by
  obtain ⟨r, hr, hlhs, hpart⟩ := exists_rule_of_mem_partsOf h
  have hhead := mem_heads hle hpart hfirst
  have hcases : part.kind = r.lhs ∨ (isGuarded r.lhs = true ∧ part.kind = .expr) ∨
      level part.kind ≤ level r.lhs := by
    rcases List.mem_append.1 hr with hbase | hextra
    · exact level_le_of_base r hbase (hlhs ▸ hsteep) _ hhead
    · obtain ⟨family, count, -, rfl | rfl⟩ := arityRulesAfter_mem hextra
      · have hmem := mem_symbols_of_mem_partsFrom hpart
        obtain ⟨-, hexpr⟩ : _ ∧ part.kind = .expr := by simpa [arityRule] using hmem
        exact .inr (.inl ⟨rfl, hexpr⟩)
      · have hcounted : part.kind = .counted family := by simpa [promotion, heads] using hhead
        rw [hcounted]
        exact .inr (.inr (Nat.le_succ 2))
  rw [hlhs] at hcases
  obtain ⟨kind, first, last⟩ := part
  cases hfirst
  cases hlast
  rcases hcases with hsame | ⟨hguarded, hexpr⟩ | hlevel
  · cases hsame
    exact .inl rfl
  · cases hexpr
    exact .inr (.inl ⟨hguarded, rfl⟩)
  · exact .inr (.inr hlevel)

end ElispLift.StraightLine
