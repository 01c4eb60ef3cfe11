import ElispLift.Proofs.Loop.Rules
import ElispLift.Proofs.Segments.Routes

/-!
# Trees of loops

What the parser builds on its way to a loop behind statements. The grammar derives each of these
trees, and for each span there is only one. Where the loop ends the levels of nonterminals descend,
since nothing that begins with a higher level ends in a label.
-/

namespace ElispLift.Loop

open Grammar StraightLine Extraction ElispLift.Derivation

/-- The trees that the parser builds besides those of straight-line code. -/
inductive Builds (tokens : List Instruction) (l : Parts) : Span → Node → Prop where
  | started {start : Node} (h : l.start = some start) :
      Builds tokens l ⟨.whileForm1, 0, l.turn + 3⟩ (l.startedLoop start)
  | loop (h : l.start = none) : Builds tokens l ⟨.whileForm2, l.head, l.turn + 3⟩ l.loop
  | expr : Builds tokens l ⟨.expr, l.first, l.turn + 3⟩ (.plain .expr [l.form])
  | statement : Builds tokens l ⟨.exprStmt, l.first, l.turn + 3⟩ (kept (.plain .expr [l.form]))
  | statements : Builds tokens l ⟨.exprs, 0, l.turn + 3⟩
      (.plain .exprs (l.statements ++ [kept (.plain .expr [l.form])]))
  | body : Builds tokens l ⟨.body, 0, l.turn + 3⟩
      (.plain .body [.plain .exprs (l.statements ++ [kept (.plain .expr [l.form])])])
  | arrivals : Builds tokens l ⟨.optComeFroms, l.turn + 3, l.turn + 3⟩ (.plain .optComeFroms [])
  | label : Builds tokens l ⟨.optLabel, l.turn + 3, l.turn + 3⟩ (.plain .optLabel [])
  | return : Builds tokens l ⟨.stackedReturn, l.turn + 3, l.turn + 5⟩
      (.plain .stackedReturn [.token l.access, .token l.ret])
  | routine : Builds tokens l ⟨.fnBody, 0, l.turn + 5⟩ l.routine

/-- A tree that is built, where it is waited for. -/
def Target (tokens : List Instruction) (st : Nat → State) (l : Parts) (span : Span) (tree : Node) :
    Prop :=
  (Inner tokens st span.kind span.first span.last tree ∨ Builds tokens l span tree) ∧
    Due (tokenRules tokens) .fnBody tokens span.kind span.first

/-- Spans of steps are ranked by level, and so are those that end with the loop. -/
def rank (tokens : List Instruction) (l : Parts) (span : Span) : Nat :=
  if isStraight tokens span = true ∨ span.last = l.turn + 3 then level span.kind else 0

/-- Nonterminals that do not end in a label. -/
def unlabeled : List Nonterminal :=
  [.binaryOp, .binaryExprStacked, .stackedReturn, .endClause, .clause, .varbind, .varlist,
    .dolistInitVar, .dolistMacro, .dolistMacroResult, .letFormStacked]

/-- The last symbol is an instruction other than a label, or a nonterminal that does not end in one.
-/
def endsUnlabeled (s : List Symbol) : Bool :=
  match s.getLast? with
  | some (.terminal kind) => kind ≠ .fixed .label
  | some (.nonterminal kind) => kind ∈ unlabeled
  | _ => false

theorem endsUnlabeled_of_base : ∀ r ∈ base, r.lhs ∈ unlabeled → endsUnlabeled r.rhs = true := by
  decide +kernel

theorem unlabeled_of_isSteep : ∀ r ∈ base, isSteep r.lhs = true →
    r.lhs ∈ unlabeled ∨ ∀ kind ∈ heads r.rhs, kind ∈ unlabeled := by
  decide +kernel

variable {tokens : List Instruction} {st : Nat → State} {l : Parts} {p q e : Nat}
  {i : Instruction} {op : Opcode} {node start tree tree' : Node} {kind : Nonterminal}
  {span part : Span} {s : List Symbol}

theorem exists_last_of_unlabeled (h : TokenDerives tokens s p e) (hs : endsUnlabeled s = true) :
    ∃ q i, e = q + 1 ∧ tokens[q]? = some i ∧ i.kind ≠ .fixed .label := by
  induction h with
  | nil => cases hs
  | @terminal kind rest p e hk h ih =>
    cases rest with
    | nil =>
      cases h
      obtain ⟨i, hi, rfl⟩ := Option.map_eq_some_iff.1 ((List.getElem?_map ..).symm.trans hk)
      exact ⟨p, i, rfl, hi, by simpa [endsUnlabeled] using hs⟩
    | cons x rest => exact ih (by simpa [endsUnlabeled] using hs)
  | @nonterminal r rest p m e hr h hok h' ih ih' =>
    cases rest with
    | nil =>
      cases h'
      have hkind : r.lhs ∈ unlabeled := by simpa [endsUnlabeled] using hs
      refine ih (endsUnlabeled_of_base r (mem_base_of_lhs hr ?_ ?_) hkind)
      · intro he
        rw [he] at hkind
        exact absurd hkind (by decide)
      · intro family he
        rw [he] at hkind
        simp [unlabeled] at hkind
    | cons x rest => exact ih' (by simpa [endsUnlabeled] using hs)

/-! ### Derivations -/

theorem tokenDerives_arrivals : TokenDerives tokens [.nonterminal .optComeFroms] p p :=
  tokenDerives_absent (by decide) rfl

theorem tokenDerives_label : TokenDerives tokens [.nonterminal .optLabel] p p :=
  tokenDerives_absent (by decide) rfl

section

variable (hl : Layout tokens st l)

include hl

theorem inner_test : Inner tokens st .expr (l.head + 2) l.fork l.test.tree :=
  hl.test.inner hl.toSegmented

theorem inner_body : Inner tokens st .body (l.fork + 1) l.turn
    (.plain .body [.plain .exprs l.body]) :=
  ⟨l.body, listed_item_iff.2 hl.body, rfl⟩

theorem tokenDerives_parts : TokenDerives tokens loopSymbols l.head (l.turn + 3) := by
  have hbranch : At tokens .gotoIfNilElsePop l.fork l.branch := ⟨hl.test.at_eq, hl.test.kind_eq⟩
  exact hl.arrive.tokenDerives.append (hl.entry.tokenDerives.append
    ((tokenDerives_inner hl.toDelimited (inner_test hl)).append (hbranch.tokenDerives.append
      ((tokenDerives_inner hl.toDelimited (inner_body hl)).append (hl.back.tokenDerives.append
        (hl.leave.tokenDerives.append hl.exit.tokenDerives))))))

theorem tokenDerives_loop : TokenDerives tokens [.nonterminal .whileForm2] l.head (l.turn + 3) :=
  tokenDerives_base (mem_base_of_mem loopRule (by simp)) rfl (tokenDerives_parts hl)

theorem tokenDerives_started (h : ReadsExpr tokens st p l.head start) :
    TokenDerives tokens [.nonterminal .whileForm1] p (l.turn + 3) :=
  tokenDerives_base (mem_base_of_mem startedRule (by simp)) rfl
    ((tokenDerives_expr hl.toDelimited h).append (tokenDerives_parts hl))

theorem tokenDerives_form : TokenDerives tokens [.nonterminal .expr] l.first (l.turn + 3) := by
  have hstarted : (⟨.expr, [n .whileForm1]⟩ : Rule) ∈ base := by decide
  have hplain : (⟨.expr, [n .whileForm2]⟩ : Rule) ∈ base := by decide
  have hnone : l.start = none → TokenDerives tokens [.nonterminal .expr] l.first (l.turn + 3) := by
    intro hstart
    rw [Parts.first, hstart]
    exact tokenDerives_base hplain rfl (tokenDerives_loop hl)
  rcases hl.opening with ⟨hstart, hread, -⟩ | ⟨hstart, -, -⟩ | ⟨hstart, -, -⟩
  · rw [Parts.first, hstart]
    exact tokenDerives_base hstarted rfl (tokenDerives_started hl hread)
  · exact hnone hstart
  · exact hnone hstart

/-! ### Heights -/

omit hl in
theorem first_le : l.first ≤ l.head := by
  unfold Parts.first
  split <;> omega

theorem clear_first : (st l.first).pending = [] := by
  unfold Parts.first
  split
  · rw [hl.start]
    rfl
  · exact hl.clear.1

/-- The instructions of the loop that are no steps take what is on the stack. -/
theorem spent_at (hi : tokens[q]? = some i) (hcontrol : isStep i.kind = false)
    (hq : q < l.turn + 3) :
    i.effect.net = -((st q).pending.length : Int) := by
  have hstands := stands hl hi
  rw [Instruction.effect]
  generalize i.kind = kind at hstands hcontrol
  unfold Parts.Stands at hstands
  split at hstands
  · rcases hstands with rfl | rfl
    · rw [hl.clear.1]
      rfl
    · rw [hl.back.start_behind hl.toSegmented rfl]
      rfl
  · rcases hstands with rfl | rfl
    · rw [hl.arrive.start_behind hl.toSegmented rfl]
      rfl
    · rw [hl.leave.start_behind hl.toSegmented rfl]
      rfl
  · rw [hstands, hl.test.pending_eq]
    rfl
  · rw [hstands, hl.clear.2]
    rfl
  · omega
  · omega
  · rw [hstands.1] at hcontrol
    cases hcontrol

theorem tokenDerives_statement :
    TokenDerives tokens [.nonterminal .exprStmt] l.first (l.turn + 3) := by
  have hlength := hl.length_eq
  have hfirst := first_le (l := l)
  have hfork := lt_fork hl
  have hturn := lt_turn hl
  refine (tokenDerives_body_of_expr (tokenDerives_form hl) ?_).1
  have hnet := hl.toSegmented.net_eq_of_spent (show l.first ≤ l.turn + 3 by omega) (by omega)
    fun q i _ hhigh hi hcontrol => spent_at hl hi hcontrol hhigh
  rw [hl.exit.start_behind hl.toSegmented rfl, clear_first hl] at hnet
  simp [Context.allowsSpan, Context.allowsStatement, hnet, State.start]

theorem tokenDerives_statements : TokenDerives tokens [.nonterminal .exprs] 0 (l.turn + 3) := by
  have hone : (⟨.exprs, [n .exprStmt]⟩ : Rule) ∈ base := by decide
  have hmore : (⟨.exprs, [n .exprs, n .exprStmt]⟩ : Rule) ∈ base := by decide
  have hstatement := tokenDerives_statement hl
  rcases hl.opening with ⟨hstart, -, -⟩ | ⟨hstart, -, hlisted⟩ | ⟨hstart, hhead, -⟩ <;>
    rw [Parts.first, hstart] at hstatement
  · exact tokenDerives_base hone rfl hstatement
  · exact tokenDerives_base hmore rfl
      ((tokenDerives_list (fun _ _ _ => tokenDerives_line hl.toDelimited) hlisted).append
        hstatement)
  · rw [hhead] at hstatement
    exact tokenDerives_base hone rfl hstatement

theorem tokenDerives_body : TokenDerives tokens [.nonterminal .body] 0 (l.turn + 3) := by
  have hrule : (⟨.body, [n .exprs]⟩ : Rule) ∈ base := by decide
  exact tokenDerives_base hrule rfl (tokenDerives_statements hl)

theorem tokenDerives_return :
    TokenDerives tokens [.nonterminal .stackedReturn] (l.turn + 3) (l.turn + 5) := by
  have hrule : (⟨.stackedReturn, [t .stackAccess, t .ret]⟩ : Rule) ∈ base := by decide
  exact tokenDerives_base hrule rfl (hl.access.tokenDerives.append hl.ret.tokenDerives)

theorem tokenDerives_routine : TokenDerives tokens [.nonterminal .fnBody] 0 (l.turn + 5) :=
  tokenDerives_base (mem_base_of_mem stackedRule (by simp)) rfl
    ((tokenDerives_body hl).append (tokenDerives_arrivals.append
      (tokenDerives_label.append (tokenDerives_return hl))))

/-! ### Trees of targets -/

/-- What is built is not straight-line code. -/
theorem not_inner_of_builds (h : Builds tokens l span tree) :
    ¬Inner tokens st span.kind span.first span.last tree' := by
  intro hinner
  have hfork := lt_fork hl
  have hturn := lt_turn hl
  have hspans : ∀ {kind p}, p ≤ l.head → Inner tokens st kind p (l.turn + 3) tree' → False := by
    intro kind p hp hinner
    have hextends := hinner.isStep hl.toSegmented l.turn (by omega) (by omega)
    exact false_of_step hl.back.1 (by rw [hl.back.2]; rfl) hextends
  cases h with
  | started | loop | arrivals | label | «return» | routine => exact hinner.elim
  | expr | statement => exact hspans first_le hinner
  | statements | body => exact hspans (Nat.zero_le _) hinner

theorem unique (h : Target tokens st l span tree) (h' : Target tokens st l span tree') :
    tree' = tree := by
  refine eq_of_inner_or hl.toSegmented (not_inner_of_builds hl) (fun h h' => ?_) h.1 h'.1
  cases h with
  | started hstart =>
    cases h' with
    | started hstart' => rw [Option.some.inj (hstart'.symm.trans hstart)]
  | _ =>
    cases h'
    rfl

/-! ### Ranks -/

/-- Where the loop ends nothing begins with a nonterminal of a higher level. -/
theorem not_isSteep (hspan : Covers (tokenRules tokens) tokens span)
    (hpart : part ∈ partsOf (inputOf (tokenRules tokens) .fnBody tokens) span)
    (hfirst : part.first = span.first) (hlast : part.last = span.last)
    (hend : span.last = l.turn + 3) : isSteep span.kind = false := by
  have hlabel : ∀ {kind p}, kind ∈ unlabeled →
      ¬TokenDerives tokens [.nonterminal kind] p (l.turn + 3) := by
    intro kind p hkind h
    obtain ⟨q, i, he, hi, hne⟩ := exists_last_of_unlabeled h (by simpa [endsUnlabeled] using hkind)
    obtain rfl : q = l.turn + 2 := by omega
    exact hne (hl.exit.kind_of hi)
  refine Bool.eq_false_iff.2 fun hsteep => ?_
  obtain ⟨r, hr, hlhs, hmem⟩ := exists_rule_of_mem_partsOf hpart
  have hbase : r ∈ base := by
    refine mem_base_of_lhs hr ?_ ?_ <;> rw [hlhs]
    · rintro he
      rw [he] at hsteep
      cases hsteep
    · rintro family he
      rw [he] at hsteep
      cases hsteep
  rcases unlabeled_of_isSteep r hbase (hlhs ▸ hsteep) with hkind | hheads
  · have hcovers : TokenDerives tokens [.nonterminal span.kind] span.first (l.turn + 3) :=
      hend ▸ hspan
    exact hlabel (hlhs ▸ hkind) hcovers
  · have hcovers : TokenDerives tokens [.nonterminal part.kind] part.first (l.turn + 3) :=
      (hlast.trans hend) ▸ covers_of_mem_partsOf hpart
    exact hlabel (hheads _ (mem_heads hspan.le hmem hfirst)) hcovers

/-- Over the same instructions no rank is higher inside. -/
theorem descends (hspan : Covers (tokenRules tokens) tokens span)
    (hpart : part ∈ partsOf (inputOf (tokenRules tokens) .fnBody tokens) span)
    (hfirst : part.first = span.first) (hlast : part.last = span.last) :
    part = span ∨ Guards part span ∨ rank tokens l part ≤ rank tokens l span := by
  have hsame : isStraight tokens part = isStraight tokens span := by
    rw [isStraight, isStraight, hfirst, hlast]
  unfold rank
  rw [hsame, hlast]
  split
  next hranked =>
    rcases hranked with hstraight | hend
    · exact level_le_of_steps hl.toDelimited (isStraight_iff.1 hstraight) hspan hpart hfirst hlast
    · exact level_le_of_mem_partsOf hspan.le (not_isSteep hl hspan hpart hfirst hlast hend) hpart
        hfirst hlast
  next => exact .inr (.inr (Nat.le_refl 0))

end

end ElispLift.Loop
