import ElispLift.Proofs.Loop.Targets

/-!
# Finding loops

The parser finds the loop behind the statements in front of it, or with the assignment in front of
it as its start value. Whatever is longer than a part of the loop goes up to its end, where nothing
is left for the part behind, or has no tree.
-/

namespace ElispLift.Loop

open Grammar StraightLine Extraction ElispLift.Derivation

/-- The parts over the same instructions have a lower rank. -/
def TargetPart (tokens : List Instruction) (st : Nat → State) (l : Parts) (span part : Span)
    (tree : Node) : Prop :=
  Target tokens st l part tree ∧
    (part.first = span.first → part.last = span.last → rank tokens l part < rank tokens l span)

variable {tokens : List Instruction} {st : Nat → State} {l : Parts} {p q e last cost : Nat}
  {i : Instruction} {op : Opcode} {node start tree : Node} {nodes : List Node}
  {kind : Nonterminal} {span : Span} {rest : List Symbol} {rules : List Rule}
  {target : Span → Node → Prop}

/-- Spans that end with the loop are ranked by level. -/
theorem rank_of_end (kind : Nonterminal) (p : Nat) :
    rank tokens l ⟨kind, p, l.turn + 3⟩ = level kind :=
  if_pos (.inr rfl)

theorem builds_statement (h : l.first = p) :
    Builds tokens l ⟨.exprStmt, p, l.turn + 3⟩ (kept (.plain .expr [l.form])) :=
  h ▸ .statement

section

variable (hl : Layout tokens st l)

include hl

/-- From the marker in front of the loop on each part is found. -/
theorem route_parts (hfirst : span.first ≤ l.head) (hlast : span.last = l.turn + 3)
    (harrives : Arrives (tokenRules tokens) .fnBody tokens loopSymbols l.head) :
    Route (tokenRules tokens) .fnBody tokens (TargetPart tokens st l span) span.last 0 loopSymbols
      l.head l.parts := by
  have hfork := lt_fork hl
  have hturn := lt_turn hl
  have hbranch : At tokens .gotoIfNilElsePop l.fork l.branch := ⟨hl.test.at_eq, hl.test.kind_eq⟩
  have htest := inner_test hl
  have hbody := inner_body hl
  refine hl.arrive.route (by omega) harrives fun harrives => hl.entry.route (by omega) harrives
    fun hcondition => ?_
  refine Route.longest hcondition (htest.covers hl.toDelimited) (by omega) (by simp)
    (fun q hlow hhigh _ => barren_of_not_shape hl fun node hshape => ?_)
    (fun hdue => ⟨⟨.inl htest, hdue⟩, fun hsame => ?_⟩) fun harrives =>
      hbranch.route (by omega) harrives fun hwhile => ?_
  · -- The jump is in no expression that begins within the loop.
    obtain ⟨hlt, hextends⟩ := extends_of_expr hl hshape
    have hreads := readsExpr_of_shape hshape (by omega)
    exact false_of_step hbranch.1 (by rw [hbranch.2]; rfl)
      (hreads.isStep hl.toSegmented (by omega) hlow)
  · change l.head + 2 = span.first at hsame
    omega
  refine Route.longest hwhile (hbody.covers hl.toDelimited) (by omega) (by simp)
    (fun q hlow hhigh _ => barren_of_not_shape hl fun node hshape => ?_)
    (fun hdue => ⟨⟨.inl hbody, hdue⟩, fun hsame => ?_⟩) fun harrives =>
      hl.back.route (by omega) harrives fun harrives => hl.leave.route (by omega) harrives
        fun harrives => hl.exit.route (by omega) harrives fun _ => ?_
  · obtain ⟨items, hitems, -⟩ := hshape
    obtain ⟨hlt, hextends⟩ := extends_of_items hl hitems
    omega
  · change l.fork + 1 = span.first at hsame
    omega
  · rw [hlast]
    exact .nil

theorem routed_loop (hdue : Due (tokenRules tokens) .fnBody tokens .whileForm2 l.head) :
    Routed (tokenRules tokens) .fnBody tokens
      (TargetPart tokens st l ⟨.whileForm2, l.head, l.turn + 3⟩)
      ⟨.whileForm2, l.head, l.turn + 3⟩ l.loop := by
  have hrule := mem_base_of_mem loopRule (by simp)
  have hprior : priorRules base loopRule = [] := by decide
  have hallowed : AllowsChildren tokens .whileForm2 l.parts (l.turn + 3) := by
    simp [AllowsChildren, Context.allowsChildren, Parts.parts, hl.plain]
  exact .of_prior l.parts 0 hrule rfl (by simp [hprior])
    (route_parts hl (Nat.le_refl _) rfl (Due.arrives hdue (mem_tokenRules hrule))) (by decide)
    hallowed rfl

theorem routed_started (hdue : Due (tokenRules tokens) .fnBody tokens .whileForm1 0)
    (hread : ReadsExpr tokens st 0 l.head start) :
    Routed (tokenRules tokens) .fnBody tokens (TargetPart tokens st l ⟨.whileForm1, 0, l.turn + 3⟩)
      ⟨.whileForm1, 0, l.turn + 3⟩ (l.startedLoop start) := by
  have hrule := mem_base_of_mem startedRule (by simp)
  have hprior : priorRules base startedRule = [] := by decide
  have hfork := lt_fork hl
  have hturn := lt_turn hl
  have hinner : Inner tokens st .expr 0 l.head start := .inl hread
  refine .of_prior _ 1 hrule rfl (by simp [hprior]) ?_ (by decide) rfl rfl
  refine Route.next [l.turn + 3] (Due.arrives hdue (mem_tokenRules hrule))
    (hinner.covers hl.toDelimited) (by dsimp only; omega) (by simp [loopSymbols])
    (fun q hlow hhigh _ => ?_)
    (fun hdue => ⟨⟨.inl hinner, hdue⟩, fun _ hsame => ?_⟩) fun harrives =>
      route_parts hl (Nat.zero_le _) rfl harrives
  · by_cases hend : q = l.turn + 3
    · rw [hend]
      exact .inr ⟨List.mem_singleton_self _, stuck_at_last fun kind hkind => by cases hkind⟩
    · refine .inl (barren_of_not_shape hl fun node hshape => ?_)
      obtain ⟨-, hextends⟩ := extends_of_expr hl hshape
      omega
  · change l.head = l.turn + 3 at hsame
    omega

theorem routed_expr (hdue : Due (tokenRules tokens) .fnBody tokens .expr l.first) :
    Routed (tokenRules tokens) .fnBody tokens (TargetPart tokens st l ⟨.expr, l.first, l.turn + 3⟩)
      ⟨.expr, l.first, l.turn + 3⟩ (.plain .expr [l.form]) := by
  have hplain : (⟨.expr, [n .whileForm2]⟩ : Rule) ∈ base := by decide
  have hstarted : (⟨.expr, [n .whileForm1]⟩ : Rule) ∈ base := by decide
  have hpriorPlain : ∀ r ∈ priorRules base ⟨.expr, [n .whileForm2]⟩,
      r.rhs.any (lacks isKnown isPresent) = true ∨ r.rhs = [n .whileForm1] := by
    decide
  have hpriorStarted : ∀ r ∈ priorRules base ⟨.expr, [n .whileForm1]⟩,
      r.rhs.any (lacks isKnown isPresent) = true := by
    decide
  have hnone : l.start = none → Routed (tokenRules tokens) .fnBody tokens
      (TargetPart tokens st l ⟨.expr, l.first, l.turn + 3⟩) ⟨.expr, l.first, l.turn + 3⟩
      (.plain .expr [l.form]) := by
    intro hstart
    rw [Parts.first, hstart] at hdue ⊢
    rw [Parts.form, hstart]
    refine routed_of_single hplain (fun r hr children hchildren => ?_) hdue (tokenDerives_loop hl)
      (fun hdue => ⟨⟨.inr (.loop hstart), hdue⟩, fun _ _ => ?_⟩) rfl rfl
    · rcases hpriorPlain r hr with hlacks | hrhs
      · exact not_assembles_of_lacks hl hlacks hchildren
      · -- No expression stands between the loop and where the statement begins.
        rw [hrhs] at hchildren
        obtain ⟨form, ⟨-, start, hread, -⟩, -⟩ := (shape_of_assembles hl hchildren).single
        exact Nat.lt_irrefl _ (hread.first_lt hl.toSegmented).1
    · rw [rank_of_end, rank_of_end]
      decide
  rcases hl.opening with ⟨hstart, hread, -⟩ | ⟨hstart, -, -⟩ | ⟨hstart, -, -⟩
  · rw [Parts.first, hstart] at hdue ⊢
    rw [Parts.form, hstart]
    refine routed_of_single hstarted (fun r hr _ => not_assembles_of_lacks hl (hpriorStarted r hr))
      hdue (tokenDerives_started hl hread)
      (fun hdue => ⟨⟨.inr (.started hstart), hdue⟩, fun _ _ => ?_⟩) rfl rfl
    rw [rank_of_end, rank_of_end]
    decide
  · exact hnone hstart
  · exact hnone hstart

theorem routed_statement (hdue : Due (tokenRules tokens) .fnBody tokens .exprStmt l.first) :
    Routed (tokenRules tokens) .fnBody tokens
      (TargetPart tokens st l ⟨.exprStmt, l.first, l.turn + 3⟩) ⟨.exprStmt, l.first, l.turn + 3⟩
      (kept (.plain .expr [l.form])) := by
  have hfork := lt_fork hl
  have hturn := lt_turn hl
  have hfirst := first_le (l := l)
  have hmarker : Inner tokens st .optDiscard (l.turn + 3) (l.turn + 3) (.plain .optDiscard []) :=
    .inl ⟨rfl, rfl⟩
  refine routed_kept hdue (tokenDerives_form hl) (fun hdue => ⟨⟨.inr .expr, hdue⟩, fun _ _ => ?_⟩)
    fun hdue => ⟨⟨.inl hmarker, hdue⟩, fun hsame _ => ?_⟩
  · rw [rank_of_end, rank_of_end]
    decide
  · change l.turn + 3 = l.first at hsame
    omega

/-- The loop is a statement of its own, behind those in front of it. -/
theorem routed_statements (hdue : Due (tokenRules tokens) .fnBody tokens .exprs 0) :
    Routed (tokenRules tokens) .fnBody tokens (TargetPart tokens st l ⟨.exprs, 0, l.turn + 3⟩)
      ⟨.exprs, 0, l.turn + 3⟩ (.plain .exprs (l.statements ++ [kept (.plain .expr [l.form])])) := by
  have hmore : (⟨.exprs, [n .exprs, n .exprStmt]⟩ : Rule) ∈ base := by decide
  have hprior : priorRules base ⟨.exprs, [n .exprs, n .exprStmt]⟩ =
      [⟨.exprs, [n .exprStmt]⟩] := by
    decide
  have hfork := lt_fork hl
  have hturn := lt_turn hl
  have hstatement := tokenDerives_statement hl
  have hrank : ∀ p, rank tokens l ⟨.exprStmt, p, l.turn + 3⟩ <
      rank tokens l ⟨.exprs, 0, l.turn + 3⟩ := fun p => by
    rw [rank_of_end, rank_of_end]
    decide
  have hsingle : l.first = 0 → l.statements = [] → Routed (tokenRules tokens) .fnBody tokens
      (TargetPart tokens st l ⟨.exprs, 0, l.turn + 3⟩) ⟨.exprs, 0, l.turn + 3⟩
      (.plain .exprs (l.statements ++ [kept (.plain .expr [l.form])])) := by
    intro hfirst hstatements
    rw [hstatements]
    rw [hfirst] at hstatement
    exact routed_exprs_of_single hdue hstatement
      fun hdue => ⟨⟨.inr (builds_statement hfirst), hdue⟩, fun _ _ => hrank 0⟩
  rcases hl.opening with ⟨hstart, -, hstatements⟩ | ⟨hstart, hread, hlisted⟩ |
    ⟨hstart, hhead, hstatements⟩
  · exact hsingle (by rw [Parts.first, hstart]; rfl) hstatements
  · have hfirst : l.first = l.head := by rw [Parts.first, hstart]; rfl
    have hpos : 0 < l.head := hlisted.first_lt fun _ _ _ h => (h.first_lt hl.toSegmented).1
    have hinner : Inner tokens st .exprs 0 l.head (.plain .exprs l.statements) :=
      ⟨_, listed_item_iff.2 hlisted, rfl⟩
    rw [hfirst] at hstatement
    refine .of_prior [.plain .exprs l.statements, kept (.plain .expr [l.form])] 1 hmore rfl
      (fun r hr children hchildren _ => ?_) ?_ (by decide) rfl rfl
    · -- The whole is no statement: what stands in front is no expression.
      rw [hprior, List.mem_singleton] at hr
      subst hr
      obtain ⟨node, hline | ⟨tree, ⟨-, ⟨hhead, -⟩ | ⟨start, hstart, -⟩⟩, -⟩, -⟩ :=
        (shape_of_assembles hl hchildren).single
      · exact (false_of_step hl.arrive.1 (by rw [hl.arrive.2]; rfl)
          (hline.isStep hl.toSegmented (Nat.zero_le _) (by dsimp only; omega))).elim
      · exact (Nat.ne_of_lt hpos hhead).elim
      · exact (hread start hstart).elim
    refine Route.next [l.turn + 3] (Due.arrives hdue (mem_tokenRules hmore))
      (hinner.covers hl.toDelimited) (by omega) (by simp) (fun q hlow hhigh _ => ?_)
      (fun hdue => ⟨⟨.inl hinner, hdue⟩, fun _ hsame => ?_⟩) fun harrives =>
        Route.final harrives hstatement fun hdue =>
          ⟨⟨.inr (builds_statement hfirst), hdue⟩, fun _ _ => hrank l.head⟩
    · by_cases hend : q = l.turn + 3
      · rw [hend]
        refine .inr ⟨List.mem_singleton_self _, stuck_at_last fun kind hkind q hcovers => ?_⟩
        obtain rfl := Symbol.nonterminal.inj hkind
        exact lt_of_covers (by decide) hcovers
      · refine .inl (barren_of_not_shape hl fun node hshape => ?_)
        obtain ⟨items, hitems, -⟩ := hshape
        obtain ⟨-, hextends⟩ := extends_of_items hl hitems
        omega
    · change l.head = l.turn + 3 at hsame
      omega
  · exact hsingle (by rw [Parts.first, hstart, hhead]; rfl) hstatements

theorem routed_routine (hdue : Due (tokenRules tokens) .fnBody tokens .fnBody 0) :
    Routed (tokenRules tokens) .fnBody tokens (TargetPart tokens st l ⟨.fnBody, 0, l.turn + 5⟩)
      ⟨.fnBody, 0, l.turn + 5⟩ l.routine := by
  have hrule := mem_base_of_mem stackedRule (by simp)
  have hprior : priorRules base stackedRule =
      [⟨.fnBody, [n .body, n .optLabel, n .optReturn]⟩] := by decide
  have hfork := lt_fork hl
  have hturn := lt_turn hl
  refine .of_prior _ 0 hrule rfl (fun r hr children hchildren _ => False.elim ?_) ?_ (by decide) rfl
    rfl
  · -- Behind the loop no return stands, with or without a label.
    rw [hprior, List.mem_singleton] at hr
    subst hr
    have hfollows := follows_of_chain hl (shape_of_assembles hl hchildren)
    simp only [Parts.Follows, Parts.Spans, Parts.Extends, n] at hfollows
    grind
  refine Route.longest (Due.arrives hdue (mem_tokenRules hrule)) (tokenDerives_body hl)
    (Nat.le_add_right _ 2) (by simp)
    (fun q hlow hhigh _ => barren_of_not_shape hl fun node hshape => ?_)
    (fun hdue => ⟨⟨.inr .body, hdue⟩, fun _ hlast => ?_⟩) fun harrives => ?_
  · have hextends := (spans_of_shape hl hshape).2
    omega
  · change l.turn + 3 = l.turn + 5 at hlast
    omega
  refine Route.longest harrives tokenDerives_arrivals (Nat.le_add_right _ 2) (by simp)
    (fun q hlow hhigh _ => barren_of_not_shape hl fun node hshape => ?_)
    (fun hdue => ⟨⟨.inr .arrivals, hdue⟩, fun hfirst _ => ?_⟩) fun harrives => ?_
  · have hspans : q = _ ∨ _ = _ ∨ _ = _ := spans_of_shape hl hshape
    omega
  · change l.turn + 3 = 0 at hfirst
    omega
  refine Route.longest harrives tokenDerives_label (Nat.le_add_right _ 2) (by simp)
    (fun q hlow hhigh _ => barren_of_not_shape hl fun node hshape => ?_)
    (fun hdue => ⟨⟨.inr .label, hdue⟩, fun hfirst _ => ?_⟩) fun harrives =>
      Route.final harrives (tokenDerives_return hl) fun hdue =>
        ⟨⟨.inr .return, hdue⟩, fun hfirst _ => ?_⟩
  · have hspans : q = _ ∨ q = _ ∧ (_ = _ ∨ _ = _) := spans_of_shape hl hshape
    omega
  all_goals
    change l.turn + 3 = 0 at hfirst
    omega

/-- Every target is found where it is waited for. -/
theorem routed (hbounded : CountsBounded tokens) (h : Target tokens st l span tree) :
    Routed (tokenRules tokens) .fnBody tokens (TargetPart tokens st l span) span tree := by
  obtain ⟨hinner | hbuilds, hdue⟩ := h
  · have hstraight : ∀ {part tree}, Inner tokens st part.kind part.first part.last tree →
        rank tokens l part = level part.kind := fun h =>
      if_pos (.inl (isStraight_iff.2 (h.isStep hl.toSegmented)))
    refine (routed_inner hl.toDelimited ⟨hinner, hdue⟩ hbounded).imp fun part tree h =>
      ⟨⟨.inl h.1.1, h.1.2⟩, fun hfirst hlast => ?_⟩
    rw [hstraight h.1.1, hstraight hinner]
    exact h.2 hfirst hlast
  · cases hbuilds with
    | started hstart =>
      rcases hl.opening with ⟨hstart', hread, -⟩ | ⟨hnone, -, -⟩ | ⟨hnone, -, -⟩
      · rw [Option.some.inj (hstart.symm.trans hstart')]
        exact routed_started hl hdue hread
      all_goals
        rw [hnone] at hstart
        cases hstart
    | loop => exact routed_loop hl hdue
    | expr => exact routed_expr hl hdue
    | statement => exact routed_statement hl hdue
    | statements => exact routed_statements hl hdue
    | body =>
      refine routed_body_of_exprs hdue (tokenDerives_statements hl)
        fun hdue => ⟨⟨.inr .statements, hdue⟩, fun _ _ => ?_⟩
      rw [rank_of_end, rank_of_end]
      decide
    | arrivals =>
      have hrule : (⟨.optComeFroms, []⟩ : Rule) ∈ base := by decide
      have hprior : priorRules base ⟨.optComeFroms, []⟩ = [⟨.optComeFroms, [n .comeFroms]⟩] := by
        decide
      refine .of_prior [] 0 hrule rfl (fun r hr children hchildren _ => False.elim ?_) .nil
        (by decide) rfl rfl
      rw [hprior, List.mem_singleton] at hr
      subst hr
      obtain ⟨node, hnode, -⟩ := (shape_of_assembles hl hchildren).single
      have hspans : l.turn + 3 = _ ∨ l.turn + 3 = _ := spans_of_shape hl hnode
      have hfork := lt_fork hl
      have hturn := lt_turn hl
      omega
    | label => exact routed_unlabeled
    | «return» =>
      have hrule : (⟨.stackedReturn, [t .stackAccess, t .ret]⟩ : Rule) ∈ base := by decide
      have hprior : priorRules base ⟨.stackedReturn, [t .stackAccess, t .ret]⟩ = [] := by decide
      refine .of_prior [.token l.access, .token l.ret] 0 hrule rfl (by simp [hprior]) ?_ (by decide)
        rfl rfl
      exact hl.access.route (by dsimp only; omega) (Due.arrives hdue (mem_tokenRules hrule))
        fun harrives => hl.ret.route (by dsimp only; omega) harrives fun _ => .nil
    | routine => exact routed_routine hl hdue

theorem plan (hbounded : CountsBounded tokens) :
    Plan (tokenRules tokens) .fnBody tokens (Target tokens st l) (rank tokens l) Guards where
  unique _ _ _ h h' := unique hl h h'
  descends _ _ hspan hpart hfirst hlast := descends hl hspan hpart hfirst hlast
  guarded _ _ _ _ hpart hguards := .inl (Guards.eq hpart hguards)
  routed _ _ h := routed hl hbounded h

/-- The parser reads the code as a routine whose last statement is the loop. -/
theorem parse_layout (hbounded : CountsBounded tokens) :
    parse .fnBody (arityRules tokens) tokens = .ok l.routine := by
  refine parse_of_plan (plan hl hbounded) hl.length_eq (tokenDerives_routine hl) (Nat.succ_pos _)
    ⟨.inr .routine, .inl ⟨rfl, rfl⟩⟩ fun t ht => ?_
  cases ht.1

end

end ElispLift.Loop
