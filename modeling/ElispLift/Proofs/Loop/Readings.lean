import ElispLift.Proofs.Segments.Levels
import ElispLift.Proofs.Segments.Spans

/-!
# Readings of loops

Statements, and a loop behind them. The loop is read with an expression in front of it as its start
value, or without one. The grammar has more rules for what the code of a loop is made of, but where
each part of it stands leaves no span for them: what a rule is read over is told by the positions of
its symbols alone.
-/

namespace ElispLift.Loop

open Grammar StraightLine Extraction ElispLift.Derivation

/-- What a routine is made of that ends in a loop. The loop begins at `head`, its condition is
tested at `fork`, and its body ends at `turn`. -/
structure Parts where
  head : Nat
  fork : Nat
  turn : Nat
  statements : List Node
  start : Option Node
  test : Pending
  body : List Node
  arrive : Instruction
  entry : Instruction
  branch : Instruction
  back : Instruction
  leave : Instruction
  exit : Instruction
  access : Instruction
  ret : Instruction

namespace Parts

variable (l : Parts)

/-- From the marker for the jump back to the label behind the loop. -/
def parts : List Node :=
  [.token l.arrive, .token l.entry, l.test.tree, .token l.branch,
    .plain .body [.plain .exprs l.body], .token l.back, .token l.leave, .token l.exit]

def loop : Node := .plain .whileForm2 l.parts

/-- The loop with an expression in front of it as its start value. -/
def startedLoop (start : Node) : Node := .plain .whileForm1 (start :: l.parts)

/-- The loop, with its start value if it has one. -/
def form : Node := l.start.elim l.loop l.startedLoop

/-- Where the statement begins that is the loop. -/
def first : Nat := if l.start.isSome then 0 else l.head

def routine : Node :=
  .plain .fnBody [.plain .body [.plain .exprs (l.statements ++ [kept (.plain .expr [l.form])])],
    .plain .optComeFroms [], .plain .optLabel [],
    .plain .stackedReturn [.token l.access, .token l.ret]]

/-! ### Spans -/

/-- Where an instruction of a kind may stand. -/
def Stands : OpKind → Nat → Prop
  | .fixed .comeFrom, q => q = l.head ∨ q = l.turn + 1
  | .fixed .label, q => q = l.head + 1 ∨ q = l.turn + 2
  | .fixed .gotoIfNilElsePop, q => q = l.fork
  | .fixed .goto, q => q = l.turn
  | .fixed .stackAccess, q => q = l.turn + 3
  | .fixed .ret, q => q = l.turn + 4
  | kind, q => isStep kind = true ∧
    (q < l.head ∨ l.head + 2 ≤ q ∧ q < l.fork ∨ l.fork < q ∧ q < l.turn)

/-- Nonterminals about which nothing is known. -/
def isUnread : Nonterminal → Bool
  | .fnBody | .bodyStacked | .dolistList | .exprReturn | .optExprs | .varlistStackedInner
  | .dolistLoopIterSet => true
  | _ => false

/-- Expressions and statements end in front of the loop, or stand within its condition and its body,
or go up to its end. -/
def Extends (p e : Nat) : Prop :=
  p < e ∧ (e ≤ l.head ∨ l.head + 2 ≤ p ∧ e ≤ l.turn ∨ p ≤ l.head ∧ e = l.turn + 3)

/-- The spans that a nonterminal may be read over. -/
def Spans (kind : Nonterminal) (p e : Nat) : Prop :=
  match kind with
  | .expr | .exprStmt | .exprs | .body => l.Extends p e
  | .unaryOp | .binaryOp | .ternaryOp => p < l.turn
  | .whileForm1 => p < l.head ∧ e = l.turn + 3
  | .whileForm2 => p = l.head ∧ e = l.turn + 3
  | .condition => p < e ∧ p ≤ l.turn
  | .clause => p ≤ l.turn ∧ (e = l.turn + 2 ∨ e = l.turn + 5)
  | .endClause => e = l.turn + 2 ∨ e = l.turn + 5
  | .labeledClause | .labeledClauses => p = l.head + 1
  | .comeFroms => p = l.head ∨ p = l.turn + 1
  | .optComeFroms => e = p ∨ p = l.head ∨ p = l.turn + 1
  | .optComeFrom => e = p ∨ p = l.head ∨ p = l.turn + 1
  | .optLabel => e = p ∨ e = p + 1 ∧ (p = l.head + 1 ∨ p = l.turn + 2)
  | .optReturn => e = p ∨ p = l.turn + 4
  | .stackedReturn => p = l.turn + 3 ∧ e = l.turn + 5
  | kind => isInner kind = true ∨ isUnread kind = true

/-- The symbols may be read one behind the other. -/
def Follows : List Symbol → (p e : Nat) → Prop
  | [], p, e => e = p
  | .terminal kind :: rest, p, e => l.Stands kind p ∧ Follows rest (p + 1) e
  | .nonterminal kind :: rest, p, e => ∃ m, p ≤ m ∧ l.Spans kind p m ∧ Follows rest m e
  | .word _ :: _, _, _ => False

end Parts

section

variable (tokens : List Instruction) (st : Nat → State) (l : Parts)

/-- The expression that is the loop, behind its start value or without one. -/
def ReadsLoop (p e : Nat) (node : Node) : Prop :=
  e = l.turn + 3 ∧ (p = l.head ∧ node = .plain .expr [l.loop] ∨
    ∃ start, ReadsExpr tokens st p l.head start ∧ node = .plain .expr [l.startedLoop start])

/-- The nodes of nonterminals besides those of straight-line code. -/
def Reads (kind : Nonterminal) (p e : Nat) (node : Node) : Prop :=
  match kind with
  | .whileForm1 => e = l.turn + 3 ∧
      ∃ start, ReadsExpr tokens st p l.head start ∧ node = l.startedLoop start
  | .whileForm2 => e = l.turn + 3 ∧ p = l.head ∧ node = l.loop
  | kind => l.Spans kind p e

/-- An expression in front of the loop is its start value. Otherwise what stands there is
statements, or nothing. -/
inductive Opens : Prop where
  | started {start : Node} (hstart : l.start = some start)
      (hread : ReadsExpr tokens st 0 l.head start) (hstatements : l.statements = []) : Opens
  | behind (hstart : l.start = none) (hread : ∀ start, ¬ReadsExpr tokens st 0 l.head start)
      (hlisted : Listed (ReadsLine tokens st) 0 l.head l.statements) : Opens
  | first (hstart : l.start = none) (hhead : l.head = 0) (hstatements : l.statements = []) : Opens

/-- The instructions stand where they should. The condition takes no value from outside, and the
jump behind it leads past the body. -/
structure Layout : Prop extends Delimited tokens st where
  opening : Opens tokens st l
  arrive : At tokens .comeFrom l.head l.arrive
  entry : At tokens .label (l.head + 1) l.entry
  test : Spends tokens st .gotoIfNilElsePop (l.head + 2) l.fork l.test l.branch
  body : Listed (ReadsLine tokens st) (l.fork + 1) l.turn l.body
  back : At tokens .goto l.turn l.back
  leave : At tokens .comeFrom (l.turn + 1) l.leave
  exit : At tokens .label (l.turn + 2) l.exit
  access : At tokens .stackAccess (l.turn + 3) l.access
  ret : At tokens .ret (l.turn + 4) l.ret
  length_eq : tokens.length = l.turn + 5
  clear : (st l.head).pending = [] ∧ (st l.turn).pending = []
  plain : Context.startsStacked l.test.tree = false
  misaligned : ∀ e, e ≤ l.turn →
    Context.aligned ⟨tokens.toArray⟩ (some (.token l.branch)) e = false

end

/-- A loop from the marker in front of it to the label behind it. -/
def loopSymbols : List Symbol :=
  [t .comeFrom, t .label, n .expr, t .gotoIfNilElsePop, n .body, t .goto, t .comeFrom, t .label]

def loopRule : Rule := ⟨.whileForm2, loopSymbols⟩

def startedRule : Rule := ⟨.whileForm1, n .expr :: loopSymbols⟩

/-- Rules for the loop, and for the expression that it is. -/
def loopRules : List Rule :=
  [⟨.expr, [n .whileForm1]⟩, ⟨.expr, [n .whileForm2]⟩, startedRule, loopRule]

/-- A routine that returns what is left on the stack. -/
def stackedRule : Rule := ⟨.fnBody, [n .body, n .optComeFroms, n .optLabel, n .stackedReturn]⟩

theorem mem_base_of_mem : ∀ r ∈ [loopRule, startedRule, stackedRule], r ∈ base := by
  decide

/-- Rules whose symbols tell where they are read. -/
def spanRules : List Rule :=
  [⟨.condition, [n .expr, t .gotoIfNilElsePop, n .optComeFrom, n .optLabel]⟩,
    ⟨.clause, [n .condition, n .body, n .endClause]⟩,
    ⟨.clause, [n .optLabel, n .body, n .endClause]⟩, ⟨.endClause, [t .goto, t .comeFrom]⟩,
    ⟨.endClause, [t .ret]⟩, ⟨.endClause, [n .stackedReturn]⟩,
    ⟨.labeledClauses, [n .labeledClause]⟩,
    ⟨.labeledClauses, [n .labeledClauses, n .labeledClause]⟩,
    ⟨.labeledClause, [t .label, n .clause]⟩, ⟨.comeFroms, [t .comeFrom]⟩,
    ⟨.comeFroms, [n .comeFroms, t .comeFrom]⟩, ⟨.optComeFroms, [n .comeFroms]⟩,
    ⟨.optComeFroms, []⟩, ⟨.optComeFrom, [t .comeFrom]⟩, ⟨.optComeFrom, []⟩,
    ⟨.optLabel, [t .label]⟩, ⟨.optReturn, [t .ret]⟩, ⟨.optReturn, []⟩,
    ⟨.stackedReturn, [t .stackAccess, t .ret]⟩]

theorem lhs_of_spanRule : ∀ r ∈ spanRules, isInner r.lhs = false ∧
    r.lhs ≠ .whileForm1 ∧ r.lhs ≠ .whileForm2 := by
  decide

/-- Rules whose symbols do not follow one another. -/
def idleRules : List Rule :=
  [⟨.whenMacro, [n .expr, t .gotoIfNilElsePop, n .body, n .comeFroms, t .label]⟩,
    ⟨.condForm, [n .clause, n .labeledClauses, n .comeFroms, t .label]⟩,
    ⟨.condForm, [n .clause, n .labeledClauses]⟩,
    ⟨.labeledFinalClause, [t .label, n .condition, n .body, n .comeFroms]⟩,
    ⟨.endClause, [t .ret, t .comeFrom]⟩, ⟨.unaryExpr, [t .stackAccess, n .unaryOp]⟩,
    ⟨.unaryExprStacked, [t .stackAccess, n .unaryOp]⟩,
    ⟨.binaryExprStacked, [n .expr, t .stackAccess, n .binaryOp]⟩,
    ⟨.binaryExprStacked, [t .stackAccess, n .expr, n .binaryOp]⟩,
    ⟨.ternaryExprStacked, [t .stackAccess, n .expr, n .expr, n .ternaryOp]⟩]

/-- A form that needs a jump to its end. -/
def andRule : Rule :=
  ⟨.andForm, [n .expr, t .gotoIfNilElsePop, n .expr, n .optComeFrom, n .optLabel]⟩

def isKnown (kind : Nonterminal) : Bool :=
  isInner kind || Parts.isUnread kind ||
    kind ∈ [Nonterminal.whileForm1, .whileForm2, .condition, .clause, .endClause, .labeledClause,
      .labeledClauses, .comeFroms, .optComeFroms, .optComeFrom, .optLabel, .optReturn,
      .stackedReturn]

/-- What stands between the steps. -/
def isPresent (kind : OpKind) : Bool :=
  kind ∈ [OpKind.fixed .comeFrom, .fixed .label, .fixed .gotoIfNilElsePop, .fixed .goto,
    .fixed .stackAccess, .fixed .ret]

theorem loop_cases : ∀ r ∈ base, r.rhs.any (lacks isKnown isPresent) = true ∨
    Parts.isUnread r.lhs = true ∨ r ∈ operators ∨ r ∈ liveRules ∨
      r ∈ andRule :: (loopRules ++ spanRules ++ idleRules) := by
  decide +kernel

variable {tokens : List Instruction} {st : Nat → State} {l : Parts} {p q m e : Nat}
  {i : Instruction} {op : Opcode} {node : Node} {nodes : List Node} {kind : Nonterminal} {r : Rule}
  {s : List Symbol}

/-! ### Positions -/

namespace Parts

/-- Only steps stand where a segment is. -/
theorem stands_iff_of_step {kind : OpKind} (h : isStep kind = true) : l.Stands kind q ↔
    q < l.head ∨ l.head + 2 ≤ q ∧ q < l.fork ∨ l.fork < q ∧ q < l.turn := by
  unfold Stands
  split <;> first
    | exact and_iff_right h
    | cases h

/-- Where an instruction may stand it is a step, or one that is present. -/
theorem Stands.present {kind : OpKind} (h : l.Stands kind q) :
    isStep kind = true ∨ isPresent kind = true := by
  unfold Stands at h
  split at h <;> first
    | exact .inl h.1
    | exact .inr rfl

section

variable (hfork : l.head + 2 < l.fork) (hturn : l.fork + 1 < l.turn)

include hfork hturn

/-- What the symbols of a rule are read over is a span for it. -/
theorem spans_of_follows (hr : r ∈ spanRules) (h : l.Follows r.rhs p e) : l.Spans r.lhs p e := by
  simp only [spanRules, List.mem_cons, List.not_mem_nil, or_false] at hr
  rcases hr with rfl | rfl | rfl | rfl | rfl | rfl | rfl | rfl | rfl | rfl | rfl | rfl | rfl | rfl |
    rfl | rfl | rfl | rfl | rfl <;>
      simp only [Follows, Spans, Stands, Extends, t, n] at h ⊢ <;> grind

theorem not_follows (hr : r ∈ idleRules) : ¬l.Follows r.rhs p e := by
  simp only [idleRules, List.mem_cons, List.not_mem_nil, or_false] at hr
  rcases hr with rfl | rfl | rfl | rfl | rfl | rfl | rfl | rfl | rfl | rfl <;>
    simp only [Follows, Spans, Stands, Extends, t, n] <;> grind

end

end Parts

/-! ### Layouts -/

theorem not_isUnread (h : Parts.isUnread kind = true) : isInner kind = false := by
  cases kind <;> first
    | rfl
    | cases h

theorem reads_of_isUnread (h : Parts.isUnread kind = true) : Reads tokens st l kind p e node := by
  cases kind <;> first
    | exact .inr h
    | cases h

/-- The nodes of other nonterminals than the loop are told by their spans. -/
theorem reads_of_spans (h : l.Spans kind p e) (hloop : kind ≠ .whileForm1 ∧ kind ≠ .whileForm2) :
    Reads tokens st l kind p e node := by
  unfold Reads
  split
  · exact (hloop.1 rfl).elim
  · exact (hloop.2 rfl).elim
  · exact h

theorem isKnown_of_reads (h : Reads tokens st l kind p e node) : isKnown kind = true := by
  cases kind <;> first
    | rfl
    | exact absurd h (by simp [Reads, Parts.Spans, isInner, Parts.isUnread])

theorem ReadsLoop.rests (hl : Layout tokens st l) (h : ReadsLoop tokens st l p e node) :
    Rests tokens st e := by
  refine .inr fun i hi => ?_
  rw [hl.access.kind_of (h.1 ▸ hi)]
  rfl

section

variable (hl : Layout tokens st l)

include hl

theorem lt_fork : l.head + 2 < l.fork := (hl.test.lt hl.toSegmented).1

theorem lt_turn : l.fork + 1 < l.turn :=
  hl.body.first_lt fun _ _ _ h => (h.first_lt hl.toSegmented).1

/-- In front of the loop there are steps only. -/
theorem step_in_front (hq : q < l.head) : ∃ i, tokens[q]? = some i ∧ isStep i.kind = true := by
  rcases hl.opening with ⟨-, hread, -⟩ | ⟨-, -, hlisted⟩ | ⟨-, hhead, -⟩
  · exact hread.isStep hl.toSegmented (Nat.zero_le q) hq
  · exact hlisted.isStep hl.toSegmented (Nat.zero_le q) hq
  · omega

theorem stands (hi : tokens[q]? = some i) : l.Stands i.kind q := by
  have hfork := lt_fork hl
  have hturn := lt_turn hl
  have hlength := hl.length_eq
  obtain ⟨hq, -⟩ := List.getElem?_eq_some_iff.1 hi
  have hstep : (∃ j, tokens[q]? = some j ∧ isStep j.kind = true) →
      (q < l.head ∨ l.head + 2 ≤ q ∧ q < l.fork ∨ l.fork < q ∧ q < l.turn) →
        l.Stands i.kind q := by
    rintro ⟨j, hj, hstep⟩ hrange
    rw [Option.some.inj (hi.symm.trans hj)]
    exact (l.stands_iff_of_step hstep).2 hrange
  obtain hlt | rfl | rfl | ⟨hlow, hhigh⟩ | rfl | ⟨hlow, hhigh⟩ | rfl | rfl | rfl | rfl | rfl :
      q < l.head ∨ q = l.head ∨ q = l.head + 1 ∨ (l.head + 2 ≤ q ∧ q < l.fork) ∨ q = l.fork ∨
        (l.fork < q ∧ q < l.turn) ∨ q = l.turn ∨ q = l.turn + 1 ∨ q = l.turn + 2 ∨
          q = l.turn + 3 ∨ q = l.turn + 4 := by
    omega
  · exact hstep (step_in_front hl hlt) (.inl hlt)
  · rw [hl.arrive.kind_of hi]
    exact .inl rfl
  · rw [hl.entry.kind_of hi]
    exact .inl rfl
  · exact hstep (hl.test.isStep hl.toSegmented hlow hhigh) (.inr (.inl ⟨hlow, hhigh⟩))
  · rw [At.kind_of ⟨hl.test.at_eq, hl.test.kind_eq⟩ hi]
    exact rfl
  · exact hstep (hl.body.isStep hl.toSegmented hlow hhigh) (.inr (.inr ⟨hlow, hhigh⟩))
  · rw [hl.back.kind_of hi]
    exact rfl
  · rw [hl.leave.kind_of hi]
    exact .inr rfl
  · rw [hl.exit.kind_of hi]
    exact .inr rfl
  · rw [hl.access.kind_of hi]
    exact rfl
  · rw [hl.ret.kind_of hi]
    exact rfl

theorem stands_of_kind {kind : OpKind} (hi : tokens[q]? = some i) (hkind : i.kind = kind) :
    l.Stands kind q :=
  hkind ▸ stands hl hi

/-- Steps that follow one another stand in front of the loop, or within it. -/
theorem extends_of_steps (hlt : p < e)
    (hsteps : ∀ q, p ≤ q → q < e → ∃ i, tokens[q]? = some i ∧ isStep i.kind = true) :
    l.Extends p e := by
  have hrange : ∀ q, p ≤ q → q < e →
      q < l.head ∨ l.head + 2 ≤ q ∧ q < l.fork ∨ l.fork < q ∧ q < l.turn := by
    intro q hlow hhigh
    obtain ⟨i, hi, hstep⟩ := hsteps q hlow hhigh
    exact (l.stands_iff_of_step hstep).1 (stands hl hi)
  have hfork := lt_fork hl
  have hbody := lt_turn hl
  have hfirst := hrange p (Nat.le_refl p) hlt
  have hlast := hrange (e - 1) (by omega) (by omega)
  have hhead := hrange l.head
  have hturn := hrange l.turn
  refine ⟨hlt, ?_⟩
  omega

theorem extends_of_expr
    (h : Shape tokens st (ReadsLoop tokens st l) (Reads tokens st l) .expr p e node) :
    l.Extends p e := by
  rcases h with hreads | ⟨rfl, ⟨rfl, -⟩ | ⟨start, hstart, -⟩⟩
  · exact extends_of_steps hl (hreads.first_lt hl.toSegmented).1 fun q hlow hhigh =>
      hreads.isStep hl.toSegmented hlow hhigh
  · have hfork := lt_fork hl
    have hturn := lt_turn hl
    exact ⟨by omega, by omega⟩
  · have hfork := lt_fork hl
    have hturn := lt_turn hl
    have := (hstart.first_lt hl.toSegmented).1
    exact ⟨by omega, by omega⟩

theorem extends_of_item (h : ReadsItem tokens st (ReadsLoop tokens st l) p e node) :
    l.Extends p e := by
  rcases h with hline | ⟨tree, htree, -⟩
  · exact extends_of_steps hl (hline.first_lt hl.toSegmented).1 fun q hlow hhigh =>
      hline.isStep hl.toSegmented hlow hhigh
  · exact extends_of_expr hl (.inr htree)

/-- Statements behind one another do not leave the part that the first one stands in, or end with
the loop. -/
theorem extends_of_items (h : Listed (ReadsItem tokens st (ReadsLoop tokens st l)) p e nodes) :
    l.Extends p e := by
  have hfork := lt_fork hl
  have hturn := lt_turn hl
  induction h with
  | one h => exact extends_of_item hl h
  | more _ h ih =>
    obtain ⟨hlt, hitem⟩ := extends_of_item hl h
    obtain ⟨hlt', hbefore⟩ := ih
    exact ⟨by omega, by omega⟩

theorem spans_of_shape
    (h : Shape tokens st (ReadsLoop tokens st l) (Reads tokens st l) kind p e node) :
    l.Spans kind p e := by
  have hsign : ∀ {kind}, ReadsSign tokens kind p e node → p < l.turn := by
    rintro kind ⟨i, op, rfl, hi, hop, -⟩
    have hfork := lt_fork hl
    have hturn := lt_turn hl
    have := (l.stands_iff_of_step (by simp [isStep, hop])).1 (stands hl hi)
    omega
  unfold Shape at h
  split at h
  · exact extends_of_expr hl h
  all_goals first
    | exact .inl rfl
    | exact hsign h
    | skip
  · exact extends_of_item hl h
  · obtain ⟨items, hitems, -⟩ := h
    exact extends_of_items hl hitems
  · obtain ⟨items, hitems, -⟩ := h
    exact extends_of_items hl hitems
  · unfold Reads at h
    split at h
    · obtain ⟨rfl, start, hstart, -⟩ := h
      exact ⟨(hstart.first_lt hl.toSegmented).1, rfl⟩
    · exact ⟨h.2.1, h.1⟩
    · exact h

theorem follows_of_chain
    (h : Chain tokens (Shape tokens st (ReadsLoop tokens st l) (Reads tokens st l)) s p e nodes) :
    l.Follows s p e := by
  induction s generalizing p nodes with
  | nil => exact h.1.symm
  | cons x s ih =>
    cases x with
    | word text => exact h.elim
    | terminal kind =>
      obtain ⟨i, rest, hi, rfl, -, hrest⟩ := h
      exact ⟨stands hl hi, ih hrest⟩
    | nonterminal kind =>
      obtain ⟨m, node, rest, hle, hnode, -, hrest⟩ := h
      exact ⟨m, hle, spans_of_shape hl hnode, ih hrest⟩

end

end ElispLift.Loop
