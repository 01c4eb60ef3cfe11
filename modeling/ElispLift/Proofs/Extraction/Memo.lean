import ElispLift.Proofs.Extraction.Completeness

/-!
# What remembering changes

A search that remembers nothing looks at the spans that are being built around a span only to leave
them alone. So the outcome of a span depends on those of them that the search for it comes upon.
Where these are the same whenever the span is tried, remembering its outcome changes nothing. Where
they are not, a failure that is due to them is remembered as if there were no tree at all.
-/

namespace ElispLift

namespace Extraction

/-- Build a span as `build` does, but remember nothing. -/
def buildAnew (input : Input) : (levels : Nat) → (active : List Span) → Span →
    Search (Option Node)
  | 0, _, _ => failure
  | levels + 1, active, span =>
    if active.contains span then return none
    else tryRules input (buildAnew input levels (span :: active)) span
      ((input.grammar.rulesFor span.kind).map (·.rule))

/-- The tree of a span when nothing is remembered. -/
def runAnew (input : Input) (span : Span) : Option Node :=
  match buildAnew input (maxLevels input) [] span .start with
  | some (found, _) => found
  | none => none

/-- The spans that may be tried for some symbols from `pos` on, in a rule that ends at `last`. -/
def partsFrom (input : Input) (last : Nat) : List Symbol → (pos : Nat) → List Span
  | [], _ => []
  | .terminal kind :: rest, pos =>
    match input.context.tokens[pos]? with
    | some token =>
      if pos < last && token.kind = kind then partsFrom input last rest (pos + 1) else []
    | none => []
  | .word _ :: _, _ => []
  | .nonterminal kind :: rest, pos =>
    (endsFor input kind rest.isEmpty pos last).flatMap fun stop =>
      ⟨kind, pos, stop⟩ :: partsFrom input last rest stop

/-- The spans that may be tried for the symbols of a span's rules. -/
def partsOf (input : Input) (span : Span) : List Span :=
  ((input.grammar.rulesFor span.kind).map (·.rule)).flatMap fun r =>
    partsFrom input span.last r.rhs span.first

/-- What a search that remembers nothing may try for a span, each span with those that are being
built around it. -/
def calls (input : Input) : (levels : Nat) → (active : List Span) → Span →
    List (List Span × Span)
  | 0, _, _ => []
  | levels + 1, active, span =>
    (active, span) ::
      if active.contains span then []
      else (partsOf input span).flatMap (calls input levels (span :: active))

/-- Whenever a span is tried, the same spans are being built around it, as far as the search for it
comes upon them. -/
def Input.Agrees (input : Input) (root : Span) : Prop :=
  ∀ c ∈ calls input (maxLevels input) [] root, ∀ d ∈ calls input (maxLevels input) [] root,
    c.2 = d.2 → c.2 ∉ c.1 → d.2 ∉ d.1 →
      ∀ part ∈ calls input (maxLevels input) c.1 c.2, part.2 ∈ c.1 ↔ part.2 ∈ d.1

instance (input : Input) (root : Span) : Decidable (input.Agrees root) :=
  inferInstanceAs (Decidable (∀ c ∈ _, ∀ d ∈ _, _))

/-! ### Searches with the same outcome -/

section Alike

variable {α β : Type} {p : Memory → Prop}

/-- From memory that satisfies `p`, the first search has an outcome and leaves such memory, and the
second one has the same outcome from any memory. -/
def Search.Alike (p : Memory → Prop) (x y : Search α) : Prop :=
  ∀ m, p m → ∃ a m', x m = some (a, m') ∧ p m' ∧ ∀ n, ∃ n', y n = some (a, n')

def Attempt.Alike (p : Memory → Prop) (x y : Attempt α) : Prop :=
  ∀ b : Budget, Search.Alike p (x b) (y b)

namespace Search.Alike

theorem pure (a : α) : Alike p (pure a : Search α) (pure a) :=
  fun m hm => ⟨a, m, rfl, hm, fun n => ⟨n, rfl⟩⟩

theorem bind {x y : Search α} {f g : α → Search β} (h : Alike p x y)
    (hf : ∀ a, Alike p (f a) (g a)) : Alike p (x >>= f) (y >>= g) := by
  intro m hm
  obtain ⟨a, m', hx, hm', hy⟩ := h m hm
  obtain ⟨b, m'', hfa, hm'', hga⟩ := hf a m' hm'
  refine ⟨b, m'', ?_, hm'', fun n => ?_⟩
  · change (x m).bind (fun found => f found.1 found.2) = _
    rw [hx]
    exact hfa
  · obtain ⟨n', hn'⟩ := hy n
    obtain ⟨n'', hn''⟩ := hga n'
    refine ⟨n'', ?_⟩
    change (y n).bind (fun found => g found.1 found.2) = _
    rw [hn']
    exact hn''

theorem modify {change : Memory → Memory} (h : ∀ m, p m → p (change m)) :
    Alike p (modify change : Search Unit) (modify change) :=
  fun m hm => ⟨(), change m, rfl, h m hm, fun n => ⟨change n, rfl⟩⟩

end Search.Alike

namespace Attempt.Alike

theorem pure (a : α) : Alike p (pure a : Attempt α) (pure a) := fun _ => Search.Alike.pure _

theorem bind {x y : Attempt α} {f g : α → Attempt β} (h : Alike p x y)
    (hf : ∀ a, Alike p (f a) (g a)) : Alike p (x >>= f) (y >>= g) :=
  fun b => Search.Alike.bind (h b) fun found => hf found.1 found.2

theorem lift {x y : Search α} (h : Search.Alike p x y) :
    Alike p (liftM x : Attempt α) (liftM y) :=
  fun b => Search.Alike.bind (f := fun a => Pure.pure (a, b)) (g := fun a => Pure.pure (a, b)) h
    fun _ => Search.Alike.pure _

theorem firstOf {f g : Nat → Attempt (Option α)} {candidates : List Nat}
    (h : ∀ n ∈ candidates, Alike p (f n) (g n)) :
    Alike p (firstOf f candidates) (firstOf g candidates) := by
  induction candidates with
  | nil => exact pure none
  | cons n candidates ih =>
    rw [List.forall_mem_cons] at h
    rw [Extraction.firstOf, Extraction.firstOf]
    refine bind h.1 fun found => ?_
    cases found with
    | some a => exact pure (some a)
    | none => exact ih h.2

end Attempt.Alike

variable {input : Input} {build build' : Span → Search (Option Node)} {lhs : Nonterminal}
  {first last pos : Nat} {children : List Node} {symbols : List Symbol}

/-- What is accepted depends on no memory. -/
theorem alike_accept (hp : ∀ m m' : Memory, m'.known = m.known → p m → p m') :
    Attempt.Alike p (accept input lhs first pos last children)
      (accept input lhs first pos last children) := by
  intro b m hm
  unfold accept
  by_cases hpos : pos = last
  · by_cases hallowed : input.context.allowsChildren lhs children last = true
    · simp only [hpos, hallowed, bne_self_eq_false]
      exact ⟨_, m, rfl, hm, fun n => ⟨n, rfl⟩⟩
    · simp only [hpos, hallowed, bne_self_eq_false]
      exact ⟨_, _, rfl, hp m _ rfl hm, fun n => ⟨_, rfl⟩⟩
  · simp only [bne_iff_ne.2 hpos, if_true]
    exact ⟨_, m, rfl, hm, fun n => ⟨n, rfl⟩⟩

/-- Searches for the parts that have the same outcomes lead to the same children. -/
theorem alike_split (hp : ∀ m m' : Memory, m'.known = m.known → p m → p m')
    (hparts : ∀ part ∈ partsFrom input last symbols pos,
      Search.Alike p (build part) (build' part)) :
    Attempt.Alike p (split input build lhs first last symbols pos children)
      (split input build' lhs first last symbols pos children) := by
  induction symbols generalizing pos children with
  | nil =>
    intro b
    rw [split_eq, split_eq]
    split
    · exact .pure _
    · exact alike_accept hp _
  | cons s rest ih =>
    intro b
    rw [split_eq, split_eq]
    split
    · exact .pure _
    cases s with
    | word text => exact Attempt.Alike.pure _ _
    | terminal kind =>
      simp only [partsFrom] at hparts
      simp only [splitRest]
      cases htoken : input.context.tokens[pos]? with
      | none => exact Attempt.Alike.pure _ _
      | some token =>
        simp only [htoken] at hparts
        dsimp only
        split
        next hmatches =>
          rw [if_pos hmatches] at hparts
          exact ih hparts _
        · exact Attempt.Alike.pure _ _
    | nonterminal kind =>
      refine Attempt.Alike.firstOf (fun stop hstop => ?_) _
      have hbuild := hparts ⟨kind, pos, stop⟩ (List.mem_flatMap.2 ⟨stop, hstop, by simp⟩)
      refine Attempt.Alike.bind (.lift hbuild) fun found => ?_
      cases found with
      | none => exact Attempt.Alike.pure _
      | some node =>
        exact ih fun part hpart => hparts part
          (List.mem_flatMap.2 ⟨stop, hstop, List.mem_cons_of_mem _ hpart⟩)

theorem alike_tryRules {span : Span} {rules : List Rule}
    (hp : ∀ m m' : Memory, m'.known = m.known → p m → p m')
    (hparts : ∀ r ∈ rules, ∀ part ∈ partsFrom input span.last r.rhs span.first,
      Search.Alike p (build part) (build' part)) :
    Search.Alike p (tryRules input build span rules) (tryRules input build' span rules) := by
  induction rules with
  | nil => exact .pure none
  | cons r rules ih =>
    rw [List.forall_mem_cons] at hparts
    rw [tryRules, tryRules]
    refine .bind (alike_split hp hparts.1 ⟨0, 0⟩) fun found => ?_
    obtain ⟨children, budget⟩ := found
    cases children with
    | some children => exact .pure _
    | none =>
      dsimp only
      split
      · exact .bind (.modify fun m hm => hp m _ rfl hm) fun _ => ih hparts.2
      · exact ih hparts.2

end Alike

/-! ### Parts and calls -/

section Calls

variable {input : Input} {span part : Span} {active active' : List Span} {levels levels' : Nat}

theorem mem_partsOf {r : Rule} (hr : r ∈ (input.grammar.rulesFor span.kind).map (·.rule))
    (hpart : part ∈ partsFrom input span.last r.rhs span.first) : part ∈ partsOf input span :=
  List.mem_flatMap.2 ⟨r, hr, hpart⟩

theorem within_of_mem_partsFrom (hforward : input.Forward) {symbols : List Symbol} {pos last : Nat}
    (hpos : pos ≤ last) (h : part ∈ partsFrom input last symbols pos) :
    pos ≤ part.first ∧ part.first ≤ part.last ∧ part.last ≤ last := by
  induction symbols generalizing pos with
  | nil => simp [partsFrom] at h
  | cons s rest ih =>
    cases s with
    | word text => simp [partsFrom] at h
    | terminal kind =>
      rw [partsFrom] at h
      split at h
      · split at h
        next hmatches =>
          have hlt : pos < last := by simp at hmatches; exact hmatches.1
          have := ih hlt h
          omega
        · simp at h
      · simp at h
    | nonterminal kind =>
      rw [partsFrom] at h
      obtain ⟨stop, hstop, h⟩ := List.mem_flatMap.1 h
      have hle : stop ≤ last ∧ pos ≤ stop := by
        rcases (mem_endsFor.1 hstop).1 with ⟨hmem, hle⟩ | ⟨-, rfl⟩
        · exact ⟨hle, hforward kind pos stop hmem⟩
        · exact ⟨hpos, Nat.le_refl _⟩
      rcases List.mem_cons.1 h with rfl | h
      · exact ⟨Nat.le_refl _, hle.2, hle.1⟩
      · have := ih hle.1 h
        omega

theorem Around.of_mem_partsOf (hforward : input.Forward)
    (h : Around input.context.tokens.size active span) (hspan : span ∉ active)
    (hpart : part ∈ partsOf input span) :
    Around input.context.tokens.size (span :: active) part := by
  obtain ⟨r, -, hpart⟩ := List.mem_flatMap.1 hpart
  obtain ⟨hfirst, hle, hlast⟩ := within_of_mem_partsFrom hforward h.le hpart
  exact h.cons hspan hfirst hle hlast

theorem mem_calls_self : (active, span) ∈ calls input (levels + 1) active span := by
  simp [calls]

theorem calls_part_subset (hspan : span ∉ active) (hpart : part ∈ partsOf input span) :
    calls input levels (span :: active) part ⊆ calls input (levels + 1) active span := by
  intro c hc
  have hcontains : active.contains span = false := by simpa using hspan
  rw [calls, hcontains]
  exact List.mem_cons_of_mem _ (List.mem_flatMap.2 ⟨part, hpart, hc⟩)

theorem calls_mono (h : levels ≤ levels') :
    calls input levels active span ⊆ calls input levels' active span := by
  induction levels generalizing levels' active span with
  | zero => simp [calls]
  | succ levels ih =>
    obtain ⟨levels', rfl⟩ : ∃ n, levels' = n + 1 := ⟨levels' - 1, by omega⟩
    rw [calls, calls]
    refine List.cons_subset_cons _ ?_
    split
    · exact List.Subset.refl _
    · intro c hc
      obtain ⟨part, hpart, hc⟩ := List.mem_flatMap.1 hc
      exact List.mem_flatMap.2 ⟨part, hpart, ih (by omega) hc⟩

end Calls

/-! ### What is remembered -/

section Remembering

variable {input : Input} {root span : Span} {active active' : List Span} {levels levels' : Nat}
  {m : Memory}

/-- Without memory, the outcome of a span depends only on the spans around it that the search comes
upon. -/
theorem alike_of_agree (hforward : input.Forward)
    (haround : Around input.context.tokens.size active span)
    (haround' : Around input.context.tokens.size active' span)
    (hlevels : active.length + levels = maxLevels input)
    (hlevels' : active'.length + levels' = maxLevels input)
    (hagree : ∀ c ∈ calls input levels active span, c.2 ∈ active ↔ c.2 ∈ active') :
    Search.Alike (fun _ => True) (buildAnew input levels active span)
      (buildAnew input levels' active' span) := by
  induction levels generalizing active active' span levels' with
  | zero =>
    have := haround.length_le
    simp only [maxLevels] at hlevels
    omega
  | succ levels ih =>
    cases levels' with
    | zero =>
      have := haround'.length_le
      simp only [maxLevels] at hlevels'
      omega
    | succ levels' =>
      have hself := hagree _ mem_calls_self
      rw [buildAnew, buildAnew]
      by_cases hspan : span ∈ active
      · have hspan' : span ∈ active' := hself.1 hspan
        simp only [List.contains_iff_mem, hspan, hspan', if_true]
        exact .pure none
      · have hspan' : span ∉ active' := fun h => hspan (hself.2 h)
        simp only [List.contains_iff_mem, hspan, hspan', if_false]
        refine alike_tryRules (fun _ _ _ _ => trivial) fun r hr part hpart => ?_
        have hpart := mem_partsOf hr hpart
        refine ih (haround.of_mem_partsOf hforward hspan hpart)
          (haround'.of_mem_partsOf hforward hspan' hpart)
          (by rw [List.length_cons]; omega) (by rw [List.length_cons]; omega) fun c hc => ?_
        rw [List.mem_cons, List.mem_cons, hagree c (calls_part_subset hspan hpart hc)]

/-- The span is tried in the search from `root`, and has this outcome when nothing is remembered. -/
structure Reached (input : Input) (root : Span) (active : List Span) (levels : Nat) (span : Span) :
    Prop where
  called : calls input levels active span ⊆ calls input (maxLevels input) [] root
  around : Around input.context.tokens.size active span
  levels_eq : active.length + levels = maxLevels input

theorem Reached.self (h : Reached input root active levels span) :
    (active, span) ∈ calls input (maxLevels input) [] root := by
  cases levels with
  | zero =>
    have := h.around.length_le
    have := h.levels_eq
    simp only [maxLevels] at this
    omega
  | succ levels => exact h.called mem_calls_self

theorem Reached.part (hforward : input.Forward) (h : Reached input root active (levels + 1) span)
    (hspan : span ∉ active) {part : Span} (hpart : part ∈ partsOf input span) :
    Reached input root (span :: active) levels part where
  called := List.Subset.trans (calls_part_subset hspan hpart) h.called
  around := h.around.of_mem_partsOf hforward hspan hpart
  levels_eq := by
    have := h.levels_eq
    rw [List.length_cons]
    omega

/-- Every outcome that is remembered is that of a search which remembers nothing, and no span is
remembered while it is being built. -/
structure Faithful (input : Input) (root : Span) (active : List Span) (m : Memory) : Prop where
  active_unknown : ∀ t ∈ active, m.known[t]? = none
  outcome : ∀ span found, m.known[span]? = some found → ∃ around levels,
    Reached input root around levels span ∧ span ∉ around ∧
      ∀ n, ∃ n', buildAnew input levels around span n = some (found, n')

theorem Faithful.of_known_eq {m' : Memory} (h : Faithful input root active m)
    (heq : m'.known = m.known) : Faithful input root active m' := by
  refine ⟨?_, ?_⟩
  · rw [heq]
    exact h.active_unknown
  · rw [heq]
    exact h.outcome

theorem Faithful.insert {found : Option Node} (h : Faithful input root (span :: active) m)
    (hreached : Reached input root active levels span) (hspan : span ∉ active)
    (houtcome : ∀ n, ∃ n', buildAnew input levels active span n = some (found, n')) :
    Faithful input root active { m with known := m.known.insert span found } := by
  refine ⟨fun t ht => ?_, fun span' found' hspan' => ?_⟩
  · rw [Std.TreeMap.getElem?_insert]
    split
    next he =>
      obtain rfl := Std.LawfulEqOrd.eq_of_compare he
      exact absurd ht hspan
    · exact h.active_unknown t (List.mem_cons_of_mem _ ht)
  · rw [Std.TreeMap.getElem?_insert] at hspan'
    split at hspan'
    next he =>
      obtain rfl := Std.LawfulEqOrd.eq_of_compare he
      obtain rfl := Option.some.inj hspan'
      exact ⟨active, levels, hreached, hspan, houtcome⟩
    · exact h.outcome span' found' hspan'

/-- Where the spans around a span agree, building it has the same outcome with and without
memory. -/
theorem alike_build (hforward : input.Forward) (hagrees : input.Agrees root)
    (h : Reached input root active levels span) :
    Search.Alike (Faithful input root active) (build input levels active span)
      (buildAnew input levels active span) := by
  induction levels generalizing active span with
  | zero =>
    have := h.around.length_le
    have := h.levels_eq
    simp only [maxLevels] at this
    omega
  | succ levels ih =>
    intro m hm
    rw [build_eq]
    cases hknown : m.known[span]? with
    | some done =>
      -- The span was built inside other spans, but inside the same as far as that matters.
      obtain ⟨around, levels', hreached, hnot, hdone⟩ := hm.outcome span done hknown
      have hspan : span ∉ active := fun hmem => by
        rw [hm.active_unknown span hmem] at hknown
        cases hknown
      have hle : levels' ≤ maxLevels input := by
        have := hreached.levels_eq
        omega
      obtain ⟨a, m', hbuild, -, hanew⟩ := alike_of_agree hforward hreached.around h.around
        hreached.levels_eq h.levels_eq
        (fun c hc => hagrees _ hreached.self _ h.self rfl hnot hspan c (calls_mono hle hc)) m
        trivial
      obtain ⟨n', hn'⟩ := hdone m
      obtain rfl : a = done := by
        rw [hbuild] at hn'
        exact congrArg Prod.fst (Option.some.inj hn')
      exact ⟨a, m, rfl, hm, hanew⟩
    | none =>
      by_cases hspan : span ∈ active
      · refine ⟨none, m, by simp [hspan], hm, fun n => ⟨n, ?_⟩⟩
        rw [buildAnew, if_pos (by simpa using hspan)]
        rfl
      · have hinside : Faithful input root (span :: active) m :=
          ⟨List.forall_mem_cons.2 ⟨hknown, hm.active_unknown⟩, hm.outcome⟩
        obtain ⟨found, m', hrules, hm', hanew⟩ :=
          alike_tryRules (fun _ _ heq hm => Faithful.of_known_eq hm heq) (fun r hr part hpart =>
            ih (h.part hforward hspan (mem_partsOf hr hpart))) m hinside
        have houtcome : ∀ n, ∃ n',
            buildAnew input (levels + 1) active span n = some (found, n') := by
          rw [buildAnew, if_neg (by simpa using hspan)]
          exact hanew
        refine ⟨found, { m' with known := m'.known.insert span found }, ?_,
          hm'.insert h hspan houtcome, houtcome⟩
        simp only [List.contains_iff_mem, hspan, if_false, hrules]
        rfl

/-- Where the spans around a span agree whenever it is tried, remembering changes no tree. -/
theorem run_eq_runAnew (rules : List Rule) (start : Nonterminal) (tokens : List Instruction)
    (hagrees : (inputOf rules start tokens).Agrees ⟨start, 0, tokens.length⟩) :
    (run (inputOf rules start tokens) ⟨start, 0, tokens.length⟩).1 =
      runAnew (inputOf rules start tokens) ⟨start, 0, tokens.length⟩ := by
  have hreached : Reached (inputOf rules start tokens) ⟨start, 0, tokens.length⟩ []
      (maxLevels (inputOf rules start tokens)) ⟨start, 0, tokens.length⟩ :=
    ⟨List.Subset.refl _, ⟨List.nodup_nil, by simp, Nat.zero_le _, Nat.le_refl _⟩, by simp⟩
  obtain ⟨found, m, hbuild, -, hanew⟩ :=
    alike_build (forward_inputOf rules start tokens) hagrees hreached .start
      ⟨by simp, by simp [Memory.start]⟩
  obtain ⟨n, hn⟩ := hanew .start
  rw [run, StateT.run, hbuild, runAnew, hn]

/-- The code of `(car a)`. -/
def carOfA : List Instruction :=
  [.ofOpcode .varref (some (.symbol "a")) 0, .ofOpcode .car none 1, .ofOpcode .ret none 2]

theorem run_eq_runAnew_carOfA :
    let input := inputOf (Grammar.base ++ Grammar.arityRules carOfA) .fnBody carOfA
    input.Agrees ⟨.fnBody, 0, 3⟩ ∧
      (run input ⟨.fnBody, 0, 3⟩).1 = runAnew input ⟨.fnBody, 0, 3⟩ := by
  have hagrees : (inputOf (Grammar.base ++ Grammar.arityRules carOfA) .fnBody carOfA).Agrees
      ⟨.fnBody, 0, 3⟩ := by decide +kernel
  exact ⟨hagrees, run_eq_runAnew _ .fnBody carOfA hagrees⟩

/-- Two operations whose first operands lie deeper on the stack. -/
def addAndMultiply : List Instruction :=
  [.ofOpcode .dup none 0, .ofOpcode .plus none 1, .ofOpcode .mult none 2]

/-- The sum is an operand of the product, but it is first tried as an operand of itself. There it is
given up because it is being built, and that is remembered when the product is read. -/
theorem lost_addAndMultiply :
    let input := inputOf (Grammar.base ++ Grammar.arityRules addAndMultiply) .expr addAndMultiply
    (run input ⟨.expr, 0, 3⟩).1.isNone = true ∧ (runAnew input ⟨.expr, 0, 3⟩).isSome = true := by
  decide +kernel

end Remembering

end Extraction

end ElispLift
