import ElispLift.Proofs.Chart.Worklists
import ElispLift.Proofs.Extraction.Completeness

/-!
# Parsing ends

The search for a tree ends for every grammar. More levels change nothing about a search that came to
an end, and there are levels enough, since no span is built inside itself. With the worklists of the
chart, which run empty, this is all that is needed for parsing to end.
-/

namespace ElispLift.Extraction

variable {α β : Type}

/-! ### More levels -/

/-- Where the first search comes to an end, the second one ends in the same way. -/
def Search.Below (x y : Search α) : Prop := ∀ m result, x m = some result → y m = some result

def Attempt.Below (x y : Attempt α) : Prop := ∀ b : Budget, Search.Below (x b) (y b)

theorem Search.Below.refl (x : Search α) : Below x x := fun _ _ h => h

theorem Search.Below.bind {x y : Search α} {f g : α → Search β} (h : Below x y)
    (hf : ∀ a, Below (f a) (g a)) : Below (x >>= f) (y >>= g) := by
  intro m result hresult
  change (x m).bind (fun found => f found.1 found.2) = some result at hresult
  change (y m).bind (fun found => g found.1 found.2) = some result
  obtain ⟨found, hx, hfound⟩ := Option.bind_eq_some_iff.1 hresult
  rw [h m found hx]
  exact hf found.1 found.2 result hfound

namespace Attempt.Below

theorem refl (x : Attempt α) : Below x x := fun _ => Search.Below.refl _

theorem bind {x y : Attempt α} {f g : α → Attempt β} (h : Below x y)
    (hf : ∀ a, Below (f a) (g a)) : Below (x >>= f) (y >>= g) :=
  fun b => Search.Below.bind (h b) fun found => hf found.1 found.2

theorem lift {x y : Search α} (h : Search.Below x y) :
    Below (liftM x : Attempt α) (liftM y) :=
  fun b => Search.Below.bind (f := fun a => Pure.pure (a, b)) (g := fun a => Pure.pure (a, b)) h
    fun _ => Search.Below.refl _

theorem firstOf {f g : Nat → Attempt (Option α)} (h : ∀ n, Below (f n) (g n))
    (candidates : List Nat) : Below (firstOf f candidates) (firstOf g candidates) := by
  induction candidates with
  | nil => exact refl _
  | cons n candidates ih =>
    rw [Extraction.firstOf, Extraction.firstOf]
    refine bind (h n) fun found => ?_
    cases found with
    | some a => exact refl _
    | none => exact ih

end Attempt.Below

section

variable {input : Input} {build build' : Span → Search (Option Node)}
  (hbuild : ∀ span, Search.Below (build span) (build' span))

include hbuild

theorem below_split (lhs : Nonterminal) (first last : Nat) (symbols : List Symbol) (pos : Nat)
    (children : List Node) :
    Attempt.Below (split input build lhs first last symbols pos children)
      (split input build' lhs first last symbols pos children) := by
  induction symbols generalizing pos children with
  | nil =>
    intro b
    rw [split_eq, split_eq]
    exact Search.Below.refl _
  | cons s rest ih =>
    intro b
    rw [split_eq, split_eq]
    split
    · exact Search.Below.refl _
    cases s with
    | word text => exact Search.Below.refl _
    | terminal kind =>
      simp only [splitRest]
      cases input.context.tokens[pos]? with
      | none => exact Search.Below.refl _
      | some token =>
        dsimp only
        split
        · exact ih _ _ _
        · exact Search.Below.refl _
    | nonterminal kind =>
      refine Attempt.Below.firstOf (fun stop => ?_) _ _
      refine Attempt.Below.bind (.lift (hbuild ⟨kind, pos, stop⟩)) fun found => ?_
      cases found with
      | none => exact Attempt.Below.refl _
      | some node => exact ih _ _

theorem below_tryRules (span : Span) (rules : List Rule) :
    Search.Below (tryRules input build span rules) (tryRules input build' span rules) := by
  induction rules with
  | nil => exact Search.Below.refl _
  | cons r rules ih =>
    rw [tryRules, tryRules]
    refine .bind (below_split hbuild _ _ _ _ _ _ ⟨0, 0⟩) fun found => ?_
    obtain ⟨children, budget⟩ := found
    cases children with
    | some children => exact Search.Below.refl _
    | none =>
      dsimp only
      split
      · exact .bind (Search.Below.refl _) fun _ => ih
      · exact ih

end

variable {input : Input}

/-- A search that ended within its levels ends in the same way with one more. -/
theorem below_build_succ (levels : Nat) (active : List Span) (span : Span) :
    Search.Below (build input levels active span) (build input (levels + 1) active span) := by
  induction levels generalizing active span with
  | zero =>
    intro m result hresult
    cases hresult
  | succ levels ih =>
    rw [build, build]
    refine .bind (Search.Below.refl _) fun m => ?_
    split
    · exact Search.Below.refl _
    split
    · exact Search.Below.refl _
    · exact .bind (below_tryRules (ih (span :: active)) span _) fun _ => Search.Below.refl _

theorem below_build {levels levels' : Nat} (h : levels ≤ levels') (active : List Span)
    (span : Span) :
    Search.Below (build input levels active span) (build input levels' active span) := by
  induction h with
  | refl => exact Search.Below.refl _
  | step _ ih => exact fun m result hresult => below_build_succ _ _ _ m _ (ih m result hresult)

/-! ### Spans inside themselves -/

/-- Build a span as `build` does, but break off if a span is being built inside itself. -/
def buildApart (input : Input) : (levels : Nat) → (active : List Span) → Span →
    Search (Option Node)
  | 0, _, _ => failure
  | levels + 1, active, span =>
    if active.Nodup then do
      match (← getThe Memory).known[span]? with
      | some done => return done
      | none =>
        if active.contains span then return none
        let found ← tryRules input (buildApart input levels (span :: active)) span
          ((input.grammar.rulesFor span.kind).map (·.rule))
        modifyThe Memory fun m => { m with known := m.known.insert span found }
        return found
    else failure

/-- It is never broken off: a span is built only where it is not being built already. -/
theorem buildApart_eq (levels : Nat) {active : List Span} (h : active.Nodup) (span : Span) :
    buildApart input levels active span = build input levels active span := by
  induction levels generalizing active span with
  | zero => rfl
  | succ levels ih =>
    rw [buildApart, build, if_pos h]
    refine congrArg (getThe Memory >>= ·) (funext fun m => ?_)
    cases m.known[span]? with
    | some done => rfl
    | none =>
      by_cases hspan : span ∈ active
      · simp [hspan]
      · have hinner : buildApart input levels (span :: active) =
            build input levels (span :: active) :=
          funext (ih (List.nodup_cons.2 ⟨hspan, h⟩))
        simp only [hinner]

/-- Parsing ends for every list of rules. The worklist of every position runs empty, with no item
twice and no more items than rules with a dot and origins, and nothing is left to add. The search
for a tree has the same outcome with however many levels, as soon as there is one for each span, and
at no time is a span built inside itself. -/
theorem parsing_ends (rules : List Rule) (start : Nonterminal) (tokens : List Instruction) :
    (∀ i ≤ tokens.length, ∃ here before,
      ((Grammar.ofRules rules).openings (Context.allowsSpan ⟨tokens.toArray⟩) 0
        ((Grammar.ofRules rules).startRules start 0 .empty) .empty
        (tokens.map (·.kind)))[i]? = some (here, before) ∧
      Grammar.Settles rules (Context.allowsSpan ⟨tokens.toArray⟩) i here before
        (((Grammar.ofRules rules).chartOf ⟨tokens.toArray⟩ start).itemsAt i)) ∧
    ∀ levels ≥ maxLevels (inputOf rules start tokens),
      build (inputOf rules start tokens) levels [] ⟨start, 0, tokens.length⟩ .start =
        some (run (inputOf rules start tokens) ⟨start, 0, tokens.length⟩) ∧
      buildApart (inputOf rules start tokens) levels [] ⟨start, 0, tokens.length⟩ .start =
        some (run (inputOf rules start tokens) ⟨start, 0, tokens.length⟩) := by
  refine ⟨fun i hi => ?_, ?_⟩
  · have hsettles := Grammar.settles_chart rules (Context.allowsSpan ⟨tokens.toArray⟩) start
      (tokens.map (·.kind)) i (by simpa using hi)
    exact hsettles
  · have hlhs : ∀ kind, ∀ nr ∈ (inputOf rules start tokens).grammar.rulesFor kind,
        nr.rule.lhs = kind :=
      fun kind nr hnr => ((Grammar.numbered_ofRules rules).mem_rules hnr).2
    have haround : Around (inputOf rules start tokens).context.tokens.size []
        ⟨start, 0, tokens.length⟩ :=
      ⟨List.nodup_nil, by simp, Nat.zero_le _, Nat.le_refl _⟩
    obtain ⟨found, m, hbuild, -⟩ := leads_build (forward_inputOf rules start tokens) hlhs haround
      (Nat.le_of_eq (Nat.zero_add _).symm) .start Memory.accounts_start
    have hrun : run (inputOf rules start tokens) ⟨start, 0, tokens.length⟩ = (found, m) := by
      rw [run, StateT.run, hbuild]
    intro levels hlevels
    rw [hrun]
    have hmore := below_build hlevels _ _ _ _ hbuild
    exact ⟨hmore, by rw [buildApart_eq levels List.nodup_nil, hmore]⟩

/-- A nonterminal that derives itself, alone and in front of one that derives nothing. -/
def cyclicRules : List Rule :=
  [⟨.expr, [Grammar.n .expr]⟩, ⟨.expr, [Grammar.n .expr, Grammar.n .optExprs]⟩, ⟨.optExprs, []⟩,
    ⟨.expr, [Grammar.t .varref]⟩]

def reference : List Instruction := [.ofOpcode .varref (some (.symbol "a")) 0]

theorem parsing_ends_cyclicRules :
    (∃ here before,
      ((Grammar.ofRules cyclicRules).openings (Context.allowsSpan ⟨reference.toArray⟩) 0
        ((Grammar.ofRules cyclicRules).startRules .expr 0 .empty) .empty
        (reference.map (·.kind)))[1]? = some (here, before) ∧
      Grammar.Settles cyclicRules (Context.allowsSpan ⟨reference.toArray⟩) 1 here before
        (((Grammar.ofRules cyclicRules).chartOf ⟨reference.toArray⟩ .expr).itemsAt 1)) ∧
    buildApart (inputOf cyclicRules .expr reference)
      (maxLevels (inputOf cyclicRules .expr reference)) [] ⟨.expr, 0, 1⟩ .start =
        some (run (inputOf cyclicRules .expr reference) ⟨.expr, 0, 1⟩) := by
  obtain ⟨hsettles, hruns⟩ := parsing_ends cyclicRules .expr reference
  exact ⟨hsettles 1 (Nat.le_refl 1), (hruns _ (Nat.le_refl _)).2⟩

end ElispLift.Extraction
