import ElispLift.Extraction

/-!
# Rules for searches

A search is followed step by step from what is remembered to what is remembered in the end. What
holds of every remembered outcome, and of every outcome that is about to be remembered, holds in the
end. A search that runs out of levels has no outcome.
-/

namespace ElispLift

instance : Std.TransOrd Span :=
  inferInstanceAs (Std.TransCmp (compareLex (compareOn Span.first)
    (compareLex (compareOn Span.last) (compareOn fun s : Span => s.kind.index))))

instance : Std.LawfulEqOrd Span where
  eq_of_compare {s s'} h := by
    obtain ⟨hfirst, h⟩ := compareLex_eq_eq.1 h
    obtain ⟨hlast, hkind⟩ := compareLex_eq_eq.1 h
    have hfirst : s.first = s'.first := Std.LawfulEqOrd.eq_of_compare hfirst
    have hlast : s.last = s'.last := Std.LawfulEqOrd.eq_of_compare hlast
    have hkind : s.kind = s'.kind :=
      Nonterminal.index_injective (Std.LawfulEqOrd.eq_of_compare hkind)
    cases s
    cases s'
    simp_all

namespace Extraction

/-- Every remembered outcome satisfies `p`. -/
def Memory.Keeps (p : Span → Option Node → Prop) (m : Memory) : Prop :=
  ∀ span found, m.known[span]? = some found → p span found

variable {p : Span → Option Node → Prop}

theorem Memory.keeps_start : Memory.Keeps p .start := by
  intro span found h
  simp [Memory.start] at h

theorem Memory.Keeps.insert {m : Memory} {span : Span} {found : Option Node}
    (h : m.Keeps p) (hfound : p span found) :
    Memory.Keeps p { m with known := m.known.insert span found } := by
  intro span' found' hspan'
  rw [Std.TreeMap.getElem?_insert] at hspan'
  split at hspan'
  next he =>
    obtain rfl := Std.LawfulEqOrd.eq_of_compare he
    obtain rfl := Option.some.inj hspan'
    exact hfound
  next => exact h span' found' hspan'

variable {α β : Type} {fails : Prop}

/-- From good memory, the search ends in good memory with an outcome that satisfies `q`. It may run
out of levels if `fails` holds. -/
structure Search.Meets (fails : Prop) (p : Span → Option Node → Prop) (q : α → Prop)
    (x : Search α) : Prop where
  outcome : ∀ m : Memory, m.Keeps p →
    match x m with
    | none => fails
    | some (a, m') => m'.Keeps p ∧ q a

def Attempt.Meets (fails : Prop) (p : Span → Option Node → Prop) (q : α → Prop) (x : Attempt α) :
    Prop :=
  ∀ b : Budget, Search.Meets fails p (fun found => q found.1) (x b)

namespace Search.Meets

variable {q r : α → Prop} {x : Search α}

theorem pure {a : α} (h : q a) : Meets fails p q (pure a : Search α) := ⟨fun _ hm => ⟨hm, h⟩⟩

theorem failure (h : fails) : Meets fails p q (failure : Search α) := ⟨fun _ _ => h⟩

theorem imp (h : Meets fails p q x) (himp : ∀ a, q a → r a) : Meets fails p r x := by
  refine ⟨fun m hm => ?_⟩
  have hx := h.outcome m hm
  split at hx
  next he => simpa [he] using hx
  next he => simpa [he] using ⟨hx.1, himp _ hx.2⟩

theorem bind {f : α → Search β} {r : β → Prop} (h : Meets fails p q x)
    (hf : ∀ a, q a → Meets fails p r (f a)) : Meets fails p r (x >>= f) := by
  refine ⟨fun m hm => ?_⟩
  have hx := h.outcome m hm
  change match (x m).bind fun found => f found.1 found.2 with
    | none => fails
    | some (a, m') => m'.Keeps p ∧ r a
  split at hx
  next he => simpa [he] using hx
  next a m' he =>
    rw [he]
    exact (hf a hx.2).outcome m' hx.1

end Search.Meets

namespace Attempt.Meets

variable {q r : α → Prop} {x : Attempt α}

theorem imp (h : Meets fails p q x) (himp : ∀ a, q a → r a) : Meets fails p r x :=
  fun b => (h b).imp fun found => himp found.1

theorem pure {a : α} (h : q a) : Meets fails p q (pure a : Attempt α) :=
  fun _ => Search.Meets.pure h

theorem bind {f : α → Attempt β} {r : β → Prop} (h : Meets fails p q x)
    (hf : ∀ a, q a → Meets fails p r (f a)) : Meets fails p r (x >>= f) :=
  fun b => Search.Meets.bind (h b) fun found hfound => hf found.1 hfound found.2

theorem lift {x : Search α} (h : Search.Meets fails p q x) :
    Meets fails p q (liftM x : Attempt α) :=
  fun b => Search.Meets.bind (f := fun a => Pure.pure (a, b)) h fun _ ha => Search.Meets.pure ha

theorem firstOf {q : Option α → Prop} {f : Nat → Attempt (Option α)} {candidates : List Nat}
    (hnone : q none) (h : ∀ n ∈ candidates, Meets fails p q (f n)) :
    Meets fails p q (firstOf f candidates) := by
  induction candidates with
  | nil => exact pure hnone
  | cons n candidates ih =>
    rw [Extraction.firstOf]
    refine bind (h n (by simp)) fun found hfound => ?_
    cases found with
    | some a => exact pure hfound
    | none => exact ih fun n' hn' => h n' (List.mem_cons_of_mem _ hn')

end Attempt.Meets

/-- A search within an attempt leaves the budget alone. -/
theorem Search.Meets.lift_attempt {q : α → Prop} {x : Search α} (h : Search.Meets fails p q x)
    (b : Budget) :
    Search.Meets fails p (fun found => q found.1 ∧ found.2 = b) ((liftM x : Attempt α) b) :=
  Search.Meets.bind (f := fun a => Pure.pure (a, b)) h fun _ ha => Search.Meets.pure ⟨ha, rfl⟩

/-- What an attempt does with the budget it is given. -/
theorem Search.Meets.bind_attempt {x : Attempt α} {f : α → Attempt β} {b : Budget}
    {q : α × Budget → Prop} {r : β × Budget → Prop} (h : Search.Meets fails p q (x b))
    (hf : ∀ found, q found → Search.Meets fails p r (f found.1 found.2)) :
    Search.Meets fails p r ((x >>= f) b) :=
  Search.Meets.bind h hf

section Split

variable {input : Input} {build : Span → Search (Option Node)} {lhs : Nonterminal}
  {first last pos : Nat} {children : List Node} {rest : List Symbol}
  {q : Option (List Node) → Prop}

theorem meets_accept (hnone : q none)
    (h : pos = last → input.context.allowsChildren lhs children last = true → q (some children)) :
    Attempt.Meets fails p q (accept input lhs first pos last children) := by
  refine fun b => ⟨fun m hm => ?_⟩
  unfold accept
  by_cases hpos : pos = last
  · by_cases hallowed : input.context.allowsChildren lhs children last = true
    · simp only [hpos, hallowed, bne_self_eq_false]
      exact ⟨hm, h hpos hallowed⟩
    · simp only [hpos, hallowed, bne_self_eq_false]
      exact ⟨hm, hnone⟩
  · simp only [bne_iff_ne.2 hpos, if_true]
    exact ⟨hm, hnone⟩

/-- What is left of a split after its step is counted. -/
def splitRest (input : Input) (build : Span → Search (Option Node)) (lhs : Nonterminal)
    (first last : Nat) (symbols : List Symbol) (pos : Nat) (children : List Node) :
    Attempt (Option (List Node)) :=
  match symbols with
  | [] => accept input lhs first pos last children
  | .terminal kind :: rest =>
    match input.context.tokens[pos]? with
    | some token =>
      if pos < last && token.kind = kind then
        split input build lhs first last rest (pos + 1) (children ++ [.token token])
      else return none
    | none => return none
  | .word _ :: _ => return none
  | .nonterminal kind :: rest =>
    firstOf (fun stop => do
      match ← build ⟨kind, pos, stop⟩ with
      | some node => split input build lhs first last rest stop (children ++ [node])
      | none => return none) (endsFor input kind rest.isEmpty pos last)

theorem split_eq (symbols : List Symbol) (b : Budget) :
    split input build lhs first last symbols pos children b =
      if Budget.isExhausted { b with steps := b.steps + 1 } then
        pure (none, { b with steps := b.steps + 1 })
      else
        splitRest input build lhs first last symbols pos children
          { b with steps := b.steps + 1 } := by
  rcases symbols with _ | ⟨_ | _ | _, rest⟩
  all_goals
    rw [split]
    change (if Budget.isExhausted { b with steps := b.steps + 1 } then
        (Pure.pure none : Attempt (Option (List Node)))
      else _) { b with steps := b.steps + 1 } = _
    split <;> rfl

theorem Attempt.Meets.split {symbols : List Symbol} (hnone : q none)
    (h : Attempt.Meets fails p q
      (splitRest input build lhs first last symbols pos children)) :
    Attempt.Meets fails p q (split input build lhs first last symbols pos children) := by
  intro b
  rw [split_eq]
  split
  · exact Search.Meets.pure hnone
  · exact h _

/-- An attempt at a rule that is given up has found nothing. -/
theorem Search.Meets.tryRules {build : Span → Search (Option Node)} {span : Span}
    {rules : List Rule} {q : Option Node → Prop} (hnone : q none)
    (h : ∀ r ∈ rules, Attempt.Meets fails p
      (fun found => ∀ children, found = some children → q (some (node r children)))
      (Extraction.split input build r.lhs span.first span.last r.rhs span.first [])) :
    Search.Meets fails p q (tryRules input build span rules) := by
  induction rules with
  | nil => exact pure hnone
  | cons r rules ih =>
    rw [Extraction.tryRules]
    refine bind (h r (by simp) ⟨0, 0⟩) fun found hfound => ?_
    obtain ⟨children, budget⟩ := found
    cases children with
    | some children => exact pure (hfound children rfl)
    | none =>
      have hrest := ih fun r' hr' => h r' (List.mem_cons_of_mem _ hr')
      dsimp only
      split
      · exact bind (q := fun _ => True) ⟨fun m hm => ⟨hm, trivial⟩⟩ fun _ _ => hrest
      · exact hrest

end Split

theorem node_of_not_collected {r : Rule} (h : r.lhs.isCollected = false) (nodes : List Node) :
    node r nodes = .plain r.lhs nodes := by
  simp [node, h]

end Extraction

end ElispLift
