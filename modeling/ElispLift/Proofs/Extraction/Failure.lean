import Mathlib.Data.List.ProdSigma
import Mathlib.Data.List.Perm.Subperm
import ElispLift.Proofs.Extraction.Ends

/-!
# Spans that are given up

A span is given up only for a reason: whichever way its symbols are followed through the trees that
are remembered, there is a span without a tree, children that are refused, or a span over the same
instructions. As long as no budget runs out, every failure that is remembered has such a reason, and
keeps it. Levels never run out, since the spans that are being built at a time all differ.
-/

namespace ElispLift.Extraction

variable {input : Input} {active active' : List Span} {span : Span} {m m' m'' : Memory} {b : Budget}
  {symbols : List Symbol} {kind : Nonterminal} {children : List Node} {pos stop size levels : Nat}

/-! ### Spans around a span -/

/-- The spans that are being built when `span` is, which lie around it. -/
structure Around (size : Nat) (active : List Span) (span : Span) : Prop where
  nodup : active.Nodup
  covers : ∀ t ∈ active, t.first ≤ span.first ∧ span.last ≤ t.last ∧ t.last ≤ size
  le : span.first ≤ span.last
  le_size : span.last ≤ size

theorem Around.cons (h : Around size active span) (hspan : span ∉ active)
    (hfirst : span.first ≤ pos) (hpos : pos ≤ stop) (hstop : stop ≤ span.last) :
    Around size (span :: active) ⟨kind, pos, stop⟩ := by
  have hsize := h.le_size
  refine ⟨List.nodup_cons.2 ⟨hspan, h.nodup⟩, fun t ht => ?_, hpos, Nat.le_trans hstop hsize⟩
  rcases List.mem_cons.1 ht with rfl | ht
  · exact ⟨hfirst, hstop, hsize⟩
  · have := h.covers t ht
    dsimp only
    omega

/-- All spans of so many instructions. -/
def spansWithin (size : Nat) : List Span :=
  (Nonterminal.all ×ˢ (List.range (size + 1) ×ˢ List.range (size + 1))).map
    fun (kind, first, last) => ⟨kind, first, last⟩

theorem Around.length_le (h : Around size active span) :
    active.length ≤ Nonterminal.all.length * ((size + 1) * (size + 1)) := by
  have hsub : active ⊆ spansWithin size := by
    intro t ht
    have hcovers := h.covers t ht
    have hle := h.le
    refine List.mem_map.2 ⟨(t.kind, t.first, t.last), ?_, rfl⟩
    rw [List.mem_product, List.mem_product, List.mem_range, List.mem_range]
    exact ⟨t.kind.mem_all, by omega, by omega⟩
  have hlength := (h.nodup.subperm hsub).length_le
  rwa [spansWithin, List.length_map, List.length_product, List.length_product,
    List.length_range] at hlength

/-! ### Reasons for failures -/

/-- More is remembered than before, and nothing is forgotten. -/
structure Memory.Grows (m m' : Memory) : Prop where
  known : ∀ (span : Span) (found : Option Node), m.known[span]? = some found →
    m'.known[span]? = some found
  exhausted : m.exhausted = true → m'.exhausted = true

theorem Memory.Grows.refl (m : Memory) : m.Grows m := ⟨fun _ _ h => h, id⟩

theorem Memory.Grows.trans (h : m.Grows m') (h' : m'.Grows m'') : m.Grows m'' :=
  ⟨fun span found hm => h'.known span found (h.known span found hm), h'.exhausted ∘ h.exhausted⟩

/-- The symbols cannot be given spans from `pos` on, behind the trees in `children`. A span over all
instructions of the rule leads nowhere while it is being built, and it may get a tree later. -/
def Blocked (input : Input) (m : Memory) (active : List Span) (span : Span) :
    (symbols : List Symbol) → (pos : Nat) → (children : List Node) → Prop
  | [], pos, children =>
    pos = span.last → input.context.allowsChildren span.kind children span.last = false
  | .terminal kind :: rest, pos, children =>
    ∀ token, input.context.tokens[pos]? = some token → pos < span.last → token.kind = kind →
      Blocked input m active span rest (pos + 1) (children ++ [.token token])
  | .word _ :: _, _, _ => True
  | .nonterminal kind :: rest, pos, children =>
    ∀ stop ∈ endsFor input kind rest.isEmpty pos span.last,
      m.known[(⟨kind, pos, stop⟩ : Span)]? = some none ∨
      (pos = span.first ∧ stop = span.last ∧ ⟨kind, pos, stop⟩ ∈ active) ∨
      ∃ node, m.known[(⟨kind, pos, stop⟩ : Span)]? = some (some node) ∧
        (pos = span.first ∧ stop = span.last ∨
          Blocked input m active span rest stop (children ++ [node]))

/-- A reason remains one when more is remembered, and when a span is finished. -/
theorem Blocked.imp (h : Blocked input m active span symbols pos children) (hgrows : m.Grows m')
    (hactive : ∀ t ∈ active, t ∈ active' ∨ ∃ found : Option Node, m'.known[t]? = some found) :
    Blocked input m' active' span symbols pos children := by
  induction symbols generalizing pos children with
  | nil => exact h
  | cons s rest ih =>
    cases s with
    | terminal kind => exact fun token htoken hpos hkind => ih (h token htoken hpos hkind)
    | word text => trivial
    | nonterminal kind =>
      intro stop hstop
      rcases h stop hstop with hnone | ⟨hfirst, hlast, hmem⟩ | ⟨node, hnode, hnext⟩
      · exact .inl (hgrows.known _ _ hnone)
      · rcases hactive _ hmem with hmem | ⟨_ | node, hfound⟩
        · exact .inr (.inl ⟨hfirst, hlast, hmem⟩)
        · exact .inl hfound
        · exact .inr (.inr ⟨node, hfound, .inl ⟨hfirst, hlast⟩⟩)
      · exact .inr (.inr ⟨node, hgrows.known _ _ hnode, hnext.imp id ih⟩)

theorem Blocked.mono (h : Blocked input m active span symbols pos children) (hgrows : m.Grows m') :
    Blocked input m' active span symbols pos children :=
  h.imp hgrows fun _ ht => .inl ht

/-- What is remembered while the spans in `active` are being built. These have no outcome yet, and
without a budget that ran out every failure has its reasons. -/
structure Memory.Accounts (input : Input) (active : List Span) (m : Memory) : Prop where
  pending : ∀ span ∈ active, m.known[span]? = none
  failures : m.exhausted = false → ∀ span, m.known[span]? = some none →
    ∀ nr ∈ input.grammar.rulesFor span.kind,
      Blocked input m active span nr.rule.rhs span.first []

theorem Memory.accounts_start : Memory.Accounts input [] .start := by
  refine ⟨by simp, fun _ span hspan => ?_⟩
  simp [Memory.start] at hspan

theorem Memory.Accounts.cons (h : m.Accounts input active) (hspan : m.known[span]? = none) :
    m.Accounts input (span :: active) :=
  ⟨List.forall_mem_cons.2 ⟨hspan, h.pending⟩, fun hexhausted t ht nr hnr =>
    (h.failures hexhausted t ht nr hnr).imp (.refl m) fun _ hu => .inl (List.mem_cons_of_mem _ hu)⟩

/-- What else is noted does not matter. -/
theorem Memory.Accounts.of_known_eq (h : m.Accounts input active) (hgrows : m.Grows m')
    (hknown : m'.known = m.known) : m'.Accounts input active := by
  refine ⟨by rw [hknown]; exact h.pending, fun hleft span hspan nr hnr => ?_⟩
  rw [hknown] at hspan
  have hleft : m.exhausted = false :=
    Bool.eq_false_iff.2 fun hm => by simp [hgrows.exhausted hm] at hleft
  exact (h.failures hleft span hspan nr hnr).mono hgrows

/-- A span is finished. -/
theorem Memory.Accounts.insert {found : Option Node} (h : m.Accounts input (span :: active))
    (hspan : span ∉ active) (hfound : found = none → m.exhausted = false →
      ∀ nr ∈ input.grammar.rulesFor span.kind,
        Blocked input m (span :: active) span nr.rule.rhs span.first []) :
    m.Grows { m with known := m.known.insert span found } ∧
      Memory.Accounts input active { m with known := m.known.insert span found } := by
  have hget : ∀ t, (m.known.insert span found)[t]? =
      if span = t then some found else m.known[t]? := by
    intro t
    rw [Std.TreeMap.getElem?_insert]
    exact if_congr Std.LawfulEqOrd.compare_eq_iff_eq rfl rfl
  have hgrows : m.Grows { m with known := m.known.insert span found } := by
    refine ⟨fun t outcome ht => ?_, id⟩
    -- What is being built has no outcome that could be overwritten.
    have hne : span ≠ t := by
      rintro rfl
      simp [h.pending span (by simp)] at ht
    dsimp only
    rw [hget, if_neg hne, ht]
  have hfinished : ∀ t ∈ span :: active, t ∈ active ∨
      ∃ outcome : Option Node, (m.known.insert span found)[t]? = some outcome := by
    intro t ht
    rcases List.mem_cons.1 ht with rfl | ht
    · exact .inr ⟨found, by rw [hget, if_pos rfl]⟩
    · exact .inl ht
  refine ⟨hgrows, fun t ht => ?_, fun hexhausted t ht nr hnr => ?_⟩
  · have hne : span ≠ t := by
      rintro rfl
      exact hspan ht
    dsimp only
    rw [hget, if_neg hne, h.pending t (List.mem_cons_of_mem _ ht)]
  · dsimp only at hexhausted ht
    rw [hget] at ht
    split at ht
    next heq =>
      subst heq
      exact (hfound (Option.some.inj ht) hexhausted nr hnr).imp hgrows hfinished
    next => exact (h.failures hexhausted t ht nr hnr).imp hgrows hfinished

/-! ### Searches -/

section

variable {α β : Type}

/-- Whatever is remembered, the search has an outcome that satisfies `q` in the memory it leaves. -/
def Search.Leads (input : Input) (active : List Span) (q : α → Memory → Prop) (x : Search α) :
    Prop :=
  ∀ m : Memory, m.Accounts input active → ∃ a m',
    x m = some (a, m') ∧ m.Grows m' ∧ m'.Accounts input active ∧ q a m'

namespace Search.Leads

variable {q : α → Memory → Prop} {r : β → Memory → Prop} {x : Search α}

theorem pure {a : α} (h : ∀ m, q a m) : Leads input active q (pure a : Search α) :=
  fun m hm => ⟨a, m, rfl, .refl m, hm, h m⟩

theorem imp {q' : α → Memory → Prop} (h : Leads input active q x) (himp : ∀ a m, q a m → q' a m) :
    Leads input active q' x := by
  intro m hm
  obtain ⟨a, m', hx, hgrows, hm', hq⟩ := h m hm
  exact ⟨a, m', hx, hgrows, hm', himp a m' hq⟩

theorem bind {f : α → Search β} (r' : α → β → Memory → Prop) (h : Leads input active q x)
    (hf : ∀ a, Leads input active (r' a) (f a))
    (himp : ∀ a c m m', m.Grows m' → q a m → r' a c m' → r c m') :
    Leads input active r (x >>= f) := by
  intro m hm
  obtain ⟨a, m₁, hx, hgrows, hm₁, hq⟩ := h m hm
  obtain ⟨c, m₂, hc, hgrows', hm₂, hr⟩ := hf a m₁ hm₁
  refine ⟨c, m₂, ?_, hgrows.trans hgrows', hm₂, himp a c m₁ m₂ hgrows' hq hr⟩
  change (x m).bind (fun found => f found.1 found.2) = _
  rw [hx]
  exact hc

/-- An attempt goes on with the budget that is left. -/
theorem bind_attempt {x : Attempt α} {f : α → Attempt β} {q : α × Budget → Memory → Prop}
    {r : β × Budget → Memory → Prop} (r' : α × Budget → β × Budget → Memory → Prop)
    (h : Leads input active q (x b))
    (hf : ∀ found, Leads input active (r' found) (f found.1 found.2))
    (himp : ∀ a c m m', m.Grows m' → q a m → r' a c m' → r c m') :
    Leads input active r ((x >>= f) b) :=
  bind r' h hf himp

/-- A search within an attempt leaves the budget alone. -/
theorem lift_attempt (h : Leads input active q x) (b : Budget) :
    Leads input active (fun found m => q found.1 m ∧ found.2 = b) ((liftM x : Attempt α) b) := by
  intro m hm
  obtain ⟨a, m', hx, hgrows, hm', hq⟩ := h m hm
  refine ⟨(a, b), m', ?_, hgrows, hm', hq, rfl⟩
  change (x m).bind (fun found => some ((found.1, b), found.2)) = _
  rw [hx]
  rfl

end Search.Leads

/-- No less is spent than before. -/
def Budget.Le (b b' : Budget) : Prop := b.steps ≤ b'.steps ∧ b.candidates ≤ b'.candidates

theorem Budget.Le.refl (b : Budget) : b.Le b := ⟨Nat.le_refl _, Nat.le_refl _⟩

theorem Budget.Le.trans {b b' b'' : Budget} (h : b.Le b') (h' : b'.Le b'') : b.Le b'' :=
  ⟨Nat.le_trans h.1 h'.1, Nat.le_trans h.2 h'.2⟩

theorem Budget.Le.isExhausted {b b' : Budget} (h : b.Le b') (hexhausted : b.isExhausted = true) :
    b'.isExhausted = true := by
  have := h.1
  have := h.2
  simp only [Budget.isExhausted, Bool.or_eq_true, decide_eq_true_eq] at hexhausted ⊢
  omega

/-- An attempt that finds nothing within its budget has the reason `r`. -/
def Attempt.Leads (input : Input) (active : List Span) (r : Memory → Prop)
    (x : Attempt (Option α)) : Prop :=
  ∀ b : Budget, Search.Leads input active (fun found m =>
    b.Le found.2 ∧ (found.1 = none → found.2.isExhausted = false → r m)) (x b)

namespace Attempt.Leads

variable {r : Memory → Prop} {x : Attempt (Option α)}

theorem pure_none (h : ∀ m, r m) : Leads input active r (pure none : Attempt (Option α)) :=
  fun b => Search.Leads.pure fun m => ⟨.refl b, fun _ _ => h m⟩

theorem imp {r' : Memory → Prop} (h : Leads input active r x) (himp : ∀ m, r m → r' m) :
    Leads input active r' x :=
  fun b => (h b).imp fun _ m hfound =>
    ⟨hfound.1, fun hnone hexhausted => himp m (hfound.2 hnone hexhausted)⟩

/-- If none of the candidates is found, each of them has its reason. -/
theorem firstOf {f : Nat → Attempt (Option α)} {candidates : List Nat} {r : Nat → Memory → Prop}
    (hmono : ∀ n m m', m.Grows m' → r n m → r n m')
    (h : ∀ n ∈ candidates, Leads input active (r n) (f n)) :
    Leads input active (fun m => ∀ n ∈ candidates, r n m) (firstOf f candidates) := by
  induction candidates with
  | nil => exact pure_none (by simp)
  | cons n candidates ih =>
    intro b
    rw [Extraction.firstOf]
    refine Search.Leads.bind_attempt (fun found last m => found.2.Le last.2 ∧
      (last.1 = none → found.1 = none) ∧
      (last.1 = none → last.2.isExhausted = false → ∀ n ∈ candidates, r n m))
      (h n (by simp) b) ?_ ?_
    · rintro ⟨_ | a, b'⟩
      · refine (ih fun n' hn' => h n' (List.mem_cons_of_mem _ hn')) b' |>.imp fun last m hlast => ?_
        exact ⟨hlast.1, fun _ => rfl, hlast.2⟩
      · exact Search.Leads.pure fun m => ⟨.refl b', by simp, by simp⟩
    · rintro ⟨found, b'⟩ ⟨last, b''⟩ m m' hgrows ⟨hle, hreason⟩ ⟨hle', hfound, hrest⟩
      refine ⟨hle.trans hle', fun hnone hexhausted => List.forall_mem_cons.2 ⟨?_, ?_⟩⟩
      · refine hmono n m m' hgrows (hreason (hfound hnone) ?_)
        exact Bool.eq_false_iff.2 fun hspent => by simp [hle'.isExhausted hspent] at hexhausted
      · exact hrest hnone hexhausted

end Attempt.Leads

end

section Split

variable {build : Span → Search (Option Node)}

theorem leads_accept (first : Nat) : Attempt.Leads input active
    (fun m => Blocked input m active span [] pos children)
    (accept input span.kind first pos span.last children) := by
  refine fun b m hm => ?_
  unfold accept
  by_cases hpos : pos = span.last
  · by_cases hallowed : input.context.allowsChildren span.kind children span.last = true
    · simp only [hpos, hallowed, bne_self_eq_false]
      exact ⟨_, m, rfl, .refl m, hm, ⟨Nat.le_refl _, Nat.le_succ _⟩, by simp⟩
    · have hrefused := Bool.eq_false_iff.2 hallowed
      simp only [hpos, hrefused, bne_self_eq_false]
      refine ⟨_, _, rfl, ?_, hm.of_known_eq ?_ rfl, ⟨Nat.le_refl _, Nat.le_succ _⟩,
        fun _ _ _ => hrefused⟩
      all_goals exact ⟨fun _ _ h => h, id⟩
  · simp only [bne_iff_ne.2 hpos, if_true]
    exact ⟨_, m, rfl, .refl m, hm, .refl b,
      fun _ _ hlast => (hpos hlast).elim⟩

theorem Attempt.Leads.split {r : Memory → Prop}
    (h : Attempt.Leads input active r
      (splitRest input build span.kind span.first span.last symbols pos children)) :
    Attempt.Leads input active r
      (split input build span.kind span.first span.last symbols pos children) := by
  intro b
  have hstep : b.Le { b with steps := b.steps + 1 } := ⟨Nat.le_succ _, Nat.le_refl _⟩
  rw [split_eq]
  split
  next hexhausted =>
    refine Search.Leads.pure fun m => ⟨hstep, fun _ hleft => ?_⟩
    rw [hexhausted] at hleft
    cases hleft
  next => exact (h _).imp fun found m hfound => ⟨hstep.trans hfound.1, hfound.2⟩

/-- A span that was built is remembered with its outcome, or is still being built. -/
def Settled (active : List Span) (span : Span) (found : Option Node) (m : Memory) : Prop :=
  m.known[span]? = some found ∨ found = none ∧ span ∈ active

theorem Settled.mono {found : Option Node} (h : Settled active span found m) (hgrows : m.Grows m') :
    Settled active span found m' :=
  h.imp_left (hgrows.known span found)

/-- Ends do not lie before starts. -/
def Input.Forward (input : Input) : Prop :=
  ∀ kind pos, ∀ stop ∈ input.ends.of kind pos, pos ≤ stop

/-- A split that finds nothing within its budget is blocked. -/
theorem leads_split (hforward : input.Forward)
    (hactive : ∀ t ∈ active, t.first ≤ span.first ∧ span.last ≤ t.last)
    (hbuild : ∀ kind pos stop, span.first ≤ pos → pos ≤ stop → stop ≤ span.last →
      Search.Leads input active (Settled active ⟨kind, pos, stop⟩) (build ⟨kind, pos, stop⟩))
    (hfirst : span.first ≤ pos) (hlast : pos ≤ span.last) :
    Attempt.Leads input active (fun m => Blocked input m active span symbols pos children)
      (split input build span.kind span.first span.last symbols pos children) := by
  induction symbols generalizing pos children with
  | nil => exact .split (leads_accept _)
  | cons s rest ih =>
    refine .split ?_
    cases s with
    | word text => exact .pure_none fun _ => trivial
    | terminal kind =>
      unfold splitRest
      dsimp only
      split
      next token htoken =>
        split
        next hkind =>
          obtain ⟨hlt, rfl⟩ : pos < span.last ∧ token.kind = kind := by simpa using hkind
          refine (ih (by omega) hlt).imp fun m hblocked token' htoken' _ _ => ?_
          obtain rfl := Option.some.inj (htoken.symm.trans htoken')
          exact hblocked
        next hkind =>
          refine .pure_none fun m token' htoken' hlt hkind' => (hkind ?_).elim
          obtain rfl := Option.some.inj (htoken.symm.trans htoken')
          simp [hlt, hkind']
      next htoken =>
        refine .pure_none fun m token' htoken' => ?_
        rw [htoken] at htoken'
        cases htoken'
    | nonterminal kind =>
      refine Attempt.Leads.firstOf (fun stop m m' hgrows h => ?_) fun stop hstop b => ?_
      · exact h.imp (hgrows.known _ _) <| .imp id fun ⟨node, hnode, hnext⟩ =>
          ⟨node, hgrows.known _ _ hnode, hnext.imp id (Blocked.mono · hgrows)⟩
      · have hle : stop ≤ span.last ∧ pos ≤ stop := by
          rcases (mem_endsFor.1 hstop).1 with ⟨hmem, hle⟩ | ⟨-, rfl⟩
          · exact ⟨hle, hforward kind pos stop hmem⟩
          · exact ⟨hlast, Nat.le_refl _⟩
        refine Search.Leads.bind_attempt (fun found last m => found.2.Le last.2 ∧
          ∀ node, found.1 = some node → last.1 = none → last.2.isExhausted = false →
            Blocked input m active span rest stop (children ++ [node]))
          ((hbuild kind pos stop hfirst hle.2 hle.1).lift_attempt b) ?_ ?_
        · rintro ⟨_ | node, b'⟩
          · exact Search.Leads.pure fun m => ⟨.refl b', by simp⟩
          · refine (ih (by omega) hle.1 b').imp fun last m hlast => ⟨hlast.1, ?_⟩
            intro node' hnode
            obtain rfl : node = node' := Option.some.inj hnode
            exact hlast.2
        · rintro ⟨found, b'⟩ ⟨last, b''⟩ m m' hgrows ⟨hsettled, hb⟩ ⟨hle', hrest⟩
          obtain rfl : b' = b := hb
          refine ⟨hle', fun hnone hleft => ?_⟩
          rcases hsettled.mono hgrows with hknown | ⟨-, hmem⟩
          · cases found with
            | none => exact .inl hknown
            | some node => exact .inr (.inr ⟨node, hknown, .inr (hrest node rfl hnone hleft)⟩)
          · -- What is being built lies around the rule, and so over the same instructions.
            have := hactive _ hmem
            exact .inr (.inl ⟨by dsimp only at this; omega, by dsimp only at this; omega, hmem⟩)

theorem leads_exhausted : Search.Leads input active (fun _ m => m.exhausted = true)
    (modify fun m => { m with exhausted := true } : Search Unit) := by
  have hgrows : ∀ m : Memory, m.Grows { m with exhausted := true } :=
    fun m => ⟨fun _ _ h => h, fun _ => rfl⟩
  exact fun m hm => ⟨(), _, rfl, hgrows m, hm.of_known_eq (hgrows m) rfl, rfl⟩

/-- If no rule is found and no budget runs out, all rules are blocked. -/
theorem leads_tryRules {rules : List Rule} (hlhs : ∀ r ∈ rules, r.lhs = span.kind)
    (h : ∀ r ∈ rules, Attempt.Leads input active
      (fun m => Blocked input m active span r.rhs span.first [])
      (split input build span.kind span.first span.last r.rhs span.first [])) :
    Search.Leads input active (fun found m => found = none → m.exhausted = false →
      ∀ r ∈ rules, Blocked input m active span r.rhs span.first [])
      (tryRules input build span rules) := by
  induction rules with
  | nil => exact Search.Leads.pure fun _ _ _ => by simp
  | cons r rules ih =>
    have hrest := ih (fun r' hr' => hlhs r' (List.mem_cons_of_mem _ hr'))
      fun r' hr' => h r' (List.mem_cons_of_mem _ hr')
    have hhead := h r (by simp) ⟨0, 0⟩
    rw [← hlhs r (by simp)] at hhead
    rw [tryRules]
    refine Search.Leads.bind (fun tried found m => found = none → m.exhausted = false →
      tried.1 = none ∧ tried.2.isExhausted = false ∧
        ∀ r ∈ rules, Blocked input m active span r.rhs span.first []) hhead ?_ ?_
    · rintro ⟨_ | children, budget⟩
      · dsimp only
        split
        next hspent =>
          -- That a budget ran out stays noted, so nothing is claimed in the end.
          refine Search.Leads.bind (fun _ _ _ => True) leads_exhausted
            (fun _ => hrest.imp fun _ _ _ => trivial) fun _ found m m' hgrows hspent _ _ hleft => ?_
          rw [hgrows.exhausted hspent] at hleft
          cases hleft
        next hleft => exact hrest.imp fun found m hfound hnone hexhausted =>
          ⟨rfl, Bool.eq_false_iff.2 hleft, hfound hnone hexhausted⟩
      · exact Search.Leads.pure fun _ hnone => by cases hnone
    · rintro ⟨tried, budget⟩ found m m' hgrows ⟨-, hblocked⟩ hrest hnone hexhausted
      obtain ⟨htried, hleft, hlater⟩ := hrest hnone hexhausted
      exact List.forall_mem_cons.2 ⟨(hblocked htried hleft).mono hgrows, hlater⟩

theorem build_eq (input : Input) (levels : Nat) (active : List Span) (span : Span) (m : Memory) :
    Extraction.build input (levels + 1) active span m =
      match m.known[span]? with
      | some done => some (done, m)
      | none =>
        if active.contains span then some (none, m)
        else
          (tryRules input (Extraction.build input levels (span :: active)) span
            ((input.grammar.rulesFor span.kind).map (·.rule)) m).bind fun found =>
              some (found.1, { found.2 with known := found.2.known.insert span found.1 }) := by
  rw [Extraction.build]
  change (match m.known[span]? with
    | some done => (pure done : Search (Option Node))
    | none => _) m = _
  cases m.known[span]? with
  | some done => rfl
  | none =>
    dsimp only
    split <;> rfl

/-- Building a span settles it, within the levels that there are. -/
theorem leads_build (hforward : input.Forward)
    (hlhs : ∀ kind, ∀ nr ∈ input.grammar.rulesFor kind, nr.rule.lhs = kind)
    (haround : Around input.context.tokens.size active span)
    (hlevels : maxLevels input ≤ active.length + levels) :
    Search.Leads input active (Settled active span)
      (Extraction.build input levels active span) := by
  induction levels generalizing active span with
  | zero =>
    -- There are fewer spans in all than levels, and those being built all differ.
    have := haround.length_le
    simp only [maxLevels] at hlevels
    omega
  | succ levels ih =>
    intro m hm
    rw [build_eq]
    cases hknown : m.known[span]? with
    | some done => exact ⟨done, m, rfl, .refl m, hm, .inl hknown⟩
    | none =>
      by_cases hmem : span ∈ active
      · exact ⟨none, m, by simp [hmem], .refl m, hm, .inr ⟨rfl, hmem⟩⟩
      · have hcovers : ∀ t ∈ span :: active, t.first ≤ span.first ∧ span.last ≤ t.last := by
          refine List.forall_mem_cons.2 ⟨⟨Nat.le_refl _, Nat.le_refl _⟩, fun t ht => ?_⟩
          exact ⟨(haround.covers t ht).1, (haround.covers t ht).2.1⟩
        have hparts : ∀ kind pos stop, span.first ≤ pos → pos ≤ stop → stop ≤ span.last →
            Search.Leads input (span :: active) (Settled (span :: active) ⟨kind, pos, stop⟩)
              (Extraction.build input levels (span :: active) ⟨kind, pos, stop⟩) :=
          fun kind pos stop hfirst hpos hstop => ih (haround.cons hmem hfirst hpos hstop)
            (by rw [List.length_cons]; omega)
        obtain ⟨found, m', hrun, hgrows, hm', hblocked⟩ :=
          leads_tryRules (by simpa using hlhs span.kind)
            (fun r (_ : r ∈ (input.grammar.rulesFor span.kind).map (·.rule)) =>
              leads_split hforward hcovers hparts (Nat.le_refl _) haround.le) m (hm.cons hknown)
        obtain ⟨hgrows', hm''⟩ := hm'.insert hmem fun hnone hleft nr hnr =>
          hblocked hnone hleft nr.rule (List.mem_map_of_mem hnr)
        refine ⟨found, _, ?_, hgrows.trans hgrows', hm'', .inl ?_⟩
        · simp only [List.contains_iff_mem, hmem, if_false, hrun]
          rfl
        · exact Std.TreeMap.getElem?_insert_self

/-- In the end every failure has its reasons, and the outcome of the whole span is remembered. -/
theorem run_accounts (span : Span) (hforward : input.Forward)
    (hlhs : ∀ kind, ∀ nr ∈ input.grammar.rulesFor kind, nr.rule.lhs = kind)
    (hle : span.first ≤ span.last) (hsize : span.last ≤ input.context.tokens.size) :
    (run input span).2.Accounts input [] ∧
      (run input span).2.known[span]? = some (run input span).1 := by
  have haround : Around input.context.tokens.size [] span := ⟨List.nodup_nil, by simp, hle, hsize⟩
  obtain ⟨found, m, hbuild, -, hm, hsettled⟩ :=
    leads_build hforward hlhs haround (Nat.le_of_eq (Nat.zero_add _).symm) .start
      Memory.accounts_start
  have hrun : run input span = (found, m) := by
    rw [run, StateT.run, hbuild]
  rw [hrun]
  exact ⟨hm, hsettled.resolve_right (by simp)⟩

end Split

end ElispLift.Extraction
