import ElispLift.Proofs.Extraction.Arrivals
import ElispLift.Proofs.Extraction.Assembly
import ElispLift.Proofs.Extraction.Memo

/-!
# Spans that are always found

Some spans get the same tree whenever they are built, whatever was built before. For each there is a
rule whose symbols can be given such spans in turn, where all that is longer has no tree or leads
nowhere at once, and the rules before it have no other tree. Of all other spans it is only known
that their trees are assembled by the rules.

A span is given up for good if it is built inside one of its own parts. The parts over the same
instructions have a lower rank, so this does not happen where nothing is built inside a span of
lower rank over the same instructions, unless it is already being built.
-/

namespace ElispLift.Extraction

open ElispLift.Derivation Grammar

variable {rules : List Rule} {tokens : List Instruction} {start : Nonterminal} {span part : Span}
  {active : List Span} {levels : Nat}

/-! ### Spans with and without trees -/

/-- No tree is assembled over the span. -/
def Barren (rules : List Rule) (tokens : List Instruction) (span : Span) : Prop :=
  ∀ nodes, ¬Assembles rules tokens (AllowsChildren tokens) [.nonterminal span.kind] span.first
    span.last nodes

theorem assembles_of_builds {d : Derivation} {tree : Node}
    (h : d.Builds rules ⟨tokens.toArray⟩ span tree) :
    Assembles rules tokens (AllowsChildren tokens) [.nonterminal span.kind] span.first span.last
      [tree] := by
  have htokens : tokens.drop span.first = d.tokens ++ tokens.drop span.last := by
    simpa using h.tokens_eq
  have hall := assembles d h.checked htokens
  rwa [h.symbol_eq, h.tree_eq, ← h.last_eq] at hall

theorem assembles_of_buildsAll {parts : List Derivation} {symbols : List Symbol} {first last : Nat}
    (h : BuildsAll parts rules ⟨tokens.toArray⟩ symbols first last) :
    Assembles rules tokens (AllowsChildren tokens) symbols first last (treesOf parts) := by
  have htokens : tokens.drop first = tokensOf parts ++ tokens.drop last := by
    simpa using h.tokens_eq
  have hall := assemblesOf parts h.checked htokens
  rwa [h.symbols_eq, ← h.last_eq] at hall

theorem Barren.eq_none (h : Barren rules tokens span) {found : Option Node}
    (hfound : Justified rules ⟨tokens.toArray⟩ span found) : found = none := by
  cases found with
  | none => rfl
  | some tree =>
    obtain ⟨d, hd⟩ := hfound tree rfl
    exact (h _ (assembles_of_builds hd)).elim

theorem covers_of_mem_partsFrom {symbols : List Symbol} {pos last : Nat}
    (h : part ∈ partsFrom (inputOf rules start tokens) last symbols pos) :
    Covers rules tokens part := by
  induction symbols generalizing pos with
  | nil => simp [partsFrom] at h
  | cons s rest ih =>
    cases s with
    | word text => simp [partsFrom] at h
    | terminal kind =>
      rw [partsFrom] at h
      split at h
      · split at h
        · exact ih h
        · simp at h
      · simp at h
    | nonterminal kind =>
      rw [partsFrom] at h
      obtain ⟨stop, hstop, h⟩ := List.mem_flatMap.1 h
      rcases List.mem_cons.1 h with rfl | h
      · exact (covers_of_mem_endsFor hstop).1
      · exact ih h

theorem covers_of_mem_partsOf (h : part ∈ partsOf (inputOf rules start tokens) span) :
    Covers rules tokens part := by
  obtain ⟨r, -, hpart⟩ := List.mem_flatMap.1 h
  exact covers_of_mem_partsFrom hpart

theorem mem_symbols_of_mem_partsFrom {symbols : List Symbol} {pos last : Nat}
    (h : part ∈ partsFrom (inputOf rules start tokens) last symbols pos) :
    .nonterminal part.kind ∈ symbols := by
  induction symbols generalizing pos with
  | nil => simp [partsFrom] at h
  | cons s rest ih =>
    cases s with
    | word text => simp [partsFrom] at h
    | terminal kind =>
      rw [partsFrom] at h
      split at h
      · split at h
        · exact List.mem_cons_of_mem _ (ih h)
        · simp at h
      · simp at h
    | nonterminal kind =>
      rw [partsFrom] at h
      obtain ⟨stop, -, h⟩ := List.mem_flatMap.1 h
      rcases List.mem_cons.1 h with rfl | h
      · exact List.mem_cons_self
      · exact List.mem_cons_of_mem _ (ih h)

theorem exists_rule_of_mem_partsOf (h : part ∈ partsOf (inputOf rules start tokens) span) :
    ∃ r ∈ rules, r.lhs = span.kind ∧
      part ∈ partsFrom (inputOf rules start tokens) span.last r.rhs span.first := by
  obtain ⟨r, hr, hpart⟩ := List.mem_flatMap.1 h
  obtain ⟨nr, hnr, rfl⟩ := List.mem_map.1 hr
  obtain ⟨hmem, hlhs⟩ := (numbered_ofRules rules).mem_rules hnr
  exact ⟨_, hmem, hlhs, hpart⟩

/-! ### Routes -/

/-- The symbols can be given spans up to `last` that have nodes by `target`. What is longer is
barren, or leads nowhere at once. It takes a step for each symbol, and `cost` more. -/
inductive Route (rules : List Rule) (start : Nonterminal) (tokens : List Instruction)
    (target : Span → Node → Prop) (last : Nat) :
    (cost : Nat) → List Symbol → (pos : Nat) → List Node → Prop where
  | nil : Route rules start tokens target last 0 [] last []
  | terminal {cost : Nat} {rest : List Symbol} {pos : Nat} {token : Instruction}
      {nodes : List Node} (htoken : tokens[pos]? = some token) (hpos : pos < last)
      (h : Route rules start tokens target last cost rest (pos + 1) nodes) :
      Route rules start tokens target last cost (.terminal token.kind :: rest) pos
        (.token token :: nodes)
  | nonterminal {cost : Nat} {kind : Nonterminal} {rest : List Symbol} {pos stop : Nat}
      {before after : List Nat} {node : Node} {nodes : List Node} (stuck : List Nat)
      (hends : endsFor (inputOf rules start tokens) kind rest.isEmpty pos last =
        before ++ stop :: after)
      (hnodup : before.Nodup)
      (hskip : ∀ q ∈ before, Barren rules tokens ⟨kind, pos, q⟩ ∨
        q ∈ stuck ∧ Stuck (inputOf rules start tokens) last rest q)
      (htarget : target ⟨kind, pos, stop⟩ node)
      (h : Route rules start tokens target last cost rest stop nodes) :
      Route rules start tokens target last (stuck.length + cost) (.nonterminal kind :: rest) pos
        (node :: nodes)

section Search

variable {fails : Prop} {p : Span → Option Node → Prop} {α : Type}

theorem Search.Meets.and {q r : α → Prop} {x : Search α} (h : Search.Meets fails p q x)
    (h' : Search.Meets fails p r x) : Search.Meets fails p (fun a => q a ∧ r a) x := by
  refine ⟨fun m hm => ?_⟩
  have hx := h.outcome m hm
  have hx' := h'.outcome m hm
  split at hx
  next he => simpa [he] using hx
  next a m' he =>
    rw [he] at hx'
    exact ⟨hx.1, hx.2, hx'.2⟩

theorem meets_split_of_rest {build : Span → Search (Option Node)} {input : Input}
    {lhs : Nonterminal} {first last pos : Nat} {children : List Node} {symbols : List Symbol}
    {b : Budget} {q : Option (List Node) × Budget → Prop}
    (hsteps : b.steps + 1 ≤ Budget.maxSteps) (hcandidates : b.candidates = 0)
    (h : Search.Meets fails p q (splitRest input build lhs first last symbols pos children
      { b with steps := b.steps + 1 })) :
    Search.Meets fails p q (split input build lhs first last symbols pos children b) := by
  have hleft : Budget.isExhausted { b with steps := b.steps + 1 } = false := by
    simp [Budget.isExhausted, Budget.maxCandidates, hcandidates]
    omega
  rw [split_eq, hleft]
  exact h

/-- The candidates before the right one cost a step each, or nothing. -/
theorem firstOf_eq_some {f : Nat → Attempt (Option α)} {a : α} {stop : Nat}
    {before after : List Nat}
    (stuck : List Nat) (hnodup : before.Nodup) (b : Budget)
    (hbefore : ∀ n ∈ before, ∀ b, Search.Meets fails p (fun found => found.1 = none ∧
      found.2.steps ≤ b.steps + (if n ∈ stuck then 1 else 0) ∧
        found.2.candidates = b.candidates) (f n b))
    (hstop : ∀ b' : Budget, b'.steps ≤ b.steps + stuck.length → b'.candidates = b.candidates →
      Search.Meets fails p (fun found => found.1 = some a) (f stop b')) :
    Search.Meets fails p (fun found => found.1 = some a)
      (firstOf f (before ++ stop :: after) b) := by
  induction before generalizing b stuck with
  | nil =>
    rw [List.nil_append, firstOf]
    refine Search.Meets.bind_attempt (hstop b (Nat.le_add_right _ _) rfl) fun found hfound => ?_
    obtain ⟨found, b'⟩ := found
    obtain rfl : found = some a := hfound
    exact Search.Meets.pure rfl
  | cons n before ih =>
    obtain ⟨hn, hnodup⟩ := List.nodup_cons.1 hnodup
    rw [List.cons_append, firstOf]
    refine Search.Meets.bind_attempt (hbefore n (by simp) b) fun found hfound => ?_
    obtain ⟨found, b'⟩ := found
    obtain ⟨hnone, hsteps, hcandidates⟩ := hfound
    obtain rfl : found = none := hnone
    dsimp only at hsteps hcandidates
    -- What `n` may cost is not available to the others.
    refine ih (stuck.erase n) hnodup b' (fun n' hn' b => ?_) fun b'' hsteps' hcandidates' => ?_
    · have hne : n' ≠ n := fun he => hn (he ▸ hn')
      have hlater := hbefore n' (List.mem_cons_of_mem _ hn') b
      simpa [List.mem_erase_of_ne hne] using hlater
    · refine hstop b'' ?_ (hcandidates'.trans hcandidates)
      rw [List.length_erase] at hsteps'
      have hpos : n ∈ stuck → 0 < stuck.length := List.length_pos_of_mem
      split at hsteps <;> split at hsteps' <;> simp_all <;> omega

/-- Where the rules before the right one find nothing else, its tree is found. -/
theorem Search.Meets.tryRules_eq_some {input : Input} {build : Span → Search (Option Node)}
    {before after : List Rule} {r : Rule} {tree : Node} {children : List Node}
    (hbefore : ∀ r' ∈ before, Attempt.Meets fails p
      (fun found => ∀ children, found = some children → node r' children = tree)
      (split input build r'.lhs span.first span.last r'.rhs span.first []))
    (hfound : Search.Meets fails p (fun found => found.1 = some children)
      (split input build r.lhs span.first span.last r.rhs span.first [] ⟨0, 0⟩))
    (hnode : node r children = tree) :
    Search.Meets fails p (fun found => found = some tree)
      (Extraction.tryRules input build span (before ++ r :: after)) := by
  induction before with
  | nil =>
    rw [List.nil_append, Extraction.tryRules]
    refine Search.Meets.bind hfound fun found hfound => ?_
    obtain ⟨found, budget⟩ := found
    obtain rfl : found = some children := hfound
    exact Search.Meets.pure (congrArg some hnode)
  | cons r' before ih =>
    rw [List.cons_append, Extraction.tryRules]
    refine Search.Meets.bind (hbefore r' (by simp) ⟨0, 0⟩) fun found hfound => ?_
    obtain ⟨_ | children, budget⟩ := found
    · have hrest := ih fun r hr => hbefore r (List.mem_cons_of_mem _ hr)
      dsimp only
      split
      · exact Search.Meets.bind (q := fun _ => True) ⟨fun m hm => ⟨hm, trivial⟩⟩ fun _ _ => hrest
      · exact hrest
    · exact Search.Meets.pure (congrArg some (hfound children rfl))

end Search

section

variable {target : Span → Node → Prop} {cost last pos stop : Nat} {kind : Nonterminal}
  {symbols rest : List Symbol} {node : Node} {nodes : List Node} {i : Instruction}

theorem Route.imp {target' : Span → Node → Prop}
    (himp : ∀ span node, target span node → target' span node)
    (h : Route rules start tokens target last cost symbols pos nodes) :
    Route rules start tokens target' last cost symbols pos nodes := by
  induction h with
  | nil => exact .nil
  | terminal htoken hpos _ ih => exact .terminal htoken hpos ih
  | nonterminal stuck hends hnodup hskip htarget _ ih =>
    exact .nonterminal stuck hends hnodup hskip (himp _ _ htarget) ih

/-- The first symbol is given a span that is a target, if all longer ones are barren or stuck. -/
theorem Route.next (stuck : List Nat)
    (h : Arrives rules start tokens (.nonterminal kind :: rest) pos)
    (hcovers : Covers rules tokens ⟨kind, pos, stop⟩) (hle : stop ≤ last)
    (hlast : rest = [] → stop = last)
    (hlonger : ∀ q, stop < q → q ≤ last → Covers rules tokens ⟨kind, pos, q⟩ →
      Barren rules tokens ⟨kind, pos, q⟩ ∨
        q ∈ stuck ∧ Stuck (inputOf rules start tokens) last rest q)
    (htarget : Due rules start tokens kind pos → target ⟨kind, pos, stop⟩ node)
    (hrest : Arrives rules start tokens rest stop →
      Route rules start tokens target last cost rest stop nodes) :
    Route rules start tokens target last (stuck.length + cost) (.nonterminal kind :: rest) pos
      (node :: nodes) := by
  have hpos : pos ≤ stop := hcovers.le
  have hmem := mem_endsFor_of_covers rest.isEmpty h.due hcovers hle (by simpa using hlast)
  have hdescending := @endsFor_pairwise rules start tokens kind rest.isEmpty pos last
  have hall := fun q => @covers_of_mem_endsFor rules start kind tokens pos q last rest.isEmpty
  obtain ⟨before, after, heq⟩ := List.append_of_mem hmem
  rw [heq] at hdescending hall
  obtain ⟨hbefore, -, hlt⟩ := List.pairwise_append.1 hdescending
  refine .nonterminal stuck heq (hbefore.imp fun hgt => Nat.ne_of_gt hgt) (fun q hq => ?_)
    (htarget h.due) (hrest (Arrives.next (s := [.nonterminal kind]) h hcovers))
  have hgt : stop < q := hlt q hq stop List.mem_cons_self
  obtain ⟨hq, hend, -⟩ := hall q (List.mem_append_left _ hq)
  exact hlonger q hgt (by omega) hq

/-- The first symbol is given the longest span that is not barren. -/
theorem Route.longest (h : Arrives rules start tokens (.nonterminal kind :: rest) pos)
    (hcovers : Covers rules tokens ⟨kind, pos, stop⟩) (hle : stop ≤ last)
    (hlast : rest = [] → stop = last)
    (hlonger : ∀ q, stop < q → q ≤ last → Covers rules tokens ⟨kind, pos, q⟩ →
      Barren rules tokens ⟨kind, pos, q⟩)
    (htarget : Due rules start tokens kind pos → target ⟨kind, pos, stop⟩ node)
    (hrest : Arrives rules start tokens rest stop →
      Route rules start tokens target last cost rest stop nodes) :
    Route rules start tokens target last cost (.nonterminal kind :: rest) pos (node :: nodes) := by
  have hroute := Route.next [] h hcovers hle hlast
    (fun q hlt hle hq => .inl (hlonger q hlt hle hq)) htarget hrest
  rwa [List.length_nil, Nat.zero_add] at hroute

/-- The last symbol is given the span up to the end. -/
theorem Route.final (h : Arrives rules start tokens [.nonterminal kind] pos)
    (hcovers : Covers rules tokens ⟨kind, pos, last⟩)
    (htarget : Due rules start tokens kind pos → target ⟨kind, pos, last⟩ node) :
    Route rules start tokens target last 0 [.nonterminal kind] pos [node] :=
  Route.longest h hcovers (Nat.le_refl _) (fun _ => rfl) (fun q hlt hle => by omega) htarget
    fun _ => .nil

/-- The first symbol is an instruction. -/
theorem Route.token (h : Arrives rules start tokens (.terminal i.kind :: rest) pos)
    (hi : tokens[pos]? = some i) (hpos : pos < last)
    (hrest : Arrives rules start tokens rest (pos + 1) →
      Route rules start tokens target last cost rest (pos + 1) nodes) :
    Route rules start tokens target last cost (.terminal i.kind :: rest) pos (.token i :: nodes) :=
  .terminal hi hpos (hrest (h.token hi))

end

/-! ### Plans -/

/-- One of the rules for a span has a route to its tree, and those before it have no other tree. -/
def Routed (rules : List Rule) (start : Nonterminal) (tokens : List Instruction)
    (target : Span → Node → Prop) (span : Span) (tree : Node) : Prop :=
  ∃ before r after nodes cost,
    ((ofRules rules).rulesFor span.kind).map (·.rule) = before ++ r :: after ∧
    (∀ r' ∈ before, ∀ children,
      Assembles rules tokens (AllowsChildren tokens) r'.rhs span.first span.last children →
        AllowsChildren tokens span.kind children span.last → node r' children = tree) ∧
    Route rules start tokens target span.last cost r.rhs span.first nodes ∧
    r.rhs.length + cost + 1 ≤ Budget.maxSteps ∧
    AllowsChildren tokens span.kind nodes span.last ∧ node r nodes = tree

/-- A rule with a route makes a tree routed if the other rules for the span have no other tree. -/
theorem Routed.of_mem {target : Span → Node → Prop} {tree : Node} {r : Rule} {nodes : List Node}
    {cost : Nat} (hr : r ∈ rules) (hlhs : r.lhs = span.kind)
    (hothers : ∀ r' ∈ rules, r'.lhs = span.kind → r' ≠ r → ∀ children,
      Assembles rules tokens (AllowsChildren tokens) r'.rhs span.first span.last children →
        AllowsChildren tokens span.kind children span.last → node r' children = tree)
    (hroute : Route rules start tokens target span.last cost r.rhs span.first nodes)
    (hcost : r.rhs.length + cost + 1 ≤ Budget.maxSteps)
    (hallowed : AllowsChildren tokens span.kind nodes span.last) (hnode : node r nodes = tree) :
    Routed rules start tokens target span tree := by
  have hall : ∀ {r' : Rule}, r' ∈ ((ofRules rules).rulesFor span.kind).map (·.rule) ↔
      r' ∈ rules ∧ r'.lhs = span.kind := by
    intro r'
    rw [(numbered_ofRules rules).rules_eq, List.mem_eraseDups, List.mem_filter,
      decide_eq_true_eq]
  obtain ⟨before, after, hrules, hnot⟩ := List.eq_append_cons_of_mem (hall.2 ⟨hr, hlhs⟩)
  refine ⟨before, r, after, nodes, cost, hrules, fun r' hr' children hchildren hallowed' => ?_,
    hroute, hcost, hallowed, hnode⟩
  obtain ⟨hmem, hlhs'⟩ := hall.1 (hrules ▸ List.mem_append_left _ hr')
  exact hothers r' hmem hlhs' (fun he => hnot (he ▸ hr')) children hchildren hallowed'

/-- The rules for the same nonterminal that are tried before `r`. -/
def priorRules (rules : List Rule) (r : Rule) : List Rule :=
  (rules.filter (·.lhs = r.lhs)).takeWhile (· ≠ r)

theorem mem_priorRules {r r' : Rule} (h : r' ∈ priorRules rules r) :
    r' ∈ rules ∧ r'.lhs = r.lhs := by
  obtain ⟨hmem, hlhs⟩ := List.mem_filter.1 (List.takeWhile_subset _ h)
  exact ⟨hmem, by simpa using hlhs⟩

/-- The rules before one are tried before it, whatever rules follow. -/
theorem exists_rulesFor_eq {r : Rule} (extra : List Rule) (hr : r ∈ rules) :
    ∃ after, ((ofRules (rules ++ extra)).rulesFor r.lhs).map (·.rule) =
      (priorRules rules r).eraseDups ++ r :: after := by
  have hmem : r ∈ rules.filter (·.lhs = r.lhs) := List.mem_filter.2 ⟨hr, by simp⟩
  obtain ⟨before, after, hfilter, hnot⟩ := List.eq_append_cons_of_mem hmem
  have hne : ∀ r' ∈ before, (r' ≠ r : Bool) = true := fun r' hr' =>
    decide_eq_true fun he => hnot (he ▸ hr')
  have hprior : priorRules rules r = before := by
    rw [priorRules, hfilter, List.takeWhile_append_of_pos hne]
    simp
  rw [hprior, (numbered_ofRules _).rules_eq, List.filter_append, hfilter, List.append_assoc,
    List.cons_append, List.eraseDups_append, List.removeAll, List.filter_cons_of_pos (by simpa),
    List.eraseDups_cons]
  exact ⟨_, rfl⟩

/-- A rule with a route makes a tree routed if the rules before it have no other tree. -/
theorem Routed.of_prior {target : Span → Node → Prop} {tree : Node} {r : Rule} {extra : List Rule}
    (nodes : List Node) (cost : Nat) (hr : r ∈ rules) (hlhs : r.lhs = span.kind)
    (hprior : ∀ r' ∈ priorRules rules r, ∀ children,
      Assembles (rules ++ extra) tokens (AllowsChildren tokens) r'.rhs span.first span.last
        children → AllowsChildren tokens span.kind children span.last → node r' children = tree)
    (hroute : Route (rules ++ extra) start tokens target span.last cost r.rhs span.first nodes)
    (hcost : r.rhs.length + cost + 1 ≤ Budget.maxSteps)
    (hallowed : AllowsChildren tokens span.kind nodes span.last) (hnode : node r nodes = tree) :
    Routed (rules ++ extra) start tokens target span tree := by
  obtain ⟨after, hafter⟩ := exists_rulesFor_eq extra hr
  exact ⟨_, r, after, nodes, cost, hlhs ▸ hafter,
    fun r' hr' => hprior r' (List.mem_eraseDups.1 hr'), hroute, hcost, hallowed, hnode⟩

theorem Routed.imp {target target' : Span → Node → Prop} {tree : Node}
    (himp : ∀ span node, target span node → target' span node)
    (h : Routed rules start tokens target span tree) :
    Routed rules start tokens target' span tree := by
  obtain ⟨before, r, after, nodes, cost, hrules, hbefore, hroute, hrest⟩ := h
  exact ⟨before, r, after, nodes, cost, hrules, hbefore, hroute.imp himp, hrest⟩

/-- What makes sure that the spans of `target` are found. A span is built inside spans of no lower
rank over the same instructions, or else inside itself; those that guard it are being built. -/
structure Plan (rules : List Rule) (start : Nonterminal) (tokens : List Instruction)
    (target : Span → Node → Prop) (rank : Span → Nat) (guards : Span → Span → Prop) : Prop where
  unique : ∀ t tree tree', target t tree → target t tree' → tree' = tree
  descends : ∀ span part, Covers rules tokens span →
    part ∈ partsOf (inputOf rules start tokens) span → part.first = span.first →
      part.last = span.last → part = span ∨ guards part span ∨ rank part ≤ rank span
  guarded : ∀ span part t, Covers rules tokens span →
    part ∈ partsOf (inputOf rules start tokens) span → guards t part → t = span ∨ guards t span
  routed : ∀ t tree, target t tree → Routed rules start tokens (fun part tree => target part tree ∧
    (part.first = t.first → part.last = t.last → rank part < rank t)) t tree

/-- A span is built while those in `active` are, as a plan wants it. -/
structure Called (rules : List Rule) (tokens : List Instruction) (rank : Span → Nat)
    (guards : Span → Span → Prop) (active : List Span) (span : Span) : Prop where
  covers : Covers rules tokens span
  around : ∀ t ∈ active, t.first ≤ span.first ∧ span.last ≤ t.last
  guarded : ∀ t, guards t span → t ∈ active
  ranked : span ∈ active ∨ ∀ t ∈ active, t.first = span.first → t.last = span.last →
    rank span ≤ rank t

section Plan

variable {target : Span → Node → Prop} {rank : Span → Nat} {guards : Span → Span → Prop}

theorem Called.of_mem_partsOf (hplan : Plan rules start tokens target rank guards)
    (h : Called rules tokens rank guards active span) (hspan : span ∉ active)
    (hpart : part ∈ partsOf (inputOf rules start tokens) span) :
    Called rules tokens rank guards (span :: active) part := by
  obtain ⟨r, hr, hmem⟩ := List.mem_flatMap.1 hpart
  obtain ⟨hfirst, hle, hlast⟩ :=
    within_of_mem_partsFrom (forward_inputOf rules start tokens) h.covers.le hmem
  refine ⟨covers_of_mem_partsFrom hmem, List.forall_mem_cons.2 ⟨⟨hfirst, hlast⟩, fun t ht => ?_⟩,
    fun t ht => ?_, ?_⟩
  · have := h.around t ht
    omega
  · rcases hplan.guarded span part t h.covers hpart ht with rfl | hguards
    · exact List.mem_cons_self
    · exact List.mem_cons_of_mem _ (h.guarded t hguards)
  · by_cases hsame : part.first = span.first ∧ part.last = span.last
    · obtain ⟨hfirst, hlast⟩ := hsame
      rcases hplan.descends span part h.covers hpart hfirst hlast with rfl | hguards | hrank
      · exact .inl List.mem_cons_self
      · exact .inl (List.mem_cons_of_mem _ (h.guarded part hguards))
      · refine .inr (List.forall_mem_cons.2 ⟨fun _ _ => hrank, fun t ht hf hl => ?_⟩)
        have hspan := h.ranked.resolve_left hspan t ht (hf.trans hfirst) (hl.trans hlast)
        omega
    · -- What is being built covers the span, and so more than the part.
      refine .inr (List.forall_mem_cons.2 ⟨fun hf hl => (hsame ⟨hf.symm, hl.symm⟩).elim,
        fun t ht hf hl => ?_⟩)
      have := h.around t ht
      omega

/-- A part of lower rank is not being built around its span. -/
theorem Called.not_mem (h : Called rules tokens rank guards active span) (hspan : span ∉ active)
    (hfirst : span.first ≤ part.first) (hlast : part.last ≤ span.last)
    (hrank : part.first = span.first → part.last = span.last → rank part < rank span) :
    part ∉ span :: active := by
  intro hmem
  rcases List.mem_cons.1 hmem with rfl | hmem
  · exact Nat.lt_irrefl _ (hrank rfl rfl)
  · obtain ⟨hle, hge⟩ := h.around part hmem
    have hf : part.first = span.first := Nat.le_antisymm hle hfirst
    have hl : part.last = span.last := Nat.le_antisymm hlast hge
    have hranked := h.ranked.resolve_left hspan part hmem hf hl
    have := hrank hf hl
    omega

/-- An outcome that is assembled over the span, and the tree of a target. -/
def Kept (rules : List Rule) (tokens : List Instruction) (target : Span → Node → Prop) (span : Span)
    (found : Option Node) : Prop :=
  Justified rules ⟨tokens.toArray⟩ span found ∧ ∀ tree, target span tree → found = some tree

section Split

variable {build : Span → Search (Option Node)} {lhs : Nonterminal} {first last : Nat}
  {symbols : List Symbol} {pos : Nat} {children : List Node}

theorem accepts_none : Accepts rules ⟨tokens.toArray⟩ lhs last symbols pos children none := by
  intro accepted hsome
  cases hsome

/-- What is accepted is made of parts that were built. -/
theorem meets_split_parts
    (hbuild : ∀ part ∈ partsFrom (inputOf rules start tokens) last symbols pos,
      Search.Meets True (Kept rules tokens target) (Justified rules ⟨tokens.toArray⟩ part)
        (build part)) :
    Attempt.Meets True (Kept rules tokens target)
      (Accepts rules ⟨tokens.toArray⟩ lhs last symbols pos children)
      (split (inputOf rules start tokens) build lhs first last symbols pos children) := by
  induction symbols generalizing pos children with
  | nil =>
    refine .split accepts_none (meets_accept accepts_none ?_)
    rintro rfl hallowed accepted hsome
    obtain rfl := Option.some.inj hsome
    exact ⟨[], by simp [treesOf], .nil, hallowed⟩
  | cons s rest ih =>
    refine .split accepts_none ?_
    cases s with
    | word text => exact .pure accepts_none
    | terminal kind =>
      simp only [partsFrom] at hbuild
      simp only [splitRest]
      cases htoken : (inputOf rules start tokens).context.tokens[pos]? with
      | none => exact .pure accepts_none
      | some token =>
        simp only [htoken] at hbuild
        dsimp only
        split
        next hmatches =>
          rw [if_pos hmatches] at hbuild
          obtain ⟨hlt, rfl⟩ : pos < last ∧ token.kind = kind := by simpa using hmatches
          refine (ih hbuild).imp fun found hfound accepted hsome => ?_
          obtain ⟨parts, htrees, hparts, hallowed⟩ := hfound accepted hsome
          exact ⟨.leaf token :: parts, by simp [htrees, treesOf, tree], hparts.leaf htoken,
            hallowed⟩
        · exact .pure accepts_none
    | nonterminal kind =>
      refine .firstOf accepts_none fun stop hstop => ?_
      have hpart := hbuild ⟨kind, pos, stop⟩ (List.mem_flatMap.2 ⟨stop, hstop, by simp⟩)
      refine .bind (.lift hpart) fun found hfound => ?_
      cases found with
      | none => exact .pure accepts_none
      | some node =>
        obtain ⟨d, hd⟩ := hfound node rfl
        have hrest : ∀ part ∈ partsFrom (inputOf rules start tokens) last rest stop, _ :=
          fun part hpart => hbuild part
            (List.mem_flatMap.2 ⟨stop, hstop, List.mem_cons_of_mem _ hpart⟩)
        refine (ih hrest).imp fun found hfound accepted hsome => ?_
        obtain ⟨parts, htrees, hparts, hallowed⟩ := hfound accepted hsome
        exact ⟨d :: parts, by simp [htrees, treesOf, hd.tree_eq], .cons hd hparts, hallowed⟩

/-- A split that has a route finds its nodes. -/
theorem meets_split_of_route {target' : Span → Node → Prop} {cost : Nat} {nodes : List Node}
    (h : Route rules start tokens target' last cost symbols pos nodes)
    (hbuild : ∀ part ∈ partsFrom (inputOf rules start tokens) last symbols pos,
      Search.Meets True (Kept rules tokens target)
        (fun found => Justified rules ⟨tokens.toArray⟩ part found ∧
          ∀ tree, target' part tree → found = some tree) (build part))
    (hallowed : AllowsChildren tokens lhs (children ++ nodes) last)
    (b : Budget) (hsteps : b.steps + symbols.length + cost + 1 ≤ Budget.maxSteps)
    (hcandidates : b.candidates = 0) :
    Search.Meets True (Kept rules tokens target) (fun found => found.1 = some (children ++ nodes))
      (split (inputOf rules start tokens) build lhs first last symbols pos children b) := by
  induction h generalizing children b with
  | nil =>
    refine meets_split_of_rest (by omega) hcandidates ⟨fun m hm => ?_⟩
    rw [List.append_nil] at hallowed
    have hlast : (inputOf rules start tokens).context.allowsChildren lhs children last = true :=
      hallowed
    simp only [splitRest, accept, bne_self_eq_false, hlast, List.append_nil]
    exact ⟨hm, rfl⟩
  | @terminal cost rest pos token nodes htoken hpos h ih =>
    have htoken' : (inputOf rules start tokens).context.tokens[pos]? = some token := by
      simpa [inputOf] using htoken
    have hchildren : children ++ .token token :: nodes = children ++ [.token token] ++ nodes := by
      simp
    rw [List.length_cons] at hsteps
    rw [hchildren] at hallowed ⊢
    simp only [partsFrom, htoken', hpos, decide_true, Bool.and_self, if_true] at hbuild
    refine meets_split_of_rest (by omega) hcandidates ?_
    simp only [splitRest, htoken', hpos, decide_true, Bool.and_self, if_true]
    exact ih hbuild hallowed _ (by dsimp only; omega) hcandidates
  | @nonterminal cost kind rest pos stop before after node nodes stuck hends hnodup hskip htarget h
      ih =>
    have hchildren : children ++ node :: nodes = children ++ [node] ++ nodes := by simp
    have hparts : ∀ q ∈ before ++ stop :: after, ∀ part,
        part = ⟨kind, pos, q⟩ ∨ part ∈ partsFrom (inputOf rules start tokens) last rest q →
          part ∈ partsFrom (inputOf rules start tokens) last (.nonterminal kind :: rest) pos := by
      intro q hq part hpart
      rw [← hends] at hq
      exact List.mem_flatMap.2 ⟨q, hq, List.mem_cons.2 hpart⟩
    have hstop : stop ∈ before ++ stop :: after := by simp
    rw [List.length_cons] at hsteps
    rw [hchildren] at hallowed ⊢
    refine meets_split_of_rest (by omega) hcandidates ?_
    simp only [splitRest, hends]
    refine firstOf_eq_some stuck hnodup _ (fun q hq b' => ?_) fun b' hsteps' hcandidates' => ?_
    · have hbuilt := hbuild _ (hparts q (List.mem_append_left _ hq) _ (.inl rfl))
      refine Search.Meets.bind_attempt (hbuilt.lift_attempt b') fun found hfound => ?_
      obtain ⟨found, b''⟩ := found
      obtain ⟨⟨hjustified, -⟩, rfl⟩ := hfound
      cases found with
      | none => exact Search.Meets.pure ⟨rfl, Nat.le_add_right _ _, rfl⟩
      | some node =>
        rcases hskip q hq with hbarren | ⟨hstuck, hnothing⟩
        · cases hbarren.eq_none hjustified
        · refine (meets_of_stuck hnothing b'').imp fun found' hfound' => ?_
          rw [hfound'.2, if_pos hstuck]
          exact ⟨hfound'.1, Nat.le_refl _, rfl⟩
    · dsimp only at hsteps' hcandidates'
      have hbuilt := hbuild _ (hparts stop hstop _ (.inl rfl))
      refine Search.Meets.bind_attempt (hbuilt.lift_attempt b') fun found hfound => ?_
      obtain ⟨found, b''⟩ := found
      obtain ⟨⟨-, hfound⟩, hsame⟩ := hfound
      obtain rfl : b'' = b' := hsame
      obtain rfl : found = some node := hfound node htarget
      exact ih (fun part hpart => hbuild part (hparts stop hstop _ (.inr hpart))) hallowed b''
        (by omega) (hcandidates'.trans hcandidates)

end Split

section Build

variable {build : Span → Search (Option Node)} {tree : Node} {r : Rule}

/-- What an attempt at one of the rules for a span accepts is made of parts that were built. -/
theorem meets_attempt
    (hbuild : ∀ part ∈ partsOf (inputOf rules start tokens) span,
      Search.Meets True (Kept rules tokens target) (Justified rules ⟨tokens.toArray⟩ part)
        (build part))
    (hr : r ∈ ((inputOf rules start tokens).grammar.rulesFor span.kind).map (·.rule)) :
    r ∈ rules ∧ r.lhs = span.kind ∧ Attempt.Meets True (Kept rules tokens target)
      (Accepts rules ⟨tokens.toArray⟩ span.kind span.last r.rhs span.first [])
      (split (inputOf rules start tokens) build r.lhs span.first span.last r.rhs span.first
        []) := by
  obtain ⟨nr, hnr, rfl⟩ := List.mem_map.1 hr
  obtain ⟨hmem, hlhs⟩ := (sound_chart rules ⟨tokens.toArray⟩ start).mem_rules span.kind nr hnr
  refine ⟨hmem, hlhs, ?_⟩
  rw [hlhs]
  exact meets_split_parts fun part hpart => hbuild part (mem_partsOf hr hpart)

/-- What is found over a span of the chart is assembled. -/
theorem meets_tryRules_of_parts (hcovers : Covers rules tokens span)
    (hbuild : ∀ part ∈ partsOf (inputOf rules start tokens) span,
      Search.Meets True (Kept rules tokens target) (Justified rules ⟨tokens.toArray⟩ part)
        (build part)) :
    Search.Meets True (Kept rules tokens target) (Justified rules ⟨tokens.toArray⟩ span)
      (tryRules (inputOf rules start tokens) build span
        (((inputOf rules start tokens).grammar.rulesFor span.kind).map (·.rule))) := by
  refine Search.Meets.tryRules (by simp [Justified]) fun r hr => ?_
  obtain ⟨hmem, hlhs, hattempt⟩ := meets_attempt hbuild hr
  refine hattempt.imp fun found hfound children hsome tree htree => ?_
  obtain ⟨parts, htrees, hall, hallowed⟩ := hfound children hsome
  obtain rfl : children = treesOf parts := htrees
  obtain rfl := Option.some.inj htree
  have hpasses : span.first < span.last →
      Context.allowsSpan ⟨tokens.toArray⟩ r.lhs span.first span.last = true := by
    obtain ⟨-, -, -, -, hpasses⟩ := hcovers.of_single
    rwa [hlhs]
  rw [← hlhs] at hallowed
  have hnode := hall.node hmem hpasses hallowed
  rw [hlhs] at hnode
  exact ⟨_, hnode⟩

/-- A routed tree is found, if the parts on its route are. -/
theorem meets_tryRules_of_routed {target' : Span → Node → Prop}
    (hrouted : Routed rules start tokens target' span tree)
    (hbuild : ∀ part ∈ partsOf (inputOf rules start tokens) span,
      Search.Meets True (Kept rules tokens target)
        (fun found => Justified rules ⟨tokens.toArray⟩ part found ∧
          ∀ tree, target' part tree → found = some tree) (build part)) :
    Search.Meets True (Kept rules tokens target) (fun found => found = some tree)
      (tryRules (inputOf rules start tokens) build span
        (((inputOf rules start tokens).grammar.rulesFor span.kind).map (·.rule))) := by
  obtain ⟨before, r, after, nodes, cost, hrules, hbefore, hroute, hcost, hallowed, hnode⟩ := hrouted
  have hrules : ((inputOf rules start tokens).grammar.rulesFor span.kind).map (·.rule) =
      before ++ r :: after := hrules
  have hattempts := fun {r'} => @meets_attempt rules tokens start span target build r'
    fun part hpart => (hbuild part hpart).imp fun _ h => h.1
  have hmem : r ∈ ((inputOf rules start tokens).grammar.rulesFor span.kind).map (·.rule) := by
    rw [hrules]
    simp
  obtain ⟨-, hlhs, -⟩ := hattempts hmem
  rw [hrules]
  refine Search.Meets.tryRules_eq_some (fun r' hr' => ?_) (meets_split_of_route hroute
    (fun part hpart => hbuild part (mem_partsOf hmem hpart)) (by rwa [hlhs]) ⟨0, 0⟩
    (by simpa using hcost) rfl) hnode
  obtain ⟨-, -, hattempt⟩ := @hattempts r' (by rw [hrules]; simp [hr'])
  refine hattempt.imp fun found hfound children hsome => ?_
  obtain ⟨parts, htrees, hall, hallowed⟩ := hfound children hsome
  obtain rfl : children = treesOf parts := htrees
  exact hbefore r' hr' _ (assembles_of_buildsAll hall) hallowed

end Build

/-- Whatever is built is assembled, and the tree of a target is found unless the target is being
built. -/
theorem meets_build_of_plan (hplan : Plan rules start tokens target rank guards)
    (h : Called rules tokens rank guards active span) :
    Search.Meets True (Kept rules tokens target)
      (fun found => Justified rules ⟨tokens.toArray⟩ span found ∧
        ∀ tree, target span tree → span ∉ active → found = some tree)
      (build (inputOf rules start tokens) levels active span) := by
  induction levels generalizing active span with
  | zero => exact Search.Meets.failure trivial
  | succ levels ih =>
    rw [build]
    refine Search.Meets.bind (q := Memory.Keeps (Kept rules tokens target))
      ⟨fun m hm => ⟨hm, hm⟩⟩ fun m hm => ?_
    split
    next found hknown =>
      exact Search.Meets.pure ⟨(hm span found hknown).1,
        fun tree ht _ => (hm span found hknown).2 tree ht⟩
    next =>
      by_cases hspan : span ∈ active
      · rw [if_pos (by simpa using hspan)]
        exact Search.Meets.pure ⟨by simp [Justified], fun _ _ hnot => (hnot hspan).elim⟩
      rw [if_neg (by simpa using hspan)]
      have hparts : ∀ part ∈ partsOf (inputOf rules start tokens) span, _ :=
        fun part hpart => ih (h.of_mem_partsOf hplan hspan hpart)
      have hjustified := meets_tryRules_of_parts h.covers fun part hpart =>
        (hparts part hpart).imp fun _ h => h.1
      have hfound : Search.Meets True (Kept rules tokens target)
          (fun found => ∀ tree, target span tree → found = some tree)
          (tryRules (inputOf rules start tokens)
            (build (inputOf rules start tokens) levels (span :: active)) span
            (((inputOf rules start tokens).grammar.rulesFor span.kind).map (·.rule))) := by
        by_cases htarget : ∃ tree, target span tree
        · obtain ⟨tree, htree⟩ := htarget
          refine (meets_tryRules_of_routed (hplan.routed span tree htree) fun part hpart =>
            (hparts part hpart).imp fun found hfound =>
              ⟨hfound.1, fun tree hpart' => hfound.2 tree hpart'.1 ?_⟩).imp
            fun found hfound tree' htree' => ?_
          · -- A part over the same instructions has a lower rank, so it is not being built.
            obtain ⟨r, -, hmem⟩ := List.mem_flatMap.1 hpart
            obtain ⟨hfirst, -, hlast⟩ :=
              within_of_mem_partsFrom (forward_inputOf rules start tokens) h.covers.le hmem
            exact h.not_mem hspan hfirst hlast hpart'.2
          · rw [hfound, hplan.unique span tree tree' htree htree']
        · exact hjustified.imp fun found _ tree htree => (htarget ⟨tree, htree⟩).elim
      refine Search.Meets.bind (hjustified.and hfound) fun found hfound => ?_
      exact Search.Meets.bind (q := fun _ => True)
        ⟨fun m hm => ⟨hm.insert hfound, trivial⟩⟩
        fun _ _ => Search.Meets.pure ⟨hfound.1, fun tree ht _ => hfound.2 tree ht⟩

/-- The search finds the tree of the whole of the instructions if that is a target. -/
theorem run_of_plan {tree : Node} (hplan : Plan rules start tokens target rank guards)
    (hcovers : Covers rules tokens ⟨start, 0, tokens.length⟩)
    (htarget : target ⟨start, 0, tokens.length⟩ tree)
    (hguards : ∀ t, ¬guards t ⟨start, 0, tokens.length⟩) :
    (run (inputOf rules start tokens) ⟨start, 0, tokens.length⟩).1 = some tree := by
  have hcalled : Called rules tokens rank guards [] ⟨start, 0, tokens.length⟩ :=
    ⟨hcovers, by simp, fun t ht => (hguards t ht).elim, .inr (by simp)⟩
  have hmeets := (@meets_build_of_plan _ _ _ _ _ (maxLevels (inputOf rules start tokens)) _ _ _
    hplan hcalled).outcome .start Memory.keeps_start
  have hlhs : ∀ kind, ∀ nr ∈ (inputOf rules start tokens).grammar.rulesFor kind,
      nr.rule.lhs = kind :=
    fun kind nr hnr => ((numbered_ofRules rules).mem_rules hnr).2
  have haround : Around (inputOf rules start tokens).context.tokens.size []
      ⟨start, 0, tokens.length⟩ :=
    ⟨List.nodup_nil, by simp, Nat.zero_le _, Nat.le_refl _⟩
  obtain ⟨found, m, hbuild, -⟩ := leads_build (forward_inputOf rules start tokens) hlhs haround
    (Nat.le_of_eq (Nat.zero_add _).symm) .start Memory.accounts_start
  rw [hbuild] at hmeets
  rw [run, StateT.run, hbuild]
  exact hmeets.2.2 tree htarget (by simp)

/-- The parser finds the tree of the whole of the instructions if that is a target. -/
theorem parse_of_plan {extra : List Rule} {tree : Node} {stop : Nat}
    (hplan : Plan (base ++ extra) start tokens target rank guards) (hstop : tokens.length = stop)
    (hcovers : Covers (base ++ extra) tokens ⟨start, 0, stop⟩) (hpos : 0 < stop)
    (htarget : target ⟨start, 0, stop⟩ tree) (hguards : ∀ t, ¬guards t ⟨start, 0, stop⟩) :
    parse start extra tokens = .ok tree := by
  subst hstop
  refine parse_of_run ?_ (run_of_plan hplan hcovers htarget hguards)
  obtain ⟨r, hr, hlhs, hrhs, hok⟩ := hcovers.of_single
  exact List.contains_iff_mem.2
    (((filled_chartOf _ start tokens).mem_ends_iff (.inl ⟨rfl, rfl⟩)).2
      ⟨hok hpos, r, hr, hlhs, hrhs⟩)

end Plan

end ElispLift.Extraction
