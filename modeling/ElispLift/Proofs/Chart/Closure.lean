import ElispLift.Proofs.Chart.Agenda
import ElispLift.Proofs.Chart.Ends
import ElispLift.Proofs.Grammar.Nullable

/-!
# Closing a position

The items of a position are closed one at a time. Each stands for a derivation of the symbols before
its dot, and when none is left to work through, whatever follows from an item of the position is in
the position too. There are enough steps for that.
-/

namespace ElispLift

/-- The items of a position, or none if it is not closed yet. -/
def Chart.itemsAt (c : Chart) (i : Nat) : List Item := c.sets[i]?.getD []

namespace Grammar

/-- A span may be covered by a nonterminal. The empty span always may. -/
def Passes (allowed : Nonterminal → Nat → Nat → Bool) (kind : Nonterminal) (first last : Nat) :
    Prop := first < last → allowed kind first last = true

section

variable (rules : List Rule) (word : List OpKind) (allowed : Nonterminal → Nat → Nat → Bool)

/-- The symbols before the dot derive the terminals up to `i` from where the item began. -/
def Matched (i : Nat) (item : Item) : Prop :=
  ∃ lhs, ∃ nr ∈ (ofRules rules).rulesFor lhs, ∃ k ≤ nr.rule.rhs.length,
    item = .dotted nr k item.origin ∧
      Derives rules word (Passes allowed) (nr.rule.rhs.take k) item.origin i

/-- A nonterminal covers a span by one of its rules, and is allowed to. -/
def Covered (kind : Nonterminal) (first last : Nat) : Prop :=
  allowed kind first last = true ∧
    ∃ r ∈ rules, r.lhs = kind ∧ Derives rules word (Passes allowed) r.rhs first last

/-- The agenda of position `i` holds matched items only, with all rules of the nonterminals that
count as started. -/
structure Tracks (i : Nat) (a : Agenda) : Prop where
  coded : a.Coded (ofRules rules) (Matched rules word allowed i)
  started : ∀ kind, a.started.contains kind.index = true →
    ∀ nr ∈ (ofRules rules).rulesFor kind, Item.start nr i ∈ a.items

/-- The chart of the positions before `i`. -/
structure Records (i : Nat) (c : Chart) : Prop where
  size : c.sets.size = i
  matched : ∀ m, ∀ item ∈ c.itemsAt m, Matched rules word allowed m item
  covered : ∀ kind first, ∀ j ∈ c.ends.of kind first, Covered rules word allowed kind first j
  descending : c.ends.Descending i

/-- All that follows from an item of position `i` is among the items, or among the ends. -/
structure Followed (c : Chart) (i : Nat) (items : List Item) (item : Item) : Prop where
  started : ∀ kind, item.awaits kind = true →
    ∀ nr ∈ (ofRules rules).rulesFor kind, Item.start nr i ∈ items
  passed : ∀ kind, item.awaits kind = true → kind ∈ nullableOf rules → item.advance ∈ items
  ended : item.rest = [] → allowed item.lhs item.origin i = true →
    i ∈ c.ends.of item.lhs item.origin
  completed : item.rest = [] → allowed item.lhs item.origin i = true → item.origin < i →
    ∀ waiting ∈ c.itemsAt item.origin, waiting.awaits item.lhs = true → waiting.advance ∈ items

end

variable {rules : List Rule} {word : List OpKind} {allowed : Nonterminal → Nat → Nat → Bool}
  {i m j : Nat} {item : Item} {kind : Nonterminal} {a : Agenda} {c c' : Chart}

theorem Matched.placed (h : Matched rules word allowed i item) : item.Placed (ofRules rules) :=
  h.imp fun _ ⟨nr, hnr, k, hk, he, _⟩ => ⟨nr, hnr, k, hk, he⟩

theorem Matched.origin_le (h : Matched rules word allowed i item) : item.origin ≤ i := by
  obtain ⟨lhs, nr, hnr, k, hk, he, hd⟩ := h
  exact hd.le

theorem matched_start {lhs : Nonterminal} {nr : NumberedRule}
    (hnr : nr ∈ (ofRules rules).rulesFor lhs) : Matched rules word allowed i (.start nr i) :=
  ⟨lhs, nr, hnr, 0, Nat.zero_le _, rfl, .nil i⟩

/-- The dot moves past a symbol that derives the terminals between. -/
theorem Matched.advance {s : Symbol} {rest : List Symbol} (h : Matched rules word allowed m item)
    (hrest : item.rest = s :: rest) (hs : Derives rules word (Passes allowed) [s] m j) :
    Matched rules word allowed j item.advance := by
  obtain ⟨lhs, nr, hnr, k, hk, he, hd⟩ := h
  have hdrop : nr.rule.rhs.drop k = s :: rest := by
    rw [he] at hrest
    exact hrest
  have hlt : k < nr.rule.rhs.length := by
    by_contra hlt
    simp [List.drop_eq_nil_of_le (Nat.le_of_not_lt hlt)] at hdrop
  have hs_eq : nr.rule.rhs[k] = s := by
    rw [List.drop_eq_getElem_cons hlt] at hdrop
    exact (List.cons.inj hdrop).1
  refine ⟨lhs, nr, hnr, k + 1, hlt, ?_, ?_⟩
  · rw [he, Item.advance_dotted]
    rfl
  · rw [List.take_succ_eq_append_getElem hlt, hs_eq]
    exact hd.append hs

theorem Matched.exists_rule (h : Matched rules word allowed i item) (hrest : item.rest = []) :
    ∃ r ∈ rules, r.lhs = item.lhs ∧ Derives rules word (Passes allowed) r.rhs item.origin i := by
  obtain ⟨lhs, nr, hnr, k, hk, he, hd⟩ := h
  have hdrop : nr.rule.rhs.drop k = [] := by
    rw [he] at hrest
    exact hrest
  have hlen := List.drop_eq_nil_iff.1 hdrop
  refine ⟨nr.rule, ((numbered_ofRules rules).mem_rules hnr).1, ?_, ?_⟩
  · rw [he]
    rfl
  · rwa [List.take_of_length_le hlen] at hd

theorem Covered.derives (h : Covered rules word allowed kind i j) :
    Derives rules word (Passes allowed) [.nonterminal kind] i j := by
  obtain ⟨hallowed, r, hr, rfl, hd⟩ := h
  exact .single hr hd fun _ => hallowed

theorem derives_of_nullable (h : kind ∈ nullableOf rules) :
    Derives rules word (Passes allowed) [.nonterminal kind] i i :=
  derives_of_mem_nullableOf (fun _ _ hlt => (Nat.lt_irrefl _ hlt).elim) h

theorem tracks_empty : Tracks rules word allowed i .empty :=
  ⟨Agenda.coded_empty _ _, by simp [Agenda.empty]⟩

theorem Tracks.add (h : Tracks rules word allowed i a) (hitem : Matched rules word allowed i item) :
    Tracks rules word allowed i (a.add (ofRules rules).places item) := by
  refine ⟨h.coded.add hitem, fun kind hkind nr hnr => ?_⟩
  rw [Agenda.started_add] at hkind
  exact (Agenda.grows_add _ item).items_subset (h.started kind hkind nr hnr)

theorem Tracks.addAll {items : List Item} (h : Tracks rules word allowed i a)
    (hitems : ∀ item ∈ items, Matched rules word allowed i item) :
    Tracks rules word allowed i (a.addAll (ofRules rules).places items) := by
  refine ⟨h.coded.addAll hitems, fun kind hkind nr hnr => ?_⟩
  rw [Agenda.started_addAll] at hkind
  exact (Agenda.grows_addAll _ items).items_subset (h.started kind hkind nr hnr)

theorem Tracks.mem_add (h : Tracks rules word allowed i a)
    (hitem : Matched rules word allowed i item) :
    item ∈ (a.add (ofRules rules).places item).items :=
  h.coded.mem_add (numbered_ofRules rules) (fun _ => Matched.placed) hitem

theorem Tracks.subset_addAll {items : List Item} (h : Tracks rules word allowed i a)
    (hitems : ∀ item ∈ items, Matched rules word allowed i item) :
    items ⊆ (a.addAll (ofRules rules).places items).items :=
  h.coded.subset_addAll (numbered_ofRules rules) (fun _ => Matched.placed) hitems

theorem matched_startItems :
    ∀ item ∈ (ofRules rules).startItems kind i, Matched rules word allowed i item := by
  intro item hitem
  obtain ⟨nr, hnr, rfl⟩ := List.mem_map.1 hitem
  exact matched_start hnr

theorem grows_startRules (g : Grammar) (kind : Nonterminal) (i : Nat) :
    a.Grows (g.startRules kind i a) := by
  unfold startRules
  split
  · exact .refl a
  · have h := Agenda.grows_addAll (a := { a with started := a.started.insert kind.index }) g.places
      (g.startItems kind i)
    exact ⟨h.items_subset, h.todo_subset, h.fresh, h.count⟩

/-- The rules of a nonterminal are there once it is started. -/
theorem Tracks.mem_startItems (h : Tracks rules word allowed i a) {nr : NumberedRule}
    (hnr : nr ∈ (ofRules rules).rulesFor kind) (started : Bits) :
    Item.start nr i ∈ (({ a with started } : Agenda).addAll (ofRules rules).places
      ((ofRules rules).startItems kind i)).items :=
  (h.coded.restart started).subset_addAll (numbered_ofRules rules) (fun _ => Matched.placed)
    matched_startItems (List.mem_map_of_mem hnr)

theorem Tracks.startRules (h : Tracks rules word allowed i a) (kind : Nonterminal) :
    Tracks rules word allowed i ((ofRules rules).startRules kind i a) := by
  unfold Grammar.startRules
  split
  · exact h
  · refine ⟨(h.coded.restart _).addAll matched_startItems, ?_⟩
    intro kind' hkind' nr hnr
    rw [Agenda.started_addAll] at hkind'
    simp only [Bits.contains_insert, Bool.or_eq_true, decide_eq_true_eq] at hkind'
    rcases hkind' with he | hkind'
    · rw [← Nonterminal.index_injective he] at hnr
      exact h.mem_startItems hnr _
    · exact (Agenda.grows_addAll _ _).items_subset (h.started kind' hkind' nr hnr)

theorem Tracks.mem_startRules (h : Tracks rules word allowed i a) {nr : NumberedRule}
    (hnr : nr ∈ (ofRules rules).rulesFor kind) :
    Item.start nr i ∈ ((ofRules rules).startRules kind i a).items := by
  unfold Grammar.startRules
  split
  next hstarted => exact h.started kind hstarted nr hnr
  · exact h.mem_startItems hnr _

theorem grows_follow (g : Grammar) (c : Chart) (i : Nat) (item : Item) :
    a.Grows (g.follow allowed c i a item) := by
  unfold follow
  split
  next kind rest hrest =>
    dsimp only
    split
    · exact (grows_startRules g kind i).trans (Agenda.grows_add _ _)
    · exact grows_startRules g kind i
  · exact .refl a
  · split
    · exact Agenda.grows_addAll _ _
    · exact .refl a

theorem mem_advanceOver {items : List Item} :
    item ∈ advanceOver kind items ↔
      ∃ waiting ∈ items, waiting.awaits kind = true ∧ waiting.advance = item := by
  simp [advanceOver, and_assoc]

/-- The items that waited for a finished one stand at a closed position or at the one being
closed. -/
theorem matched_advanceOver (hc : Records rules word allowed i c)
    (ha : Tracks rules word allowed i a)
    (hitem : Matched rules word allowed i item) (hrest : item.rest = [])
    (hallowed : allowed item.lhs item.origin i = true) :
    ∀ moved ∈ advanceOver item.lhs (c.sets[item.origin]?.getD a.items),
      Matched rules word allowed i moved := by
  intro moved hmoved
  obtain ⟨waiting, hwaiting, hawaits, rfl⟩ := mem_advanceOver.1 hmoved
  obtain ⟨rest, hwrest⟩ := Item.awaits_iff.1 hawaits
  have hderives := Covered.derives ⟨hallowed, hitem.exists_rule hrest⟩
  refine Matched.advance (m := item.origin) ?_ hwrest hderives
  rcases hset : c.sets[item.origin]? with _ | before
  · have hge : i ≤ item.origin := by
      rw [← hc.size]
      exact Array.getElem?_eq_none_iff.1 hset
    have heq : item.origin = i := Nat.le_antisymm hitem.origin_le hge
    rw [hset] at hwaiting
    exact heq ▸ ha.coded.holds waiting hwaiting
  · rw [hset] at hwaiting
    exact hc.matched _ waiting (by simpa [Chart.itemsAt, hset] using hwaiting)

theorem Tracks.follow (hc : Records rules word allowed i c) (ha : Tracks rules word allowed i a)
    (hitem : Matched rules word allowed i item) :
    Tracks rules word allowed i ((ofRules rules).follow allowed c i a item) := by
  unfold Grammar.follow
  split
  next kind rest hrest =>
    dsimp only
    split
    next hnull =>
      have hnull := isNullable_ofRules.1 hnull
      exact (ha.startRules kind).add (hitem.advance hrest (derives_of_nullable hnull))
    · exact ha.startRules kind
  · exact ha
  next hrest =>
    split
    next hallowed => exact ha.addAll (matched_advanceOver hc ha hitem hrest hallowed)
    · exact ha

theorem mem_finished {first : Nat} :
    j ∈ (finished allowed i item c.ends).of kind first ↔ j ∈ c.ends.of kind first ∨
      (item.rest = [] ∧ allowed item.lhs item.origin i = true) ∧
        item.lhs = kind ∧ item.origin = first ∧ j = i := by
  unfold finished
  split
  next h =>
    have h : item.rest = [] ∧ allowed item.lhs item.origin i = true := by simpa using h
    rw [Ends.mem_of_add]
    simp [h]
  next h =>
    have h : ¬(item.rest = [] ∧ allowed item.lhs item.origin i = true) := by simpa using h
    simp [h]

theorem Records.finished (hc : Records rules word allowed i c)
    (hitem : Matched rules word allowed i item) :
    Records rules word allowed i { c with ends := finished allowed i item c.ends } := by
  refine ⟨hc.size, hc.matched, fun kind first j hj => ?_, ?_⟩
  · rcases mem_finished.1 hj with hj | ⟨⟨hrest, hallowed⟩, rfl, rfl, rfl⟩
    · exact hc.covered kind first j hj
    · exact ⟨hallowed, hitem.exists_rule hrest⟩
  · unfold Grammar.finished
    split
    · exact hc.descending.add _ _
    · exact hc.descending

/-- What follows from an item is there after the step for it. -/
theorem followed_follow (hc : Records rules word allowed i c) (ha : Tracks rules word allowed i a)
    (hitem : Matched rules word allowed i item) :
    Followed rules allowed { c with ends := finished allowed i item c.ends } i
      ((ofRules rules).follow allowed c i a item).items item := by
  refine ⟨fun kind hkind nr hnr => ?_, fun kind hkind hnull => ?_, fun hrest hallowed => ?_,
    fun hrest hallowed hlt waiting hwaiting hawaits => ?_⟩
  · obtain ⟨rest, hrest⟩ := Item.awaits_iff.1 hkind
    have hmem := ha.mem_startRules hnr
    simp only [Grammar.follow, hrest]
    split
    · exact (Agenda.grows_add _ _).items_subset hmem
    · exact hmem
  · obtain ⟨rest, hrest⟩ := Item.awaits_iff.1 hkind
    simp only [Grammar.follow, hrest, isNullable_ofRules.2 hnull, if_true]
    exact (ha.startRules kind).mem_add (hitem.advance hrest (derives_of_nullable hnull))
  · exact mem_finished.2 (.inr ⟨⟨hrest, hallowed⟩, rfl, rfl, rfl⟩)
  · have hbefore : c.sets[item.origin]?.getD a.items = c.itemsAt item.origin := by
      have hlt : item.origin < c.sets.size := hc.size.symm ▸ hlt
      simp [Chart.itemsAt, hlt]
    have hmatched := matched_advanceOver hc ha hitem hrest hallowed
    simp only [Grammar.follow, hrest, hallowed, if_true]
    refine ha.subset_addAll hmatched (mem_advanceOver.2 ⟨waiting, ?_, hawaits, rfl⟩)
    rw [hbefore]
    exact hwaiting

theorem Followed.mono {items items' : List Item} (h : Followed rules allowed c i items item)
    (hitems : items ⊆ items') (hsets : ∀ m < i, c'.itemsAt m = c.itemsAt m)
    (hends : ∀ kind first, c.ends.of kind first ⊆ c'.ends.of kind first) :
    Followed rules allowed c' i items' item :=
  ⟨fun kind hkind nr hnr => hitems (h.started kind hkind nr hnr),
    fun kind hkind hnull => hitems (h.passed kind hkind hnull),
    fun hrest hallowed => hends _ _ (h.ended hrest hallowed),
    fun hrest hallowed hlt waiting hwaiting hawaits =>
      hitems (h.completed hrest hallowed hlt waiting (hsets _ hlt ▸ hwaiting) hawaits)⟩

/-- There is nothing left to do at position `i`. -/
structure Closed (rules : List Rule) (word : List OpKind)
    (allowed : Nonterminal → Nat → Nat → Bool) (i : Nat) (c : Chart) (a : Agenda) (c' : Chart)
    (a' : Agenda) : Prop where
  tracks : Tracks rules word allowed i a'
  records : Records rules word allowed i c'
  sets : c'.sets = c.sets
  ends_subset : ∀ kind first, c.ends.of kind first ⊆ c'.ends.of kind first
  items_subset : a.items ⊆ a'.items
  followed : ∀ item ∈ a'.items, Followed rules allowed c' i a'.items item

/-- Every step takes one item away from those to be worked through, and there are never more new
items than codes that are left. -/
theorem closed_closeWith {fuel : Nat} (hc : Records rules word allowed i c)
    (ha : Tracks rules word allowed i a)
    (htodo : ∀ item ∈ a.items, item ∈ a.todo ∨ Followed rules allowed c i a.items item)
    (hfuel : a.todo.length + (i + 1) * (ofRules rules).places ≤ a.items.length + fuel) :
    Closed rules word allowed i c a (closeWith (ofRules rules) allowed i fuel a c).2
      (closeWith (ofRules rules) allowed i fuel a c).1 := by
  induction fuel generalizing a c with
  | zero =>
    have hle := ha.coded.length_le (numbered_ofRules rules) (fun _ => Matched.placed)
      (fun _ => Matched.origin_le)
    have hnone : a.todo = [] := List.length_eq_zero_iff.1 (by omega)
    refine ⟨ha, hc, rfl, fun _ _ => List.Subset.refl _, List.Subset.refl _, fun item hitem => ?_⟩
    exact (htodo item hitem).resolve_left (by simp [hnone])
  | succ fuel ih =>
    rw [closeWith]
    split
    next hnone =>
      refine ⟨ha, hc, rfl, fun _ _ => List.Subset.refl _, List.Subset.refl _, fun item hitem => ?_⟩
      exact (htodo item hitem).resolve_left (by simp [hnone])
    next item todo hsome =>
      have hmem : item ∈ a.items := ha.coded.todo_subset (by simp [hsome])
      have hitem := ha.coded.holds item hmem
      have hpop : Tracks rules word allowed i { a with todo } := by
        refine ⟨⟨ha.coded.holds, fun x hx => ?_, ha.coded.seen_iff, ha.coded.nodup⟩, ha.started⟩
        exact ha.coded.todo_subset (by simp [hsome, show x ∈ todo from hx])
      have hgrows : Agenda.Grows { a with todo }
          ((ofRules rules).follow allowed c i { a with todo } item) := grows_follow _ c i item
      have hends : ∀ kind first, c.ends.of kind first ⊆
          (finished allowed i item c.ends).of kind first :=
        fun _ _ _ hj => mem_finished.2 (.inl hj)
      have hclosed := ih (hc.finished hitem) (hpop.follow hc hitem) ?_ ?_
      · exact ⟨hclosed.tracks, hclosed.records, hclosed.sets,
          fun kind first => List.Subset.trans (hends kind first) (hclosed.ends_subset kind first),
          List.Subset.trans hgrows.items_subset hclosed.items_subset, hclosed.followed⟩
      · intro x hx
        rcases hgrows.fresh x hx with hold | hnew
        · rcases htodo x hold with hx | hx
          · rw [hsome] at hx
            rcases List.mem_cons.1 hx with rfl | hx
            · exact .inr (followed_follow hc hpop hitem)
            · exact .inl (hgrows.todo_subset hx)
          · exact .inr (hx.mono hgrows.items_subset (fun _ _ => rfl) hends)
        · exact .inl hnew
      · have hcount := hgrows.count
        simp only [hsome, List.length_cons] at hcount hfuel
        omega

/-- The positions before `i` are closed and joined by the terminals between them. -/
structure Filled (rules : List Rule) (word : List OpKind)
    (allowed : Nonterminal → Nat → Nat → Bool) (start : Nonterminal) (i : Nat) (c : Chart) :
    Prop where
  records : Records rules word allowed i c
  followed : ∀ m < i, ∀ item ∈ c.itemsAt m, Followed rules allowed c m (c.itemsAt m) item
  scanned : ∀ m, m + 1 < i → ∀ item ∈ c.itemsAt m, ∀ terminal, word[m]? = some terminal →
    item.accepts terminal = true → item.advance ∈ c.itemsAt (m + 1)
  seeded : 0 < i → ∀ nr ∈ (ofRules rules).rulesFor start, Item.start nr 0 ∈ c.itemsAt 0
  ends_lt : ∀ kind first, ∀ j ∈ c.ends.of kind first, j < i

/-- What a position is opened with: all that was scanned, or the start, is still to be worked
through. -/
structure Opened (rules : List Rule) (word : List OpKind)
    (allowed : Nonterminal → Nat → Nat → Bool) (start : Nonterminal) (i : Nat) (c : Chart)
    (a : Agenda) : Prop where
  tracks : Tracks rules word allowed i a
  grows : Agenda.Grows .empty a
  seeded : i = 0 → ∀ nr ∈ (ofRules rules).rulesFor start, Item.start nr 0 ∈ a.items
  scanned : ∀ m, m + 1 = i → ∀ item ∈ c.itemsAt m, ∀ terminal, word[m]? = some terminal →
    item.accepts terminal = true → item.advance ∈ a.items

variable {start : Nonterminal}

theorem filled_empty : Filled rules word allowed start 0 .empty := by
  refine ⟨⟨rfl, ?_, ?_, Ends.descending_empty 0⟩, ?_, ?_, ?_, ?_⟩
  · simp [Chart.itemsAt, Chart.empty]
  · simp [Chart.empty]
  · intro m hm
    omega
  · intro m hm
    omega
  · intro hlt
    omega
  · simp [Chart.empty]

section Push

variable {a' : Agenda} (hclosed : Closed rules word allowed i c a c' a')

include hclosed

theorem Closed.itemsAt_push (m : Nat) :
    Chart.itemsAt { c' with sets := c'.sets.push a'.items } m =
      if m = i then a'.items else c.itemsAt m := by
  unfold Chart.itemsAt
  rw [Array.getElem?_push, hclosed.records.size, hclosed.sets]
  split <;> rfl

theorem Closed.records_push :
    Records rules word allowed (i + 1) { c' with sets := c'.sets.push a'.items } := by
  refine ⟨?_, fun m item hitem => ?_, hclosed.records.covered,
    hclosed.records.descending.mono (Nat.le_succ i)⟩
  · simp [hclosed.records.size]
  · rw [hclosed.itemsAt_push] at hitem
    split at hitem
    next hm => exact hm ▸ hclosed.tracks.coded.holds item hitem
    next hm =>
      refine hclosed.records.matched m item ?_
      rwa [Chart.itemsAt, hclosed.sets]

/-- A closed position is kept behind those before it. -/
theorem Filled.push (h : Filled rules word allowed start i c)
    (ha : Opened rules word allowed start i c a) :
    Filled rules word allowed start (i + 1) { c' with sets := c'.sets.push a'.items } := by
  refine ⟨hclosed.records_push, fun m hm item hitem => ?_,
    fun m hm item hitem terminal hword haccepts => ?_, fun _ nr hnr => ?_,
    fun kind first j hj => Nat.lt_succ_of_le ((hclosed.records.descending kind first).2 j hj)⟩
  · have hsets : ∀ l < m, Chart.itemsAt { c' with sets := c'.sets.push a'.items } l =
        c.itemsAt l := by
      intro l hl
      rw [hclosed.itemsAt_push, if_neg (by omega)]
    rw [hclosed.itemsAt_push] at hitem ⊢
    split at hitem
    next hm =>
      subst hm
      rw [if_pos rfl]
      refine (hclosed.followed item hitem).mono (List.Subset.refl _) (fun l hl => ?_)
        fun _ _ => List.Subset.refl _
      rw [hsets l hl]
      simp [Chart.itemsAt, hclosed.sets]
    next hne =>
      rw [if_neg hne]
      exact (h.followed m (by omega) item hitem).mono (List.Subset.refl _) hsets
        hclosed.ends_subset
  · rw [hclosed.itemsAt_push, if_neg (by omega)] at hitem
    rw [hclosed.itemsAt_push]
    split
    next hm => exact hclosed.items_subset (ha.scanned m hm item hitem terminal hword haccepts)
    next hne => exact h.scanned m (by omega) item hitem terminal hword haccepts
  · rw [hclosed.itemsAt_push]
    split
    next hi => exact hclosed.items_subset (ha.seeded hi.symm nr hnr)
    next hi => exact h.seeded (by omega) nr hnr

end Push

/-- Closing a position keeps what holds of the positions before it. -/
theorem Filled.close (h : Filled rules word allowed start i c)
    (ha : Opened rules word allowed start i c a) :
    Filled rules word allowed start (i + 1) ((ofRules rules).close allowed i a c) := by
  have hfuel : a.todo.length + (i + 1) * (ofRules rules).places ≤
      a.items.length + (i + 1) * (ofRules rules).places := by
    have hcount := ha.grows.count
    simp only [Agenda.empty, List.length_nil] at hcount
    omega
  have htodo : ∀ item ∈ a.items, item ∈ a.todo := by
    intro item hitem
    exact (ha.grows.fresh item hitem).resolve_left (by simp [Agenda.empty])
  have hclosed := closed_closeWith h.records ha.tracks (fun item hitem => .inl (htodo item hitem))
    hfuel
  exact h.push hclosed ha

theorem opened_start : Opened rules word allowed start 0 c
    ((ofRules rules).startRules start 0 .empty) := by
  have hempty : Tracks rules word allowed 0 .empty := tracks_empty
  exact ⟨hempty.startRules start, grows_startRules _ start 0,
    fun _ _ hnr => hempty.mem_startRules hnr, fun m hm => by omega⟩

/-- The position behind a closed one is opened with the items that accept the terminal between. -/
theorem Filled.opened_scan (h : Filled rules word allowed start (i + 1) c) {terminal : OpKind}
    (hword : word[i]? = some terminal) :
    Opened rules word allowed start (i + 1) c
      ((ofRules rules).scan terminal (c.sets[i]?.getD [])) := by
  have hmatched : ∀ item ∈ ((c.itemsAt i).filter (·.accepts terminal)).map Item.advance,
      Matched rules word allowed (i + 1) item := by
    intro item hitem
    obtain ⟨waiting, hwaiting, rfl⟩ := List.mem_map.1 hitem
    obtain ⟨hmem, haccepts⟩ := List.mem_filter.1 hwaiting
    obtain ⟨rest, hrest⟩ := Item.accepts_iff.1 haccepts
    exact (h.records.matched i waiting hmem).advance hrest (.terminal hword (.nil _))
  refine ⟨tracks_empty.addAll hmatched, Agenda.grows_addAll _ _, fun hi => by omega, ?_⟩
  intro m hm item hitem terminal' hword' haccepts
  obtain rfl : m = i := by omega
  obtain rfl : terminal' = terminal := Option.some.inj (hword'.symm.trans hword)
  refine tracks_empty.subset_addAll hmatched ?_
  exact List.mem_map_of_mem (List.mem_filter.2 ⟨hitem, haccepts⟩)

theorem Filled.chartFrom {terminals : List OpKind} (h : Filled rules word allowed start i c)
    (hword : word.drop i = terminals) (ha : Opened rules word allowed start i c a) :
    Filled rules word allowed start (i + terminals.length + 1)
      ((ofRules rules).chartFrom allowed i a c terminals) := by
  induction terminals generalizing i a c with
  | nil => exact h.close ha
  | cons terminal terminals ih =>
    have hat : word[i]? = some terminal := by
      rw [← Nat.add_zero i, ← List.getElem?_drop, hword]
      rfl
    have hrest : word.drop (i + 1) = terminals := by
      rw [← List.drop_drop, hword]
      rfl
    have hclose := h.close ha
    rw [Grammar.chartFrom, List.length_cons, ← Nat.add_assoc, Nat.add_right_comm i]
    exact ih hclose hrest (hclose.opened_scan hat)

/-- In the chart of a sequence of terminals all positions are closed. -/
theorem filled_chart (rules : List Rule) (allowed : Nonterminal → Nat → Nat → Bool)
    (start : Nonterminal) (word : List OpKind) :
    Filled rules word allowed start (word.length + 1)
      ((ofRules rules).chart allowed start word) := by
  have hopened : Opened rules word allowed start 0 .empty _ := opened_start
  have h := filled_empty.chartFrom rfl hopened
  rwa [Nat.zero_add] at h

end Grammar

end ElispLift
