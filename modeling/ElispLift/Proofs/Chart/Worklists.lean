import ElispLift.Proofs.Chart.Recognition

/-!
# Worklists

Working through the items of a position comes to an end for every grammar, since an item is taken
once and there is one at most for every rule with a dot and every origin. Then nothing follows from
the items that is not among them, and more steps change nothing.
-/

namespace ElispLift

namespace Grammar

variable {rules : List Rule}

/-! ### Rules with a dot -/

/-- The rules of a list with a dot before, between or behind their symbols, each rule once. -/
def dottedRules (rules : List Rule) : List (Rule × Nat) :=
  rules.eraseDups.flatMap fun r => (List.range r.places).map fun k => (r, k)

@[simp] theorem dottedRules_nil : dottedRules [] = [] := by simp [dottedRules]

theorem length_dottedRules_append (rules : List Rule) (r : Rule) :
    (dottedRules (rules ++ [r])).length =
      if r ∈ rules then (dottedRules rules).length else (dottedRules rules).length + r.places := by
  unfold dottedRules
  rw [List.eraseDups_append]
  split
  next hr => simp [List.removeAll, hr]
  next hr => simp [List.removeAll, hr, List.eraseDups_cons]

theorem places_foldl {g : Grammar} (hg : Numbered g rules)
    (hplaces : g.places = (dottedRules rules).length) (rs : List Rule) :
    (rs.foldl add g).places = (dottedRules (rules ++ rs)).length := by
  induction rs generalizing g rules with
  | nil => simpa using hplaces
  | cons r rs ih =>
    have hadd : (g.add r).places = (dottedRules (rules ++ [r])).length := by
      rw [length_dottedRules_append, ← hplaces]
      unfold add
      split
      next hany => rw [if_pos ((hg.any_iff r).1 hany)]
      next hany => rw [if_neg fun hr => hany ((hg.any_iff r).2 hr)]
    simpa using ih (numbered_add hg r) hadd

/-- A grammar numbers the rules of its list with a dot. -/
theorem places_ofRules (rules : List Rule) :
    (ofRules rules).places = (dottedRules rules).length := by
  exact places_foldl (numbered_empty (nullableOf rules)) (by simp) rules

end Grammar

/-! ### Adding what is there -/

namespace Agenda

variable {g : Grammar} {p : Item → Prop} {a : Agenda} {item : Item} {items : List Item}

/-- The same items are there and to be worked through. -/
def Same (a b : Agenda) : Prop := b.items = a.items ∧ b.todo = a.todo

theorem Coded.add_of_mem (h : Coded g p a) (hitem : item ∈ a.items) :
    a.add g.places item = a := by
  unfold Agenda.add
  rw [if_pos ((h.seen_iff _).2 ⟨item, hitem, rfl⟩)]

theorem Coded.addAll_of_subset (h : Coded g p a) (hitems : items ⊆ a.items) :
    a.addAll g.places items = a := by
  induction items with
  | nil => rfl
  | cons item items ih =>
    rw [List.cons_subset] at hitems
    rw [Agenda.addAll, List.foldl_cons, h.add_of_mem hitems.1]
    exact ih hitems.2

end Agenda

namespace Grammar

variable {rules : List Rule} {word : List OpKind} {allowed : Nonterminal → Nat → Nat → Bool}
  {start : Nonterminal} {i : Nat} {kind : Nonterminal} {item : Item} {a here : Agenda}
  {c c' before : Chart}

theorem Tracks.same_startRules (ha : Tracks rules word allowed i a)
    (h : ∀ nr ∈ (ofRules rules).rulesFor kind, Item.start nr i ∈ a.items) :
    a.Same ((ofRules rules).startRules kind i a) := by
  unfold Grammar.startRules
  split
  · exact ⟨rfl, rfl⟩
  · have hsub : (ofRules rules).startItems kind i ⊆ a.items := by
      intro item hitem
      obtain ⟨nr, hnr, rfl⟩ := List.mem_map.1 hitem
      exact h nr hnr
    rw [(ha.coded.restart (a.started.insert kind.index)).addAll_of_subset hsub]
    exact ⟨rfl, rfl⟩

/-- A nonterminal that was finished where it began derives the empty sequence, so what waits for it
was moved on at once. -/
theorem Closed.advanceOver_subset (h : Closed rules word allowed i before here c a)
    (hitem : item ∈ a.items) (hrest : item.rest = [])
    (hallowed : allowed item.lhs item.origin i = true) :
    advanceOver item.lhs (c.sets[item.origin]?.getD a.items) ⊆ a.items := by
  intro moved hmoved
  obtain ⟨waiting, hwaiting, hawaits, rfl⟩ := mem_advanceOver.1 hmoved
  have hmatched := h.tracks.coded.holds item hitem
  rcases Nat.eq_or_lt_of_le hmatched.origin_le with horigin | hlt
  · have hnone : c.sets[item.origin]? = none := by
      simp [h.records.size, horigin]
    rw [hnone] at hwaiting
    obtain ⟨r, hr, hlhs, hderives⟩ := hmatched.exists_rule hrest
    have hnull := closed_nullableOf r hr (hderives.vanishes horigin)
    exact (h.followed waiting hwaiting).passed item.lhs hawaits (hlhs ▸ hnull)
  · have hset : c.sets[item.origin]?.getD a.items = c.itemsAt item.origin := by
      have hlt : item.origin < c.sets.size := h.records.size.symm ▸ hlt
      simp [Chart.itemsAt, hlt]
    rw [hset] at hwaiting
    exact (h.followed item hitem).completed hrest hallowed hlt waiting hwaiting hawaits

/-- Nothing new follows from the items of a closed position. -/
theorem Closed.same_follow (h : Closed rules word allowed i before here c a)
    (hitem : item ∈ a.items) : a.Same ((ofRules rules).follow allowed c i a item) := by
  have hfollowed := h.followed item hitem
  unfold Grammar.follow
  split
  next kind rest hrest =>
    have hawaits : item.awaits kind = true := Item.awaits_iff.2 ⟨rest, hrest⟩
    have hstarted := h.tracks.same_startRules (hfollowed.started kind hawaits)
    dsimp only
    split
    next hnull =>
      have hadvance := hfollowed.passed kind hawaits (isNullable_ofRules.1 hnull)
      rw [(h.tracks.startRules kind).coded.add_of_mem (hstarted.1 ▸ hadvance)]
      exact hstarted
    · exact hstarted
  · exact ⟨rfl, rfl⟩
  next hrest =>
    split
    next hallowed =>
      rw [h.tracks.coded.addAll_of_subset (h.advanceOver_subset hitem hrest hallowed)]
      exact ⟨rfl, rfl⟩
    · exact ⟨rfl, rfl⟩

/-! ### Closing with steps to spare -/

/-- A position with nothing left to do stays as it is. -/
theorem closeWith_of_todo_eq_nil {g : Grammar} {fuel : Nat} (h : here.todo = []) :
    closeWith g allowed i fuel here c = (here, c) := by
  cases fuel with
  | zero => rfl
  | succ fuel => simp [closeWith, h]

/-- Steps are taken one after another. -/
theorem closeWith_add {g : Grammar} (fuel more : Nat) :
    closeWith g allowed i (fuel + more) here c =
      closeWith g allowed i more (closeWith g allowed i fuel here c).1
        (closeWith g allowed i fuel here c).2 := by
  induction fuel generalizing here c with
  | zero => simp [closeWith]
  | succ fuel ih =>
    rw [Nat.add_right_comm, closeWith, closeWith]
    split
    next hnone => rw [closeWith_of_todo_eq_nil hnone]
    next item todo hsome => exact ih

theorem Tracks.pop {todo : List Item} (ha : Tracks rules word allowed i a)
    (htodo : a.todo = item :: todo) : Tracks rules word allowed i { a with todo } := by
  refine ⟨⟨ha.coded.holds, fun x hx => ?_, ha.coded.seen_iff, ha.coded.nodup⟩, ha.started⟩
  exact ha.coded.todo_subset (by simp [htodo, show x ∈ todo from hx])

/-- With as many steps as there are codes, nothing is left to work through. -/
theorem todo_closeWith {fuel : Nat} (hc : Records rules word allowed i c)
    (ha : Tracks rules word allowed i a)
    (hfuel : a.todo.length + (i + 1) * (ofRules rules).places ≤ a.items.length + fuel) :
    (closeWith (ofRules rules) allowed i fuel a c).1.todo = [] := by
  induction fuel generalizing a c with
  | zero =>
    have hle := ha.coded.length_le (numbered_ofRules rules) (fun _ => Matched.placed)
      (fun _ => Matched.origin_le)
    have hnone : a.todo = [] := List.length_eq_zero_iff.1 (by omega)
    exact hnone
  | succ fuel ih =>
    rw [closeWith]
    split
    next hnone => exact hnone
    next item todo hsome =>
      have hitem := ha.coded.holds item (ha.coded.todo_subset (by simp [hsome]))
      refine ih (hc.finished hitem) ((ha.pop hsome).follow hc hitem) ?_
      have hgrows : Agenda.Grows { a with todo }
          ((ofRules rules).follow allowed c i { a with todo } item) := grows_follow _ c i item
      have hcount := hgrows.count
      simp only [hsome, List.length_cons] at hcount hfuel
      omega

/-! ### All positions -/

theorem drop_cons {terminal : OpKind} {terminals : List OpKind}
    (hword : word.drop i = terminal :: terminals) :
    word[i]? = some terminal ∧ word.drop (i + 1) = terminals := by
  refine ⟨?_, ?_⟩
  · rw [← Nat.add_zero i, ← List.getElem?_drop, hword]
    rfl
  · rw [← List.drop_drop, hword]
    rfl

/-- The agenda that each position from `i` on is opened with, and the chart of the positions
before. -/
def openings (g : Grammar) (allowed : Nonterminal → Nat → Nat → Bool) (i : Nat) (here : Agenda)
    (chart : Chart) : (terminals : List OpKind) → List (Agenda × Chart)
  | [] => [(here, chart)]
  | terminal :: terminals =>
    let closed := g.close allowed i here chart
    (here, chart) ::
      openings g allowed (i + 1) (g.scan terminal (closed.sets[i]?.getD [])) closed terminals

/-- The items that are found at position `i`, opened with `here`: working through them ends within
as many steps as there are items possible, whatever is allowed beyond, and then no item leads to
another one. -/
structure Settles (rules : List Rule) (allowed : Nonterminal → Nat → Nat → Bool) (i : Nat)
    (here : Agenda) (before : Chart) (items : List Item) : Prop where
  ends : ∃ (closed : Agenda) (after : Chart), closed.items = items ∧ closed.todo = [] ∧
    (∀ fuel, (i + 1) * (dottedRules rules).length ≤ fuel →
      closeWith (ofRules rules) allowed i fuel here before = (closed, after)) ∧
    ∀ item ∈ items, closed.Same ((ofRules rules).follow allowed after i closed item)
  nodup : items.Nodup
  length_le : items.length ≤ (i + 1) * (dottedRules rules).length

theorem Opened.todo_length (ha : Opened rules word allowed start i c a) :
    a.todo.length = a.items.length := by
  simpa [Agenda.empty] using ha.grows.count.symm

/-- What an opened position is closed to. -/
theorem Opened.closed (ha : Opened rules word allowed start i c a)
    (h : Filled rules word allowed start i c) :
    Closed rules word allowed i c a
      (closeWith (ofRules rules) allowed i ((i + 1) * (ofRules rules).places) a c).2
      (closeWith (ofRules rules) allowed i ((i + 1) * (ofRules rules).places) a c).1 :=
  closed_closeWith h.records ha.tracks
    (fun item hitem => .inl ((ha.grows.fresh item hitem).resolve_left (by simp [Agenda.empty])))
    (Nat.le_of_eq (by rw [ha.todo_length]))

theorem settles_close (h : Filled rules word allowed start i c)
    (ha : Opened rules word allowed start i c a) :
    Settles rules allowed i a c (((ofRules rules).close allowed i a c).itemsAt i) := by
  have hclosed := ha.closed h
  have hitems : ((ofRules rules).close allowed i a c).itemsAt i =
      (closeWith (ofRules rules) allowed i ((i + 1) * (ofRules rules).places) a c).1.items := by
    rw [close, hclosed.itemsAt_push, if_pos rfl]
  have hdone : (closeWith (ofRules rules) allowed i ((i + 1) * (ofRules rules).places) a c).1.todo =
      [] := todo_closeWith h.records ha.tracks (Nat.le_of_eq (by rw [ha.todo_length]))
  rw [hitems]
  refine ⟨⟨_, _, rfl, hdone, fun fuel hle => ?_, fun item hitem => hclosed.same_follow hitem⟩,
    hclosed.tracks.coded.nodup.of_map, ?_⟩
  · rw [← places_ofRules] at hle
    obtain ⟨more, rfl⟩ := Nat.exists_eq_add_of_le hle
    rw [closeWith_add, closeWith_of_todo_eq_nil hdone]
  · rw [← places_ofRules]
    exact hclosed.tracks.coded.length_le (numbered_ofRules rules) (fun _ => Matched.placed)
      (fun _ => Matched.origin_le)

theorem itemsAt_close {m : Nat} (h : Filled rules word allowed start i c)
    (ha : Opened rules word allowed start i c a) (hm : m < i) :
    ((ofRules rules).close allowed i a c).itemsAt m = c.itemsAt m := by
  rw [close, (ha.closed h).itemsAt_push, if_neg (Nat.ne_of_lt hm)]

variable {terminals : List OpKind}

/-- The positions that are closed stay as they are. -/
theorem itemsAt_chartFrom {m : Nat} (h : Filled rules word allowed start i c)
    (hword : word.drop i = terminals) (ha : Opened rules word allowed start i c a) (hm : m < i) :
    ((ofRules rules).chartFrom allowed i a c terminals).itemsAt m = c.itemsAt m := by
  induction terminals generalizing i a c with
  | nil => exact itemsAt_close h ha hm
  | cons terminal terminals ih =>
    obtain ⟨hat, hrest⟩ := drop_cons hword
    have hclose := h.close ha
    rw [chartFrom]
    exact (ih hclose hrest (hclose.opened_scan hat) (Nat.lt_succ_of_lt hm)).trans
      (itemsAt_close h ha hm)

theorem settles_openings (h : Filled rules word allowed start i c)
    (hword : word.drop i = terminals) (ha : Opened rules word allowed start i c a) :
    ∀ k ≤ terminals.length, ∃ here before,
      ((ofRules rules).openings allowed i a c terminals)[k]? = some (here, before) ∧
      Settles rules allowed (i + k) here before
        (((ofRules rules).chartFrom allowed i a c terminals).itemsAt (i + k)) := by
  induction terminals generalizing i a c with
  | nil =>
    intro k hk
    obtain rfl : k = 0 := Nat.le_zero.1 hk
    exact ⟨a, c, rfl, settles_close h ha⟩
  | cons terminal terminals ih =>
    obtain ⟨hat, hrest⟩ := drop_cons hword
    have hclose := h.close ha
    have hscan := hclose.opened_scan hat
    rintro (_ | k) hk
    · refine ⟨a, c, rfl, ?_⟩
      rw [chartFrom, Nat.add_zero, itemsAt_chartFrom hclose hrest hscan (Nat.lt_succ_self i)]
      exact settles_close h ha
    · obtain ⟨here, before, hopening, hsettles⟩ :=
        ih hclose hrest hscan k (Nat.le_of_succ_le_succ hk)
      refine ⟨here, before, hopening, ?_⟩
      rw [chartFrom, ← Nat.add_assoc, Nat.add_right_comm]
      exact hsettles

/-- In the chart of a sequence of terminals every position was worked through to the end. -/
theorem settles_chart (rules : List Rule) (allowed : Nonterminal → Nat → Nat → Bool)
    (start : Nonterminal) (word : List OpKind) :
    ∀ i ≤ word.length, ∃ here before,
      ((ofRules rules).openings allowed 0 ((ofRules rules).startRules start 0 .empty) .empty
        word)[i]? = some (here, before) ∧
      Settles rules allowed i here before
        (((ofRules rules).chart allowed start word).itemsAt i) := by
  have hopened : Opened rules word allowed start 0 .empty _ := opened_start
  intro i hi
  have h := settles_openings filled_empty rfl hopened i hi
  rwa [Nat.zero_add] at h

end Grammar

end ElispLift
