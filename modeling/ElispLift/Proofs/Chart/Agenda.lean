import Mathlib.Data.List.Nodup
import Mathlib.Data.List.Perm.Subperm
import ElispLift.Chart
import ElispLift.Proofs.Grammar.Numbering

/-!
# Items and agendas

An item is a rule with a dot between two of its symbols, and its code says which, and from where the
rule began. An agenda that knows the codes of its items takes each item once, so it never holds more
items than there are codes.
-/

namespace ElispLift

namespace Item

/-- A rule with the dot behind its first `k` symbols. -/
def dotted (nr : NumberedRule) (k origin : Nat) : Item :=
  ⟨nr.place + k, nr.rule.lhs, nr.rule.rhs.drop k, origin⟩

@[simp] theorem advance_dotted (nr : NumberedRule) (k origin : Nat) :
    (dotted nr k origin).advance = dotted nr (k + 1) origin := by
  simp [dotted, advance, Nat.add_assoc]

theorem awaits_iff {item : Item} {kind : Nonterminal} :
    item.awaits kind = true ↔ ∃ rest, item.rest = .nonterminal kind :: rest := by
  unfold awaits
  split
  next h => simp [h]
  next h => simpa using fun rest he => (h _ _ he).elim

theorem accepts_iff {item : Item} {terminal : OpKind} :
    item.accepts terminal = true ↔ ∃ rest, item.rest = .terminal terminal :: rest := by
  unfold accepts
  split
  next h => simp [h]
  next h => simpa using fun rest he => (h _ _ he).elim

/-- A rule of the grammar with a dot. -/
def Placed (g : Grammar) (item : Item) : Prop :=
  ∃ lhs, ∃ nr ∈ g.rulesFor lhs, ∃ k ≤ nr.rule.rhs.length, item = dotted nr k item.origin

variable {g : Grammar} {rules : List Rule} {item item' : Item}

theorem Placed.place_lt (hg : g.Numbered rules) (h : Placed g item) : item.place < g.places := by
  obtain ⟨lhs, nr, hnr, k, hk, he⟩ := h
  have hle := hg.bounded lhs nr hnr
  rw [he]
  simp only [dotted, Rule.places] at *
  omega

theorem Placed.code_lt (hg : g.Numbered rules) (h : Placed g item) {i : Nat}
    (hi : item.origin ≤ i) : item.code g.places < (i + 1) * g.places := by
  have hlt := h.place_lt hg
  have hle : item.origin * g.places ≤ i * g.places := Nat.mul_le_mul_right _ hi
  unfold code
  rw [Nat.add_mul]
  omega

/-- The code says which rule it is, where the dot stands and from where it began. -/
theorem Placed.eq_of_code_eq (hg : g.Numbered rules) (h : Placed g item) (h' : Placed g item')
    (he : item.code g.places = item'.code g.places) : item = item' := by
  have hlt := h.place_lt hg
  have hlt' := h'.place_lt hg
  have hpos : 0 < g.places := by omega
  have horigin : item.origin = item'.origin := by
    have hdiv := congrArg (· / g.places) he
    simpa [code, Nat.mul_comm, Nat.mul_add_div hpos, Nat.div_eq_of_lt, hlt, hlt'] using hdiv
  have hplace : item.place = item'.place := by
    simp only [code, horigin] at he
    omega
  obtain ⟨lhs, nr, hnr, k, hk, hitem⟩ := h
  obtain ⟨lhs', nr', hnr', k', hk', hitem'⟩ := h'
  have hsum : nr.place + k = nr'.place + k' := by
    rw [hitem, hitem'] at hplace
    exact hplace
  have hnr_eq := hg.apart hnr hnr' (Nat.lt_succ_of_le hk) (Nat.lt_succ_of_le hk') hsum
  subst hnr_eq
  have hk_eq : k = k' := by omega
  rw [hitem, hitem', hk_eq, horigin]

end Item

namespace Agenda

/-- The agenda knows the codes of its items, which all satisfy `p`, and takes none twice. -/
structure Coded (g : Grammar) (p : Item → Prop) (a : Agenda) : Prop where
  holds : ∀ item ∈ a.items, p item
  todo_subset : a.todo ⊆ a.items
  seen_iff : ∀ n, a.seen.contains n = true ↔ ∃ item ∈ a.items, item.code g.places = n
  nodup : (a.items.map (·.code g.places)).Nodup

/-- The items of `b` are those of `a` and new ones, which are all to be worked through. -/
structure Grows (a b : Agenda) : Prop where
  items_subset : a.items ⊆ b.items
  todo_subset : a.todo ⊆ b.todo
  fresh : ∀ item ∈ b.items, item ∈ a.items ∨ item ∈ b.todo
  count : b.items.length + a.todo.length = a.items.length + b.todo.length

theorem Grows.refl (a : Agenda) : Grows a a :=
  ⟨fun _ h => h, fun _ h => h, fun _ h => .inl h, rfl⟩

theorem Grows.trans {a b c : Agenda} (h : Grows a b) (h' : Grows b c) : Grows a c := by
  refine ⟨List.Subset.trans h.items_subset h'.items_subset,
    List.Subset.trans h.todo_subset h'.todo_subset, ?_, ?_⟩
  · intro item hitem
    rcases h'.fresh item hitem with hb | hc
    · exact (h.fresh item hb).imp id fun hb => h'.todo_subset hb
    · exact .inr hc
  · have := h.count
    have := h'.count
    omega

theorem coded_empty (g : Grammar) (p : Item → Prop) : Coded g p empty :=
  ⟨by simp [empty], by simp [empty], by simp [empty], by simp [empty]⟩

variable {g : Grammar} {rules : List Rule} {p : Item → Prop} {a : Agenda} {item : Item}
  {items : List Item}

theorem Coded.restart (h : Coded g p a) (started : Bits) : Coded g p { a with started } :=
  ⟨h.holds, h.todo_subset, h.seen_iff, h.nodup⟩

theorem grows_add (places : Nat) (item : Item) : Grows a (a.add places item) := by
  unfold add
  split
  · exact .refl a
  · refine ⟨by simp, by simp, fun x hx => ?_, by simp; omega⟩
    rcases List.mem_cons.1 hx with rfl | hx
    · exact .inr (by simp)
    · exact .inl hx

@[simp] theorem started_add (places : Nat) (item : Item) :
    (a.add places item).started = a.started := by
  unfold add
  split <;> rfl

theorem Coded.add (h : Coded g p a) (hitem : p item) : Coded g p (a.add g.places item) := by
  unfold Agenda.add
  split
  · exact h
  next hseen =>
    refine ⟨by simpa using ⟨hitem, h.holds⟩, ?_, fun n => ?_, ?_⟩
    · exact List.cons_subset_cons _ h.todo_subset
    · simp [h.seen_iff]
    · refine List.nodup_cons.2 ⟨fun hmem => hseen ((h.seen_iff _).2 ?_), h.nodup⟩
      simpa using hmem

/-- An item whose code is known is there already, since codes are unique. -/
theorem Coded.mem_add (hg : g.Numbered rules) (hp : ∀ item, p item → item.Placed g)
    (h : Coded g p a) (hitem : p item) : item ∈ (a.add g.places item).items := by
  unfold Agenda.add
  split
  next hseen =>
    obtain ⟨known, hknown, hcode⟩ := (h.seen_iff _).1 hseen
    exact (hp _ (h.holds known hknown)).eq_of_code_eq hg (hp _ hitem) hcode ▸ hknown
  next hseen => simp

theorem grows_addAll (places : Nat) (items : List Item) : Grows a (a.addAll places items) := by
  induction items generalizing a with
  | nil => exact .refl a
  | cons item items ih => exact (grows_add places item).trans ih

@[simp] theorem started_addAll (places : Nat) (items : List Item) :
    (a.addAll places items).started = a.started := by
  induction items generalizing a with
  | nil => rfl
  | cons item items ih => exact ih.trans (started_add places item)

theorem Coded.addAll (h : Coded g p a) (hitems : ∀ item ∈ items, p item) :
    Coded g p (a.addAll g.places items) := by
  induction items generalizing a with
  | nil => exact h
  | cons item items ih =>
    exact ih (h.add (hitems item (by simp))) fun x hx => hitems x (List.mem_cons_of_mem _ hx)

theorem Coded.subset_addAll (hg : g.Numbered rules) (hp : ∀ item, p item → item.Placed g)
    (h : Coded g p a) (hitems : ∀ item ∈ items, p item) :
    items ⊆ (a.addAll g.places items).items := by
  induction items generalizing a with
  | nil => simp
  | cons item items ih =>
    have hitem := hitems item (by simp)
    refine List.cons_subset.2 ⟨?_, ih (h.add hitem) fun x hx =>
      hitems x (List.mem_cons_of_mem _ hx)⟩
    exact (grows_addAll _ items).items_subset (h.mem_add hg hp hitem)

/-- No more items than codes of items that begin at `i` at the latest. -/
theorem Coded.length_le (hg : g.Numbered rules) (hp : ∀ item, p item → item.Placed g) {i : Nat}
    (hi : ∀ item, p item → item.origin ≤ i) (h : Coded g p a) :
    a.items.length ≤ (i + 1) * g.places := by
  have hsub : a.items.map (·.code g.places) ⊆ List.range ((i + 1) * g.places) := by
    intro n hn
    obtain ⟨item, hitem, rfl⟩ := List.mem_map.1 hn
    have hitem := h.holds item hitem
    exact List.mem_range.2 ((hp _ hitem).code_lt hg (hi _ hitem))
  simpa using (h.nodup.subperm hsub).length_le

end Agenda

end ElispLift
