import ElispLift.Proofs.Stack.Forms

/-!
# Slots of statements

A statement whose value stays on the stack is in a slot, and the stack says which slot. At every
moment the slots on the stack are different ones that still have their texts. So the text of a
statement is taken by one pop, or else printed where its list ends.
-/

namespace ElispLift.Stack

open Node Rendering

variable {m m' : Moment} {es es' : List Event} {id first : Nat} {text : String}

def slotIds (values : List StackValue) : List Nat := values.filterMap StackValue.slot?

@[simp] theorem slotIds_append (values values' : List StackValue) :
    slotIds (values ++ values') = slotIds values ++ slotIds values' := List.filterMap_append

@[simp] theorem slotIds_slot (id : Nat) (values : List StackValue) :
    slotIds (.slot id :: values) = id :: slotIds values := rfl

theorem slotIds_cons {v : StackValue} (hv : v.slot? = none) (values : List StackValue) :
    slotIds (v :: values) = slotIds values := List.filterMap_cons_none hv

theorem slotIds_sublist {values values' : List StackValue} (h : values'.Sublist values) :
    (slotIds values').Sublist (slotIds values) := h.filterMap _

theorem mem_slotIds {values : List StackValue} : id ∈ slotIds values ↔ .slot id ∈ values := by
  simp only [slotIds, List.mem_filterMap]
  constructor
  · rintro ⟨v, hv, hid⟩
    cases v with
    | slot i => cases hid; exact hv
    | _ => cases hid
  · exact fun h => ⟨_, h, rfl⟩

/-- The slots on the stack are different, and their texts are still there. -/
structure SlotsHeld (values : List StackValue) (slots : Array (Option String)) : Prop where
  distinct : (slotIds values).Nodup
  held : ∀ id ∈ slotIds values, ∃ text, slots[id]? = some (some text)

theorem SlotsHeld.lt_size {values : List StackValue} {slots : Array (Option String)}
    (h : SlotsHeld values slots) : ∀ id ∈ slotIds values, id < slots.size := fun id hid => by
  obtain ⟨text, htext⟩ := h.held id hid
  exact (Array.getElem?_eq_some_iff.1 htext).1

/-! ### Lists that are not at their ends -/

namespace Task

/-- The slots of the statements of a list that is not at its end. -/
def pending : Task → List Nat
  | .statements ids _ | .keep ids _ _ | .leave ids => ids
  | _ => []

/-- The slots that are about to be printed. -/
def leaving : Task → List Nat
  | .leave ids => ids
  | _ => []

/-- The slots that are put on the stack other than by their lists. There are none. -/
def pushing : Task → List Nat
  | .push v => v.slot?.toList
  | _ => []

end Task

def pending (tasks : List Task) : List Nat := tasks.flatMap Task.pending

def leaving (tasks : List Task) : List Nat := tasks.flatMap Task.leaving

def pushing (tasks : List Task) : List Nat := tasks.flatMap Task.pushing

/-- A task that is about no slot. -/
def Task.IsPlain (t : Task) : Prop := t.pending = [] ∧ t.leaving = [] ∧ t.pushing = []

theorem Task.Starts.isPlain {P : Node → Prop} {loops : Prop} {t : Task} (h : t.Starts P loops) :
    t.IsPlain := by
  cases h <;> exact ⟨rfl, rfl, rfl⟩

section tasks

variable {t : Task} {tasks tasks' : List Task}

@[simp] theorem pending_cons : pending (t :: tasks) = t.pending ++ pending tasks := rfl

@[simp] theorem leaving_cons : leaving (t :: tasks) = t.leaving ++ leaving tasks := rfl

@[simp] theorem pushing_cons : pushing (t :: tasks) = t.pushing ++ pushing tasks := rfl

theorem leaving_subset_pending : leaving tasks ⊆ pending tasks := fun id hid => by
  obtain ⟨t, ht, hid⟩ := List.mem_flatMap.1 hid
  refine List.mem_flatMap.2 ⟨t, ht, ?_⟩
  cases t with
  | leave ids => exact hid
  | _ => cases hid

variable (h : ∀ t ∈ tasks', t.IsPlain)

include h

theorem pending_append : pending (tasks' ++ tasks) = pending tasks := by
  rw [pending, List.flatMap_append, List.flatMap_eq_nil_iff.2 fun t ht => (h t ht).1,
    List.nil_append, pending]

theorem leaving_append : leaving (tasks' ++ tasks) = leaving tasks := by
  rw [leaving, List.flatMap_append, List.flatMap_eq_nil_iff.2 fun t ht => (h t ht).2.1,
    List.nil_append, leaving]

theorem pushing_append : pushing (tasks' ++ tasks) = pushing tasks := by
  rw [pushing, List.flatMap_append, List.flatMap_eq_nil_iff.2 fun t ht => (h t ht).2.2,
    List.nil_append, pushing]

end tasks

theorem isPlain_nodeTasks (n : Node) : ∀ t ∈ nodeTasks n, t.IsPlain := fun t ht =>
  (starts_nodeTasks (P := fun _ => True) (fun _ _ _ _ => trivial) trivial t ht).isPlain

theorem isPlain_nodes (nodes : List Node) : ∀ t ∈ nodes.map Task.node, t.IsPlain := by
  simp [Task.IsPlain, Task.pending, Task.leaving, Task.pushing]

theorem isPlain_valueTasks (v : StackValue) : ∀ t ∈ valueTasks v, t.IsPlain := by
  cases v <;> simp [valueTasks, Task.IsPlain, Task.pending, Task.leaving, Task.pushing]

/-- Besides the slots on the stack, those of the lists that are not at their ends are different, and
none of those that are about to be printed is on the stack. -/
structure Moment.Sound (m : Moment) : Prop extends SlotsHeld m.values m.slots where
  pending_nodup : (pending m.tasks).Nodup
  pending_lt : ∀ id ∈ pending m.tasks, id < m.slots.size
  leaving : ∀ id ∈ leaving m.tasks, id ∉ slotIds m.values
  pushing : pushing m.tasks = []

/-! ### What happens to a slot -/

def Event.slot? : Event → Option Nat
  | .kept id _ | .took id _ | .printed id _ | .gone id => some id
  | .popped _ _ | .lost _ => none

/-- All that happens to a slot. -/
def story (id : Nat) (es : List Event) : List Event := es.filter (·.slot? == some id)

@[simp] theorem story_append (id : Nat) (es es' : List Event) :
    story id (es ++ es') = story id es ++ story id es' := List.filter_append ..

theorem story_eq_nil (h : ∀ e ∈ es, e.slot? ≠ some id) : story id es = [] :=
  List.filter_eq_nil_iff.2 fun e he => by simpa using h e he

theorem mem_story {e : Event} (he : e ∈ es) (hid : e.slot? = some id) : e ∈ story id es :=
  List.mem_filter.2 ⟨he, by simp [hid]⟩

/-- The slots from `first` on were filled by the run. Those that have their texts belong to a list
that is not at its end, and those that do not were popped, or printed with their lists. -/
structure Told (first : Nat) (es : List Event) (m : Moment) : Prop extends m.Sound where
  first_le : first ≤ m.slots.size
  new : ∀ id, m.slots.size ≤ id → story id es = []
  full : ∀ id, first ≤ id → ∀ text, m.slots[id]? = some (some text) →
    story id es = [.kept id text] ∧ id ∈ Stack.pending m.tasks
  emptied : ∀ id, first ≤ id → m.slots[id]? = some none →
    ∃ text, story id es = [.kept id text, .took id text] ∨
      story id es = [.kept id text, .printed id text] ∧ id ∉ Stack.pending m.tasks
  kept_ge : ∀ id text, .kept id text ∈ es → first ≤ id
  noneGone : ∀ id, .gone id ∉ es

namespace Told

/-- A step that fills and empties no slot. -/
theorem next (h : Told first es m) (hslots : m'.slots = m.slots)
    (hvalues : (slotIds m'.values).Sublist (slotIds m.values))
    (hpending : (pending m'.tasks).Sublist (pending m.tasks))
    (hothers : ∀ i ∈ pending m.tasks, i ∈ pending m'.tasks ∨ m.slots[i]? = some none)
    (hleaving : leaving m'.tasks ⊆ leaving m.tasks) (hpushing : pushing m'.tasks = pushing m.tasks)
    (hes : ∀ e ∈ es', e.slot? = none) : Told first (es ++ es') m' := by
  have hstory : ∀ id, story id (es ++ es') = story id es := fun id => by
    have hnone : story id es' = [] := story_eq_nil fun e he => by simp [hes e he]
    rw [story_append, hnone, List.append_nil]
  refine ⟨⟨⟨hvalues.nodup h.distinct, fun id hid => ?_⟩, hpending.nodup h.pending_nodup,
    fun id hid => ?_, fun id hid hstack => h.leaving id (hleaving hid) (hvalues.subset hstack), ?_⟩,
    ?_, ?_, fun id hid s hs => ?_, fun id hid hs => ?_, fun id s hid => ?_, fun id hid => ?_⟩
  · rw [hslots]
    exact h.held id (hvalues.subset hid)
  · rw [hslots]
    exact h.pending_lt id (hpending.subset hid)
  · rw [hpushing, h.pushing]
  · rw [hslots]
    exact h.first_le
  · simpa only [hslots, hstory] using h.new
  · rw [hslots] at hs
    rw [hstory]
    refine (h.full id hid s hs).imp_right fun hin => (hothers id hin).resolve_right fun hnone => ?_
    simp [hnone] at hs
  · rw [hslots] at hs
    rw [hstory]
    obtain ⟨s, hs⟩ := h.emptied id hid hs
    exact ⟨s, hs.imp_right fun ⟨hs, hnot⟩ => ⟨hs, fun hin => hnot (hpending.subset hin)⟩⟩
  · rcases List.mem_append.1 hid with hid | hid
    · exact h.kept_ge id s hid
    · cases hes _ hid
  · rcases List.mem_append.1 hid with hid | hid
    · exact h.noneGone id hid
    · cases hes _ hid

/-- A step that is not about slots. -/
theorem plain (h : Told first es m) (hslots : m'.slots = m.slots)
    (hvalues : (slotIds m'.values).Sublist (slotIds m.values))
    (hpending : pending m'.tasks = pending m.tasks) (hleaving : leaving m'.tasks = leaving m.tasks)
    (hpushing : pushing m'.tasks = pushing m.tasks) (hes : ∀ e ∈ es', e.slot? = none) :
    Told first (es ++ es') m' :=
  h.next hslots hvalues (hpending ▸ List.Sublist.refl _) (fun _ hi => .inl (hpending ▸ hi))
    (hleaving ▸ List.Subset.refl _) hpushing hes

/-- The text of a slot is taken or printed. -/
theorem empty {e : Event} (h : Told first es m) (hheld : m.slots[id]? = some (some text))
    (hslots : m'.slots = m.slots.setIfInBounds id none)
    (hvalues : (slotIds m'.values).Sublist (slotIds m.values)) (hgone : id ∉ slotIds m'.values)
    (hpending : (pending m'.tasks).Sublist (pending m.tasks))
    (hothers : ∀ i ∈ pending m.tasks, i ≠ id → i ∈ pending m'.tasks)
    (hleaving : leaving m'.tasks ⊆ leaving m.tasks) (hpushing : pushing m'.tasks = pushing m.tasks)
    (hes : ∀ e' ∈ es', e' = e ∨ e'.slot? = none) (hone : story id es' = [e])
    (he : e = .took id text ∨ e = .printed id text ∧ id ∉ pending m'.tasks) :
    Told first (es ++ es') m' := by
  have hid : e.slot? = some id := by
    obtain rfl | ⟨rfl, -⟩ := he <;> rfl
  have hstory : ∀ i, i ≠ id → story i (es ++ es') = story i es := fun i hi => by
    suffices hnone : story i es' = [] by rw [story_append, hnone, List.append_nil]
    refine story_eq_nil fun e' he' => ?_
    rcases hes e' he' with rfl | hnone
    · rw [hid]
      simpa using Ne.symm hi
    · simp [hnone]
  have hother : ∀ i, i ≠ id → m'.slots[i]? = m.slots[i]? := fun i hi => by
    rw [hslots, Array.getElem?_setIfInBounds_ne (Ne.symm hi)]
  have hlt : id < m.slots.size := (Array.getElem?_eq_some_iff.1 hheld).1
  have hsize : m'.slots.size = m.slots.size := by simp [hslots]
  have hself : m'.slots[id]? = some none := by simp [hslots, hlt]
  refine ⟨⟨⟨hvalues.nodup h.distinct, fun i hi => ?_⟩, hpending.nodup h.pending_nodup,
    fun i hi => ?_, fun i hi hstack => h.leaving i (hleaving hi) (hvalues.subset hstack), ?_⟩,
    ?_, fun i hi => ?_, fun i hi s hs => ?_, fun i hi hs => ?_, fun i s hi => ?_, fun i hi => ?_⟩
  · rw [hother i (ne_of_mem_of_not_mem hi hgone)]
    exact h.held i (hvalues.subset hi)
  · rw [hsize]
    exact h.pending_lt i (hpending.subset hi)
  · rw [hpushing, h.pushing]
  · rw [hsize]
    exact h.first_le
  · rw [hsize] at hi
    rw [hstory i (by omega)]
    exact h.new i hi
  · have hne : i ≠ id := fun heq => by simp [heq, hself] at hs
    rw [hother i hne] at hs
    rw [hstory i hne]
    exact (h.full i hi s hs).imp_right (hothers i · hne)
  · by_cases hne : i = id
    · subst hne
      refine ⟨text, ?_⟩
      rw [story_append, (h.full i hi text hheld).1, hone]
      exact he.imp (by rintro rfl; rfl) fun ⟨heq, hnot⟩ => ⟨by rw [heq]; rfl, hnot⟩
    · rw [hother i hne] at hs
      rw [hstory i hne]
      obtain ⟨s, hs⟩ := h.emptied i hi hs
      exact ⟨s, hs.imp_right fun ⟨hs, hnot⟩ => ⟨hs, fun hin => hnot (hpending.subset hin)⟩⟩
  · rcases List.mem_append.1 hi with hi | hi
    · exact h.kept_ge i s hi
    · rcases hes _ hi with rfl | hnone
      · obtain he | ⟨he, -⟩ := he <;> cases he
      · cases hnone
  · rcases List.mem_append.1 hi with hi | hi
    · exact h.noneGone i hi
    · rcases hes _ hi with rfl | hnone
      · obtain he | ⟨he, -⟩ := he <;> cases he
      · cases hnone

/-- A value is popped. -/
theorem pop {own outer own' outer' : List StackValue} {slots : Array (Option String)}
    {v : StackValue} {tasks : List Task} {mine : Bool}
    (h : Told first es ⟨own, outer, slots, .pop :: tasks⟩)
    (hv : own ++ outer = v :: (own' ++ outer')) :
    Told first (es ++ (.popped mine v :: readEvents true slots v))
      ⟨own', outer', slotsWithout slots v, valueTasks v ++ tasks⟩ := by
  have hvalues : slotIds (Moment.values ⟨own, outer, slots, .pop :: tasks⟩) =
      slotIds (v :: (own' ++ outer')) := congrArg slotIds hv
  have hplain := isPlain_valueTasks v
  cases hslot : v.slot? with
  | none =>
    have hnone : readEvents true slots v = [] ∧ slotsWithout slots v = slots := by
      cases v <;> first | exact ⟨rfl, rfl⟩ | cases hslot
    rw [hnone.1, hnone.2]
    refine h.plain rfl ?_ (pending_append hplain) (leaving_append hplain) (pushing_append hplain)
      (by simp [Event.slot?])
    rw [hvalues, slotIds_cons hslot]
    exact List.Sublist.refl _
  | some id =>
    obtain rfl : v = .slot id := by cases v <;> cases hslot; rfl
    obtain ⟨text, htext⟩ := h.held id (by rw [hvalues]; exact List.mem_cons_self)
    have hdistinct := h.distinct
    rw [hvalues, slotIds_slot, List.nodup_cons] at hdistinct
    have hread : readEvents true slots (.slot id) = [.took id text] := by
      simp [readEvents, show slots[id]? = some (some text) from htext]
    rw [hread]
    refine h.empty (e := .took id text) htext rfl ?_ hdistinct.1 ?_ (fun i hi _ => ?_) ?_ ?_ ?_ ?_
      (.inl rfl)
    · rw [hvalues]
      exact List.sublist_cons_self _ _
    · exact List.Sublist.refl _
    · exact hi
    · exact List.Subset.refl _
    · rfl
    · simp [Event.slot?]
    · simp [story, Event.slot?]

/-- A statement is put into a new slot. -/
theorem keep (h : Told first es m) (hslots : m'.slots = m.slots.push (some text))
    (hvalues : slotIds m'.values = slotIds m.values ∨
      slotIds m'.values = m.slots.size :: slotIds m.values)
    (hpending : (pending m'.tasks).Perm (m.slots.size :: pending m.tasks))
    (hleaving : leaving m'.tasks = leaving m.tasks)
    (hpushing : pushing m'.tasks = pushing m.tasks) :
    Told first (es ++ [.kept m.slots.size text]) m' := by
  have hstory : ∀ id, id ≠ m.slots.size →
      story id (es ++ [.kept m.slots.size text]) = story id es := fun id hid => by
    have hnone : story id [.kept m.slots.size text] = [] :=
      story_eq_nil (by simpa [Event.slot?] using Ne.symm hid)
    rw [story_append, hnone, List.append_nil]
  have hheld := h.toSlotsHeld.lt_size
  have hmem : ∀ id ∈ slotIds m'.values, id = m.slots.size ∨ id ∈ slotIds m.values := by
    rcases hvalues with heq | heq <;> simp +contextual [heq]
  have hpush : ∀ id, m'.slots[id]? =
      if id = m.slots.size then some (some text) else m.slots[id]? := fun id => by
    rw [hslots, Array.getElem?_push]
  have hsize : m'.slots.size = m.slots.size + 1 := by rw [hslots, Array.size_push]
  refine ⟨⟨⟨?_, fun id hid => ?_⟩, ?_, fun id hid => ?_, fun id hid hstack => ?_, ?_⟩,
    ?_, fun id hid => ?_, fun id hid s hs => ?_, fun id hid hs => ?_, fun id s hid => ?_,
    fun id hid => ?_⟩
  · rcases hvalues with heq | heq
    · exact heq ▸ h.distinct
    · exact heq ▸ List.nodup_cons.2 ⟨fun hid => (hheld _ hid).ne rfl, h.distinct⟩
  · rcases hmem id hid with rfl | hid
    · exact ⟨text, by rw [hpush, if_pos rfl]⟩
    · rw [hpush, if_neg (hheld id hid).ne]
      exact h.held id hid
  · exact hpending.nodup_iff.2 (List.nodup_cons.2
      ⟨fun hid => (h.pending_lt _ hid).ne rfl, h.pending_nodup⟩)
  · rw [hsize]
    rcases List.mem_cons.1 (hpending.subset hid) with rfl | hid
    · omega
    · exact Nat.lt_succ_of_lt (h.pending_lt id hid)
  · rw [hleaving] at hid
    rcases hmem id hstack with rfl | hstack
    · exact (h.pending_lt _ (leaving_subset_pending hid)).ne rfl
    · exact h.leaving id hid hstack
  · rw [hpushing, h.pushing]
  · have hle := h.first_le
    omega
  · rw [hsize] at hid
    rw [hstory id (by omega)]
    exact h.new id (by omega)
  · rw [hpush] at hs
    split at hs
    next heq =>
      obtain rfl := Option.some.inj (Option.some.inj hs)
      refine ⟨?_, hpending.symm.subset (heq ▸ List.mem_cons_self)⟩
      rw [story_append, h.new id heq.ge, heq]
      simp [story, Event.slot?]
    next hne =>
      rw [hstory id hne]
      exact (h.full id hid s hs).imp_right fun hin =>
        hpending.symm.subset (List.mem_cons_of_mem _ hin)
  · rw [hpush] at hs
    split at hs
    · cases hs
    · next hne =>
      rw [hstory id hne]
      obtain ⟨s, hs⟩ := h.emptied id hid hs
      refine ⟨s, hs.imp_right fun ⟨hs, hnot⟩ => ⟨hs, fun hin => ?_⟩⟩
      exact (List.mem_cons.1 (hpending.subset hin)).elim hne hnot
  · rcases List.mem_append.1 hid with hid | hid
    · exact h.kept_ge id s hid
    · obtain ⟨rfl, -⟩ := Event.kept.inj (List.mem_singleton.1 hid)
      exact h.first_le
  · rcases List.mem_append.1 hid with hid | hid
    · exact h.noneGone id hid
    · simp at hid

/-- The slots of a list are taken off the stack. -/
theorem dropSlots {own outer : List StackValue} {slots : Array (Option String)} {ids : List Nat}
    {tasks : List Task} (h : Told first es ⟨own, outer, slots, .statements ids [] :: tasks⟩)
    (hes : ∀ e ∈ es', e.slot? = none) :
    Told first (es ++ es') ⟨own.filter (!isSlotOf ids ·), outer.filter (!isSlotOf ids ·), slots,
      .leave ids :: tasks⟩ := by
  have hvalues : own.filter (!isSlotOf ids ·) ++ outer.filter (!isSlotOf ids ·) =
      (own ++ outer).filter (!isSlotOf ids ·) := (List.filter_append _ _).symm
  have hsublist : (own.filter (!isSlotOf ids ·) ++ outer.filter (!isSlotOf ids ·)).Sublist
      (own ++ outer) := List.filter_sublist.append List.filter_sublist
  have hnext : Told first (es ++ es') ⟨own.filter (!isSlotOf ids ·),
      outer.filter (!isSlotOf ids ·), slots, .statements ids [] :: tasks⟩ :=
    h.plain rfl (slotIds_sublist (hsublist)) rfl rfl rfl hes
  refine { hnext with leaving := fun id hid hstack => ?_ }
  rcases List.mem_append.1 hid with hid | hid
  · have hkept : StackValue.slot id ∈ (own ++ outer).filter (!isSlotOf ids ·) :=
      hvalues ▸ mem_slotIds.1 hstack
    have hslot : isSlotOf ids (.slot id) = true := List.contains_iff_mem.2 hid
    rw [List.mem_filter, hslot] at hkept
    cases hkept.2
  · exact hnext.leaving id hid hstack

/-- What is left in a slot is printed. -/
theorem leave {own outer : List StackValue} {slots : Array (Option String)} {ids : List Nat}
    {tasks : List Task} (h : Told first es ⟨own, outer, slots, .leave (id :: ids) :: tasks⟩) :
    Told first (es ++ (slots[id]?.join.map (.printed id)).toList)
      ⟨own, outer, slots.setIfInBounds id none, .leave ids :: tasks⟩ := by
  have hnodup : (id :: (ids ++ pending tasks)).Nodup := h.pending_nodup
  have hlt : id < slots.size := h.pending_lt id (by simp [Task.pending])
  have hothers : ∀ i ∈ id :: (ids ++ pending tasks), i ≠ id → i ∈ ids ++ pending tasks :=
    fun i hi hne => (List.mem_cons.1 hi).resolve_left hne
  cases hslot : slots[id]? with
  | none => simp [hlt] at hslot
  | some content =>
    cases content with
    | none =>
      refine h.next ?_ (List.Sublist.refl _) (List.sublist_cons_self _ _) (fun i hi => ?_)
        (List.subset_cons_self _ _) rfl (by simp)
      · refine Array.ext_getElem? fun i => ?_
        rw [Array.getElem?_setIfInBounds]
        split
        next heq => exact hslot.symm.trans (congrArg (slots[·]?) heq)
        next => rfl
      · by_cases hne : i = id
        · exact .inr (hne ▸ hslot)
        · exact .inl (hothers i hi hne)
    | some text =>
      refine h.empty (e := .printed id text) hslot rfl (List.Sublist.refl _)
        (h.leaving id (by simp [Task.leaving])) (List.sublist_cons_self _ _) hothers
        (List.subset_cons_self _ _) rfl ?_ ?_ (.inr ⟨rfl, (List.nodup_cons.1 hnodup).1⟩)
      · simp
      · simp [story, Event.slot?]

/-- Every step goes on with the stories of the slots. -/
theorem step (h : Told first es m) (hstep : Step m es' m') : Told first (es ++ es') m' := by
  have hsame : ∀ {v : StackValue} {values : List StackValue}, v.slot? = none →
      (slotIds (v :: values)).Sublist (slotIds values) := fun {v values} hv => by
    rw [slotIds_cons hv]
  cases hstep with
  | @node own outer slots n tasks =>
    have hplain := isPlain_nodeTasks n
    exact h.plain rfl (.refl _) (pending_append hplain) (leaving_append hplain)
      (pushing_append hplain) (by simp)
  | popOwn => exact h.pop rfl
  | popOuter => exact h.pop rfl
  | popNothing => exact h.plain rfl (.refl _) rfl rfl rfl (by simp)
  | @read own outer depth v slots tasks hread =>
    have hplain := isPlain_valueTasks v
    refine h.plain rfl (.refl _) (pending_append hplain) (leaving_append hplain)
      (pushing_append hplain) ?_
    cases v with
    | slot id =>
      obtain ⟨text, htext⟩ := h.held id (mem_slotIds.2 (List.mem_of_getElem? hread))
      simp [readEvents, show slots[id]? = some (some text) from htext]
    | _ => simp [readEvents]
  | readNothing => exact h.plain rfl (.refl _) rfl rfl rfl (by simp)
  | @push own outer slots v tasks =>
    have hv : v.slot?.toList ++ pushing tasks = [] := h.pushing
    rw [List.append_eq_nil_iff] at hv
    exact h.plain rfl (hsame (Option.toList_eq_nil_iff.1 hv.1)) rfl rfl
      ((by simpa [hv.2, Task.pushing] using hv.1)) (by simp)
  | statement => exact h.plain rfl (.refl _) rfl rfl rfl (by simp)
  | @keep own outer slots ids n nodes tasks text =>
    refine h.keep rfl ?_ ?_ rfl rfl
    · by_cases hkeeps : n.keepsValue = true
      · exact .inr (by simp [Moment.values, hkeeps])
      · exact .inl (by simp [Moment.values, hkeeps])
    · simp [Task.pending, List.perm_middle]
  | dropSlots =>
    refine h.dropSlots fun e he => ?_
    obtain ⟨v, -, rfl⟩ := List.mem_map.1 he
    rfl
  | leave => exact h.leave
  | left => exact h.plain rfl (.refl _) rfl rfl rfl (by simp)
  | operand => exact h.plain rfl (.refl _) rfl rfl rfl (by simp)
  | hold text => exact h.plain rfl (hsame rfl) rfl rfl rfl (by simp)
  | applied => exact h.plain rfl (.refl _) rfl rfl rfl (by simp)
  | clearOwn =>
    exact h.plain rfl (slotIds_sublist (List.sublist_cons_self _ _)) rfl rfl rfl (by simp)
  | clearOuter =>
    exact h.plain rfl (slotIds_sublist (List.sublist_cons_self _ _)) rfl rfl rfl
      (by simp [Event.slot?])
  | cleared => exact h.plain rfl (.refl _) rfl rfl rfl (by simp)
  | @scope own outer slots nodes tasks name =>
    have hplain := isPlain_nodes nodes
    exact h.plain rfl (hsame rfl) (pending_append hplain) (leaving_append hplain)
      (pushing_append hplain) (by simp)
  | truncateOwn =>
    exact h.plain rfl (slotIds_sublist (List.sublist_cons_self _ _)) rfl rfl rfl (by simp)
  | truncateOuter =>
    exact h.plain rfl (slotIds_sublist (List.sublist_cons_self _ _)) rfl rfl rfl
      (by simp [Event.slot?])
  | truncated => exact h.plain rfl (.refl _) rfl rfl rfl (by simp)

/-- So does a run. -/
theorem run (h : Told first es m) (hrun : Run m es' m') : Told first (es ++ es') m' := by
  induction hrun generalizing es with
  | refl m => simpa using h
  | head hstep _ ih =>
    rw [← List.append_assoc]
    exact ih (h.step hstep)

end Told

/-! ### From the start to the end -/

/-- Before a tree is rendered. -/
def Moment.start (tree : Node) : Moment := ⟨[], [], #[], [.node tree]⟩

/-- The text was put into the slot once. Then one pop took it, or it was printed once. -/
def IsSpent (id : Nat) (text : String) (es : List Event) : Prop :=
  story id es = [.kept id text, .took id text] ∨ story id es = [.kept id text, .printed id text]

/-- Before anything has happened. -/
theorem told_nil {values : List StackValue} {slots : Array (Option String)} {t : Task}
    (h : SlotsHeld values slots) (ht : t.IsPlain) :
    Told slots.size [] ⟨[], values, slots, [t]⟩ where
  toSlotsHeld := h
  pending_nodup := by simp [ht.1, pending]
  pending_lt := by simp [ht.1, pending]
  leaving := by simp [ht.2.1, leaving]
  pushing := by simp [ht.2.2, pushing]
  first_le := le_rfl
  new := fun _ _ => rfl
  full := fun id hid text htext => by
    have hlt := (Array.getElem?_eq_some_iff.1 htext).1
    exact absurd hlt (Nat.not_lt.2 hid)
  emptied := fun id hid hnone => by
    have hlt := (Array.getElem?_eq_some_iff.1 hnone).1
    exact absurd hlt (Nat.not_lt.2 hid)
  kept_ge := by simp
  noneGone := by simp

theorem told_of_start {tree : Node} (hrun : Run (.start tree) es m) : Told 0 es m := by
  have hnone : SlotsHeld [] #[] := ⟨List.nodup_nil, fun _ hid => nomatch hid⟩
  have hstart : Told 0 [] (.start tree) := told_nil hnone ⟨rfl, rfl, rfl⟩
  exact hstart.run hrun

section told

variable (h : Told first es m)

include h

theorem Told.lt_size (hkept : .kept id text ∈ es) : id < m.slots.size := by
  by_contra hge
  have hmem := mem_story hkept rfl
  rw [h.new id (Nat.not_lt.1 hge)] at hmem
  cases hmem

/-- The text in a slot is the one that was put there. -/
theorem Told.eq_of_full {s : String} (hkept : .kept id text ∈ es)
    (hs : m.slots[id]? = some (some s)) : s = text := by
  have hmem := mem_story hkept rfl
  rw [(h.full id (h.kept_ge id text hkept) s hs).1, List.mem_singleton] at hmem
  exact (Event.kept.inj hmem).2.symm

/-- An empty slot of a list that is not at its end was popped. -/
theorem Told.took_of_emptied (hkept : .kept id text ∈ es) (hpending : id ∈ pending m.tasks)
    (hslot : m.slots[id]? = some none) : story id es = [.kept id text, .took id text] := by
  obtain ⟨s, hstory⟩ := h.emptied id (h.kept_ge id text hkept) hslot
  have hstory := hstory.resolve_right fun ⟨_, hnot⟩ => hnot hpending
  have hmem := mem_story hkept rfl
  rw [hstory] at hmem
  obtain rfl : text = s := by simpa using hmem
  exact hstory

/-- When nothing is left to do, every slot that was filled is spent. -/
theorem Told.isSpent (hend : m.tasks = []) (hkept : .kept id text ∈ es) : IsSpent id text es := by
  have hfirst := h.kept_ge id text hkept
  have hlt := h.lt_size hkept
  have hslot : m.slots[id]? = some m.slots[id] := Array.getElem?_eq_getElem hlt
  cases hcontent : m.slots[id] with
  | some s =>
    have hin := (h.full id hfirst s (hcontent ▸ hslot)).2
    simp [hend, pending] at hin
  | none =>
    obtain ⟨s, hstory⟩ := h.emptied id hfirst (hcontent ▸ hslot)
    have hmem := mem_story hkept rfl
    obtain rfl : text = s := by
      rcases hstory with hstory | ⟨hstory, -⟩ <;>
      · rw [hstory] at hmem
        simpa using hmem
    exact hstory.imp_right And.left

end told

/-! ### The end of a list -/

/-- What is left in different slots. -/
theorem leftIn_eq {slots : Array (Option String)} {kept : List (Nat × String)}
    (hdistinct : (kept.map (·.1)).Nodup)
    (htexts : ∀ k ∈ kept, ∀ text, slots[k.1]?.join = some text → text = k.2) :
    leftIn slots (kept.map (·.1)) = kept.filter fun k => (slots[k.1]?.join).isSome := by
  induction kept generalizing slots with
  | nil => rfl
  | cons k kept ih =>
    obtain ⟨hk, hdistinct⟩ := List.nodup_cons.1 hdistinct
    have hsame : ∀ k' ∈ kept, (slots.setIfInBounds k.1 none)[k'.1]? = slots[k'.1]? := by
      intro k' hk'
      have hne : k.1 ≠ k'.1 := fun heq => hk (List.mem_map.2 ⟨k', hk', heq.symm⟩)
      rw [Array.getElem?_setIfInBounds_ne hne]
    have hrest : leftIn (slots.setIfInBounds k.1 none) (kept.map (·.1)) =
        kept.filter fun k => (slots[k.1]?.join).isSome := by
      rw [ih hdistinct fun k' hk' text htext =>
        htexts k' (List.mem_cons_of_mem _ hk') text (hsame k' hk' ▸ htext)]
      exact List.filter_congr fun k' hk' => by rw [hsame k' hk']
    rw [List.map_cons, leftIn, hrest, List.filter_cons]
    cases htext : slots[k.1]?.join with
    | none => simp
    | some text => simp [htexts k List.mem_cons_self text htext]

/-- How a list of statements comes to its end: of the texts `kept`, those `printed` are on lines of
their own in the order of the list, and one pop took each of the others. -/
structure Settled (render : Node → Rendering Unit) (nodes : List Node) (p p' : Page)
    (kept printed : List (Nat × String)) (es : List Event) : Prop where
  captured : ∃ q, Captured render nodes p kept q
  run : ∃ own outer, own ++ outer = p'.values ∧
    Run ⟨[], p.values, p.slots, [.statements [] nodes]⟩ es ⟨own, outer, p'.slots, []⟩
  sublist : printed.Sublist kept
  text : p'.text = p.text ++
    ("\n" ++ p'.indent).intercalate ((printed.map (·.2)).filter (!·.isEmpty))
  once : ∀ k ∈ kept, story k.1 es = [.kept k.1 k.2, .took k.1 k.2] ∧ k ∉ printed ∨
    story k.1 es = [.kept k.1 k.2, .printed k.1 k.2] ∧ k ∈ printed
  off : ∀ k ∈ kept, .slot k.1 ∉ p'.values
  held : SlotsHeld p'.values p'.slots

theorem exists_settled {render : Node → Rendering Unit} (hrender : Acts render) {nodes : List Node}
    {p p' : Page} (hp : SlotsHeld p.values p.slots)
    (h : statements render nodes p = some ((), p')) :
    ∃ kept printed es, Settled render nodes p p' kept printed es := by
  obtain ⟨kept, q, hlisted⟩ := exists_listed h
  set ids := kept.map (·.1) with hids
  obtain ⟨es, own, outer, hq, hcapture, -, hkept⟩ :=
    hlisted.exists_run hrender (List.nil_append p.values)
  have hdrop : Step ⟨own, outer, q.slots, [.statements ids []]⟩ _ _ := .dropSlots
  have hleave := hlisted.run_leave (own.filter (!isSlotOf ids ·))
    (outer.filter (!isSlotOf ids ·)) []
  have hstart : Told p.slots.size [] ⟨[], p.values, p.slots, [.statements [] nodes]⟩ :=
    told_nil hp ⟨rfl, rfl, rfl⟩
  have hcaptured : Told p.slots.size es ⟨own, outer, q.slots, [.statements ids []]⟩ :=
    hstart.run (hcapture [])
  have hpending : ∀ k ∈ kept, k.1 ∈ pending [.statements ids []] := fun k hk =>
    List.mem_append_left _ (List.mem_map_of_mem hk)
  have hleft : leftIn q.slots ids = kept.filter fun k => (q.slots[k.1]?.join).isSome := by
    refine leftIn_eq ?_ fun k hk text htext =>
      hcaptured.eq_of_full (hkept k hk) (Option.join_eq_some_iff.1 htext)
    simpa [pending, Task.pending] using hcaptured.pending_nodup
  rw [hleft] at hleave
  have hall := (hcapture []).trans (.head hdrop hleave)
  have hend := hcaptured.run (.head hdrop hleave)
  have hvalues : own.filter (!isSlotOf ids ·) ++ outer.filter (!isSlotOf ids ·) = p'.values := by
    rw [hlisted.values, ← hq, List.filter_append]
  refine ⟨kept, kept.filter fun k => (q.slots[k.1]?.join).isSome, _, ⟨q, hlisted.captured⟩,
    ⟨_, _, hvalues, hall⟩, List.filter_sublist, ?_, fun k hk => ?_, fun k hk hstack => ?_, ?_⟩
  · rw [hlisted.text, hleft]
  · have hspent := hend.isSpent rfl (List.mem_append_left _ (hkept k hk))
    have hlt : k.1 < q.slots.size := hcaptured.lt_size (hkept k hk)
    obtain ⟨content, hslot⟩ : ∃ content, q.slots[k.1]? = some content :=
      ⟨_, Array.getElem?_eq_getElem hlt⟩
    cases content with
    | none =>
      have htook := hcaptured.took_of_emptied (hkept k hk) (hpending k hk) hslot
      refine .inl ⟨hspent.resolve_right fun hprinted => ?_, fun hprinted => ?_⟩
      · rw [story_append, htook] at hprinted
        simp at hprinted
      · simp [hslot] at hprinted
    | some text =>
      have hin : k ∈ kept.filter fun k => (q.slots[k.1]?.join).isSome :=
        List.mem_filter.2 ⟨hk, by simp [hslot]⟩
      refine .inr ⟨hspent.resolve_left fun htook => ?_, hin⟩
      have hevent := List.mem_map_of_mem (f := fun k : Nat × String => Event.printed k.1 k.2) hin
      have hprinted := mem_story (List.mem_append_right es (List.mem_append_right
        ((outer.filter (isSlotOf ids)).map .lost) hevent)) rfl
      rw [htook] at hprinted
      simp at hprinted
  · have hstack : k.1 ∈ slotIds (own.filter (!isSlotOf ids ·) ++ outer.filter (!isSlotOf ids ·)) :=
      mem_slotIds.2 (hvalues ▸ hstack)
    obtain ⟨text, htext⟩ := hend.held k.1 hstack
    exact absurd (hend.full k.1 (hcaptured.kept_ge k.1 k.2 (hkept k hk)) text htext).2
      (by simp [pending])
  · rw [← hvalues]
    exact hend.toSlotsHeld

/-- The text of a statement is inlined or printed, and never read after that: at every moment the
slots on the stack are different and have their texts. -/
theorem slots_spent_once {tree : Node} (hloops : tree.LoopsStartQuiet) (indent : String) :
    (∃ page es m, Rendering.node tree.maxLevels tree (.start indent) = some ((), page) ∧
      tree.render indent = .ok ⟨Text.spaces page.startColumn ++ page.text, page.issues⟩ ∧
      Run (.start tree) es m ∧ m.tasks = [] ∧ m.values = page.values ∧ m.slots = page.slots ∧
      (∀ id, .consumedSlot id ∉ page.issues) ∧
      ∀ id text, .kept id text ∈ es → IsSpent id text es) ∧
    (∀ es m, Run (.start tree) es m → SlotsHeld m.values m.slots ∧ ∀ id, .gone id ∉ es) ∧
    ∀ levels nodes (p p' : Page), SlotsHeld p.values p.slots →
      Rendering.statements (Rendering.node levels) nodes p = some ((), p') →
      ∃ kept printed es, Settled (Rendering.node levels) nodes p p' kept printed es := by
  refine ⟨?_, fun es m hrun => ?_, fun levels nodes p p' hp h => ?_⟩
  · obtain ⟨page, hrun, hrender, -⟩ :=
      tree.exists_page hloops False.elim indent
    obtain ⟨es, own, outer, hvalues, hsteps, hissues⟩ :=
      acts_node tree.maxLevels tree _ _ _ hrun [] [] rfl
    have htold := told_of_start (hsteps [])
    refine ⟨page, es, _, hrun, hrender, hsteps [], rfl, hvalues, rfl, fun id hid => ?_,
      fun id text hkept => htold.isSpent rfl hkept⟩
    rcases hissues id hid with hstart | hgone
    · cases hstart
    · exact htold.noneGone id hgone
  · have htold := told_of_start hrun
    exact ⟨htold.toSlotsHeld, htold.noneGone⟩
  · exact exists_settled (acts_node levels) hp h

/-- A variable is read, and the next statement takes its value. -/
def carOfStatement : Node :=
  .tree .exprs [.tree .exprStmt [.token (.ofOpcode .varref (some (.symbol "a")) 0)] none,
    .tree .exprStmt [.tree .unaryExprStacked [.token (.ofOpcode .car none 1)] none] none] none

theorem slots_spent_once_carOfStatement : carOfStatement.LoopsStartQuiet ∧
    ∃ page es m, Rendering.node carOfStatement.maxLevels carOfStatement (.start "") =
      some ((), page) ∧ Run (.start carOfStatement) es m ∧ m.tasks = [] ∧
      m.values = page.values ∧ (∀ id, .consumedSlot id ∉ page.issues) ∧
      ∀ id text, .kept id text ∈ es → IsSpent id text es := by
  have hloops : carOfStatement.LoopsStartQuiet := by
    simp [LoopsStartQuiet, subnodes, subnodesOf, carOfStatement, startsQuiet]
  obtain ⟨⟨page, es, m, hpage, -, hrun, hend, hvalues, -, hissues, hspent⟩, -⟩ :=
    slots_spent_once hloops ""
  exact ⟨hloops, page, es, m, hpage, hrun, hend, hvalues, hissues, hspent⟩

end ElispLift.Stack
