import ElispLift.Proofs.Stack.Slots

/-!
# The stack below a form

A form takes values off the stack and leaves none, besides a loop that stores its start value. Each
task that is not done knows what it has put: the tasks lie on the stack in layers. Clearing operands
away counts them, and so takes others if a form among the operands has taken one already.
-/

namespace ElispLift

/-- There is no loop with a start value in the node. -/
def Node.WithoutLoops (n : Node) : Prop := ∀ m ∈ n.subnodes, m.isKind .whileForm1 = false

theorem Node.WithoutLoops.children {n : Node} (h : n.WithoutLoops) :
    ∀ c ∈ n.children, c.WithoutLoops := by
  cases n with
  | token i => simp [Node.children]
  | tree kind children idiom => exact (forall_subnodes_tree.1 h).2

theorem Node.WithoutLoops.isKind {n : Node} (h : n.WithoutLoops) :
    n.isKind .whileForm1 = false := by
  cases n with
  | token i => rfl
  | tree kind children idiom => exact (forall_subnodes_tree.1 h).1

namespace Stack

open Node Rendering

variable {m m' : Moment} {es : List Event} {tasks : List Task} {t : Task} {v : StackValue}
  {own own' : List StackValue} {exact : Prop} {out : Nat}

/-! ### Layers -/

/-- What a task has put on the stack, where `below` values lie under it. A task may find less than
it has put there, but operands are all there if no form takes operands. -/
def Task.Holds (exact : Prop) (below : Nat) : Task → List StackValue → Prop
  | .statements ids _, layer | .keep ids _ _, layer => ∀ v ∈ layer, ∃ id ∈ ids, v = .slot id
  | .operands count _, layer | .operand count _, layer | .clear count, layer =>
    (∀ v ∈ layer, v.isOperand = true) ∧ layer.length ≤ count ∧ (exact → layer.length = count)
  | .truncate height, layer =>
    layer = [] ∧ below ≤ height ∨ ∃ name, layer = [.text name] ∧ below = height
  | .push _, _ => False
  | .node _, layer | .pop, layer | .read _, layer | .leave _, layer | .scope _ _, layer =>
    layer = []

/-- Each task has its layer on the stack, above those of the tasks after it and `out` values that
lay there before. -/
inductive Layered (exact : Prop) (out : Nat) : List Task → List StackValue → Prop
  | nil : Layered exact out [] []
  | cons {t : Task} {tasks : List Task} {layer below : List StackValue}
    (ht : t.Holds exact (below.length + out) layer) (h : Layered exact out tasks below) :
    Layered exact out (t :: tasks) (layer ++ below)

namespace Layered

/-- A task that has put nothing. -/
theorem plain (ht : t.Holds exact (own.length + out) []) (h : Layered exact out tasks own) :
    Layered exact out (t :: tasks) own := cons ht h

theorem plains {new : List Task} (hnew : ∀ t ∈ new, ∀ below, t.Holds exact below [])
    (h : Layered exact out tasks own) : Layered exact out (new ++ tasks) own := by
  induction new with
  | nil => exact h
  | cons t new ih =>
    obtain ⟨ht, hnew⟩ := List.forall_mem_cons.1 hnew
    exact (ih hnew).plain (ht _)

/-- A task goes on with what it has put. -/
theorem goOn {t' : Task} (h : Layered exact out (t :: tasks) own)
    (ht : ∀ below layer, t.Holds exact below layer → t'.Holds exact below layer) :
    Layered exact out (t' :: tasks) own := by
  cases h with
  | cons hlayer h => exact cons (ht _ _ hlayer) h

/-- A task puts a value. -/
theorem put {t' : Task} (h : Layered exact out (t :: tasks) own)
    (ht : ∀ below layer, t.Holds exact below layer → t'.Holds exact below (v :: layer)) :
    Layered exact out (t' :: tasks) (v :: own) := by
  cases h with
  | cons hlayer h => exact cons (ht _ _ hlayer) h

/-- A task of which nothing is on the stack. -/
theorem tail_of_plain (h : Layered exact out (t :: tasks) own)
    (ht : ∀ below layer, t.Holds exact below layer → layer = []) : Layered exact out tasks own := by
  cases h with
  | cons hlayer h =>
    obtain rfl := ht _ _ hlayer
    exact h

/-- Less lies below a layer, and its first value may be gone. -/
theorem holds_of_le {below below' : Nat} {layer : List StackValue} (h : t.Holds exact below layer)
    (hempty : layer = []) (hle : below' ≤ below) : t.Holds exact below' layer := by
  subst hempty
  cases t with
  | truncate height => exact h.imp (fun ⟨hnil, hheight⟩ => ⟨hnil, hle.trans hheight⟩) (by simp)
  | _ => exact h

/-- The value on top is taken. -/
theorem pop (h : Layered exact out tasks (v :: own)) (hv : exact → v.isOperand = false) :
    Layered exact out tasks own := by
  generalize hvalues : v :: own = values at h
  induction h generalizing own with
  | nil => cases hvalues
  | @cons t tasks layer below ht h ih =>
    cases layer with
    | nil =>
      subst hvalues
      exact (ih rfl).plain (holds_of_le ht rfl (by simp))
    | cons w layer =>
      obtain ⟨rfl, rfl⟩ := List.cons.inj hvalues
      refine cons ?_ h
      cases t with
      | statements ids nodes | keep ids n nodes =>
        exact fun w hw => ht w (List.mem_cons_of_mem _ hw)
      | operands count nodes | operand count nodes | clear count =>
        obtain ⟨hoperands, hcount, hexact⟩ := ht
        have hoperand := hoperands v List.mem_cons_self
        refine ⟨fun w hw => hoperands w (List.mem_cons_of_mem _ hw),
          (Nat.le_succ _).trans hcount, fun he => ?_⟩
        rw [hv he] at hoperand
        cases hoperand
      | truncate height =>
        rcases ht with ⟨hnil, -⟩ | ⟨name, htext, hheight⟩
        · cases hnil
        · obtain ⟨-, rfl⟩ := List.cons.inj htext
          exact .inl ⟨rfl, hheight.le⟩
      | push w => exact ht
      | node _ | pop | read _ | leave _ | scope _ _ => cases ht

/-- A value below all layers is taken. -/
theorem popOuter (h : Layered exact (out + 1) tasks []) : Layered exact out tasks [] := by
  generalize hvalues : ([] : List StackValue) = values at h
  induction h with
  | nil => exact .nil
  | @cons t tasks layer below ht h ih =>
    obtain ⟨rfl, rfl⟩ := List.append_eq_nil_iff.1 hvalues.symm
    exact (ih rfl).plain (holds_of_le ht rfl (by simp))

/-- The slots in the layers are those of lists that are not at their ends. -/
theorem mem_pending {id : Nat} (h : Layered exact out tasks own) (hid : .slot id ∈ own) :
    id ∈ pending tasks := by
  induction h with
  | nil => cases hid
  | @cons t tasks layer below ht h ih =>
    rcases List.mem_append.1 hid with hid | hid
    · refine List.mem_append_left _ ?_
      cases t with
      | statements ids nodes | keep ids n nodes =>
        obtain ⟨i, hi, heq⟩ := ht _ hid
        cases heq
        exact hi
      | operands count nodes | operand count nodes | clear count => cases ht.1 _ hid
      | truncate height =>
        rcases ht with ⟨rfl, -⟩ | ⟨name, rfl, -⟩
        · cases hid
        · simp at hid
      | push w => exact ht.elim
      | node _ | pop | read _ | leave _ | scope _ _ => cases ht; cases hid
    · exact List.mem_append_right _ (ih hid)

/-- An operand is cleared away. If it is not the task's own, some form has taken one. -/
theorem clear {count : Nat} (h : Layered exact out (.clear (count + 1) :: tasks) (v :: own)) :
    Layered exact out (.clear count :: tasks) own := by
  generalize hvalues : v :: own = values at h
  cases h with
  | @cons _ _ layer below ht h =>
    obtain ⟨hoperands, hcount, hexact⟩ := ht
    cases layer with
    | nil =>
      have hnot : ¬exact := fun he => by simpa using hexact he
      subst hvalues
      exact (h.pop fun he => absurd he hnot).plain ⟨by simp, by simp, fun he => absurd he hnot⟩
    | cons w layer =>
      obtain ⟨rfl, rfl⟩ := List.cons.inj hvalues
      refine cons ⟨fun w hw => hoperands w (List.mem_cons_of_mem _ hw),
        Nat.le_of_succ_le_succ hcount, fun he => ?_⟩ h
      exact Nat.succ.inj (hexact he)

/-- Operands are cleared away until the top of the stack is another value. -/
theorem cleared {count : Nat} (h : Layered exact out (.clear count :: tasks) own)
    (hend : count ≠ 0 → ∀ v ∈ own.head?, v.isOperand = false) : Layered exact out tasks own := by
  cases h with
  | @cons _ _ layer below ht h =>
    obtain ⟨hoperands, hcount, -⟩ := ht
    cases layer with
    | nil => exact h
    | cons w layer =>
      have hne : count ≠ 0 := fun hzero => by simp [hzero] at hcount
      have hother := hend hne w rfl
      rw [hoperands w List.mem_cons_self] at hother
      cases hother

/-- Nothing is left of what the tasks have put. -/
theorem tail_of_nil {t : Task} (h : Layered exact out (t :: tasks) []) :
    t.Holds exact out [] ∧ Layered exact out tasks [] := by
  generalize hvalues : ([] : List StackValue) = values at h
  cases h with
  | cons ht h =>
    obtain ⟨rfl, rfl⟩ := List.append_eq_nil_iff.1 hvalues.symm
    rw [List.length_nil, Nat.zero_add] at ht
    exact ⟨ht, h⟩

/-- A list takes its slots off the stack, and no other's. -/
theorem dropSlots {ids : List Nat} (h : Layered exact out (.statements ids [] :: tasks) own)
    (hnodup : (pending (.statements ids [] :: tasks)).Nodup) :
    Layered exact out tasks (own.filter (!isSlotOf ids ·)) := by
  have hdisjoint : ids.Disjoint (pending tasks) := List.disjoint_of_nodup_append hnodup
  cases h with
  | @cons _ _ layer below ht h =>
    have hlayer : layer.filter (!isSlotOf ids ·) = [] := List.filter_eq_nil_iff.2 fun v hv => by
      obtain ⟨id, hid, rfl⟩ := ht v hv
      simpa [isSlotOf, StackValue.slot?] using hid
    have hbelow : below.filter (!isSlotOf ids ·) = below := List.filter_eq_self.2 fun v hv => by
      cases v with
      | slot id =>
        have hnot : id ∉ ids := fun hid => hdisjoint hid (h.mem_pending hv)
        simpa [isSlotOf, StackValue.slot?] using hnot
      | _ => rfl
    rw [List.filter_append, hlayer, hbelow]
    exact h

/-- The name of a variable is taken off the stack after the body. -/
theorem truncate {height : Nat} (h : Layered exact out (.truncate height :: tasks) own)
    (hheight : height < own.length + out) : ∃ name rest, own = .text name :: rest ∧
      Layered exact out (.truncate height :: tasks) rest := by
  cases h with
  | @cons _ _ layer below ht h =>
    rcases ht with ⟨rfl, hle⟩ | ⟨name, rfl, hbelow⟩
    · rw [List.nil_append] at hheight
      omega
    · exact ⟨name, below, rfl, h.plain (.inl ⟨rfl, hbelow.le⟩)⟩

theorem truncated {height : Nat} (h : Layered exact out (.truncate height :: tasks) own)
    (hheight : own.length + out ≤ height) : Layered exact out tasks own := by
  cases h with
  | @cons _ _ layer below ht h =>
    rcases ht with ⟨rfl, hle⟩ | ⟨name, rfl, hbelow⟩
    · exact h
    · rw [List.length_append, List.length_singleton] at hheight
      omega

end Layered

/-! ### What a run takes from below -/

/-- A value that lay there before is popped or cleared away. -/
def Event.outer? : Event → Option StackValue
  | .popped false v | .lost v => some v
  | _ => none

/-- A value that lay there before is popped. -/
def Event.isOuterPop : Event → Bool
  | .popped false _ => true
  | _ => false

theorem mem_readEvents {e : Event} {take : Bool} {slots : Array (Option String)}
    (h : e ∈ readEvents take slots v) : (∃ id text, e = .took id text) ∨ ∃ id, e = .gone id := by
  cases v with
  | slot id =>
    unfold readEvents at h
    dsimp only at h
    split at h
    · split at h
      · exact .inl ⟨_, _, List.mem_singleton.1 h⟩
      · cases h
    · exact .inr ⟨_, List.mem_singleton.1 h⟩
  | _ => cases h

/-- The nodes that a task renders. -/
def Task.parts : Task → List Node
  | .node n => [n]
  | .statements _ nodes | .keep _ _ nodes | .operands _ nodes | .operand _ nodes
  | .scope _ nodes => nodes
  | .pop | .read _ | .push _ | .leave _ | .clear _ | .truncate _ => []

def partsOf (tasks : List Task) : List Node := tasks.flatMap Task.parts

theorem partsOf_append (tasks tasks' : List Task) :
    partsOf (tasks ++ tasks') = partsOf tasks ++ partsOf tasks' :=
  List.flatMap_append

theorem partsOf_nodes (nodes : List Node) : partsOf (nodes.map .node) = nodes := by
  induction nodes with
  | nil => rfl
  | cons n nodes ih => exact congrArg (n :: ·) ih

theorem Task.Starts.parts {P : Node → Prop} {loops : Prop} (h : t.Starts P loops) :
    ∀ c ∈ t.parts, P c := by
  cases h with
  | node h => simpa [Task.parts] using h
  | statements h | operands h | scope name h => exact h
  | _ => simp [Task.parts]

/-- A form without a loop starts with nothing on the stack. -/
theorem Task.Starts.holds {P : Node → Prop} {below : Nat} (h : t.Starts P (false = true)) :
    t.Holds exact below [] := by
  cases h with
  | pushNode hloops | pushText _ hloops => cases hloops
  | operands => exact ⟨by simp, le_rfl, fun _ => rfl⟩
  | statements => simp [Task.Holds]
  | _ => rfl

/-- The slots of the lists that are not at their ends are new and different. -/
structure Numbered (first : Nat) (m : Moment) : Prop where
  first_le : first ≤ m.slots.size
  ge : ∀ id ∈ pending m.tasks, first ≤ id
  lt : ∀ id ∈ pending m.tasks, id < m.slots.size
  nodup : (pending m.tasks).Nodup

/-- A step ends a list, or goes on with one, or puts a statement into a new slot. -/
theorem pending_of_step (h : Step m es m') :
    (pending m'.tasks).Sublist (pending m.tasks) ∧ m'.slots.size = m.slots.size ∨
      (pending m'.tasks).Perm (m.slots.size :: pending m.tasks) ∧
        m'.slots.size = m.slots.size + 1 := by
  have hwithout : ∀ (slots : Array (Option String)) (v : StackValue),
      (slotsWithout slots v).size = slots.size := fun slots v => by
    cases v <;> simp [slotsWithout]
  have hplain : ∀ {tasks tasks' : List Task}, (∀ t ∈ tasks', t.IsPlain) →
      (pending (tasks' ++ tasks)).Sublist (pending tasks) := fun ht => by rw [pending_append ht]
  cases h with
  | node => exact .inl ⟨hplain (isPlain_nodeTasks _), rfl⟩
  | popOwn | popOuter => exact .inl ⟨hplain (isPlain_valueTasks _), hwithout _ _⟩
  | read => exact .inl ⟨hplain (isPlain_valueTasks _), rfl⟩
  | keep => exact .inr ⟨by simp [Task.pending, List.perm_middle], by simp⟩
  | leave => exact .inl ⟨List.sublist_cons_self _ _, by simp⟩
  | left => exact .inl ⟨.refl _, rfl⟩
  | scope => exact .inl ⟨hplain (isPlain_nodes _), rfl⟩
  | _ => exact .inl ⟨.refl _, rfl⟩

theorem Numbered.step {first : Nat} (h : Numbered first m) (hstep : Step m es m') :
    Numbered first m' := by
  rcases pending_of_step hstep with ⟨hsub, hsize⟩ | ⟨hperm, hsize⟩
  · exact ⟨hsize ▸ h.first_le, fun id hid => h.ge id (hsub.subset hid),
      fun id hid => hsize ▸ h.lt id (hsub.subset hid), hsub.nodup h.nodup⟩
  · have hmem : ∀ id ∈ pending m'.tasks, id = m.slots.size ∨ id ∈ pending m.tasks :=
      fun id hid => List.mem_cons.1 (hperm.subset hid)
    refine ⟨by have hle := h.first_le; omega, fun id hid => ?_, fun id hid => ?_, ?_⟩
    · exact (hmem id hid).elim (fun heq => heq ▸ h.first_le) (h.ge id)
    · rcases hmem id hid with rfl | hid
      · omega
      · have hlt := h.lt id hid
        omega
    · exact hperm.nodup_iff.2 (List.nodup_cons.2 ⟨fun hid => (h.lt _ hid).ne rfl, h.nodup⟩)

/-- The own values lie in layers, nothing that is rendered is a loop, and the slots that lay there
before are older than all others. -/
structure Framed (exact : Prop) (first : Nat) (m : Moment) : Prop extends Numbered first m where
  layered : Layered exact m.outer.length m.tasks m.own
  parts : ∀ n ∈ partsOf m.tasks, n.WithoutLoops
  stored : ∀ n, .node n ∈ m.outer → n.WithoutLoops
  older : ∀ id, .slot id ∈ m.outer → id < first

theorem Layered.not_node {n : Node} (h : Layered exact out tasks own) : .node n ∉ own := by
  induction h with
  | nil => simp
  | @cons t tasks layer below ht h ih =>
    refine fun hn => (List.mem_append.1 hn).elim (fun hn => ?_) ih
    cases t with
    | statements ids nodes | keep ids n nodes => obtain ⟨i, -, heq⟩ := ht _ hn; cases heq
    | operands count nodes | operand count nodes | clear count => cases ht.1 _ hn
    | truncate height =>
      rcases ht with ⟨rfl, -⟩ | ⟨name, rfl, -⟩
      · cases hn
      · simp at hn
    | push w => exact ht
    | node _ | pop | read _ | leave _ | scope _ _ => cases ht; cases hn

namespace Framed

variable {first : Nat}

/-- A list has no slots among the values that lay there before. -/
theorem filter_outer {outer : List StackValue} {slots : Array (Option String)} {ids : List Nat}
    (h : Framed exact first ⟨own, outer, slots, .statements ids [] :: tasks⟩) :
    outer.filter (isSlotOf ids) = [] ∧ outer.filter (!isSlotOf ids ·) = outer := by
  have hnot : ∀ v ∈ outer, isSlotOf ids v = false := fun v hv => by
    cases v with
    | slot id =>
      have hnew : id ∉ ids := fun hid =>
        (h.older id hv).not_ge (h.ge id (List.mem_append_left _ hid))
      simpa [isSlotOf, StackValue.slot?] using hnew
    | _ => rfl
  exact ⟨List.filter_eq_nil_iff.2 fun v hv => by simp [hnot v hv],
    List.filter_eq_self.2 fun v hv => by simp [hnot v hv]⟩

/-- What is taken from below lies on top of what is left there. -/
theorem outer_eq (h : Framed exact first m) (hstep : Step m es m') :
    m.outer = es.filterMap Event.outer? ++ m'.outer := by
  have hreads : ∀ take slots v, (readEvents take slots v).filterMap Event.outer? = [] :=
    fun take slots v => List.filterMap_eq_nil_iff.2 fun e he => by
      obtain ⟨id, text, rfl⟩ | ⟨id, rfl⟩ := mem_readEvents he <;> rfl
  cases hstep with
  | @popOwn v own outer slots tasks =>
    rw [List.filterMap_cons_none (f := Event.outer?) (a := .popped true v) rfl, hreads]
    rfl
  | @popOuter v outer slots tasks =>
    rw [List.filterMap_cons_some (f := Event.outer?) (a := .popped false v) (b := v) rfl, hreads]
    rfl
  | read =>
    rw [hreads]
    rfl
  | dropSlots =>
    obtain ⟨hnone, hall⟩ := h.filter_outer
    rw [hnone, hall]
    rfl
  | @leave own outer slots ids tasks id => cases slots[id]?.join <;> rfl
  | _ => rfl

/-- Nothing but operands is cleared away, and only if some form has taken one. -/
theorem lost (h : Framed exact first m) (hstep : Step m es m') (hv : .lost v ∈ es) :
    v.isOperand = true ∧ ¬exact := by
  have hreads : ∀ take slots w, .lost v ∉ readEvents take slots w := fun take slots w hmem => by
    obtain ⟨id, text, heq⟩ | ⟨id, heq⟩ := mem_readEvents hmem <;> cases heq
  cases hstep with
  | popOwn | popOuter => simp [hreads] at hv
  | read => simp [hreads] at hv
  | dropSlots => simp [h.filter_outer.1] at hv
  | @leave own outer slots ids tasks id => cases htext : slots[id]?.join <;> simp [htext] at hv
  | clearOuter hoperand =>
    obtain rfl := Event.lost.inj (List.mem_singleton.1 hv)
    exact ⟨hoperand, fun he => nomatch h.layered.tail_of_nil.1.2.2 he⟩
  | truncateOuter hheight =>
    obtain ⟨name, rest, hnil, -⟩ := h.layered.truncate (by simpa using hheight)
    cases hnil
  | _ => simp at hv

/-- Parts of nodes without loops are without loops. -/
theorem parts_of_step (h : Framed exact first m) (hstep : Step m es m') :
    ∀ n ∈ partsOf m'.tasks, n.WithoutLoops := by
  have hparts := h.parts
  have hvalue : ∀ {v : StackValue} {tasks : List Task}, v ∈ m.values →
      (∀ n ∈ partsOf tasks, n.WithoutLoops) →
      ∀ n ∈ partsOf (valueTasks v ++ tasks), n.WithoutLoops := fun {v tasks} hv h' => by
    rw [partsOf_append]
    refine List.forall_mem_append.2 ⟨?_, h'⟩
    cases v with
    | node n =>
      rcases List.mem_append.1 hv with hown | houter
      · exact absurd hown h.layered.not_node
      · simpa [valueTasks, partsOf, Task.parts] using h.stored n houter
    | _ => simp [valueTasks, partsOf]
  cases hstep with
  | @node own outer slots n tasks =>
    obtain ⟨hn, htasks⟩ := List.forall_mem_cons.1 hparts
    rw [partsOf_append]
    refine List.forall_mem_append.2 ⟨fun c hc => ?_, htasks⟩
    obtain ⟨t, ht, hc⟩ := List.mem_flatMap.1 hc
    exact (starts_nodeTasks (fun _ hm => hm.children) hn t ht).parts c hc
  | popOwn => exact hvalue (by simp [Moment.values]) hparts
  | popOuter => exact hvalue (by simp [Moment.values]) hparts
  | read hv => exact hvalue (List.mem_of_getElem? hv) hparts
  | @scope own outer slots nodes tasks name =>
    rw [partsOf_append, partsOf_nodes]
    exact hparts
  | _ => exact hparts

/-- Each step puts values into the layer of its task, or takes them from the top. -/
theorem layered_of_step (h : Framed exact first m) (hstep : Step m es m')
    (hexact : exact → ∀ s, .popped true (.operand s) ∉ es) :
    Layered exact m'.outer.length m'.tasks m'.own := by
  have hlayered := h.layered
  have hvalue : ∀ {v : StackValue} {tasks : List Task} {own : List StackValue} {out : Nat},
      Layered exact out tasks own → Layered exact out (valueTasks v ++ tasks) own :=
    fun {v tasks own out} h' => by
      cases v with
      | node n => exact h'.plain rfl
      | _ => exact h'
  cases hstep with
  | @node own outer slots n tasks =>
    have hn : n.WithoutLoops := h.parts n List.mem_cons_self
    refine (hlayered.tail_of_plain fun _ _ => id).plains fun t ht below => ?_
    have hstarts := starts_nodeTasks (P := Node.WithoutLoops) (fun _ hm => hm.children) hn t ht
    rw [hn.isKind] at hstarts
    exact hstarts.holds
  | @popOwn v own outer slots tasks =>
    refine hvalue ((hlayered.tail_of_plain fun _ _ => id).pop fun he => ?_)
    cases v with
    | operand s => exact absurd List.mem_cons_self (hexact he s)
    | _ => rfl
  | popOuter => exact hvalue (hlayered.tail_of_plain fun _ _ => id).popOuter
  | popNothing => exact hlayered.tail_of_plain fun _ _ => id
  | read => exact hvalue (hlayered.tail_of_plain fun _ _ => id)
  | readNothing => exact hlayered.tail_of_plain fun _ _ => id
  | push => cases hlayered with | cons ht _ => exact ht.elim
  | statement => exact .plain rfl (hlayered.goOn fun _ _ => id)
  | @keep own outer slots ids n nodes tasks text =>
    have hids : ∀ layer : List StackValue, (∀ v ∈ layer, ∃ id ∈ ids, v = .slot id) →
        ∀ v ∈ layer, ∃ id ∈ ids ++ [slots.size], v = .slot id := fun layer hlayer v hv => by
      obtain ⟨id, hid, heq⟩ := hlayer v hv
      exact ⟨id, List.mem_append_left _ hid, heq⟩
    dsimp only
    split
    · refine hlayered.put fun below layer hlayer => List.forall_mem_cons.2 ⟨?_, hids layer hlayer⟩
      exact ⟨slots.size, List.mem_append_right _ List.mem_cons_self, rfl⟩
    · exact hlayered.goOn fun below layer hlayer => hids layer hlayer
  | dropSlots =>
    rw [h.filter_outer.2]
    exact (hlayered.dropSlots h.nodup).plain rfl
  | leave => exact hlayered.goOn fun _ _ => id
  | left => exact hlayered.tail_of_plain fun _ _ => id
  | operand => exact .plain rfl (hlayered.goOn fun _ _ => id)
  | hold text =>
    refine hlayered.put fun below layer ⟨hoperands, hcount, hexact⟩ => ?_
    exact ⟨List.forall_mem_cons.2 ⟨rfl, hoperands⟩, Nat.succ_le_succ hcount,
      fun he => congrArg (· + 1) (hexact he)⟩
  | applied => exact hlayered.goOn fun _ _ => id
  | clearOwn => exact hlayered.clear
  | clearOuter =>
    obtain ⟨ht, htail⟩ := hlayered.tail_of_nil
    have hnot : ¬exact := fun he => nomatch ht.2.2 he
    exact .plain ⟨by simp, by simp, fun he => absurd he hnot⟩ htail.popOuter
  | @cleared count own outer slots tasks hend =>
    refine hlayered.cleared fun hne v hv => hend hne v ?_
    rw [List.head?_append, Option.mem_def.1 hv]
    rfl
  | @scope own outer slots nodes tasks name =>
    have hbody := hlayered.tail_of_plain fun _ _ => id
    have hname : Task.Holds exact (own.length + outer.length) (.truncate (own ++ outer).length)
        [.text name] := .inr ⟨name, rfl, List.length_append.symm⟩
    refine .plains (fun t ht below => ?_) (.cons hname hbody)
    obtain ⟨n, -, rfl⟩ := List.mem_map.1 ht
    rfl
  | @truncateOwn height v own outer slots tasks hheight =>
    rw [List.length_append] at hheight
    obtain ⟨name, rest, hown, hrest⟩ := hlayered.truncate hheight
    obtain ⟨-, rfl⟩ := List.cons.inj hown
    exact hrest
  | truncateOuter hheight =>
    obtain ⟨name, rest, hnil, -⟩ := hlayered.truncate (by simpa using hheight)
    cases hnil
  | truncated hheight => exact hlayered.truncated (by simpa using hheight)

theorem step (h : Framed exact first m) (hstep : Step m es m')
    (hexact : exact → ∀ s, .popped true (.operand s) ∉ es) : Framed exact first m' := by
  have hsuffix : ∀ v ∈ m'.outer, v ∈ m.outer := fun v hv => by
    rw [h.outer_eq hstep]
    exact List.mem_append_right _ hv
  exact ⟨h.toNumbered.step hstep, h.layered_of_step hstep hexact, h.parts_of_step hstep,
    fun n hn => h.stored n (hsuffix _ hn), fun id hid => h.older id (hsuffix _ hid)⟩

/-- A run takes values from below in their order. It clears away operands only, and none if it never
pops an operand of its own. -/
theorem run (h : Framed exact first m) (hrun : Run m es m')
    (hexact : exact → ∀ s, .popped true (.operand s) ∉ es) :
    Framed exact first m' ∧ m.outer = es.filterMap Event.outer? ++ m'.outer ∧
      ∀ v, .lost v ∈ es → v.isOperand = true ∧ ¬exact := by
  induction hrun with
  | refl m => exact ⟨h, rfl, by simp⟩
  | @head m m' m'' es es' hstep _ ih =>
    have hfirst : exact → ∀ s, .popped true (.operand s) ∉ es := fun he s hs =>
      hexact he s (List.mem_append_left _ hs)
    obtain ⟨hframed, houter, hlost⟩ := ih (h.step hstep hfirst) fun he s hs =>
      hexact he s (List.mem_append_right _ hs)
    refine ⟨hframed, ?_, fun v hv => ?_⟩
    · rw [h.outer_eq hstep, houter, List.filterMap_append, List.append_assoc]
    · exact (List.mem_append.1 hv).elim (h.lost hstep) (hlost v)

end Framed

/-- A page whose stack can lie below a form: no loop is stored there, and its slots exist. -/
structure Below (p : Page) : Prop where
  stored : ∀ n, .node n ∈ p.values → n.WithoutLoops
  older : ∀ id, .slot id ∈ p.values → id < p.slots.size

theorem framed_start {exact : Prop} {p : Page} (hp : Below p) {n : Node} (hn : n.WithoutLoops) :
    Framed exact p.slots.size ⟨[], p.values, p.slots, [.node n]⟩ where
  first_le := le_rfl
  ge := by simp [pending, Task.pending]
  lt := by simp [pending, Task.pending]
  nodup := List.nodup_nil
  layered := Layered.nil.plain rfl
  parts := by simpa [partsOf, Task.parts] using hn
  stored := hp.stored
  older := hp.older

theorem length_outer (h : ∀ v, .lost v ∉ es) :
    (es.filterMap Event.outer?).length = es.countP (·.isOuterPop) := by
  induction es with
  | nil => rfl
  | cons e es ih =>
    have ih := ih fun v hv => h v (List.mem_cons_of_mem _ hv)
    rw [List.filterMap_cons, List.countP_cons, ← ih]
    cases e with
    | popped own v => cases own <;> rfl
    | lost v => exact absurd List.mem_cons_self (h v)
    | _ => rfl

/-- A form without loops takes values from the stack below it and leaves the others as they were.
All that it takes is popped, besides operands that are cleared away with its own. That happens only
if one of its own operands is popped. -/
theorem frame_of_node {levels : Nat} {n : Node} {p p' : Page} (hn : n.WithoutLoops) (hp : Below p)
    (h : Rendering.node levels n p = some ((), p')) :
    ∃ es, Run ⟨[], p.values, p.slots, [.node n]⟩ es ⟨[], p'.values, p'.slots, []⟩ ∧
      p.values = es.filterMap Event.outer? ++ p'.values ∧
      (∀ v, .lost v ∈ es → v.isOperand = true) ∧
      ((∀ s, .popped true (.operand s) ∉ es) →
        (∀ v, .lost v ∉ es) ∧ p'.values = p.values.drop (es.countP (·.isOuterPop))) := by
  obtain ⟨es, own, outer, hvalues, hrun, -⟩ := acts_node levels n p () p' h [] p.values rfl
  have hrun := hrun []
  have hstart : Framed False _ _ := framed_start hp hn
  obtain ⟨hend, houter, hlost⟩ := hstart.run hrun nofun
  obtain rfl : own = [] := by
    cases hend.layered
    rfl
  obtain rfl : outer = p'.values := hvalues
  refine ⟨es, hrun, houter, fun v hv => (hlost v hv).1, fun hpops => ?_⟩
  obtain ⟨-, -, hnone⟩ := (framed_start hp hn).run hrun fun _ => hpops
  have hnone : ∀ v, .lost v ∉ es := fun v hv => (hnone v hv).2 trivial
  have houter : p.values = es.filterMap Event.outer? ++ p'.values := houter
  refine ⟨hnone, ?_⟩
  rw [houter, ← length_outer hnone, List.drop_left]

/-- `car` of the value on top. -/
def carOfTop : Node := .tree .unaryExprStacked [.token (.ofOpcode .car none 0)] none

theorem frame_of_node_carOfTop : carOfTop.WithoutLoops ∧
    Below { Page.start "" with values := [.text "a", .text "b"] } ∧ ∃ p' es,
      Rendering.node 2 carOfTop { Page.start "" with values := [.text "a", .text "b"] } =
        some ((), p') ∧
      Run ⟨[], [.text "a", .text "b"], #[], [.node carOfTop]⟩ es ⟨[], p'.values, p'.slots, []⟩ ∧
      [.text "a", .text "b"] = es.filterMap Event.outer? ++ p'.values := by
  have hcar : carOfTop.WithoutLoops := by
    simp [WithoutLoops, subnodes, subnodesOf, carOfTop, Node.isKind, Node.kind?]
  have hbelow : Below { Page.start "" with values := [.text "a", .text "b"] } := ⟨by simp, by simp⟩
  obtain ⟨⟨⟨⟩, p'⟩, hrender⟩ := Option.isSome_iff_exists.1
    (show (Rendering.node 2 carOfTop
      { Page.start "" with values := [.text "a", .text "b"] }).isSome = true by decide)
  obtain ⟨es, hrun, houter, -⟩ := frame_of_node hcar hbelow hrender
  exact ⟨hcar, hbelow, p', es, hrender, hrun, houter⟩

/-- The operand `b` of `cons` is also what `car` is applied to. -/
def consOfCar : Node :=
  .tree .binaryExpr [.token (.ofOpcode .varref (some (.symbol "b")) 1),
    .tree .unaryExpr [.token (.ofOpcode .stackAccess (some (.int 1)) 2),
      .token (.ofOpcode .car none 3)] none, .token (.ofOpcode .cons none 4)] none

/-- The operand `a` lies below, and the third operand reads it. -/
def asetOfCons : Node :=
  .tree .ternaryExpr [.token (.ofOpcode .varref (some (.symbol "a")) 0), consOfCar,
    .token (.ofOpcode .stackRef (some (.int 1)) 5), .token (.ofOpcode .aset none 6)] none

theorem run_consOfCar : Run ⟨[], [.operand "a"], #[], [.node consOfCar]⟩
    [.popped true (.operand "b"), .lost (.operand "a")] ⟨[], [], #[], []⟩ := by
  refine .step .node (.step .operand (.step .node (.step (.hold "b") ?_)))
  refine .step .operand (.step .node (.step .node (.head .popOwn ?_)))
  refine .step (.hold "(car b)") (.step .applied (.step (.clearOwn rfl) ?_))
  exact .head (.clearOuter rfl) (.step (.cleared (by simp)) (.single .node))

/-- Two operands are cleared away, although `car` has popped one: the other is the `a` below, which
no pop has taken. -/
theorem operand_lost_consOfCar : consOfCar.WithoutLoops ∧ asetOfCons.WithoutLoops ∧
    (∃ page es, Rendering.node 3 consOfCar { Page.start "" with values := [.operand "a"] } =
        some ((), page) ∧ page.values = [] ∧
      Run ⟨[], [.operand "a"], #[], [.node consOfCar]⟩ es ⟨[], page.values, page.slots, []⟩ ∧
      es.countP (·.isOuterPop) = 0) ∧
    ∃ source, asetOfCons.render "" = .ok source ∧
      source.text = "(aset a (cons b (car b)) <empty-stack>)" := by
  have hcons : consOfCar.WithoutLoops := by
    simp [WithoutLoops, subnodes, subnodesOf, consOfCar, Node.isKind, Node.kind?]
  have haset : asetOfCons.WithoutLoops := by
    simp [WithoutLoops, subnodes, subnodesOf, asetOfCons, consOfCar, Node.isKind, Node.kind?]
  have hpage : (Rendering.node 3 consOfCar { Page.start "" with values := [.operand "a"] }).any
      (fun end_ => end_.2.values.isEmpty && end_.2.slots.isEmpty) = true := by
    decide +kernel
  have hsource : (asetOfCons.render "").toOption.any
      (·.text = "(aset a (cons b (car b)) <empty-stack>)") = true := by
    decide +kernel
  obtain ⟨⟨⟨⟩, page⟩, hrender, hend⟩ := (Option.any_eq_true _ _).1 hpage
  obtain ⟨hvalues, hslots⟩ := Bool.and_eq_true_iff.1 hend
  obtain ⟨source, hrender', htext⟩ := exists_ok_of_any hsource
  have hvalues : page.values = [] := List.isEmpty_iff.1 hvalues
  have hslots : page.slots = #[] := Array.isEmpty_iff.1 hslots
  have hrun : Run ⟨[], [.operand "a"], #[], [.node consOfCar]⟩
      [.popped true (.operand "b"), .lost (.operand "a")] ⟨[], page.values, page.slots, []⟩ := by
    rw [hvalues, hslots]
    exact run_consOfCar
  exact ⟨hcons, haset, ⟨page, _, hrender, hvalues, hrun, rfl⟩, source, hrender',
    of_decide_eq_true htext⟩

end Stack

end ElispLift
