import ElispLift.Proofs.Stack.Steps

/-!
# Renderings as runs

A rendering does tasks if it leads from any page to one that a run through these tasks leads to.
Renderings one after the other do their tasks one after the other, and what only writes does none.
Values are read, and statements and operands are kept, by the steps that are there for it.
-/

namespace ElispLift.Stack

open Node Rendering

variable {α β : Type} {ts us : List Task} {render : Node → Rendering Unit} {node : Node}
  {own outer : List StackValue} {depth : Nat}

/-- The rendering does the tasks, and reads of slots without a text are noted by the run. -/
def Does (tasks : List Task) (x : Rendering α) : Prop :=
  ∀ p a p', x p = some (a, p') → ∀ own outer, own ++ outer = p.values →
    ∃ es own' outer', own' ++ outer' = p'.values ∧
      (∀ rest, Run ⟨own, outer, p.slots, tasks ++ rest⟩ es ⟨own', outer', p'.slots, rest⟩) ∧
      ∀ id, .consumedSlot id ∈ p'.issues → .consumedSlot id ∈ p.issues ∨ .gone id ∈ es

namespace Does

theorem bind {x : Rendering α} {f : α → Rendering β} (hx : Does ts x) (hf : ∀ a, Does us (f a)) :
    Does (ts ++ us) (x >>= f) := by
  intro p b p'' hrun own outer hp
  obtain ⟨a, p', ha, hb⟩ := exists_of_run_bind hrun
  obtain ⟨es, own', outer', hp', hfirst, hissues⟩ := hx p a p' ha own outer hp
  obtain ⟨es', own'', outer'', hp'', hlater, hissues'⟩ := hf a p' b p'' hb own' outer' hp'
  refine ⟨es ++ es', own'', outer'', hp'', fun rest => ?_, fun id hid => ?_⟩
  · rw [List.append_assoc]
    exact (hfirst _).trans (hlater rest)
  · rcases hissues' id hid with hid | hid
    · exact (hissues id hid).imp_right fun h => List.mem_append_left _ h
    · exact .inr (List.mem_append_right _ hid)

/-- A rendering that does nothing, and what follows. -/
theorem after {x : Rendering α} {f : α → Rendering β} (hx : Does [] x) (hf : ∀ a, Does ts (f a)) :
    Does ts (x >>= f) := hx.bind hf

/-- What follows does nothing. -/
theorem andNothing {x : Rendering α} {f : α → Rendering β} (hx : Does ts x)
    (hf : ∀ a, Does [] (f a)) : Does ts (x >>= f) := by
  simpa using hx.bind hf

theorem pure (a : α) : Does [] (pure a) := by
  intro p b p' hrun own outer hp
  cases hrun
  exact ⟨[], own, outer, hp, fun _ => .refl _, fun _ => .inl⟩

/-- What depends on the page. -/
theorem get_bind {f : Page → Rendering β} (hf : ∀ p, Does ts (f p)) : Does ts (get >>= f) :=
  fun p b p' hrun => hf p p b p' hrun

/-- A change of the page besides its stack and its slots. -/
theorem modify {f : Page → Page} (hvalues : ∀ p, (f p).values = p.values)
    (hslots : ∀ p, (f p).slots = p.slots) (hissues : ∀ p, (f p).issues = p.issues) :
    Does [] (modify f) := by
  intro p a p' hrun own outer hp
  cases hrun
  refine ⟨[], own, outer, hp.trans (hvalues p).symm, fun rest => ?_, fun id hid => .inl ?_⟩
  · rw [hslots]
    exact .refl _
  · rwa [hissues] at hid

theorem issue {i : Issue} (h : ∀ id, i ≠ .consumedSlot id) : Does [] (issue i) := by
  intro p a p' hrun own outer hp
  cases hrun
  refine ⟨[], own, outer, hp, fun rest => .refl _, fun id hid => .inl ?_⟩
  exact (List.mem_append.1 hid).resolve_right fun hid => h id (List.mem_singleton.1 hid).symm

theorem write (s : String) : Does [] (write s) := modify (fun _ => rfl) (fun _ => rfl) fun _ => rfl

theorem newline : Does [] newline := modify (fun _ => rfl) (fun _ => rfl) fun _ => rfl

theorem indentTo (indent : Page → String) : Does [] (indentTo indent) :=
  modify (fun _ => rfl) (fun _ => rfl) fun _ => rfl

theorem missing {n : Option Nat} : Does [] (missing node n) :=
  (issue (by simp)).after fun _ => write _

theorem dedent : Does [] dedent := by
  refine .get_bind fun p => ?_
  split
  · exact modify (fun _ => rfl) (fun _ => rfl) fun _ => rfl
  · exact issue (by simp)

theorem openForm : Does [] openForm := by
  refine .get_bind fun p => ?_
  split
  · exact newline.after fun _ => write "("
  · exact (pure ()).after fun _ => write "("

theorem closeForm : Does [] closeForm := (write ")").after fun _ => dedent

/-- A page of its own has the same stack and the same slots. -/
theorem capture {x : Rendering Unit} (hx : Does ts x) : Does ts (capture x) := by
  intro p s p' hrun own outer hp
  obtain ⟨⟨⟨⟩, inner⟩, hinner, hrest⟩ := Option.bind_eq_some_iff.1
    (show (x { p with text := "", startColumn := p.indent.utf8ByteSize }).bind _ = some (s, p')
      from hrun)
  cases hrest
  exact hx _ () inner hinner own outer hp

theorem withUnquoted {x : Rendering α} {unquoted : Bool} (hx : Does ts x) :
    Does ts (withUnquoted unquoted x) := by
  intro p a p' hrun own outer hp
  obtain ⟨⟨result, inner⟩, hinner, hrest⟩ := Option.bind_eq_some_iff.1
    (show (x { p with unquoted }).bind _ = some (a, p') from hrun)
  cases hrest
  exact hx _ a inner hinner own outer hp

theorem push (v : StackValue) : Does [.push v] (push v) := by
  intro p a p' hrun own outer hp
  cases hrun
  exact ⟨[], v :: own, outer, by simp [hp], fun rest => .single .push, fun _ => .inl⟩

end Does

theorem does_lastPart {part : Rendering Unit} (h : Does ts part) : Does ts (lastPart part) :=
  (Does.indentTo _).after fun _ => Does.newline.after fun _ => h.andNothing fun _ => .closeForm

theorem does_arguments (texts : List String) : Does [] (writeArguments texts) := by
  induction texts with
  | nil => exact .write _
  | cons text rest ih => exact (Does.write _).after fun _ => ih

/-! ### Values -/

/-- Every node is rendered by steps of its own. -/
def Acts (render : Node → Rendering Unit) : Prop := ∀ n, Does [.node n] (render n)

/-- What becomes of a page when a slot is read. -/
theorem run_readSlot {take : Bool} {id : Nat} {p p' : Page} {s : String}
    (h : valueText render take (.slot id) p = some (s, p')) :
    p'.values = p.values ∧ p'.slots = (if take then slotsWithout p.slots (.slot id) else p.slots) ∧
      ∀ i, .consumedSlot i ∈ p'.issues → .consumedSlot i ∈ p.issues ∨
        .gone i ∈ readEvents take p.slots (.slot id) := by
  have hread : ∃ q : Page, (if take then takeSlot id else readSlot id : Rendering _) p =
      some ((p.slots[id]?).join, q) ∧ q.values = p.values ∧ q.issues = p.issues ∧
      q.slots = (if take then slotsWithout p.slots (.slot id) else p.slots) := by
    cases take
    · exact ⟨p, rfl, rfl, rfl, rfl⟩
    · exact ⟨{ p with slots := p.slots.setIfInBounds id none }, rfl, rfl, rfl, rfl⟩
  obtain ⟨q, hq, hvalues, hissues, hslots⟩ := hread
  rw [show valueText render take (.slot id) = ((if take then takeSlot id else readSlot id) >>= _)
    by cases take <;> rfl] at h
  rw [run_bind hq] at h
  cases htext : (p.slots[id]?).join with
  | some text =>
    rw [htext] at h
    cases h
    exact ⟨hvalues, hslots, fun i hi => .inl (hissues ▸ hi)⟩
  | none =>
    rw [htext] at h
    cases h
    refine ⟨hvalues, hslots, fun i hi => ?_⟩
    have hboth : .consumedSlot i ∈ q.issues ++ [.consumedSlot id] := hi
    rw [hissues] at hboth
    refine (List.mem_append.1 hboth).imp_right fun hi => ?_
    obtain rfl := Issue.consumedSlot.inj (List.mem_singleton.1 hi)
    simp [readEvents, htext]

section values

variable (hrender : Acts render)

include hrender

/-- A value is read by the steps of its node. -/
theorem run_valueText {take : Bool} {v : StackValue} {p p' : Page} {s : String}
    (h : valueText render take v p = some (s, p')) (hp : own ++ outer = p.values) :
    ∃ es own' outer', own' ++ outer' = p'.values ∧
      (∀ rest, Run ⟨own, outer, if take then slotsWithout p.slots v else p.slots,
        valueTasks v ++ rest⟩ es ⟨own', outer', p'.slots, rest⟩) ∧
      ∀ id, .consumedSlot id ∈ p'.issues → .consumedSlot id ∈ p.issues ∨
        .gone id ∈ readEvents take p.slots v ++ es := by
  have hslots : (∀ id, v ≠ .slot id) →
      (if take then slotsWithout p.slots v else p.slots) = p.slots := fun hv => by
    cases take <;> cases v <;> simp_all [slotsWithout]
  cases v with
  | text s | operand s =>
    rw [hslots (by simp)]
    cases h
    exact ⟨[], own, outer, hp, fun rest => .refl _, fun id => .inl⟩
  | node n =>
    rw [hslots (by simp)]
    obtain ⟨es, own', outer', hp', hrun, hissues⟩ := (hrender n).capture p s p' h own outer hp
    exact ⟨es, own', outer', hp', hrun, fun id hid =>
      (hissues id hid).imp_right fun h => List.mem_append_right _ h⟩
  | slot id =>
    obtain ⟨hvalues, hslots, hissues⟩ := run_readSlot h
    refine ⟨[], own, outer, hp.trans hvalues.symm, fun rest => ?_, fun i hi => ?_⟩
    · rw [← hslots]
      exact .refl _
    · exact (hissues i hi).imp_right fun h => List.mem_append_left _ h

theorem does_pop : Does [.pop] (pop render) := by
  intro p s p' hrun own outer hp
  rw [pop, run_bind (show (get : Rendering Page) p = some (p, p) from rfl)] at hrun
  cases hvalues : p.values with
  | nil =>
    rw [hvalues] at hrun hp
    obtain ⟨rfl, rfl⟩ := List.append_eq_nil_iff.1 hp
    cases hrun
    refine ⟨[], [], [], hvalues.symm, fun rest => .single .popNothing, fun id hid => .inl ?_⟩
    exact (List.mem_append.1 hid).resolve_right (by simp)
  | cons v values =>
    rw [hvalues] at hrun hp
    obtain ⟨⟨⟩, q, hq, hrun⟩ := exists_of_run_bind hrun
    cases hq
    cases own with
    | nil =>
      obtain rfl : outer = v :: values := hp
      obtain ⟨es, own', outer', hp', hsteps, hissues⟩ :=
        run_valueText hrender hrun (List.nil_append values)
      refine ⟨_, own', outer', hp', fun rest => .head .popOuter (hsteps rest), fun id hid => ?_⟩
      exact (hissues id hid).imp_right fun h => List.mem_cons_of_mem _ h
    | cons w own =>
      obtain ⟨rfl, htail⟩ := List.cons.inj hp
      obtain ⟨es, own', outer', hp', hsteps, hissues⟩ :=
        run_valueText hrender hrun htail
      refine ⟨_, own', outer', hp', fun rest => .head .popOwn (hsteps rest), fun id hid => ?_⟩
      exact (hissues id hid).imp_right fun h => List.mem_cons_of_mem _ h

/-- The value at a depth is read, or noted to be missing. -/
theorem does_read {depth : Nat} {i : Issue} (hi : ∀ id, i ≠ .consumedSlot id) :
    Does [.read depth] (do
      match (← get).values[depth]? with
      | some v => valueText render false v
      | none =>
        issue i
        return missingText) := by
  intro p s p' hrun own outer hp
  rw [run_bind (show (get : Rendering Page) p = some (p, p) from rfl)] at hrun
  cases hv : p.values[depth]? with
  | none =>
    rw [hv] at hrun
    cases hrun
    refine ⟨[], own, outer, hp, fun rest => .single (.readNothing (by rw [hp, hv])), fun id hid =>
      .inl ?_⟩
    exact (List.mem_append.1 hid).resolve_right fun hid => hi id (List.mem_singleton.1 hid).symm
  | some v =>
    rw [hv] at hrun
    obtain ⟨es, own', outer', hp', hsteps, hissues⟩ := run_valueText hrender hrun hp
    exact ⟨_, own', outer', hp', fun rest => .head (.read (by rw [hp, hv])) (hsteps rest), hissues⟩

theorem does_peek : Does [.read 0] (peek render) := by
  have hempty : ∀ id, Issue.readOfEmpty ≠ .consumedSlot id := by simp
  refine fun p s p' hrun => does_read hrender hempty p s p' ?_
  rw [← hrun, peek, run_bind (show (get : Rendering Page) p = some (p, p) from rfl),
    run_bind (show (get : Rendering Page) p = some (p, p) from rfl)]
  cases p.values <;> rfl

theorem does_stackRef {offset : Nat} : Does [.read depth] (stackRef render depth offset) :=
  does_read hrender (by simp)

theorem does_instruction (i : Instruction) : Does (instructionTasks i) (instruction render i) := by
  refine Does.andNothing ?_ fun s => .write s
  have hnothing : i.kind ≠ .fixed .dup → i.kind ≠ .fixed .stackRef → instructionTasks i = [] :=
    fun hdup href => by
      unfold instructionTasks
      split <;> simp_all
  unfold instructionText
  split
  case h_2 hkind =>
    rw [hnothing (by simp [hkind]) (by simp [hkind])]
    exact .get_bind fun _ => .pure _
  case h_6 hkind =>
    rw [instructionTasks, hkind]
    exact does_peek hrender
  case h_7 hkind =>
    rw [instructionTasks, hkind]
    exact does_stackRef hrender
  case h_8 op hdup href hkind =>
    rw [hnothing (by simpa [hkind] using hdup) (by simpa [hkind] using href)]
    exact .pure _
  all_goals
    next hkind =>
      rw [hnothing (by simp [hkind]) (by simp [hkind])]
      exact .pure _

end values

/-! ### Lists of statements -/

/-- Statements are rendered one after the other, each into a new slot, with the texts in `kept`. -/
inductive Captured (render : Node → Rendering Unit) : List Node → Page → List (Nat × String) →
    Page → Prop
  | nil (p : Page) : Captured render [] p [] p
  | cons {node : Node} {rest : List Node} {p q p' : Page} {text : String}
    {kept : List (Nat × String)} (hnode : capture (render node) p = some (text, q))
    (hrest : Captured render rest { q with
      slots := q.slots.push (some text)
      values := if node.keepsValue then .slot q.slots.size :: q.values else q.values } kept p') :
    Captured render (node :: rest) p ((q.slots.size, text) :: kept) p'

theorem captured_of_toSlots {nodes : List Node} {p p' : Page} {ids : List Nat}
    (h : toSlots render nodes p = some (ids, p')) :
    ∃ kept, ids = kept.map (·.1) ∧ Captured render nodes p kept p' := by
  induction nodes generalizing p ids with
  | nil =>
    cases h
    exact ⟨[], rfl, .nil _⟩
  | cons node rest ih =>
    obtain ⟨text, q, hnode, h⟩ := exists_of_run_bind h
    obtain ⟨id, q', hid, h⟩ := exists_of_run_bind h
    cases hid
    dsimp only at h
    have hlater : ∃ later, ids = q.slots.size :: later ∧ toSlots render rest { q with
        slots := q.slots.push (some text)
        values := if node.keepsValue then .slot q.slots.size :: q.values else q.values } =
        some (later, p') := by
      split at h
      next hkeeps =>
        obtain ⟨⟨⟩, q', hpush, h⟩ := exists_of_run_bind h
        cases hpush
        obtain ⟨later, p'', hlater, h⟩ := exists_of_run_bind h
        cases h
        exact ⟨later, rfl, by rwa [if_pos hkeeps]⟩
      next hkeeps =>
        obtain ⟨later, p'', hlater, h⟩ := exists_of_run_bind h
        cases h
        exact ⟨later, rfl, by rwa [if_neg hkeeps]⟩
    obtain ⟨later, rfl, hlater⟩ := hlater
    obtain ⟨kept, rfl, hkept⟩ := ih hlater
    exact ⟨_ :: kept, rfl, .cons hnode hkept⟩

section lists

variable (hrender : Acts render)

include hrender

/-- The statements of a list are rendered by its steps, and the texts are kept. -/
theorem run_captured {nodes : List Node} {p p' : Page} {kept : List (Nat × String)}
    (h : Captured render nodes p kept p') (hp : own ++ outer = p.values) :
    ∃ es own' outer', own' ++ outer' = p'.values ∧
      (∀ ids rest, Run ⟨own, outer, p.slots, .statements ids nodes :: rest⟩ es
        ⟨own', outer', p'.slots, .statements (ids ++ kept.map (·.1)) [] :: rest⟩) ∧
      (∀ id, .consumedSlot id ∈ p'.issues → .consumedSlot id ∈ p.issues ∨ .gone id ∈ es) ∧
      ∀ k ∈ kept, .kept k.1 k.2 ∈ es := by
  induction h generalizing own outer with
  | nil p =>
    exact ⟨[], own, outer, hp, fun ids rest => by simpa using .refl _, fun _ => .inl, by simp⟩
  | @cons node rest p q p' text kept hnode _ ih =>
    obtain ⟨es, own', outer', hq, hfirst, hissues⟩ :=
      (hrender node).capture p text q hnode own outer hp
    obtain ⟨es', own'', outer'', hp', hlater, hissues', hkept⟩ :=
      @ih (if node.keepsValue then .slot q.slots.size :: own' else own') outer'
        (by rw [← hq]; split <;> rfl)
    refine ⟨es ++ ([.kept q.slots.size text] ++ es'), own'', outer'', hp', fun ids tasks => ?_,
      fun id hid => ?_, ?_⟩
    · have hrest := hlater (ids ++ [q.slots.size]) tasks
      rw [List.append_assoc] at hrest
      exact .step .statement ((hfirst _).trans (.head (.keep text) hrest))
    · rcases hissues' id hid with hid | hid
      · exact (hissues id hid).imp_right fun h => List.mem_append_left _ h
      · exact .inr (by simp [hid])
    · refine List.forall_mem_cons.2 ⟨by simp, fun k hk => ?_⟩
      exact List.mem_append_right _ (List.mem_append_right _ (hkept k hk))

end lists

/-- What is left in slots, in the order of the list. -/
def leftIn (slots : Array (Option String)) : List Nat → List (Nat × String)
  | [] => []
  | id :: ids =>
    (slots[id]?.join.map (id, ·)).toList ++ leftIn (slots.setIfInBounds id none) ids

/-- The texts that are left are printed unless they are empty. -/
theorem run_leftOver {ids : List Nat} {p p' : Page} {texts : List String}
    (h : leftOver ids p = some (texts, p')) :
    texts = ((leftIn p.slots ids).map (·.2)).filter (!·.isEmpty) ∧ p'.values = p.values ∧
      p'.issues = p.issues ∧ p'.text = p.text ∧ p'.indent = p.indent ∧
      ∀ own outer rest, Run ⟨own, outer, p.slots, .leave ids :: rest⟩
        ((leftIn p.slots ids).map fun k => .printed k.1 k.2) ⟨own, outer, p'.slots, rest⟩ := by
  induction ids generalizing p p' texts with
  | nil =>
    cases h
    exact ⟨rfl, rfl, rfl, rfl, rfl, fun _ _ _ => .single .left⟩
  | cons id ids ih =>
    obtain ⟨text, q, hid, h⟩ := exists_of_run_bind h
    cases hid
    obtain ⟨later, q, hlater, h⟩ := exists_of_run_bind h
    obtain ⟨rfl, hvalues, hissues, htext, hindent, hrun⟩ := ih hlater
    have hend : p' = q ∧ texts = ((leftIn p.slots (id :: ids)).map (·.2)).filter (!·.isEmpty) := by
      dsimp only at h
      cases htaken : p.slots[id]?.join with
      | none =>
        rw [htaken] at h
        cases h
        simp [leftIn, htaken]
      | some s =>
        rw [htaken] at h
        dsimp only at h
        split at h
        all_goals
          next hempty =>
            cases h
            simp [leftIn, htaken, hempty]
    obtain ⟨rfl, rfl⟩ := hend
    refine ⟨rfl, hvalues, hissues, htext, hindent, fun own outer rest => ?_⟩
    have hrest := Run.head (Step.leave) (hrun own outer rest)
    convert hrest using 1
    cases htaken : p.slots[id]?.join <;> simp [leftIn, htaken]

/-- A capture leaves the text of the page alone. -/
theorem Captured.text_eq {nodes : List Node} {p p' : Page} {kept : List (Nat × String)}
    (h : Captured render nodes p kept p') : p'.text = p.text := by
  induction h with
  | nil p => rfl
  | @cons node rest p q p' text kept hnode _ ih =>
    obtain ⟨⟨⟨⟩, inner⟩, -, hend⟩ := Option.bind_eq_some_iff.1
      (show (render node { p with text := "", startColumn := p.indent.utf8ByteSize }).bind _ =
        some (text, q) from hnode)
    cases hend
    exact ih

/-- How a list of statements comes to its end: all are captured, their slots are taken off the
stack, and the texts that are left there are printed. -/
structure Listed (render : Node → Rendering Unit) (nodes : List Node) (p p' : Page)
    (kept : List (Nat × String)) (q : Page) : Prop where
  captured : Captured render nodes p kept q
  values : p'.values = q.values.filter (!isSlotOf (kept.map (·.1)) ·)
  text : p'.text = p.text ++ ("\n" ++ p'.indent).intercalate
    (((leftIn q.slots (kept.map (·.1))).map (·.2)).filter (!·.isEmpty))
  issues : p'.issues = q.issues
  run_leave : ∀ own outer rest, Run ⟨own, outer, q.slots, .leave (kept.map (·.1)) :: rest⟩
    ((leftIn q.slots (kept.map (·.1))).map fun k => .printed k.1 k.2)
    ⟨own, outer, p'.slots, rest⟩

theorem exists_listed {nodes : List Node} {p p' : Page}
    (h : statements render nodes p = some ((), p')) :
    ∃ kept q, Listed render nodes p p' kept q := by
  obtain ⟨ids, q, hids, h⟩ := exists_of_run_bind h
  obtain ⟨kept, rfl, hkept⟩ := captured_of_toSlots hids
  obtain ⟨⟨⟩, q', hdrop, h⟩ := exists_of_run_bind h
  cases hdrop
  obtain ⟨texts, q', hleft, h⟩ := exists_of_run_bind h
  obtain ⟨rfl, hvalues, hissues, htext, -, hrun⟩ := run_leftOver hleft
  cases h
  refine ⟨kept, q, hkept, hvalues, ?_, hissues, hrun⟩
  rw [← hkept.text_eq]
  exact congrArg (· ++ _) htext

section statements

variable (hrender : Acts render)

include hrender

/-- A list of statements is rendered by its steps up to the point where all are captured. -/
theorem Listed.exists_run {nodes : List Node} {p p' q : Page} {kept : List (Nat × String)}
    (h : Listed render nodes p p' kept q) (hp : own ++ outer = p.values) :
    ∃ es own' outer', own' ++ outer' = q.values ∧
      (∀ rest, Run ⟨own, outer, p.slots, .statements [] nodes :: rest⟩ es
        ⟨own', outer', q.slots, .statements (kept.map (·.1)) [] :: rest⟩) ∧
      (∀ id, .consumedSlot id ∈ q.issues → .consumedSlot id ∈ p.issues ∨ .gone id ∈ es) ∧
      ∀ k ∈ kept, .kept k.1 k.2 ∈ es := by
  obtain ⟨es, own', outer', hq, hrun, hissues, hkept⟩ := run_captured hrender h.captured hp
  exact ⟨es, own', outer', hq, fun rest => by simpa using hrun [] rest, hissues, hkept⟩

theorem does_statements (nodes : List Node) :
    Does [.statements [] nodes] (statements render nodes) := by
  rintro p ⟨⟩ p' hrun own outer hp
  obtain ⟨kept, q, hlisted⟩ := exists_listed hrun
  obtain ⟨es, own', outer', hq, hsteps, hissues, -⟩ := hlisted.exists_run hrender hp
  refine ⟨_, own'.filter (!isSlotOf (kept.map (·.1)) ·), outer'.filter _, ?_, fun rest =>
    (hsteps rest).trans (.head .dropSlots (hlisted.run_leave _ _ rest)), fun id hid => ?_⟩
  · rw [hlisted.values, ← hq, List.filter_append]
  · rw [hlisted.issues] at hid
    exact (hissues id hid).imp_right fun h => List.mem_append_left _ h

end statements

/-! ### Operands and bodies -/

section operands

variable (hrender : Acts render)

include hrender

/-- Operands are held on the stack one after the other. -/
theorem run_toOperands {nodes : List Node} {firstUnquoted : Bool} {texts : List String}
    {p p' : Page} (h : toOperands render firstUnquoted nodes p = some (texts, p'))
    (hp : own ++ outer = p.values) :
    ∃ es own' outer', own' ++ outer' = p'.values ∧
      (∀ count rest, Run ⟨own, outer, p.slots, .operands count nodes :: rest⟩ es
        ⟨own', outer', p'.slots, .operands (count + texts.length) [] :: rest⟩) ∧
      ∀ id, .consumedSlot id ∈ p'.issues → .consumedSlot id ∈ p.issues ∨ .gone id ∈ es := by
  induction nodes generalizing firstUnquoted texts p own outer with
  | nil =>
    cases h
    exact ⟨[], own, outer, hp, fun _ _ => .refl _, fun _ => .inl⟩
  | cons node rest ih =>
    obtain ⟨text, q, hnode, h⟩ := exists_of_run_bind h
    obtain ⟨⟨⟩, q', hpush, h⟩ := exists_of_run_bind h
    cases hpush
    obtain ⟨later, p'', hlater, h⟩ := exists_of_run_bind h
    cases h
    obtain ⟨es, own', outer', hq, hfirst, hissues⟩ :=
      (hrender node).capture.withUnquoted p text q hnode own outer hp
    obtain ⟨es', own'', outer'', hp', hrest, hissues'⟩ :=
      ih hlater (show (.operand text :: own') ++ outer' = _ by simp [hq])
    refine ⟨es ++ es', own'', outer'', hp', fun count tasks => ?_, fun id hid => ?_⟩
    · have hheld := hrest (count + 1) tasks
      rw [Nat.add_right_comm] at hheld
      exact .step .operand ((hfirst _).trans (.step (.hold text) hheld))
    · rcases hissues' id hid with hid | hid
      · exact (hissues id hid).imp_right fun h => List.mem_append_left _ h
      · exact .inr (List.mem_append_right _ hid)

end operands

/-- Operands are cleared away from the top of the stack. -/
theorem exists_run_clear (count : Nat) (own outer : List StackValue) :
    ∃ es own' outer', own' ++ outer' = dropOperands count (own ++ outer) ∧
      ∀ slots rest, Run ⟨own, outer, slots, .clear count :: rest⟩ es
        ⟨own', outer', slots, rest⟩ := by
  induction count generalizing own outer with
  | zero => exact ⟨[], own, outer, by simp [dropOperands], fun _ _ => .single (.cleared (by simp))⟩
  | succ count ih =>
    have hstop : ∀ v values, own ++ outer = v :: values → v.isOperand = false →
        ∃ es own' outer', own' ++ outer' = dropOperands (count + 1) (own ++ outer) ∧
          ∀ slots rest, Run ⟨own, outer, slots, .clear (count + 1) :: rest⟩ es
            ⟨own', outer', slots, rest⟩ := fun v values hvalues hv =>
      ⟨[], own, outer, by simp [hvalues, dropOperands, hv],
        fun _ _ => .single (.cleared (by simp [hvalues, hv]))⟩
    cases own with
    | nil =>
      cases outer with
      | nil => exact ⟨[], [], [], rfl, fun _ _ => .single (.cleared (by simp))⟩
      | cons v outer =>
        cases hv : v.isOperand with
        | false => exact hstop v outer rfl hv
        | true =>
          obtain ⟨es, own', outer', hvalues, hrun⟩ := ih [] outer
          exact ⟨_, own', outer', by simpa [dropOperands, hv] using hvalues,
            fun slots rest => .head (.clearOuter hv) (hrun slots rest)⟩
    | cons v own =>
      cases hv : v.isOperand with
      | false => exact hstop v (own ++ outer) rfl hv
      | true =>
        obtain ⟨es, own', outer', hvalues, hrun⟩ := ih own outer
        exact ⟨_, own', outer', by simpa [dropOperands, hv] using hvalues,
          fun slots rest => .head (.clearOwn hv) (hrun slots rest)⟩

/-- Values are taken off until the stack is as high as before. -/
theorem exists_run_truncate (height : Nat) (own outer : List StackValue) :
    ∃ es own' outer', own' ++ outer' = (own ++ outer).drop ((own ++ outer).length - height) ∧
      ∀ slots rest, Run ⟨own, outer, slots, .truncate height :: rest⟩ es
        ⟨own', outer', slots, rest⟩ := by
  generalize hextra : (own ++ outer).length - height = extra
  induction extra generalizing own outer with
  | zero => exact ⟨[], own, outer, rfl, fun _ _ => .single (.truncated (by omega))⟩
  | succ extra ih =>
    cases own with
    | nil =>
      cases outer with
      | nil => simp at hextra
      | cons v outer =>
        have hlength : (v :: outer).length = outer.length + 1 := rfl
        rw [List.nil_append] at hextra
        obtain ⟨es, own', outer', hvalues, hrun⟩ := ih [] outer (by rw [List.nil_append]; omega)
        exact ⟨_, own', outer', hvalues,
          fun slots rest => .head (.truncateOuter (by omega)) (hrun slots rest)⟩
    | cons v own =>
      have hlength : (v :: own ++ outer).length = (own ++ outer).length + 1 := rfl
      obtain ⟨es, own', outer', hvalues, hrun⟩ := ih own outer (by omega)
      exact ⟨_, own', outer', hvalues,
        fun slots rest => .head (.truncateOwn (by omega)) (hrun slots rest)⟩

end ElispLift.Stack
