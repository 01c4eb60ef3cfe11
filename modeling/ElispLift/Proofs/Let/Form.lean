import Mathlib.Data.List.Induction
import ElispLift.Proofs.Let.Readings
import ElispLift.Proofs.StraightLine.Blocks

/-!
# Forms that bind variables

Variables that are bound one after the other, around statements and a value. The code computes each
value and binds it, runs the body, and then takes the bindings back and returns the value that the
body left. The Lisp text has a line for each binding, and one for each statement of the body.
-/

namespace ElispLift.Let

open StraightLine

/-- A variable and the expression it is bound to. -/
structure Binding where
  name : String
  value : Expr

namespace Binding

def code (b : Binding) : List (OpKind × Option Operand) :=
  b.value.code ++ [(.fixed .varbind, some (.symbol b.name))]

def lisp (b : Binding) : String := "(" ++ b.name ++ " " ++ b.value.lisp ++ ")"

/-- The node is that of the binding. -/
def Shows (b : Binding) (node : Node) : Prop :=
  ∃ (i : Instruction) (tree : Node), Spells i (.fixed .varbind, some (.symbol b.name)) ∧
    b.value.Shows tree ∧ node = .plain .varbind [tree, .token i]

end Binding

/-- Bindings around a body. -/
structure Form where
  bindings : List Binding
  body : Program

/-- A form up to the first of its bindings. -/
def headOf (count : Nat) : String := "(" ++ ((if count = 1 then "let " else "let* ") ++ "(")

namespace Form

def WellFormed (f : Form) : Prop :=
  f.bindings ≠ [] ∧ (∀ b ∈ f.bindings, b.value.WellFormed) ∧ f.body.WellFormed

def code (f : Form) : List (OpKind × Option Operand) :=
  f.bindings.flatMap (·.code) ++ (f.body.parts.flatten ++
    [(.fixed .unbind, some (.int f.bindings.length)), (.fixed .ret, none)])

/-- The bindings stand below one another, and the body is indented. -/
def lisp (indent : String) (f : Form) : String :=
  headOf f.bindings.length ++
    ("\n" ++ Text.spaces (indent.utf8ByteSize +
      (headOf f.bindings.length).utf8ByteSize)).intercalate (f.bindings.map (·.lisp)) ++ ")" ++
    "\n" ++ (indent ++ "  ") ++ ("\n" ++ (indent ++ "  ")).intercalate f.body.lines ++ ")"

end Form

/-- Instructions that spell the code of a form, at ascending offsets. -/
structure Compiled (f : Form) (is : List Instruction) : Prop where
  spells : List.Forall₂ Spells is f.code
  ascending : is.Pairwise fun i j => i.offset < j.offset

variable {tokens is front rest : List Instruction} {st : Nat → State} {p : Nat} {bs : List Binding}
  {b : Binding} {i : Instruction} {s s' : State}

/-! ### Runs -/

/-- The code of a binding computes its value and takes it from the stack. -/
theorem run_binding (p : Nat) (hwf : b.value.WellFormed) (h : List.Forall₂ Spells is b.code) :
    ∃ js i tree, is = js ++ [i] ∧ Spells i (.fixed .varbind, some (.symbol b.name)) ∧
      b.value.Shows tree ∧ Run p js .start ⟨[⟨p, tree⟩], []⟩ := by
  obtain ⟨js, i, rfl, hjs, hi⟩ := spells_snoc h
  obtain ⟨tree, htree, hrun⟩ := run_expr b.value p [] [] hwf hjs
  exact ⟨js, i, tree, rfl, hi, htree, hrun⟩

/-- Bindings leave the stack empty, and find their values on it. -/
theorem walk_bindings (p : Nat) (hwf : ∀ b ∈ bs, b.value.WellFormed)
    (h : List.Forall₂ Spells is (bs.flatMap (·.code))) :
    Walk p is .start .start ∧ (∀ i ∈ is, Stays i) ∧
      ∀ rest, Feeds 0 rest → Feeds 0 (is ++ rest) := by
  induction bs generalizing p is with
  | nil =>
    rw [List.flatMap_nil, List.forall₂_nil_right_iff] at h
    subst h
    exact ⟨.nil _ _, by simp, fun rest hrest => hrest⟩
  | cons b bs ih =>
    rw [List.flatMap_cons] at h
    obtain ⟨js, ks, rfl, hjs, hks⟩ := spells_append h
    obtain ⟨js, i, tree, rfl, hi, -, hrun⟩ := run_binding p (hwf b (by simp)) hjs
    obtain ⟨hwalk, hstays, hfeeds⟩ :=
      ih (p + (js ++ [i]).length) (fun b' hb' => hwf b' (List.mem_cons_of_mem _ hb')) hks
    have hcontrol : isStep i.kind = false := by rw [hi.1]; rfl
    have hlast : Walk (p + js.length) [i] ⟨[⟨p, tree⟩], []⟩ .start :=
      .cons (.restart hcontrol (Nat.le_refl 1)) (.nil _ _)
    refine ⟨((Walk.of_run hrun).append hlast).append hwalk, fun j hj => ?_, fun rest hrest => ?_⟩
    · rcases List.mem_append.1 hj with hj | hj
      · rcases List.mem_append.1 hj with hj | hj
        · exact hrun.stays j hj
        · obtain rfl := List.mem_singleton.1 hj
          rw [Stays, hi.1]
          dsimp only
          decide
      · exact hstays j hj
    · rw [List.append_assoc, List.append_assoc]
      refine hrun.feeds ⟨1, 0, ?_, Nat.le_refl 1, hfeeds rest hrest⟩
      rw [Instruction.effect, hi.1]
      rfl

theorem readsBinding_of_spells (ht : Segmented tokens st) (hwf : b.value.WellFormed)
    (h : List.Forall₂ Spells is b.code) (hst : st front.length = .start)
    (hsplit : tokens = front ++ (is ++ rest)) :
    ∃ node, b.Shows node ∧ ReadsBinding tokens st front.length (front.length + is.length) node := by
  obtain ⟨js, i, tree, rfl, hi, htree, hrun⟩ := run_binding front.length hwf h
  rw [List.append_assoc] at hsplit
  have hvalue := ht.run_eq_of_split hrun hst hsplit
  exact ⟨_, ⟨i, tree, hi, htree, rfl⟩, front.length + js.length, ⟨front.length, tree⟩, i,
    by simp [Nat.add_assoc], by simp [hsplit], hi.1, by rw [hvalue], rfl, rfl⟩

/-- The bindings are read one behind the other. -/
theorem listed_bindings (ht : Segmented tokens st) (hwf : ∀ b ∈ bs, b.value.WellFormed)
    (h : List.Forall₂ Spells is (bs.flatMap (·.code))) (hst : st front.length = .start)
    (hsplit : tokens = front ++ (is ++ rest)) :
    ∃ nodes, List.Forall₂ Binding.Shows bs nodes ∧ st (front.length + is.length) = .start ∧
      (bs ≠ [] →
        Listed (ReadsBinding tokens st) front.length (front.length + is.length) nodes) := by
  induction bs using List.reverseRecOn generalizing is rest with
  | nil =>
    rw [List.flatMap_nil, List.forall₂_nil_right_iff] at h
    subst h
    exact ⟨[], .nil, hst, fun hne => (hne rfl).elim⟩
  | append_singleton bs b ih =>
    rw [List.flatMap_append, List.flatMap_singleton] at h
    obtain ⟨js, ks, rfl, hjs, hks⟩ := spells_append h
    rw [List.append_assoc] at hsplit
    obtain ⟨nodes, hnodes, hstart, hlisted⟩ :=
      ih (fun b' hb' => hwf b' (List.mem_append_left _ hb')) hjs hsplit
    rw [← List.length_append] at hstart
    obtain ⟨node, hnode, hbinding⟩ := readsBinding_of_spells ht (hwf b (by simp)) hks hstart
      (hsplit.trans (List.append_assoc _ _ _).symm)
    rw [List.length_append] at hbinding
    rw [List.length_append, ← Nat.add_assoc]
    refine ⟨nodes ++ [node], List.rel_append hnodes (.cons hnode .nil),
      hbinding.start_behind ht, fun _ => ?_⟩
    rcases eq_or_ne bs [] with rfl | hne
    · cases hnodes
      rw [List.flatMap_nil, List.forall₂_nil_right_iff] at hjs
      subst hjs
      exact .one hbinding
    · exact .more (hlisted hne) hbinding

/-- The parts of the code of a form. -/
structure Split (f : Form) (is bound body : List Instruction) (unbind ret : Instruction) :
    Prop where
  eq : is = bound ++ (body ++ [unbind, ret])
  bindings : List.Forall₂ Spells bound (f.bindings.flatMap (·.code))
  body : List.Forall₂ Spells body f.body.parts.flatten
  unbind : unbind.kind = .fixed .unbind
  ret : ret.kind = .fixed .ret

theorem exists_split {f : Form} (h : List.Forall₂ Spells is f.code) :
    ∃ bound body unbind ret, Split f is bound body unbind ret := by
  obtain ⟨bound, rest, rfl, hbound, hrest⟩ := spells_append h
  obtain ⟨body, ends, rfl, hbody, hends⟩ := spells_append hrest
  cases hends with
  | cons hunbind hends =>
    cases hends with
    | cons hret hends =>
      cases hends
      exact ⟨bound, body, _, _, rfl, hbound, hbody, hunbind.1, hret.1⟩

/-- A program without its return, from where the stack is empty. -/
theorem run_body {program : Program} (p : Nat) (hwf : program.WellFormed)
    (h : List.Forall₂ Spells is program.parts.flatten) :
    ∃ nodes v, List.Forall₂ Statement.Shows program.statements nodes ∧
      program.value.Shows v.tree ∧ Run p is .start ⟨[v], nodes⟩ := by
  rw [Program.parts, List.flatten_append, List.flatten_singleton] at h
  obtain ⟨js, ks, rfl, hjs, hks⟩ := spells_append h
  obtain ⟨nodes, hnodes, hrun⟩ := run_statements program.statements p [] hwf.1 hjs
  obtain ⟨tree, htree, hrun'⟩ := run_expr program.value (p + js.length) [] ([] ++ nodes) hwf.2 hks
  exact ⟨nodes, ⟨_, tree⟩, hnodes, htree, hrun.append hrun'⟩

section

variable {f : Form} {bound body : List Instruction} {unbind ret : Instruction}
  (hwf : f.WellFormed) (h : Split f is bound body unbind ret)

include hwf h

/-- The code of a form is laid out as one. -/
theorem Split.exists_layout : ∃ st l, Layout is st l ∧
    List.Forall₂ Binding.Shows f.bindings l.bindings ∧
      List.Forall₂ Statement.Shows f.body.statements l.statements ∧
        f.body.value.Shows l.result.tree := by
  obtain ⟨rfl, hbound, hbody, hunbind, hret⟩ := h
  obtain ⟨hne, hbindings, hprogram⟩ := hwf
  obtain ⟨hwalk, -⟩ := walk_bindings 0 hbindings hbound
  obtain ⟨statements, v, hstatements, hv, hrun⟩ := run_body bound.length hprogram hbody
  have hleave : Walk (bound.length + body.length) [unbind, ret] ⟨[v], statements⟩ .start :=
    .cons (.restart (by rw [hunbind]; rfl) (Nat.le_refl 1))
      (.cons (.restart (by rw [hret]; rfl) (Nat.zero_le 1)) (.nil _ _))
  have hall : Walk 0 (bound ++ (body ++ [unbind, ret])) .start .start :=
    hwalk.append (by rw [Nat.zero_add]; exact (Walk.of_run hrun).append hleave)
  obtain ⟨st, ht, hlast⟩ := hall.exists_segmented
  obtain ⟨nodes, hnodes, hstart, hlisted⟩ :=
    listed_bindings ht hbindings hbound (show st ([] : List Instruction).length = _ from ht.start)
      (List.nil_append _).symm
  rw [List.length_nil, Nat.zero_add] at hstart hlisted
  have hresult := ht.run_eq_of_split hrun hstart rfl
  have hopens : ∀ i ∈ bound ++ (body ++ [unbind, ret]), isStep i.kind = false →
      (i.isJump || Context.isAnyOf i Context.assignmentStarts) = true := by
    intro i hi hkind
    have hstarts : i.kind = .fixed .varbind ∨ i.kind = .fixed .unbind ∨ i.kind = .fixed .ret := by
      simp only [List.mem_append, List.mem_cons, List.not_mem_nil, or_false] at hi
      rcases hi with hi | hi | rfl | rfl
      · obtain ⟨q, hq, rfl⟩ := List.mem_iff_getElem.1 hi
        have hat : (bound ++ (body ++ [unbind, ret]))[q]? = some bound[q] := by
          rw [List.getElem?_append_left hq, List.getElem?_eq_getElem hq]
        rcases step_or_binding ht (hlisted hne) (Nat.zero_le q) hq with
          ⟨j, hj, hstep⟩ | ⟨p, node, m, w, j, he, hj, hvarbind, -⟩
        · obtain rfl := Option.some.inj (hat.symm.trans hj)
          rw [hkind] at hstep
          cases hstep
        · obtain rfl := Nat.succ.inj he
          obtain rfl := Option.some.inj (hat.symm.trans hj)
          exact .inl hvarbind
      · rw [hrun.isStep i hi] at hkind
        cases hkind
      · exact .inr (.inl hunbind)
      · exact .inr (.inr hret)
    rcases hstarts with hstarts | hstarts | hstarts <;>
      simp [Context.isAnyOf, Context.assignmentStarts, Instruction.isOp, hstarts]
  have hdelimited : Delimited (bound ++ (body ++ [unbind, ret])) st :=
    ⟨ht, fun _ i _ hi hkind _ _ => hopens i (List.mem_of_getElem? hi) hkind,
      by rw [hlast]; exact Nat.zero_le 1⟩
  refine ⟨st, ⟨nodes, bound.length, bound.length + body.length, statements, v, unbind, ret⟩, ?_,
    hnodes, hstatements, hv⟩
  exact {
    toDelimited := hdelimited
    listed := hlisted hne
    steps := fun _ => step_of_split hrun.isStep rfl
    first_le := Nat.le_add_right _ _
    done_eq := by rw [hresult]
    result_eq := by rw [hresult]
    unbind_at := by simp [← List.append_assoc]
    unbind_kind := hunbind
    ret_at := by simp [Nat.add_assoc]
    ret_kind := hret
    length_eq := by simp [Nat.add_assoc] }

/-- The code of a form is one block, and needs no markers. -/
theorem Split.annotated_eq (hascending : is.Pairwise fun i j => i.offset < j.offset) :
    ∃ seg, Segmentation.ofInstructions is = .ok seg ∧ seg.annotated = is := by
  obtain ⟨rfl, hbound, hbody, hunbind, hret⟩ := h
  obtain ⟨-, hbindings, hprogram⟩ := hwf
  obtain ⟨-, hstays, hfeeds⟩ := walk_bindings 0 hbindings hbound
  obtain ⟨statements, v, -, -, hrun⟩ := run_body bound.length hprogram hbody
  have hsplit : bound ++ (body ++ [unbind, ret]) = bound ++ (body ++ [unbind]) ++ [ret] := by simp
  rw [hsplit] at hascending ⊢
  refine annotated_of_feeds (fun i hi => ?_) hret ?_ hascending
  · simp only [List.mem_append, List.mem_singleton] at hi
    rcases hi with hi | hi | rfl
    · exact hstays i hi
    · exact hrun.stays i hi
    · rw [Stays, hunbind]
      decide
  · rw [← hsplit]
    refine hfeeds _ (hrun.feeds ⟨0, 0, ?_, Nat.zero_le 1, feeds_return hret⟩)
    rw [Instruction.effect, hunbind]
    rfl

end

end ElispLift.Let
