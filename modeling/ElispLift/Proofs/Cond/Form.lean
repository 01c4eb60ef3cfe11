import ElispLift.Proofs.Cond.Readings
import ElispLift.Proofs.Segments.Annotation

/-!
# Forms of clauses

Conditions that are tried one after the other. The code of a clause computes the condition, jumps to
the next clause if it does not hold, and returns the value. What no clause holds for is returned at
the end. Every jump has a label of its own, so the code gets one marker in front of each label, and
is read as the clauses in their order.
-/

namespace ElispLift.Cond

open StraightLine Segmentation

/-- A condition, the value that is returned where it holds, and the name of the label behind. -/
structure Clause where
  condition : Expr
  value : Expr
  label : String

namespace Clause

def WellFormed (c : Clause) : Prop := c.condition.WellFormed ∧ c.value.WellFormed

def code (c : Clause) : List (OpKind × Option Operand) :=
  c.condition.code ++ (.fixed .gotoIfNil, some (.symbol c.label)) ::
    (c.value.code ++ [(.fixed .ret, none), (.fixed .label, some (.symbol c.label))])

def lisp (c : Clause) : String := "(" ++ c.condition.lisp ++ " " ++ c.value.lisp ++ ")"

end Clause

/-- Clauses, and the value where none of them holds. -/
structure Form where
  clauses : List Clause
  otherwise : Expr

namespace Form

def WellFormed (f : Form) : Prop :=
  f.clauses ≠ [] ∧ (∀ c ∈ f.clauses, c.WellFormed) ∧ (f.clauses.map (·.label)).Nodup ∧
    f.otherwise.WellFormed

def code (f : Form) : List (OpKind × Option Operand) :=
  f.clauses.flatMap (·.code) ++ (f.otherwise.code ++ [(.fixed .ret, none)])

/-- The clauses stand below one another. -/
def lisp (indent : String) (f : Form) : String :=
  "(cond " ++ ("\n" ++ Text.spaces (indent.utf8ByteSize + 6)).intercalate
    (f.clauses.map (·.lisp) ++ ["(t " ++ f.otherwise.lisp ++ ")"]) ++ ")"

end Form

/-- Instructions that spell the code of a form, at ascending offsets. A label may share the offset
of the instruction behind it. -/
structure Compiled (f : Form) (is : List Instruction) : Prop where
  spells : List.Forall₂ Spells is f.code
  ordered : Ordered is

/-- The instructions of a clause. -/
structure Clause.Splits (c : Clause) (condition value : List Instruction)
    (jump ret label : Instruction) : Prop where
  condition : List.Forall₂ Spells condition c.condition.code
  jump : Spells jump (.fixed .gotoIfNil, some (.symbol c.label))
  value : List.Forall₂ Spells value c.value.code
  ret : ret.kind = .fixed .ret
  label : Spells label (.fixed .label, some (.symbol c.label))

/-- The instructions of clauses and of the value at the end, with a marker in front of each label.
-/
inductive Marks (e : Expr) : List Clause → List Instruction → Prop where
  | last {js : List Instruction} {r : Instruction} (hvalue : List.Forall₂ Spells js e.code)
      (hret : r.kind = .fixed .ret) : Marks e [] (js ++ [r])
  | more {c : Clause} {cs : List Clause} {js ks tokens : List Instruction}
      {g r k l : Instruction} (hsplit : c.Splits js ks g r l) (hk : k.kind = .fixed .comeFrom)
      (hlt : r.offset < l.offset) (h : Marks e cs tokens) :
      Marks e (c :: cs) (js ++ g :: (ks ++ r :: k :: l :: tokens))

variable {is js front tokens : List Instruction} {cs : List Clause} {c : Clause} {e : Expr}
  {i g r k : Instruction} {seg : Segmentation} {st : Nat → State} {p m : Nat} {s s' : State}

/-! ### Spelling -/

theorem exists_splits {rest : List (OpKind × Option Operand)}
    (h : List.Forall₂ Spells is (c.code ++ rest)) :
    ∃ js ks g r l is', is = js ++ g :: (ks ++ r :: l :: is') ∧ c.Splits js ks g r l ∧
      List.Forall₂ Spells is' rest := by
  obtain ⟨part, is', rfl, hpart, hrest⟩ := spells_append h
  obtain ⟨js, part, rfl, hjs, hpart⟩ := spells_append hpart
  cases hpart with
  | cons hg hpart =>
    obtain ⟨ks, ends, rfl, hks, hends⟩ := spells_append hpart
    cases hends with
    | cons hr hends =>
      cases hends with
      | cons hl hends =>
        cases hends
        exact ⟨js, ks, _, _, _, is', by simp, ⟨hjs, hg, hks, hr.1, hl⟩, hrest⟩

mutual

/-- An expression is made of operations. -/
theorem operation_of_code : ∀ (e : Expr), e.WellFormed → ∀ x ∈ e.code,
    (operation? x.1).isSome = true
  | .constant operand, _, x, hx => by
    obtain rfl := List.mem_singleton.1 hx
    rfl
  | .reference name, _, x, hx => by
    obtain rfl := List.mem_singleton.1 hx
    rfl
  | .apply op args, hwf, x, hx => by
    rcases List.mem_append.1 hx with hx | hx
    · exact operation_of_codeOf args hwf.2 x hx
    · obtain rfl := List.mem_singleton.1 hx
      obtain ⟨operation, hop, -⟩ := operation_of_arity hwf.1
      rw [hop]
      rfl
  | .call callee args, hwf, x, hx => by
    rcases List.mem_append.1 hx with hx | hx
    · rcases List.mem_cons.1 hx with rfl | hx
      · rfl
      · exact operation_of_codeOf args hwf.2.2 x hx
    · obtain rfl := List.mem_singleton.1 hx
      rfl
  | .form family args, hwf, x, hx => by
    rcases List.mem_append.1 hx with hx | hx
    · exact operation_of_codeOf args hwf.2.2 x hx
    · obtain rfl := List.mem_singleton.1 hx
      rfl

theorem operation_of_codeOf : ∀ (es : List Expr), Expr.AllWellFormed es → ∀ x ∈ Expr.codeOf es,
    (operation? x.1).isSome = true
  | [], _, x, hx => by cases hx
  | e :: es, hwf, x, hx => by
    rcases List.mem_append.1 hx with hx | hx
    · exact operation_of_code e hwf.1 x hx
    · exact operation_of_codeOf es hwf.2 x hx

end

/-! ### Labels -/

/-- What the labels and the jumps of a list are called. -/
structure Named (is : List Instruction) (names : List String) : Prop where
  labels : (is.filter (·.isOp .label)).map labelText = names
  jumps : (is.filter (·.isJump)).map labelText = names
  apart : is.IsChain fun i j => i.isOp .label = true → j.isOp .label = false
  first : ∀ i, is.head? = some i → i.isOp .label = false

/-- The jump and the label of a clause are called the same. -/
theorem Clause.Splits.named {ks : List Instruction} {l : Instruction} {names : List String}
    (hwf : c.WellFormed) (h : c.Splits js ks g r l) (hrest : Named is names) :
    Named (js ++ g :: (ks ++ r :: l :: is)) (c.label :: names) := by
  have hcondition := isStep_of_spells hwf.1 h.condition
  have hvalue := isStep_of_spells hwf.2 h.value
  obtain ⟨hjs, hjs'⟩ := filter_of_isStep hcondition
  obtain ⟨hks, hks'⟩ := filter_of_isStep hvalue
  have hg : g.isOp .label = false ∧ g.isJump = true := signs_of_kind h.jump.1
  have hr : r.isOp .label = false ∧ r.isJump = false := signs_of_kind h.ret
  have hl : l.isOp .label = true ∧ l.isJump = false := signs_of_kind h.label.1
  refine ⟨?_, ?_, ?_, fun i hi => ?_⟩
  · simp [hjs, hks, hg.1, hr.1, hl.1, hrest.labels,
      (labelText_of_spells h.label).1]
  · simp [hjs', hks', hg.2, hr.2, hl.2, hrest.jumps,
      (labelText_of_spells h.jump).1]
  · have hsplit : js ++ g :: (ks ++ r :: l :: is) = js ++ g :: ks ++ [r] ++ l :: is := by simp
    rw [hsplit]
    refine apart_append (fun i hi => ?_) ?_
    · simp only [List.mem_append, List.mem_cons, List.not_mem_nil, or_false] at hi
      rcases hi with (hi | rfl | hi) | rfl
      · exact (signs_of_isStep (hcondition i hi)).1
      · exact hg.1
      · exact (signs_of_isStep (hvalue i hi)).1
      · exact hr.1
    · exact List.isChain_cons.2 ⟨fun i hi _ => hrest.first i hi, hrest.apart⟩
  · cases js with
    | nil =>
      obtain rfl := Option.some.inj hi
      exact hg.1
    | cons j js =>
      obtain rfl := Option.some.inj hi
      exact (signs_of_isStep (hcondition j List.mem_cons_self)).1

theorem named_of_spells (hwf : ∀ c ∈ cs, c.WellFormed) (he : e.WellFormed)
    (h : List.Forall₂ Spells is (Form.code ⟨cs, e⟩)) : Named is (cs.map (·.label)) := by
  induction cs generalizing is with
  | nil =>
    obtain ⟨js, r, rfl, hjs, hr⟩ := spells_snoc (show List.Forall₂ Spells is (e.code ++ [_]) from h)
    have hsteps := isStep_of_spells he hjs
    obtain ⟨hlabels, hjumps⟩ := filter_of_isStep hsteps
    have hlast : r.isOp .label = false ∧ r.isJump = false := signs_of_kind hr.1
    have hnone : ∀ i ∈ js ++ [r], i.isOp .label = false := by
      intro i hi
      rcases List.mem_append.1 hi with hi | hi
      · exact (signs_of_isStep (hsteps i hi)).1
      · rw [List.mem_singleton.1 hi, hlast.1]
    refine ⟨?_, ?_, ?_, fun i hi => hnone i (List.mem_of_head? hi)⟩
    · simp [hlabels, hlast.1]
    · simp [hjumps, hlast.2]
    · refine List.isChain_iff_getElem.2 fun n hn _ => hnone _ (List.getElem_mem _)
  | cons c cs ih =>
    have hcode : Form.code ⟨c :: cs, e⟩ = c.code ++ Form.code ⟨cs, e⟩ := by simp [Form.code]
    obtain ⟨js, ks, g, r, l, is', rfl, hsplit, hrest⟩ := exists_splits (hcode ▸ h)
    exact hsplit.named (hwf c (by simp))
      (ih (fun c' hc' => hwf c' (List.mem_cons_of_mem _ hc')) hrest)

/-- Every jump has a label of its own. -/
theorem linked {f : Form} (hwf : f.WellFormed) (h : Compiled f is) : Linked is := by
  obtain ⟨-, hclauses, hdistinct, hother⟩ := hwf
  have hnamed := named_of_spells hclauses hother h.spells
  exact ⟨h.ordered, hnamed.apart, hnamed.labels ▸ hdistinct,
    .of_eq (hnamed.jumps.trans hnamed.labels.symm)⟩

/-! ### Markers -/

/-- The instructions get one marker in front of each label. -/
theorem marks_annotateBehind {all : List Instruction} (hl : Linked all)
    (hseg : ofInstructions all = .ok seg) (hwf : ∀ c ∈ cs, c.WellFormed) (he : e.WellFormed)
    (h : List.Forall₂ Spells is (Form.code ⟨cs, e⟩)) (hall : all = front ++ is) :
    Marks e cs (seg.annotateBehind front 0 is) := by
  have hreturn : ∀ {r : Instruction}, r.kind = .fixed .ret →
      r.isOp .label = false ∧ r.effect = .fixed 1 0 := by
    intro r hr
    rw [Instruction.isOp, Instruction.effect, hr]
    exact ⟨rfl, rfl⟩
  induction cs generalizing is front with
  | nil =>
    obtain ⟨js, r, rfl, hjs, hr⟩ := spells_snoc (show List.Forall₂ Spells is (e.code ++ [_]) from h)
    obtain ⟨tree, -, hrun⟩ := run_expr e 0 [] [] he hjs
    rw [annotateBehind_segment hl hseg hrun hall (hreturn hr.1).1 (hreturn hr.1).2 (Nat.le_refl 1)]
    exact .last hjs hr.1
  | cons c cs ih =>
    have hcode : Form.code ⟨c :: cs, e⟩ = c.code ++ Form.code ⟨cs, e⟩ := by simp [Form.code]
    obtain ⟨js, ks, g, r, l, is', rfl, hsplit, hrest⟩ := exists_splits (hcode ▸ h)
    obtain ⟨v, -, hcondition⟩ := run_expr c.condition 0 [] [] (hwf c (by simp)).1 hsplit.condition
    obtain ⟨w, -, hvalue⟩ := run_expr c.value 0 [] [] (hwf c (by simp)).2 hsplit.value
    have hjump : g.isOp .label = false ∧ g.effect = .fixed 1 0 := by
      rw [Instruction.isOp, Instruction.effect, hsplit.jump.1]
      exact ⟨rfl, rfl⟩
    have hlabel : l.isOp .label = true := Instruction.isOp_iff.2 hsplit.label.1
    have hlt : r.offset < l.offset := by
      have hordered := hall ▸ hl.ordered
      have hfront : front ++ (js ++ g :: (ks ++ r :: l :: is')) =
          (front ++ (js ++ g :: ks)) ++ r :: l :: is' := by simp
      exact Ordered.lt_of_not_label (hfront ▸ hordered) (hreturn hsplit.ret).1
    have hlater : all = (front ++ js ++ [g] ++ ks ++ [r]) ++ l :: is' := by simpa using hall
    obtain ⟨source, harrival⟩ := hl.annotateBehind_label hseg hlater hlabel
    rw [annotateBehind_segment hl hseg hcondition hall hjump.1 hjump.2 (Nat.le_refl 1)]
    change Marks e (c :: cs) (js ++ g :: seg.annotateBehind _ 0 _)
    rw [annotateBehind_segment hl hseg hvalue (by simpa using hall) (hreturn hsplit.ret).1
      (hreturn hsplit.ret).2 (Nat.le_refl 1)]
    change Marks e (c :: cs) (js ++ g :: (ks ++ r :: seg.annotateBehind _ 0 _))
    rw [harrival]
    exact .more hsplit rfl hlt
      (ih (fun c' hc' => hwf c' (List.mem_cons_of_mem _ hc')) hrest (by simpa using hall))

/-- Every segment ends with nothing on the stack. -/
theorem Marks.walk (hwf : ∀ c ∈ cs, c.WellFormed) (he : e.WellFormed) (h : Marks e cs tokens)
    (p : Nat) : Walk p tokens .start .start := by
  induction h generalizing p with
  | last hvalue hret =>
    obtain ⟨tree, -, hrun⟩ := run_expr e p [] [] he hvalue
    exact (Walk.of_run hrun).append
      (.cons (.restart (by rw [hret]; rfl) (Nat.le_refl 1)) (.nil _ _))
  | @more c cs js ks tokens g r k l hsplit hk hlt h ih =>
    obtain ⟨v, -, hcondition⟩ := run_expr c.condition p [] [] (hwf c (by simp)).1 hsplit.condition
    obtain ⟨w, -, hvalue⟩ := run_expr c.value (p + js.length + 1) [] [] (hwf c (by simp)).2
      hsplit.value
    have hrest := ih (fun c' hc' => hwf c' (List.mem_cons_of_mem _ hc'))
      (p + js.length + 1 + ks.length + 1 + 1 + 1)
    refine (Walk.of_run hcondition).append (.cons (.restart (by rw [hsplit.jump.1]; rfl)
      (Nat.le_refl 1)) ((Walk.of_run hvalue).append (.cons (.restart (by rw [hsplit.ret]; rfl)
        (Nat.le_refl 1)) (.cons (.restart (by rw [hk]; rfl) (Nat.zero_le 1))
          (.cons (.restart (by rw [hsplit.label.1]; rfl) (Nat.zero_le 1)) hrest)))))

end ElispLift.Cond
