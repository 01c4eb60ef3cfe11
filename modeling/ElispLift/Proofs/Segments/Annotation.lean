import ElispLift.Proofs.Blocks.Links
import ElispLift.Proofs.Segments.States
import ElispLift.Proofs.StraightLine.Operations

/-!
# Straight-line code among linked jumps

A segment that finds all its values on the stack gets no markers, wherever it stands. Markers have
the offset of the instruction they are for, so a jump is not aligned with an instruction in front of
its label.
-/

namespace ElispLift.StraightLine

open Segmentation

variable {is js front rest tokens : List Instruction} {seg : Segmentation} {i j : Instruction}
  {pos depth e : Nat} {s s' : State} {last? : Option Nat}

/-! ### Steps -/

theorem plain_of_isStep (h : isStep i.kind = true) :
    (i.isJump || i.isOp .ret || i.isOp .label) = false := by
  have hfixed : ∀ o ∈ Opcode.all, StraightLine.isStep (.fixed o) = true →
      ((OpKind.fixed o).isJump || o = .ret || o = .label) = false := by
    decide
  rw [Instruction.isJump, Instruction.isOp, Instruction.isOp]
  cases hkind : i.kind with
  | fixed o => simpa using hfixed o (Opcode.mem_all o) (hkind ▸ h)
  | counted family count => simp [OpKind.isJump, OpKind.opClass]

/-- Behind a step no block begins. -/
theorem not_leads_of_isStep (h : isStep i.kind = true) : ¬Leads (front ++ [i]) := by
  rw [leads_snoc, plain_of_isStep h]
  exact Bool.false_ne_true

/-! ### Labels -/

/-- Whether an operation is a label, and whether it is a jump. -/
theorem signs_of_kind {op : Opcode} (h : i.kind = .fixed op) :
    i.isOp .label = decide (OpKind.fixed op = .fixed .label) ∧
      i.isJump = (OpKind.fixed op).isJump := by
  rw [Instruction.isOp, Instruction.isJump, h]
  exact ⟨rfl, rfl⟩

theorem labelText_of_spells {op : Opcode} {name : String}
    (h : Spells i (.fixed op, some (.symbol name))) :
    labelText i = name ∧ i.operandText? = some name := by
  have hoperand := h.2 _ rfl
  constructor
  · rw [labelText, hoperand]
    rfl
  · rw [Instruction.operandText?, hoperand]
    rfl

theorem signs_of_isStep (h : isStep i.kind = true) : i.isOp .label = false ∧ i.isJump = false := by
  have hplain := plain_of_isStep h
  rw [Bool.or_eq_false_iff, Bool.or_eq_false_iff] at hplain
  exact ⟨hplain.2, hplain.1.1⟩

/-- Straight-line code has neither labels nor jumps. -/
theorem filter_of_isStep (h : ∀ i ∈ is, isStep i.kind = true) :
    is.filter (·.isOp .label) = [] ∧ is.filter (·.isJump) = [] :=
  ⟨List.filter_eq_nil_iff.2 fun i hi => by simp [(signs_of_isStep (h i hi)).1],
    List.filter_eq_nil_iff.2 fun i hi => by simp [(signs_of_isStep (h i hi)).2]⟩

theorem apart_append {l : Instruction} (hfront : ∀ i ∈ front, i.isOp .label = false)
    (h : (l :: is).IsChain fun i j => i.isOp .label = true → j.isOp .label = false) :
    (front ++ l :: is).IsChain fun i j => i.isOp .label = true → j.isOp .label = false := by
  have hnone : ∀ i ∈ front, i.isOp .label ≠ true := fun i hi => by simp [hfront i hi]
  refine List.isChain_append.2 ⟨List.isChain_iff_getElem.2 fun n hn hlabel => ?_, h,
    fun i hi j _ hlabel => ?_⟩
  · exact (hnone _ (List.getElem_mem _) hlabel).elim
  · exact (hnone i (List.mem_of_getLast? hi) hlabel).elim

/-! ### Markers -/

/-- A segment gets no markers. Its block begins with it, or has pushed what is on its stack. -/
theorem annotateBehind_run (hl : Linked is) (hseg : ofInstructions is = .ok seg)
    (hrun : Run pos js s s') (hsplit : is = front ++ (js ++ rest))
    (hstart : Leads front → s.pending = []) :
    seg.annotateBehind front s.pending.length (js ++ rest) =
      js ++ seg.annotateBehind (front ++ js) s'.pending.length rest := by
  induction hrun generalizing front with
  | nil => rw [List.append_nil]; rfl
  | @cons pos i js s s' s'' hstep hrun ih =>
    obtain ⟨pops, pushes, heffect, hpops, hheight⟩ := hstep.effect_eq
    have hplain := (signs_of_isStep hstep.isStep).1
    have hnone : access s.pending.length i = ([], s'.pending.length) := by
      rw [access, heffect, hheight]
      simp [Nat.sub_eq_zero_of_le hpops, accesses]
    have hdepth : Leads front → s.pending.length = 0 := fun hleads => by
      rw [hstart hleads, List.length_nil]
    have hfirst := hl.annotateBehind_other hseg hsplit hplain hdepth
    have hnext := ih (by simpa using hsplit) fun hleads =>
      (not_leads_of_isStep hstep.isStep hleads).elim
    rw [List.append_assoc, List.singleton_append] at hnext
    rw [hnone, List.nil_append] at hfirst
    exact hfirst.trans (congrArg _ hnext)

/-- A segment and the instruction behind it, which gets the markers that it needs. -/
theorem annotateBehind_through (hl : Linked is) (hseg : ofInstructions is = .ok seg)
    (hrun : Run pos js .start s) (hsplit : is = front ++ (js ++ i :: rest))
    (hi : i.isOp .label = false) :
    seg.annotateBehind front 0 (js ++ i :: rest) =
      js ++ ((access s.pending.length i).1 ++ i ::
        seg.annotateBehind (front ++ js ++ [i]) (access s.pending.length i).2 rest) := by
  have hdepth : Leads (front ++ js) → s.pending.length = 0 := by
    intro hleads
    rcases List.eq_nil_or_concat' js with rfl | ⟨js', j, rfl⟩
    · cases hrun
      rfl
    · rw [← List.append_assoc] at hleads
      exact (not_leads_of_isStep (hrun.isStep j (by simp)) hleads).elim
  have hsegment := annotateBehind_run hl hseg hrun hsplit fun _ => rfl
  have hlast := hl.annotateBehind_other hseg (by simpa using hsplit) hi hdepth
  exact hsegment.trans (congrArg _ hlast)

/-- A segment and the instruction behind it, which takes its values from it. -/
theorem annotateBehind_segment {pops pushes : Nat} (hl : Linked is)
    (hseg : ofInstructions is = .ok seg) (hrun : Run pos js .start s)
    (hsplit : is = front ++ (js ++ i :: rest)) (hi : i.isOp .label = false)
    (heffect : i.effect = .fixed pops pushes) (hpops : pops ≤ s.pending.length) :
    seg.annotateBehind front 0 (js ++ i :: rest) =
      js ++ i :: seg.annotateBehind (front ++ js ++ [i])
        (s.pending.length - pops + pushes) rest := by
  have hnone : access s.pending.length i = ([], s.pending.length - pops + pushes) := by
    rw [access, heffect]
    simp [Nat.sub_eq_zero_of_le hpops, accesses]
  have hsegment := annotateBehind_through hl hseg hrun hsplit hi
  rwa [hnone] at hsegment

/-- A segment and the jump behind it, which leaves nothing on the stack. -/
theorem annotateBehind_toJump (hl : Linked is) (hseg : ofInstructions is = .ok seg)
    (hrun : Run pos js .start s) (hsplit : is = front ++ (js ++ i :: rest))
    (hjump : i.isJump = true)
    (hnone : (access s.pending.length i).1 = []) :
    seg.annotateBehind front 0 (js ++ i :: rest) =
      js ++ i :: seg.annotateBehind (front ++ js ++ [i]) 0 rest := by
  have hlabel : i.isOp .label = false := Bool.eq_false_iff.2 fun hlabel => by
    rw [Instruction.isJump, Instruction.isOp_iff.1 hlabel] at hjump
    cases hjump
  rw [annotateBehind_through hl hseg hrun hsplit hlabel, hnone, List.nil_append,
    hl.annotateBehind_jump hseg (by simpa using hsplit) hjump]

/-- What is put among the instructions are markers, at the offset of one of them. -/
theorem mem_annotateFrom (h : j ∈ seg.annotateFrom last? depth is) :
    j ∈ is ∨ isMarker j = true ∧ ∃ i ∈ is, j.offset = i.offset := by
  induction is generalizing last? depth with
  | nil => cases h
  | cons i is ih =>
    rw [annotateFrom] at h
    dsimp only at h
    rcases List.mem_append.1 h with h | h
    · have hmarker : isMarker j = true ∧ j.offset = i.offset := by
        rcases List.mem_append.1 h with h | h
        · split at h
          · cases h
          · exact marker_of_mem_arrivals h
        · exact marker_of_mem_access h
      exact .inr ⟨hmarker.1, i, by simp, hmarker.2⟩
    · rcases List.mem_cons.1 h with rfl | h
      · exact .inl (by simp)
      · rcases ih h with hj | ⟨hmarker, k, hk, hoffset⟩
        · exact .inl (List.mem_cons_of_mem _ hj)
        · exact .inr ⟨hmarker, k, List.mem_cons_of_mem _ hk, hoffset⟩

/-- Annotated instructions are in order. -/
theorem pairwise_annotateFrom (h : is.Pairwise fun i j => i.offset ≤ j.offset) :
    (seg.annotateFrom last? depth is).Pairwise fun i j => i.offset ≤ j.offset := by
  induction is generalizing last? depth with
  | nil => exact .nil
  | cons i is ih =>
    obtain ⟨hfirst, hrest⟩ := List.pairwise_cons.1 h
    have hlater : ∀ last? depth, ∀ j ∈ seg.annotateFrom last? depth is, i.offset ≤ j.offset := by
      intro last? depth j hj
      rcases mem_annotateFrom hj with hj | ⟨-, k, hk, hoffset⟩
      · exact hfirst j hj
      · exact hoffset ▸ hfirst k hk
    rw [annotateFrom]
    dsimp only
    generalize haccess : access _ i = accessing
    have hsame : ∀ j ∈ (if last? = some i.offset then [] else seg.arrivals i.offset) ++
        accessing.1, j.offset = i.offset := by
      intro j hj
      rcases List.mem_append.1 hj with hj | hj
      · split at hj
        · cases hj
        · exact (marker_of_mem_arrivals hj).2
      · exact (marker_of_mem_access (haccess ▸ hj)).2
    refine List.pairwise_append.2 ⟨?_, List.pairwise_cons.2 ⟨hlater _ _, ih hrest⟩, ?_⟩
    · exact List.pairwise_of_forall_mem_list fun j hj k hk => by rw [hsame j hj, hsame k hk]
    · intro j hj k hk
      rw [hsame j hj]
      rcases List.mem_cons.1 hk with rfl | hk
      · exact Nat.le_refl _
      · exact hlater _ _ k hk

/-- A jump does not lead to where a form ends that is in front of all labels of its name. -/
theorem aligned_eq_false (target : Nat)
    (hlabels : ∀ k ∈ tokens, k.isOp .label = true → k.operandText? = i.operandText? →
      target ≤ k.offset)
    (hbefore : ∀ j, tokens[e]? = some j → j.offset < target) :
    Context.aligned ⟨tokens.toArray⟩ (some (.token i)) e = false := by
  unfold Context.aligned
  split
  next offset j htarget hj =>
    have hj : tokens[e]? = some j := by simpa using hj
    have hlt := hbefore j hj
    have htarget : ((some (Node.token i)).bind fun jump =>
        Context.target? ⟨tokens.toArray⟩ jump) = some offset := htarget
    simp only [Context.target?, Context.labelOffset?, Node.token?, Option.bind_some,
      Option.bind_eq_some_iff, Option.map_eq_some_iff] at htarget
    obtain ⟨name, hname, k, hfound, rfl⟩ := htarget
    obtain ⟨hlabel, hk⟩ := by simpa using List.find?_some hfound
    have hle := hlabels k (by simpa using List.mem_of_find?_eq_some hfound) hlabel
      (hk.trans hname.symm)
    simp
    omega
  next => rfl

end ElispLift.StraightLine
