import ElispLift.Proofs.Blocks.Markers

/-!
# Values from outside

The markers for values from outside make up for what the declared effects of a block take, as far as
effects are fixed: the effect of the block and its markers add up to the height of its own stack,
which is not negative. A branch that takes a value if it is not followed has no marker for it.
-/

namespace ElispLift.Segmentation

open Instruction (net)

/-- The values that instructions take from outside, where `depth` values are there. -/
def outside (depth : Nat) : List Instruction → Nat
  | [] => 0
  | i :: rest => (access depth i).1.length + outside (access depth i).2 rest

/-- The markers for values from outside in a block. -/
def accessCount (b : Block) (tokens : List Instruction) : Nat :=
  tokens.countP fun i => i.isOp .stackAccess && b.contains i.offset

/-- The instructions that lie in a block. -/
def own (b : Block) (is : List Instruction) : List Instruction :=
  is.filter fun i => b.contains i.offset

variable {is pre part rest out front : List Instruction} {s : Segmentation} {i : Instruction}
  {b : Block} {pieces : List Piece} {n : Nat}

theorem own_append : own b (pre ++ rest) = own b pre ++ own b rest := List.filter_append ..

theorem own_singleton (h : b.contains i.offset = true) : own b [i] = [i] := by simp [own, h]

theorem length_accesses (offset n : Nat) : (accesses offset n).length = n := by
  simp [accesses_eq]

/-! ### Inside a block -/

theorem outside_append (depth : Nat) (pre rest : List Instruction) : outside depth (pre ++ rest) =
    outside depth pre + outside (pre.foldl (fun depth i => (access depth i).2) depth) rest := by
  induction pre generalizing depth with
  | nil => simp [outside]
  | cons i pre ih => rw [List.cons_append, outside, outside, ih, List.foldl_cons, Nat.add_assoc]

theorem height_eq_foldl (pre : List Instruction) :
    pre.foldl (fun depth i => (access depth i).2) 0 = height pre := by
  induction pre using List.reverseRecOn with
  | nil => rfl
  | append_singleton pre i ih => rw [List.foldl_concat, ih, height_snoc]

theorem outside_snoc :
    outside 0 (pre ++ [i]) = outside 0 pre + (access (height pre) i).1.length := by
  rw [outside_append, height_eq_foldl, outside, outside, Nat.add_zero]

/-- What is taken from outside makes up for the declared effects. -/
theorem net_add_outside (h : ∀ i ∈ part, i.effect.isBranch = false) :
    net part + outside 0 part = height part := by
  induction part using List.reverseRecOn with
  | nil => rfl
  | append_singleton pre i ih =>
    have hpre := ih fun j hj => h j (List.mem_append_left _ hj)
    have hi := h i (by simp)
    rw [Instruction.net_append, outside_snoc, height_snoc, access]
    cases heffect : i.effect with
    | branch fall taken => rw [heffect] at hi; cases hi
    | fixed pops pushes =>
      simp only [net, heffect, Effect.net, length_accesses]
      omega

/-! ### Counting markers -/

theorem accessCount_append (b : Block) (pre rest : List Instruction) :
    accessCount b (pre ++ rest) = accessCount b pre + accessCount b rest :=
  List.countP_append ..

theorem accessCount_cons (b : Block) (i : Instruction) (rest : List Instruction) :
    accessCount b (i :: rest) = accessCount b [i] + accessCount b rest :=
  accessCount_append b [i] rest

theorem Arrives.accessCount_eq {arriving : List Instruction} (h : s.Arrives n i arriving) :
    accessCount b arriving = 0 := by
  refine List.countP_eq_zero.2 fun j hj => ?_
  obtain ⟨source, rfl⟩ := h.eq_comeFrom j hj
  simp [comeFrom, Instruction.isOp, Instruction.ofOpcode]

/-- An instruction has a marker for each value that it takes from outside its block. -/
theorem Accesses.length_eq {accessing : List Instruction} (h : s.MadeOf pieces)
    (hb : b ∈ s.blocks) (hcontains : b.contains i.offset = true)
    (ha : s.Accesses n i accessing) :
    accessing.length = (access (height (own b (s.instructions.take n))) i).1.length := by
  unfold Accesses at ha
  rw [access]
  cases heffect : i.effect with
  | branch fall taken => simp_all
  | fixed pops pushes =>
    rw [heffect] at ha
    obtain ⟨c, hc, hin, rfl⟩ := ha
    obtain ⟨k, hk⟩ := List.mem_iff_getElem?.1 hb
    obtain ⟨m, hm⟩ := List.mem_iff_getElem?.1 hc
    obtain rfl := h.eq_of_contains hk hm hcontains hin
    obtain rfl : b = c := Option.some.inj (hk.symm.trans hm)
    simp [length_accesses, own]

theorem Accesses.accessCount_eq {accessing : List Instruction} (ha : s.Accesses n i accessing) :
    accessCount b accessing = if b.contains i.offset then accessing.length else 0 := by
  have hoffset : ∀ j ∈ accessing, j.isOp .stackAccess = true ∧ j.offset = i.offset := by
    intro j hj
    obtain ⟨reach, rfl⟩ := ha.eq_stackAccess j hj
    exact ⟨rfl, rfl⟩
  split
  next hcontains =>
    refine List.countP_eq_length.2 fun j hj => ?_
    rw [(hoffset j hj).1, (hoffset j hj).2, hcontains]
    rfl
  next hcontains =>
    refine List.countP_eq_zero.2 fun j hj => ?_
    rw [(hoffset j hj).2]
    simp [hcontains]

/-- The markers of a block count what its instructions take from outside. -/
theorem Marked.accessCount_eq (hmarked : Marked s n rest out) (h : s.MadeOf pieces)
    (hb : b ∈ s.blocks) (hn : front.length = n) (hsplit : s.instructions = front ++ rest) :
    accessCount b out + outside 0 (own b front) =
      accessCount b rest + outside 0 (own b s.instructions) := by
  induction hmarked generalizing front with
  | nil => simp [hsplit]
  | @cons n i rest out arriving accessing harriving haccessing _ ih =>
    subst hn
    have hrest := @ih (front ++ [i]) (by simp) (by simpa using hsplit)
    have hown : outside 0 (own b (front ++ [i])) = outside 0 (own b front) +
        if b.contains i.offset then accessing.length else 0 := by
      rw [own_append]
      split
      next hcontains =>
        rw [haccessing.length_eq h hb hcontains, hsplit, List.take_left, own_singleton hcontains,
          outside_snoc]
      next hcontains => simp [own, hcontains]
    rw [accessCount_append, accessCount_append, accessCount_cons b i out, accessCount_cons b i rest,
      harriving.accessCount_eq, haccessing.accessCount_eq]
    omega

theorem MadeOf.marked_annotated (h : s.MadeOf pieces) (hs : ofInstructions s.instructions = .ok s) :
    Marked s 0 s.instructions s.annotated := by
  have hcounted : Counted pieces [] 0 := by
    intro earlier p later pre i post _ _ hfront hpre
    exact (hpre (List.append_eq_nil_iff.1 hfront.symm).2).elim
  exact h.marked_annotateFrom hs hcounted rfl

/-! ### The balance of a block -/

/-- The branches that take their value on one side only leave it where they jump. -/
theorem branch_effect {fall taken : Nat × Nat} (h : i.effect = .branch fall taken) :
    fall = (1, 0) ∧ taken = (1, 1) := by
  have hbranch : i.effect.isBranch = true := by rw [h]; rfl
  have hkind := Instruction.isBranch_iff.1 hbranch
  rw [Instruction.isOp_iff, Instruction.isOp_iff] at hkind
  rcases hkind with hkind | hkind
  all_goals
    rw [Instruction.effect, hkind] at h
    cases h
    exact ⟨rfl, rfl⟩

/-- What the effect of a block comes to with `inserted` values more, where the block's own stack is
`height` high at its end. A branch that falls through takes its value without a marker for it. -/
def MadeUp : (effect : BlockEffect) → (inserted height : Nat) → Prop
  | .single net, inserted, height => net + inserted = height
  | .pair fall taken, inserted, height =>
    taken + inserted = height ∧ fall + inserted = height - (1 : Int)

/-- The declared effect of a block and its markers for values from outside add up to the height of
its own stack, if it ends in anything but a branch that takes its value on one side only. Before
such a branch and where it jumps they do so too. Where it falls through they are one less, which is
below the bottom if the block has nothing of its own by then. -/
theorem effect_add_accesses (hs : ofInstructions is = .ok s) (hordered : Ordered is)
    (hb : b ∈ s.blocks) : ∃ inserted, accessCount b s.annotated = accessCount b is + inserted ∧
      MadeUp b.effect inserted (height (own b is)) := by
  obtain ⟨pieces, h⟩ := exists_pieces hs hordered
  obtain rfl := (ofInstructions_eq_ok hs).2.1
  have hcount := (h.marked_annotated hs).accessCount_eq h hb List.length_nil rfl
  refine ⟨outside 0 (own b s.instructions), by simpa [own, outside] using hcount, ?_⟩
  obtain ⟨p, hp, rfl⟩ : ∃ p ∈ pieces, p.block = b := by simpa [h.laid.blocks_eq] using hb
  obtain ⟨earlier, later, hpieces⟩ := List.append_of_mem hp
  have hsound := h.laid.sound p hp
  have hbody := net_add_outside hsound.branch_last
  rw [own, h.filter_contains hpieces, hsound.effect_eq, Piece.part,
    BlockEffect.replay_eq_ofRun hsound.branch_last, BlockEffect.ofRun, outside_snoc, height_snoc,
    access]
  cases heffect : p.last.effect with
  | fixed pops pushes =>
    simp only [MadeUp, length_accesses]
    omega
  | branch fall taken =>
    obtain ⟨rfl, rfl⟩ := branch_effect heffect
    simp only [MadeUp, List.length_nil]
    omega

/-- The code of `(and (or a b) c)`: what the second branch tests comes from the blocks before. -/
def andOr : List Instruction :=
  [.ofOpcode .varref (some (.symbol "a")) 0,
    .ofOpcode .gotoIfNotNilElsePop (some (.symbol "1")) 1, .ofOpcode .varref (some (.symbol "b")) 2,
    .ofOpcode .label (some (.symbol "1")) 3, .ofOpcode .gotoIfNilElsePop (some (.symbol "2")) 4,
    .ofOpcode .varref (some (.symbol "c")) 5, .ofOpcode .label (some (.symbol "2")) 6,
    .ofOpcode .ret none 7]

/-- The offsets ascend, and the block of the second branch takes a value from outside without a
marker for it. -/
theorem unmarked_andOr : ∃ s, ofInstructions andOr = .ok s ∧
    andOr.IsChain (fun i j => i.offset < j.offset) ∧
    ∃ b ∈ s.blocks, b.start = 3 ∧ b.stop = 4 ∧ b.effect = .pair (-1) 0 ∧
      accessCount b s.annotated = 0 := by
  have hall : (ofInstructions andOr).toOption.any (fun s => s.blocks.any fun b =>
      b.start = 3 ∧ b.stop = 4 ∧ b.effect = .pair (-1) 0 ∧ accessCount b s.annotated = 0) =
        true := by
    decide +kernel
  obtain ⟨s, hs, hblocks⟩ := exists_ok_of_any hall
  obtain ⟨b, hb, hblock⟩ := List.any_eq_true.1 hblocks
  exact ⟨s, hs, by decide, b, hb, of_decide_eq_true hblock⟩

theorem effect_add_accesses_andOr : ∃ s, ofInstructions andOr = .ok s ∧ Ordered andOr ∧
    ∃ b ∈ s.blocks, b.start = 0 ∧ ∃ inserted,
      accessCount b s.annotated = accessCount b andOr + inserted ∧
      MadeUp b.effect inserted (height (own b andOr)) := by
  have hblock : (ofInstructions andOr).toOption.any (fun s => s.blocks.any (·.start = 0)) =
      true := by
    decide +kernel
  have hordered : Ordered andOr := by decide
  obtain ⟨s, hs, hblocks⟩ := exists_ok_of_any hblock
  obtain ⟨b, hb, hstart⟩ := List.any_eq_true.1 hblocks
  exact ⟨s, hs, hordered, b, hb, of_decide_eq_true hstart, effect_add_accesses hs hordered hb⟩

end ElispLift.Segmentation
