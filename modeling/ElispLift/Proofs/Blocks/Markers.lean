import ElispLift.Blocks.Annotation
import ElispLift.Proofs.Blocks.Flow

/-!
# Markers among the instructions

The annotated instructions are the instructions themselves with markers between. What stands in
front of an instruction is told by the jumps to its offset and by the instructions before it in its
block.
-/

namespace ElispLift.Segmentation

/-- The values that instructions leave on the stack of their block, which starts empty. What is
missing comes from outside, and branches leave the stack as it is. -/
def height (part : List Instruction) : Nat :=
  part.foldl (fun height i =>
    match i.effect with
    | .fixed pops pushes => height - pops + pushes
    | .branch _ _ => height) 0

/-- A value that an instruction takes from outside its block has a marker, the deepest first. -/
def Accesses (s : Segmentation) (n : Nat) (i : Instruction) (accessing : List Instruction) : Prop :=
  match i.effect with
  | .fixed pops _ => ∃ b ∈ s.blocks, b.contains i.offset = true ∧
    accessing = ((List.range
      (pops - height ((s.instructions.take n).filter fun j => b.contains j.offset))).reverse.map
        fun reach => stackAccess (reach + 1) i.offset)
  | .branch _ _ => accessing = []

/-- The first instruction at an offset has a marker for each jump to it, the last source first. -/
structure Arrives (s : Segmentation) (n : Nat) (i : Instruction) (arriving : List Instruction) :
    Prop where
  first : IsFirstAt s.instructions i.offset n → ∃ sources : List Nat,
    arriving = sources.map (comeFrom · i.offset) ∧ sources.Pairwise (· ≥ ·) ∧
      sources.Perm (((s.instructions.filterMap (jump? s.instructions)).filter
        (·.target == i.offset)).map (·.source))
  later : ¬IsFirstAt s.instructions i.offset n → arriving = []

/-- The instructions from number `n` on, with the markers in front of each. -/
inductive Marked (s : Segmentation) : (n : Nat) → List Instruction → List Instruction → Prop where
  | nil {n : Nat} : Marked s n [] []
  | cons {n : Nat} {i : Instruction} {rest out arriving accessing : List Instruction}
      (harriving : s.Arrives n i arriving) (haccessing : s.Accesses n i accessing)
      (h : Marked s (n + 1) rest out) :
      Marked s n (i :: rest) (arriving ++ accessing ++ i :: out)

variable {is front rest pre post out : List Instruction} {s : Segmentation} {i : Instruction}
  {pieces earlier later : List Piece} {p : Piece} {n m depth offset : Nat}

/-! ### Single instructions -/

theorem height_snoc : height (pre ++ [i]) = (access (height pre) i).2 := by
  rw [height, List.foldl_concat, access]
  cases i.effect <;> rfl

theorem height_of_labels (h : ∀ i ∈ pre, i.isOp .label = true) : height pre = 0 := by
  induction pre using List.reverseRecOn with
  | nil => rfl
  | append_singleton pre i ih =>
    have hkind := Instruction.isOp_iff.1 (h i (by simp))
    have heffect : i.effect = .fixed 0 0 := by
      rw [Instruction.effect, hkind]
      rfl
    rw [height_snoc, ih fun j hj => h j (List.mem_append_left _ hj), access, heffect]

theorem accesses_eq (offset n : Nat) : accesses offset n =
    (List.range n).reverse.map fun reach => stackAccess (reach + 1) offset := by
  induction n with
  | zero => rfl
  | succ n ih => rw [accesses, ih, List.range_succ, List.reverse_concat, List.map_cons]

/-- Instructions in front of one at their own offset are labels. -/
theorem labels_of_same_offset (h : Ordered (pre ++ i :: post))
    (hsame : ∀ j ∈ pre, j.offset = i.offset) : ∀ j ∈ pre, j.isOp .label = true := by
  induction pre with
  | nil => simp
  | cons j pre ih =>
    have htail : Ordered (pre ++ i :: post) := (List.isChain_cons.1 h).2
    have hlabels := ih htail fun k hk => hsame k (List.mem_cons_of_mem _ hk)
    refine List.forall_mem_cons.2 ⟨?_, hlabels⟩
    have hnext : ∃ k others, pre ++ i :: post = k :: others ∧ k.offset = i.offset := by
      cases pre with
      | nil => exact ⟨i, post, rfl, rfl⟩
      | cons k pre => exact ⟨k, pre ++ i :: post, rfl, hsame k (by simp)⟩
    obtain ⟨k, others, hk, hoffset⟩ := hnext
    have hle := (List.isChain_cons.1 h).1 k (show (pre ++ i :: post).head? = some k by rw [hk]; rfl)
    have hj := hsame j (by simp)
    exact (hle.resolve_left (by omega)).2

theorem isFirstAt_iff : IsFirstAt (front ++ i :: rest) i.offset front.length ↔
    i.offset ∉ front.map (·.offset) := by
  constructor
  · rintro ⟨-, hbefore⟩ hmem
    obtain ⟨j, hj, hoffset⟩ := List.mem_map.1 hmem
    obtain ⟨m, hm⟩ := List.mem_iff_getElem?.1 hj
    have hlt := (List.getElem?_eq_some_iff.1 hm).1
    exact hbefore m j hlt (by rw [List.getElem?_append_left hlt, hm]) hoffset
  · intro hmem
    refine ⟨⟨i, by simp, rfl⟩, fun m j hm hj hoffset => hmem ?_⟩
    rw [List.getElem?_append_left hm] at hj
    exact List.mem_map.2 ⟨j, List.mem_of_getElem? hj, hoffset⟩

/-- An instruction stands at the offset of an earlier one if it stands at that of the one before. -/
theorem mem_offsets_iff (h : Ordered (front ++ i :: rest)) :
    i.offset ∈ front.map (·.offset) ↔ front.getLast?.map (·.offset) = some i.offset := by
  have hpairwise := List.pairwise_append.1 h.pairwise
  rcases List.eq_nil_or_concat' front with rfl | ⟨others, last, rfl⟩
  · simp
  · rw [List.getLast?_concat]
    constructor
    · intro hmem
      obtain ⟨j, hj, hoffset⟩ := List.mem_map.1 hmem
      have hle : j.offset ≤ last.offset := by
        rcases List.mem_append.1 hj with hj | hj
        · exact (List.pairwise_append.1 hpairwise.1).2.2 j hj last (by simp)
        · rw [List.mem_singleton.1 hj]
      have hle' := hpairwise.2.2 last (by simp) i (by simp)
      simp only [Option.map_some, Option.some.injEq]
      omega
    · intro hlast
      exact List.mem_map.2 ⟨last, by simp, Option.some.inj hlast⟩

/-! ### The whole list -/

/-- What the block of the next instruction has pushed is known, if the instruction is not the first
of its block. -/
def Counted (pieces : List Piece) (front : List Instruction) (depth : Nat) : Prop :=
  ∀ earlier p later pre i post, pieces = earlier ++ p :: later → p.part = pre ++ i :: post →
    front = earlier.flatMap Piece.part ++ pre → pre ≠ [] → depth = height pre

/-- The jumps of the program as its segmentation lists them. -/
theorem sources_eq (hs : ofInstructions is = .ok s) : s.sources offset =
    ((is.filterMap (jump? is)).filter (·.target == offset)).map (·.source) := by
  rw [sources, (jumps_eq hs).2]

theorem arrives (hs : ofInstructions is = .ok s) (hordered : Ordered is)
    (hsplit : is = front ++ i :: rest) :
    s.Arrives front.length i
      (if front.getLast?.map (·.offset) = some i.offset then [] else s.arrivals i.offset) := by
  have hinstructions := (ofInstructions_eq_ok hs).2.1
  have hfirst : IsFirstAt s.instructions i.offset front.length ↔
      ¬front.getLast?.map (·.offset) = some i.offset := by
    rw [hinstructions, hsplit, isFirstAt_iff, mem_offsets_iff (hsplit ▸ hordered)]
  refine ⟨fun h => ?_, fun h => ?_⟩
  · rw [if_neg (hfirst.1 h), hinstructions]
    refine ⟨Sorted.descending (s.sources i.offset), rfl, Sorted.pairwise_descending _, ?_⟩
    rw [← sources_eq hs]
    exact Sorted.perm_descending _
  · rw [if_pos (by simpa [hfirst] using h)]

namespace MadeOf

variable (h : s.MadeOf pieces)

include h

theorem take_filter_contains (hpieces : pieces = earlier ++ p :: later)
    (hpart : p.part = pre ++ i :: post) :
    (earlier.flatMap Piece.part ++ pre).filter (fun j => p.block.contains j.offset) = pre := by
  have hpre : ∀ j ∈ pre, p.block.start ≤ j.offset ∧ j.offset ≤ p.block.stop :=
    fun j hj => h.bounds (by simp [hpieces]) (by simp [hpart, hj])
  have hnone : ∀ j ∈ ([] : List Instruction), p.block.stop < j.offset := by simp
  have hfilter := filter_offsets (h.apart hpieces).1 hpre hnone
  rwa [List.append_nil] at hfilter

/-- The count that an instruction finds, with that of a new block set back. -/
theorem depth_eq (hcounted : Counted pieces front depth) (hpieces : pieces = earlier ++ p :: later)
    (hpart : p.part = pre ++ i :: post) (hfront : front = earlier.flatMap Piece.part ++ pre) :
    (if s.startsBlock i.offset then 0 else depth) = height pre := by
  have hp : p ∈ pieces := by simp [hpieces]
  have hstarts : s.startsBlock i.offset = true ↔ i.offset = p.block.start := by
    rw [startsBlock, List.any_eq_true]
    constructor
    · rintro ⟨b, hb, hstart⟩
      have hstart : b.start = i.offset := by simpa using hstart
      obtain ⟨k, hk⟩ := List.mem_iff_getElem?.1 hb
      obtain ⟨_, q, _, hpieces', rfl, rfl⟩ := h.exists_piece_of_block hk
      have hle := h.start_le_stop (p := q) (by simp [hpieces'])
      have hcontains : q.block.contains i.offset = true := by
        simp [Block.contains]
        omega
      have hsame := h.eq_of_contains hk (h.block_at hpieces) hcontains
        (h.contains_of_mem hp (by simp [hpart]))
      have hblock := h.block_at hpieces
      rw [← hsame, hk] at hblock
      rw [← hstart, Option.some.inj hblock]
    · intro hstart
      refine ⟨p.block, ?_, by simpa using hstart.symm⟩
      exact List.mem_of_getElem? (h.block_at hpieces)
  by_cases hpre : pre = []
  · subst hpre
    have hstart := (h.laid.sound p hp).start_eq i (by rw [hpart]; rfl)
    rw [if_pos (hstarts.2 hstart)]
    rfl
  · split
    next hstart =>
      -- All instructions before are at the start of the block too.
      have hordered : Ordered (pre ++ i :: post) := by
        have hinfix := h.ordered
        rw [h.instructions_eq hpieces, hpart] at hinfix
        exact (List.isChain_append.1 (List.isChain_append.1 hinfix).2.1).1
      refine (height_of_labels (labels_of_same_offset hordered fun j hj => ?_)).symm
      have hbounds := h.bounds hp (i := j) (by simp [hpart, hj])
      have hle := (List.pairwise_append.1 hordered.pairwise).2.2 j hj i (by simp)
      have := hstarts.1 hstart
      omega
    next => exact hcounted _ _ _ _ _ _ hpieces hpart hfront hpre

theorem counted_next (hcounted : Counted pieces front depth) :
    Counted pieces (front ++ [i])
      (access (if s.startsBlock i.offset then 0 else depth) i).2 := by
  intro earlier p later pre j post hpieces hpart hfront hpre
  rcases List.eq_nil_or_concat' pre with rfl | ⟨pre, i', rfl⟩
  · exact (hpre rfl).elim
  · rw [← List.append_assoc] at hfront
    obtain ⟨hbefore, hi⟩ := List.append_inj' hfront rfl
    obtain rfl := (List.cons.inj hi).1
    rw [h.depth_eq hcounted hpieces (by simpa using hpart) hbefore, height_snoc]

theorem accesses_access (hcounted : Counted pieces front depth)
    (hsplit : s.instructions = front ++ i :: rest) :
    s.Accesses front.length i (access (if s.startsBlock i.offset then 0 else depth) i).1 := by
  obtain ⟨earlier, p, later, pre, post, hpieces, hpart, rfl, -⟩ := exists_piece (h.whole ▸ hsplit)
  rw [h.depth_eq hcounted hpieces hpart rfl, Accesses, access]
  cases i.effect with
  | branch fall taken => rfl
  | fixed pops pushes =>
    refine ⟨p.block, List.mem_of_getElem? (h.block_at hpieces),
      h.contains_of_mem (by simp [hpieces]) (by simp [hpart]), ?_⟩
    rw [hsplit, List.take_left, h.take_filter_contains hpieces hpart]
    exact accesses_eq _ _

theorem marked_annotateFrom (hs : ofInstructions s.instructions = .ok s)
    (hcounted : Counted pieces front depth) (hsplit : s.instructions = front ++ rest) :
    Marked s front.length rest (s.annotateFrom (front.getLast?.map (·.offset)) depth rest) := by
  induction rest generalizing front depth with
  | nil => exact .nil
  | cons i rest ih =>
    have hrest := ih (h.counted_next (i := i) hcounted) (by simpa using hsplit)
    rw [List.getLast?_concat, List.length_append] at hrest
    exact .cons (arrives hs h.ordered hsplit) (h.accesses_access hcounted hsplit) hrest

end MadeOf

/-! ### What the markers add up to -/

/-- Whether an instruction says something about control or the stack only. -/
def isMarker (i : Instruction) : Bool := i.isOp .comeFrom || i.isOp .stackAccess

theorem marker_of_mem_arrivals {j : Instruction} (h : j ∈ s.arrivals offset) :
    isMarker j = true ∧ j.offset = offset := by
  obtain ⟨source, -, rfl⟩ := List.mem_map.1 h
  exact ⟨rfl, rfl⟩

theorem marker_of_mem_access {j : Instruction} (h : j ∈ (access depth i).1) :
    isMarker j = true ∧ j.offset = i.offset := by
  rw [access] at h
  split at h
  · rw [accesses_eq] at h
    obtain ⟨reach, -, rfl⟩ := List.mem_map.1 h
    exact ⟨rfl, rfl⟩
  · cases h

theorem Arrives.eq_comeFrom {arriving : List Instruction} (h : s.Arrives n i arriving) :
    ∀ j ∈ arriving, ∃ source, j = comeFrom source i.offset := by
  intro j hj
  by_cases hfirst : IsFirstAt s.instructions i.offset n
  · obtain ⟨sources, rfl, -⟩ := h.first hfirst
    obtain ⟨source, -, rfl⟩ := List.mem_map.1 hj
    exact ⟨source, rfl⟩
  · rw [h.later hfirst] at hj
    cases hj

theorem Accesses.eq_stackAccess {accessing : List Instruction} (h : s.Accesses n i accessing) :
    ∀ j ∈ accessing, ∃ reach, j = stackAccess reach i.offset := by
  intro j hj
  unfold Accesses at h
  split at h
  · obtain ⟨b, -, -, rfl⟩ := h
    obtain ⟨reach, -, rfl⟩ := List.mem_map.1 hj
    exact ⟨reach + 1, rfl⟩
  · rw [h] at hj
    cases hj

/-- Without the markers the instructions are as they were. -/
theorem Marked.filter_eq (h : Marked s n rest out) (hplain : ∀ i ∈ rest, isMarker i = false) :
    out.filter (fun i => !isMarker i) = rest := by
  induction h with
  | nil => rfl
  | @cons n i rest out arriving accessing harriving haccessing _ ih =>
    have hcomeFroms : arriving.filter (fun i => !isMarker i) = [] := by
      refine List.filter_eq_nil_iff.2 fun j hj => ?_
      obtain ⟨source, rfl⟩ := harriving.eq_comeFrom j hj
      simp [isMarker, comeFrom, Instruction.isOp, Instruction.ofOpcode]
    have hstackAccesses : accessing.filter (fun i => !isMarker i) = [] := by
      refine List.filter_eq_nil_iff.2 fun j hj => ?_
      obtain ⟨reach, rfl⟩ := haccessing.eq_stackAccess j hj
      simp [isMarker, stackAccess, Instruction.isOp, Instruction.ofOpcode]
    have hi := hplain i (by simp)
    rw [List.filter_append, List.filter_append, hcomeFroms, hstackAccesses,
      List.filter_cons_of_pos (by simp [hi]), ih fun j hj => hplain j (List.mem_cons_of_mem _ hj)]
    rfl

/-- The jumps to offsets not yet reached are those to the offset of the next instruction, if that is
a new one, and those to offsets that it does not reach either. -/
theorem perm_filter_reached (jumps : List Jump) :
    ((jumps.filter fun jump => jump.target = i.offset ∧ i.offset ∉ front.map (·.offset)) ++
      jumps.filter fun jump => jump.target ∉ (front ++ [i]).map (·.offset)).Perm
      (jumps.filter fun jump => jump.target ∉ front.map (·.offset)) := by
  have hhere : (jumps.filter fun jump => jump.target ∉ front.map (·.offset)).filter
      (fun jump => jump.target = i.offset) =
      jumps.filter fun jump => jump.target = i.offset ∧ i.offset ∉ front.map (·.offset) := by
    rw [List.filter_filter]
    refine List.filter_congr fun jump _ => ?_
    rw [← Bool.decide_and]
    exact decide_eq_decide.2 (and_congr_right fun htarget => by rw [htarget])
  have helsewhere : (jumps.filter fun jump => jump.target ∉ front.map (·.offset)).filter
      (fun jump => !decide (jump.target = i.offset)) =
      jumps.filter fun jump => jump.target ∉ (front ++ [i]).map (·.offset) := by
    rw [List.filter_filter]
    refine List.filter_congr fun jump _ => ?_
    rw [← decide_not, ← Bool.decide_and]
    refine decide_eq_decide.2 ?_
    rw [List.map_append, List.mem_append, not_or, and_comm]
    simp
  rw [← hhere, ← helsewhere]
  exact List.filter_append_perm _ _

/-- An instruction has the markers for the jumps to its offset, unless that was reached before. -/
theorem arriving_perm {arriving : List Instruction} (hsplit : s.instructions = front ++ i :: rest)
    {jumps : List Jump} (hjumps : s.instructions.filterMap (jump? s.instructions) = jumps)
    (h : s.Arrives front.length i arriving) :
    arriving.Perm
      ((jumps.filter fun jump => jump.target = i.offset ∧ i.offset ∉ front.map (·.offset)).map
        fun jump => comeFrom jump.source jump.target) := by
  have hfirst : IsFirstAt s.instructions i.offset front.length ↔
      i.offset ∉ front.map (·.offset) := hsplit ▸ isFirstAt_iff
  by_cases hmem : i.offset ∉ front.map (·.offset)
  · obtain ⟨sources, rfl, -, hsources⟩ := h.first (hfirst.2 hmem)
    have hhere : (jumps.filter fun jump =>
        jump.target = i.offset ∧ i.offset ∉ front.map (·.offset)) =
        jumps.filter (·.target == i.offset) :=
      List.filter_congr fun jump _ => Bool.eq_iff_iff.2 (by simp [hmem])
    rw [hjumps] at hsources
    rw [hhere]
    refine (hsources.map _).trans (List.Perm.of_eq ?_)
    rw [List.map_map]
    refine List.map_congr_left fun jump hjump => ?_
    have htarget : jump.target = i.offset := by simpa using List.of_mem_filter hjump
    rw [Function.comp_apply, htarget]
  · have hnone : (jumps.filter fun jump =>
        jump.target = i.offset ∧ i.offset ∉ front.map (·.offset)) = [] :=
      List.filter_eq_nil_iff.2 fun jump _ hhere => hmem (of_decide_eq_true hhere).2
    rw [h.later (mt hfirst.1 hmem), hnone]
    exact .refl _

/-- The markers that are still to come are those for jumps to offsets not yet reached. -/
theorem Marked.perm_comeFroms (h : Marked s n rest out) (hn : front.length = n)
    (hsplit : s.instructions = front ++ rest) (hplain : ∀ i ∈ rest, isMarker i = false)
    {jumps : List Jump} (hjumps : s.instructions.filterMap (jump? s.instructions) = jumps)
    (htargets : ∀ jump ∈ jumps, jump.target ∈ s.instructions.map (·.offset)) :
    (out.filter (·.isOp .comeFrom)).Perm
      ((jumps.filter fun jump => jump.target ∉ front.map (·.offset)).map
        fun jump => comeFrom jump.source jump.target) := by
  induction h generalizing front with
  | nil =>
    -- At the end all targets are reached, since labels are instructions.
    rw [List.append_nil] at hsplit
    rw [hsplit] at htargets
    simpa using htargets
  | @cons n i rest out arriving accessing harriving haccessing _ ih =>
    subst hn
    have hfront : (front ++ [i]).length = front.length + 1 := by simp
    have hrest := ih hfront (by simpa using hsplit)
      fun j hj => hplain j (List.mem_cons_of_mem _ hj)
    have hcomeFroms : arriving.filter (·.isOp .comeFrom) = arriving := by
      refine List.filter_eq_self.2 fun j hj => ?_
      obtain ⟨source, rfl⟩ := harriving.eq_comeFrom j hj
      rfl
    have hstackAccesses : accessing.filter (·.isOp .comeFrom) = [] := by
      refine List.filter_eq_nil_iff.2 fun j hj => ?_
      obtain ⟨reach, rfl⟩ := haccessing.eq_stackAccess j hj
      simp [stackAccess, Instruction.isOp, Instruction.ofOpcode]
    have hi : i.isOp .comeFrom = false := by
      have := hplain i (by simp)
      simp only [isMarker, Bool.or_eq_false_iff] at this
      exact this.1
    rw [List.filter_append, List.filter_append, hcomeFroms, hstackAccesses, List.append_nil,
      List.filter_cons_of_neg (by simp [hi])]
    refine ((arriving_perm hsplit hjumps harriving).append hrest).trans ?_
    rw [← List.map_append]
    exact (perm_filter_reached jumps).map _

/-- Without the markers the instructions are as they were. The markers stand where they are needed:
one for each jump, in front of the first instruction at its target and with later sources first, and
in front of each instruction one for every value that it takes from outside its block, the deepest
first. -/
theorem annotated_marked (hs : ofInstructions is = .ok s) (hordered : Ordered is)
    (hplain : ∀ i ∈ is, isMarker i = false) :
    s.annotated.filter (fun i => !isMarker i) = is ∧
    (∀ i ∈ is, (jump? is i).isSome = i.isJump) ∧
    (s.annotated.filter (·.isOp .comeFrom)).Perm
      ((is.filterMap (jump? is)).map fun jump => comeFrom jump.source jump.target) ∧
    Marked s 0 is s.annotated := by
  obtain ⟨pieces, h⟩ := exists_pieces hs hordered
  obtain rfl := (ofInstructions_eq_ok hs).2.1
  have hcounted : Counted pieces [] 0 := by
    intro earlier p later pre i post _ _ hfront hpre
    exact (hpre (List.append_eq_nil_iff.1 hfront.symm).2).elim
  have hmarked : Marked s 0 s.instructions s.annotated := h.marked_annotateFrom hs hcounted rfl
  refine ⟨hmarked.filter_eq hplain, fun i hi => isSome_jump? ((jumps_eq hs).1 i hi), ?_, hmarked⟩
  have htargets : ∀ jump ∈ s.instructions.filterMap (jump? s.instructions),
      jump.target ∈ s.instructions.map (·.offset) := by
    intro jump hjump
    obtain ⟨i, -, hi⟩ := List.mem_filterMap.1 hjump
    obtain ⟨label, hlabel, -, hoffset⟩ := exists_label (jump?_eq_some.1 hi).2.1
    exact List.mem_map.2 ⟨label, hlabel, hoffset⟩
  have hperm := hmarked.perm_comeFroms List.length_nil (List.nil_append _).symm hplain rfl htargets
  have hall : ((s.instructions.filterMap (jump? s.instructions)).filter fun jump =>
      jump.target ∉ ([] : List Instruction).map (·.offset)) =
      s.instructions.filterMap (jump? s.instructions) :=
    List.filter_eq_self.2 fun jump _ => decide_eq_true List.not_mem_nil
  rwa [hall] at hperm

theorem annotated_marked_whileOr : ∃ s, ofInstructions whileOr = .ok s ∧ Ordered whileOr ∧
    (∀ i ∈ whileOr, isMarker i = false) ∧ s.annotated.filter (fun i => !isMarker i) = whileOr ∧
    Marked s 0 whileOr s.annotated := by
  obtain ⟨s, hs⟩ := exists_whileOr
  have hordered : Ordered whileOr := by decide
  have hplain : ∀ i ∈ whileOr, isMarker i = false := by decide
  obtain ⟨hfilter, -, -, hmarked⟩ := annotated_marked hs hordered hplain
  exact ⟨s, hs, hordered, hplain, hfilter, hmarked⟩

end ElispLift.Segmentation
