import ElispLift.Proofs.Blocks.Pieces

/-!
# The partition into blocks

Blocks follow each other without an overlap, and every instruction is in one of them. A block starts
at the first instruction, where a jump leads to, and behind every jump and return, and nowhere else.
Its effect is that of its own instructions.
-/

namespace ElispLift

namespace BlockEffect

open Instruction

variable {body : List Instruction} {last : Instruction}

theorem replay_of_no_branch {rest : List Instruction} (height : Int)
    (h : ∀ i ∈ body, i.effect.isBranch = false) :
    replay height (body ++ rest) = replay (height + net body) rest := by
  induction body generalizing height with
  | nil => simp [net]
  | cons i body ih =>
    have hi := h i (by simp)
    rw [List.cons_append, replay]
    cases heffect : i.effect with
    | fixed pops pushes =>
      rw [← heffect]
      simp only [heffect, Effect.netTaken?]
      rw [ih _ fun j hj => h j (List.mem_cons_of_mem _ hj), net, heffect, Int.add_assoc]
    | branch fall taken =>
      rw [heffect] at hi
      cases hi

/-- The change of the stack's height over the instructions of a block, of which only the last may be
a branch whose sides differ. -/
def ofRun (body : List Instruction) (last : Instruction) : BlockEffect :=
  match last.effect with
  | .fixed pops pushes => single (net body - pops + pushes)
  | .branch (fallPops, fallPushes) (takenPops, takenPushes) =>
    pair (net body - fallPops + fallPushes) (net body - takenPops + takenPushes)

theorem replay_eq_ofRun (h : ∀ i ∈ body, i.effect.isBranch = false) :
    replay 0 (body ++ [last]) = ofRun body last := by
  rw [replay_of_no_branch 0 h, replay, ofRun, Int.zero_add]
  cases last.effect with
  | fixed pops pushes =>
    simp only [Effect.netTaken?, Effect.net, replay]
    congr 1
    omega
  | branch fall taken =>
    simp only [Effect.netTaken?, Effect.net]
    congr 1 <;> omega

theorem exists_pair_iff : (∃ fall taken, ofRun body last = pair fall taken) ↔
    last.effect.isBranch = true := by
  rw [ofRun]
  cases last.effect <;> simp [Effect.isBranch]

end BlockEffect

namespace Segmentation

variable {is : List Instruction} {s : Segmentation} {pieces : List Piece} {p q : Piece}
  {i : Instruction} {offset n m : Nat} {b c : Block}

theorem Piece.Sound.branch_last {targets : List Nat} (h : p.Sound is targets) :
    ∀ i ∈ p.body, i.effect.isBranch = false := by
  intro i hi
  refine Bool.eq_false_iff.2 fun hbranch => ?_
  have hexit := (exit?_isSome is).2 (.inl (Instruction.isJump_of_isBranch hbranch))
  simp [h.stays i hi] at hexit

namespace MadeOf

/-- The instructions of a piece lie between the ends of its block. -/
theorem bounds (h : s.MadeOf pieces) (hp : p ∈ pieces) (hi : i ∈ p.part) :
    p.block.start ≤ i.offset ∧ i.offset ≤ p.block.stop := by
  have hsound := h.laid.sound p hp
  obtain ⟨earlier, later, rfl⟩ := List.append_of_mem hp
  have hpairwise := h.ordered.pairwise
  rw [h.whole, List.flatMap_append, List.flatMap_cons] at hpairwise
  have hpart := (List.pairwise_append.1 (List.pairwise_append.1 hpairwise).2.1).1
  constructor
  · cases hfirst : p.part with
    | nil => exact (p.part_ne_nil hfirst).elim
    | cons first others =>
      have hstart := hsound.start_eq first (by rw [hfirst]; rfl)
      rw [hfirst] at hi hpart
      rcases List.mem_cons.1 hi with rfl | hi
      · exact Nat.le_of_eq hstart.symm
      · exact hstart ▸ (List.pairwise_cons.1 hpart).1 i hi
  · rw [← hsound.stop_eq]
    rcases List.mem_append.1 hi with hi | hi
    · exact (List.pairwise_append.1 hpart).2.2 i hi p.last (by simp)
    · rw [List.mem_singleton.1 hi]

theorem start_le_stop (h : s.MadeOf pieces) (hp : p ∈ pieces) : p.block.start ≤ p.block.stop := by
  have hbounds := h.bounds hp (i := p.last) (by simp [Piece.part])
  omega

/-- A block ends before the later ones start. -/
theorem pairwise (h : s.MadeOf pieces) :
    pieces.Pairwise fun p q => p.block.stop < q.block.start := by
  have hle := fun p hp => h.start_le_stop (p := p) hp
  have hchain := h.laid.chain
  generalize pieces = ps at hle hchain
  induction ps with
  | nil => exact .nil
  | cons p ps ih =>
    have hrest := ih (fun q hq => hle q (List.mem_cons_of_mem _ hq)) (List.isChain_cons.1 hchain).2
    refine List.pairwise_cons.2 ⟨fun r hr => ?_, hrest⟩
    cases ps with
    | nil => cases hr
    | cons q ps =>
      have hnext := (List.isChain_cons_cons.1 hchain).1.stop_lt
      rcases List.mem_cons.1 hr with rfl | hr
      · exact hnext
      · have hlater := (List.pairwise_cons.1 hrest).1 r hr
        have := hle q (by simp)
        omega

theorem getElem?_blocks (h : s.MadeOf pieces) : s.blocks[n]? = pieces[n]?.map (·.block) := by
  rw [h.laid.blocks_eq, List.getElem?_map]

theorem stop_lt_start (h : s.MadeOf pieces) (hlt : n < m) (hb : s.blocks[n]? = some b)
    (hc : s.blocks[m]? = some c) : b.stop < c.start := by
  rw [h.getElem?_blocks, Option.map_eq_some_iff] at hb hc
  obtain ⟨p, hp, rfl⟩ := hb
  obtain ⟨q, hq, rfl⟩ := hc
  obtain ⟨hn, rfl⟩ := List.getElem?_eq_some_iff.1 hp
  obtain ⟨hm, rfl⟩ := List.getElem?_eq_some_iff.1 hq
  exact List.pairwise_iff_getElem.1 h.pairwise n m hn hm hlt

/-- Two blocks with a common offset are the same. -/
theorem eq_of_contains (h : s.MadeOf pieces) (hb : s.blocks[n]? = some b)
    (hc : s.blocks[m]? = some c) (hin : b.contains offset = true)
    (hin' : c.contains offset = true) : n = m := by
  have hin : b.start ≤ offset ∧ offset ≤ b.stop := by simpa [Block.contains] using hin
  have hin' : c.start ≤ offset ∧ offset ≤ c.stop := by simpa [Block.contains] using hin'
  rcases Nat.lt_trichotomy n m with hlt | rfl | hlt
  · have := h.stop_lt_start hlt hb hc
    omega
  · rfl
  · have := h.stop_lt_start hlt hc hb
    omega

theorem contains_of_mem (h : s.MadeOf pieces) (hp : p ∈ pieces) (hi : i ∈ p.part) :
    p.block.contains i.offset = true := by
  simpa [Block.contains] using h.bounds hp hi

/-- The instructions before a piece lie before its block, and those after it behind. -/
theorem apart (h : s.MadeOf pieces) {earlier later : List Piece}
    (hpieces : pieces = earlier ++ p :: later) :
    (∀ i ∈ earlier.flatMap Piece.part, i.offset < p.block.start) ∧
      ∀ i ∈ later.flatMap Piece.part, p.block.stop < i.offset := by
  have hpairwise := List.pairwise_append.1 (hpieces ▸ h.pairwise)
  constructor
  · intro i hi
    obtain ⟨q, hq, hi⟩ := List.mem_flatMap.1 hi
    have hbounds := h.bounds (p := q) (by simp [hpieces, hq]) hi
    have := hpairwise.2.2 q hq p (by simp)
    omega
  · intro i hi
    obtain ⟨q, hq, hi⟩ := List.mem_flatMap.1 hi
    have hbounds := h.bounds (p := q) (by simp [hpieces, hq]) hi
    have := (List.pairwise_cons.1 hpairwise.2.1).1 q hq
    omega

/-- The instructions at the offsets of a block are those of its piece. -/
theorem filter_contains (h : s.MadeOf pieces) {earlier later : List Piece}
    (hpieces : pieces = earlier ++ p :: later) :
    s.instructions.filter (fun i => p.block.contains i.offset) = p.part := by
  have hp : p ∈ pieces := by simp [hpieces]
  obtain ⟨hearlier, hlater⟩ := h.apart hpieces
  rw [h.whole, hpieces, List.flatMap_append, List.flatMap_cons]
  exact filter_offsets hearlier (fun i hi => h.bounds hp hi) hlater

/-- Every instruction is in exactly one block. -/
theorem existsUnique_block (h : s.MadeOf pieces) (hi : i ∈ s.instructions) :
    ∃! n : Nat, ∃ b : Block, s.blocks[n]? = some b ∧ b.contains i.offset = true := by
  rw [h.whole] at hi
  obtain ⟨p, hp, hi⟩ := List.mem_flatMap.1 hi
  obtain ⟨n, hn⟩ := List.mem_iff_getElem?.1 hp
  have hblock : s.blocks[n]? = some p.block := by simp [h.getElem?_blocks, hn]
  refine ⟨n, ⟨p.block, hblock, h.contains_of_mem hp hi⟩, ?_⟩
  rintro m ⟨b, hb, hcontains⟩
  exact h.eq_of_contains hb hblock hcontains (h.contains_of_mem hp hi)

theorem exists_last (h : s.MadeOf pieces) (hb : b ∈ s.blocks) :
    ∃ p ∈ pieces, p.block = b ∧ p.last ∈ s.instructions ∧ p.last.offset = b.stop := by
  rw [h.laid.blocks_eq] at hb
  obtain ⟨p, hp, rfl⟩ := List.mem_map.1 hb
  refine ⟨p, hp, rfl, ?_, (h.laid.sound p hp).stop_eq⟩
  rw [h.whole]
  exact List.mem_flatMap.2 ⟨p, hp, by simp [Piece.part]⟩

theorem follow_eq (h : s.MadeOf pieces) (hb : s.blocks[n]? = some b)
    (hc : s.blocks[n + 1]? = some c) : b.follow = some c.start := by
  rw [h.getElem?_blocks, Option.map_eq_some_iff] at hb hc
  obtain ⟨p, hp, rfl⟩ := hb
  obtain ⟨q, hq, rfl⟩ := hc
  obtain ⟨hn, rfl⟩ := List.getElem?_eq_some_iff.1 hp
  obtain ⟨hm, rfl⟩ := List.getElem?_eq_some_iff.1 hq
  exact (List.isChain_iff_getElem.1 h.laid.chain n hm).follow_eq

end MadeOf

/-! ### Where blocks start -/

/-- The offsets that start a block: that of the first instruction, the targets of jumps, and the
offsets behind jumps and returns. -/
def IsLeader (is : List Instruction) (offset : Nat) : Prop :=
  (∃ first, is.head? = some first ∧ first.offset = offset) ∨
  (∃ jump ∈ is, jump.isJump = true ∧ labelOffset? is (labelText jump) = some offset) ∨
  ∃ front leaving next back, is = front ++ leaving :: next :: back ∧
    (leaving.isJump = true ∨ leaving.isOp .ret = true) ∧ next.offset = offset

namespace MadeOf

theorem exists_head (p : Piece) : ∃ first others, p.part = first :: others := by
  cases hp : p.part with
  | nil => exact (p.part_ne_nil hp).elim
  | cons first others => exact ⟨first, others, rfl⟩

/-- A block that starts at an offset has a reason to. -/
theorem isLeader_start (hs : ofInstructions is = .ok s) (h : s.MadeOf pieces) (hp : p ∈ pieces) :
    IsLeader is p.block.start := by
  obtain ⟨earlier, later, rfl⟩ := List.append_of_mem hp
  obtain ⟨first, others, hfirst⟩ := exists_head p
  have hstart := (h.laid.sound p hp).start_eq first (by rw [hfirst]; rfl)
  have hwhole := h.whole
  rw [(ofInstructions_eq_ok hs).2.1] at hwhole
  rcases List.eq_nil_or_concat' earlier with rfl | ⟨front, q, rfl⟩
  · refine .inl ⟨first, ?_, hstart⟩
    rw [hwhole, List.nil_append, List.flatMap_cons, hfirst]
    rfl
  · have hchain := h.laid.chain
    rw [List.append_assoc] at hchain
    have hprecedes := (List.isChain_cons_cons.1 (List.isChain_append.1 hchain).2.1).1
    rcases hprecedes.boundary with hexit | htarget
    · refine .inr (.inr ⟨front.flatMap Piece.part ++ q.body, q.last, first,
        others ++ later.flatMap Piece.part, ?_, (exit?_isSome _).1 hexit, hstart⟩)
      rw [hwhole, List.flatMap_append, List.flatMap_cons, hfirst]
      simp [Piece.part]
    · exact .inr (.inl ((mem_targets hs).1 htarget))

/-- Where there is a reason for a block to start, one does. -/
theorem exists_start (hs : ofInstructions is = .ok s) (h : s.MadeOf pieces)
    (hleader : IsLeader is offset) : ∃ p ∈ pieces, p.block.start = offset := by
  have hinstructions := (ofInstructions_eq_ok hs).2.1
  have hwhole := h.whole
  rw [hinstructions] at hwhole
  rcases hleader with ⟨first, hhead, rfl⟩ | ⟨jump, hjump, hisJump, hlabel⟩ |
    ⟨front, leaving, next, back, his, hleaving, rfl⟩
  · cases pieces with
    | nil => simp [hwhole] at hhead
    | cons p pieces =>
      obtain ⟨first', others, hp⟩ := exists_head p
      obtain rfl : first' = first := by simpa [hwhole, hp] using hhead
      exact ⟨p, by simp, ((h.laid.sound p (by simp)).start_eq first' (by rw [hp]; rfl)).symm⟩
  · obtain ⟨label, hmem, -, rfl⟩ := exists_label hlabel
    have htarget := (mem_targets hs).2 ⟨jump, hjump, hisJump, hlabel⟩
    rw [hwhole] at hmem
    obtain ⟨p, hp, hmem⟩ := List.mem_flatMap.1 hmem
    exact ⟨p, hp, ((h.laid.sound p hp).entered label hmem htarget).symm⟩
  · rcases exists_neighbours (hwhole ▸ his) with
      ⟨earlier, p, later, pre, post, rfl, hpart, -⟩ | ⟨earlier, p, q, later, rfl, rfl, hnext, -⟩
    · -- Only the last instruction of a block leaves it.
      have hsound := h.laid.sound p (by simp)
      have hbody : leaving ∈ p.body := by
        have hdrop := congrArg List.dropLast hpart
        rw [Piece.part, List.dropLast_concat] at hdrop
        simp [hdrop, List.dropLast_append_of_ne_nil]
      have hexit := (exit?_isSome is).2 hleaving
      rw [← hinstructions, hsound.stays leaving hbody] at hexit
      cases hexit
    · exact ⟨q, by simp, ((h.laid.sound q (by simp)).start_eq next hnext).symm⟩

end MadeOf

/-- Blocks start where control may enter and nowhere else. -/
theorem exists_start_iff_isLeader (hs : ofInstructions is = .ok s) (hordered : Ordered is)
    (offset : Nat) : (∃ b ∈ s.blocks, b.start = offset) ↔ IsLeader is offset := by
  obtain ⟨pieces, h⟩ := exists_pieces hs hordered
  constructor
  · rintro ⟨b, hb, rfl⟩
    obtain ⟨p, hp, rfl⟩ : ∃ p ∈ pieces, p.block = b := by
      rwa [h.laid.blocks_eq, List.mem_map] at hb
    exact h.isLeader_start hs hp
  · intro hleader
    obtain ⟨p, hp, hstart⟩ := h.exists_start hs hleader
    exact ⟨p.block, by rw [h.laid.blocks_eq]; exact List.mem_map_of_mem hp, hstart⟩

/-- The blocks of ordered instructions are a partition of them: every instruction is in exactly one
block, blocks ascend without an overlap, and each names the start of the next. They start where
control may enter and nowhere else. The effect of a block is that of its own instructions, with a
pair if its last one is a branch whose sides differ. Only the first block is the entry. -/
theorem blocks_partition (hs : ofInstructions is = .ok s) (hordered : Ordered is) :
    ((∀ i ∈ is, ∃! n : Nat, ∃ b : Block, s.blocks[n]? = some b ∧ b.contains i.offset = true) ∧
      (∀ b ∈ s.blocks, b.start ≤ b.stop ∧ ∃ i ∈ is, i.offset = b.stop) ∧
      (∀ n b c, s.blocks[n]? = some b → s.blocks[n + 1]? = some c →
        b.start < c.start ∧ b.stop < c.start ∧ b.follow = some c.start) ∧
      ∀ b, s.blocks.getLast? = some b → b.follow = none) ∧
    (∀ offset, (∃ b ∈ s.blocks, b.start = offset) ↔ IsLeader is offset) ∧
    (∀ b ∈ s.blocks, ∃ front body last back, is = front ++ (body ++ [last]) ++ back ∧
      is.filter (fun i => b.contains i.offset) = body ++ [last] ∧
      b.effect = BlockEffect.ofRun body last ∧
      ((∃ fall taken, b.effect = .pair fall taken) ↔
        last.isOp .gotoIfNilElsePop = true ∨ last.isOp .gotoIfNotNilElsePop = true)) ∧
    ∀ n b, s.blocks[n]? = some b → (b.isEntry = true ↔ n = 0) := by
  obtain ⟨pieces, h⟩ := exists_pieces hs hordered
  have hinstructions := (ofInstructions_eq_ok hs).2.1
  have hmem : ∀ b ∈ s.blocks, ∃ p ∈ pieces, p.block = b := by
    simp [h.laid.blocks_eq]
  refine ⟨⟨?_, ?_, ?_, fun b => follow_of_last hs⟩, exists_start_iff_isLeader hs hordered, ?_,
    h.laid.entry⟩
  · rw [← hinstructions]
    exact fun i => h.existsUnique_block
  · intro b hb
    obtain ⟨p, hp, rfl, hlast, hstop⟩ := h.exists_last hb
    exact ⟨h.start_le_stop hp, p.last, hinstructions ▸ hlast, hstop⟩
  · intro n b c hb hc
    obtain ⟨p, hp, rfl⟩ := hmem b (List.mem_of_getElem? hb)
    have hlt := h.stop_lt_start (Nat.lt_succ_self n) hb hc
    exact ⟨Nat.lt_of_le_of_lt (h.start_le_stop hp) hlt, hlt, h.follow_eq hb hc⟩
  · intro b hb
    obtain ⟨p, hp, rfl⟩ := hmem b hb
    obtain ⟨earlier, later, hpieces⟩ := List.append_of_mem hp
    have hsound := h.laid.sound p hp
    have heffect : p.block.effect = BlockEffect.ofRun p.body p.last :=
      hsound.effect_eq.trans (BlockEffect.replay_eq_ofRun hsound.branch_last)
    refine ⟨earlier.flatMap Piece.part, p.body, p.last, later.flatMap Piece.part, ?_, ?_, heffect,
      ?_⟩
    · rw [← hinstructions, h.whole, hpieces]
      simp [Piece.part]
    · rw [← hinstructions]
      exact h.filter_contains hpieces
    · rw [heffect, BlockEffect.exists_pair_iff, Instruction.isBranch_iff]

/-- The loop `(while (or x y))`: it has a branch whose sides differ, a jump back, and labels at the
offset of the instruction behind them. -/
def whileOr : List Instruction :=
  [.ofOpcode .label (some (.symbol "1")) 0, .ofOpcode .varref (some (.symbol "x")) 0,
    .ofOpcode .gotoIfNotNilElsePop (some (.symbol "2")) 1, .ofOpcode .varref (some (.symbol "y")) 2,
    .ofOpcode .label (some (.symbol "2")) 3, .ofOpcode .gotoIfNil (some (.symbol "3")) 3,
    .ofOpcode .goto (some (.symbol "1")) 4, .ofOpcode .label (some (.symbol "3")) 5,
    .ofOpcode .constant (some (.symbol "nil")) 5, .ofOpcode .ret none 6]

theorem exists_whileOr : ∃ s, ofInstructions whileOr = .ok s := by
  have hsome : (ofInstructions whileOr).toOption.isSome = true := by decide
  cases hs : ofInstructions whileOr with
  | error e => simp [hs, Except.toOption] at hsome
  | ok s => exact ⟨s, rfl⟩

theorem blocks_partition_whileOr : ∃ s, ofInstructions whileOr = .ok s ∧ Ordered whileOr ∧
    (∃ b ∈ s.blocks, b.start = 3) ∧ ∀ offset, (∃ b ∈ s.blocks, b.start = offset) ↔
      IsLeader whileOr offset := by
  obtain ⟨s, hs⟩ := exists_whileOr
  have hordered : Ordered whileOr := by decide
  have hstarts := (blocks_partition hs hordered).2.1
  refine ⟨s, hs, hordered, (hstarts 3).2 (.inr (.inl ⟨whileOr[2], ?_, rfl, by decide⟩)),
    hstarts⟩
  exact List.getElem_mem _

end Segmentation

end ElispLift
