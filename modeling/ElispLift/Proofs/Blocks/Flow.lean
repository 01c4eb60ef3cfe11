import ElispLift.Proofs.Blocks.Partition

/-!
# Control flow over blocks

Control goes from an instruction to the next one or to where it jumps. Such a step stays in its
block or enters another one at its first instruction, along an edge of the graph of blocks, and
every edge is a step of the last instruction of a block.
-/

namespace ElispLift.Segmentation

/-- The instruction number `n` is the first one at an offset. -/
def IsFirstAt (is : List Instruction) (offset n : Nat) : Prop :=
  (∃ i, is[n]? = some i ∧ i.offset = offset) ∧
    ∀ m i, m < n → is[m]? = some i → i.offset ≠ offset

/-- Control goes from one instruction to another, by their numbers. -/
inductive Step (is : List Instruction) : Nat → Nat → Prop where
  | next {n : Nat} {i : Instruction} (hi : is[n]? = some i) (hgoto : i.isOp .goto = false)
      (hret : i.isOp .ret = false) (hn : n + 1 < is.length) : Step is n (n + 1)
  | jump {n m target : Nat} {i : Instruction} (hi : is[n]? = some i) (hjump : i.isJump = true)
      (htarget : labelOffset? is (labelText i) = some target) (hm : IsFirstAt is target m) :
      Step is n m

/-- The instruction number `n` is in block `k`. -/
def InBlock (s : Segmentation) (k n : Nat) : Prop :=
  ∃ b i, s.blocks[k]? = some b ∧ s.instructions[n]? = some i ∧ b.contains i.offset = true

/-- The instruction number `n` stands at the start of block `k`, and those before it are not in the
block. -/
def IsFirstOf (s : Segmentation) (k n : Nat) : Prop :=
  ∃ b i, s.blocks[k]? = some b ∧ s.instructions[n]? = some i ∧ i.offset = b.start ∧
    ∀ m j, m < n → s.instructions[m]? = some j → j.offset < b.start

/-- The instruction number `n` stands at the end of block `k`, and those behind it are not in the
block. -/
def IsLastOf (s : Segmentation) (k n : Nat) : Prop :=
  ∃ b i, s.blocks[k]? = some b ∧ s.instructions[n]? = some i ∧ i.offset = b.stop ∧
    ∀ m j, n < m → s.instructions[m]? = some j → b.stop < j.offset

variable {is front back : List Instruction} {s : Segmentation} {i : Instruction}
  {pieces earlier later : List Piece} {p q : Piece} {k l m n offset : Nat}

/-- A list is split at one of its places. -/
theorem exists_split {α : Type} {as : List α} {a : α} (h : as[n]? = some a) :
    ∃ front back, as = front ++ a :: back ∧ front.length = n := by
  obtain ⟨hn, rfl⟩ := List.getElem?_eq_some_iff.1 h
  refine ⟨as.take n, as.drop (n + 1), ?_, by simp; omega⟩
  rw [← List.drop_eq_getElem_cons hn, List.take_append_drop]

theorem IsFirstAt.unique (hn : IsFirstAt is offset n) (hm : IsFirstAt is offset m) : n = m := by
  obtain ⟨⟨i, hi, hoffset⟩, hbefore⟩ := hn
  obtain ⟨⟨j, hj, hoffset'⟩, hbefore'⟩ := hm
  rcases Nat.lt_trichotomy n m with hlt | heq | hlt
  · exact (hbefore' n i hlt hi hoffset).elim
  · exact heq
  · exact (hbefore m j hlt hj hoffset').elim

/-- The start of a block is its first instruction, and there is no other. -/
theorem IsFirstOf.isFirstAt (h : s.IsFirstOf k n) {b : Block} (hb : s.blocks[k]? = some b) :
    IsFirstAt s.instructions b.start n := by
  obtain ⟨b', i, hb', hi, hoffset, hbefore⟩ := h
  obtain rfl := Option.some.inj (hb'.symm.trans hb)
  exact ⟨⟨i, hi, hoffset⟩, fun m j hm hj => Nat.ne_of_lt (hbefore m j hm hj)⟩

theorem length_flatMap_snoc : ((earlier ++ [p]).flatMap Piece.part).length =
    (earlier.flatMap Piece.part ++ p.body).length + 1 := by
  simp [Piece.part]
  omega

namespace MadeOf

theorem exists_piece_of_block (h : s.MadeOf pieces) {b : Block} (hb : s.blocks[k]? = some b) :
    ∃ earlier p later, pieces = earlier ++ p :: later ∧ earlier.length = k ∧ p.block = b := by
  rw [h.getElem?_blocks, Option.map_eq_some_iff] at hb
  obtain ⟨p, hp, rfl⟩ := hb
  obtain ⟨earlier, later, hpieces, hk⟩ := exists_split hp
  exact ⟨earlier, p, later, hpieces, hk, rfl⟩

variable (h : s.MadeOf pieces)

include h

theorem block_at (hpieces : pieces = earlier ++ p :: later) :
    s.blocks[earlier.length]? = some p.block := by
  rw [h.getElem?_blocks, hpieces]
  simp

theorem instructions_eq (hpieces : pieces = earlier ++ p :: later) :
    s.instructions = earlier.flatMap Piece.part ++ (p.part ++ later.flatMap Piece.part) := by
  rw [h.whole, hpieces, List.flatMap_append, List.flatMap_cons]

theorem inBlock {pre post : List Instruction} (hpieces : pieces = earlier ++ p :: later)
    (hpart : p.part = pre ++ i :: post) :
    s.InBlock earlier.length (earlier.flatMap Piece.part ++ pre).length := by
  refine ⟨p.block, i, h.block_at hpieces, ?_, ?_⟩
  · have hsplit : s.instructions =
        (earlier.flatMap Piece.part ++ pre) ++ i :: (post ++ later.flatMap Piece.part) := by
      rw [h.instructions_eq hpieces, hpart]
      simp
    rw [hsplit]
    simp
  · exact h.contains_of_mem (by simp [hpieces]) (by simp [hpart])

theorem isFirstOf (hpieces : pieces = earlier ++ p :: later) :
    s.IsFirstOf earlier.length (earlier.flatMap Piece.part).length := by
  obtain ⟨first, others, hfirst⟩ := exists_head p
  have hsplit : s.instructions =
      earlier.flatMap Piece.part ++ first :: (others ++ later.flatMap Piece.part) := by
    rw [h.instructions_eq hpieces, hfirst]
    simp
  refine ⟨p.block, first, h.block_at hpieces, by simp [hsplit],
    (h.laid.sound p (by simp [hpieces])).start_eq first (by rw [hfirst]; rfl), fun m j hm hj => ?_⟩
  rw [hsplit, List.getElem?_append_left hm] at hj
  exact (h.apart hpieces).1 j (List.mem_of_getElem? hj)

theorem isLastOf (hpieces : pieces = earlier ++ p :: later) :
    s.IsLastOf earlier.length (earlier.flatMap Piece.part ++ p.body).length := by
  have hsplit : s.instructions =
      (earlier.flatMap Piece.part ++ p.body) ++ p.last :: later.flatMap Piece.part := by
    rw [h.instructions_eq hpieces, Piece.part]
    simp
  refine ⟨p.block, p.last, h.block_at hpieces, by rw [hsplit]; simp,
    (h.laid.sound p (by simp [hpieces])).stop_eq, fun m j hm hj => ?_⟩
  rw [hsplit, List.getElem?_append_right (Nat.le_of_lt hm), List.getElem?_cons,
    if_neg (by omega)] at hj
  exact (h.apart hpieces).2 j (List.mem_of_getElem? hj)

/-! ### Edges -/

theorem blockAt?_eq_some : s.blockAt? offset = some k ↔
    ∃ b, s.blocks[k]? = some b ∧ b.start = offset := by
  have hcontains : ∀ {k : Nat} {b : Block}, s.blocks[k]? = some b → b.start = offset →
      b.contains offset = true := by
    intro k b hb hstart
    obtain ⟨earlier, p, later, hpieces, -, rfl⟩ := h.exists_piece_of_block hb
    have := h.start_le_stop (p := p) (by simp [hpieces])
    simp [Block.contains]
    omega
  have hfound : s.blockAt? offset =
      (s.blocks.zipIdx.reverse.find? fun found => found.1.start == offset).map (·.2) := rfl
  rw [hfound, Option.map_eq_some_iff]
  constructor
  · rintro ⟨⟨b, k'⟩, hfind, rfl⟩
    have hmem := List.mem_of_find?_eq_some hfind
    rw [List.mem_reverse, List.mem_zipIdx_iff_getElem?] at hmem
    exact ⟨b, hmem, by simpa using List.find?_some hfind⟩
  · rintro ⟨b, hb, hstart⟩
    have hsome : (s.blocks.zipIdx.reverse.find? fun found =>
        found.1.start == offset).isSome = true := by
      rw [List.find?_isSome]
      exact ⟨(b, k), by rw [List.mem_reverse, List.mem_zipIdx_iff_getElem?]; exact hb, by simpa⟩
    obtain ⟨⟨b', k'⟩, hfind⟩ := Option.isSome_iff_exists.1 hsome
    have hmem := List.mem_of_find?_eq_some hfind
    rw [List.mem_reverse, List.mem_zipIdx_iff_getElem?] at hmem
    have hstart' : b'.start = offset := by simpa using List.find?_some hfind
    exact ⟨(b', k'), hfind, h.eq_of_contains hmem hb (hcontains hmem hstart') (hcontains hb hstart)⟩

theorem mem_successors : l ∈ s.successors k ↔
    ∃ b c, s.blocks[k]? = some b ∧ s.blocks[l]? = some c ∧
      (b.exit.target? = some c.start ∨ b.exit.fallsThrough = true ∧ l = k + 1) := by
  unfold successors
  cases hb : s.blocks[k]? with
  | none => simp
  | some b =>
    have hjumped : l ∈ (b.exit.target?.bind s.blockAt?).toList ↔
        ∃ c, s.blocks[l]? = some c ∧ b.exit.target? = some c.start := by
      rw [Option.mem_toList, Option.bind_eq_some_iff]
      constructor
      · rintro ⟨target, htarget, hl⟩
        obtain ⟨c, hc, rfl⟩ := h.blockAt?_eq_some.1 hl
        exact ⟨c, hc, htarget⟩
      · rintro ⟨c, hc, htarget⟩
        exact ⟨c.start, htarget, h.blockAt?_eq_some.2 ⟨c, hc, rfl⟩⟩
    have hnext : (l ∈ if b.exit.fallsThrough && k + 1 < s.blocks.length then [k + 1] else []) ↔
        ∃ c, s.blocks[l]? = some c ∧ b.exit.fallsThrough = true ∧ l = k + 1 := by
      by_cases hfalls : b.exit.fallsThrough = true ∧ k + 1 < s.blocks.length
      · simp only [hfalls, decide_true, Bool.and_self, if_true, List.mem_singleton, true_and]
        constructor
        · rintro rfl
          exact ⟨_, List.getElem?_eq_getElem hfalls.2, rfl⟩
        · rintro ⟨c, hc, rfl⟩
          rfl
      · have hfalse : (b.exit.fallsThrough && decide (k + 1 < s.blocks.length)) = false := by
          simpa using hfalls
        simp only [hfalse]
        simp
        rintro c hc hthrough rfl
        exact hfalls ⟨hthrough, (List.getElem?_eq_some_iff.1 hc).1⟩
    simp only [Sorted.ascending, Sorted.mem_sort, List.mem_eraseDups, List.mem_append, hjumped,
      hnext]
    constructor
    · rintro (⟨c, hc, htarget⟩ | ⟨c, hc, hfalls⟩)
      · exact ⟨b, c, rfl, hc, .inl htarget⟩
      · exact ⟨b, c, rfl, hc, .inr hfalls⟩
    · rintro ⟨b', c, hb', hc, hedge⟩
      obtain rfl := Option.some.inj hb'
      exact hedge.imp (fun htarget => ⟨c, hc, htarget⟩) fun hfalls => ⟨c, hc, hfalls⟩

/-- Going on to the next instruction stays in the block, or follows an edge to the next one. -/
theorem edge_of_next (hi : s.instructions[n]? = some i) (hgoto : i.isOp .goto = false)
    (hret : i.isOp .ret = false) (hn : n + 1 < s.instructions.length) :
    ∃ k l, s.InBlock k n ∧ s.InBlock l (n + 1) ∧
      (k = l ∨ l ∈ s.successors k ∧ s.IsFirstOf l (n + 1)) := by
  obtain ⟨front, rest, hsplit, rfl⟩ := exists_split hi
  cases rest with
  | nil => simp [hsplit] at hn
  | cons j back =>
    rcases exists_neighbours (h.whole ▸ hsplit) with
      ⟨earlier, p, later, pre, post, hpieces, hpart, rfl⟩ |
      ⟨earlier, p, q, later, hpieces, rfl, hnext, rfl⟩
    · refine ⟨_, _, h.inBlock hpieces hpart, ?_, .inl rfl⟩
      have hpart' : p.part = (pre ++ [i]) ++ j :: post := by simp [hpart]
      simpa [Nat.add_assoc] using h.inBlock hpieces hpart'
    · have hpieces' : pieces = (earlier ++ [p]) ++ q :: later := by simp [hpieces]
      have hfirst := h.isFirstOf hpieces'
      obtain ⟨first, others, hq⟩ := exists_head q
      have hin := h.inBlock hpieces' (show q.part = [] ++ first :: others from hq)
      have hsound := h.laid.sound p (by simp [hpieces])
      rw [List.append_nil, length_flatMap_snoc] at hin
      rw [length_flatMap_snoc] at hfirst
      refine ⟨earlier.length, (earlier ++ [p]).length, h.inBlock hpieces rfl, hin,
        .inr ⟨?_, hfirst⟩⟩
      refine h.mem_successors.2
        ⟨p.block, q.block, h.block_at hpieces, h.block_at hpieces', .inr ⟨?_, ?_⟩⟩
      · rw [hsound.exit_eq]
        exact fallsThrough_exit?.2 ⟨hgoto, hret⟩
      · simp

variable (hs : ofInstructions is = .ok s)

include hs

/-- A jump ends its block and follows an edge to the block of its target. -/
theorem edge_of_jump (hi : s.instructions[n]? = some i) (hjump : i.isJump = true)
    (htarget : labelOffset? s.instructions (labelText i) = some offset)
    (hm : IsFirstAt s.instructions offset m) :
    ∃ k l, s.InBlock k n ∧ s.InBlock l m ∧ l ∈ s.successors k ∧ s.IsFirstOf l m := by
  have hinstructions := (ofInstructions_eq_ok hs).2.1
  obtain ⟨front, back, hsplit, rfl⟩ := exists_split hi
  obtain ⟨earlier, p, later, pre, post, hpieces, hpart, rfl, -⟩ := exists_piece (h.whole ▸ hsplit)
  have hsound := h.laid.sound p (by simp [hpieces])
  have hmem : i ∈ s.instructions := by simp [hsplit]
  have hresolved : ¬Unresolved s.instructions i :=
    hinstructions ▸ (jumps_eq hs).1 i (hinstructions ▸ hmem)
  have hlast : i = p.last := by
    -- Only the last instruction of a block leaves it.
    rcases List.eq_nil_or_concat' post with rfl | ⟨others, last, rfl⟩
    · exact (List.cons.inj (List.append_inj' hpart rfl).2).1.symm
    · have happend : p.body ++ [p.last] = (pre ++ i :: others) ++ [last] := by
        rw [← Piece.part, hpart]
        simp
      have hbody := (List.append_inj' happend rfl).1
      have hexit := (exit?_isSome s.instructions).2 (.inl hjump)
      rw [hsound.stays i (by simp [hbody])] at hexit
      cases hexit
  have hleader : IsLeader is offset :=
    .inr (.inl ⟨i, hinstructions ▸ hmem, hjump, hinstructions ▸ htarget⟩)
  obtain ⟨q, hq, rfl⟩ := h.exists_start hs hleader
  obtain ⟨earlier', later', hpieces'⟩ := List.append_of_mem hq
  have hfirst := h.isFirstOf hpieces'
  obtain ⟨first, others, hq⟩ := exists_head q
  have hin := h.inBlock hpieces' (show q.part = [] ++ first :: others from hq)
  rw [List.append_nil] at hin
  obtain rfl := hm.unique (hfirst.isFirstAt (h.block_at hpieces'))
  refine ⟨_, _, h.inBlock hpieces hpart, hin, ?_, hfirst⟩
  refine h.mem_successors.2 ⟨p.block, q.block, h.block_at hpieces, h.block_at hpieces', .inl ?_⟩
  rw [hsound.exit_eq, ← hlast]
  exact (target?_exit? hresolved).2 ⟨hjump, htarget⟩

/-- An edge is a step of the last instruction of its block to the first of the other one. -/
theorem step_of_edge (hedge : l ∈ s.successors k) :
    ∃ n m, Step s.instructions n m ∧ s.IsLastOf k n ∧ s.IsFirstOf l m := by
  obtain ⟨b, c, hb, hc, hreason⟩ := h.mem_successors.1 hedge
  obtain ⟨earlier, p, later, hpieces, rfl, rfl⟩ := h.exists_piece_of_block hb
  obtain ⟨earlier', q, later', hpieces', rfl, rfl⟩ := h.exists_piece_of_block hc
  have hsound := h.laid.sound p (by simp [hpieces])
  have hlast := h.isLastOf hpieces
  have hfirst := h.isFirstOf hpieces'
  have hinstructions := (ofInstructions_eq_ok hs).2.1
  refine ⟨_, _, ?_, hlast, hfirst⟩
  have hsplit : s.instructions =
      (earlier.flatMap Piece.part ++ p.body) ++ p.last :: later.flatMap Piece.part := by
    rw [h.instructions_eq hpieces, Piece.part]
    simp
  have hat : s.instructions[(earlier.flatMap Piece.part ++ p.body).length]? = some p.last := by
    rw [hsplit]
    simp
  rw [hsound.exit_eq] at hreason
  rcases hreason with htarget | ⟨hfalls, hnext⟩
  · have hresolved : ¬Unresolved s.instructions p.last :=
      hinstructions ▸ (jumps_eq hs).1 p.last (by rw [← hinstructions, hsplit]; simp)
    obtain ⟨hjump, hlabel⟩ := (target?_exit? hresolved).1 htarget
    exact .jump hat hjump hlabel (hfirst.isFirstAt hc)
  · obtain ⟨hgoto, hret⟩ := fallsThrough_exit?.1 hfalls
    have hearlier : earlier' = earlier ++ [p] ∧ later = q :: later' := by
      have hsame : earlier ++ ([p] ++ later) = earlier' ++ q :: later' := by
        rw [← hpieces', hpieces]
        rfl
      rw [← List.append_assoc] at hsame
      obtain ⟨h₁, h₂⟩ := List.append_inj hsame (by simp [hnext])
      exact ⟨h₁.symm, h₂⟩
    obtain ⟨rfl, rfl⟩ := hearlier
    rw [length_flatMap_snoc]
    refine .next hat hgoto hret ?_
    rw [hsplit]
    obtain ⟨first, others, hq⟩ := exists_head q
    simp [hq]
    omega

end MadeOf

/-- The blocks of a list fail exactly if a jump has no label, and the first such jump is reported.
The edges between the blocks of ordered instructions are the steps of control between them: a step
stays in its block or follows an edge to the start of a block, and every edge is a step from the end
of its block. -/
theorem edges_are_steps (is : List Instruction) :
    ((∃ e, ofInstructions is = .error e) ↔ ∃ jump ∈ is, Unresolved is jump) ∧
    (∀ e, ofInstructions is = .error e ↔ ∃ front jump back, is = front ++ jump :: back ∧
      (∀ i ∈ front, ¬Unresolved is i) ∧ Unresolved is jump ∧
      e = .unresolvedLabel (labelText jump) jump.offset) ∧
    ∀ s, ofInstructions is = .ok s → Ordered is →
      (∀ n m, Step is n m → ∃ k l, s.InBlock k n ∧ s.InBlock l m ∧
        (m = n + 1 ∧ k = l ∨ l ∈ s.successors k ∧ s.IsFirstOf l m)) ∧
      (∀ k l, l ∈ s.successors k →
        ∃ n m, Step is n m ∧ s.IsLastOf k n ∧ s.IsFirstOf l m) ∧
      ∀ k l, l ∈ s.successors k ↔ k ∈ s.predecessors l := by
  have herror : ∀ e, ofInstructions is = .error e ↔ ∃ front jump back, is = front ++ jump :: back ∧
      (∀ i ∈ front, ¬Unresolved is i) ∧ Unresolved is jump ∧
      e = .unresolvedLabel (labelText jump) jump.offset :=
    fun e => ofInstructions_eq_error.trans jumps?_eq_error
  refine ⟨⟨?_, ?_⟩, herror, fun s hs hordered => ?_⟩
  · rintro ⟨e, he⟩
    obtain ⟨front, jump, back, his, -, hjump, -⟩ := (herror e).1 he
    exact ⟨jump, by simp [his], hjump⟩
  · rintro ⟨jump, hmem, hjump⟩
    cases hs : ofInstructions is with
    | error e => exact ⟨e, rfl⟩
    | ok s => exact ((jumps_eq hs).1 jump hmem hjump).elim
  · obtain ⟨pieces, h⟩ := exists_pieces hs hordered
    obtain rfl := (ofInstructions_eq_ok hs).2.1
    refine ⟨fun n m hstep => ?_, fun k l => h.step_of_edge hs, fun k l => ?_⟩
    · cases hstep with
      | next hi hgoto hret hn =>
        obtain ⟨k, l, hk, hl, hsame | hedge⟩ := h.edge_of_next hi hgoto hret hn
        · exact ⟨k, l, hk, hl, .inl ⟨rfl, hsame⟩⟩
        · exact ⟨k, l, hk, hl, .inr hedge⟩
      | jump hi hjump htarget hm =>
        obtain ⟨k, l, hk, hl, hedge⟩ := h.edge_of_jump hs hi hjump htarget hm
        exact ⟨k, l, hk, hl, .inr hedge⟩
    · rw [mem_predecessors]
      refine ⟨fun hedge => ⟨?_, hedge⟩, And.right⟩
      obtain ⟨b, c, hb, -⟩ := h.mem_successors.1 hedge
      exact (List.getElem?_eq_some_iff.1 hb).1

theorem edges_are_steps_whileOr : ∃ s, ofInstructions whileOr = .ok s ∧ Ordered whileOr ∧
    (∃ k l, s.InBlock k 6 ∧ s.InBlock l 0 ∧ l ∈ s.successors k ∧ s.IsFirstOf l 0) ∧
    ∀ k l, l ∈ s.successors k → ∃ n m, Step whileOr n m ∧ s.IsLastOf k n ∧ s.IsFirstOf l m := by
  obtain ⟨s, hs⟩ := exists_whileOr
  have hordered : Ordered whileOr := by decide
  obtain ⟨hsteps, hedges, -⟩ := (edges_are_steps whileOr).2.2 s hs hordered
  have hfirst : IsFirstAt whileOr 0 0 := ⟨⟨_, rfl, rfl⟩, by simp⟩
  have hback : Step whileOr 6 0 := .jump rfl rfl (by decide) hfirst
  obtain ⟨k, l, hk, hl, hnext | hedge⟩ := hsteps 6 0 hback
  · exact absurd hnext.1 (by decide)
  · exact ⟨s, hs, hordered, ⟨k, l, hk, hl, hedge⟩, hedges⟩

end ElispLift.Segmentation
