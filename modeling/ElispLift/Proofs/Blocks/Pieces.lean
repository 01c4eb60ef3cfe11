import ElispLift.Proofs.Blocks.Jumps
import Mathlib.Data.List.Chain

/-!
# Blocks and their instructions

Every block is looked at together with the instructions that it was cut from. The pieces make up the
whole list, and a piece goes up to the next jump or return, or up to before the next offset that
some jump leads to.
-/

namespace ElispLift.Segmentation

/-- Offsets never descend, and only a label shares its offset with the instruction behind it. -/
def Ordered (is : List Instruction) : Prop :=
  is.IsChain fun i j => i.offset < j.offset ∨ i.offset = j.offset ∧ i.isOp .label = true

instance (is : List Instruction) : Decidable (Ordered is) :=
  inferInstanceAs (Decidable (is.IsChain _))

variable {is rest body : List Instruction} {i j last : Instruction} {targets : List Nat}
  {before before' : List Block} {start start' : Nat} {follow : Option Nat} {exit : Exit}

/-! ### Order -/

theorem Ordered.pairwise (h : Ordered is) : is.Pairwise fun i j => i.offset ≤ j.offset := by
  refine List.IsChain.pairwise (h.imp fun i j hij => ?_)
  omega

theorem Ordered.lt_of_not_label {front : List Instruction} (h : Ordered (front ++ i :: j :: rest))
    (hlabel : i.isOp .label = false) : i.offset < j.offset := by
  have hij := (List.isChain_cons_cons.1 (List.isChain_append.1 h).2.1).1
  simpa [hlabel] using hij

theorem not_label_of_exit (h : exit? is i = some exit) : i.isOp .label = false := by
  refine Bool.eq_false_iff.2 fun hlabel => ?_
  have hkind : i.kind = .fixed .label := by simpa [Instruction.isOp] using hlabel
  rw [exit?, hkind] at h
  cases h

/-- The instructions whose offsets lie between those of the first and the last of a part. -/
theorem filter_offsets {front part : List Instruction} {stop : Nat}
    (hfront : ∀ i ∈ front, i.offset < start)
    (hpart : ∀ i ∈ part, start ≤ i.offset ∧ i.offset ≤ stop) (hrest : ∀ i ∈ rest, stop < i.offset) :
    (front ++ (part ++ rest)).filter (fun i => start ≤ i.offset && i.offset ≤ stop) = part := by
  have hno : ∀ i ∈ front, ¬(decide (start ≤ i.offset) && decide (i.offset ≤ stop)) = true := by
    intro i hi
    have := hfront i hi
    simp
    omega
  have hno' : ∀ i ∈ rest, ¬(decide (start ≤ i.offset) && decide (i.offset ≤ stop)) = true := by
    intro i hi
    have := hrest i hi
    simp
    omega
  have hyes : ∀ i ∈ part, (decide (start ≤ i.offset) && decide (i.offset ≤ stop)) = true := by
    intro i hi
    simpa using hpart i hi
  rw [List.filter_append, List.filter_append, List.filter_eq_nil_iff.2 hno,
    List.filter_eq_nil_iff.2 hno', List.filter_eq_self.2 hyes]
  simp

/-! ### Pieces -/

/-- A block with the instructions that it was cut from. -/
structure Piece where
  block : Block
  body : List Instruction
  last : Instruction

namespace Piece

def part (p : Piece) : List Instruction := p.body ++ [p.last]

/-- Only the last instruction may leave the block, and jumps lead to its start alone. -/
structure Sound (is : List Instruction) (targets : List Nat) (p : Piece) : Prop where
  start_eq : ∀ i, p.part.head? = some i → i.offset = p.block.start
  stop_eq : p.last.offset = p.block.stop
  stays : ∀ i ∈ p.body, exit? is i = none
  exit_eq : p.block.exit = (exit? is p.last).getD .next
  entered : ∀ i ∈ p.part, i.offset ∈ targets → i.offset = p.block.start
  effect_eq : p.block.effect = .replay 0 p.part

/-- One block ends and the next begins, because control leaves the one or some jump enters the
other. -/
structure Precedes (is : List Instruction) (targets : List Nat) (p q : Piece) : Prop where
  follow_eq : p.block.follow = some q.block.start
  stop_lt : p.block.stop < q.block.start
  boundary : (exit? is p.last).isSome = true ∨ q.block.start ∈ targets

end Piece

/-- The pieces of the blocks, from the first on. -/
structure Laid (is : List Instruction) (targets : List Nat) (blocks : List Block)
    (pieces : List Piece) : Prop where
  blocks_eq : blocks = pieces.map (·.block)
  sound : ∀ p ∈ pieces, p.Sound is targets
  chain : pieces.IsChain (Piece.Precedes is targets)
  entry : ∀ n b, blocks[n]? = some b → (b.isEntry = true ↔ n = 0)

variable {pieces : List Piece} {p q : Piece}

theorem laid_nil : Laid is targets [] [] := ⟨rfl, by simp, .nil, by simp⟩

theorem Laid.snoc (h : Laid is targets before pieces) (hsound : p.Sound is targets)
    (hprecedes : ∀ q, pieces.getLast? = some q → q.Precedes is targets p)
    (hentry : p.block.isEntry = before.isEmpty) :
    Laid is targets (before ++ [p.block]) (pieces ++ [p]) := by
  refine ⟨by simp [h.blocks_eq], ?_, ?_, fun n b hb => ?_⟩
  · intro q hq
    rcases List.mem_append.1 hq with hq | hq
    · exact h.sound q hq
    · obtain rfl := List.mem_singleton.1 hq
      exact hsound
  · refine List.isChain_append.2 ⟨h.chain, .singleton _, fun q hq p' hp' => ?_⟩
    obtain rfl : p = p' := by simpa using hp'
    exact hprecedes q hq
  · rcases Nat.lt_or_ge n before.length with hlt | hge
    · rw [List.getElem?_append_left hlt] at hb
      exact h.entry n b hb
    · rw [List.getElem?_append_right hge] at hb
      obtain ⟨hn, rfl⟩ : n - before.length = 0 ∧ p.block = b := by
        simpa [List.getElem?_singleton] using hb
      rw [hentry, List.isEmpty_iff_length_eq_zero]
      omega

/-! ### Cutting -/

/-- The blocks and the start of the open one when an instruction at `offset` comes next. The open
block is closed if a jump leads there, unless it starts there itself. -/
def closeBefore (is : List Instruction) (targets : List Nat) (before : List Block) (start : Nat)
    (last? : Option Nat) (offset : Nat) : List Block × Nat :=
  match last? with
  | some last =>
    if targets.contains offset && start < offset then
      (before ++ [block is before start last (some offset) .next], offset)
    else (before, start)
  | none => (before, start)

theorem cut_cons (last? : Option Nat) (h : closeBefore is targets before start last? i.offset =
    (before', start')) :
    cut is targets before start last? (i :: rest) =
      match exit? is i with
      | some exit =>
        let follow := (rest.head?.map (·.offset)).getD (i.offset + 1)
        cut is targets (before' ++ [block is before' start' i.offset (some follow) exit])
          follow none rest
      | none => cut is targets before' start' (some i.offset) rest := by
  obtain ⟨rfl, rfl⟩ := Prod.mk.inj h
  exact (cut.eq_def is targets before start last? (i :: rest)).trans rfl

/-- The cut has come to `rest`. The blocks `before` are those of `pieces`, and the instructions in
`body` are those of the open block, which starts at `start`. -/
structure Cutting (is : List Instruction) (targets : List Nat) (before : List Block) (start : Nat)
    (rest : List Instruction) (pieces : List Piece) (body : List Instruction) : Prop where
  laid : Laid is targets before pieces
  whole : is = pieces.flatMap Piece.part ++ (body ++ rest)
  start_eq : ∀ i, (body ++ rest).head? = some i → i.offset = start
  stays : ∀ i ∈ body, exit? is i = none
  entered : ∀ i ∈ body, i.offset ∈ targets → i.offset = start
  linked : ∀ p, pieces.getLast? = some p → p.block.follow = some start
  stop_lt : ∀ p, pieces.getLast? = some p → body ++ rest ≠ [] → p.block.stop < start
  boundary : ∀ p, pieces.getLast? = some p → body ++ rest ≠ [] →
    (exit? is p.last).isSome = true ∨ start ∈ targets

namespace Cutting

theorem init (is : List Instruction) (targets : List Nat) :
    Cutting is targets [] ((is.head?.map (·.offset)).getD 0) is [] [] where
  laid := laid_nil
  whole := rfl
  start_eq i hi := by
    rw [List.nil_append] at hi
    simp [hi]
  stays := by simp
  entered := by simp
  linked := by simp
  stop_lt := by simp
  boundary := by simp

variable (hordered : Ordered is)

include hordered

/-- Finished pieces stand before the start of the open block. -/
theorem lt_start (h : Cutting is targets before start rest pieces body) (hne : body ++ rest ≠ []) :
    ∀ i ∈ pieces.flatMap Piece.part, i.offset < start := by
  intro i hi
  rcases List.eq_nil_or_concat' pieces with rfl | ⟨front, p, rfl⟩
  · simp at hi
  have hp : (front ++ [p]).getLast? = some p := by simp
  have hstop := h.stop_lt p (by simp) hne
  have hsound := h.laid.sound p (by simp)
  have hwhole : is = (front.flatMap Piece.part ++ p.body) ++ p.last :: (body ++ rest) := by
    simpa [Piece.part] using h.whole
  have hpairwise := hwhole ▸ hordered.pairwise
  have hle : i.offset ≤ p.last.offset := by
    have hmem : i ∈ front.flatMap Piece.part ++ p.body ∨ i = p.last := by
      simpa [Piece.part, or_assoc] using hi
    rcases hmem with hmem | rfl
    · exact (List.pairwise_append.1 hpairwise).2.2 i hmem p.last (by simp)
    · exact Nat.le_refl _
  have := hsound.stop_eq
  omega

theorem start_le (h : Cutting is targets before start rest pieces body) :
    ∀ i ∈ body ++ rest, start ≤ i.offset := by
  intro i hi
  cases hopen : body ++ rest with
  | nil => simp [hopen] at hi
  | cons first others =>
    have hfirst := h.start_eq first (by rw [hopen]; rfl)
    have hpairwise := (List.pairwise_append.1 (h.whole ▸ hordered.pairwise)).2.1
    rw [hopen] at hi hpairwise
    rcases List.mem_cons.1 hi with rfl | hi
    · exact Nat.le_of_eq hfirst.symm
    · have := (List.pairwise_cons.1 hpairwise).1 i hi
      omega

/-- The open block ends with `last`. -/
theorem sound (h : Cutting is targets before start (last :: rest) pieces body)
    (hentered : last.offset ∈ targets → last.offset = start)
    (hnext : ∀ j, rest.head? = some j → last.offset < j.offset)
    (hexit : exit = (exit? is last).getD .next) :
    Piece.Sound is targets ⟨block is before start last.offset follow exit, body, last⟩ := by
  have hwhole : is = pieces.flatMap Piece.part ++ ((body ++ [last]) ++ rest) := by
    simpa using h.whole
  have hpairwise := hwhole ▸ hordered.pairwise
  have hpart := (List.pairwise_append.1 (List.pairwise_append.1 hpairwise).2.1)
  have hfirst : ∀ i ∈ body ++ [last], start ≤ i.offset := by
    intro i hi
    refine h.start_le hordered i ?_
    rw [List.append_cons]
    exact List.mem_append_left _ hi
  have hlast : ∀ i ∈ body ++ [last], i.offset ≤ last.offset := by
    intro i hi
    rcases List.mem_append.1 hi with hi | hi
    · exact (List.pairwise_append.1 hpart.1).2.2 i hi last (by simp)
    · rw [List.mem_singleton.1 hi]
  have hrest : ∀ i ∈ rest, last.offset < i.offset := by
    intro i hi
    cases rest with
    | nil => simp at hi
    | cons j others =>
      have hj := hnext j rfl
      rcases List.mem_cons.1 hi with rfl | hi
      · exact hj
      · have := (List.pairwise_cons.1 hpart.2.1).1 i hi
        omega
  refine ⟨fun i hi => ?_, rfl, h.stays, hexit, fun i hi htarget => ?_, ?_⟩
  · refine h.start_eq i ?_
    rw [List.append_cons, List.head?_append, show (body ++ [last]).head? = some i from hi]
    rfl
  · rcases List.mem_append.1 hi with hi | hi
    · exact h.entered i hi htarget
    · obtain rfl := List.mem_singleton.1 hi
      exact hentered htarget
  · have hfilter := filter_offsets (h.lt_start hordered (by simp))
      (fun i hi => ⟨hfirst i hi, hlast i hi⟩) hrest
    rw [← hwhole] at hfilter
    exact congrArg _ hfilter

/-- Close the open block with `last`. -/
theorem laid_close (h : Cutting is targets before start (last :: rest) pieces body)
    (hentered : last.offset ∈ targets → last.offset = start)
    (hnext : ∀ j, rest.head? = some j → last.offset < j.offset)
    (hexit : exit = (exit? is last).getD .next) (follow : Option Nat) :
    Laid is targets (before ++ [block is before start last.offset follow exit])
      (pieces ++ [⟨block is before start last.offset follow exit, body, last⟩]) :=
  h.laid.snoc (h.sound hordered hentered hnext hexit)
    (fun q hq => ⟨h.linked q hq, h.stop_lt q hq (by simp), h.boundary q hq (by simp)⟩) rfl

/-- Close the open block with `last`, and go on where it is followed. -/
theorem close (h : Cutting is targets before start (last :: rest) pieces body)
    (hentered : last.offset ∈ targets → last.offset = start)
    (hnext : ∀ j, rest.head? = some j → last.offset < j.offset)
    (hexit : exit = (exit? is last).getD .next) (next : Nat)
    (hfollow : ∀ j, rest.head? = some j → j.offset = next)
    (hboundary : rest ≠ [] → (exit? is last).isSome = true ∨ next ∈ targets) :
    Cutting is targets (before ++ [block is before start last.offset (some next) exit]) next rest
      (pieces ++ [⟨block is before start last.offset (some next) exit, body, last⟩]) [] where
  laid := h.laid_close hordered hentered hnext hexit (some next)
  whole := by simpa [Piece.part] using h.whole
  start_eq := hfollow
  stays := by simp
  entered := by simp
  linked p hp := by
    obtain rfl := Option.some.inj ((List.getLast?_concat ..).symm.trans hp)
    rfl
  stop_lt p hp hne := by
    obtain rfl := Option.some.inj ((List.getLast?_concat ..).symm.trans hp)
    cases rest with
    | nil => exact (hne rfl).elim
    | cons j others => exact hfollow j rfl ▸ hnext j rfl
  boundary p hp hne := by
    obtain rfl := Option.some.inj ((List.getLast?_concat ..).symm.trans hp)
    exact hboundary hne

omit hordered

/-- An instruction that stays in the open block. -/
theorem push (h : Cutting is targets before start (i :: rest) pieces body)
    (hentered : i.offset ∈ targets → i.offset = start) (hexit : exit? is i = none) :
    Cutting is targets before start rest pieces (body ++ [i]) where
  laid := h.laid
  whole := by simpa using h.whole
  start_eq := by simpa using h.start_eq
  stays j hj := by
    rcases List.mem_append.1 hj with hj | hj
    · exact h.stays j hj
    · exact List.mem_singleton.1 hj ▸ hexit
  entered j hj := by
    rcases List.mem_append.1 hj with hj | hj
    · exact h.entered j hj
    · exact List.mem_singleton.1 hj ▸ hentered
  linked := h.linked
  stop_lt p hp _ := h.stop_lt p hp (by simp)
  boundary p hp _ := h.boundary p hp (by simp)

/-- Take the last instruction out of the open block again. -/
theorem unpush (h : Cutting is targets before start rest pieces (body ++ [last])) :
    Cutting is targets before start (last :: rest) pieces body where
  laid := h.laid
  whole := by simpa using h.whole
  start_eq := by simpa using h.start_eq
  stays j hj := h.stays j (List.mem_append_left _ hj)
  entered j hj := h.entered j (List.mem_append_left _ hj)
  linked := h.linked
  stop_lt p hp _ := h.stop_lt p hp (by simp)
  boundary p hp _ := h.boundary p hp (by simp)

variable {last? : Option Nat}

/-- No jump leads into the middle of what is open after that. -/
theorem closeBefore (hordered : Ordered is)
    (h : Cutting is targets before start (i :: rest) pieces body)
    (hlast : last? = body.getLast?.map (·.offset)) :
    ∃ before' start' pieces' body',
      closeBefore is targets before start last? i.offset = (before', start') ∧
      Cutting is targets before' start' (i :: rest) pieces' body' ∧
      (i.offset ∈ targets → i.offset = start') := by
  rcases List.eq_nil_or_concat' body with rfl | ⟨front, l, rfl⟩
  · obtain rfl : last? = none := hlast
    exact ⟨before, start, pieces, [], rfl, h, fun _ => h.start_eq i rfl⟩
  obtain rfl : last? = some l.offset := by simpa using hlast
  have hwhole : is = (pieces.flatMap Piece.part ++ front) ++ l :: i :: rest := by
    simpa using h.whole
  have hle : l.offset ≤ i.offset :=
    (List.pairwise_cons.1 (List.pairwise_append.1 (hwhole ▸ hordered.pairwise)).2.1).1 i (by simp)
  by_cases hcut : i.offset ∈ targets ∧ start < i.offset
  · have hlt : l.offset < i.offset := by
      -- At the offset of the last instruction the block would have been closed before.
      refine Nat.lt_of_le_of_ne hle fun he => ?_
      have := h.entered l (by simp) (he ▸ hcut.1)
      omega
    have hnext : Exit.next = (exit? is l).getD .next := by simp [h.stays l]
    have hclosed := h.unpush.close hordered (h.entered l (by simp)) (by simpa using hlt) hnext
      i.offset (by simp) (fun _ => .inr hcut.1)
    exact ⟨_, _, _, _, by simp [Segmentation.closeBefore, hcut], hclosed, fun _ => rfl⟩
  · have hstart := h.start_le hordered i (by simp)
    refine ⟨before, start, pieces, _, ?_, h, fun hmem => ?_⟩
    · simpa [Segmentation.closeBefore] using hcut
    · by_contra hne
      exact hcut ⟨hmem, by omega⟩

theorem exists_laid (hordered : Ordered is)
    (h : Cutting is targets before start rest pieces body)
    (hlast : last? = body.getLast?.map (·.offset)) :
    ∃ pieces', Laid is targets (cut is targets before start last? rest) pieces' ∧
      is = pieces'.flatMap Piece.part := by
  -- What was cut so far is laid in pieces, and each instruction to come keeps it so.
  induction rest generalizing before start last? pieces body with
  | nil =>
    rcases List.eq_nil_or_concat' body with rfl | ⟨front, l, rfl⟩
    · obtain rfl : last? = none := hlast
      exact ⟨pieces, h.laid, by simpa using h.whole⟩
    · obtain rfl : last? = some l.offset := by simpa using hlast
      have hnext : Exit.next = (exit? is l).getD .next := by simp [h.stays l]
      have hclosed := h.unpush.laid_close hordered (h.entered l (by simp)) (by simp) hnext none
      exact ⟨_, hclosed, by simpa [Piece.part] using h.whole⟩
  | cons i rest ih =>
    obtain ⟨before', start', pieces', body', hbefore, h', hentered⟩ := h.closeBefore hordered hlast
    rw [cut_cons last? hbefore]
    cases hexit : exit? is i with
    | none => exact ih (h'.push hentered hexit) (by simp)
    | some exit =>
      refine ih (h'.close hordered hentered (fun j hj => ?_) (by simp [hexit]) _
        (fun j hj => ?_) (fun _ => .inl (by simp [hexit]))) rfl
      · obtain ⟨others, rfl⟩ := List.head?_eq_some_iff.1 hj
        have hwhole : is = (pieces'.flatMap Piece.part ++ body') ++ i :: j :: others := by
          simpa using h'.whole
        exact Ordered.lt_of_not_label (hwhole ▸ hordered) (not_label_of_exit hexit)
      · simp [hj]

end Cutting

/-! ### Blocks of a list -/

theorem endLast_snoc (bs : List Block) (b : Block) :
    endLast (bs ++ [b]) = bs ++ [{ b with follow := none }] := by
  induction bs with
  | nil => rfl
  | cons c bs ih =>
    cases hbs : bs ++ [b] with
    | nil => simp at hbs
    | cons d ds =>
      rw [List.cons_append, hbs, endLast, ← hbs, ih, List.cons_append]
      simp

/-- Where the last block is followed by nothing, it is still the block of the same piece. -/
theorem Laid.endLast (h : Laid is targets before pieces) :
    ∃ pieces', Laid is targets (endLast before) pieces' ∧
      pieces'.flatMap Piece.part = pieces.flatMap Piece.part := by
  rcases List.eq_nil_or_concat' pieces with rfl | ⟨front, p, rfl⟩
  · obtain rfl : before = [] := h.blocks_eq
    exact ⟨[], laid_nil, rfl⟩
  · have hbefore : before = front.map (·.block) ++ [p.block] := by simpa using h.blocks_eq
    obtain ⟨hchain, -, hlinked⟩ := List.isChain_append.1 h.chain
    have hsound := h.sound p (by simp)
    refine ⟨front ++ [⟨{ p.block with follow := none }, p.body, p.last⟩], ⟨?_, ?_, ?_, ?_⟩, ?_⟩
    · rw [hbefore, endLast_snoc]
      simp
    · intro q hq
      rcases List.mem_append.1 hq with hq | hq
      · exact h.sound q (List.mem_append_left _ hq)
      · obtain rfl := List.mem_singleton.1 hq
        exact ⟨hsound.start_eq, hsound.stop_eq, hsound.stays, hsound.exit_eq, hsound.entered,
          hsound.effect_eq⟩
    · refine List.isChain_append.2 ⟨hchain, .singleton _, fun q hq p' hp' => ?_⟩
      obtain rfl := Option.some.inj hp'
      have hprecedes := hlinked q hq p rfl
      exact ⟨hprecedes.follow_eq, hprecedes.stop_lt, hprecedes.boundary⟩
    · rw [hbefore, endLast_snoc]
      intro n b hb
      have hentry := h.entry n
      rw [hbefore] at hentry
      rw [List.getElem?_append] at hb hentry
      split at hb
      next hlt =>
        simp only [hlt, if_true] at hentry
        exact hentry b hb
      next hge =>
        simp only [hge, if_false] at hentry
        obtain ⟨hn, rfl⟩ := by simpa [List.getElem?_singleton] using hb
        exact hentry p.block (by simp [hn])
    · simp [Piece.part]

/-- The blocks are those of the pieces, and the instructions of the pieces are all instructions. -/
structure MadeOf (s : Segmentation) (pieces : List Piece) : Prop where
  laid : Laid s.instructions (s.jumps.map (·.target)) s.blocks pieces
  whole : s.instructions = pieces.flatMap Piece.part
  ordered : Ordered s.instructions

variable {s : Segmentation} {front back : List Instruction}

theorem exists_pieces (h : ofInstructions is = .ok s) (hordered : Ordered is) :
    ∃ pieces, s.MadeOf pieces := by
  obtain ⟨-, hinstructions, hblocks⟩ := ofInstructions_eq_ok h
  have hinit := Cutting.init is (s.jumps.map (·.target))
  obtain ⟨pieces, hlaid, hwhole⟩ := hinit.exists_laid hordered rfl
  obtain ⟨pieces', hlaid', hparts⟩ := hlaid.endLast
  subst hinstructions
  exact ⟨pieces', hblocks ▸ hlaid', hwhole.trans hparts.symm, hordered⟩

theorem follow_of_last (h : ofInstructions is = .ok s) {b : Block}
    (hb : s.blocks.getLast? = some b) : b.follow = none := by
  rw [(ofInstructions_eq_ok h).2.2] at hb
  rcases List.eq_nil_or_concat' (cut is (s.jumps.map (·.target)) []
    ((is.head?.map (·.offset)).getD 0) none is) with hnil | ⟨bs, c, hbs⟩
  · rw [hnil] at hb
    cases hb
  · rw [hbs, endLast_snoc, List.getLast?_concat] at hb
    exact Option.some.inj hb ▸ rfl

theorem Piece.part_ne_nil (p : Piece) : p.part ≠ [] := by simp [Piece.part]

/-- An instruction stands in one of the pieces. -/
theorem exists_piece {pieces : List Piece}
    (h : pieces.flatMap Piece.part = front ++ i :: back) :
    ∃ earlier p later pre post, pieces = earlier ++ p :: later ∧ p.part = pre ++ i :: post ∧
      front = earlier.flatMap Piece.part ++ pre ∧ back = post ++ later.flatMap Piece.part := by
  induction pieces generalizing front with
  | nil => simp at h
  | cons p pieces ih =>
    rw [List.flatMap_cons] at h
    rcases List.append_eq_append_iff.1 h with ⟨pre, rfl, hrest⟩ | ⟨post, hpart, hrest⟩
    · obtain ⟨earlier, q, later, pre', post, rfl, hq, rfl, rfl⟩ := ih hrest
      exact ⟨p :: earlier, q, later, pre', post, rfl, hq, by simp, rfl⟩
    · cases post with
      | nil =>
        obtain ⟨earlier, q, later, pre', post, rfl, hq, hnil, rfl⟩ :=
          @ih [] (by simpa using hrest.symm)
        obtain ⟨hearlier, rfl⟩ := List.append_eq_nil_iff.1 hnil.symm
        exact ⟨p :: earlier, q, later, [], post, rfl, hq, by simp [← hearlier, hpart], rfl⟩
      | cons i' post =>
        obtain ⟨rfl, rfl⟩ := List.cons.inj hrest
        exact ⟨[], p, pieces, front, post, rfl, hpart, rfl, rfl⟩

/-- Neighbours stand in the same piece, or one ends its piece and the other begins the next. -/
theorem exists_neighbours {pieces : List Piece}
    (h : pieces.flatMap Piece.part = front ++ i :: j :: back) :
    (∃ earlier p later pre post, pieces = earlier ++ p :: later ∧ p.part = pre ++ i :: j :: post ∧
      front = earlier.flatMap Piece.part ++ pre) ∨
    ∃ earlier p q later, pieces = earlier ++ p :: q :: later ∧ p.last = i ∧
      q.part.head? = some j ∧ front = earlier.flatMap Piece.part ++ p.body := by
  obtain ⟨earlier, p, later, pre, post, rfl, hp, rfl, hback⟩ := exists_piece h
  cases post with
  | cons j' post =>
    obtain ⟨rfl, -⟩ := List.cons.inj hback
    exact .inl ⟨earlier, p, later, pre, post, rfl, hp, rfl⟩
  | nil =>
    obtain ⟨hbody, hlast⟩ := List.append_inj' hp rfl
    cases later with
    | nil => cases hback
    | cons q later =>
      refine .inr ⟨earlier, p, q, later, rfl, (List.cons.inj hlast).1, ?_, by rw [hbody]⟩
      have hhead := congrArg List.head? hback
      cases hq : q.part with
      | nil => exact (q.part_ne_nil hq).elim
      | cons j' others =>
        rw [List.nil_append, List.flatMap_cons, hq] at hhead
        exact hhead.symm

end ElispLift.Segmentation
