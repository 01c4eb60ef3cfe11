import ElispLift.Proofs.Blocks.Markers
import Mathlib.Data.List.Nodup

/-!
# Jumps with labels of their own

Where every label is the target of one jump, and no two labels stand together, the markers can be
told without a look at the blocks: a label has one marker, and it starts a block. Besides it,
control enters a block only behind jumps and returns, so other instructions are marked by what
stands in front of them.
-/

namespace ElispLift.Segmentation

/-- Each jump has a label of its own, and there is an instruction between any two labels. -/
structure Linked (is : List Instruction) : Prop where
  ordered : Ordered is
  apart : is.IsChain fun i j => i.isOp .label = true → j.isOp .label = false
  distinct : ((is.filter (·.isOp .label)).map labelText).Nodup
  matched : ((is.filter (·.isJump)).map labelText).Perm ((is.filter (·.isOp .label)).map labelText)

/-- Offsets ascend, but a label may stand at that of an instruction behind it. -/
def Ahead (i j : Instruction) : Prop :=
  i.offset < j.offset ∨ i.offset = j.offset ∧ i.isOp .label = true ∧ j.isOp .label = false

/-- A block may begin behind these instructions. -/
def Leads (front : List Instruction) : Prop :=
  ∀ j, front.getLast? = some j → (j.isJump || j.isOp .ret || j.isOp .label) = true

/-- The instructions in `rest` with their markers, behind those in `front`. -/
def annotateBehind (s : Segmentation) (front : List Instruction) (depth : Nat)
    (rest : List Instruction) : List Instruction :=
  s.annotateFrom (front.getLast?.map (·.offset)) depth rest

variable {is front rest : List Instruction} {s : Segmentation} {i j k : Instruction} {depth : Nat}

instance : Trans Ahead Ahead Ahead where
  trans := by
    rintro i j k (hij | ⟨hij, hi, hj⟩) (hjk | ⟨hjk, hj', hk⟩)
    · exact .inl (by omega)
    · exact .inl (by omega)
    · exact .inl (by omega)
    · rw [hj] at hj'
      cases hj'

theorem leads_snoc : Leads (front ++ [j]) ↔ (j.isJump || j.isOp .ret || j.isOp .label) = true := by
  simp [Leads]

/-- An instruction at the offset of one before it stands right behind a label. -/
theorem leads_of_same_offset (h : Ordered (front ++ i :: rest))
    (hmem : i.offset ∈ front.map (·.offset)) : Leads front := by
  have hlast := (mem_offsets_iff h).1 hmem
  rcases List.eq_nil_or_concat' front with rfl | ⟨front, j, rfl⟩
  · cases hlast
  · rw [List.getLast?_concat] at hlast
    have hlabels := labels_of_same_offset (i := i)
      (List.isChain_append.1 (List.append_assoc front [j] _ ▸ h)).2.1 (by simpa using hlast)
    rw [leads_snoc, hlabels j (by simp)]
    simp

namespace Linked

variable (h : Linked is)

include h

/-! ### Labels -/

theorem pairwise : is.Pairwise Ahead := by
  refine List.IsChain.pairwise (List.isChain_iff_getElem.2 fun n hn => ?_)
  have hapart := List.isChain_iff_getElem.1 h.apart n hn
  rcases List.isChain_iff_getElem.1 h.ordered n hn with hlt | ⟨heq, hlabel⟩
  · exact .inl hlt
  · exact .inr ⟨heq, hlabel, hapart hlabel⟩

theorem eq_of_text (hi : i ∈ is) (hlabel : i.isOp .label = true) (hk : k ∈ is)
    (hlabel' : k.isOp .label = true) (htext : labelText i = labelText k) : i = k :=
  List.inj_on_of_nodup_map h.distinct (List.mem_filter.2 ⟨hi, hlabel⟩)
    (List.mem_filter.2 ⟨hk, hlabel'⟩) htext

theorem eq_of_offset (hi : i ∈ is) (hlabel : i.isOp .label = true) (hk : k ∈ is)
    (hlabel' : k.isOp .label = true) (hoffset : i.offset = k.offset) : i = k := by
  obtain ⟨m, hm, rfl⟩ := List.mem_iff_getElem.1 hi
  obtain ⟨n, hn, rfl⟩ := List.mem_iff_getElem.1 hk
  have hpairwise := List.pairwise_iff_getElem.1 h.pairwise
  rcases Nat.lt_trichotomy m n with hlt | rfl | hlt
  · rcases hpairwise m n hm hn hlt with hless | ⟨-, -, hno⟩
    · omega
    · rw [hlabel'] at hno
      cases hno
  · rfl
  · rcases hpairwise n m hn hm hlt with hless | ⟨-, -, hno⟩
    · omega
    · rw [hlabel] at hno
      cases hno

theorem labelOffset?_eq (hk : k ∈ is) (hlabel : k.isOp .label = true) :
    labelOffset? is (labelText k) = some k.offset := by
  cases hoffset : labelOffset? is (labelText k) with
  | none => exact (labelOffset?_eq_none.1 hoffset k hk ⟨hlabel, rfl⟩).elim
  | some offset =>
    obtain ⟨front, label, back, rfl, ⟨hlabel', htext⟩, rfl, -⟩ := labelOffset?_eq_some.1 hoffset
    rw [h.eq_of_text (by simp) hlabel' hk hlabel htext]

/-- The label of a jump. -/
theorem exists_label (hi : i ∈ is) (hjump : i.isJump = true) :
    ∃ k ∈ is, k.isOp .label = true ∧ labelText k = labelText i := by
  have hmem := h.matched.subset (List.mem_map_of_mem (List.mem_filter.2 ⟨hi, hjump⟩))
  obtain ⟨k, hk, htext⟩ := List.mem_map.1 hmem
  exact ⟨k, (List.mem_filter.1 hk).1, (List.mem_filter.1 hk).2, htext⟩

theorem exists_segmentation : ∃ s, ofInstructions is = .ok s := by
  cases hs : ofInstructions is with
  | ok s => exact ⟨s, rfl⟩
  | error e =>
    obtain ⟨front, jump, back, his, -, ⟨hjump, hnone⟩, -⟩ :=
      jumps?_eq_error.1 (ofInstructions_eq_error.1 hs)
    obtain ⟨k, hk, hlabel, htext⟩ := h.exists_label (i := jump) (by simp [his]) hjump
    exact (hnone k hk ⟨hlabel, htext⟩).elim

/-! ### Markers -/

/-- A jump leads to a label if it has its name. -/
theorem target_iff {jump : Jump} (hi : i ∈ is) (hjump : jump? is i = some jump) (hk : k ∈ is)
    (hlabel : k.isOp .label = true) : jump.target = k.offset ↔ labelText i = labelText k := by
  obtain ⟨hisJump, htarget, -⟩ := jump?_eq_some.1 hjump
  obtain ⟨l, hl, hlabel', htext⟩ := h.exists_label hi hisJump
  rw [← htext, h.labelOffset?_eq hl hlabel'] at htarget
  rw [← Option.some.inj htarget, ← htext]
  exact ⟨fun hoffset => congrArg labelText (h.eq_of_offset hl hlabel' hk hlabel hoffset),
    fun hsame => congrArg Instruction.offset (h.eq_of_text hl hlabel' hk hlabel hsame)⟩

/-- One jump leads to a label. -/
theorem exists_source (hs : ofInstructions is = .ok s) (hk : k ∈ is)
    (hlabel : k.isOp .label = true) : ∃ source, s.sources k.offset = [source] := by
  have hmem := h.matched.symm.subset (List.mem_map_of_mem (List.mem_filter.2 ⟨hk, hlabel⟩))
  obtain ⟨g, hg, hsame⟩ := List.mem_map.1 hmem
  obtain ⟨hg, hjump⟩ := List.mem_filter.1 hg
  obtain ⟨front, back, his⟩ := List.append_of_mem hg
  have hnodup := h.matched.nodup_iff.2 h.distinct
  rw [his, List.filter_append, List.filter_cons_of_pos hjump, List.map_append, List.map_cons,
    List.nodup_middle, List.nodup_cons, List.mem_append, List.mem_map, List.mem_map] at hnodup
  -- The other jumps have other names.
  have hnone : ∀ part : List Instruction, (∀ i ∈ part, i ∈ is) →
      (∀ i ∈ part, i.isJump = true → labelText i ≠ labelText g) →
        (part.filterMap (jump? is)).filter (·.target == k.offset) = [] := by
    intro part hpart hother
    refine List.filter_eq_nil_iff.2 fun jump hmem htarget => ?_
    obtain ⟨i, hi, hsome⟩ := List.mem_filterMap.1 hmem
    exact hother i hi (jump?_eq_some.1 hsome).1
      (((h.target_iff (hpart i hi) hsome hk hlabel).1 (by simpa using htarget)).trans hsame.symm)
  have hfront := hnone front (fun i hi => by simp [his, hi]) fun i hi hjump he =>
    hnodup.1 (.inl ⟨i, List.mem_filter.2 ⟨hi, hjump⟩, he⟩)
  have hback := hnone back (fun i hi => by simp [his, hi]) fun i hi hjump he =>
    hnodup.1 (.inr ⟨i, List.mem_filter.2 ⟨hi, hjump⟩, he⟩)
  have htarget : jump? is g = some ⟨g.offset, k.offset⟩ := by
    rw [jump?, if_pos hjump, hsame, h.labelOffset?_eq hk hlabel]
    rfl
  refine ⟨g.offset, ?_⟩
  rw [sources_eq hs]
  nth_rewrite 2 [his]
  rw [List.filterMap_append, List.filterMap_cons_some htarget, List.filter_append, hfront,
    List.filter_cons_of_pos (by simp), hback]
  rfl

/-- One marker is put in front of a label. -/
theorem exists_arrival (hs : ofInstructions is = .ok s) (hk : k ∈ is)
    (hlabel : k.isOp .label = true) :
    ∃ source, s.arrivals k.offset = [comeFrom source k.offset] := by
  obtain ⟨source, hsource⟩ := h.exists_source hs hk hlabel
  exact ⟨source, by rw [arrivals, hsource]; rfl⟩

theorem startsBlock_label (hs : ofInstructions is = .ok s) (hk : k ∈ is)
    (hlabel : k.isOp .label = true) : s.startsBlock k.offset = true := by
  have hmem := h.matched.symm.subset (List.mem_map_of_mem (List.mem_filter.2 ⟨hk, hlabel⟩))
  obtain ⟨g, hg, hsame⟩ := List.mem_map.1 hmem
  obtain ⟨hg, hjump⟩ := List.mem_filter.1 hg
  have hleader : IsLeader is k.offset :=
    .inr (.inl ⟨g, hg, hjump, by rw [hsame, h.labelOffset?_eq hk hlabel]⟩)
  obtain ⟨b, hb, hstart⟩ := (exists_start_iff_isLeader hs h.ordered k.offset).2 hleader
  exact List.any_eq_true.2 ⟨b, hb, by simpa using hstart⟩

section

variable (hsplit : is = front ++ i :: rest) (hi : i.isOp .label = false)

include hsplit hi

/-- Behind an instruction that is no label offsets are higher. -/
theorem lt_of_mem_rest : ∀ j ∈ rest, i.offset < j.offset := by
  intro j hj
  have hpairwise := h.pairwise
  rw [hsplit] at hpairwise
  rcases (List.pairwise_cons.1 (List.pairwise_append.1 hpairwise).2.1).1 j hj with
    hlt | ⟨-, hlabel, -⟩
  · exact hlt
  · rw [hi] at hlabel
    cases hlabel

/-- A label at the offset of another instruction stands in front of it. -/
theorem mem_front (hk : k ∈ is) (hlabel : k.isOp .label = true) (hoffset : k.offset = i.offset) :
    i.offset ∈ front.map (·.offset) := by
  rw [hsplit] at hk
  rcases List.mem_append.1 hk with hk | hk
  · exact List.mem_map.2 ⟨k, hk, hoffset⟩
  · rcases List.mem_cons.1 hk with rfl | hk
    · rw [hi] at hlabel
      cases hlabel
    · have := h.lt_of_mem_rest hsplit hi k hk
      omega

/-- An instruction that is no label has no markers for jumps, unless a label with the same offset
has them. -/
theorem arrivals_eq_nil (hs : ofInstructions is = .ok s)
    (hfirst : i.offset ∉ front.map (·.offset)) :
    s.arrivals i.offset = [] := by
  have hsources : s.sources i.offset = [] := by
    rw [sources_eq hs, List.map_eq_nil_iff]
    refine List.filter_eq_nil_iff.2 fun jump hjump htarget => hfirst ?_
    obtain ⟨g, -, hg⟩ := List.mem_filterMap.1 hjump
    obtain ⟨k, hk, hlabel, hoffset⟩ := Segmentation.exists_label (jump?_eq_some.1 hg).2.1
    exact h.mem_front hsplit hi hk hlabel (hoffset.trans (by simpa using htarget))
  rw [arrivals, hsources]
  rfl

/-- Control enters a block that does not begin with a label only at the start, and behind jumps and
returns. -/
theorem leads_of_startsBlock (hs : ofInstructions is = .ok s)
    (hstarts : s.startsBlock i.offset = true) : Leads front := by
  have hsame := fun hmem => leads_of_same_offset (hsplit ▸ h.ordered) hmem
  obtain ⟨b, hb, hstart⟩ := List.any_eq_true.1 hstarts
  have hleader := (exists_start_iff_isLeader hs h.ordered i.offset).1
    ⟨b, hb, by simpa using hstart⟩
  rcases hleader with ⟨first, hfirst, hoffset⟩ | ⟨jump, -, -, htarget⟩ |
    ⟨before, leaving, next, after, his, hleaving, hoffset⟩
  · cases front with
    | nil => exact fun j hj => by cases hj
    | cons j front =>
      rw [hsplit, List.cons_append, List.head?_cons] at hfirst
      obtain rfl := Option.some.inj hfirst
      exact hsame (by simp [hoffset])
  · obtain ⟨k, hk, hlabel, hoffset⟩ := Segmentation.exists_label htarget
    exact hsame (h.mem_front hsplit hi hk hlabel hoffset)
  · have hlast : Leads (before ++ [leaving]) := by
      rw [leads_snoc, Bool.or_eq_true, Bool.or_eq_true]
      exact .inl hleaving
    rw [hsplit, List.append_cons before leaving] at his
    rcases List.append_eq_append_iff.1 his with ⟨part, hbefore, hrest⟩ | ⟨part, hfront, hrest⟩
    · cases part with
      | nil =>
        rw [List.append_nil] at hbefore
        exact hbefore ▸ hlast
      | cons j part =>
        obtain ⟨rfl, rfl⟩ := List.cons.inj hrest
        have := h.lt_of_mem_rest hsplit hi next (by simp)
        omega
    · cases part with
      | nil => rwa [hfront, List.append_nil]
      | cons j part =>
        obtain ⟨rfl, -⟩ := List.cons.inj hrest
        exact hsame (by simp [hfront, hoffset])

end

/-! ### Annotated instructions -/

/-- A label gets a marker for its jump, and what was on the stack is left behind. -/
theorem annotateBehind_label (hs : ofInstructions is = .ok s) (hsplit : is = front ++ k :: rest)
    (hlabel : k.isOp .label = true) : ∃ source, s.annotateBehind front depth (k :: rest) =
      comeFrom source k.offset :: k :: s.annotateBehind (front ++ [k]) 0 rest := by
  have hk : k ∈ is := by simp [hsplit]
  have hfirst : front.getLast?.map (·.offset) ≠ some k.offset := by
    rw [Ne, ← mem_offsets_iff (hsplit ▸ h.ordered)]
    intro hmem
    obtain ⟨j, hj, hoffset⟩ := List.mem_map.1 hmem
    have hpairwise := h.pairwise
    rw [hsplit] at hpairwise
    rcases (List.pairwise_append.1 hpairwise).2.2 j hj k (by simp) with hlt | ⟨-, -, hno⟩
    · omega
    · rw [hlabel] at hno
      cases hno
  have heffect : k.effect = .fixed 0 0 := by
    rw [Instruction.effect, Instruction.isOp_iff.1 hlabel]
    rfl
  obtain ⟨source, harrivals⟩ := h.exists_arrival hs hk hlabel
  refine ⟨source, ?_⟩
  rw [annotateBehind, annotateFrom, if_neg hfirst, harrivals,
    h.startsBlock_label hs hk hlabel]
  simp [access, heffect, accesses, annotateBehind]

/-- Another instruction gets the markers that it needs for its operands. -/
theorem annotateBehind_other (hs : ofInstructions is = .ok s) (hsplit : is = front ++ i :: rest)
    (hi : i.isOp .label = false) (hdepth : Leads front → depth = 0) :
    s.annotateBehind front depth (i :: rest) =
      (access depth i).1 ++ i :: s.annotateBehind (front ++ [i]) (access depth i).2 rest := by
  have harriving : (if front.getLast?.map (·.offset) = some i.offset then [] else
      s.arrivals i.offset) = [] := by
    split
    next => rfl
    next hfirst =>
      rw [← mem_offsets_iff (hsplit ▸ h.ordered)] at hfirst
      exact h.arrivals_eq_nil hsplit hi hs hfirst
  have hsame : (if s.startsBlock i.offset then 0 else depth) = depth := by
    split
    next hstarts => exact (hdepth (h.leads_of_startsBlock hsplit hi hs hstarts)).symm
    next => rfl
  rw [annotateBehind, annotateFrom, harriving, hsame]
  simp [annotateBehind]

/-- A block begins behind a jump, so what was on the stack is left behind. -/
theorem annotateBehind_jump (hs : ofInstructions is = .ok s) (hsplit : is = front ++ j :: rest)
    (hjump : j.isJump = true) :
    s.annotateBehind (front ++ [j]) depth rest = s.annotateBehind (front ++ [j]) 0 rest := by
  cases rest with
  | nil => rfl
  | cons i rest =>
    have hleader : IsLeader is i.offset := .inr (.inr ⟨front, j, i, rest, hsplit, .inl hjump, rfl⟩)
    obtain ⟨b, hb, hstart⟩ := (exists_start_iff_isLeader hs h.ordered i.offset).2 hleader
    have hstarts : s.startsBlock i.offset = true :=
      List.any_eq_true.2 ⟨b, hb, by simpa using hstart⟩
    simp [annotateBehind, annotateFrom, hstarts]

end Linked

end ElispLift.Segmentation
