import ElispLift.Proofs.Blocks.Jumps
import ElispLift.Proofs.Extraction.Rejections

/-!
# What a parse failure shows

A parse that fails names one of the instructions and shows the ones around it, at most ten before
and nine after, and nothing from beyond a label.
-/

namespace ElispLift

namespace ParseFailure

variable {tokens : Array Instruction} {steps n k : Nat}

/-! ### The bounds of the context -/

theorem lt_of_goesOn (h : goesOn tokens n = true) : n < tokens.size := by
  rw [goesOn] at h
  cases htoken : tokens[n]? with
  | none => simp [htoken] at h
  | some token => exact (Array.getElem?_eq_some_iff.1 htoken).1

/-- Going back ends after so many instructions, at the first one, or at a label. -/
theorem contextStart_bounds (tokens : Array Instruction) (steps n : Nat) :
    contextStart tokens steps n ≤ n ∧ n ≤ contextStart tokens steps n + steps ∧
      (∀ k, contextStart tokens steps n < k → k ≤ n → goesOn tokens k = true) ∧
      (n = contextStart tokens steps n + steps ∨ contextStart tokens steps n = 0 ∨
        goesOn tokens (contextStart tokens steps n) = false) := by
  induction steps generalizing n with
  | zero =>
    simp only [contextStart]
    exact ⟨Nat.le_refl n, Nat.le_refl n, by omega, .inl rfl⟩
  | succ steps ih =>
    cases n with
    | zero =>
      simp only [contextStart]
      exact ⟨Nat.le_refl 0, by omega, by omega, .inr (.inl trivial)⟩
    | succ n =>
      rw [contextStart]
      split
      next hn =>
        obtain ⟨hle, hsteps, hinside, hend⟩ := ih n
        refine ⟨by omega, by omega, fun k hk hkn => ?_, hend.imp_left (by omega)⟩
        rcases Nat.eq_or_lt_of_le hkn with rfl | hlt
        · exact hn
        · exact hinside k hk (by omega)
      next hn => exact ⟨Nat.le_refl _, by omega, by omega, .inr (.inr (by simpa using hn))⟩

/-- Going on ends after so many instructions, or before a label or the end. -/
theorem contextStop_bounds (tokens : Array Instruction) (steps n : Nat) :
    n ≤ contextStop tokens steps n ∧ contextStop tokens steps n ≤ n + steps ∧
      (∀ k, n ≤ k → k < contextStop tokens steps n → goesOn tokens k = true) ∧
      (contextStop tokens steps n = n + steps ∨
        goesOn tokens (contextStop tokens steps n) = false) := by
  induction steps generalizing n with
  | zero =>
    simp only [contextStop]
    exact ⟨Nat.le_refl n, Nat.le_refl n, by omega, .inl rfl⟩
  | succ steps ih =>
    rw [contextStop]
    split
    next hn =>
      obtain ⟨hle, hsteps, hinside, hend⟩ := ih (n + 1)
      refine ⟨by omega, by omega, fun k hk hkn => ?_, hend.imp_left (by omega)⟩
      rcases Nat.eq_or_lt_of_le hk with rfl | hlt
      · exact hn
      · exact hinside k hlt hkn
    next hn => exact ⟨Nat.le_refl n, by omega, by omega, .inr (by simpa using hn)⟩

/-! ### The instructions of the context -/

/-- What a failure shows of some instructions. It names `named`, and its lines are that one, which
is marked, with those of `before` and `after` around it. Of the instructions, `pre` stand in front
of these and `post` behind them. -/
structure Shows (e : ParseFailure) (pre before : List Instruction) (named : Instruction)
    (after post : List Instruction) : Prop where
  token_eq : e.token = named.name
  token_ne : e.token ≠ "<end>"
  offset_eq : e.offset = named.offset
  context_eq : e.context = before.map (fun i => "   " ++ i.toText) ++
    ("-> " ++ named.toText) :: after.map fun i => "   " ++ i.toText
  length_before : before.length ≤ 10
  length_after : after.length ≤ 9
  labels : ∀ i ∈ (before ++ named :: after).tail, i.isOp .label = false
  before_short : before.length < 10 → pre = [] ∨
    ∃ i ∈ (before ++ [named]).head?, i.isOp .label = true
  after_short : after.length < 9 → post = [] ∨ ∃ i ∈ post.head?, i.isOp .label = true

/-- No operation has the name that stands for the end of the instructions. -/
theorem name_ne_end (kind : OpKind) : kind.name ≠ "<end>" := by
  cases kind with
  | fixed op =>
    have hall : ∀ op ∈ Opcode.all, op.name ≠ "<end>" := by decide +kernel
    exact hall op op.mem_all
  | counted family count =>
    intro h
    have hunderscore : '_' ∈ (OpKind.counted family count).name.toList := by
      simp [OpKind.name]
    rw [h] at hunderscore
    exact absurd hunderscore (by decide)

theorem mapIdx_eq_map {α β : Type} {f : Nat → α → β} {g : α → β} {l : List α}
    (h : ∀ k a, k < l.length → f k a = g a) : l.mapIdx f = l.map g :=
  List.ext_getElem (by simp) fun k hk _ => by
    rw [List.getElem_mapIdx, List.getElem_map, h _ _ (by simpa using hk)]

/-- There are instructions in front of a window of some, and behind it. -/
theorem exists_window {α : Type} {l : List α} {start stop : Nat} (hstart : start ≤ n)
    (hn : n < stop) (hstop : stop ≤ l.length) :
    ∃ pre before named after post, l = pre ++ (before ++ named :: after) ++ post ∧
      start = pre.length ∧ n = pre.length + before.length ∧
        stop = pre.length + (before ++ named :: after).length := by
  have hlt : n < (l.take stop).length := by rw [List.length_take]; omega
  refine ⟨(l.take n).take start, (l.take n).drop start, (l.take stop)[n],
    (l.take stop).drop (n + 1), l.drop stop, ?_, ?_, ?_, ?_⟩
  · have hfront : l.take n = (l.take stop).take n := by
      rw [List.take_take, Nat.min_eq_left (Nat.le_of_lt hn)]
    rw [← List.append_assoc, List.take_append_drop, ← List.drop_eq_getElem_cons, hfront,
      List.take_append_drop, List.take_append_drop]
  all_goals
    simp only [List.length_append, List.length_cons, List.length_take, List.length_drop]
    omega

section

variable {pre middle post before after : List Instruction} {named i : Instruction}

theorem goesOn_middle (h : middle[k]? = some i) :
    goesOn (pre ++ middle ++ post).toArray (pre.length + k) = !i.isOp .label := by
  have hk := (List.getElem?_eq_some_iff.1 h).1
  have hget : (pre ++ middle ++ post).toArray[pre.length + k]? = some i := by
    rw [List.getElem?_toArray, List.append_assoc, List.getElem?_append_right (by omega),
      Nat.add_sub_cancel_left, List.getElem?_append_left hk, h]
  rw [goesOn, hget]
  rfl

theorem goesOn_behind (h : post.head? = some i) :
    goesOn (pre ++ middle ++ post).toArray (pre.length + middle.length) = !i.isOp .label := by
  have hpost : post[0]? = some i := by rw [← List.head?_eq_getElem?, h]
  have hgoes := @goesOn_middle 0 (pre ++ middle) post [] i hpost
  rwa [List.append_nil, List.length_append, Nat.add_zero] at hgoes

/-- Only the line of the instruction that failed is marked. -/
theorem near_eq (hstart : contextStart (pre ++ (before ++ named :: after) ++ post).toArray 10
      (pre.length + before.length) = pre.length)
    (hstop : contextStop (pre ++ (before ++ named :: after) ++ post).toArray 9
      (pre.length + before.length + 1) = pre.length + (before ++ named :: after).length) :
    near (pre ++ (before ++ named :: after) ++ post).toArray (pre.length + before.length) =
      ⟨named.name, named.offset, before.map (fun i => "   " ++ i.toText) ++
        ("-> " ++ named.toText) :: after.map fun i => "   " ++ i.toText⟩ := by
  have hnamed : (pre ++ (before ++ named :: after) ++ post).toArray[pre.length + before.length]? =
      some named := by simp
  have hcontext : ((pre ++ (before ++ named :: after) ++ post).toArray.extract pre.length
      (pre.length + (before ++ named :: after).length)).toList = before ++ named :: after := by
    rw [List.extract_toArray, List.extract_eq_take_drop, Nat.add_sub_cancel_left,
      List.append_assoc, List.drop_left, List.take_left]
  rw [near, hnamed]
  dsimp only
  rw [hstart, hstop, hcontext, List.mapIdx_append, List.mapIdx_cons]
  have hbefore : before.mapIdx (fun k i =>
      (if pre.length + k = pre.length + before.length then "-> " else "   ") ++ i.toText) =
        before.map fun i => "   " ++ i.toText :=
    mapIdx_eq_map fun k i hk => by rw [if_neg (by omega)]
  have hafter : after.mapIdx (fun k i => (if pre.length + (k + 1 + before.length) =
      pre.length + before.length then "-> " else "   ") ++ i.toText) =
        after.map fun i => "   " ++ i.toText :=
    mapIdx_eq_map fun k i _ => by rw [if_neg (by omega)]
  rw [hbefore, hafter, if_pos (by omega)]

end

/-- A failure at one of the instructions shows that one. -/
theorem exists_shows {tokens : List Instruction} (hn : n < tokens.length) :
    ∃ pre before named after post, tokens = pre ++ (before ++ named :: after) ++ post ∧
      (near tokens.toArray n).Shows pre before named after post := by
  obtain ⟨hstart, hten, hfront, hfirst⟩ := contextStart_bounds tokens.toArray 10 n
  obtain ⟨hstop, hnine, hback, hlast⟩ := contextStop_bounds tokens.toArray 9 (n + 1)
  have hwithin : contextStop tokens.toArray 9 (n + 1) ≤ tokens.length := by
    rcases Nat.eq_or_lt_of_le hstop with heq | hlt
    · omega
    -- The last instruction shown is one that the context went on to, so it is there.
    · have hgoes := hback (contextStop tokens.toArray 9 (n + 1) - 1) (by omega) (by omega)
      have hlt := lt_of_goesOn hgoes
      rw [List.size_toArray] at hlt
      omega
  obtain ⟨pre, before, named, after, post, rfl, hpre, hnamed, hpost⟩ :=
    exists_window hstart hstop hwithin
  rw [hpre, hnamed] at hten hfront hfirst
  rw [hpost, hnamed] at hnine hback hlast
  rw [hnamed] at hpre hpost
  refine ⟨pre, before, named, after, post, rfl, ?_⟩
  rw [hnamed, near_eq hpre hpost]
  have hlength : (before ++ named :: after).length = before.length + 1 + after.length := by
    rw [List.length_append, List.length_cons, Nat.add_right_comm, Nat.add_assoc]
  exact
    { token_eq := rfl
      token_ne := name_ne_end named.kind
      offset_eq := rfl
      context_eq := rfl
      length_before := by omega
      length_after := by omega
      labels := fun i hi => by
        obtain ⟨k, hk⟩ := List.mem_iff_getElem?.1 hi
        rw [List.getElem?_tail] at hk
        have hgoes : goesOn (pre ++ (before ++ named :: after) ++ post).toArray
            (pre.length + (k + 1)) = true := by
          rcases Nat.lt_or_ge before.length (k + 1) with hlt | hle
          · have hinside := (List.getElem?_eq_some_iff.1 hk).1
            exact hback _ (by omega) (by omega)
          · exact hfront _ (by omega) (by omega)
        simpa using (goesOn_middle hk).symm.trans hgoes
      before_short := fun hshort => by
        obtain ⟨i, hi⟩ : ∃ i, (before ++ named :: after)[0]? = some i := by cases before <;> simp
        have hhead : i ∈ (before ++ [named]).head? := by
          cases before <;> simpa using hi
        rcases hfirst with hten | hzero | hgoes
        · omega
        · exact .inl (List.length_eq_zero_iff.1 hzero)
        · exact .inr ⟨i, hhead, by simpa using (goesOn_middle hi).symm.trans hgoes⟩
      after_short := fun hshort => by
        cases post with
        | nil => exact .inl rfl
        | cons i post =>
          have hgoes := hlast.resolve_left (by omega)
          exact .inr ⟨i, rfl, by simpa using (goesOn_behind rfl).symm.trans hgoes⟩ }

/-- A parse by the rules of the grammar and those for the arities of any code fails at one of its
instructions, if it has any. -/
theorem shows_of_parse {start : Nonterminal} {source tokens : List Instruction} {e : Error}
    (htokens : tokens ≠ []) (h : parse start (Grammar.arityRules source) tokens = .error e) :
    ∃ failure pre before named after post, e = .noParse failure ∧
      tokens = pre ++ (before ++ named :: after) ++ post ∧
      failure.Shows pre before named after post ∧ failure.context.length ≤ 20 := by
  rw [ElispLift.parse] at h
  split at h
  · cases h
  next failure hfailure =>
    obtain ⟨n, hn, rfl⟩ := Grammar.exists_near_of_parse htokens hfailure
    obtain ⟨pre, before, named, after, post, htokens, hshows⟩ := exists_shows hn
    have hbefore := hshows.length_before
    have hafter := hshows.length_after
    refine ⟨_, pre, before, named, after, post, (Except.error.inj h).symm, htokens, hshows, ?_⟩
    rw [hshows.context_eq]
    simp only [List.length_append, List.length_cons, List.length_map]
    omega

/-- After a branch there are two summands too few. -/
def branchToSum : List Instruction :=
  [.ofOpcode .varref (some (.symbol "a")) 0, .ofOpcode .gotoIfNil (some (.symbol "1")) 1,
    .ofOpcode .label (some (.symbol "1")) 2, ⟨.fixed .plus, none, 2, some "1"⟩,
    .ofOpcode .ret none 3]

theorem shows_of_parse_branchToSum : ∃ failure pre before named after post,
    parse .fnBody (Grammar.arityRules branchToSum) branchToSum = .error (.noParse failure) ∧
      branchToSum = pre ++ (before ++ named :: after) ++ post ∧
      failure.Shows pre before named after post ∧ failure.context.length ≤ 20 := by
  have hfails : (parse .fnBody (Grammar.arityRules branchToSum) branchToSum).toOption.isNone =
      true := by
    decide +kernel
  obtain ⟨e, hparse⟩ := exists_error_of_isNone hfails
  obtain ⟨failure, pre, before, named, after, post, rfl, hshows⟩ :=
    shows_of_parse (by simp [branchToSum]) hparse
  exact ⟨failure, pre, before, named, after, post, hparse, hshows⟩

/-- The instructions in front of the label are not shown. -/
example : near branchToSum.toArray 3 =
    ⟨"PLUS", 2, ["       2 LABEL      1", "->     2 PLUS", "       3 RETURN"]⟩ := by
  decide +kernel

end ParseFailure

end ElispLift
