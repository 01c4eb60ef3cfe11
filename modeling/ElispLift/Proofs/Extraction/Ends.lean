import ElispLift.Parse
import ElispLift.Proofs.Extraction.Search

/-!
# Ends that are tried

The ends that are tried for a symbol descend, and a split fails at once where nothing can be done
for its first symbol.
-/

namespace ElispLift.Extraction

variable {p : Span → Option Node → Prop} {input : Input} {build : Span → Search (Option Node)}
  {lhs : Nonterminal} {first last pos : Nat} {children : List Node} {symbols : List Symbol}

/-- Nothing can be done for the first symbol. -/
def Stuck (input : Input) (last : Nat) (symbols : List Symbol) (pos : Nat) : Prop :=
  match symbols with
  | [] => pos ≠ last
  | .terminal kind :: _ =>
    ∀ token, input.context.tokens[pos]? = some token → pos < last → token.kind ≠ kind
  | .nonterminal kind :: rest => endsFor input kind rest.isEmpty pos last = []
  | .word _ :: _ => True

theorem splitRest_of_stuck (h : Stuck input last symbols pos) (b : Budget) :
    splitRest input build lhs first last symbols pos children b = pure (none, b) := by
  rcases symbols with _ | ⟨kind | kind | _, rest⟩
  · unfold splitRest accept
    simp only [bne_iff_ne.2 h]
    rfl
  · unfold splitRest
    dsimp only
    cases htoken : input.context.tokens[pos]? with
    | none => rfl
    | some token =>
      have hne : (pos < last && token.kind = kind) = false := by simpa using h token htoken
      simp only [hne]
      rfl
  · change endsFor input kind rest.isEmpty pos last = [] at h
    unfold splitRest
    dsimp only
    rw [h]
    rfl
  · rfl

/-- A split that is stuck costs one step. -/
theorem meets_of_stuck {fails : Prop} (h : Stuck input last symbols pos) (b : Budget) :
    Search.Meets fails p
      (fun found => found.1 = none ∧ found.2 = { b with steps := b.steps + 1 })
      (split input build lhs first last symbols pos children b) := by
  rw [split_eq, splitRest_of_stuck h, ite_self]
  exact Search.Meets.pure ⟨rfl, rfl⟩

/-! ### Ends -/

section Ends

variable {kind : Nonterminal} {isLast : Bool} {stop : Nat}

theorem mem_endsFor : stop ∈ endsFor input kind isLast pos last ↔
    (stop ∈ input.ends.of kind pos ∧ stop ≤ last ∨
      input.grammar.isNullable kind = true ∧ stop = pos) ∧ (isLast = true → stop = last) := by
  have hends : ∀ {ends : List Nat}, (stop ∈ if isLast then ends.filter (· == last) else ends) ↔
      stop ∈ ends ∧ (isLast = true → stop = last) := by
    intro ends
    cases isLast <;> simp
  unfold endsFor
  rw [hends]
  refine and_congr_left' ?_
  by_cases hnullable : input.grammar.isNullable kind = true
  · by_cases hpos : pos ∈ (input.ends.of kind pos).filter (· ≤ last)
    · have hmem := List.mem_filter.1 hpos
      simp only [hnullable, List.contains_iff_mem.2 hpos]
      simp
      rintro rfl
      simpa using hmem
    · have hcontains : ((input.ends.of kind pos).filter (· ≤ last)).contains pos = false := by
        simpa using hpos
      simp only [hnullable, hcontains]
      simp
  · simp [hnullable]

/-- Ends are tried from the last one down. -/
theorem endsFor_descending (hends : (input.ends.of kind pos).Pairwise (· > ·))
    (hge : ∀ q ∈ input.ends.of kind pos, pos ≤ q) :
    (endsFor input kind isLast pos last).Pairwise (· > ·) := by
  have hfiltered := hends.filter (· ≤ last)
  have hall : ∀ {b : Bool}, (if b && !((input.ends.of kind pos).filter (· ≤ last)).contains pos then
      (input.ends.of kind pos).filter (· ≤ last) ++ [pos]
      else (input.ends.of kind pos).filter (· ≤ last)).Pairwise (· > ·) := by
    intro b
    by_cases hpos : pos ∈ (input.ends.of kind pos).filter (· ≤ last)
    · rw [List.contains_iff_mem.2 hpos]
      simpa using hfiltered
    · split
      · refine List.pairwise_append.2
          ⟨hfiltered, List.pairwise_singleton _ _, fun q hq q' hq' => ?_⟩
        obtain rfl := List.mem_singleton.1 hq'
        refine Nat.lt_of_le_of_ne (hge q ((List.mem_filter.1 hq).1)) ?_
        rintro rfl
        exact hpos hq
      · exact hfiltered
  unfold endsFor
  cases isLast with
  | true => exact hall.filter _
  | false => exact hall

end Ends

/-- The parser returns the tree that is found for the whole of the instructions. -/
theorem parse_of_run {start : Nonterminal} {extra : List Rule} {tokens : List Instruction}
    {tree : Node}
    (hcovers : ((Grammar.withExtra extra).chartOf ⟨tokens.toArray⟩ start).covers start 0
      tokens.length = true)
    (hrun : (run ⟨Grammar.withExtra extra, ⟨tokens.toArray⟩,
      ((Grammar.withExtra extra).chartOf ⟨tokens.toArray⟩ start).ends⟩
        ⟨start, 0, tokens.length⟩).1 = some tree) :
    parse start extra tokens = .ok tree := by
  have hparse : (Grammar.withExtra extra).parse start tokens = .ok tree := by
    unfold Grammar.parse
    dsimp only
    rw [if_pos hcovers]
    split
    next found memory hfound =>
      rw [hfound] at hrun
      rw [Option.some.inj hrun]
    next memory hfound =>
      rw [hfound] at hrun
      cases hrun
  unfold parse
  rw [hparse]

end ElispLift.Extraction
