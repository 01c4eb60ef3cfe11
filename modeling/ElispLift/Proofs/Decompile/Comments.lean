import Mathlib.Data.List.Basic
import ElispLift.Proofs.Listing.Names
import ElispLift.Proofs.Text.Lines

/-!
# Comments on request

The blocks, the uses of rules and the syntax trees that are shown on request are lines of comments
in front of the source of their routine. Nothing that they quote leaves its line, so the source, the
failures and what is said of a routine that fails are the same without them.
-/

namespace ElispLift

/-- Lines that start with `;;`, each with its line feed. -/
def IsCommentBlock (text : String) : Prop :=
  ∃ ls : List (List Char), text.toList = Text.unlines ls ∧
    ∀ l ∈ ls, '\n' ∉ l ∧ Text.startsWith [';', ';'] l = true

/-- A text that stays on its line. -/
def StaysOnLine (text : String) : Prop := '\n' ∉ text.toList

instance (text : String) : Decidable (StaysOnLine text) :=
  inferInstanceAs (Decidable ('\n' ∉ text.toList))

namespace StaysOnLine

variable {s t : String} {texts : List String}

theorem append (hs : StaysOnLine s) (ht : StaysOnLine t) : StaysOnLine (s ++ t) := by
  simpa [StaysOnLine] using ⟨hs, ht⟩

theorem nat (n : Nat) : StaysOnLine (toString n) := fun h =>
  absurd (Text.isDigit_of_mem_decimal (n := n) (by simpa using h)) (by decide)

theorem int (n : Int) : StaysOnLine (toString n) := by
  cases n with
  | ofNat n => exact nat n
  | negSucc n => exact append (s := "-") (by decide) (nat (n + 1))

theorem intercalate (hs : StaysOnLine s) (h : ∀ text ∈ texts, StaysOnLine text) :
    StaysOnLine (s.intercalate texts) := by
  induction texts with
  | nil => simp [StaysOnLine]
  | cons text rest ih =>
    rw [List.forall_mem_cons] at h
    cases rest with
    | nil => simpa using h.1
    | cons next rest =>
      rw [String.intercalate_cons_cons]
      exact (h.1.append hs).append (ih h.2)

theorem of_noBlank (h : ∀ c ∈ s.toList, Text.isBlank c = false) : StaysOnLine s :=
  fun hbreak => absurd (h _ hbreak) (by decide)

end StaysOnLine

namespace IsCommentBlock

variable {s t : String}

theorem empty : IsCommentBlock "" := ⟨[], by simp [Text.unlines], by simp⟩

theorem append (hs : IsCommentBlock s) (ht : IsCommentBlock t) : IsCommentBlock (s ++ t) := by
  obtain ⟨ls, hls, hs⟩ := hs
  obtain ⟨ms, hms, ht⟩ := ht
  refine ⟨ls ++ ms, ?_, fun l hl => (List.mem_append.1 hl).elim (hs l) (ht l)⟩
  rw [String.toList_append, hls, hms, Text.unlines, Text.unlines, Text.unlines,
    List.flatMap_append]

theorem line (h : StaysOnLine s) : IsCommentBlock (";; " ++ s ++ "\n") := by
  refine ⟨[";; ".toList ++ s.toList], by simp [Text.unlines], ?_⟩
  simp only [List.mem_singleton, forall_eq]
  refine ⟨(StaysOnLine.append (s := ";; ") (by decide) h) ∘ fun hb => by
    simpa using hb, ?_⟩
  rw [Text.startsWith, show ";; ".toList = [';', ';'] ++ [' '] from by decide, List.append_assoc,
    Text.after?_append]
  rfl

theorem join {α : Type} {f : α → String} {items : List α}
    (h : ∀ a ∈ items, IsCommentBlock (f a)) : IsCommentBlock (String.join (items.map f)) := by
  induction items with
  | nil => exact empty
  | cons a items ih =>
    rw [List.forall_mem_cons] at h
    rw [List.map_cons, String.join_cons]
    exact h.1.append (ih h.2)

/-- Text on request is a comment on every line, whatever it quotes. -/
theorem commented (text : String) : IsCommentBlock (ElispLift.commented text) := by
  refine join fun line hline => ?_
  rw [String.textLines, List.mem_map] at hline
  obtain ⟨l, hl, rfl⟩ := hline
  refine IsCommentBlock.line ?_
  rw [StaysOnLine, String.toList_ofList]
  exact Text.not_mem_of_mem_lines hl

end IsCommentBlock

theorem BlockEffect.staysOnLine_toText (e : BlockEffect) : StaysOnLine e.toText := by
  cases e with
  | single n => exact .int n
  | pair fall taken =>
    exact .append (.append (.append (.append (by decide) (.int fall)) (by decide)) (.int taken))
      (by decide)

theorem BlockFlag.staysOnLine_name (f : BlockFlag) : StaysOnLine f.name := by
  cases f <;> decide

theorem Block.staysOnLine_toText (b : Block) : StaysOnLine b.toText := by
  have hflags : ∀ flags : List BlockFlag,
      StaysOnLine (", ".intercalate (flags.map BlockFlag.name)) := fun flags =>
    .intercalate (by decide) fun text h => by
      obtain ⟨f, -, rfl⟩ := List.mem_map.1 h
      exact f.staysOnLine_name
  have hrange : StaysOnLine
      ("BasicBlock(range: (" ++ toString b.start ++ ", " ++ toString b.stop ++ ")") :=
    .append (.append (.append (.append (by decide) (.nat b.start)) (by decide)) (.nat b.stop))
      (by decide)
  unfold toText
  refine .append (.append (.append (.append (.append (.append (.append hrange ?flags)
    (by decide)) ?follow) ?jumps) (by decide)) b.effect.staysOnLine_toText) (by decide)
  case flags =>
    split
    · decide
    · exact .append (by decide) (.append (.append (by decide) (hflags _)) (by decide))
  case follow =>
    split
    · exact .nat _
    · decide
  case jumps =>
    split
    · refine .append (by decide) (.append (.append (by decide) ?_) (by decide))
      simpa using StaysOnLine.nat _
    · decide

/-- The blocks of a routine are shown behind its name, which stays on its line. -/
theorem Routine.isCommentBlock_blockComments {r : Routine} (h : StaysOnLine r.name)
    (blocks : List Block) : IsCommentBlock (r.blockComments blocks) := by
  have hname : IsCommentBlock (";; " ++ ("blocks of " ++ r.name) ++ "\n") :=
    .line (.append (by decide) h)
  rw [← String.append_assoc] at hname
  exact hname.append (.join fun b _ => .line b.staysOnLine_toText)

/-- With and without comments on request, a routine fails in the same way, or has the same text
behind the comments. -/
theorem Routine.decompile_behind {r : Routine} (hname : StaysOnLine r.name)
    (showBlocks showGrammar : Bool) (tree : TreeDump) :
    match r.decompile .default with
    | .error e => r.decompile ⟨.source, showBlocks, showGrammar, tree⟩ = .error e
    | .ok text => ∃ comments, IsCommentBlock comments ∧
        r.decompile ⟨.source, showBlocks, showGrammar, tree⟩ = .ok (comments ++ text) := by
  have honly : ∀ (shown : Bool) {text : String}, IsCommentBlock text →
      IsCommentBlock (if shown then text else "") := fun shown text h => by
    cases shown
    · exact .empty
    · exact h
  rw [Routine.decompile, Routine.decompile]
  cases Segmentation.ofInstructions r.instructions with
  | error e => rfl
  | ok segmentation =>
    cases hparse : Routine.parse segmentation.annotated with
    | error e => simp [bind, Except.bind, Options.default, hparse]
    | ok node =>
      cases hrender : node.idiomatic.render r.bodyIndent with
      | error e => simp [bind, Except.bind, Options.default, hparse, hrender]
      | ok source =>
        simp only [bind, Except.bind, Options.default, hparse, hrender, pure, Except.pure,
          Bool.false_eq_true, if_false, TreeDump.showsBefore, TreeDump.showsAfter,
          String.empty_append]
        refine ⟨_, ?_, rfl⟩
        exact .append (.append (.append (honly _ (isCommentBlock_blockComments hname _))
          (honly _ (.commented _))) (honly _ (.commented _))) (honly _ (.commented _))

/-- The failure of a routine is that by default, and comments stand in front of its text. -/
theorem decompileOne_shown {r : Routine} (hname : StaysOnLine r.name)
    (showBlocks showGrammar : Bool) (tree : TreeDump) :
    ∃ comments, IsCommentBlock comments ∧
      decompileOne ⟨.source, showBlocks, showGrammar, tree⟩ r =
        (comments ++ (decompileOne .default r).1, (decompileOne .default r).2) := by
  have h := Routine.decompile_behind hname showBlocks showGrammar tree
  unfold decompileOne
  cases hplain : r.decompile .default with
  | error e =>
    rw [hplain] at h
    exact ⟨"", .empty, by simp [h]⟩
  | ok text =>
    rw [hplain] at h
    obtain ⟨comments, hcomments, h⟩ := h
    exact ⟨comments, hcomments, by simp [h]⟩

theorem decompile_eq (options : Options) (listing : String) :
    decompile options listing = (routines listing).map fun rs =>
      ⟨"\n".intercalate (rs.map fun r => (decompileOne options r).1),
        rs.filterMap fun r => (decompileOne options r).2⟩ := by
  rw [decompile]
  cases routines listing with
  | error e => rfl
  | ok rs => simp [bind, Except.bind, Except.map, pure, Except.pure, List.filterMap_map,
      Function.comp_def]

/-- Whatever is shown besides the source, a listing is refused as it is by default, or else the same
routines have no source for the same reasons, and the text of every routine is that by default
behind lines of comments. -/
theorem decompile_shown (showBlocks showGrammar : Bool) (tree : TreeDump) (listing : String) :
    let shown := Options.mk .source showBlocks showGrammar tree
    (∃ e, decompile shown listing = .error e ∧ decompile .default listing = .error e) ∨
      ∃ result plain rs, decompile shown listing = .ok result ∧
        decompile .default listing = .ok plain ∧ routines listing = .ok rs ∧
        result.failures = plain.failures ∧
        result.text = "\n".intercalate (rs.map fun r => (decompileOne shown r).1) ∧
        plain.text = "\n".intercalate (rs.map fun r => (decompileOne .default r).1) ∧
        ∀ r ∈ rs, ∃ comments, IsCommentBlock comments ∧
          (decompileOne shown r).1 = comments ++ (decompileOne .default r).1 := by
  intro shown
  rw [decompile_eq, decompile_eq]
  cases hroutines : routines listing with
  | error e => exact .inl ⟨e, rfl, rfl⟩
  | ok rs =>
    have hone : ∀ r ∈ rs, ∃ comments, IsCommentBlock comments ∧
        decompileOne shown r =
          (comments ++ (decompileOne .default r).1, (decompileOne .default r).2) := fun r hr =>
      decompileOne_shown (.of_noBlank (Listing.name_noBlank hroutines r hr)) _ _ _
    refine .inr ⟨_, _, rs, rfl, rfl, rfl, List.filterMap_congr fun r hr => ?_, rfl, rfl,
      fun r hr => ?_⟩
    · obtain ⟨comments, -, h⟩ := hone r hr
      rw [h]
    · obtain ⟨comments, hcomments, h⟩ := hone r hr
      exact ⟨comments, hcomments, congrArg Prod.fst h⟩

end ElispLift
