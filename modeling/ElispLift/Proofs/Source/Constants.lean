import ElispLift.Proofs.Text.Decimals
import ElispLift.Source

/-!
# Constants

A constant of a listing stands for a value, while source is evaluated. So a constant is written with
a quote unless it evaluates to itself, which is decided by how it is read as an operand, by its
first character, and by the notation of numbers.
-/

namespace ElispLift

/-- The truth values, keywords, vectors, characters and strings, known by their first character, and
numbers. -/
def EvaluatesToItself (s : String) : Prop :=
  s = "t" ∨ s = "nil" ∨ (∃ c ∈ [':', '[', '?', '"'], s.toList.head? = some c) ∨
    Text.IsNumber s.toList

variable {s : String} {cs : List Char} {n : Int}

namespace Text

theorem IsInteger.isNumber (h : IsInteger cs n) : IsNumber cs := by
  cases h with
  | plain hds hne => simpa using IsNumber.mk .none (.whole hds hne) .none
  | plus hds hne => simpa using IsNumber.mk .plus (.whole hds hne) .none
  | minus hds hne => simpa using IsNumber.mk .minus (.whole hds hne) .none

end Text

/-- What evaluates to itself does not start with a quote. -/
theorem EvaluatesToItself.head?_ne (h : EvaluatesToItself s) : s.toList.head? ≠ some '\'' := by
  rcases h with rfl | rfl | ⟨c, hc, hhead⟩ | h
  · decide
  · decide
  · rw [hhead]
    exact fun he => absurd (Option.some.inj he ▸ hc) (by decide)
  · obtain ⟨c, hhead, hc⟩ := h.head?
    rw [hhead]
    exact fun he => absurd (Option.some.inj he ▸ hc) (by decide)

/-- What is taken for self-evaluating is so, but for words that are no numbers. -/
theorem isSelfEvaluating_iff : isSelfEvaluating s = true ↔
    EvaluatesToItself s ∨ Text.IsUnbounded s.toList := by
  unfold isSelfEvaluating EvaluatesToItself
  rw [Bool.or_eq_true, Bool.or_eq_true, Bool.or_eq_true, Text.isDecimal_iff, beq_iff_eq,
    beq_iff_eq]
  cases s.toList with
  | nil => simp [or_assoc]
  | cons c cs => simp [or_assoc]

namespace Operand

/-- How a constant is read. -/
theorem ofText_cases (s : String) :
    (∃ n, Text.integer? s.toList = some n ∧ ofText s = .int n) ∨
      (s.toList.head? = some '"' ∧ ofText s = .str s) ∨ ofText s = .symbol s := by
  unfold ofText
  split
  next n c cs hn hs =>
    split
    · exact .inr (.inr rfl)
    · exact .inl ⟨n, hn, rfl⟩
  next cs hn hs => exact .inr (.inl ⟨by rw [hs]; rfl, rfl⟩)
  next => exact .inr (.inr rfl)

end Operand

/-- A constant is written as what it stands for: with a quote if it does not evaluate to itself, as
it is otherwise, and integers of 64 bits as the same integers. -/
structure ConstantText (s text : String) : Prop where
  head?_eq_iff : text.toList.head? = some '\'' ↔ ¬ EvaluatesToItself s
  eq_quote : ¬ EvaluatesToItself s → text = "'" ++ s
  eq_self : EvaluatesToItself s →
    text = s ∨ ∃ n, Text.IsInteger s.toList n ∧ Text.FitsWord n ∧ text = toString n
  isInteger : ∀ n, Text.IsInteger s.toList n → Text.FitsWord n → Text.IsInteger text.toList n

namespace ConstantText

theorem self (h : EvaluatesToItself s) : ConstantText s s where
  head?_eq_iff := ⟨fun hhead => (h.head?_ne hhead).elim, fun hnot => (hnot h).elim⟩
  eq_quote hnot := (hnot h).elim
  eq_self _ := .inl rfl
  isInteger _ hn _ := hn

theorem quote (h : ¬ EvaluatesToItself s) : ConstantText s ("'" ++ s) where
  head?_eq_iff := ⟨fun _ => h, fun _ => by simp⟩
  eq_quote _ := rfl
  eq_self hself := (h hself).elim
  isInteger _ hn _ := (h (.inr (.inr (.inr hn.isNumber)))).elim

/-- An integer is written anew. -/
theorem integer (h : Text.integer? s.toList = some n) : ConstantText s (toString n) := by
  obtain ⟨hn, hfits⟩ := Text.integer?_eq_some_iff.1 h
  have hself : EvaluatesToItself s := .inr (.inr (.inr hn.isNumber))
  have htext : EvaluatesToItself (toString n) :=
    .inr (.inr (.inr (Text.isInteger_toString n).isNumber))
  refine ⟨⟨fun hhead => (htext.head?_ne hhead).elim, fun hnot => (hnot hself).elim⟩,
    fun hnot => (hnot hself).elim, fun _ => .inr ⟨n, hn, hfits, rfl⟩, fun m hm hfits' => ?_⟩
  have hsame := Text.integer?_eq_some_iff.2 ⟨hm, hfits'⟩
  rw [h] at hsame
  exact Option.some.inj hsame ▸ Text.isInteger_toString n

end ConstantText

/-- Outside the places that take quotes away, every constant but the words for what is no number is
written as what it stands for. -/
theorem constantText_of_text (hs : ¬ Text.IsUnbounded s.toList) :
    ConstantText s (constantText false (some (.ofText s))) := by
  obtain ⟨n, hn, hint⟩ | ⟨hhead, hstr⟩ | hsymbol := Operand.ofText_cases s
  · rw [hint]
    exact .integer hn
  · rw [hstr]
    exact .self (.inr (.inr (.inl ⟨'"', by simp, hhead⟩)))
  · rw [hsymbol, constantText, Bool.false_or]
    have hself := isSelfEvaluating_iff.trans (or_iff_left hs)
    split
    next h => exact .self (hself.1 h)
    next h => exact .quote fun hnot => h (hself.2 hnot)

namespace Rendering

/-- Wherever a constant is rendered with its quote, on any page and among any other nodes, it is
written as what it stands for, unless it is a word for what is no number. -/
theorem node_constant (hs : ¬ Text.IsUnbounded s.toList) (levels offset : Nat)
    (label : Option String) {p : Page} (hp : p.unquoted = false) :
    ∃ text, ConstantText s text ∧
      Rendering.node (levels + 1) (.token ⟨.fixed .constant, some (.ofText s), offset, label⟩) p =
        some ((), { p with text := p.text ++ text }) := by
  refine ⟨_, constantText_of_text hs, ?_⟩
  rw [← hp]
  rfl

theorem node_constant_symbol : ¬ Text.IsUnbounded "foo".toList ∧
    (Page.start "").unquoted = false ∧ ∃ text, ConstantText "foo" text ∧
      Rendering.node 1 (.token ⟨.fixed .constant, some (.ofText "foo"), 0, none⟩) (.start "") =
        some ((), { Page.start "" with text := "" ++ text }) :=
  ⟨by decide, rfl, node_constant (by decide) 0 0 none rfl⟩

/-- The symbol `inf` is not a number to Lisp and has a value of its own, but no quote. -/
theorem unquoted_inf : ¬ ConstantText "inf" "inf" ∧
    Rendering.node 1 (.token ⟨.fixed .constant, some (.ofText "inf"), 0, none⟩) (.start "") =
      some ((), { Page.start "" with text := "inf" }) := by
  have hself : ¬ EvaluatesToItself "inf" := by
    rintro (h | h | ⟨c, hc, hhead⟩ | h)
    · exact absurd h (by decide)
    · exact absurd h (by decide)
    · exact absurd (Option.some.inj (show some 'i' = some c from hhead) ▸ hc) (by decide)
    · obtain ⟨c, hhead, hc⟩ := h.head?
      exact absurd (Option.some.inj (show some 'i' = some c from hhead) ▸ hc) (by decide)
  have htext : "" ++ constantText false (some (.ofText "inf")) = "inf" := by decide
  refine ⟨fun h => absurd (h.head?_eq_iff.2 hself) (by decide), ?_⟩
  exact congrArg (fun s => some ((), { Page.start "" with text := s })) htext

end Rendering

end ElispLift
