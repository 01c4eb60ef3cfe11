/-!
# Cutting text into pieces

Text is cut at every character of a class, and lines are the pieces between line feeds.
Joining the pieces again with a separator of that class gives the text back.
-/

namespace ElispLift.Text

/-- Cut before and after every character that satisfies `p`; there is always at least one piece. -/
def pieces (p : Char → Bool) : List Char → List (List Char)
  | [] => [[]]
  | c :: cs =>
    match p c, pieces p cs with
    | true, ps => [] :: ps
    | false, [] => [[c]]
    | false, q :: ps => (c :: q) :: ps

theorem pieces_ne_nil (p : Char → Bool) (cs : List Char) : pieces p cs ≠ [] := by
  cases cs with
  | nil => simp [pieces]
  | cons c cs =>
    rw [pieces]
    split <;> simp

/-- The text before and after the first character that satisfies `p`, if there is one. -/
def cut? (p : Char → Bool) : List Char → Option (List Char × List Char)
  | [] => none
  | c :: cs => if p c then some ([], cs) else (cut? p cs).map fun (l, r) => (c :: l, r)

/-- What follows the leading text `lead`, if the text starts with it. -/
def after? : (lead text : List Char) → Option (List Char)
  | [], cs => some cs
  | _ :: _, [] => none
  | a :: as, c :: cs => if a = c then after? as cs else none

@[simp] theorem after?_append (lead rest : List Char) : after? lead (lead ++ rest) = some rest := by
  induction lead with
  | nil => rfl
  | cons a as ih => simpa [after?] using ih

theorem after?_eq_some_iff {lead text rest : List Char} :
    after? lead text = some rest ↔ text = lead ++ rest := by
  refine ⟨fun h => ?_, fun h => h ▸ after?_append lead rest⟩
  induction lead generalizing text with
  | nil => simpa [after?] using h
  | cons a as ih =>
    cases text with
    | nil => simp [after?] at h
    | cons c cs =>
      by_cases hac : a = c
      · subst hac
        simp [after?] at h
        simp [ih h]
      · simp [after?, hac] at h

/-- Whether the text starts with `lead`. -/
def startsWith (lead text : List Char) : Bool := (after? lead text).isSome

/-- What precedes the closing text `tail`, if the text ends with it. -/
def before? (tail text : List Char) : Option (List Char) :=
  (after? tail.reverse text.reverse).map List.reverse

@[simp] theorem before?_append (front tail : List Char) :
    before? tail (front ++ tail) = some front := by
  simp [before?, List.reverse_append]

/-- What follows the first occurrence of `needle`, if there is one. -/
def afterFirst? (needle : List Char) : List Char → Option (List Char)
  | [] => after? needle []
  | c :: cs => (after? needle (c :: cs)).or (afterFirst? needle cs)

/-- A carriage return at the very end of a line belongs to the line break. -/
def dropReturn (cs : List Char) : List Char := (before? ['\r'] cs).getD cs

def linesOfPieces : List (List Char) → List (List Char)
  | [] => []
  | [last] => if last.isEmpty then [] else [last]
  | l :: rest => dropReturn l :: linesOfPieces rest

/-- Lines end at a line feed, with a carriage return before it left out. The text after the last
line feed is a line only if it is not empty, and it keeps a carriage return. -/
def lines (cs : List Char) : List (List Char) := linesOfPieces (pieces (· == '\n') cs)

/-- Put `sep` between the pieces. -/
def join (sep : List Char) : List (List Char) → List Char
  | [] => []
  | [p] => p
  | p :: ps => p ++ sep ++ join sep ps

end ElispLift.Text

namespace String

/-- The lines of a text, see `ElispLift.Text.lines`. -/
def textLines (s : String) : List String := (ElispLift.Text.lines s.toList).map String.ofList

end String
