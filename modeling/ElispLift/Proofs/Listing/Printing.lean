import Mathlib.Data.List.TakeWhile
import ElispLift.Proofs.Listing.Numbering
import ElispLift.Proofs.Text.Blanks

/-!
# Printing listings

A routine is printed as its heading and its instructions, one on a line, with an empty line at its
end. The routine of a constant is printed in place, behind the line of the constant. Each line is
read as what was printed on it.
-/

namespace ElispLift

/-- Where a listing may be written in two ways: an empty argument list as `nil`, and a small count
at the end of the mnemonic. -/
structure Style where
  emptyAsNil : Routine → Bool
  countInMnemonic : Instruction → Bool

namespace Family

/-- The mnemonic with the count as its operand. -/
def mnemonic : Family → String
  | call => "call"
  | f => f.stem ++ "N"

/-- Whether there is a mnemonic that ends in the count. -/
def closes : Family → Nat → Bool
  | list, n => 1 ≤ n && n ≤ 4
  | concat, n => 2 ≤ n && n ≤ 4
  | _, _ => false

end Family

namespace Instruction

/-- Whether the count is written in the mnemonic. -/
def isClosed (style : Style) (i : Instruction) : Bool :=
  match i.kind with
  | .fixed _ => false
  | .counted f n => f.closes n && style.countInMnemonic i

def mnemonic (style : Style) (i : Instruction) : String :=
  match i.kind with
  | .fixed op => op.mnemonic
  | .counted f n => if i.isClosed style then f.stem ++ toString n else f.mnemonic

/-- The offset and behind a colon the label. -/
def placeText (i : Instruction) : List Char :=
  (toString i.offset).toList ++
    match i.label with
    | some label => ':' :: label.toList
    | none => []

/-- What stands in front of the operand. -/
def front (style : Style) (i : Instruction) : List Char :=
  i.placeText ++ ' ' :: (i.mnemonic style).toList

end Instruction

namespace Routine

def headerLine (r : Routine) : List Char :=
  match r.kind with
  | .function => "byte code for ".toList ++ r.name.toList ++ [':']
  | .macroFunction => "byte code for macro ".toList ++ r.name.toList ++ [':']
  | .file => "byte code:".toList

def argsText (style : Style) (r : Routine) : List Char :=
  if r.args = "()" && style.emptyAsNil r then "nil".toList else r.args.toList

/-- The lines of the heading. -/
def heading (style : Style) (r : Routine) : List (List Char) :=
  (r.docstring.map fun doc => "  doc:  ".toList ++ doc.toList).toList ++
    ("  args: ".toList ++ r.argsText style) ::
      (r.interactive.map fun spec => "  interactive: ".toList ++ spec.toList).toList

end Routine

mutual

/-- The lines of a routine behind its header. -/
def Routine.lines (style : Style) : Routine → List (List Char)
  | ⟨name, args, docstring, interactive, kind, instructions⟩ =>
    Routine.heading style ⟨name, args, docstring, interactive, kind, instructions⟩ ++
      linesIn style instructions ++ [[]]

def linesIn (style : Style) : List Instruction → List (List Char)
  | [] => []
  | i :: rest => i.lines style ++ linesIn style rest

def Instruction.lines (style : Style) : Instruction → List (List Char)
  | ⟨kind, none, offset, label⟩ => [Instruction.front style ⟨kind, none, offset, label⟩]
  | ⟨kind, some operand, offset, label⟩ =>
    let front := Instruction.front style ⟨kind, some operand, offset, label⟩
    if Instruction.isClosed style ⟨kind, some operand, offset, label⟩ then [front]
    else operand.lines style front

/-- The line of an operand behind the text in front of it. -/
def Operand.lines (style : Style) (front : List Char) : Operand → List (List Char)
  | .routine r => (front ++ ' ' :: "<compiled-function>".toList) :: r.lines style
  | .int n => [front ++ ' ' :: (toString n).toList]
  | .str text => [front ++ ' ' :: text.toList]
  | .symbol name => [front ++ ' ' :: name.toList]

end

theorem Routine.lines_eq (style : Style) (r : Routine) :
    r.lines style = r.heading style ++ linesIn style r.instructions ++ [[]] := by
  cases r
  rw [lines]

/-- The listing of some routines. -/
def printed (style : Style) (rs : List Routine) : String :=
  String.ofList (Text.unlines (rs.flatMap fun r => r.headerLine :: r.lines style))

mutual

/-- The routine of a constant as it is read back when `n` came before it. Its number is its name. -/
def Routine.constantReadBack (n : Nat) : Routine → Routine
  | ⟨_, args, docstring, interactive, kind, instructions⟩ =>
    ⟨"compiled-function-" ++ toString n, args, docstring, interactive, kind,
      readBackIn (n + 1) instructions⟩

/-- Some instructions as they are read back, with a marker in front of each that carries a label. -/
def readBackIn (n : Nat) : List Instruction → List Instruction
  | [] => []
  | i :: rest =>
    (Listing.Place.mk i.offset i.label).marker ++
      i.readBack n :: readBackIn (n + i.nested.length) rest

def Instruction.readBack (n : Nat) : Instruction → Instruction
  | ⟨kind, none, offset, label⟩ => ⟨kind, none, offset, label⟩
  | ⟨kind, some operand, offset, label⟩ => ⟨kind, some (operand.readBack n), offset, label⟩

def Operand.readBack (n : Nat) : Operand → Operand
  | .routine r => .routine (r.constantReadBack n)
  | .int n => .int n
  | .str text => .str text
  | .symbol name => .symbol name

end

/-- A routine of a listing as it is read back. Code of a file is named by its number. -/
def Routine.readBack (files constants : Nat) (r : Routine) : Routine :=
  { r with
    name := if r.kind = .file then "anonymous" ++ toString files else r.name
    instructions := readBackIn constants r.instructions }

/-- What is read back from the listing of some routines, when there are files and constants before
it. -/
def readBack (files constants : Nat) : List Routine → List Routine
  | [] => []
  | r :: rs =>
    r.readBack files constants ::
      readBack (files + fileCount [r]) (constants + constantCount [r]) rs

/-! ### What can be printed -/

namespace Listing

open Text

/-- Text that is read as itself behind `constant`. -/
structure IsConstantText (cs : List Char) : Prop where
  field : IsField cs
  noEscape : ¬['\\', '?'] <:+: cs
  noRoutine : cs ≠ "<compiled-function>".toList

end Listing

/-- The operands that are read for an operation. Jumps name their label, and other text is read as
the value that it spells. -/
inductive Operand.Suits : OpKind → Option Operand → Prop where
  | none {op : Opcode} (hreal : op.opClass ≠ .pseudo) (hne : op ≠ .constant) :
    Suits (.fixed op) none
  | label {op : Opcode} {name : String} (hjump : op.isJump = true)
      (htext : Text.SingleSpaced name.toList) : Suits (.fixed op) (some (.symbol name))
  | value {op : Opcode} {v : Operand} (hreal : op.opClass ≠ .pseudo) (hne : op ≠ .constant)
      (hjump : op.isJump = false) (htext : Text.SingleSpaced v.toText.toList)
      (hv : Operand.ofText v.toText = v) : Suits (.fixed op) (some v)
  | constant {v : Operand} (htext : Listing.IsConstantText v.toText.toList)
      (hv : Operand.ofText v.toText = v) : Suits (.fixed .constant) (some v)
  | count {f : Family} {n : Nat} (hf : f = .call ∨ f = .list ∨ f = .concat ∨ f = .insert)
      (hn : n ≤ Listing.maxCount) : Suits (.counted f n) (some (.int n))
  | routine {r : Routine} (hr : r.kind = .function) : Suits (.fixed .constant) (some (.routine r))

/-- An instruction that can be printed. -/
structure Instruction.Fits (i : Instruction) : Prop where
  offset_le : i.offset ≤ Text.maxWord
  digits : ∀ label ∈ i.label, label.toList.all Char.isDigit = true
  suits : Operand.Suits i.kind i.operand

/-- A routine that can be printed, apart from its name and the routines in its constants. -/
structure Routine.Fits (r : Routine) : Prop where
  docstring : ∀ doc ∈ r.docstring, Text.IsField doc.toList
  args : ∃ inner, r.args.toList = '(' :: inner ++ [')'] ∧ ')' ∉ inner ∧ '\n' ∉ inner
  interactive : ∀ spec ∈ r.interactive, Text.IsField spec.toList
  instructions : ∀ i ∈ r.instructions, i.Fits

/-- A routine that can be printed. Code of a file is printed without its name. -/
structure Routine.Printable (r : Routine) : Prop where
  fits : ∀ q ∈ r.withNested, q.Fits
  name_ne : r.kind ≠ .file → r.name.toList ≠ []
  name_noBlank : r.kind ≠ .file → r.name.toList.any Text.isBlank = false

namespace Routine.Printable

variable {r : Routine}

theorem noBlank_name (hr : r.Printable) (hkind : r.kind ≠ .file) :
    ∀ c ∈ r.name.toList, Text.isBlank c = false := by
  simpa using hr.name_noBlank hkind

theorem fits_self (hr : r.Printable) : r.Fits := hr.fits r (by simp [withNested_eq])

theorem fits_nested (hr : r.Printable) : ∀ q ∈ nestedIn r.instructions, q.Fits :=
  fun q hq => hr.fits q (by simp [withNested_eq, hq])

end Routine.Printable

namespace Listing

open Text

/-! ### Lines of instructions -/

variable {i : Instruction} {style : Style} {op : Opcode} {line body text : List Char}
  {rest : List (List Char)} {n : Nat} {place : Place}

theorem placeText_ne_nil (i : Instruction) : i.placeText ≠ [] := by
  simp [Instruction.placeText]

theorem mem_placeText (hi : i.Fits) {c : Char} (hc : c ∈ i.placeText) :
    c.isDigit = true ∨ c = ':' := by
  rw [Instruction.placeText, List.mem_append] at hc
  rcases hc with hc | hc
  · exact .inl (isDigit_of_mem_decimal (n := i.offset) (by simpa using hc))
  · cases hlabel : i.label with
    | none => simp [hlabel] at hc
    | some label =>
      rw [hlabel] at hc
      rcases List.mem_cons.1 hc with rfl | hc
      · exact .inr rfl
      · exact .inl (List.all_eq_true.1 (hi.digits label hlabel) c hc)

theorem noBlank_placeText (hi : i.Fits) : ∀ c ∈ i.placeText, isBlank c = false := by
  intro c hc
  rcases mem_placeText hi hc with hc | rfl
  · exact not_isBlank_of_isDigit hc
  · decide

theorem place?_placeText (hi : i.Fits) : place? i.placeText = some ⟨i.offset, i.label⟩ := by
  have hdigits : ∀ c ∈ Nat.toDigits 10 i.offset, (c == ':') = false := by
    intro c hc
    have := isDigit_of_mem_decimal hc
    simp
    rintro rfl
    exact absurd this (by decide)
  rw [place?, Instruction.placeText]
  cases hlabel : i.label with
  | none => simp [cut?_of_uncut hdigits, natUpTo?_toDigits hi.offset_le]
  | some label =>
    simp [cut?_append_cons hdigits, natUpTo?_toDigits hi.offset_le]

/-- The place stands in front of the mnemonic. -/
theorem fields_placeText (hi : i.Fits) (body : List Char) :
    fields (i.placeText ++ ' ' :: body) = (i.placeText, words body) := by
  have hdrop : i.placeText.dropWhile (fun c => c.isDigit || c == ':') = [] :=
    List.dropWhile_eq_nil_iff.2 fun c hc => by simpa using mem_placeText hi hc
  rw [fields, words_append_cons (by decide),
    words_of_noBlank (placeText_ne_nil i) (noBlank_placeText hi)]
  simp only [List.singleton_append, hdrop]

theorem read_placeText (hi : i.Fits) {mnemonic : List Char} (hbody : words body = mnemonic :: rest)
    (n : Nat) : Entry.read (i.placeText ++ ' ' :: body) n =
      entry (i.placeText ++ ' ' :: body) n ⟨i.offset, i.label⟩ mnemonic rest := by
  simp only [Entry.read, fields_placeText hi, hbody, place?_placeText hi]

/-! ### Mnemonics -/

/-- How the mnemonic of an operation is told apart from the others. -/
theorem mnemonic_cases (op : Opcode) : op.mnemonic.toList ≠ [] ∧
    op.mnemonic.toList.any isBlank = false ∧
      (op ≠ .constant → op.mnemonic.toList ≠ "constant".toList ∧
        openFamily? op.mnemonic.toList = none ∧ closedFamily? op.mnemonic.toList = none ∧
          Opcode.ofMnemonic? op.mnemonic = some op) := by
  have hall : ∀ op ∈ Opcode.all, op.mnemonic.toList ≠ [] ∧
      op.mnemonic.toList.any isBlank = false ∧
      (op ≠ .constant → op.mnemonic.toList ≠ "constant".toList ∧
        openFamily? op.mnemonic.toList = none ∧ closedFamily? op.mnemonic.toList = none ∧
          Opcode.ofMnemonic? op.mnemonic = some op) := by
    decide +kernel
  exact hall op op.mem_all

theorem noBlank_mnemonic (op : Opcode) : ∀ c ∈ op.mnemonic.toList, isBlank c = false := by
  simpa using (mnemonic_cases op).2.1

theorem words_mnemonic (op : Opcode) : words op.mnemonic.toList = [op.mnemonic.toList] :=
  words_of_noBlank (mnemonic_cases op).1 (noBlank_mnemonic op)

theorem words_operand (op : Opcode) (text : List Char) :
    words (op.mnemonic.toList ++ ' ' :: text) = op.mnemonic.toList :: words text := by
  rw [words_append_cons (by decide), words_mnemonic, List.singleton_append]

/-- An operation without arguments that are counted, and no constant. -/
theorem entry_mnemonic (hne : op ≠ .constant) :
    entry line n place op.mnemonic.toList rest = .ok (.instruction place (.fixed op)
      (if rest.isEmpty then none
      else if op.isJump then some (.symbol (String.ofList (join [' '] rest)))
      else some (.ofText (String.ofList (join [' '] rest))))) := by
  obtain ⟨hconstant, hopen, hclosed, hop⟩ := (mnemonic_cases op).2.2 hne
  simp only [entry, if_neg hconstant, hopen, hclosed, String.ofList_toList, hop]
  cases rest with
  | nil => rfl
  | cons word rest => cases op.isJump <;> rfl

theorem openFamily?_mnemonic {f : Family}
    (hf : f = .call ∨ f = .list ∨ f = .concat ∨ f = .insert) :
    f.mnemonic.toList ≠ "constant".toList ∧ openFamily? f.mnemonic.toList = some f ∧
      words f.mnemonic.toList = [f.mnemonic.toList] := by
  rcases hf with rfl | rfl | rfl | rfl <;> decide

theorem closedFamily?_mnemonic {f : Family} (hcloses : f.closes n = true) :
    let mnemonic := (f.stem ++ toString n).toList
    mnemonic ≠ "constant".toList ∧ openFamily? mnemonic = none ∧
      closedFamily? mnemonic = some (f, n) ∧ words mnemonic = [mnemonic] := by
  have hle : n ≤ 4 := by
    cases f <;> simp [Family.closes] at hcloses <;> omega
  have hcases : ∀ n ≤ 4, ∀ f ∈ Family.all, f.closes n = true →
      let mnemonic := (f.stem ++ toString n).toList
      mnemonic ≠ "constant".toList ∧ openFamily? mnemonic = none ∧
        closedFamily? mnemonic = some (f, n) ∧ words mnemonic = [mnemonic] := by
    decide +kernel
  exact hcases n hle f (by cases f <;> decide) hcloses

/-! ### Constants -/

theorem unescape_eq_self (h : ¬['\\', '?'] <:+: text) : unescape text = text := by
  fun_induction unescape text with
  | case1 cs ih => exact absurd ⟨[], cs, rfl⟩ h
  | case2 c cs hne ih => rw [ih fun hin => h (hin.trans (List.infix_cons (List.infix_refl cs)))]
  | case3 => rfl

theorem constantText_front (hi : i.Fits) (htext : IsField text) (hescape : ¬['\\', '?'] <:+: text) :
    constantText (i.placeText ++ ' ' :: ("constant".toList ++ ' ' :: text)) = text := by
  have hnot : 'c' ∉ i.placeText ++ [' '] := by
    intro hc
    rcases List.mem_append.1 hc with hc | hc
    · exact absurd (mem_placeText hi hc) (by decide)
    · exact absurd hc (by decide)
  have hsplit : i.placeText ++ ' ' :: ("constant".toList ++ ' ' :: text) =
      i.placeText ++ [' '] ++ 'c' :: "onstant".toList ++ ' ' :: text := by simp
  have hafter : afterFirst? "constant".toList
      (i.placeText ++ ' ' :: ("constant".toList ++ ' ' :: text)) = some (' ' :: text) := by
    rw [hsplit]
    exact afterFirst?_append hnot _
  rw [constantText, hafter, Option.getD_some, trim_cons_of_isBlank (by decide), htext.trimmed,
    unescape_eq_self hescape]

/-- A constant is read from the whole line. -/
theorem read_constant (hi : i.Fits) (htext : IsField text) (hescape : ¬['\\', '?'] <:+: text)
    (n : Nat) :
    Entry.read (i.placeText ++ ' ' :: ("constant".toList ++ ' ' :: text)) n =
      if text = "<compiled-function>".toList then .ok (.routine ⟨i.offset, i.label⟩)
      else .ok (.instruction ⟨i.offset, i.label⟩ (.fixed .constant)
        (some (.ofText (String.ofList text)))) := by
  have hwords : words ("constant".toList ++ ' ' :: text) = "constant".toList :: words text :=
    words_operand .constant text
  rw [read_placeText hi hwords, entry, if_pos rfl, constantText_front hi htext hescape]

/-! ### Instructions -/

/-- What is read from text is printed on one line. -/
theorem lines_of_ofText {v : Operand} (hv : Operand.ofText v.toText = v) (front : List Char) :
    v.lines style front = [front ++ ' ' :: v.toText.toList] := by
  cases v with
  | routine r =>
    have hnested : (Operand.routine r).nested = [] := hv ▸ Operand.nested_ofText _
    simp [Operand.nested, Routine.withNested_eq] at hnested
  | int n => rw [Operand.lines]; rfl
  | str text => rw [Operand.lines]; rfl
  | symbol name => rw [Operand.lines]; rfl

theorem isLine_of_noBlank (h : ∀ c ∈ body, isBlank c = false) : IsLine body :=
  .of_not_mem (fun hmem => absurd (h _ hmem) (by decide)) fun hmem => absurd (h _ hmem) (by decide)

theorem isLine_append_field (h : ∀ c ∈ body, isBlank c = false) (htext : IsLine text) :
    IsLine (body ++ ' ' :: text) := by
  refine .append (fun hmem => absurd (h _ hmem) (by decide))
    (fun hmem => absurd (h _ hmem) (by decide)) ?_
  exact .append (by decide : '\n' ∉ [' ']) (by decide) htext

/-- An instruction stands on one line, unless its operand is a routine, and is read back from it. -/
theorem read_line (style : Style) (hi : i.Fits) (hplain : ∀ r, i.operand ≠ some (.routine r)) :
    ∃ body, i.lines style = [i.placeText ++ ' ' :: body] ∧ IsLine body ∧
      ∀ n, Entry.read (i.placeText ++ ' ' :: body) n =
        .ok (.instruction ⟨i.offset, i.label⟩ i.kind i.operand) := by
  have hsuits := hi.suits
  obtain ⟨kind, operand, offset, label⟩ := i
  cases hsuits with
  | @none op _ hne =>
    refine ⟨op.mnemonic.toList, by simp only [Instruction.lines, Instruction.front,
      Instruction.mnemonic], isLine_of_noBlank (noBlank_mnemonic op), fun n => ?_⟩
    rw [read_placeText hi (words_mnemonic op), entry_mnemonic hne]
    rfl
  | @label op name hjump htext =>
    have hne : op ≠ .constant := by
      rintro rfl
      exact absurd hjump (by decide)
    refine ⟨op.mnemonic.toList ++ ' ' :: name.toList, ?_,
      isLine_append_field (noBlank_mnemonic op) htext.isLine, fun n => ?_⟩
    · simp [Instruction.lines, Instruction.isClosed, Operand.lines, Instruction.front,
        Instruction.mnemonic]
    · rw [read_placeText hi (words_operand op name.toList), entry_mnemonic hne,
        if_neg (by simpa using htext.hasWord), if_pos hjump, htext.joined, String.ofList_toList]
  | @value op v _ hne hjump htext hv =>
    refine ⟨op.mnemonic.toList ++ ' ' :: v.toText.toList, ?_,
      isLine_append_field (noBlank_mnemonic op) htext.isLine, fun n => ?_⟩
    · simp [Instruction.lines, Instruction.isClosed, lines_of_ofText hv, Instruction.front,
        Instruction.mnemonic]
    · rw [read_placeText hi (words_operand op v.toText.toList), entry_mnemonic hne,
        if_neg (by simpa using htext.hasWord), if_neg (by simp [hjump]), htext.joined,
        String.ofList_toList, hv]
  | @constant v htext hv =>
    refine ⟨"constant".toList ++ ' ' :: v.toText.toList, ?_,
      isLine_append_field (noBlank_mnemonic .constant) htext.field.isLine, fun n => ?_⟩
    · simp [Instruction.lines, Instruction.isClosed, lines_of_ofText hv, Instruction.front,
        Instruction.mnemonic, Opcode.mnemonic, Opcode.row]
    · rw [read_constant hi htext.field htext.noEscape, if_neg htext.noRoutine,
        String.ofList_toList, hv]
  | @count f n hf hn =>
    cases hclosed : Instruction.isClosed style ⟨.counted f n, some (.int n), offset, label⟩ with
    | true =>
      have hcloses : f.closes n = true := by
        simp only [Instruction.isClosed, Bool.and_eq_true] at hclosed
        exact hclosed.1
      obtain ⟨hconstant, hopen, hclosed?, hwords⟩ := closedFamily?_mnemonic hcloses
      refine ⟨(f.stem ++ toString n).toList, ?_, ?_, fun k => ?_⟩
      · simp only [Instruction.lines, hclosed, if_true, Instruction.front, Instruction.mnemonic]
      · exact isLine_of_noBlank (noBlank_of_mem_words (hwords ▸ List.mem_singleton_self _))
      · rw [read_placeText hi hwords, entry, if_neg hconstant, hopen, hclosed?]
    | false =>
      obtain ⟨hconstant, hopen, hwords⟩ := openFamily?_mnemonic hf
      have hcount : (n : Int).repr.toList = Nat.toDigits 10 n := by
        change n.repr.toList = _
        simp
      have hdigits : ∀ c ∈ Nat.toDigits 10 n, isBlank c = false := fun c hc =>
        not_isBlank_of_isDigit (isDigit_of_mem_decimal hc)
      have hbody : words (f.mnemonic.toList ++ ' ' :: Nat.toDigits 10 n) =
          f.mnemonic.toList :: [Nat.toDigits 10 n] := by
        rw [words_append_cons (by decide), hwords,
          words_of_noBlank Nat.toDigits_ne_nil hdigits, List.singleton_append]
      refine ⟨f.mnemonic.toList ++ ' ' :: Nat.toDigits 10 n, ?_, ?_, fun k => ?_⟩
      · simp [Instruction.lines, hclosed, Instruction.front, Instruction.mnemonic, Operand.lines,
          hcount]
      · exact isLine_append_field (noBlank_of_mem_words (hwords ▸ List.mem_singleton_self _))
          (isLine_of_noBlank hdigits)
      · rw [read_placeText hi hbody, entry, if_neg hconstant, hopen]
        simp [natUpTo?_toDigits hn]
  | routine hr => exact absurd rfl (hplain _)

/-- The routine of a constant is announced on a line of its own. -/
theorem read_routineLine (style : Style) {r : Routine} (hi : i.Fits)
    (hoperand : i.operand = some (.routine r)) :
    ∃ body, i.lines style = (i.placeText ++ ' ' :: body) :: r.lines style ∧ IsLine body ∧
      i.kind = .fixed .constant ∧ r.kind = .function ∧
      ∀ n, Entry.read (i.placeText ++ ' ' :: body) n = .ok (.routine ⟨i.offset, i.label⟩) := by
  have hsuits := hi.suits
  obtain ⟨kind, operand, offset, label⟩ := i
  obtain rfl : operand = some (.routine r) := hoperand
  have hfield : IsField "<compiled-function>".toList := ⟨by decide, by decide⟩
  cases hsuits with
  | routine hr =>
    refine ⟨"constant".toList ++ ' ' :: "<compiled-function>".toList, ?_,
      isLine_append_field (noBlank_mnemonic .constant) hfield.isLine, rfl, hr, fun n => ?_⟩
    · simp [Instruction.lines, Instruction.isClosed, Operand.lines, Instruction.front,
        Instruction.mnemonic, Opcode.mnemonic, Opcode.row]
    · have hescape : ¬['\\', '?'] <:+: "<compiled-function>".toList := fun h =>
        absurd (h.subset (List.mem_cons_self : '\\' ∈ ['\\', '?'])) (by decide)
      rw [read_constant hi hfield hescape, if_pos rfl]
  | value hreal hne hjump htext hv =>
    have hnested : (Operand.routine r).nested = [] := hv ▸ Operand.nested_ofText _
    simp [Operand.nested, Routine.withNested_eq] at hnested
  | constant htext hv =>
    have hnested : (Operand.routine r).nested = [] := hv ▸ Operand.nested_ofText _
    simp [Operand.nested, Routine.withNested_eq] at hnested

/-- A line that starts with its place is one of a body. -/
theorem placeText_line (i : Instruction) (body : List Char) :
    let line := i.placeText ++ ' ' :: body
    interactive? line = none ∧ endsRoutines line = false ∧ isComment line = false ∧
      isEmpty line = false := by
  obtain ⟨d, ds, hds⟩ := List.exists_cons_of_ne_nil (l := Nat.toDigits 10 i.offset)
    Nat.toDigits_ne_nil
  have hdigit : d.isDigit = true := isDigit_of_mem_decimal (n := i.offset) (by simp [hds])
  obtain ⟨rest, hrest⟩ : ∃ rest, i.placeText ++ ' ' :: body = d :: rest := by
    simp [Instruction.placeText, hds]
  have hstart : trimStart (d :: rest) = d :: rest :=
    trimStart_eq_self (not_isBlank_of_isDigit hdigit)
  have htrim : trim (d :: rest) = d :: trimEnd rest := by
    rw [trim, hstart]
    exact trimEnd_append (a := [d]) (by simpa using not_isBlank_of_isDigit hdigit) rest
  have hne : ∀ c : Char, c.isDigit = false → c ≠ d := by
    rintro c hc rfl
    rw [hdigit] at hc
    cases hc
  simp only [hrest]
  refine ⟨?_, ?_, ?_, ?_⟩
  · rw [interactive?, hstart]
    simp [after?, hne 'i' (by decide)]
  · rw [endsRoutines, htrim]
    simp [startsWith, after?, hne 'b' (by decide)]
  · rw [isComment, htrim]
    simp [startsWith, after?, hne '#' (by decide)]
  · rw [isEmpty, htrim]
    rfl

/-! ### Headings -/

variable {r : Routine}

theorem headerName?_append (lead : String) {name : List Char} (hne : name ≠ [])
    (h : ∀ c ∈ name, isBlank c = false) :
    headerName? lead (lead.toList ++ (name ++ [':'])) = some (String.ofList name) := by
  simpa [headerName?, hne] using h

/-- The lines that open like a header and end in a colon have no blanks around them. -/
theorem trim_headerLine (r : Routine) : trim r.headerLine = r.headerLine := by
  have hb : isBlank 'b' = false := by decide
  have hcolon : isBlank ':' = false := by decide
  cases hkind : r.kind with
  | function =>
    simp only [Routine.headerLine, hkind]
    exact trim_cons_append hb hcolon ("yte code for ".toList ++ r.name.toList)
  | macroFunction =>
    simp only [Routine.headerLine, hkind]
    exact trim_cons_append hb hcolon ("yte code for macro ".toList ++ r.name.toList)
  | file =>
    simp only [Routine.headerLine, hkind]
    exact trim_cons_append hb hcolon "yte code".toList

theorem header?_named (hr : r.Printable) (hkind : r.kind ≠ .file) :
    header? r.headerLine = some (.named r.kind r.name) := by
  have hne := hr.name_ne hkind
  have h := hr.noBlank_name hkind
  rw [header?, trim_headerLine]
  cases hcase : r.kind with
  | file => exact absurd hcase hkind
  | macroFunction =>
    have hline : r.headerLine = "byte code for macro ".toList ++ (r.name.toList ++ [':']) := by
      simp only [Routine.headerLine, hcase, List.append_assoc]
    simp only [hline, headerName?_append "byte code for macro " hne h, String.ofList_toList]
  | function =>
    have hline : r.headerLine = "byte code for ".toList ++ (r.name.toList ++ [':']) := by
      simp only [Routine.headerLine, hcase, List.append_assoc]
    -- A name does not open like the word of macros, because that ends in a blank.
    have hmacro : headerName? "byte code for macro "
        ("byte code for ".toList ++ (r.name.toList ++ [':'])) = none := by
      rw [headerName?]
      cases hafter : after? "byte code for macro ".toList
          ("byte code for ".toList ++ (r.name.toList ++ [':'])) with
      | none => rfl
      | some rest =>
        have hlead : "byte code for macro ".toList =
            "byte code for ".toList ++ "macro ".toList := by decide
        have heq := after?_eq_some_iff.1 hafter
        rw [hlead, List.append_assoc] at heq
        have hmem : ' ' ∈ r.name.toList ++ [':'] := by
          rw [List.append_cancel_left heq]
          simp
        have hblank := h ' ' (by simpa using hmem)
        exact absurd hblank (by decide)
    simp only [hline, hmacro, headerName?_append "byte code for " hne h, String.ofList_toList]

theorem header?_file (hkind : r.kind = .file) : header? r.headerLine = some .file := by
  simp only [Routine.headerLine, hkind]
  decide

/-- The lines of headings are indented. -/
theorem trimStart_indented {c : Char} (hc : isBlank c = false) (cs : List Char) :
    trimStart (' ' :: ' ' :: c :: cs) = c :: cs := by
  rw [trimStart_cons_of_isBlank (by decide), trimStart_cons_of_isBlank (by decide),
    trimStart_eq_self hc]

theorem doc?_line (h : IsField text) : doc? ("  doc:  ".toList ++ text) = some (.line text) := by
  have hstart : trimStart ("  doc:  ".toList ++ text) = "doc:".toList ++ (' ' :: ' ' :: text) :=
    trimStart_indented (by decide) _
  simp only [doc?, hstart, after?_append, trim_cons_of_isBlank (by decide : isBlank ' ' = true),
    h.trimmed]

theorem interactive?_line (h : IsField text) :
    interactive? ("  interactive: ".toList ++ text) = some (String.ofList text) := by
  have hstart : trimStart ("  interactive: ".toList ++ text) =
      "interactive:".toList ++ (' ' :: text) := trimStart_indented (by decide) _
  simp only [interactive?, hstart, after?_append, Option.map_some,
    trim_cons_of_isBlank (by decide : isBlank ' ' = true), h.trimmed]

theorem trimStart_argsLine (text : List Char) :
    trimStart ("  args: ".toList ++ text) = "args:".toList ++ (' ' :: text) :=
  trimStart_indented (by decide) _

theorem doc?_argsLine (text : List Char) : doc? ("  args: ".toList ++ text) = none := by
  rw [doc?, docStart?, trimStart_argsLine]
  simp [after?]

theorem args?_line (style : Style) (hr : r.Fits) :
    args? ("  args: ".toList ++ r.argsText style) = some r.args := by
  obtain ⟨inner, hargs, hclosing, -⟩ := hr.args
  rw [args?, trimStart_argsLine]
  simp only [after?_append, Option.bind_eq_bind, Option.bind_some,
    trim_cons_of_isBlank (by decide : isBlank ' ' = true)]
  rw [Routine.argsText]
  split
  next hnil =>
    have hempty : r.args = "()" := by
      simp only [Bool.and_eq_true, decide_eq_true_eq] at hnil
      exact hnil.1
    rw [hempty]
    decide
  · have htrim : trim r.args.toList = r.args.toList := by
      rw [hargs]
      exact trim_cons_append (by decide) (by decide) inner
    have hcut : cut? (· == ')') r.args.toList = some ('(' :: inner, []) := by
      rw [hargs]
      exact cut?_append_cons (by
        intro c hc
        rcases List.mem_cons.1 hc with rfl | hc
        · rfl
        · simpa using fun he : c = ')' => hclosing (he ▸ hc)) (by decide) []
    have hopen : startsWith ['('] r.args.toList = true := by
      rw [hargs]
      rfl
    have hne : r.args.toList ≠ "nil".toList := by
      rw [hargs]
      simp
    simp only [htrim, if_neg hne, hopen, if_true, hcut]
    rw [← hargs, String.ofList_toList]
    rfl

end Listing

end ElispLift
