import ElispLift.Proofs.Listing.Composition

/-!
# Documentation of several lines

The first line of such documentation gives the number of its characters, and the reader takes lines
until they have as many bytes, the break of the last line counted. So it stops at the first line end
where the bytes are enough, which is the end of the documentation unless a line end before it has
as many bytes in front of it as the whole has characters.
-/

namespace ElispLift

namespace Text

variable {n : Nat} {text front back : List Char}

theorem length_le_byteLength (cs : List Char) : cs.length ≤ byteLength cs := by
  induction cs with
  | nil => exact Nat.le_refl 0
  | cons c cs ih =>
    have hsize := c.utf8Size_pos
    rw [List.length_cons, byteLength]
    omega

theorem byteLength_of_ascii (h : ∀ c ∈ text, c.utf8Size = 1) : byteLength text = text.length := by
  induction text with
  | nil => rfl
  | cons c cs ih =>
    rw [List.forall_mem_cons] at h
    rw [byteLength, ih h.2, h.1, List.length_cons, Nat.add_comm]

theorem unlines_pieces (cs : List Char) : unlines (pieces (· == '\n') cs) = cs ++ ['\n'] := by
  induction cs with
  | nil => rfl
  | cons c cs ih =>
    obtain ⟨q, qs, hq⟩ := List.exists_cons_of_ne_nil (pieces_ne_nil (· == '\n') cs)
    rw [hq, unlines_cons] at ih
    by_cases hc : c = '\n'
    · subst hc
      rw [pieces, hq]
      simp [unlines_cons, ih]
    · have hbreak : (c == '\n') = false := by simpa using hc
      rw [pieces, hq, hbreak, unlines_cons, List.cons_append, ih, List.cons_append]

/-- A line end in front of a line is the last one or one before it. -/
theorem eq_or_prefix_of_break {a l : List Char} (hl : '\n' ∉ l)
    (h : a ++ ['\n'] <+: front ++ '\n' :: l) : a = front ∨ a ++ ['\n'] <+: front := by
  obtain ⟨b, hb⟩ := h
  rw [List.append_assoc, List.singleton_append] at hb
  rcases List.append_eq_append_iff.1 hb with ⟨c, rfl, hc⟩ | ⟨c, rfl, hc⟩
  · cases c with
    | nil => exact .inl (by simp)
    | cons d c =>
      obtain rfl : '\n' = d := (List.cons.inj hc).1
      exact .inr (by simp)
  · cases c with
    | nil => exact .inl (by simp)
    | cons d c =>
      obtain ⟨-, rfl⟩ := List.cons.inj hc
      exact absurd (by simp) hl

/-- The lines at the start of a text that make `n` bytes, with the break of the last one counted,
and the text behind that break. -/
structure Excerpt (n : Nat) (text front back : List Char) : Prop where
  parts : text ++ ['\n'] = front ++ '\n' :: back
  enough : n ≤ byteLength front + 1
  needed : ∀ a, a ++ ['\n'] <+: front → byteLength a + 1 < n

theorem Excerpt.length_le {front' back' : List Char} (h : Excerpt n text front back)
    (h' : Excerpt n text front' back') : front.length ≤ front'.length := by
  refine Nat.le_of_not_lt fun hlt => ?_
  have hprefix : front' ++ ['\n'] <+: front ++ ['\n'] := by
    have hshorter : front' ++ ['\n'] <+: text ++ ['\n'] := ⟨back', by simp [h'.parts]⟩
    exact List.prefix_of_prefix_length_le hshorter ⟨back, by simp [h.parts]⟩ (by simp; omega)
  have hinside : front' ++ ['\n'] <+: front :=
    List.prefix_of_prefix_length_le hprefix (List.prefix_append _ _) (by simp; omega)
  have hneeded := h.needed _ hinside
  have henough := h'.enough
  omega

theorem Excerpt.unique {front' back' : List Char} (h : Excerpt n text front back)
    (h' : Excerpt n text front' back') : front = front' ∧ back = back' := by
  have hlength : front.length = front'.length :=
    Nat.le_antisymm (h.length_le h') (h'.length_le h)
  have hparts := h.parts.symm.trans h'.parts
  have hfront := List.append_inj_left hparts hlength
  subst hfront
  exact ⟨rfl, by simpa using hparts⟩

/-- No line end inside a text has as many bytes in front of it as the text has characters. -/
def Measured (text : List Char) : Prop :=
  ∀ a, a ++ ['\n'] <+: text → byteLength a + 1 < text.length

theorem Excerpt.whole_iff (h : Excerpt text.length text front back) :
    front = text ∧ back = [] ↔ Measured text := by
  constructor
  · rintro ⟨rfl, -⟩
    exact h.needed
  · intro hmeasured
    have hlength := length_le_byteLength text
    exact h.unique ⟨rfl, by omega, hmeasured⟩

/-- In ASCII only a break at the very end is too early. -/
theorem measured_iff_of_ascii (h : ∀ c ∈ text, c.utf8Size = 1) :
    Measured text ↔ text.getLast? ≠ some '\n' := by
  constructor
  · intro hmeasured hlast
    obtain ⟨a, rfl⟩ := List.getLast?_eq_some_iff.1 hlast
    have hshort := hmeasured a (List.prefix_refl _)
    have hlength := length_le_byteLength a
    rw [List.length_append, List.length_singleton] at hshort
    omega
  · rintro hlast a ⟨b, hb⟩
    have ha : byteLength a = a.length :=
      byteLength_of_ascii fun c hc => h c (hb ▸ by simp [hc])
    have hne : b ≠ [] := by
      rintro rfl
      exact hlast (by rw [← hb]; simp)
    have hpos := List.length_pos_iff.2 hne
    rw [ha, ← hb]
    simp
    omega

end Text

namespace Listing

open Text

variable {n k : Nat} {text front : List Char} {ls : List (List Char)} {line : List Char}

/-! ### The routine of a header -/

theorem endsRoutines_of_header? {h : Header} (hheader : header? line = some h) :
    endsRoutines line = true := by
  have hname : ∀ (lead : String) (rest : List Char) {name : String},
      lead.toList = "byte code".toList ++ rest → headerName? lead (trim line) = some name →
        endsRoutines line = true := by
    intro lead rest name hlead hname
    rw [headerName?] at hname
    cases hafter : after? lead.toList (trim line) with
    | none => simp [hafter] at hname
    | some tail =>
      rw [endsRoutines, startsWith, after?_eq_some_iff.1 hafter, hlead, List.append_assoc,
        after?_append, Option.isSome_some]
  rw [header?] at hheader
  split at hheader
  next name hmacro => exact hname _ " for macro ".toList (by decide) hmacro
  next name _ hfunction => exact hname _ " for ".toList (by decide) hfunction
  · split at hheader
    next hfile =>
      rw [endsRoutines, hfile]
      decide
    · cases hheader

namespace State

variable {s : State}

/-- The reader at another line. -/
def atLine (s : State) (n : Nat) : State := { s with line := n }

/-- Open the routine of a header. -/
def opened (s : State) : Header → State
  | .named kind name => s.openNamed kind name
  | .file => s.openFile

theorem exists_frames_opened (s : State) (h : Header) :
    ∃ name kind, (s.opened h).frames = .start name kind none :: s.frames := by
  cases h with
  | named kind name => exact ⟨name, kind, rfl⟩
  | file => exact ⟨_, _, rfl⟩

theorem finished_opened (s : State) (h : Header) : (s.opened h).finished = s.finished := by
  cases h <;> rfl

/-- A header ends the routines before it and opens its own. -/
theorem readLine_of_header? (hs : s.NoDocText) {h : Header} (hheader : header? line = some h) :
    s.readLine line = .ok ((s.closeAll.opened h).atLine (s.line + 1)) := by
  have hends := endsRoutines_of_header? hheader
  obtain ⟨rest, hrest⟩ := Option.isSome_iff_exists.1 hends
  have htrim : trim line = "byte code".toList ++ rest := after?_eq_some_iff.1 hrest
  have hempty : isEmpty line = false := by
    rw [isEmpty, htrim]
    rfl
  have hcomment : isComment line = false := by
    rw [isComment, htrim]
    rfl
  rw [readLine_of_endsRoutines hs hends, readLine_outside s.frames_closeAll, readOutside, hempty,
    hcomment, line_closeAll, hheader]
  cases h <;> rfl

end State

/-! ### Lines of documentation -/

/-- Documentation behind its number of characters. -/
def docStart (indent : List Char) (n : Nat) (text : List Char) : List Char :=
  indent ++ "doc-start ".toList ++ Nat.toDigits 10 n ++ ":  ".toList ++ text

theorem doc?_docStart {indent : List Char} (hindent : ∀ c ∈ indent, isBlank c = true)
    (hn : n ≤ maxSize) (text : List Char) :
    doc? (docStart indent n text) = some (.start n text) := by
  have hstart : trimStart (docStart indent n text) =
      "doc-start ".toList ++ (Nat.toDigits 10 n ++ ':' :: ' ' :: ' ' :: text) := by
    rw [docStart, trimStart, List.append_assoc, List.append_assoc, List.append_assoc,
      List.dropWhile_append_of_pos hindent]
    rfl
  have hdigit : ∀ c ∈ Nat.toDigits 10 n, isBlank c = false ∧ (c == ':') = false := by
    intro c hc
    have hc := isDigit_of_mem_decimal hc
    refine ⟨not_isBlank_of_isDigit hc, ?_⟩
    rw [beq_eq_false_iff_ne]
    rintro rfl
    exact absurd hc (by decide)
  have htrim : trim (Nat.toDigits 10 n) = Nat.toDigits 10 n :=
    trim_eq_self (fun c hc => (hdigit c (List.mem_of_head? hc)).1)
      fun c hc => (hdigit c (List.mem_of_getLast? hc)).1
  have hcut : cut? (· == ':') (Nat.toDigits 10 n ++ ':' :: ' ' :: ' ' :: text) =
      some (Nat.toDigits 10 n, ' ' :: ' ' :: text) :=
    cut?_append_cons (fun c hc => (hdigit c hc).2) (by rfl) _
  have hnone : after? "doc:".toList (trimStart (docStart indent n text)) = none := by
    rw [hstart]
    rfl
  simp only [doc?, hnone, docStart?]
  simp [hstart, hcut, htrim, natUpTo?_toDigits hn, after?]

namespace State

variable {s : State} {f : Frame} {frames : List Frame}

/-- The reader behind the first line of documentation. -/
theorem readLine_docStart (hframes : s.frames = f :: frames) (hphase : f.phase = .docstring)
    (hdoc : doc? line = some (.start n text)) :
    (s.atLine k).readLine line =
      .ok ((s.atLine (k + 1)).setDoc text (docPhase n (byteLength text))) := by
  simp only [readLine, atLine, hframes, hphase, readDocstring, hdoc]

/-- The reader behind a further line of documentation. -/
theorem readLine_docText (hframes : s.frames = f :: frames) (h : byteLength front + 1 < n)
    (line : List Char) :
    ((s.atLine k).setDoc front (docPhase n (byteLength front))).readLine line =
      .ok ((s.atLine (k + 1)).setDoc (front ++ '\n' :: line)
        (docPhase n (byteLength (front ++ '\n' :: line)))) := by
  have hbytes : byteLength (front ++ '\n' :: line) = byteLength front + byteLength line + 1 := by
    rw [byteLength_append, byteLength, Nat.add_assoc, Nat.add_comm ('\n').utf8Size]
    rfl
  have htext : String.ofList front ++ "\n" ++ String.ofList line =
      String.ofList (front ++ '\n' :: line) := by
    apply String.toList_injective
    simp
  have hphase : docPhase n (byteLength front) = .docText n (byteLength front) := if_pos h
  simp only [readLine, atLine, setDoc, update, hframes, hphase, readDocText, Option.getD_some,
    htext, hbytes]

/-- Lines are taken until there are enough of them, and reading goes on behind them. -/
theorem exists_excerpt (hframes : s.frames = f :: frames) (hn : n ≤ byteLength text)
    (hls : ∀ l ∈ ls, IsLine l) (hparts : text ++ ['\n'] = front ++ '\n' :: unlines ls)
    (hneeded : ∀ a, a ++ ['\n'] <+: front → byteLength a + 1 < n) :
    ∃ front' back, Excerpt n text front' back ∧ ∀ rest,
      readLines (lines (unlines ls ++ rest))
          ((s.atLine (k + front.count '\n')).setDoc front (docPhase n (byteLength front))) =
        readLines (lines (back ++ rest))
          ((s.atLine (k + front'.count '\n')).setDoc front' .args) := by
  induction ls generalizing front with
  | nil =>
    obtain rfl : text = front := by simpa [unlines] using hparts
    have hphase : docPhase n (byteLength text) = .args := if_neg (by omega)
    exact ⟨text, [], ⟨rfl, by omega, hneeded⟩, fun rest => by rw [hphase]; rfl⟩
  | cons l ls ih =>
    by_cases hmore : byteLength front + 1 < n
    · rw [List.forall_mem_cons] at hls
      have hcount : (front ++ '\n' :: l).count '\n' = front.count '\n' + 1 := by
        rw [List.count_append, List.count_cons_self, List.count_eq_zero.2 hls.1.noBreak]
      have hstill : ∀ a, a ++ ['\n'] <+: front ++ '\n' :: l → byteLength a + 1 < n := by
        intro a ha
        rcases eq_or_prefix_of_break hls.1.noBreak ha with rfl | ha
        · exact hmore
        · exact hneeded a ha
      obtain ⟨front', back, hexcerpt, hrun⟩ :=
        ih hls.2 (by rw [hparts, unlines_cons, List.append_assoc, List.cons_append]) hstill
      refine ⟨front', back, hexcerpt, fun rest => ?_⟩
      rw [← hrun rest, hcount, unlines_cons, List.append_assoc, List.cons_append,
        hls.1.lines_append, readLines, readLine_docText hframes hmore]
      rfl
    · have hphase : docPhase n (byteLength front) = .args := if_neg hmore
      exact ⟨front, unlines (l :: ls), ⟨hparts, by omega, hneeded⟩, fun rest => by rw [hphase]⟩

/-- The routine behind the first `k` ones of a listing has some documentation, which no line
changes any more. -/
structure Settled (k : Nat) (doc : String) (s : State) : Prop where
  nested : Nested s.frames
  settled : (∃ r, s.finished[k]? = some r ∧ r.docstring = some doc) ∨
    s.finished.length = k ∧
      ∃ f, s.frames.getLast? = some f ∧ f.routine.docstring = some doc ∧ f.phase.Documented

variable {doc : String}

theorem Settled.update {change : Frame → Frame} (hs : s.Settled k doc)
    (hplace : ∀ f, s.frames.head? = some f → (change f).place = f.place)
    (hdocstring : ∀ f, s.frames.head? = some f → f.phase.Documented →
      (change f).routine.docstring = f.routine.docstring ∧ (change f).phase.Documented) :
    (s.update change).Settled k doc := by
  refine ⟨nested_update hs.nested hplace, ?_⟩
  cases hframes : s.frames with
  | nil => simpa [State.update, hframes] using hs.settled
  | cons top rest =>
    simp only [State.update, hframes]
    refine hs.settled.imp_right ?_
    rintro ⟨hcount, g, hlast, hdoc, hphase⟩
    refine ⟨hcount, ?_⟩
    rw [hframes] at hlast
    cases rest with
    | nil =>
      obtain rfl : top = g := by simpa using hlast
      obtain ⟨hsame, hlater⟩ := hdocstring top (by simp [hframes]) hphase
      exact ⟨change top, rfl, hsame.trans hdoc, hlater⟩
    | cons around rest => exact ⟨g, by simpa using hlast, hdoc, hphase⟩

theorem Settled.close (hs : s.Settled k doc) : s.close.Settled k doc := by
  refine ⟨nested_close hs.nested, ?_⟩
  cases hframes : s.frames with
  | nil => simpa [close_of_outside hframes] using hs.settled
  | cons top rest =>
    have hnested := hs.nested
    have hsettled := hs.settled
    rw [hframes] at hnested hsettled
    cases rest with
    | nil =>
      rw [close_of_outer hframes]
      refine .inl ?_
      rcases hsettled with ⟨r, hr, hdoc⟩ | ⟨rfl, f, hf, hdoc, -⟩
      · exact ⟨r, by simpa [List.getElem?_append_left (List.getElem?_eq_some_iff.1 hr).1] using hr,
          hdoc⟩
      · obtain rfl : top = f := by simpa using hf
        exact ⟨top.routine, by simp, hdoc⟩
    | cons around rest =>
      obtain ⟨place, hplace⟩ := Option.isSome_iff_exists.1 hnested.1
      rw [close_of_inner hframes hplace]
      refine hsettled.imp_right ?_
      rintro ⟨hcount, f, hf, hdoc, hphase⟩
      refine ⟨hcount, ?_⟩
      cases rest with
      | nil =>
        obtain rfl : around = f := by simpa using hf
        exact ⟨_, rfl, hdoc, hphase⟩
      | cons outer rest => exact ⟨f, by simpa using hf, hdoc, hphase⟩

theorem settled_setDoc (hframes : s.frames = [f]) (hplace : f.place = none) :
    ((s.atLine k).setDoc text .args).Settled s.finished.length (String.ofList text) := by
  simp only [setDoc, update, atLine, hframes]
  exact ⟨hplace, .inr ⟨rfl, _, rfl, rfl, .args⟩⟩

theorem kept_settled : Kept line (Settled k doc) where
  heading hchange hs := hs.update (fun f hf => (hchange f hf).place)
    fun f hf => (hchange f hf).docstring
  instruction _ hs := hs.update (fun _ _ => rfl) fun _ _ hphase => ⟨rfl, hphase⟩
  constant {s _ place} _ hopen hs := by
    have hpushed : (s.update (·.push place.marker)).Settled k doc :=
      hs.update (fun _ _ => rfl) fun _ _ hphase => ⟨rfl, hphase⟩
    refine ⟨nested_openConstant hs.nested hopen place, hpushed.settled.imp_right ?_⟩
    rintro ⟨hcount, f, hlast, hdoc, hphase⟩
    refine ⟨hcount, f, ?_, hdoc, hphase⟩
    rw [openConstant, List.getLast?_cons, hlast]
    rfl
  named {s kind name} _ hnone hs := by
    refine ⟨by simp [openNamed, hnone, Nested, Frame.start], .inl (hs.settled.resolve_right ?_)⟩
    simp [hnone]
  file {s} hnone hs := by
    refine ⟨by simp [openFile, hnone, Nested, Frame.start], .inl (hs.settled.resolve_right ?_)⟩
    simp [hnone]
  close hs := hs.close

/-- The documentation is that of a routine of the listing in the end. -/
theorem exists_docstring {u : State} {rs : List Routine} (hs : s.Settled k doc)
    (hlines : readLines ls s = .ok u) (hfinish : u.finish = .ok rs) :
    ∃ r, rs[k]? = some r ∧ r.docstring = some doc := by
  have hend := readLines_kept (fun _ _ => kept_settled) (fun _ hs => ⟨hs.nested, hs.settled⟩) hs
    hlines
  have hclosed := (kept_settled : Kept [] (Settled k doc)).closeAll hend
  rw [← finish_eq_ok hfinish]
  refine hclosed.settled.resolve_right ?_
  simp

end State

variable {indent : List Char}

theorem lines_docStart (hindent : ∀ c ∈ indent, isBlank c = true ∧ c ≠ '\n') (n : Nat)
    {first : List Char} (hfirst : IsLine first) (rest : List Char) :
    lines (docStart indent n first ++ '\n' :: rest) = docStart indent n first :: lines rest := by
  have hlast : (indent ++ "doc-start ".toList ++ Nat.toDigits 10 n ++ ":  ".toList).getLast? =
      some ' ' := by
    rw [List.getLast?_append]
    rfl
  refine IsLine.lines_append ⟨?_, fun hreturn => ?_⟩ rest
  · have hbreak : '\n' ∉ indent := fun h => (hindent _ h).2 rfl
    have hdigits : '\n' ∉ Nat.toDigits 10 n :=
      fun h => absurd (isDigit_of_mem_decimal h) (by decide)
    simp [docStart, hbreak, hdigits, hfirst.noBreak]
  · rw [docStart, List.getLast?_append, hlast] at hreturn
    rcases Option.or_eq_some_iff.1 hreturn with h | ⟨-, h⟩
    · exact hfirst.noReturn h
    · exact absurd h (by decide)

/-- Documentation of several lines is read up to the first line end where its bytes are enough, and
reading goes on behind that line end. That is all of it iff no line end before is such a one. -/
theorem readLines_docStart {s : State} {header doc : List Char} {h : Header}
    (hs : s.NoDocText) (hline : IsLine header) (hheader : header? header = some h)
    (hindent : ∀ c ∈ indent, isBlank c = true ∧ c ≠ '\n') (hreturn : '\r' ∉ doc)
    (hsize : doc.length ≤ maxSize) :
    ∃ front back, Excerpt doc.length doc front back ∧
      (front = doc ∧ back = [] ↔ Measured doc) ∧ ∀ rest,
        let s' := (s.closeAll.opened h).atLine (s.line + 2 + front.count '\n')
        readLines (lines (header ++ '\n' :: docStart indent doc.length doc ++ '\n' :: rest)) s =
            readLines (lines (back ++ rest)) (s'.setDoc front .args) ∧
          ∀ u rs, readLines (lines (back ++ rest)) (s'.setDoc front .args) = .ok u →
            u.finish = .ok rs →
              ∃ r, rs[s.closeAll.finished.length]? = some r ∧
                r.docstring = some (String.ofList front) := by
  obtain ⟨first, ls, hpieces⟩ := List.exists_cons_of_ne_nil (pieces_ne_nil (· == '\n') doc)
  have hparts : doc ++ ['\n'] = first ++ '\n' :: unlines ls := by
    rw [← unlines_cons, ← hpieces, unlines_pieces]
  have hall : ∀ l ∈ first :: ls, IsLine l := by
    intro l hl
    rw [← hpieces] at hl
    refine .of_not_mem (fun hc => absurd (eq_false_of_mem_pieces hl _ hc) (by decide)) fun hc => ?_
    have hmem : '\r' ∈ unlines (pieces (· == '\n') doc) :=
      List.mem_flatMap.2 ⟨l, hl, List.mem_append_left _ hc⟩
    rw [unlines_pieces] at hmem
    exact hreturn (by simpa using hmem)
  rw [List.forall_mem_cons] at hall
  have hfirst : ∀ a, a ++ ['\n'] <+: first → byteLength a + 1 < doc.length :=
    fun a ha => absurd (ha.subset (by simp)) hall.1.noBreak
  obtain ⟨name, kind, hframes⟩ := s.closeAll.exists_frames_opened h
  rw [s.frames_closeAll] at hframes
  obtain ⟨front, back, hexcerpt, hrun⟩ :=
    State.exists_excerpt (k := s.line + 2) hframes (length_le_byteLength doc) hall.2 hparts hfirst
  refine ⟨front, back, hexcerpt, hexcerpt.whole_iff, fun rest => ⟨?_, fun u rs hlines hend => ?_⟩⟩
  · have htext : header ++ '\n' :: docStart indent doc.length doc ++ '\n' :: rest =
          header ++ '\n' :: (docStart indent doc.length first ++ '\n' :: (unlines ls ++ rest)) := by
      have hrest : doc ++ '\n' :: rest = first ++ '\n' :: (unlines ls ++ rest) := by
        simpa using congrArg (· ++ rest) hparts
      simp only [docStart, List.append_assoc, List.cons_append, hrest]
    rw [htext, hline.lines_append, lines_docStart hindent _ hall.1, readLines,
      State.readLine_of_header? hs hheader]
    change readLines (_ :: _) ((s.closeAll.opened h).atLine (s.line + 1)) = _
    rw [readLines, State.readLine_docStart hframes rfl
      (doc?_docStart (fun c hc => (hindent c hc).1) hsize first), ← hrun rest,
      List.count_eq_zero.2 hall.1.noBreak]
    rfl
  · rw [← State.finished_opened s.closeAll h]
    exact State.exists_docstring (State.settled_setDoc hframes rfl) hlines hend

/-- Two paragraphs are read whole, and the line behind them may be that of the arguments. -/
theorem readLines_docStart_twoParagraphs :
    Measured "Do it.\n\nTwice.".toList ∧ ∀ rest : List Char,
      readLines (lines ("byte code for f:\n  doc-start 14:  Do it.\n\nTwice.\n".toList ++ rest))
          .start =
        readLines (lines rest)
          ⟨[], [⟨⟨"f", "(?)", some "Do it.\n\nTwice.", none, .function, []⟩, .args, none⟩], 0, 0,
            4⟩ := by
  have hascii : "Do it.\n\nTwice.".toList.all (·.utf8Size == 1) = true := by decide
  have hmeasured : Measured "Do it.\n\nTwice.".toList :=
    (measured_iff_of_ascii fun c hc => eq_of_beq (List.all_eq_true.1 hascii c hc)).2 (by decide)
  refine ⟨hmeasured, fun rest => ?_⟩
  have hblank : isBlank ' ' = true := by decide
  obtain ⟨front, back, -, hwhole, hread⟩ :=
    @readLines_docStart "  ".toList .start "byte code for f:".toList "Do it.\n\nTwice.".toList
      (.named .function "f") (by simp [State.NoDocText, State.start]) ⟨by decide, by decide⟩
      (by decide) (by simp [hblank]) (by decide) (by decide)
  obtain ⟨rfl, rfl⟩ := hwhole.2 hmeasured
  exact (hread rest).1

/-- With a letter of two bytes the last line is left to the listing, and so is the empty line of
documentation that ends in a line break. -/
theorem malformed_docStart :
    (read ("byte code for f:\n  doc-start 5:  é\nb\nc\n" ++
        "  args: nil\n0 constant nil\n1 return\n") matches .error (.malformedLine 4 "c")) = true ∧
      (read ("byte code for f:\n  doc-start 2:  a\n\n" ++
        "  args: nil\n0 constant nil\n1 return\n") matches
          .error (.malformedLine 4 "  args: nil")) = true := by
  decide +kernel

end Listing

end ElispLift
