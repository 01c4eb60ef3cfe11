import ElispLift.Proofs.Listing.Routines
import ElispLift.Proofs.Text.Numbers

/-!
# Names of routines

Routines are named by their header or by a number. What holds of both kinds of names holds of all
routines of a listing, and of the routines in their constants. Names hold no blanks.
-/

namespace ElispLift.Listing

variable {line : List Char} {kind : RoutineKind} {name : String}

theorem headerName?_noBlank {lead : String} (h : headerName? lead line = some name) :
    ∀ c ∈ name.toList, Text.isBlank c = false := by
  rw [headerName?] at h
  obtain ⟨rest, -, h⟩ := Option.bind_eq_some_iff.1 h
  obtain ⟨text, -, h⟩ := Option.bind_eq_some_iff.1 h
  split at h
  · cases h
  next hblank =>
    cases h
    simp only [Bool.or_eq_true, not_or, Bool.not_eq_true, List.any_eq_false] at hblank
    simpa using hblank.2

theorem header?_noBlank (h : header? line = some (.named kind name)) :
    ∀ c ∈ name.toList, Text.isBlank c = false := by
  rw [header?] at h
  split at h
  next hname =>
    cases h
    exact headerName?_noBlank hname
  next hname =>
    cases h
    exact headerName?_noBlank hname
  · split at h <;> cases h

/-- A property of all names persists if headers, numbers of files and numbers of constants have
it. -/
theorem persists_name {p : String → Prop}
    (hnamed : ∀ kind name, header? line = some (.named kind name) → p name)
    (hfile : ∀ n : Nat, p ("anonymous" ++ toString n))
    (hconstant : ∀ n : Nat, p ("compiled-function-" ++ toString n)) :
    Persists line fun r => p r.name where
  named := hnamed _ _
  file := hfile
  constant := hconstant
  heading hname _ _ hr := by rwa [hname]
  push _ hf := hf

/-- What holds of the names in headers and of numbered names holds of the names of all routines. -/
theorem namesMeet_of_routines {p : String → Prop} {listing : String} {rs : List Routine}
    (hnamed : ∀ line kind name, header? line = some (.named kind name) → p name)
    (hfile : ∀ n : Nat, p ("anonymous" ++ toString n))
    (hconstant : ∀ n : Nat, p ("compiled-function-" ++ toString n))
    (h : routines listing = .ok rs) : ∀ r ∈ rs, p r.name :=
  forall_routines (fun line => persists_name (hnamed line) hfile hconstant) h

theorem numbered_noBlank {stem : String} (h : stem.toList.any Text.isBlank = false) (n : Nat) :
    ∀ c ∈ (stem ++ toString n).toList, Text.isBlank c = false := by
  intro c hc
  rw [String.toList_append, List.mem_append] at hc
  rcases hc with hc | hc
  · simpa using List.any_eq_false.1 h c hc
  · exact Text.not_isBlank_of_isDigit (Text.isDigit_of_mem_decimal (n := n) (by simpa using hc))

/-- Names hold no blanks, so they stay on their line wherever they are shown. -/
theorem name_noBlank {listing : String} {rs : List Routine} (h : routines listing = .ok rs) :
    ∀ r ∈ rs, ∀ c ∈ r.name.toList, Text.isBlank c = false :=
  namesMeet_of_routines (fun _ _ _ => header?_noBlank) (numbered_noBlank (by decide))
    (numbered_noBlank (by decide)) h

end ElispLift.Listing
