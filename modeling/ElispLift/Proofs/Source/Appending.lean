import ElispLift.Proofs.Source.Levels

/-!
# What is written stays

Rendering only puts text behind that of the page. What is captured is written on a page of its own
and comes back as a result, and the page goes on where it was.
-/

namespace ElispLift

namespace Rendering

open Node

variable {α β : Type} {render : Node → Rendering Unit} {node : Node}

/-- The rendering leaves the text of the page and may put something behind it. -/
def Appends (x : Rendering α) : Prop :=
  ∀ p a p', x p = some (a, p') → ∃ s, p'.text = p.text ++ s

namespace Appends

theorem bind {x : Rendering α} {f : α → Rendering β} (hx : Appends x)
    (hf : ∀ a, Appends (f a)) : Appends (x >>= f) := by
  intro p b p'' hrun
  obtain ⟨a, p', ha, hb⟩ := exists_of_run_bind hrun
  obtain ⟨s, hs⟩ := hx p a p' ha
  obtain ⟨t, ht⟩ := hf a p' b p'' hb
  exact ⟨s ++ t, by rw [ht, hs, String.append_assoc]⟩

theorem pure (a : α) : Appends (pure a : Rendering α) := by
  intro p b p' hrun
  cases hrun
  exact ⟨"", by simp⟩

theorem get : Appends (get : Rendering Page) := by
  intro p b p' hrun
  cases hrun
  exact ⟨"", by simp⟩

theorem of_modify {f : Page → Page} (h : ∀ p, ∃ s, (f p).text = p.text ++ s) :
    Appends (modify f : Rendering Unit) := by
  intro p a p' hrun
  cases hrun
  exact h p

/-- Changes to the rest of the page. -/
theorem of_same {f : Page → Page} (h : ∀ p, (f p).text = p.text) :
    Appends (modify f : Rendering Unit) := of_modify fun p => ⟨"", by simp [h p]⟩

/-- What is captured leaves no trace on the page. -/
theorem capture {x : Rendering Unit} : Appends (capture x) := by
  intro p s p' hrun
  obtain ⟨outer, p₁, hget, hrun⟩ := exists_of_run_bind hrun
  cases hget
  obtain ⟨_, p₂, hset, hrun⟩ := exists_of_run_bind hrun
  cases hset
  obtain ⟨_, p₃, -, hrun⟩ := exists_of_run_bind hrun
  obtain ⟨inner, p₄, hget, hrun⟩ := exists_of_run_bind hrun
  cases hget
  obtain ⟨_, p₅, hset, hrun⟩ := exists_of_run_bind hrun
  cases hset
  cases hrun
  exact ⟨"", by simp⟩

theorem withUnquoted {x : Rendering α} {unquoted : Bool} (h : Appends x) :
    Appends (withUnquoted unquoted x) :=
  get.bind fun _ => bind (.of_same fun _ => rfl) fun _ => h.bind fun a =>
    bind (.of_same fun _ => rfl) fun _ => .pure a

end Appends

/-! ### Steps -/

section forms

variable (h : ∀ n, Appends (render n))

include h

/-! ### Values and instructions -/

end forms

end Rendering

end ElispLift
