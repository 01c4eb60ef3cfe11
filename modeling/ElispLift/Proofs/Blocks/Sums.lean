import Mathlib.Algebra.Group.Nat.Defs
import ElispLift.Blocks.Segmentation
import ElispLift.Context

/-!
# Stack heights in 32 bits

Heights are sums of effects. Added up in 32 bits with a sign, they are the same as long as the
instructions take and leave fewer than 2³¹ values altogether.
-/

namespace ElispLift

/-- A sum in 32 bits with a sign. -/
def add32 (a b : Int) : Int := (a + b).bmod (2 ^ 32)

theorem add32_eq {a b : Int} (h : (a + b).natAbs < 2 ^ 31) : add32 a b = a + b :=
  Int.bmod_eq_of_le (by omega) (by omega)

namespace Effect

/-- The values taken and left on either way on. -/
def moved : Effect → Nat
  | fixed pops pushes => pops + pushes
  | branch (pops, pushes) (pops', pushes') => pops + pushes + (pops' + pushes')

theorem natAbs_net_le (e : Effect) : e.net.natAbs ≤ e.moved := by
  rcases e with ⟨pops, pushes⟩ | ⟨⟨pops, pushes⟩, pops', pushes'⟩ <;>
    simp only [net, moved] <;> omega

theorem natAbs_netTaken_le {e : Effect} {taken : Int} (h : e.netTaken? = some taken) :
    taken.natAbs ≤ e.moved := by
  rcases e with ⟨pops, pushes⟩ | ⟨⟨pops, pushes⟩, pops', pushes'⟩
  · cases h
  · obtain rfl := Option.some.inj h
    simp only [moved]
    omega

end Effect

/-- The values that instructions take and leave. -/
def Instruction.moved : List Instruction → Nat
  | [] => 0
  | i :: is => i.effect.moved + moved is

theorem Instruction.foldl_add32 {is : List Instruction} {height : Int}
    (h : height.natAbs + moved is < 2 ^ 31) :
    is.foldl (fun sum i => add32 sum i.effect.net) height = height + net is := by
  induction is generalizing height with
  | nil => simp [net]
  | cons i is ih =>
    have hi := i.effect.natAbs_net_le
    rw [moved] at h
    rw [List.foldl_cons, add32_eq (by omega), ih (by omega), net, Int.add_assoc]

/-- The height over a span is the same in 32 bits. -/
theorem Context.net_eq_foldl_add32 {c : Context} {first last : Nat}
    (h : Instruction.moved (c.tokens.extract first last).toList < 2 ^ 31) :
    c.net first last =
      (c.tokens.extract first last).toList.foldl (fun sum i => add32 sum i.effect.net) 0 := by
  rw [Instruction.foldl_add32 (by simpa using h), Int.zero_add, net]

namespace BlockEffect

/-- The effect of a block with heights in 32 bits. -/
def replay32 (height : Int) : List Instruction → BlockEffect
  | [] => single height
  | i :: is =>
    match i.effect.netTaken? with
    | some taken => pair (add32 height i.effect.net) (add32 height taken)
    | none => replay32 (add32 height i.effect.net) is

/-- The effect of a block is the same in 32 bits. -/
theorem replay32_eq_replay {is : List Instruction} {height : Int}
    (h : height.natAbs + Instruction.moved is < 2 ^ 31) :
      replay32 height is = replay height is := by
  induction is generalizing height with
  | nil => rfl
  | cons i is ih =>
    have hi := i.effect.natAbs_net_le
    rw [Instruction.moved] at h
    rw [replay32, replay, add32_eq (by omega)]
    cases htaken : i.effect.netTaken? with
    | none => exact ih (by omega)
    | some taken =>
      have := Effect.natAbs_netTaken_le htaken
      simp [add32_eq (a := height) (b := taken) (by omega)]

end BlockEffect

end ElispLift
