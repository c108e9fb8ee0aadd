import Mathlib.Data.List.Basic

/-! A loop that reads its input to the end: each turn gives out some items and leaves a smaller input. -/
namespace TidesdbMysql.Base

variable {S A : Type} (step : S → Option (List A × S))

def consume : Nat → S → List A
  | 0, _ => []
  | turns + 1, s =>
    match step s with
    | none => []
    | some (out, left) => out ++ consume turns left

def Shrinks (size : S → Nat) : Prop := ∀ s out left, step s = some (out, left) → size left < size s

variable {step} {size : S → Nat}

theorem consume_enough (shrinks : Shrinks step size) {turns more : Nat} {s : S} (enough : size s ≤ turns)
    (same : size s ≤ more) : consume step turns s = consume step more s := by
  induction turns generalizing more s with
  | zero =>
    cases more with
    | zero => rfl
    | succ more =>
      rw [consume, consume]
      cases next : step s with
      | none => rfl
      | some read =>
        have less := shrinks s read.1 read.2 next
        omega
  | succ turns ih =>
    rw [consume]
    cases next : step s with
    | none =>
      cases more with
      | zero => rfl
      | succ more => rw [consume, next]
    | some read =>
      have less := shrinks s read.1 read.2 next
      cases more with
      | zero => omega
      | succ more =>
        rw [consume, next]
        exact congrArg (read.1 ++ ·) (ih (by omega) (by omega))

theorem consume_eq (shrinks : Shrinks step size) (s : S) : consume step (size s) s = match step s with
      | none => [] | some (out, left) => out ++ consume step (size left) left := by
  rw [consume_enough shrinks (Nat.le_refl _) (Nat.le_succ _), consume]
  cases next : step s with
  | none => rfl
  | some read =>
    have less := shrinks s read.1 read.2 next
    exact congrArg (read.1 ++ ·) (consume_enough shrinks (Nat.le_of_lt less) (Nat.le_refl _))

theorem consume_induction (shrinks : Shrinks step size) {motive : S → List A → Prop}
    (stop : ∀ s, step s = none → motive s [])
    (turn : ∀ s out left rest, step s = some (out, left) → motive left rest → motive s (out ++ rest)) (s : S) :
    motive s (consume step (size s) s) := by
  induction bound : size s using Nat.strongRecOn generalizing s with
  | ind n ih =>
    subst bound
    rw [consume_eq shrinks]
    cases next : step s with
    | none => exact stop s next
    | some read => exact turn s read.1 read.2 _ next (ih _ (shrinks s read.1 read.2 next) read.2 rfl)

end TidesdbMysql.Base
