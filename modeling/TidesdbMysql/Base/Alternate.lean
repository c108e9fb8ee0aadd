import Mathlib.Data.List.Basic

/-! Lists in which two marks take turns. -/
namespace TidesdbMysql.Base
open List

/-- The items are `first`, its opposite, `first` again, and so on. -/
def Alternates : Bool → List Bool → Prop
  | _, [] => True
  | first, x :: rest => x = first ∧ Alternates (!first) rest

instance decidableAlternates : (first : Bool) → (xs : List Bool) → Decidable (Alternates first xs)
  | _, [] => isTrue trivial
  | first, x :: rest =>
    have := decidableAlternates (!first) rest
    inferInstanceAs (Decidable (x = first ∧ Alternates (!first) rest))

def turn : Bool → List Bool → Bool
  | first, [] => first
  | _, x :: rest => turn (!x) rest

theorem alternates_append (first : Bool) (xs ys : List Bool) :
    Alternates first (xs ++ ys) ↔ Alternates first xs ∧ Alternates (turn first xs) ys := by
  induction xs generalizing first with
  | nil => exact (and_iff_right trivial).symm
  | cons x rest ih =>
    simp only [cons_append, Alternates, turn, ih, and_assoc]
    exact and_congr_right fun same => by rw [same]

theorem alternates_replicate (first mark : Bool) (n : Nat) :
    Alternates first (List.replicate n mark) ↔ n ≤ 1 ∧ (n = 1 → mark = first) := by
  match n with
  | 0 | 1 => simp [Alternates]
  | n + 2 =>
    -- the second of two equal marks is out of turn
    have out_of_turn : ¬ (mark = first ∧ mark = !first) := by
      rintro ⟨rfl, twice⟩
      cases mark <;> cases twice
    simp only [replicate_succ, Alternates]
    constructor
    · rintro ⟨same, again, -⟩
      exact absurd ⟨same, again⟩ out_of_turn
    · rintro ⟨short, -⟩
      omega

theorem turn_replicate (first mark : Bool) (n : Nat) :
    turn first (List.replicate n mark) = if n = 0 then first else !mark := by
  induction n generalizing first with
  | zero => rfl
  | succ n ih =>
    rw [replicate_succ, turn, ih]
    simp

end TidesdbMysql.Base
