import Mathlib.Data.List.Basic
import Mathlib.Algebra.Ring.Nat
import Mathlib.Order.Lattice

/-! Words joined by a separator that may also occur in them. -/
namespace TidesdbMysql.Base
open List

variable {A : Type}

def joined (sep : List A) (a : List A × List A) : List A := a.1 ++ sep ++ a.2

/-- The second reading of a joined word takes its separator inside the word behind the first
one's. -/
def Straddles (sep : List A) (a b : List A × List A) : Prop :=
  ∃ s, s ≠ [] ∧ b.1 = a.1 ++ s ∧ sep ++ a.2 = s ++ (sep ++ b.2)

theorem straddles_inner {sep u : List A} {a b : List A × List A} (some_sep : sep ≠ [])
    (first : b.1 = a.1 ++ sep ++ u) (second : a.2 = u ++ sep ++ b.2) : Straddles sep a b := by
  refine ⟨sep ++ u, append_ne_nil_of_left_ne_nil some_sep u, ?_, ?_⟩
  · rw [first, append_assoc]
  · rw [second]
    simp only [append_assoc]

theorem joined_of_straddles {sep : List A} {a b : List A × List A} (straddles : Straddles sep a b) :
    joined sep a = joined sep b := by
  obtain ⟨s, -, first, second⟩ := straddles
  rw [joined, joined, first, append_assoc, second]
  simp only [append_assoc]

theorem joined_eq_iff (sep : List A) (a b : List A × List A) :
    joined sep a = joined sep b ↔ a = b ∨ Straddles sep a b ∨ Straddles sep b a := by
  constructor
  · intro same
    simp only [joined, append_assoc] at same
    have later : ∀ {x y : List A × List A} s, y.1 = x.1 ++ s → sep ++ x.2 = s ++ (sep ++ y.2) →
        x = y ∨ Straddles sep x y := by
      intro x y s first second
      cases s with
      | nil =>
        rw [append_nil] at first
        exact .inl (Prod.ext first.symm (append_cancel_left second))
      | cons c s => exact .inr ⟨c :: s, cons_ne_nil c s, first, second⟩
    rcases append_eq_append_iff.mp same with ⟨s, first, second⟩ | ⟨s, first, second⟩
    · exact (later s first second).imp_right .inl
    · exact (later s first second).imp Eq.symm .inr
  · rintro (rfl | straddles | straddles)
    · rfl
    · exact joined_of_straddles straddles
    · exact (joined_of_straddles straddles).symm

end TidesdbMysql.Base
