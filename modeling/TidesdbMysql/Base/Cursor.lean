import Mathlib.Data.List.Perm.Basic

/-! A list that only shrinks, read once through a cursor, and the rule for reading any
state until it has nothing more to give. -/
namespace TidesdbMysql.Base
open List

structure Cursor (α : Type) where
  items : List α
  pos : Nat
  pos_le : pos ≤ items.length
  deriving DecidableEq

namespace Cursor

variable {α : Type}

def start (items : List α) : Cursor α := ⟨items, 0, Nat.zero_le _⟩

def ahead (c : Cursor α) : List α := c.items.drop c.pos

theorem length_ahead (c : Cursor α) : c.ahead.length = c.items.length - c.pos := length_drop

def advance (c : Cursor α) (n : Nat) (fits : n ≤ c.ahead.length) : Cursor α :=
  ⟨c.items, c.pos + n, by
    have bound := c.pos_le
    have length := c.length_ahead
    omega⟩

def eraseAt (c : Cursor α) (i : Fin c.items.length) : Cursor α :=
  ⟨c.items.eraseIdx i, if c.pos > i then c.pos - 1 else c.pos, by
    have bound := c.pos_le
    have inside := i.isLt
    rw [List.length_eraseIdx_of_lt inside]
    split <;> omega⟩

theorem ahead_advance (c : Cursor α) (n : Nat) (fits : n ≤ c.ahead.length) :
    (c.advance n fits).ahead = c.ahead.drop n := by
  simp [advance, ahead, drop_drop]

theorem ahead_eraseAt_before (c : Cursor α) (i : Fin c.items.length) (passed : i < c.pos) :
    (c.eraseAt i).ahead = c.ahead := by
  simp only [eraseAt, ahead, if_pos passed]
  apply ext_getElem?
  intro n
  simp only [getElem?_drop, getElem?_eraseIdx]
  grind

theorem ahead_eraseAt_after (c : Cursor α) (i : Fin c.items.length) (pending : c.pos ≤ i) :
    (c.items.get i :: (c.eraseAt i).ahead).Perm c.ahead := by
  have rest : (c.eraseAt i).ahead = c.ahead.eraseIdx (i - c.pos) := by
    simp only [eraseAt, ahead, if_neg (Nat.not_lt.mpr pending)]
    apply ext_getElem?
    intro n
    simp only [getElem?_drop, getElem?_eraseIdx]
    grind
  have inside : i - c.pos < c.ahead.length := by
    have length := c.length_ahead
    omega
  have item : c.ahead[i - c.pos] = c.items.get i := by
    simp only [ahead, getElem_drop, get_eq_getElem, Nat.add_sub_cancel' pending]
  rw [rest, ← item]
  exact getElem_cons_eraseIdx_perm inside

theorem eraseAt_sublist (c : Cursor α) (i : Fin c.items.length) :
    (c.eraseAt i).items.Sublist c.items := eraseIdx_sublist _ _

end Cursor

section Drain

variable {S A : Type}

/-- Ask for the next item until there is none; `none` when the fuel runs out before. -/
def drain (next : S → Option (A × S)) : Nat → S → Option (List A)
  | 0, _ => none
  | fuel + 1, s =>
    match next s with
    | none => some []
    | some (a, after) => (drain next fuel after).map (a :: ·)

/-- `ahead` accounts for every item: what is left is the item handed out and what is
left after it. -/
def Accounts (next : S → Option (A × S)) (ahead : S → List A) : Prop :=
  ∀ s, match next s with
    | none => ahead s = []
    | some (a, after) => ahead s = a :: ahead after

theorem drain_eq_ahead {next : S → Option (A × S)} {ahead : S → List A} (accounts : Accounts next ahead)
    {fuel : Nat} {s : S} (enough : (ahead s).length < fuel) : drain next fuel s = some (ahead s) := by
  induction fuel generalizing s with
  | zero => cases enough
  | succ fuel ih =>
    have here := accounts s
    rw [drain]
    cases item : next s with
    | none =>
      rw [item] at here
      rw [here]
    | some pair =>
      obtain ⟨a, after⟩ := pair
      rw [item] at here
      dsimp only at here ⊢
      rw [here, length_cons] at enough
      rw [ih (by omega), here]
      rfl

end Drain

end TidesdbMysql.Base
