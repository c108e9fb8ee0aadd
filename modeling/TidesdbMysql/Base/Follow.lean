import Mathlib.Data.Nat.Notation

/-! Following a partial function, and its cycles. -/
namespace TidesdbMysql.Base

variable {A : Type} {next next' : A → Option A} {a b : A} {m n : Nat}

def follow (next : A → Option A) : Nat → A → Option A
  | 0, a => some a
  | n + 1, a => (follow next n a).bind next

theorem follow_add (next : A → Option A) (m n : Nat) (a : A) :
    follow next (m + n) a = (follow next m a).bind (follow next n) := by
  induction n with
  | zero => cases follow next m a <;> rfl
  | succ n ih =>
    rw [← Nat.add_assoc, follow, ih]
    cases follow next m a <;> rfl

/-- A cycle looks the same from each of its members. -/
theorem follow_cycle (cycle : follow next n a = some a) (reached : follow next m a = some b) :
    follow next n b = some b := by
  have there := follow_add next m n a
  have back := follow_add next n m a
  rw [reached] at there
  rw [cycle, Nat.add_comm] at back
  exact (there.symm.trans back).trans reached

theorem follow_on (cycle : follow next n a = some a) (positive : 0 < n) (k : Nat) :
    ∃ b c, follow next k a = some b ∧ next b = some c := by
  have round : ∀ j, follow next (n * j) a = some a := by
    intro j
    induction j with
    | zero => rfl
    | succ j ih =>
      rw [Nat.mul_succ, follow_add, ih]
      exact cycle
  have further : n * (k + 1) = k + 1 + (n * (k + 1) - (k + 1)) := by
    have := Nat.le_mul_of_pos_left (k + 1) positive
    omega
  have whole := round (k + 1)
  rw [further, follow_add, follow] at whole
  cases reached : follow next k a with
  | none => simp [reached] at whole
  | some b =>
    cases on : next b with
    | none => simp [reached, on] at whole
    | some c => exact ⟨b, c, rfl, on⟩

/-- Where the steps that are taken were there before, so was the way. -/
theorem follow_of_follow (old : ∀ k b c, follow next' k a = some b → next' b = some c → next b = some c)
    (reached : follow next' n a = some b) : follow next n a = some b := by
  induction n generalizing b with
  | zero => exact reached
  | succ n ih =>
    rw [follow, Option.bind_eq_some_iff] at reached ⊢
    obtain ⟨c, before, on⟩ := reached
    exact ⟨c, ih before, old n c b before on⟩

end TidesdbMysql.Base
