import Mathlib.Data.Int.ModEq
import TidesdbMysql.Base.Cell

/-! The counter of the share under `get_auto_increment` and the update `write_row` makes for the
value it stores, in every interleaving of sessions. -/
namespace TidesdbMysql

open Base (Cell CellEvent Chain stores)
open List

/-- A call of `get_auto_increment`. -/
structure Reservation where
  offset : Nat
  increment : Nat
  nbDesiredValues : Nat
  offset_pos : 1 ≤ offset
  increment_pos : 1 ≤ increment
  deriving DecidableEq

/- What the call answers when its loop read `cur`: first value, number of values. -/
def Reservation.answer (q : Reservation) (cur : Nat) : Nat × Nat := ((cur + 1) % 2 ^ 64, q.nbDesiredValues)

inductive CounterOp where
  | getAutoIncrement (q : Reservation)
  | keepAhead (val : Nat)
  deriving DecidableEq

def counterNext : CounterOp → Nat → Option Nat
  | .getAutoIncrement q, cur => some ((cur + q.nbDesiredValues) % 2 ^ 64)
  | .keepAhead val, cur => if val > cur then some val else none

/- The server takes the first value from the answer on that is the offset modulo the increment. -/
def roundUp (offset increment first : Nat) : Nat := first + (offset + (increment - 1) * first) % increment

def Reservation.assigned (q : Reservation) (cur : Nat) : List Nat :=
  (List.range (q.answer cur).2).map fun i => roundUp q.offset q.increment (q.answer cur).1 + i * q.increment

def reservations (done : List (CounterOp × Nat)) : List (Reservation × Nat) :=
  done.filterMap fun store =>
    match store with
    | (.getAutoIncrement q, cur) => some (q, cur)
    | (.keepAhead _, _) => none

section
variable (q : Reservation) (start offset increment first : Nat) (rs : List (Reservation × Nat))

def NeverShared : Prop :=
  rs.Pairwise fun a b => ∀ x ∈ a.1.assigned a.2, x ∉ b.1.assigned b.2
  deriving Decidable

def HasRoom : Prop := ∀ r ∈ rs, r.2 + r.1.nbDesiredValues < 2 ^ 64
  deriving Decidable

theorem mem_assigned {q : Reservation} {cur x : Nat} (room : cur + q.nbDesiredValues < 2 ^ 64) :
    x ∈ q.assigned cur ↔ ∃ i < q.nbDesiredValues, roundUp q.offset q.increment (cur + 1) + i * q.increment = x := by
  simp only [Reservation.assigned, Reservation.answer, mem_map, mem_range]
  refine exists_congr fun i => and_congr_right fun less => ?_
  rw [Nat.mod_eq_of_lt (by omega)]

theorem le_roundUp : first ≤ roundUp offset increment first := Nat.le_add_right _ _

theorem roundUp_lt {increment : Nat} (positive : 1 ≤ increment) : roundUp offset increment first < first + increment :=
  Nat.add_lt_add_left (Nat.mod_lt _ positive) first

theorem roundUp_modEq {offset increment first : Nat} (positive : 1 ≤ increment) :
    roundUp offset increment first ≡ offset [MOD increment] := by
  have whole : first + (offset + (increment - 1) * first) = offset + increment * first := by
    obtain ⟨k, rfl⟩ := Nat.exists_eq_add_of_le' positive
    rw [Nat.add_sub_cancel, Nat.add_mul]
    omega
  have reduced : roundUp offset increment first ≡ first + (offset + (increment - 1) * first) [MOD increment] :=
    (Nat.mod_modEq _ _).add_left first
  rw [whole] at reduced
  exact reduced.trans (by simp [Nat.ModEq])

theorem assigned_between {q : Reservation} {cur x : Nat} (by_one : q.nbDesiredValues = 0 ∨ q.increment = 1)
    (room : cur + q.nbDesiredValues < 2 ^ 64) (taken : x ∈ q.assigned cur) : cur < x ∧ x ≤ cur + q.nbDesiredValues := by
  obtain ⟨i, less, rfl⟩ := (mem_assigned room).mp taken
  rcases by_one with none_wanted | one
  · omega
  · simp only [one, roundUp, Nat.mod_one]
    omega

theorem chain_spread {v w : Nat} {done : List (CounterOp × Nat)} (chain : Chain counterNext v done w)
    (by_one : ∀ r ∈ reservations done, r.1.nbDesiredValues = 0 ∨ r.1.increment = 1) (room : HasRoom (reservations done)) :
    (∀ r ∈ reservations done, ∀ x ∈ r.1.assigned r.2, v < x) ∧ NeverShared (reservations done) := by
  induction chain with
  | nil v => exact ⟨by simp [reservations], List.Pairwise.nil⟩
  | @cons op v v' w rest moved tail ih =>
    cases op with
    | keepAhead val =>
      have grown : v < v' := by
        simp only [counterNext] at moved
        split at moved
        · rename_i ahead
          cases moved
          exact ahead
        · cases moved
      obtain ⟨above, apart⟩ := ih by_one room
      exact ⟨fun r mem x taken => lt_trans grown (above r mem x taken), apart⟩
    | getAutoIncrement q =>
      have parts : reservations ((.getAutoIncrement q, v) :: rest) = (q, v) :: reservations rest := rfl
      rw [parts] at by_one room ⊢
      rw [forall_mem_cons] at by_one
      rw [HasRoom, forall_mem_cons] at room
      have after : v' = v + q.nbDesiredValues := by
        rw [← Option.some.inj moved, Nat.mod_eq_of_lt room.1]
      have between := fun x taken => assigned_between (x := x) by_one.1 room.1 taken
      obtain ⟨above, apart⟩ := ih by_one.2 room.2
      refine ⟨forall_mem_cons.mpr ⟨fun x taken => (between x taken).1, fun r mem x taken => ?_⟩,
        List.Pairwise.cons (fun r mem x taken taken_later => ?_) apart⟩
      · have later := above r mem x taken
        omega
      · have below : x ≤ v + q.nbDesiredValues := (between x taken).2
        have later := above r mem x taken_later
        omega

theorem shared_value (wanted : 1 ≤ q.nbDesiredValues) (steps : 2 ≤ q.increment)
    (room : q.offset % q.increment + 2 * q.nbDesiredValues < 2 ^ 64) :
    ∃ x ∈ q.assigned (q.offset % q.increment), x ∈ q.assigned (q.offset % q.increment + q.nbDesiredValues) := by
  generalize start : q.offset % q.increment = c at room ⊢
  generalize second : roundUp q.offset q.increment (c + q.nbDesiredValues + 1) = x
  have residue : ∀ {y first}, roundUp q.offset q.increment first = y → c ≤ y → ∃ k, y = c + k * q.increment := by
    rintro y first rfl below
    have same : c ≡ roundUp q.offset q.increment first [MOD q.increment] := by
      rw [← start]
      exact (Nat.mod_modEq _ _).trans (roundUp_modEq q.increment_pos).symm
    obtain ⟨k, gap⟩ := (Nat.modEq_iff_dvd' below).mp same
    exact ⟨k, by rw [mul_comm, ← gap, Nat.add_sub_cancel' below]⟩
  have x_low := le_roundUp q.offset q.increment (c + q.nbDesiredValues + 1)
  have x_high := roundUp_lt q.offset (c + q.nbDesiredValues + 1) q.increment_pos
  have f_low := le_roundUp q.offset q.increment (c + 1)
  have f_high := roundUp_lt q.offset (c + 1) q.increment_pos
  rw [second] at x_low x_high
  obtain ⟨k, x_at⟩ := residue second (by omega)
  obtain ⟨j, f_at⟩ := residue rfl (show c ≤ roundUp q.offset q.increment (c + 1) by omega)
  have j_one : j = 1 := by
    match j with
    | 0 => omega
    | 1 => rfl
    | j + 2 =>
      rw [Nat.add_mul] at f_at
      omega
  have k_low : 1 ≤ k := by
    rcases Nat.eq_zero_or_pos k with rfl | positive
    · omega
    · exact positive
  have k_high : k ≤ q.nbDesiredValues := by
    by_contra far
    obtain ⟨d, rfl⟩ := Nat.exists_eq_add_of_lt (not_le.mp far)
    have twice : q.nbDesiredValues * 2 ≤ q.nbDesiredValues * q.increment := Nat.mul_le_mul_left _ steps
    rw [Nat.add_mul, Nat.add_mul] at x_at
    omega
  have in_first : x ∈ q.assigned c := by
    refine (mem_assigned (by omega)).mpr ⟨k - 1, by omega, ?_⟩
    rw [f_at, j_one, x_at]
    obtain ⟨k, rfl⟩ := Nat.exists_eq_add_of_le' k_low
    rw [Nat.add_sub_cancel, Nat.add_mul]
    omega
  have in_second : x ∈ q.assigned (c + q.nbDesiredValues) := by
    refine (mem_assigned (by omega)).mpr ⟨0, wanted, ?_⟩
    rw [second, Nat.zero_mul, Nat.add_zero]
  exact ⟨x, in_first, in_second⟩

def twoCalls : List (CellEvent Nat CounterOp) :=
  [.call 0 (.getAutoIncrement q), .attempt 0 false, .call 1 (.getAutoIncrement q), .attempt 1 false]

theorem reservations_twoCalls : reservations (stores counterNext (Cell.idle Nat CounterOp start) (twoCalls q)) =
      [(q, start), (q, (start + q.nbDesiredValues) % 2 ^ 64)] := by
  simp [stores, Base.results, Base.cellStep, Cell.idle, twoCalls, counterNext, reduceOption, reservations]

end

theorem called_twoCalls {q q' : Reservation} {s : Nat}
    (called : CellEvent.call s (.getAutoIncrement q') ∈ twoCalls q) : q' = q := by
  simp only [twoCalls, mem_cons, CellEvent.call.injEq, CounterOp.getAutoIncrement.injEq, reduceCtorEq,
    not_mem_nil, or_false, false_or] at called
  rcases called with ⟨-, same⟩ | ⟨-, same⟩ <;> exact same

/-- No interleaving of any sessions and explicit values shares a value, while there is room, just
when no increment is above one. -/
theorem reservations_disjoint_iff (allowed : Reservation → Prop)
    (fits : ∀ q, allowed q → q.offset % q.increment + 2 * q.nbDesiredValues < 2 ^ 64) :
    (∀ (start : Nat) (events : List (CellEvent Nat CounterOp)),
      (∀ s q, CellEvent.call s (.getAutoIncrement q) ∈ events → allowed q) →
      HasRoom (reservations (stores counterNext (Cell.idle Nat CounterOp start) events)) →
      NeverShared (reservations (stores counterNext (Cell.idle Nat CounterOp start) events))) ↔
    ∀ q, allowed q → q.nbDesiredValues = 0 ∨ q.increment = 1 := by
  constructor
  · intro never q given
    by_contra stepping
    rw [not_or] at stepping
    have positive := q.increment_pos
    have room := fits q given
    have both := never (q.offset % q.increment) (twoCalls q)
    have parts := reservations_twoCalls q (q.offset % q.increment)
    rw [Nat.mod_eq_of_lt (show q.offset % q.increment + q.nbDesiredValues < 2 ^ 64 by omega)] at parts
    rw [parts] at both
    obtain ⟨x, in_first, in_second⟩ := shared_value q (by omega) (by omega) room
    refine rel_of_pairwise_cons (both ?_ ?_) (mem_singleton.mpr rfl) x in_first in_second
    · intro s q' called
      rw [called_twoCalls called]
      exact given
    · rw [HasRoom, forall_mem_cons, forall_mem_singleton]
      constructor
      · exact show q.offset % q.increment + q.nbDesiredValues < 2 ^ 64 by omega
      · exact show q.offset % q.increment + q.nbDesiredValues + q.nbDesiredValues < 2 ^ 64 by omega
  · intro by_one start events asked room
    refine (chain_spread (Base.stores_chain _ _ _) (fun r mem => by_one r.1 ?_) room).2
    obtain ⟨⟨op, cur⟩, stored, found⟩ := mem_filterMap.mp mem
    cases op with
    | keepAhead val => cases found
    | getAutoIncrement q =>
      cases found
      rcases Base.stores_called _ _ _ stored with ⟨s, w, waits⟩ | ⟨s, called⟩
      · cases waits
      · exact asked s q called

def oneValue : Reservation := ⟨1, 1, 1, by decide, by decide⟩

theorem reservations_disjoint_iff_one :
    NeverShared (reservations (stores counterNext (Cell.idle Nat CounterOp 5) (twoCalls oneValue))) := by
  have all := (reservations_disjoint_iff (· = oneValue) ?_).mpr ?_ 5 (twoCalls oneValue) ?_ (by decide)
  · exact all
  · rintro q rfl
    decide
  · rintro q rfl
    exact .inr rfl
  · exact fun s q called => called_twoCalls called

def evenValue : Reservation := ⟨2, 2, 1, by decide, by decide⟩

/-- Two sessions with an increment of two are both given 2; the explicit value -1 makes the counter
start over. -/
theorem reservation_shared :
    let wrapped : List (CellEvent Nat CounterOp) :=
      [.call 0 (.getAutoIncrement oneValue), .attempt 0 false, .call 1 (.keepAhead (2 ^ 64 - 1)), .attempt 1 false] ++
        twoCalls oneValue
    (¬ NeverShared (reservations (stores counterNext (Cell.idle Nat CounterOp 0) (twoCalls evenValue))) ∧
      (reservations (stores counterNext (Cell.idle Nat CounterOp 0) (twoCalls evenValue))).map
        (fun r => r.1.assigned r.2) = [[2], [2]]) ∧
    ¬ NeverShared (reservations (stores counterNext (Cell.idle Nat CounterOp 0) wrapped)) ∧
    (reservations (stores counterNext (Cell.idle Nat CounterOp 0) wrapped)).map (fun r => r.1.assigned r.2) =
      [[1], [0], [1]] := by
  decide

end TidesdbMysql
