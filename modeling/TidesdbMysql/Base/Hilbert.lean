import Mathlib.Algebra.Ring.Nat
import Mathlib.Data.Nat.Bitwise
import Mathlib.Tactic.Ring

/-! The Hilbert curve of order `k` on a square of side `2 ^ k`, by quadrants. A square
grid of cells laid over a finer curve is itself run through along a curve, and inside
each cell the finer curve is placed in one of four ways. -/
namespace TidesdbMysql.Base

/-- How a curve is placed in its square: mirrored in the diagonal, turned half around,
both or neither. -/
structure Placement where
  swap : Bool
  flip : Bool
  deriving DecidableEq, Repr

abbrev Point := Nat × Nat

def InSquare (k : Nat) (p : Point) : Prop := p.1 < 2 ^ k ∧ p.2 < 2 ^ k

def Placement.act (o : Placement) (k : Nat) (p : Point) : Point :=
  let q := if o.flip then (2 ^ k - 1 - p.1, 2 ^ k - 1 - p.2) else p
  if o.swap then (q.2, q.1) else q

def Placement.comp (o o' : Placement) : Placement := ⟨xor o.swap o'.swap, xor o.flip o'.flip⟩

/- The quadrants in the order of the curve: it starts at the origin and ends at the
far end of the first axis. -/
def quadrant : Bool → Bool → Nat
  | false, false => 0
  | false, true => 1
  | true, true => 2
  | true, false => 3

def quadrantPlacement (rx ry : Bool) : Placement := ⟨!ry, rx && !ry⟩

def low (k : Nat) (p : Point) : Point := (p.1 % 2 ^ k, p.2 % 2 ^ k)

def hilbert : Nat → Point → Nat
  | 0, _ => 0
  | k + 1, p =>
    4 ^ k * quadrant (p.1.testBit k) (p.2.testBit k) +
      hilbert k ((quadrantPlacement (p.1.testBit k) (p.2.testBit k)).act k (low k p))

/-- The placement of the finer curve in a cell of the grid of side `2 ^ m`. -/
def placement : Nat → Point → Placement
  | 0, _ => ⟨false, false⟩
  | m + 1, g =>
    let o := quadrantPlacement (g.1.testBit m) (g.2.testBit m)
    (placement m (o.act m (low m g))).comp o

section
variable (rx ry : Bool) (o o' : Placement) (k : Nat) (g p : Point)

theorem low_inSquare : InSquare k (low k p) :=
  ⟨Nat.mod_lt _ (Nat.two_pow_pos k), Nat.mod_lt _ (Nat.two_pow_pos k)⟩

theorem act_inSquare {k : Nat} {p : Point} (inside : InSquare k p) : InSquare k (o.act k p) := by
  obtain ⟨swap, flip⟩ := o
  obtain ⟨first, second⟩ := inside
  unfold InSquare
  cases swap <;> cases flip <;> simp only [Placement.act, if_true, if_false, Bool.false_eq_true] <;> omega

theorem act_comp {k : Nat} {p : Point} (inside : InSquare k p) : o.act k (o'.act k p) = (o.comp o').act k p := by
  obtain ⟨swap, flip⟩ := o
  obtain ⟨swap', flip'⟩ := o'
  obtain ⟨first, second⟩ := inside
  have back_first : 2 ^ k - 1 - (2 ^ k - 1 - p.1) = p.1 := by omega
  have back_second : 2 ^ k - 1 - (2 ^ k - 1 - p.2) = p.2 := by omega
  cases swap <;> cases flip <;> cases swap' <;> cases flip' <;>
    simp [Placement.act, Placement.comp, back_first, back_second]

theorem act_act {k : Nat} {p : Point} (inside : InSquare k p) : o.act k (o.act k p) = p := by
  rw [act_comp o o inside, Placement.comp, Bool.xor_self, Bool.xor_self]
  rfl

theorem act_injective {k : Nat} {p q : Point} (inside_p : InSquare k p) (inside_q : InSquare k q)
    (same : o.act k p = o.act k q) : p = q := by
  rw [← act_act o inside_p, same, act_act o inside_q]

theorem quadrant_le : quadrant rx ry ≤ 3 := by
  cases rx <;> cases ry <;> decide

theorem quadrant_injective {rx ry rx' ry' : Bool} (same : quadrant rx ry = quadrant rx' ry') : rx = rx' ∧ ry = ry' := by
  cases rx <;> cases ry <;> cases rx' <;> cases ry' <;> simp_all [quadrant]

theorem hilbert_lt : hilbert k p < 4 ^ k := by
  induction k generalizing p with
  | zero => simp [hilbert]
  | succ k ih =>
    have rest := ih ((quadrantPlacement (p.1.testBit k) (p.2.testBit k)).act k (low k p))
    have whole := Nat.mul_le_mul_left (4 ^ k) (quadrant_le (p.1.testBit k) (p.2.testBit k))
    rw [hilbert, Nat.pow_succ]
    omega

theorem hilbert_low : hilbert k p = hilbert k (low k p) := by
  cases k with
  | zero => rfl
  | succ k =>
    have bit : ∀ n : Nat, (n % 2 ^ (k + 1)).testBit k = n.testBit k := by
      intro n
      rw [Nat.testBit_mod_two_pow, decide_eq_true (Nat.lt_succ_self k), Bool.true_and]
    have lower : low k (low (k + 1) p) = low k p :=
      Prod.ext (Nat.mod_mod_of_dvd _ (Nat.pow_dvd_pow 2 (Nat.le_succ k)))
        (Nat.mod_mod_of_dvd _ (Nat.pow_dvd_pow 2 (Nat.le_succ k)))
    rw [hilbert, hilbert, lower]
    simp only [low, bit]

theorem testBit_mod {k n : Nat} (small : n < 2 ^ (k + 1)) : n = 2 ^ k * (n.testBit k).toNat + n % 2 ^ k := by
  have digit : (n.testBit k).toNat = n / 2 ^ k % 2 := Nat.toNat_testBit n k
  have once : n / 2 ^ k < 2 := Nat.div_lt_of_lt_mul (by rwa [Nat.pow_succ] at small)
  rw [digit, Nat.mod_eq_of_lt once, Nat.div_add_mod]

theorem hilbert_injective {k : Nat} {p q : Point} (inside_p : InSquare k p) (inside_q : InSquare k q)
    (same : hilbert k p = hilbert k q) : p = q := by
  induction k generalizing p q with
  | zero =>
    obtain ⟨p1, p2⟩ := inside_p
    obtain ⟨q1, q2⟩ := inside_q
    exact Prod.ext (by omega) (by omega)
  | succ k ih =>
    rw [hilbert, hilbert] at same
    have bound_p := hilbert_lt k ((quadrantPlacement (p.1.testBit k) (p.2.testBit k)).act k (low k p))
    have bound_q := hilbert_lt k ((quadrantPlacement (q.1.testBit k) (q.2.testBit k)).act k (low k q))
    have quotient := congrArg (· / 4 ^ k) same
    have residue := congrArg (· % 4 ^ k) same
    simp only [Nat.mul_add_div (Nat.pow_pos (by decide : 0 < 4)), Nat.div_eq_of_lt bound_p,
      Nat.div_eq_of_lt bound_q, Nat.mul_add_mod, Nat.mod_eq_of_lt bound_p, Nat.mod_eq_of_lt bound_q,
      Nat.add_zero] at quotient residue
    obtain ⟨first, second⟩ := quadrant_injective quotient
    rw [first, second] at residue
    have lows := act_injective _ (low_inSquare k p) (low_inSquare k q)
      (ih (act_inSquare _ (low_inSquare k p)) (act_inSquare _ (low_inSquare k q)) residue)
    have low_first : p.1 % 2 ^ k = q.1 % 2 ^ k := congrArg Prod.fst lows
    have low_second : p.2 % 2 ^ k = q.2 % 2 ^ k := congrArg Prod.snd lows
    exact Prod.ext (by rw [testBit_mod inside_p.1, testBit_mod inside_q.1, first, low_first])
      (by rw [testBit_mod inside_p.2, testBit_mod inside_q.2, second, low_second])

def join : Point := (2 ^ k * g.1 + p.1, 2 ^ k * g.2 + p.2)

theorem act_join {m k : Nat} {g p : Point} (cell : InSquare m g) (inside : InSquare k p) :
    o.act (m + k) (join k g p) = join k (o.act m g) (o.act k p) := by
  have mirrored : ∀ a b : Nat, a < 2 ^ m → b < 2 ^ k →
      2 ^ (m + k) - 1 - (2 ^ k * a + b) = 2 ^ k * (2 ^ m - 1 - a) + (2 ^ k - 1 - b) := by
    intro a b within_a within_b
    obtain ⟨rest, whole⟩ := Nat.exists_eq_add_of_lt within_a
    have cells : 2 ^ m - 1 - a = rest := by omega
    rw [cells, Nat.pow_add, whole]
    have product : (a + rest + 1) * 2 ^ k = 2 ^ k * a + 2 ^ k * rest + 2 ^ k := by ring
    omega
  obtain ⟨swap, flip⟩ := o
  cases swap <;> cases flip <;>
    simp [Placement.act, join, mirrored _ _ cell.1 inside.1, mirrored _ _ cell.2 inside.2]

theorem join_inSquare {m k : Nat} {g p : Point} (cell : InSquare m g) (inside : InSquare k p) :
    InSquare (m + k) (join k g p) := by
  have bound : ∀ a b : Nat, a < 2 ^ m → b < 2 ^ k → 2 ^ k * a + b < 2 ^ (m + k) := by
    intro a b within_a within_b
    have room := Nat.mul_le_mul_left (2 ^ k) within_a
    rw [Nat.add_comm m k, Nat.pow_add]
    rw [Nat.mul_succ] at room
    omega
  exact ⟨bound _ _ cell.1 inside.1, bound _ _ cell.2 inside.2⟩

end

theorem testBit_join {m k a b : Nat} (inside : b < 2 ^ k) : (2 ^ k * a + b).testBit (m + k) = a.testBit m := by
  rw [Nat.testBit_two_pow_mul_add a inside, if_neg (by omega), Nat.add_sub_cancel]

theorem low_join {m k : Nat} {g p : Point} (inside : InSquare k p) : low (m + k) (join k g p) = join k (low m g) p := by
  have residue : ∀ a b : Nat, b < 2 ^ k → (2 ^ k * a + b) % 2 ^ (m + k) = 2 ^ k * (a % 2 ^ m) + b := by
    intro a b within
    rw [Nat.add_comm m k, Nat.pow_add, Nat.mod_mul, Nat.mul_add_mod, Nat.mod_eq_of_lt within,
      Nat.mul_add_div (Nat.two_pow_pos k), Nat.div_eq_of_lt within, Nat.add_zero, Nat.add_comm]
  exact Prod.ext (residue g.1 p.1 inside.1) (residue g.2 p.2 inside.2)

theorem hilbert_join {m k : Nat} {g p : Point} (cell : InSquare m g) (inside : InSquare k p) :
    hilbert (m + k) (join k g p) = 4 ^ k * hilbert m g + hilbert k ((placement m g).act k p) := by
  induction m generalizing g p with
  | zero =>
    obtain ⟨first, second⟩ := cell
    have origin : join k g p = p := by
      have g1 : g.1 = 0 := by omega
      have g2 : g.2 = 0 := by omega
      simp [join, g1, g2]
    rw [origin, Nat.zero_add, hilbert, Nat.mul_zero, Nat.zero_add]
    rfl
  | succ m ih =>
    rw [Nat.add_right_comm m 1 k, hilbert]
    have first : (join k g p).1.testBit (m + k) = g.1.testBit m := testBit_join inside.1
    have second : (join k g p).2.testBit (m + k) = g.2.testBit m := testBit_join inside.2
    rw [first, second, low_join inside, act_join _ (low_inSquare m g) inside,
      ih (act_inSquare _ (low_inSquare m g)) (act_inSquare _ inside), act_comp _ _ inside, hilbert,
      placement, Nat.pow_add]
    ring

/- The corner of a cell nearest the origin: the first point of its block, or the one that
the turned curve has there. -/

theorem hilbert_origin (k : Nat) : hilbert k (0, 0) = 0 := by
  induction k with
  | zero => rfl
  | succ k ih =>
    have origin : (quadrantPlacement false false).act k (low k (0, 0)) = (0, 0) := by
      simp [quadrantPlacement, Placement.act, low]
    simp only [hilbert, Nat.zero_testBit, origin, ih, quadrant]
    rfl

/- The curve ends at the far end of the first axis, and goes on from there in the next quadrant. -/

theorem hilbert_last (k : Nat) : hilbert k (2 ^ k - 1, 0) + 1 = 4 ^ k := by
  induction k with
  | zero => rfl
  | succ k ih =>
    have positive := Nat.two_pow_pos k
    have lower : (2 ^ (k + 1) - 1) % 2 ^ k = 2 ^ k - 1 := by
      rw [show 2 ^ (k + 1) - 1 = 2 ^ k + (2 ^ k - 1) by omega, Nat.add_mod_left, Nat.mod_eq_of_lt (by omega)]
    have turned : (quadrantPlacement true false).act k (low k (2 ^ (k + 1) - 1, 0)) = (2 ^ k - 1, 0) := by
      simp [quadrantPlacement, Placement.act, low, lower]
    have top : (2 ^ (k + 1) - 1).testBit k = true := by simp [Nat.testBit_two_pow_sub_one]
    simp only [hilbert, top, Nat.zero_testBit, turned, quadrant]
    omega

theorem hilbert_surjective {k d : Nat} (inside : d < 4 ^ k) : ∃ p, InSquare k p ∧ hilbert k p = d := by
  induction k generalizing d with
  | zero => exact ⟨(0, 0), ⟨Nat.one_pos, Nat.one_pos⟩, by simp [hilbert]; omega⟩
  | succ k ih =>
    have cells : ∀ n < 4, ∃ g, InSquare 1 g ∧ hilbert 1 g = n := by
      intro n small
      match n, small with
      | 0, _ => exact ⟨(0, 0), ⟨by decide, by decide⟩, rfl⟩
      | 1, _ => exact ⟨(0, 1), ⟨by decide, by decide⟩, rfl⟩
      | 2, _ => exact ⟨(1, 1), ⟨by decide, by decide⟩, rfl⟩
      | 3, _ => exact ⟨(1, 0), ⟨by decide, by decide⟩, rfl⟩
    obtain ⟨g, cell, quarter⟩ := cells (d / 4 ^ k) (Nat.div_lt_of_lt_mul (by rwa [Nat.pow_succ] at inside))
    obtain ⟨p, inside_p, rest⟩ := ih (Nat.mod_lt d (Nat.pow_pos (by decide)))
    have placed := act_inSquare (placement 1 g) inside_p
    rw [Nat.add_comm k 1]
    refine ⟨join k g ((placement 1 g).act k p), join_inSquare cell placed, ?_⟩
    rw [hilbert_join cell placed, act_act _ inside_p, quarter, rest, Nat.div_add_mod]

def Adjacent (p q : Point) : Prop :=
  q.2 = p.2 ∧ (q.1 = p.1 + 1 ∨ p.1 = q.1 + 1) ∨ q.1 = p.1 ∧ (q.2 = p.2 + 1 ∨ p.2 = q.2 + 1)

theorem act_adjacent (o : Placement) {k : Nat} {p q : Point} (inside_p : InSquare k p) (inside_q : InSquare k q)
    (near : Adjacent (o.act k p) (o.act k q)) : Adjacent p q := by
  obtain ⟨swap, flip⟩ := o
  obtain ⟨p1, p2⟩ := inside_p
  obtain ⟨q1, q2⟩ := inside_q
  revert near
  unfold Adjacent
  cases swap <;> cases flip <;> simp only [Placement.act, if_true, if_false, Bool.false_eq_true] <;> omega

theorem hilbert_adjacent {k : Nat} {p q : Point} (inside_p : InSquare k p) (inside_q : InSquare k q)
    (next : hilbert k q = hilbert k p + 1) : Adjacent p q := by
  induction k generalizing p q with
  | zero => simp [hilbert] at next
  | succ k ih =>
    have whole_p := And.intro (testBit_mod inside_p.1) (testBit_mod inside_p.2)
    have whole_q := And.intro (testBit_mod inside_q.1) (testBit_mod inside_q.2)
    rw [hilbert, hilbert] at next
    generalize p.1.testBit k = rx, p.2.testBit k = ry, q.1.testBit k = rx', q.2.testBit k = ry' at next whole_p whole_q
    have low_p := low_inSquare k p
    have low_q := low_inSquare k q
    have bound_p := hilbert_lt k ((quadrantPlacement rx ry).act k (low k p))
    have bound_q := hilbert_lt k ((quadrantPlacement rx' ry').act k (low k q))
    by_cases same : quadrant rx' ry' = quadrant rx ry
    · obtain ⟨rfl, rfl⟩ := quadrant_injective same
      have near := act_adjacent (quadrantPlacement rx' ry') low_p low_q
        (ih (act_inSquare _ low_p) (act_inSquare _ low_q) (by omega))
      unfold Adjacent low at *
      simp only at near
      omega
    · -- the curve leaves a quadrant at its end and enters the next at its origin
      have later : quadrant rx' ry' = quadrant rx ry + 1 := by
        rcases Nat.lt_or_ge (quadrant rx' ry') (quadrant rx ry) with less | more
        · have blocks := Nat.mul_le_mul_left (4 ^ k) less
          rw [Nat.mul_succ] at blocks
          omega
        · by_contra apart
          have blocks := Nat.mul_le_mul_left (4 ^ k) (show quadrant rx ry + 2 ≤ quadrant rx' ry' by omega)
          rw [Nat.mul_add] at blocks
          omega
      rw [later, Nat.mul_succ] at next
      have ending := hilbert_last k
      have corner : InSquare k (2 ^ k - 1, 0) := ⟨Nat.sub_lt (Nat.two_pow_pos k) Nat.one_pos, Nat.two_pow_pos k⟩
      have origin : InSquare k (0, 0) := ⟨Nat.two_pow_pos k, Nat.two_pow_pos k⟩
      have leaves := hilbert_injective (act_inSquare (quadrantPlacement rx ry) low_p) corner (by omega)
      have enters := hilbert_injective (act_inSquare (quadrantPlacement rx' ry') low_q) origin
        (by rw [hilbert_origin]; omega)
      have here := act_act (quadrantPlacement rx ry) low_p
      have there := act_act (quadrantPlacement rx' ry') low_q
      rw [leaves] at here
      rw [enters] at there
      obtain ⟨here1, here2⟩ := Prod.ext_iff.mp here
      obtain ⟨there1, there2⟩ := Prod.ext_iff.mp there
      simp only [low] at here1 here2 there1 there2
      rw [← here1, ← here2] at whole_p
      rw [← there1, ← there2] at whole_q
      unfold Adjacent
      cases rx <;> cases ry <;> cases rx' <;> cases ry' <;>
        simp [quadrant, quadrantPlacement, Placement.act] at later whole_p whole_q <;> omega

def farCorner (k : Nat) : Point := (2 ^ k - 1, 2 ^ k - 1)

theorem act_origin (o : Placement) (k : Nat) : o.act k (0, 0) = if o.flip then farCorner k else (0, 0) := by
  obtain ⟨swap, flip⟩ := o
  cases swap <;> cases flip <;> rfl

theorem hilbert_corner {m k : Nat} {g : Point} (cell : InSquare m g) : hilbert (m + k) (join k g (0, 0)) =
      4 ^ k * hilbert m g + if (placement m g).flip then hilbert k (farCorner k) else 0 := by
  rw [hilbert_join cell ⟨Nat.two_pow_pos k, Nat.two_pow_pos k⟩, act_origin]
  split
  · rfl
  · rw [hilbert_origin]

/-- The last cell of the grid is reached through last quadrants only, and each turns
the curve once. -/
theorem last_cell_flip {m : Nat} {g : Point} (last : hilbert m g + 1 = 4 ^ m) :
    (placement m g).flip = decide (m % 2 = 1) := by
  induction m generalizing g with
  | zero => rfl
  | succ m ih =>
    rw [hilbert, Nat.pow_succ] at last
    have rest := hilbert_lt m ((quadrantPlacement (g.1.testBit m) (g.2.testBit m)).act m (low m g))
    have quarter : 3 ≤ quadrant (g.1.testBit m) (g.2.testBit m) := by
      by_contra early
      have few : quadrant (g.1.testBit m) (g.2.testBit m) ≤ 2 := by omega
      have whole := Nat.mul_le_mul_left (4 ^ m) few
      omega
    have three : quadrant (g.1.testBit m) (g.2.testBit m) = quadrant true false :=
      Nat.le_antisymm (quadrant_le _ _) quarter
    obtain ⟨first, second⟩ := quadrant_injective three
    rw [first, second] at last
    have deeper := ih (g := (quadrantPlacement true false).act m (low m g)) (by
      simp only [quadrant] at last
      omega)
    rw [placement, first, second, Placement.comp, deeper, quadrantPlacement]
    by_cases odd : m % 2 = 1
    · have even : ¬ (m + 1) % 2 = 1 := by omega
      simp [odd, even]
    · have flipped : (m + 1) % 2 = 1 := by omega
      simp [odd, flipped]

end TidesdbMysql.Base
