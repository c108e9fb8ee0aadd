import TidesdbMysql.Base.Hilbert
import Mathlib.Data.List.ProdSigma
import Mathlib.Data.List.Sort

/-! The Hilbert values of `tidesdb_spatial.cc` and the ranges a query box is cut into.
Coordinates are 32-bit and curve values 64-bit unsigned integers. -/
namespace TidesdbMysql
open Base List

def hilbertOrder : Nat := 32

/- `(uint32_t)a - b` -/
def sub32 (a b : Nat) : Nat := (a % 2 ^ 32 + 2 ^ 32 - b) % 2 ^ 32

def hilbertRot (n x y rx ry : Nat) : Nat × Nat :=
  if ry = 0 then
    let (x, y) := if rx = 1 then (sub32 (n - 1) x, sub32 (n - 1) y) else (x, y)
    (y, x)
  else (x, y)

/- The loop from `s = 2 ^ k` down. The sum needs no reduction: it stays below `2 ^ 64`. -/
def hilbertLoop : Nat → Nat → Nat → Nat → Nat
  | 0, _, _, d => d
  | k + 1, x, y, d =>
    let s := 2 ^ k
    let rx := if x &&& s > 0 then 1 else 0
    let ry := if y &&& s > 0 then 1 else 0
    let (x, y) := hilbertRot (s <<< 1) x y rx ry
    hilbertLoop k x y (d + s * s * (3 * rx ^^^ ry))

def hilbertXy2d64 (x y : Nat) : Nat := hilbertLoop hilbertOrder x y 0

theorem sub32_lt (a b : Nat) : sub32 a b < 2 ^ 32 := Nat.mod_lt _ (by decide)

theorem sub32_low {k x : Nat} (level : k < 32) (small : x < 2 ^ 32) :
    sub32 (2 ^ k <<< 1 - 1) x % 2 ^ k = 2 ^ k - 1 - x % 2 ^ k := by
  have side : 2 ^ k * 2 ^ (32 - k) = 2 ^ 32 := by
    rw [← Nat.pow_add]
    congr 1
    omega
  have fits : 2 ^ k * 2 ≤ 2 ^ 32 := by
    rw [← Nat.pow_succ]
    exact Nat.pow_le_pow_right (by decide) level
  have shifted : 2 ^ k <<< 1 - 1 = 2 ^ k * 2 - 1 := by rw [Nat.shiftLeft_eq, Nat.pow_one]
  have whole_side : (2 ^ k * 2 - 1) % 2 ^ 32 = 2 ^ k * 2 - 1 := Nat.mod_eq_of_lt (by omega)
  rw [sub32, shifted, whole_side, ← side, Nat.mod_mul_right_mod]
  have split := Nat.div_add_mod x (2 ^ k)
  have quotient : x / 2 ^ k < 2 ^ (32 - k) := Nat.div_lt_of_lt_mul (by rwa [side])
  obtain ⟨more, whole⟩ := Nat.exists_eq_add_of_lt quotient
  have product : 2 ^ k * 2 ^ (32 - k) = 2 ^ k * (x / 2 ^ k) + 2 ^ k * more + 2 ^ k := by
    rw [whole]
    ring
  have mirrored : 2 ^ k * 2 - 1 + 2 ^ k * 2 ^ (32 - k) - x = 2 ^ k * (more + 2) + (2 ^ k - 1 - x % 2 ^ k) := by
    rw [product, Nat.mul_add]
    omega
  rw [mirrored, Nat.mul_add_mod, Nat.mod_eq_of_lt (by omega)]

theorem bit_eq (x k : Nat) : (if x &&& 2 ^ k > 0 then 1 else 0) = (x.testBit k).toNat := by
  rw [Nat.and_two_pow]
  cases x.testBit k <;> simp

theorem digit_eq (rx ry : Bool) : 3 * rx.toNat ^^^ ry.toNat = quadrant rx ry := by
  cases rx <;> cases ry <;> rfl

theorem hilbertRot_low {k x y : Nat} (level : k < 32) (small_x : x < 2 ^ 32) (small_y : y < 2 ^ 32) (rx ry : Bool) :
    let r := hilbertRot (2 ^ k <<< 1) x y rx.toNat ry.toNat
    r.1 < 2 ^ 32 ∧ r.2 < 2 ^ 32 ∧ low k r = (quadrantPlacement rx ry).act k (low k (x, y)) := by
  have mirrored_x := sub32_low level small_x
  have mirrored_y := sub32_low level small_y
  have wrapped_x := sub32_lt (2 ^ k <<< 1 - 1) x
  have wrapped_y := sub32_lt (2 ^ k <<< 1 - 1) y
  cases rx with
  | false => cases ry <;> exact ⟨by assumption, by assumption, rfl⟩
  | true =>
    cases ry with
    | false => exact ⟨wrapped_y, wrapped_x, Prod.ext mirrored_y mirrored_x⟩
    | true => exact ⟨small_x, small_y, rfl⟩

theorem hilbertLoop_eq {k x y : Nat} (level : k ≤ 32) (small_x : x < 2 ^ 32) (small_y : y < 2 ^ 32) (d : Nat) :
    hilbertLoop k x y d = d + hilbert k (x, y) := by
  induction k generalizing x y d with
  | zero => rfl
  | succ k ih =>
    obtain ⟨bound_x, bound_y, turned⟩ :=
      hilbertRot_low (Nat.lt_of_succ_le level) small_x small_y (x.testBit k) (y.testBit k)
    have square : 2 ^ k * 2 ^ k = 4 ^ k := by rw [← Nat.mul_pow]
    rw [hilbertLoop]
    simp only [bit_eq, digit_eq]
    rw [ih (by omega) bound_x bound_y, hilbert_low, turned, hilbert, square]
    exact Nat.add_assoc _ _ _

variable {x y : Nat} {g : Nat × Nat}

theorem hilbertXy2d64_eq (small_x : x < 2 ^ 32) (small_y : y < 2 ^ 32) : hilbertXy2d64 x y = hilbert 32 (x, y) := by
  rw [hilbertXy2d64, hilbertOrder, hilbertLoop_eq (Nat.le_refl 32) small_x small_y, Nat.zero_add]

theorem square_inSquare {k : Nat} (level : k ≤ 32) (small_x : x < 2 ^ 32) (small_y : y < 2 ^ 32) :
    InSquare (32 - k) (x / 2 ^ k, y / 2 ^ k) := by
  have side : 2 ^ k * 2 ^ (32 - k) = 2 ^ 32 := by rw [← Nat.pow_add, Nat.add_sub_cancel' level]
  exact ⟨Nat.div_lt_of_lt_mul (by rwa [side]), Nat.div_lt_of_lt_mul (by rwa [side])⟩

theorem hilbertXy2d64_split {k : Nat} (level : k ≤ 32) (small_x : x < 2 ^ 32) (small_y : y < 2 ^ 32) :
    hilbertXy2d64 x y = 4 ^ k * hilbert (32 - k) (x / 2 ^ k, y / 2 ^ k) +
      hilbert k ((placement (32 - k) (x / 2 ^ k, y / 2 ^ k)).act k (low k (x, y))) := by
  have joined := hilbert_join (square_inSquare level small_x small_y) (low_inSquare k (x, y))
  have parts : join k (x / 2 ^ k, y / 2 ^ k) (low k (x, y)) = (x, y) :=
    Prod.ext (Nat.div_add_mod x (2 ^ k)) (Nat.div_add_mod y (2 ^ k))
  rw [Nat.sub_add_cancel level, parts] at joined
  rw [hilbertXy2d64_eq small_x small_y, joined]

/-- The values are those of a Hilbert curve: each is taken once, an aligned square has an aligned block of
them, and one step of the curve is one step along an axis. -/
theorem hilbertXy2d64_curve :
    Set.BijOn (fun p : Nat × Nat => hilbertXy2d64 p.1 p.2) {p | p.1 < 2 ^ 32 ∧ p.2 < 2 ^ 32} {d | d < 2 ^ 64} ∧
    (∀ k ≤ 32, ∀ a < 2 ^ (32 - k), ∀ b < 2 ^ (32 - k), ∃ block < 4 ^ (32 - k), ∀ d,
      (∃ x y, x / 2 ^ k = a ∧ y / 2 ^ k = b ∧ hilbertXy2d64 x y = d) ↔ d / 4 ^ k = block) ∧
    ∀ x y x' y', x < 2 ^ 32 → y < 2 ^ 32 → x' < 2 ^ 32 → y' < 2 ^ 32 →
      hilbertXy2d64 x' y' = hilbertXy2d64 x y + 1 → Adjacent (x, y) (x', y') := by
  refine ⟨⟨fun p inside => ?_, fun p inside q inside' same => ?_, fun d small => ?_⟩, ?_, ?_⟩
  · show hilbertXy2d64 p.1 p.2 < 4 ^ 32
    rw [hilbertXy2d64_eq inside.1 inside.2]
    exact hilbert_lt 32 p
  · dsimp only at same
    rw [hilbertXy2d64_eq inside.1 inside.2, hilbertXy2d64_eq inside'.1 inside'.2] at same
    exact hilbert_injective inside inside' same
  · obtain ⟨p, inside, value⟩ := hilbert_surjective (k := 32) small
    exact ⟨p, inside, (hilbertXy2d64_eq inside.1 inside.2).trans value⟩
  · intro k level a small_a b small_b
    have room : 2 ^ (32 - k) * 2 ^ k = 2 ^ 32 := by rw [← Nat.pow_add, Nat.sub_add_cancel level]
    refine ⟨hilbert (32 - k) (a, b), hilbert_lt _ _, fun d => ⟨?_, fun block => ?_⟩⟩
    · rintro ⟨x, y, rfl, rfl, rfl⟩
      have small : ∀ n, n / 2 ^ k < 2 ^ (32 - k) → n < 2 ^ 32 := fun n within =>
        room ▸ (Nat.div_lt_iff_lt_mul (Nat.two_pow_pos k)).mp within
      rw [hilbertXy2d64_split level (small x small_a) (small y small_b), Nat.mul_add_div (Nat.pow_pos (by decide)),
        Nat.div_eq_of_lt (hilbert_lt _ _), Nat.add_zero]
    · obtain ⟨p, inside, rest⟩ := hilbert_surjective (Nat.mod_lt d (Nat.pow_pos (by decide)))
      have placed := act_inSquare (placement (32 - k) (a, b)) inside
      have joined := hilbert_join (m := 32 - k) (g := (a, b)) ⟨small_a, small_b⟩ placed
      have bound := join_inSquare (m := 32 - k) (g := (a, b)) ⟨small_a, small_b⟩ placed
      rw [Nat.sub_add_cancel level] at joined bound
      rw [act_act _ inside, rest, ← block, Nat.div_add_mod] at joined
      refine ⟨_, _, ?_, ?_, (hilbertXy2d64_eq bound.1 bound.2).trans joined⟩
      · rw [join, Nat.mul_add_div (Nat.two_pow_pos k), Nat.div_eq_of_lt placed.1, Nat.add_zero]
      · rw [join, Nat.mul_add_div (Nat.two_pow_pos k), Nat.div_eq_of_lt placed.2, Nat.add_zero]
  · intro x y x' y' small_x small_y small_x' small_y' next
    rw [hilbertXy2d64_eq small_x small_y, hilbertXy2d64_eq small_x' small_y'] at next
    exact hilbert_adjacent (k := 32) ⟨small_x, small_y⟩ ⟨small_x', small_y'⟩ next

def spatialDecompBits : Nat := 8
def spatialDecompN : Nat := 2 ^ spatialDecompBits
def decompShift : Nat := hilbertOrder - spatialDecompBits
def cellSpan : Nat := 2 ^ (2 * decompShift)

def cellValue (g : Nat × Nat) : Nat := hilbertXy2d64 (g.1 <<< decompShift) (g.2 <<< decompShift)

def gridCells (gx0 gy0 gx1 gy1 : Nat) : List (Nat × Nat) :=
  List.range' gx0 (gx1 + 1 - gx0) ×ˢ List.range' gy0 (gy1 + 1 - gy0)

def mergeCells (rangeLo rangeHi : Nat) : List Nat → List (Nat × Nat)
  | [] => [(rangeLo, rangeHi)]
  | lo :: rest =>
    let hi := (lo + cellSpan - 1) % 2 ^ 64
    if lo ≤ (rangeHi + 1) % 2 ^ 64 then mergeCells rangeLo (if hi > rangeHi then hi else rangeHi) rest
    else (rangeLo, rangeHi) :: mergeCells lo hi rest

def spatialDecomposeRanges (qxMin qyMin qxMax qyMax : Nat) : List (Nat × Nat) :=
  let gx1 := if qxMax >>> decompShift ≥ spatialDecompN then spatialDecompN - 1 else qxMax >>> decompShift
  let gy1 := if qyMax >>> decompShift ≥ spatialDecompN then spatialDecompN - 1 else qyMax >>> decompShift
  let cells := (gridCells (qxMin >>> decompShift) (qyMin >>> decompShift) gx1 gy1).map cellValue
  match cells.insertionSort (· ≤ ·) with
  | [] => [(0, 2 ^ 64 - 1)]
  | first :: rest => mergeCells first ((first + cellSpan - 1) % 2 ^ 64) rest

structure QueryBox where
  xMin : Nat
  yMin : Nat
  xMax : Nat
  yMax : Nat
  x_le : xMin ≤ xMax
  y_le : yMin ≤ yMax
  x_lt : xMax < 2 ^ 32
  y_lt : yMax < 2 ^ 32

def QueryBox.Contains (q : QueryBox) (x y : Nat) : Prop :=
  q.xMin ≤ x ∧ x ≤ q.xMax ∧ q.yMin ≤ y ∧ y ≤ q.yMax

def QueryBox.ranges (q : QueryBox) : List (Nat × Nat) := spatialDecomposeRanges q.xMin q.yMin q.xMax q.yMax

def cellOf (x y : Nat) : Nat × Nat := (x >>> decompShift, y >>> decompShift)

def QueryBox.cells (q : QueryBox) : List (Nat × Nat) :=
  gridCells (q.xMin >>> decompShift) (q.yMin >>> decompShift) (q.xMax >>> decompShift) (q.yMax >>> decompShift)

def InRange (v : Nat) (r : Nat × Nat) : Prop := r.1 ≤ v ∧ v ≤ r.2
  deriving Decidable

/- Cells and blocks. -/

theorem cellSpan_eq : cellSpan = 4 ^ 24 := by decide

theorem shift_lt (small : x < 2 ^ 32) : x >>> decompShift < 2 ^ 8 := by
  rw [Nat.shiftRight_eq_div_pow]
  exact Nat.div_lt_of_lt_mul small

theorem cellValue_eq (cell : InSquare 8 g) :
    cellValue g = cellSpan * hilbert 8 g + if (placement 8 g).flip then hilbert 24 (farCorner 24) else 0 := by
  obtain ⟨first, second⟩ := cell
  have corner : (g.1 <<< decompShift, g.2 <<< decompShift) = join 24 g (0, 0) := by
    rw [Nat.shiftLeft_eq, Nat.shiftLeft_eq]
    exact Prod.ext (Nat.mul_comm _ _) (Nat.mul_comm _ _)
  have small : ∀ a < 2 ^ 8, a <<< decompShift < 2 ^ 32 := by
    intro a within
    rw [Nat.shiftLeft_eq]
    exact Nat.mul_lt_mul_of_pos_right within (by decide)
  rw [cellValue, hilbertXy2d64_eq (small _ first) (small _ second), corner, cellSpan_eq]
  exact hilbert_corner (k := 24) ⟨first, second⟩

theorem point_block (small_x : x < 2 ^ 32) (small_y : y < 2 ^ 32) :
    ∃ offset < cellSpan, hilbertXy2d64 x y = cellSpan * hilbert 8 (cellOf x y) + offset := by
  unfold cellOf
  rw [Nat.shiftRight_eq_div_pow, Nat.shiftRight_eq_div_pow, cellSpan_eq]
  exact ⟨_, hilbert_lt 24 _, hilbertXy2d64_split (by decide) small_x small_y⟩

theorem farCorner_lt : hilbert 24 (farCorner 24) < cellSpan := by
  rw [cellSpan_eq]
  exact hilbert_lt 24 _

/-- No cell's range leaves the 64-bit values: the last block belongs to a cell whose
corner is its first point. -/
theorem cellValue_room (cell : InSquare 8 g) : cellValue g + cellSpan ≤ 2 ^ 64 := by
  have bound := hilbert_lt 8 g
  have far := farCorner_lt
  have whole : cellSpan * 4 ^ 8 = 2 ^ 64 := by decide
  rw [cellValue_eq cell, ← whole]
  by_cases last : hilbert 8 g + 1 = 4 ^ 8
  · have flip : (placement 8 g).flip = false := last_cell_flip last
    rw [flip, ← last, Nat.mul_add, Nat.mul_one]
    simp
  · have room : cellSpan * (hilbert 8 g + 2) ≤ cellSpan * 4 ^ 8 := Nat.mul_le_mul_left _ (by omega)
    rw [Nat.mul_add] at room
    split <;> omega

theorem cellValue_div (cell : InSquare 8 g) : cellValue g / cellSpan = hilbert 8 g := by
  have far := farCorner_lt
  have offset : (if (placement 8 g).flip then hilbert 24 (farCorner 24) else 0) < cellSpan := by
    split
    · exact far
    · exact Nat.lt_of_le_of_lt (Nat.zero_le _) far
  rw [cellValue_eq cell, Nat.mul_add_div (Nat.lt_of_le_of_lt (Nat.zero_le _) far), Nat.div_eq_of_lt offset,
    Nat.add_zero]

theorem cellValue_injective {g g' : Nat × Nat} (cell : InSquare 8 g) (cell' : InSquare 8 g')
    (same : cellValue g = cellValue g') : g = g' := by
  have blocks := congrArg (· / cellSpan) same
  simp only [cellValue_div cell, cellValue_div cell'] at blocks
  exact hilbert_injective cell cell' blocks

/-- Merging keeps the values of the open range and of the cells ahead of it, in ranges
that neither overlap nor touch. -/
theorem mergeCells_spec (lo hi : Nat) {cells : List Nat} (opened : lo ≤ hi) (below : hi < 2 ^ 64)
    (ahead : ∀ c ∈ cells, lo ≤ c ∧ hi + 1 < c + cellSpan ∧ c + cellSpan ≤ 2 ^ 64) (sorted : cells.Pairwise (· < ·)) :
    (∀ r ∈ mergeCells lo hi cells, lo ≤ r.1 ∧ r.1 ≤ r.2 ∧ r.2 < 2 ^ 64) ∧
    (mergeCells lo hi cells).Pairwise (fun r r' => r.2 + 1 < r'.1) ∧ ∀ v, (∃ r ∈ mergeCells lo hi cells, InRange v r) ↔
      InRange v (lo, hi) ∨ ∃ c ∈ cells, InRange v (c, c + cellSpan - 1) := by
  induction cells generalizing lo hi with
  | nil => simpa [mergeCells] using ⟨opened, below⟩
  | cons c rest ih =>
    obtain ⟨from_lo, before, room⟩ := ahead c mem_cons_self
    obtain ⟨later, sorted_rest⟩ := pairwise_cons.mp sorted
    have span : 0 < cellSpan := by decide
    have top : (c + cellSpan - 1) % 2 ^ 64 = c + cellSpan - 1 := Nat.mod_eq_of_lt (by omega)
    have next : (hi + 1) % 2 ^ 64 = hi + 1 := Nat.mod_eq_of_lt (by omega)
    have ahead_rest : ∀ lo' ≤ c, ∀ c' ∈ rest,
        lo' ≤ c' ∧ c + cellSpan - 1 + 1 < c' + cellSpan ∧ c' + cellSpan ≤ 2 ^ 64 := by
      intro lo' start c' mem
      have less := later c' mem
      have fits := (ahead c' (mem_cons_of_mem c mem)).2.2
      omega
    rw [mergeCells]
    simp only [top, next]
    by_cases touches : c ≤ hi + 1
    · rw [if_pos touches, if_pos (by omega)]
      obtain ⟨formed, apart, covers⟩ := ih lo (c + cellSpan - 1) (by omega) (by omega)
        (ahead_rest lo from_lo) sorted_rest
      refine ⟨formed, apart, fun v => ?_⟩
      rw [covers v, exists_mem_cons_iff]
      have both : InRange v (lo, c + cellSpan - 1) ↔ InRange v (lo, hi) ∨ InRange v (c, c + cellSpan - 1) := by
        unfold InRange
        omega
      rw [both, or_assoc]
    · rw [if_neg touches]
      obtain ⟨formed, apart, covers⟩ := ih c (c + cellSpan - 1) (by omega) (by omega)
        (ahead_rest c (Nat.le_refl c)) sorted_rest
      refine ⟨?_, ?_, fun v => ?_⟩
      · rw [forall_mem_cons]
        refine ⟨⟨Nat.le_refl lo, opened, below⟩, fun r mem => ?_⟩
        have shape := formed r mem
        exact ⟨by omega, shape.2⟩
      · rw [pairwise_cons]
        refine ⟨fun r mem => ?_, apart⟩
        have shape := formed r mem
        omega
      · rw [exists_mem_cons_iff, covers v, exists_mem_cons_iff]

/- The grid of a box. -/

theorem mem_gridCells {gx0 gy0 gx1 gy1 : Nat} :
    g ∈ gridCells gx0 gy0 gx1 gy1 ↔ gx0 ≤ g.1 ∧ g.1 ≤ gx1 ∧ gy0 ≤ g.2 ∧ g.2 ≤ gy1 := by
  obtain ⟨gx, gy⟩ := g
  rw [gridCells, mem_product, mem_range'_1, mem_range'_1]
  omega

section
variable (q : QueryBox)

theorem QueryBox.cells_inSquare (mem : g ∈ q.cells) : InSquare 8 g := by
  obtain ⟨-, right, -, top⟩ := mem_gridCells.mp mem
  exact ⟨Nat.lt_of_le_of_lt right (shift_lt q.x_lt), Nat.lt_of_le_of_lt top (shift_lt q.y_lt)⟩

theorem shift_le {a b : Nat} (le : a ≤ b) : a >>> decompShift ≤ b >>> decompShift := by
  rw [Nat.shiftRight_eq_div_pow, Nat.shiftRight_eq_div_pow]
  exact Nat.div_le_div_right le

theorem QueryBox.cellOf_mem (inside : q.Contains x y) : cellOf x y ∈ q.cells := by
  obtain ⟨left, right, bottom, top⟩ := inside
  exact mem_gridCells.mpr ⟨shift_le left, shift_le right, shift_le bottom, shift_le top⟩

def QueryBox.sortedValues : List Nat := (q.cells.map cellValue).insertionSort (· ≤ ·)

theorem QueryBox.mem_sortedValues {c : Nat} : c ∈ q.sortedValues ↔ ∃ g ∈ q.cells, cellValue g = c := by
  rw [QueryBox.sortedValues, (perm_insertionSort _ _).mem_iff, mem_map]

theorem QueryBox.sortedValues_pairwise : q.sortedValues.Pairwise (· < ·) := by
  have distinct : (q.cells.map cellValue).Nodup := by
    refine List.Nodup.map_on (fun g mem g' member' same => ?_) ?_
    · exact cellValue_injective (q.cells_inSquare mem) (q.cells_inSquare member') same
    · exact List.Nodup.product nodup_range' nodup_range'
  have nodup : q.sortedValues.Nodup := (perm_insertionSort _ _).nodup_iff.mpr distinct
  exact ((pairwise_insertionSort _ _).and nodup).imp fun both => lt_of_le_of_ne both.1 both.2

theorem QueryBox.ranges_eq : q.ranges = match q.sortedValues with
      | [] => [(0, 2 ^ 64 - 1)] | first :: rest => mergeCells first ((first + cellSpan - 1) % 2 ^ 64) rest := by
  have right : ¬ q.xMax >>> decompShift ≥ spatialDecompN := Nat.not_le.mpr (shift_lt q.x_lt)
  have top : ¬ q.yMax >>> decompShift ≥ spatialDecompN := Nat.not_le.mpr (shift_lt q.y_lt)
  simp only [QueryBox.ranges, spatialDecomposeRanges, if_neg right, if_neg top]
  rfl

theorem QueryBox.ranges_spec : (∀ r ∈ q.ranges, r.1 ≤ r.2 ∧ r.2 < 2 ^ 64) ∧
    q.ranges.Pairwise (fun r r' => r.2 + 1 < r'.1) ∧ ∀ v, (∃ r ∈ q.ranges, InRange v r) ↔
      ∃ g ∈ q.cells, InRange v (cellValue g, cellValue g + cellSpan - 1) := by
  have span : 0 < cellSpan := by decide
  have room : ∀ c ∈ q.sortedValues, c + cellSpan ≤ 2 ^ 64 := by
    intro c mem
    obtain ⟨g, cell, rfl⟩ := q.mem_sortedValues.mp mem
    exact cellValue_room (q.cells_inSquare cell)
  have values : ∀ v, (∃ g ∈ q.cells, InRange v (cellValue g, cellValue g + cellSpan - 1)) ↔
      ∃ c ∈ q.sortedValues, InRange v (c, c + cellSpan - 1) := by
    intro v
    simp only [q.mem_sortedValues]
    constructor
    · rintro ⟨g, cell, inside⟩
      exact ⟨_, ⟨g, cell, rfl⟩, inside⟩
    · rintro ⟨_, ⟨g, cell, rfl⟩, inside⟩
      exact ⟨g, cell, inside⟩
  have corner : cellOf q.xMin q.yMin ∈ q.cells :=
    q.cellOf_mem ⟨Nat.le_refl _, q.x_le, Nat.le_refl _, q.y_le⟩
  have sorted := q.sortedValues_pairwise
  rw [q.ranges_eq]
  simp only [values]
  cases cells : q.sortedValues with
  | nil =>
    have mem := q.mem_sortedValues.mpr ⟨_, corner, rfl⟩
    rw [cells] at mem
    cases mem
  | cons first rest =>
    rw [cells] at sorted room
    obtain ⟨later, sorted_rest⟩ := pairwise_cons.mp sorted
    have fits := room first mem_cons_self
    have top : (first + cellSpan - 1) % 2 ^ 64 = first + cellSpan - 1 := Nat.mod_eq_of_lt (by omega)
    dsimp only
    rw [top]
    obtain ⟨formed, apart, covers⟩ := mergeCells_spec first (first + cellSpan - 1) (by omega)
      (by omega) (fun c mem => ⟨(later c mem).le, by have := later c mem; omega,
        room c (mem_cons_of_mem first mem)⟩) sorted_rest
    refine ⟨fun r mem => (formed r mem).2, apart, fun v => ?_⟩
    rw [covers v, exists_mem_cons_iff]

end

structure QueryBox.RangesExact (q : QueryBox) : Prop where
  formed : ∀ r ∈ q.ranges, r.1 ≤ r.2 ∧ r.2 < 2 ^ 64
  sorted : q.ranges.Pairwise (fun r r' => r.1 < r'.1)
  disjoint : q.ranges.Pairwise (fun r r' => ∀ v, ¬ (InRange v r ∧ InRange v r'))
  covers : ∀ x y, q.Contains x y → ∃ r ∈ q.ranges, InRange (hilbertXy2d64 x y) r

/-- A point before its cell's corner on the curve is found only through a cell one span earlier
turned the same way. -/
theorem covered_iff {q : QueryBox} (inside : q.Contains x y) :
    (∃ r ∈ q.ranges, InRange (hilbertXy2d64 x y) r) ↔
      cellValue (cellOf x y) ≤ hilbertXy2d64 x y ∨
        ∃ g ∈ q.cells, cellValue g + cellSpan = cellValue (cellOf x y) := by
  have small_x : x < 2 ^ 32 := Nat.lt_of_le_of_lt inside.2.1 q.x_lt
  have small_y : y < 2 ^ 32 := Nat.lt_of_le_of_lt inside.2.2.2 q.y_lt
  have mem := q.cellOf_mem inside
  have cell := q.cells_inSquare mem
  obtain ⟨offset, below, value⟩ := point_block small_x small_y
  have far := farCorner_lt
  have span : cellSpan = 281474976710656 := by decide
  rw [q.ranges_spec.2.2, value]
  rw [span] at below far ⊢
  have corner := cellValue_eq cell
  rw [span] at corner
  constructor
  · rintro ⟨g, listed, low, high⟩
    by_cases early : cellValue (cellOf x y) ≤ 281474976710656 * hilbert 8 (cellOf x y) + offset
    · exact .inl early
    · have corner_g := cellValue_eq (q.cells_inSquare listed)
      rw [span] at corner_g
      by_cases same : hilbert 8 g = hilbert 8 (cellOf x y)
      · rw [hilbert_injective (q.cells_inSquare listed) cell same] at low
        exact absurd low early
      · refine .inr ⟨g, listed, ?_⟩
        split at corner <;> split at corner_g <;> omega
  · rintro (late | ⟨g, listed, before⟩)
    · refine ⟨cellOf x y, mem, late, ?_⟩
      omega
    · by_cases early : cellValue (cellOf x y) ≤ 281474976710656 * hilbert 8 (cellOf x y) + offset
      · refine ⟨cellOf x y, mem, early, ?_⟩
        omega
      · refine ⟨g, listed, ?_, ?_⟩
        · split at corner <;> omega
        · omega

theorem decomposition_exact_iff (q : QueryBox) : q.RangesExact ↔ ∀ x y, q.Contains x y →
      cellValue (cellOf x y) ≤ hilbertXy2d64 x y ∨
        ∃ g ∈ q.cells, cellValue g + cellSpan = cellValue (cellOf x y) := by
  obtain ⟨formed, apart, -⟩ := q.ranges_spec
  constructor
  · intro exact x y inside
    exact (covered_iff inside).mp (exact.covers x y inside)
  · intro condition
    refine ⟨formed, ?_, ?_, fun x y inside => (covered_iff inside).mpr (condition x y inside)⟩
    · refine apart.imp_of_mem fun {r r'} mem member' gap => ?_
      have shape := formed r mem
      omega
    · refine apart.imp fun gap v both => ?_
      unfold InRange at both
      omega

def pointBox (x y : Nat) (small_x : x < 2 ^ 32) (small_y : y < 2 ^ 32) : QueryBox :=
  ⟨x, y, x, y, Nat.le_refl x, Nat.le_refl y, small_x, small_y⟩

/- The box of the point (10, 20) in quantized coordinates. -/
theorem decomposition_exact_iff_point : (pointBox 0xc0240000 0xc0340000 (by decide) (by decide)).RangesExact := by
  refine (decomposition_exact_iff _).mpr fun x y inside => .inl ?_
  obtain ⟨left, right, bottom, top⟩ := inside
  obtain rfl : x = 0xc0240000 := Nat.le_antisymm right left
  obtain rfl : y = 0xc0340000 := Nat.le_antisymm top bottom
  decide

/-- The box of (3, 0.5) in quantized coordinates: the curve enters from the far corner, and the
point lies before the only range. -/
theorem point_before_its_range : let q := pointBox 0xc0080000 0xbfe00000 (by decide) (by decide)
    q.xMin ≤ 0xc0080000 ∧ 0xc0080000 ≤ q.xMax ∧ q.yMin ≤ 0xbfe00000 ∧ 0xbfe00000 ≤ q.yMax ∧
    ∀ r ∈ q.ranges, ¬ InRange (hilbertXy2d64 0xc0080000 0xbfe00000) r := by
  decide

end TidesdbMysql
