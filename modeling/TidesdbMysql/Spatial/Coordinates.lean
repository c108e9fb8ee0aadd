import TidesdbMysql.Spatial.Search

/-! Coordinates on the grid, by the bits of a double, and the bytes of a Hilbert value. -/
namespace TidesdbMysql
open Base

def ieee754DoubleSignMask : Nat := 2 ^ 63
def lexUint32HiShift : Nat := 32

/- `~bits` is the distance to the largest 64-bit value. -/
def doubleToLexUint32 (bits : Nat) : Nat :=
  (if bits &&& ieee754DoubleSignMask ≠ 0 then 2 ^ 64 - 1 - bits else bits ^^^ ieee754DoubleSignMask) >>>
    lexUint32HiShift % 2 ^ 32

def encodeHilbertBe (h : Nat) : Bytes := shiftBytes spatialHilbertKeyLen h

@[ext] structure FiniteDouble where
  bits : Nat
  width : bits < 2 ^ 64
  finite : bits / 2 ^ 52 % 2 ^ 11 ≠ 2 ^ 11 - 1

namespace FiniteDouble

/-- Sign and magnitude. -/
def rank (a : FiniteDouble) : Int := if a.bits < 2 ^ 63 then a.bits else 2 ^ 63 - a.bits

instance : LE FiniteDouble := ⟨fun a b => a.rank ≤ b.rank⟩

def zero : FiniteDouble := ⟨0, by decide, by decide⟩
def negZero : FiniteDouble := ⟨2 ^ 63, by decide, by decide⟩

def lex (a : FiniteDouble) : Nat := doubleToLexUint32 a.bits

theorem lex_eq (a : FiniteDouble) :
    a.lex = if a.bits < 2 ^ 63 then (2 ^ 63 + a.bits) / 2 ^ 32 else (2 ^ 64 - 1 - a.bits) / 2 ^ 32 := by
  have width := a.width
  have sign : a.bits &&& 2 ^ 63 ≠ 0 ↔ ¬ a.bits < 2 ^ 63 := by
    have digit : (a.bits.testBit 63).toNat = a.bits / 2 ^ 63 % 2 := Nat.toNat_testBit a.bits 63
    rw [Nat.and_two_pow, digit]
    omega
  unfold lex doubleToLexUint32 ieee754DoubleSignMask lexUint32HiShift
  rw [Nat.shiftRight_eq_div_pow]
  simp only [sign]
  by_cases positive : a.bits < 2 ^ 63
  · have high : (a.bits ^^^ 2 ^ 63) / 2 ^ 63 = 1 := by
      rw [Nat.xor_div_two_pow, Nat.div_eq_of_lt positive]
      decide
    have low : (a.bits ^^^ 2 ^ 63) % 2 ^ 63 = a.bits := by
      rw [Nat.xor_mod_two_pow, Nat.mod_eq_of_lt positive]
      simp
    rw [if_neg (not_not.mpr positive), if_pos positive]
    omega
  · rw [if_pos positive, if_neg positive]
    omega

theorem lex_le_iff {a b : FiniteDouble} (le : a ≤ b) : a.lex ≤ b.lex ↔ ¬ (a = zero ∧ b = negZero) := by
  change a.rank ≤ b.rank at le
  rw [FiniteDouble.ext_iff, FiniteDouble.ext_iff, lex_eq, lex_eq]
  unfold rank at le
  dsimp only [zero, negZero]
  split at le <;> split at le <;> simp only [*, if_true, if_false] <;> omega

end FiniteDouble

/-- The two zeros are equal, but the grid has -0 below +0. -/
theorem quantized_monotone_iff (a b c : FiniteDouble) (h h' : Nat) :
    (a ≤ b → (a.lex ≤ b.lex ↔ ¬ (a = .zero ∧ b = .negZero))) ∧
    (a ≤ c → c ≤ b →
      (a.lex ≤ c.lex ∧ c.lex ≤ b.lex ↔ ¬ (a = .zero ∧ c = .negZero) ∧ ¬ (c = .zero ∧ b = .negZero))) ∧
    (h < 2 ^ 64 → decodeHilbertBe (encodeHilbertBe h) = h) ∧
    (h < 2 ^ 64 → h' < 2 ^ 64 → (encodeHilbertBe h < encodeHilbertBe h' ↔ h < h')) := by
  refine ⟨FiniteDouble.lex_le_iff, fun above below => ?_, fun small => ?_, fun small small' => ?_⟩
  · rw [FiniteDouble.lex_le_iff above, FiniteDouble.lex_le_iff below]
  · rw [encodeHilbertBe, shiftBytes_eq, decodeHilbertBe, List.take_of_length_le (by simp)]
    exact beValue_beBytes small
  · rw [encodeHilbertBe, encodeHilbertBe, shiftBytes_eq, shiftBytes_eq]
    exact beBytes_lt_iff small small'

/-- A query that begins at +0 leaves out the coordinate -0. -/
theorem zeros_out_of_order : (¬ ∀ a b : FiniteDouble, a ≤ b → a.lex ≤ b.lex) ∧
    ¬ ∀ lo c hi : FiniteDouble, lo ≤ c → c ≤ hi → lo.lex ≤ c.lex ∧ c.lex ≤ hi.lex := by
  constructor
  · intro claim
    exact absurd (claim .zero .negZero (by decide)) (by decide)
  · intro claim
    exact absurd (claim .zero .negZero .zero (by decide) (by decide)).1 (by decide)

end TidesdbMysql
