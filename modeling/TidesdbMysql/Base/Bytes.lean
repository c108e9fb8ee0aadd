import Mathlib.Data.List.Induction
import Mathlib.Algebra.Ring.Nat

/-! Byte strings and fixed-width little-endian numbers. -/
namespace TidesdbMysql.Base
open List

abbrev Bytes := List UInt8

/-- The low `width` bytes of a number, least significant first. -/
def leBytes : Nat → Nat → Bytes
  | 0, _ => []
  | width + 1, n => UInt8.ofNat (n % 256) :: leBytes width (n / 256)

def leValue : Bytes → Nat
  | [] => 0
  | b :: rest => b.toNat + 256 * leValue rest

section
variable (x : UInt8) (rest a b bs : Bytes) (width n : Nat)

@[simp] theorem leBytes_length : (leBytes width n).length = width := by
  induction width generalizing n with
  | zero => rfl
  | succ width ih => simp [leBytes, ih]

theorem leValue_lt : leValue bs < 256 ^ bs.length := by
  induction bs with
  | nil => simp [leValue]
  | cons b rest ih =>
    have hb : b.toNat < 256 := b.toNat_lt
    simp only [leValue, length_cons, Nat.pow_succ]
    omega

theorem leValue_leBytes : leValue (leBytes width n) = n % 256 ^ width := by
  induction width generalizing n with
  | zero => simp [leBytes, leValue, Nat.mod_one]
  | succ width ih =>
    have head : (UInt8.ofNat (n % 256)).toNat = n % 256 := by
      simp
    rw [leBytes, leValue, head, ih, Nat.pow_succ, Nat.mul_comm (256 ^ width), Nat.mod_mul]

theorem leBytes_leValue : leBytes bs.length (leValue bs) = bs := by
  induction bs with
  | nil => rfl
  | cons b rest ih =>
    have hb : b.toNat < 256 := b.toNat_lt
    have low : (b.toNat + 256 * leValue rest) % 256 = b.toNat := by omega
    have high : (b.toNat + 256 * leValue rest) / 256 = leValue rest := by omega
    simp only [length_cons, leBytes, leValue, low, high, ih, UInt8.ofNat_toNat]

theorem leBytes_injective {width a b : Nat} (ha : a < 256 ^ width) (hb : b < 256 ^ width)
    (same : leBytes width a = leBytes width b) : a = b := by
  have h := congrArg leValue same
  rwa [leValue_leBytes, leValue_leBytes, Nat.mod_eq_of_lt ha, Nat.mod_eq_of_lt hb] at h

theorem leValue_append : leValue (a ++ b) = leValue a + 256 ^ a.length * leValue b := by
  induction a with
  | nil => simp [leValue]
  | cons x a ih =>
    simp only [cons_append, leValue, ih, length_cons, Nat.pow_succ, Nat.mul_add]
    rw [Nat.mul_comm (256 ^ a.length) 256, Nat.mul_assoc, Nat.add_assoc]

def beBytes : Bytes := (leBytes width n).reverse
def beValue : Nat := leValue bs.reverse

@[simp] theorem beBytes_length : (beBytes width n).length = width := by
  simp [beBytes]

theorem beValue_cons : beValue (x :: rest) = beValue rest + 256 ^ rest.length * x.toNat := by
  simp [beValue, leValue_append, leValue]

theorem beValue_lt : beValue bs < 256 ^ bs.length := by
  have bound := leValue_lt bs.reverse
  rwa [length_reverse] at bound

end

theorem beValue_beBytes {width n : Nat} (small : n < 256 ^ width) : beValue (beBytes width n) = n := by
  rw [beValue, beBytes, reverse_reverse, leValue_leBytes, Nat.mod_eq_of_lt small]

/-- Big-endian bytes as a loop of shifts writes them. -/
def shiftBytes (width n : Nat) : Bytes := (List.range width).map fun i => UInt8.ofNat (n >>> ((width - 1 - i) * 8))

theorem shiftBytes_eq (width n : Nat) : shiftBytes width n = beBytes width n := by
  induction width generalizing n with
  | zero => rfl
  | succ width ih =>
    have shifted : ∀ i ∈ range width, UInt8.ofNat (n >>> ((width + 1 - 1 - i) * 8)) =
        UInt8.ofNat ((n / 256) >>> ((width - 1 - i) * 8)) := by
      intro i mem
      have below := mem_range.mp mem
      have places : (width + 1 - 1 - i) * 8 = 8 + (width - 1 - i) * 8 := by omega
      rw [places, Nat.shiftRight_add, Nat.shiftRight_eq_div_pow n 8]
    have last : UInt8.ofNat n = UInt8.ofNat (n % 256) := by simp [UInt8.ofNat_eq_iff_mod_eq_toNat]
    rw [beBytes, leBytes, reverse_cons, ← beBytes, ← ih, shiftBytes, range_succ, map_append, map_congr_left shifted]
    simp [shiftBytes, last]

end TidesdbMysql.Base
