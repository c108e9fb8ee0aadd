import Mathlib.Algebra.BigOperators.Group.List.Basic
import Mathlib.Algebra.Order.Ring.Nat
import Mathlib.Data.List.Basic
import Mathlib.Data.List.Nodup
import Mathlib.Data.List.Perm.Subperm

/-! Regions of a buffer: reading one, overwriting one, and how much room disjoint ones leave. -/
namespace TidesdbMysql.Base
open List

variable {E : Type}

def slice (buf : List E) (off len : Nat) : List E := (buf.drop off).take len

/-- Overwrite the elements from `off` on, as `memcpy` does. -/
def patch (buf : List E) (off : Nat) (new : List E) : List E := buf.take off ++ (new ++ buf.drop (off + new.length))

def Apart (off len off' len' : Nat) : Prop := off + len ≤ off' ∨ off' + len' ≤ off
  deriving Decidable

variable {off len : Nat} {buf new : List E}

theorem length_slice (inside : off + len ≤ buf.length) : (slice buf off len).length = len := by
  rw [slice, length_take, length_drop]
  omega

theorem length_patch (inside : off + new.length ≤ buf.length) : (patch buf off new).length = buf.length := by
  simp only [patch, length_append, length_take, length_drop]
  omega

theorem getElem?_slice (buf : List E) (off len i : Nat) :
    (slice buf off len)[i]? = if i < len then buf[off + i]? else none := by
  rw [slice, getElem?_take, getElem?_drop]

theorem getElem?_patch (inside : off + new.length ≤ buf.length) (i : Nat) :
    (patch buf off new)[i]? = if off ≤ i ∧ i < off + new.length then new[i - off]? else buf[i]? := by
  have front : (buf.take off).length = off := by
    rw [length_take]
    omega
  by_cases low : i < off
  · rw [patch, getElem?_append_left (by omega), getElem?_take_of_lt low, if_neg (by omega)]
  · rw [patch, getElem?_append_right (by omega), front]
    by_cases high : i < off + new.length
    · rw [getElem?_append_left (by omega), if_pos (by omega)]
    · rw [getElem?_append_right (by omega), getElem?_drop, if_neg (by omega)]
      congr 1
      omega

theorem slice_patch_self (size : new.length = len) (inside : off + len ≤ buf.length) :
    slice (patch buf off new) off len = new := by
  subst size
  apply ext_getElem?
  intro i
  rw [getElem?_slice, getElem?_patch inside]
  by_cases small : i < new.length
  · rw [if_pos small, if_pos (by omega), Nat.add_sub_cancel_left]
  · rw [if_neg small, getElem?_eq_none (by omega)]

theorem slice_patch_apart {off off' len' : Nat} (inside : off + new.length ≤ buf.length)
    (apart : Apart off new.length off' len') : slice (patch buf off new) off' len' = slice buf off' len' := by
  apply ext_getElem?
  intro i
  rw [getElem?_slice, getElem?_slice, getElem?_patch inside]
  by_cases small : i < len'
  · rw [if_pos small, if_pos small, if_neg]
    unfold Apart at apart
    omega
  · rw [if_neg small, if_neg small]

theorem slice_zero (buf : List E) (len : Nat) : slice buf 0 len = buf.take len := by
  rw [slice, drop_zero]

theorem take_patch_zero (size : new.length = len) : (patch buf 0 new).take len = new := by
  subst size
  rw [patch, take_zero, nil_append, take_left]

theorem take_patch (below : len ≤ off) (inside : off ≤ buf.length) : (patch buf off new).take len = buf.take len := by
  have front : len ≤ (buf.take off).length := by
    rw [length_take]
    omega
  rw [patch, take_append_of_le_length front, take_take, Nat.min_eq_left below]

theorem le_length_patch (buf new : List E) (off : Nat) : buf.length ≤ (patch buf off new).length := by
  simp only [patch, length_append, length_take, length_drop]
  omega

theorem slice_modify_apart {i off len : Nat} (f : E → E) (below : i < off) :
    slice (buf.modify i f) off len = slice buf off len := by
  apply ext_getElem?
  intro j
  have other : i ≠ off + j := by omega
  rw [getElem?_slice, getElem?_slice, getElem?_modify]
  simp [other]

theorem take_modify (buf : List E) (i len : Nat) (f : E → E) :
    (buf.modify i f).take len = (buf.take len).modify i f := by
  apply ext_getElem?
  intro j
  rw [getElem?_take, getElem?_modify, getElem?_modify, getElem?_take]
  by_cases inside : j < len
  · rw [if_pos inside, if_pos inside]
  · rw [if_neg inside, if_neg inside]
    rfl

theorem sum_le_of_apart {regions : List (Nat × Nat)} {low high : Nat}
    (inside : ∀ r ∈ regions, low ≤ r.1 ∧ r.1 + r.2 ≤ high)
    (apart : regions.Pairwise fun r r' => Apart r.1 r.2 r'.1 r'.2) : (regions.map Prod.snd).sum ≤ high - low := by
  have positions : (regions.flatMap fun r => range' r.1 r.2).Nodup := by
    refine nodup_flatMap.mpr ⟨fun r _ => nodup_range', apart.imp fun gap x here there => ?_⟩
    rw [mem_range'_1] at here there
    unfold Apart at gap
    omega
  have bounded : (regions.flatMap fun r => range' r.1 r.2) ⊆ range' low (high - low) := by
    intro x mem
    obtain ⟨r, listed, here⟩ := mem_flatMap.mp mem
    have bounds := inside r listed
    rw [mem_range'_1] at here ⊢
    omega
  have count := (subperm_of_subset positions bounded).length_le
  rw [length_flatMap, length_range'] at count
  simpa only [length_range'] using count

end TidesdbMysql.Base
