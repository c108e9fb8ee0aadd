import TidesdbMysql.Base.Bytes
import TidesdbMysql.Base.SortedMap

/-! The order of byte strings under `memcmp`, a shorter string before its
extensions. The strings that start with a given prefix stand together, so a scan
from the prefix meets them first and without a gap. -/
namespace TidesdbMysql.Base
open List Base.SortedMap

instance byteOrder : LinearOrder UInt8 where
  le_refl a := UInt8.le_refl a
  le_trans a b c := UInt8.le_trans
  lt_iff_le_not_ge a b := by
    simp only [UInt8.lt_iff_toNat_lt, UInt8.le_iff_toNat_le]
    omega
  le_antisymm a b := UInt8.le_antisymm
  le_total a b := UInt8.le_total a b
  toDecidableLE := inferInstance

theorem cons_le_cons_bytes {x y : UInt8} {p a : Bytes} : x :: p ≤ y :: a ↔ x < y ∨ x = y ∧ p ≤ a := by
  simp only [le_iff_lt_or_eq, cons_lt_cons_iff, cons.injEq]
  tauto

theorem prefix_le {p a : Bytes} (starts : p <+: a) : p ≤ a := by
  obtain ⟨rest, rfl⟩ := starts
  induction p with
  | nil => exact not_lt.mp (not_lt_nil _)
  | cons x p ih => exact cons_le_cons_bytes.mpr (Or.inr ⟨rfl, ih⟩)

theorem prefix_of_between {p a b : Bytes} (low : p ≤ a) (high : a ≤ b) (starts : p <+: b) : p <+: a := by
  obtain ⟨rest, rfl⟩ := starts
  induction p generalizing a with
  | nil => exact nil_prefix
  | cons x p ih =>
    cases a with
    | nil => exact absurd low (not_le.mpr (nil_lt_cons x p))
    | cons y a =>
      rcases cons_le_cons_bytes.mp low with less | ⟨rfl, low'⟩
      · rcases cons_le_cons_bytes.mp high with less' | ⟨rfl, -⟩
        · exact absurd less' (not_lt_of_gt less)
        · exact absurd less (lt_irrefl _)
      · rcases cons_le_cons_bytes.mp high with less' | ⟨-, high'⟩
        · exact absurd less' (lt_irrefl _)
        · exact cons_prefix_cons.mpr ⟨rfl, ih low' high'⟩

theorem append_lt_append {a b c d : Bytes} (same : a.length = b.length) : a ++ c < b ++ d ↔ a < b ∨ a = b ∧ c < d := by
  induction a generalizing b with
  | nil =>
    cases b with
    | nil => simp
    | cons y b => cases same
  | cons x a ih =>
    cases b with
    | nil => cases same
    | cons y b =>
      simp only [cons_append, cons_lt_cons_iff, ih (Nat.succ.inj same), cons.injEq]
      tauto

theorem le_append_iff {a b c : Bytes} (same : a.length = b.length) : a ≤ b ++ c ↔ a ≤ b := by
  have below := append_lt_append (c := c) (d := []) same.symm
  rw [append_nil] at below
  rw [← not_lt, ← not_lt, below]
  simp [not_lt_nil]

theorem prefix_append_iff {a b c : Bytes} (same : a.length = b.length) : a <+: b ++ c ↔ a = b := by
  constructor
  · rintro ⟨rest, whole⟩
    exact (append_inj whole same).1
  · rintro rfl
    exact prefix_append _ _

theorem le_replicate_high {a : Bytes} {n : Nat} (short : a.length ≤ n) : a ≤ List.replicate n 255 := by
  induction a generalizing n with
  | nil => exact not_lt.mp (not_lt_nil _)
  | cons x rest ih =>
    cases n with
    | zero => cases short
    | succ n =>
      have high : x ≤ 255 := UInt8.le_iff_toNat_le.mpr (Nat.le_of_lt_succ x.toNat_lt)
      rw [replicate_succ, cons_le_cons_bytes]
      rcases high.lt_or_eq with less | same
      · exact .inl less
      · exact .inr ⟨same, ih (Nat.le_of_succ_le_succ short)⟩

theorem replicate_high_lt_iff {a : Bytes} {n : Nat} :
    List.replicate n 255 < a ↔ List.replicate n 255 <+: a ∧ n < a.length := by
  induction n generalizing a with
  | zero => cases a <;> simp
  | succ n ih =>
    cases a with
    | nil => simp
    | cons x rest =>
      have high : ¬ 255 < x := not_lt.mpr (UInt8.le_iff_toNat_le.mpr (Nat.le_of_lt_succ x.toNat_lt))
      rw [replicate_succ, cons_lt_cons_iff, ih, cons_prefix_cons, length_cons, Nat.succ_lt_succ_iff]
      tauto

theorem prefix_le_padded {p a : Bytes} {n : Nat} (starts : p <+: a) (short : a.length ≤ p.length + n) :
    a ≤ p ++ List.replicate n 255 := by
  obtain ⟨tail, rfl⟩ := starts
  rw [length_append, Nat.add_le_add_iff_left] at short
  rw [← not_lt, append_lt_append rfl]
  rintro (less | ⟨-, less⟩)
  · exact lt_irrefl _ less
  · exact absurd (le_replicate_high short) (not_le.mpr less)

theorem lt_append_of_ne_nil {a c : Bytes} (more : c ≠ []) : a < a ++ c := by
  induction a with
  | nil =>
    cases c with
    | nil => exact absurd rfl more
    | cons y c => exact nil_lt_cons y c
  | cons x a ih => exact cons_lt_cons_iff.mpr (.inr ⟨rfl, ih⟩)

theorem lt_iff_beValue_lt {a b : Bytes} (same : a.length = b.length) : a < b ↔ beValue a < beValue b := by
  induction a generalizing b with
  | nil =>
    cases b with
    | nil => simp
    | cons y b => cases same
  | cons x a ih =>
    cases b with
    | nil => cases same
    | cons y b =>
      have lengths : a.length = b.length := Nat.succ.inj same
      have low_a := beValue_lt a
      have low_b := beValue_lt b
      rw [cons_lt_cons_iff, ih lengths, beValue_cons, beValue_cons, lengths]
      rw [lengths] at low_a
      rcases Nat.lt_trichotomy x.toNat y.toNat with less | equal | greater
      · have gap : 256 ^ b.length * (x.toNat + 1) ≤ 256 ^ b.length * y.toNat := Nat.mul_le_mul_left _ less
        rw [Nat.mul_add] at gap
        have here : x < y := UInt8.lt_iff_toNat_lt.mpr less
        simp only [here, true_or, true_iff]
        omega
      · have here : x = y := UInt8.toNat_inj.mp equal
        subst here
        simp
      · have gap : 256 ^ b.length * (y.toNat + 1) ≤ 256 ^ b.length * x.toNat := Nat.mul_le_mul_left _ greater
        rw [Nat.mul_add] at gap
        have there : y < x := UInt8.lt_iff_toNat_lt.mpr greater
        simp only [not_lt_of_gt there, ne_of_gt there, false_and, or_self, false_iff]
        omega

theorem beBytes_lt_iff {width m n : Nat} (small_m : m < 256 ^ width) (small_n : n < 256 ^ width) :
    beBytes width m < beBytes width n ↔ m < n := by
  rw [lt_iff_beValue_lt (by simp), beValue_beBytes small_m, beValue_beBytes small_n]

/- Strings that begin with a number of fixed width. -/

theorem beValue_take_mono {width : Nat} {a b : Bytes} (long_a : width ≤ a.length) (long_b : width ≤ b.length)
    (le : a ≤ b) : beValue (a.take width) ≤ beValue (b.take width) := by
  by_contra above
  have size : (b.take width).length = (a.take width).length := by
    rw [length_take_of_le long_a, length_take_of_le long_b]
  have less : b.take width < a.take width := (lt_iff_beValue_lt size).mpr (Nat.lt_of_not_le above)
  have whole : b.take width ++ b.drop width < a.take width ++ a.drop width :=
    (append_lt_append size).mpr (.inl less)
  rw [take_append_drop, take_append_drop] at whole
  exact absurd le (not_le.mpr whole)

theorem beBytes_le_iff {width n : Nat} {a : Bytes} (small : n < 256 ^ width) (long : width ≤ a.length) :
    beBytes width n ≤ a ↔ n ≤ beValue (a.take width) := by
  have size : (a.take width).length = (beBytes width n).length := by
    rw [length_take_of_le long, beBytes_length]
  have below : a.take width ++ a.drop width < beBytes width n ++ [] ↔ a.take width < beBytes width n := by
    rw [append_lt_append size]
    simp [not_lt_nil]
  rw [take_append_drop, append_nil, lt_iff_beValue_lt size, beValue_beBytes small] at below
  rw [← not_lt, below, not_lt]

variable {V : Type}

def Starts (p : Bytes) (e : Bytes × V) : Bool := decide (p <+: e.1)

theorem takeWhile_starts {p : Bytes} {es : List (Bytes × V)} (bounded : ∀ e ∈ es, p ≤ e.1)
    (sorted : es.Pairwise (fun a b => a.1 < b.1)) : es.takeWhile (Starts p) = es.filter (Starts p) := by
  refine takeWhile_eq_filter (sorted.imp_of_mem fun {a b} mem _ less starts => ?_)
  exact decide_eq_true (prefix_of_between (bounded a mem) less.le (of_decide_eq_true starts))

theorem seek_takeWhile_starts (m : SortedMap Bytes V) (p : Bytes) :
    (m.seek p).takeWhile (Starts p) = m.entries.filter (Starts p) := by
  rw [takeWhile_starts (fun e mem => (mem_seek.mp mem).2) (m.seek_sorted p), m.seek_eq_filter, filter_filter]
  apply filter_congr
  intro e mem
  by_cases starts : p <+: e.1
  · simp [Starts, starts, prefix_le starts]
  · simp [Starts, starts]

theorem seek_dropWhile_starts (m : SortedMap Bytes V) (p : Bytes) :
    (m.seek p).dropWhile (Starts p) = m.entries.filter fun e => decide (p ≤ e.1) && !Starts p e := by
  have closed : (m.seek p).Pairwise fun a b => Starts p b = true → Starts p a = true := by
    refine (m.seek_sorted p).imp_of_mem fun {a b} mem _ less starts => ?_
    exact decide_eq_true (prefix_of_between (mem_seek.mp mem).2 less.le (of_decide_eq_true starts))
  rw [dropWhile_eq_filter closed, m.seek_eq_filter, filter_filter]
  refine filter_congr fun e _ => ?_
  rw [Bool.and_comm]

/-- Looking at the first entry from the prefix on is enough to know whether any entry
starts with it. -/
theorem seek_head_starts (m : SortedMap Bytes V) (p : Bytes) :
    (m.seek p).head?.any (Starts p) = true ↔ ∃ e ∈ m.entries, Starts p e = true := by
  have group := seek_takeWhile_starts m p
  constructor
  · intro first
    cases found : m.seek p with
    | nil => simp [found] at first
    | cons e rest =>
      have here : Starts p e = true := by simpa [found] using first
      exact ⟨e, (mem_seek.mp (found ▸ mem_cons_self)).1, here⟩
  · rintro ⟨e, mem, starts⟩
    have inside : e ∈ (m.seek p).takeWhile (Starts p) := by
      rw [group]
      exact mem_filter.mpr ⟨mem, starts⟩
    cases found : m.seek p with
    | nil => simp [found] at inside
    | cons x rest =>
      cases here : Starts p x with
      | true => simp [here]
      | false => simp [found, here] at inside

end TidesdbMysql.Base
