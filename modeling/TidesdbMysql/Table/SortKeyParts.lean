import TidesdbMysql.Table.KeyRead

/-! `decode_sort_key_part` against the sort keys the server makes, type by type. -/
namespace TidesdbMysql

open Base (Bytes)
open List

variable {src : Bytes}

inductive IntWidth where
  | tiny | short | int24 | long | longlong

def IntWidth.bytes : IntWidth → Nat
  | .tiny => 1
  | .short => 2
  | .int24 => 3
  | .long => 4
  | .longlong => 8

/-- A column by its `real_type()`: `datetime` and `timestamp` are the old formats, the two strings have the charset
`binary` or `latin1`. -/
inductive SortedColumn where
  | integer (width : IntWidth) (isUnsigned : Bool)
  | year | date | datetime | timestamp
  | datetime2 (fsp : Fin 7) | timestamp2 (fsp : Fin 7)
  | binary (length : Nat) | latin1 (length : Nat)
  | other (packLength : Nat)

namespace SortedColumn

def packLength : SortedColumn → Nat
  | .integer width _ => width.bytes
  | .year => 1
  | .date => 3
  | .datetime => 8
  | .timestamp => 4
  | .datetime2 fsp => 5 + (fsp + 1) / 2
  | .timestamp2 fsp => 4 + (fsp + 1) / 2
  | .binary n | .latin1 n | .other n => n

def decodedType : SortedColumn → DecodedType
  | .integer _ isUnsigned => .integer isUnsigned
  | .year => .year
  | .date => .date
  | .datetime | .timestamp | .datetime2 _ | .timestamp2 _ => .datetime
  | .binary n | .latin1 n => .string n
  | .other _ => .other

/- A key part may be shorter than its column where that is a string. -/
def IsString : SortedColumn → Prop
  | .binary _ | .latin1 _ | .other _ => True
  | _ => False

/-- `Field::make_sort_key` of the stored bytes, for `len` bytes: numbers from the high byte on, the two new types as
they are stored, and a string by the weights of its characters. -/
def makeSortKey (weight : UInt8 → UInt8) (sortString : Bytes → Bytes) (len : Nat) : SortedColumn → Bytes → Bytes
  | .integer _ false, v => intSortKey v
  | .integer _ true, v | .date, v | .datetime, v | .timestamp, v => v.reverse
  | .year, v | .datetime2 _, v | .timestamp2 _, v => v
  | .binary _, v => v.take len
  | .latin1 _, v => (v.take len).map weight
  | .other _, v => sortString v

end SortedColumn

structure SortedPart where
  column : SortedColumn
  length : Nat
  inside : length ≤ column.packLength
  whole : ¬ column.IsString → length = column.packLength

abbrev SortedPart.Stored (part : SortedPart) := {v : Bytes // v.length = part.column.packLength}

def SortedPart.decode (weight : UInt8 → UInt8) (sortString : Bytes → Bytes) (part : SortedPart) (v : part.Stored) :
    Option Bytes :=
  decodeSortKeyPart part.column.decodedType (part.column.makeSortKey weight sortString part.length v)

/-- DATETIME2 and TIMESTAMP2 values that read the same from behind, characters that are their own weights, and
prefixes with nothing but blanks behind. -/
def SortedPart.Reversible (weight : UInt8 → UInt8) (part : SortedPart) (v : part.Stored) : Prop :=
  match part.column with
  | .datetime2 _ | .timestamp2 _ => v.1.reverse = v.1
  | .binary n => v.1.drop part.length = List.replicate (n - part.length) 32
  | .latin1 n => (v.1.take part.length).map weight = v.1.take part.length ∧
      v.1.drop part.length = List.replicate (n - part.length) 32
  | _ => True

theorem flipLast_append (bs : Bytes) (b : UInt8) : flipLast (bs ++ [b]) = bs ++ [b ^^^ intSortSignFlipMask] := by
  induction bs with
  | nil => rfl
  | cons c rest ih =>
    cases rest with
    | nil => rfl
    | cons d rest => exact congrArg (c :: ·) ih

theorem flipLast_intSortKey (v : Bytes) : flipLast (intSortKey v).reverse = v := by
  cases turned : v.reverse with
  | nil =>
    rw [reverse_eq_nil_iff.mp turned]
    rfl
  | cons high rest =>
    rw [intSortKey, turned, reverse_cons, flipLast_append, UInt8.xor_assoc, UInt8.xor_self, UInt8.xor_zero,
      ← reverse_cons, ← turned, reverse_reverse]

theorem intSortKey_length (v : Bytes) : (intSortKey v).length = v.length := by
  rw [intSortKey, ← v.length_reverse]
  cases v.reverse <;> rfl

theorem decodeIntSortKey_eq {width : IntWidth} (length : src.length = width.bytes) (isSigned : Bool) :
    decodeIntSortKey src isSigned = some (if isSigned then flipLast src.reverse else src.reverse) := by
  rw [decodeIntSortKey, length]
  exact if_neg (by cases width <;> decide)

theorem decodeDatetime_eq (length : src.length ≤ datetimeMaxPackLen) :
    decodeSortKeyPart .datetime src = some src.reverse := if_pos length

theorem decodeString_eq {n len : Nat} (length : src.length = len) (inside : len ≤ n) :
    decodeSortKeyPart (.string n) src = some (src ++ List.replicate (n - len) 32) := by
  rw [decodeSortKeyPart, take_of_length_le (by omega), length]

theorem packLength_le {c : SortedColumn} (temporal : c.decodedType = .datetime) : c.packLength ≤ datetimeMaxPackLen := by
  cases c with
  | datetime | timestamp => decide
  | datetime2 fsp | timestamp2 fsp =>
    have := fsp.isLt
    simp only [SortedColumn.packLength, datetimeMaxPackLen]
    omega
  | _ => cases temporal

/- A key part with blanks behind it. -/
theorem padded_eq_iff {len : Nat} {v src : Bytes} (pad : Bytes) (inside : len ≤ v.length) (taken : src.length = len) :
    src ++ pad = v ↔ src = v.take len ∧ v.drop len = pad := by
  constructor
  · rintro rfl
    exact ⟨(take_left' taken).symm, drop_left' taken⟩
  · rintro ⟨rfl, rfl⟩
    exact take_append_drop len v

/-- Every type but the last is decoded, and a value comes out as it was stored just when it is reversible. -/
theorem sort_key_inverted_iff (weight : UInt8 → UInt8) (sortString : Bytes → Bytes) (part : SortedPart)
    (v : part.Stored) : (part.decode weight sortString v = none ↔ ∃ n, part.column = .other n) ∧
      (part.decode weight sortString v = none ∨ part.decode weight sortString v = some v.1 ↔
        part.Reversible weight v) := by
  obtain ⟨column, len, inside, whole⟩ := part
  obtain ⟨v, length⟩ := v
  replace length : v.length = column.packLength := length
  have taken : (v.take len).length = len := by
    rw [length_take]
    omega
  simp only [SortedPart.decode, SortedPart.Reversible]
  cases column with
  | integer width isUnsigned =>
    cases isUnsigned with
    | false =>
      have restored : decodeSortKeyPart (.integer false) (intSortKey v) = some v := by
        rw [decodeSortKeyPart, decodeIntSortKey_eq ((intSortKey_length v).trans length)]
        exact congrArg some (flipLast_intSortKey v)
      simp [SortedColumn.decodedType, SortedColumn.makeSortKey, restored]
    | true =>
      have restored : decodeSortKeyPart (.integer true) v.reverse = some v := by
        rw [decodeSortKeyPart, decodeIntSortKey_eq (v.length_reverse.trans length)]
        exact congrArg some v.reverse_reverse
      simp [SortedColumn.decodedType, SortedColumn.makeSortKey, restored]
  | year =>
    have restored : v.take 1 = v := take_of_length_le (le_of_eq length)
    simp [SortedColumn.decodedType, SortedColumn.makeSortKey, decodeSortKeyPart, restored]
  | date =>
    have fits : v.length = datePackLen := length
    simp [SortedColumn.decodedType, SortedColumn.makeSortKey, decodeSortKeyPart, fits]
  | datetime | timestamp =>
    have short : v.reverse.length ≤ datetimeMaxPackLen := by
      rw [length_reverse, length]
      exact packLength_le rfl
    have restored := decodeDatetime_eq short
    simp [SortedColumn.decodedType, SortedColumn.makeSortKey, restored]
  | datetime2 fsp | timestamp2 fsp =>
    have turned := decodeDatetime_eq (length.trans_le (packLength_le rfl))
    simp [SortedColumn.decodedType, SortedColumn.makeSortKey, turned]
  | binary n =>
    have decoded := decodeString_eq (n := n) taken inside
    have restored := padded_eq_iff (replicate (n - len) 32) (length ▸ inside) taken
    simp [SortedColumn.decodedType, SortedColumn.makeSortKey, decoded, restored]
  | latin1 n =>
    have weighed : ((v.take len).map weight).length = len := (length_map _).trans taken
    have decoded := decodeString_eq (n := n) weighed inside
    have restored := padded_eq_iff (replicate (n - len) 32) (length ▸ inside) weighed
    simp [-map_take, SortedColumn.decodedType, SortedColumn.makeSortKey, decoded, restored]
  | other n => simp [SortedColumn.decodedType, decodeSortKeyPart]

/- A DATETIME whose bytes are not the same from behind. -/
theorem datetime_turned_around :
    ¬ ∀ (weight : UInt8 → UInt8) (sortString : Bytes → Bytes) (part : SortedPart) (v : part.Stored),
      part.decode weight sortString v = none ∨ part.decode weight sortString v = some v.1 := by
  intro claim
  have wrong := claim id id ⟨.datetime2 0, 5, by decide, fun _ => rfl⟩ ⟨[153, 180, 0, 0, 0], rfl⟩
  exact absurd wrong (by decide)

end TidesdbMysql
