import TidesdbMysql.Base.Bytes

/-! Comparable keys: the bytes `make_comparable_key` writes for the leading parts
of a key. Every part takes a fixed number of bytes, so a key is read part by
part. -/
namespace TidesdbMysql

open Base (Bytes leBytes)
open List

variable {parts : List KeyPart}

/- A record is its columns; `none` is SQL NULL. -/
abbrev Record := List (Option Bytes)

def column (record : Record) (field : Nat) : Option Bytes := (record[field]?).join

/-- What the output buffer held before the call, at the one byte that the encoding
of a column can leave unwritten. -/
abbrev Residue := Nat → UInt8

/- A binary VARCHAR is encoded by the plugin, any other column by `Field::make_sort_key`. `weights`
are what SQL compares. -/
inductive PartKind where
  | varbinary (fieldLength : Nat)
  | sortable (makeSortKey weights : Bytes → Bytes)

def PartKind.lenBytes : PartKind → Nat
  | .varbinary fieldLength => if fieldLength < 256 then 1 else 2
  | .sortable _ _ => 0

/-- A key part. `fits` leaves out a VARBINARY prefix shorter than its length bytes, whose copy
leaves the buffer. -/
structure KeyPart where
  field : Nat
  nullable : Bool
  length : Nat
  kind : PartKind
  length_pos : 0 < length
  fits : kind.lenBytes ≤ length

structure Key where
  parts : List KeyPart
  nonempty : parts ≠ []

/- `key_part[0]` -/
def Key.first (key : Key) : KeyPart := key.parts.head key.nonempty

def sortKeyNull : UInt8 := 0
def sortKeyNotNull : UInt8 := 1

def zeroPad (width : Nat) (bs : Bytes) : Bytes :=
  bs.take width ++ List.replicate (width - bs.length) 0

@[simp] theorem zeroPad_length (width : Nat) (bs : Bytes) : (zeroPad width bs).length = width := by
  simp only [zeroPad, length_append, length_take, length_replicate]
  omega

section
variable (length lenBytes space : Nat) (residue : UInt8) (kp : KeyPart) (value : Bytes)

/- The bytes behind the data area: what did not fit there, or the length with its
high byte first. -/
def lengthArea : Bytes :=
  if space < value.length then
    (value.drop space).take lenBytes ++ List.replicate (lenBytes - (value.length - space)) residue
  else (leBytes lenBytes value.length).reverse

@[simp] theorem lengthArea_length : (lengthArea lenBytes space residue value).length = lenBytes := by
  unfold lengthArea
  split
  · simp only [length_append, length_take, length_drop, length_replicate]
    omega
  · simp

def encodeVarbinary : Bytes :=
  zeroPad (length - lenBytes) value ++ lengthArea lenBytes (length - lenBytes) residue value

def encodeValue : Bytes :=
  match kp.kind with
  | .varbinary _ => encodeVarbinary kp.length kp.kind.lenBytes residue value
  | .sortable makeSortKey _ => zeroPad kp.length (makeSortKey value)

def encodePart (value : Option Bytes) : Bytes :=
  if kp.nullable then
    match value with
    | none => sortKeyNull :: List.replicate kp.length 0
    | some v => sortKeyNotNull :: encodeValue residue kp v
  else encodeValue residue kp (value.getD [])

end

def makeComparableKey (residue : Residue) (parts : List KeyPart) (record : Record) : Bytes :=
  parts.flatMap fun kp => encodePart (residue kp.field) kp (column record kp.field)

def KeyPart.width (kp : KeyPart) : Nat := (if kp.nullable then 1 else 0) + kp.length

def maxKeyLength : Nat := 3072

def comparableKeyLength (parts : List KeyPart) : Nat := (parts.map KeyPart.width).sum

@[simp] theorem encodeValue_length (residue : UInt8) (kp : KeyPart) (value : Bytes) :
    (encodeValue residue kp value).length = kp.length := by
  have fits := kp.fits
  unfold encodeValue
  cases kind : kp.kind with
  | varbinary n =>
    rw [kind] at fits
    simp only [encodeVarbinary, length_append, zeroPad_length, lengthArea_length]
    omega
  | sortable f w => simp

@[simp] theorem encodePart_length (residue : UInt8) (kp : KeyPart) (value : Option Bytes) :
    (encodePart residue kp value).length = kp.width := by
  unfold encodePart KeyPart.width
  cases kp.nullable with
  | false => simp
  | true => cases value <;> simp [Nat.add_comm]

section
variable (ra rb : Residue) (key : Key) (residue : Residue) (parts : List KeyPart) (n : Nat) (a b : Record)
  (rest : Bytes) (record : Record)

@[simp] theorem makeComparableKey_length :
    (makeComparableKey residue parts record).length = comparableKeyLength parts := by
  simp [makeComparableKey, comparableKeyLength, length_flatMap]

theorem comparableKeyLength_pos : 0 < comparableKeyLength key.parts := by
  cases parts : key.parts with
  | nil => exact absurd parts key.nonempty
  | cons kp rest =>
    have := kp.length_pos
    simp only [comparableKeyLength, map_cons, sum_cons, KeyPart.width]
    omega

theorem makeComparableKey_eq_iff : makeComparableKey ra parts a = makeComparableKey rb parts b ↔
      ∀ kp ∈ parts, encodePart (ra kp.field) kp (column a kp.field) =
        encodePart (rb kp.field) kp (column b kp.field) := by
  induction parts with
  | nil => simp [makeComparableKey]
  | cons kp rest ih =>
    simp only [makeComparableKey, flatMap_cons, forall_mem_cons] at ih ⊢
    constructor
    · intro same
      obtain ⟨here, later⟩ := append_inj same (by simp)
      exact ⟨here, ih.mp later⟩
    · rintro ⟨here, later⟩
      rw [here, ih.mpr later]

theorem makeComparableKey_take : makeComparableKey residue parts record =
      makeComparableKey residue (parts.take n) record ++ makeComparableKey residue (parts.drop n) record := by
  simp only [makeComparableKey, ← flatMap_append, take_append_drop]

end

/- The overflow of a VARBINARY value is copied without filling its two bytes. -/
def leavesGap (kp : KeyPart) (value : Option Bytes) : Bool :=
  match kp.kind, value with
  | .varbinary _, some v =>
    decide (kp.length - kp.kind.lenBytes < v.length ∧ v.length < kp.length)
  | _, _ => false

def Settled (parts : List KeyPart) (record : Record) : Prop :=
  ∀ kp ∈ parts, leavesGap kp (column record kp.field) = false
  deriving Decidable

theorem encodeValue_settled {kp : KeyPart} {value : Bytes} (settled : leavesGap kp (some value) = false)
    (ra rb : UInt8) : encodeValue ra kp value = encodeValue rb kp value := by
  have fits := kp.fits
  unfold leavesGap at settled
  unfold encodeValue
  cases kind : kp.kind with
  | sortable f w => rfl
  | varbinary n =>
    simp only [kind, decide_eq_false_iff_not, not_and, Nat.not_lt] at settled fits
    simp only [encodeVarbinary, lengthArea]
    split
    · have none_left : (PartKind.varbinary n).lenBytes -
          (value.length - (kp.length - (PartKind.varbinary n).lenBytes)) = 0 := by omega
      rw [none_left, replicate_zero, replicate_zero]
    · rfl

theorem encodePart_settled {kp : KeyPart} {value : Option Bytes} (settled : leavesGap kp value = false)
    (ra rb : UInt8) : encodePart ra kp value = encodePart rb kp value := by
  -- an absent value of a column that is not nullable is encoded as the empty string
  have empty : leavesGap kp (some []) = false := by
    unfold leavesGap
    cases kp.kind <;> simp
  unfold encodePart
  cases value with
  | none => simp only [Option.getD_none, encodeValue_settled empty ra rb]
  | some v => simp only [Option.getD_some, encodeValue_settled settled ra rb]

theorem makeComparableKey_settled {record : Record} (settled : Settled parts record) (ra rb : Residue) :
    makeComparableKey ra parts record = makeComparableKey rb parts record := by
  rw [makeComparableKey_eq_iff]
  intro kp mem
  exact encodePart_settled (settled kp mem) _ _

theorem makeComparableKey_congr {a b : Record} (residue : Residue)
    (same : ∀ kp ∈ parts, column a kp.field = column b kp.field) :
    makeComparableKey residue parts a = makeComparableKey residue parts b := by
  rw [makeComparableKey_eq_iff]
  intro kp mem
  rw [same kp mem]

/-- What SQL compares of a value as far as a key part reaches: first bytes of a VARBINARY, else
weights. -/
def KeyPart.compared (kp : KeyPart) (value : Bytes) : Bytes :=
  match kp.kind with
  | .varbinary _ => value.take kp.length
  | .sortable _ weights => weights value

/- NULL agrees with NULL here: a lookup for NULL finds the rows that hold it. -/
def KeyPart.Same (kp : KeyPart) (v w : Option Bytes) : Prop :=
  v.map kp.compared = w.map kp.compared
  deriving Decidable

def SameKey (parts : List KeyPart) (a b : Record) : Prop :=
  ∀ kp ∈ parts, kp.Same (column a kp.field) (column b kp.field)
  deriving Decidable

end TidesdbMysql
