import TidesdbMysql.Base.Bytes
import Mathlib.Algebra.Ring.Int.Defs

/-! The byte string TidesDB records for a transaction id at prepare
(`tidesdb_xid.h`): two little-endian integers of the lengths, the format id, and
the meaningful bytes of the data buffer. -/
namespace TidesdbMysql
open Base List Option

def tdbXidDataSize : Nat := 128
def tdbXidMaxPart : Int := 64
def tdbXidHeaderSize : Nat := 16
def tdbXidMaxSerialized : Nat := tdbXidHeaderSize + tdbXidDataSize

/-- The server's XID: three `long`s and a buffer of fixed size. -/
structure Xid where
  formatId : Int
  gtridLength : Int
  bqualLength : Int
  data : Bytes
  formatId_range : -2 ^ 63 ≤ formatId ∧ formatId < 2 ^ 63
  data_size : data.length = tdbXidDataSize
  deriving DecidableEq

def Xid.payload (x : Xid) : Bytes := x.data.take (x.gtridLength + x.bqualLength).toNat

def tdbXidPutU32 (v : Nat) : Bytes := leBytes 4 v
def tdbXidGetU32 (p : Bytes) : Nat := leValue (p.take 4)

def tdbXidPutU64 (v : Nat) : Bytes :=
  tdbXidPutU32 (v % 2 ^ 32) ++ tdbXidPutU32 (v / 2 ^ 32 % 2 ^ 32)

def tdbXidGetU64 (p : Bytes) : Nat := tdbXidGetU32 p + 2 ^ 32 * tdbXidGetU32 (p.drop 4)

def tdbXidLengthsValid (gtridLen bqualLen : Int) : Bool :=
  if gtridLen < 0 ∨ bqualLen < 0 then false
  else if gtridLen > tdbXidMaxPart ∨ bqualLen > tdbXidMaxPart then false
  else (gtridLen + bqualLen).toNat ≤ tdbXidDataSize

/-- The encoding, or nothing where the source returns a count of zero. A cast to
an unsigned type is a residue. -/
def tdbXidSerialize (x : Xid) (outCap : Nat) : Option Bytes :=
  if tdbXidLengthsValid x.gtridLength x.bqualLength then
    if outCap < tdbXidHeaderSize + (x.gtridLength + x.bqualLength).toNat then none
    else some (tdbXidPutU64 (x.formatId % 2 ^ 64).toNat ++
      tdbXidPutU32 (x.gtridLength % 2 ^ 32).toNat ++
      tdbXidPutU32 (x.bqualLength % 2 ^ 32).toNat ++ x.payload)
  else none

section
variable (p bytes input : Bytes)

def headerGtrid : Int := (tdbXidGetU32 (input.drop 8) : Int).bmod (2 ^ 32)
def headerBqual : Int := (tdbXidGetU32 (input.drop 12) : Int).bmod (2 ^ 32)
def headerFormat : Int := (tdbXidGetU64 input : Int).bmod (2 ^ 64)

theorem headerFormat_range : -2 ^ 63 ≤ headerFormat input ∧ headerFormat input < 2 ^ 63 := by
  have low := Int.le_bmod (x := (tdbXidGetU64 input)) (m := 2 ^ 64) (by decide)
  have high := Int.bmod_lt (x := (tdbXidGetU64 input)) (m := 2 ^ 64) (by decide)
  unfold headerFormat
  constructor <;> omega

def zeroFilled : Bytes :=
  (bytes ++ List.replicate tdbXidDataSize 0).take tdbXidDataSize

theorem zeroFilled_length : (zeroFilled bytes).length = tdbXidDataSize := by
  simp [zeroFilled]

def tdbXidDeserialize : Option Xid :=
  if input.length < tdbXidHeaderSize then none
  else if !tdbXidLengthsValid (headerGtrid input) (headerBqual input) then none
  else if input.length ≠ tdbXidHeaderSize + (headerGtrid input + headerBqual input).toNat then none
  else some
    { formatId := headerFormat input
      gtridLength := headerGtrid input
      bqualLength := headerBqual input
      data := zeroFilled (input.drop tdbXidHeaderSize)
      formatId_range := headerFormat_range input
      data_size := zeroFilled_length _ }

theorem getU32_lt : tdbXidGetU32 p < 2 ^ 32 := by
  have bound := leValue_lt (p.take 4)
  have width : 256 ^ (p.take 4).length ≤ 256 ^ 4 :=
    Nat.pow_le_pow_right (by decide) (length_take_le 4 p)
  unfold tdbXidGetU32
  omega

end

theorem putU32_getU32 {p : Bytes} (long : 4 ≤ p.length) : tdbXidPutU32 (tdbXidGetU32 p) = p.take 4 := by
  have width : (p.take 4).length = 4 := by simp [long]
  have back := leBytes_leValue (p.take 4)
  rwa [width] at back

theorem putU64_getU64 {p : Bytes} (long : 8 ≤ p.length) : tdbXidPutU64 (tdbXidGetU64 p) = p.take 8 := by
  have low := getU32_lt p
  have high := getU32_lt (p.drop 4)
  have residue : tdbXidGetU64 p % 2 ^ 32 = tdbXidGetU32 p := by
    unfold tdbXidGetU64
    omega
  have quotient : tdbXidGetU64 p / 2 ^ 32 % 2 ^ 32 = tdbXidGetU32 (p.drop 4) := by
    unfold tdbXidGetU64
    omega
  have split : p.take 8 = p.take 4 ++ (p.drop 4).take 4 := take_add (j := 4)
  rw [tdbXidPutU64, residue, quotient, putU32_getU32 (by omega), putU32_getU32 (by simp; omega), split]

theorem bmod_residue {n m : Nat} (small : n < m) : (((n : Int).bmod m) % (m : Int)).toNat = n := by
  rw [Int.bmod_emod, Int.emod_eq_of_lt (by omega) (by omega), Int.toNat_natCast]

theorem lengthsValid_iff (g b : Int) : tdbXidLengthsValid g b = true ↔ 0 ≤ g ∧ g ≤ 64 ∧ 0 ≤ b ∧ b ≤ 64 := by
  unfold tdbXidLengthsValid tdbXidMaxPart tdbXidDataSize
  split
  · simp; omega
  split
  · simp; omega
  · simp; omega

variable {input : Bytes} {bytes : Bytes} {x : Xid} {outCap : Nat}

theorem put_headerFormat (header : 16 ≤ input.length) :
    tdbXidPutU64 (headerFormat input % 2 ^ 64).toNat = input.take 8 := by
  have low := getU32_lt input
  have high := getU32_lt (input.drop 4)
  have small : tdbXidGetU64 input < 18446744073709551616 := by
    unfold tdbXidGetU64
    omega
  have residue : (headerFormat input % 2 ^ 64).toNat = tdbXidGetU64 input := bmod_residue small
  rw [residue, putU64_getU64 (by omega)]

theorem put_headerGtrid (header : 16 ≤ input.length) :
    tdbXidPutU32 (headerGtrid input % 2 ^ 32).toNat = (input.drop 8).take 4 := by
  have residue : (headerGtrid input % 2 ^ 32).toNat = tdbXidGetU32 (input.drop 8) :=
    bmod_residue (getU32_lt _)
  rw [residue, putU32_getU32 (by simp; omega)]

theorem put_headerBqual (header : 16 ≤ input.length) :
    tdbXidPutU32 (headerBqual input % 2 ^ 32).toNat = (input.drop 12).take 4 := by
  have residue : (headerBqual input % 2 ^ 32).toNat = tdbXidGetU32 (input.drop 12) :=
    bmod_residue (getU32_lt _)
  rw [residue, putU32_getU32 (by simp; omega)]

theorem take_zeroFilled (fits : bytes.length ≤ tdbXidDataSize) : (zeroFilled bytes).take bytes.length = bytes := by
  rw [zeroFilled, take_take, min_eq_left fits, take_left]

theorem header_append_payload (input : Bytes) :
    input.take 8 ++ (input.drop 8).take 4 ++ (input.drop 12).take 4 ++ input.drop 16 = input := by
  have first : input.take 12 = input.take 8 ++ (input.drop 8).take 4 := take_add (j := 4)
  have second : input.take 16 = input.take 12 ++ (input.drop 12).take 4 := take_add (j := 4)
  rw [← first, ← second, take_append_drop]

theorem deserialize_length_le (accepted : tdbXidDeserialize input = some x) : input.length ≤ tdbXidMaxSerialized := by
  unfold tdbXidDeserialize at accepted
  simp only [ite_none_left_eq_some, Bool.not_eq_true', Bool.not_eq_false, ne_eq, not_not] at accepted
  obtain ⟨-, lengths, exact, -⟩ := accepted
  have bounds := (lengthsValid_iff _ _).mp lengths
  rw [exact, tdbXidMaxSerialized, tdbXidDataSize]
  omega

theorem serialize_of_deserialize (accepted : tdbXidDeserialize input = some x) (room : input.length ≤ outCap) :
    tdbXidSerialize x outCap = some input := by
  unfold tdbXidDeserialize at accepted
  simp only [ite_none_left_eq_some, some.injEq, not_lt, Bool.not_eq_true',
    Bool.not_eq_false, ne_eq, not_not] at accepted
  obtain ⟨header, lengths, exact, rfl⟩ := accepted
  have short : (input.drop tdbXidHeaderSize).length = (headerGtrid input + headerBqual input).toNat := by
    rw [length_drop, exact, Nat.add_sub_cancel_left]
  have fits : (input.drop tdbXidHeaderSize).length ≤ tdbXidDataSize := by
    have bounds := (lengthsValid_iff _ _).mp lengths
    rw [short, tdbXidDataSize]
    omega
  have payload : (zeroFilled (input.drop tdbXidHeaderSize)).take
      (headerGtrid input + headerBqual input).toNat = input.drop tdbXidHeaderSize := by
    rw [← short, take_zeroFilled fits]
  simp only [tdbXidSerialize, lengths, if_true, Xid.payload, payload, put_headerFormat header,
    put_headerGtrid header, put_headerBqual header]
  rw [if_neg (by omega)]
  exact congrArg some (header_append_payload input)


theorem getU32_putU32 {v : Nat} (small : v < 2 ^ 32) (rest : Bytes) : tdbXidGetU32 (tdbXidPutU32 v ++ rest) = v := by
  have first : (tdbXidPutU32 v ++ rest).take 4 = leBytes 4 v := take_left' (leBytes_length 4 v)
  rw [tdbXidGetU32, first, leValue_leBytes]
  exact Nat.mod_eq_of_lt small

theorem getU64_putU64 {v : Nat} (small : v < 2 ^ 64) (rest : Bytes) : tdbXidGetU64 (tdbXidPutU64 v ++ rest) = v := by
  have second : (tdbXidPutU64 v ++ rest).drop 4 = tdbXidPutU32 (v / 2 ^ 32 % 2 ^ 32) ++ rest := by
    rw [tdbXidPutU64, append_assoc]
    exact drop_left' (leBytes_length 4 _)
  rw [tdbXidGetU64, second, tdbXidPutU64, append_assoc, getU32_putU32 (by omega), getU32_putU32 (by omega)]
  omega

theorem residue_bmod {i : Int} {width : Nat} (low : -2 ^ width ≤ i * 2) (high : i * 2 < 2 ^ width) :
    (((i % 2 ^ width).toNat : Nat) : Int).bmod (2 ^ width) = i := by
  have cast : ((2 ^ width : Nat) : Int) = 2 ^ width := by push_cast; rfl
  rw [Int.toNat_of_nonneg (Int.emod_nonneg i (by omega)), ← cast, Int.emod_bmod]
  exact Int.bmod_eq_of_le_mul_two (by rw [cast]; exact low) (by rw [cast]; exact high)

theorem lengthField_back {n : Int} (low : 0 ≤ n) (high : n ≤ 64) (rest : Bytes) :
    (tdbXidGetU32 (tdbXidPutU32 (n % 2 ^ 32).toNat ++ rest) : Int).bmod (2 ^ 32) = n := by
  rw [getU32_putU32 (by omega)]
  exact residue_bmod (by omega) (by omega)

def Xid.header (x : Xid) : Bytes :=
  tdbXidPutU64 (x.formatId % 2 ^ 64).toNat ++ tdbXidPutU32 (x.gtridLength % 2 ^ 32).toNat ++
    tdbXidPutU32 (x.bqualLength % 2 ^ 32).toNat

theorem Xid.header_length (x : Xid) : x.header.length = tdbXidHeaderSize := by
  simp [Xid.header, tdbXidPutU64, tdbXidPutU32, tdbXidHeaderSize]

theorem Xid.payload_length (valid : tdbXidLengthsValid x.gtridLength x.bqualLength = true) :
    x.payload.length = (x.gtridLength + x.bqualLength).toNat := by
  have bounds := (lengthsValid_iff _ _).mp valid
  have size : x.data.length = 128 := x.data_size
  rw [Xid.payload, length_take]
  omega

theorem payload_fits (x : Xid) : x.payload.length ≤ tdbXidDataSize := by
  rw [← x.data_size]
  exact length_take_le' _ _

theorem zeroFilled_eq (fits : bytes.length ≤ tdbXidDataSize) :
    zeroFilled bytes = bytes ++ List.replicate (tdbXidDataSize - bytes.length) 0 := by
  rw [zeroFilled, take_append, take_of_length_le fits, take_replicate, min_eq_left (Nat.sub_le _ _)]

theorem serialize_eq_some : tdbXidSerialize x outCap = some bytes ↔
      tdbXidLengthsValid x.gtridLength x.bqualLength = true ∧
        tdbXidHeaderSize + (x.gtridLength + x.bqualLength).toNat ≤ outCap ∧ bytes = x.header ++ x.payload := by
  unfold tdbXidSerialize Xid.header
  split
  · rename_i valid
    split
    · simp only [reduceCtorEq, false_iff, not_and]
      omega
    · rename_i room
      simp only [some.injEq, valid, true_and, Nat.le_of_not_lt room, eq_comm]
  · rename_i invalid
    simp [invalid]

theorem headerFormat_encoded (x : Xid) (rest : Bytes) : headerFormat (x.header ++ rest) = x.formatId := by
  have range := x.formatId_range
  have field : tdbXidGetU64 (x.header ++ rest) = (x.formatId % 2 ^ 64).toNat := by
    rw [Xid.header, append_assoc, append_assoc]
    exact getU64_putU64 (by omega) _
  unfold headerFormat
  rw [field]
  exact residue_bmod (by omega) (by omega)

theorem headerGtrid_encoded (valid : tdbXidLengthsValid x.gtridLength x.bqualLength = true)
    (rest : Bytes) : headerGtrid (x.header ++ rest) = x.gtridLength := by
  obtain ⟨low, high, -, -⟩ := (lengthsValid_iff _ _).mp valid
  have tail : (x.header ++ rest).drop 8 = tdbXidPutU32 (x.gtridLength % 2 ^ 32).toNat ++
      (tdbXidPutU32 (x.bqualLength % 2 ^ 32).toNat ++ rest) := by
    rw [Xid.header, append_assoc, append_assoc]
    exact drop_left' (by simp [tdbXidPutU64, tdbXidPutU32])
  unfold headerGtrid
  rw [tail]
  exact lengthField_back low high _

theorem headerBqual_encoded (valid : tdbXidLengthsValid x.gtridLength x.bqualLength = true)
    (rest : Bytes) : headerBqual (x.header ++ rest) = x.bqualLength := by
  obtain ⟨-, -, low, high⟩ := (lengthsValid_iff _ _).mp valid
  have tail : (x.header ++ rest).drop 12 = tdbXidPutU32 (x.bqualLength % 2 ^ 32).toNat ++ rest := by
    rw [Xid.header, append_assoc]
    exact drop_left' (by simp [tdbXidPutU64, tdbXidPutU32])
  unfold headerBqual
  rw [tail]
  exact lengthField_back low high _

/-- What a well-formed XID becomes on its way through the log: the same but for the
tail of the data buffer, which is zeroed. -/
def Xid.canonical (x : Xid) : Xid :=
  { x with data := zeroFilled x.payload, data_size := zeroFilled_length _ }

theorem deserialize_of_serialize
    (encoded : tdbXidSerialize x outCap = some bytes) : tdbXidDeserialize bytes = some x.canonical := by
  obtain ⟨valid, -, rfl⟩ := serialize_eq_some.mp encoded
  have total : (x.header ++ x.payload).length = tdbXidHeaderSize + (x.gtridLength + x.bqualLength).toNat := by
    rw [length_append, Xid.header_length, Xid.payload_length valid]
  have rest : (x.header ++ x.payload).drop tdbXidHeaderSize = x.payload :=
    drop_left' x.header_length
  simp only [tdbXidDeserialize, headerFormat_encoded, headerGtrid_encoded valid,
    headerBqual_encoded valid, total, rest, valid]
  rw [if_neg (by omega), if_neg (by simp), if_neg (by simp)]
  rfl

/-- The parts of an XID that name a transaction. -/
def Xid.SameIdentity (x y : Xid) : Prop :=
  x.formatId = y.formatId ∧ x.gtridLength = y.gtridLength ∧ x.bqualLength = y.bqualLength ∧
    x.payload = y.payload

theorem encoding_eq_iff {x y : Xid} (xValid : tdbXidLengthsValid x.gtridLength x.bqualLength = true)
    (yValid : tdbXidLengthsValid y.gtridLength y.bqualLength = true) :
    x.header ++ x.payload = y.header ++ y.payload ↔ x.SameIdentity y := by
  constructor
  · intro same
    have format := congrArg headerFormat same
    have gtrid := congrArg headerGtrid same
    have bqual := congrArg headerBqual same
    rw [headerFormat_encoded, headerFormat_encoded] at format
    rw [headerGtrid_encoded xValid, headerGtrid_encoded yValid] at gtrid
    rw [headerBqual_encoded xValid, headerBqual_encoded yValid] at bqual
    have sizes : x.header.length = y.header.length := by rw [x.header_length, y.header_length]
    exact ⟨format, gtrid, bqual, (append_inj same sizes).2⟩
  · rintro ⟨format, gtrid, bqual, payload⟩
    rw [Xid.header, Xid.header, format, gtrid, bqual, payload]

/- The decoder over checked memory: an access that leaves the input has no result at
all, which is not the same as a rejected input. -/

def readAt (input : Bytes) (offset count : Nat) : Option Bytes :=
  if offset + count ≤ input.length then some ((input.drop offset).take count) else none

def signedU32 (p : Bytes) : Int := (tdbXidGetU32 p : Int).bmod (2 ^ 32)

def tdbXidDeserializeChecked (input : Bytes) : Option (Option Xid) :=
  if input.length < tdbXidHeaderSize then some none
  else
    (readAt input 8 4).bind fun gtrid =>
    (readAt input 12 4).bind fun bqual =>
    let g := signedU32 gtrid
    let b := signedU32 bqual
    if !tdbXidLengthsValid g b then some none
    else if input.length ≠ tdbXidHeaderSize + (g + b).toNat then some none
    else
      (readAt input 0 8).bind fun format =>
      (readAt input tdbXidHeaderSize (g + b).toNat).bind fun payload =>
      some (some
        { formatId := headerFormat format
          gtridLength := g
          bqualLength := b
          data := zeroFilled payload
          formatId_range := headerFormat_range format
          data_size := zeroFilled_length payload })

theorem getU32_take (p : Bytes) : tdbXidGetU32 (p.take 4) = tdbXidGetU32 p := by
  rw [tdbXidGetU32, take_take, tdbXidGetU32, min_self]

theorem signedU32_take (p : Bytes) : signedU32 (p.take 4) = signedU32 p := by
  unfold signedU32
  rw [getU32_take]

theorem headerFormat_take (p : Bytes) : headerFormat (p.take 8) = headerFormat p := by
  have low : tdbXidGetU32 (p.take 8) = tdbXidGetU32 p := by
    rw [tdbXidGetU32, take_take, tdbXidGetU32]
    rfl
  have high : tdbXidGetU32 ((p.take 8).drop 4) = tdbXidGetU32 (p.drop 4) := by
    rw [drop_take, getU32_take]
  have whole : tdbXidGetU64 (p.take 8) = tdbXidGetU64 p := by
    rw [tdbXidGetU64, low, high, tdbXidGetU64]
  unfold headerFormat
  rw [whole]

theorem readAt_inside {offset count : Nat} (inside : offset + count ≤ input.length) :
    readAt input offset count = some ((input.drop offset).take count) := by
  rw [readAt, if_pos inside]

theorem deserializeChecked_eq (input : Bytes) : tdbXidDeserializeChecked input = some (tdbXidDeserialize input) := by
  unfold tdbXidDeserializeChecked tdbXidDeserialize
  by_cases short : input.length < tdbXidHeaderSize
  · rw [if_pos short, if_pos short]
  · have header : 16 ≤ input.length := Nat.le_of_not_lt short
    have gtrid : signedU32 ((input.drop 8).take 4) = headerGtrid input := by
      rw [signedU32_take]
      unfold signedU32
      rfl
    have bqual : signedU32 ((input.drop 12).take 4) = headerBqual input := by
      rw [signedU32_take]
      unfold signedU32
      rfl
    rw [if_neg short, if_neg short, readAt_inside (by omega), bind_some,
      readAt_inside (by omega), bind_some, gtrid, bqual]
    by_cases invalid : (!tdbXidLengthsValid (headerGtrid input) (headerBqual input)) = true
    · rw [if_pos invalid, if_pos invalid]
    rw [if_neg invalid, if_neg invalid]
    by_cases wrong : input.length ≠ tdbXidHeaderSize + (headerGtrid input + headerBqual input).toNat
    · rw [if_pos wrong, if_pos wrong]
    have payload : (input.drop tdbXidHeaderSize).take (headerGtrid input + headerBqual input).toNat =
        input.drop tdbXidHeaderSize := take_of_length_le (by rw [length_drop]; omega)
    have format : headerFormat ((input.drop 0).take 8) = headerFormat input := headerFormat_take input
    rw [if_neg wrong, if_neg wrong, readAt_inside (by omega), bind_some, readAt_inside (by omega), bind_some, payload]
    simp only [format]

/-- The wire format and the strings it accepts stand in a bijection. -/
theorem xid_wire_bijection :
    (∀ (x : Xid) (outCap : Nat), tdbXidHeaderSize + (x.gtridLength + x.bqualLength).toNat ≤ outCap →
      ((tdbXidSerialize x outCap).isSome = true ↔
        0 ≤ x.gtridLength ∧ x.gtridLength ≤ 64 ∧ 0 ≤ x.bqualLength ∧ x.bqualLength ≤ 64)) ∧
    (∀ (x : Xid) (outCap : Nat) (bytes : Bytes), tdbXidSerialize x outCap = some bytes →
      bytes.length ≤ outCap ∧ ∃ y, tdbXidDeserialize bytes = some y ∧ y.formatId = x.formatId ∧
        y.gtridLength = x.gtridLength ∧ y.bqualLength = x.bqualLength ∧
        y.data = x.payload ++ List.replicate (tdbXidDataSize - x.payload.length) 0) ∧
    (∀ (x y : Xid) (outCap : Nat), tdbXidLengthsValid x.gtridLength x.bqualLength = true →
      tdbXidLengthsValid y.gtridLength y.bqualLength = true → tdbXidMaxSerialized ≤ outCap →
      (tdbXidSerialize x outCap = tdbXidSerialize y outCap ↔ x.SameIdentity y)) ∧
    (∀ (input : Bytes) (y : Xid), tdbXidDeserialize input = some y → tdbXidSerialize y input.length = some input) ∧
    (∀ input : Bytes, (¬ ∃ x outCap, tdbXidSerialize x outCap = some input) → tdbXidDeserialize input = none) ∧
    ∀ input : Bytes, tdbXidDeserializeChecked input = some (tdbXidDeserialize input) := by
  refine ⟨?_, ?_, ?_, ?_, ?_, deserializeChecked_eq⟩
  · intro x outCap room
    rw [isSome_iff_exists, ← lengthsValid_iff]
    constructor
    · rintro ⟨bytes, encoded⟩
      exact (serialize_eq_some.mp encoded).1
    · intro valid
      exact ⟨_, serialize_eq_some.mpr ⟨valid, room, rfl⟩⟩
  · intro x outCap bytes encoded
    obtain ⟨valid, room, rfl⟩ := serialize_eq_some.mp encoded
    refine ⟨?_, x.canonical, deserialize_of_serialize encoded, rfl, rfl, rfl, ?_⟩
    · rw [length_append, Xid.header_length, Xid.payload_length valid]
      exact room
    · exact zeroFilled_eq (payload_fits x)
  · intro x y outCap xValid yValid room
    have encoded : ∀ z : Xid, tdbXidLengthsValid z.gtridLength z.bqualLength = true →
        tdbXidSerialize z outCap = some (z.header ++ z.payload) := by
      intro z valid
      have bounds := (lengthsValid_iff _ _).mp valid
      refine serialize_eq_some.mpr ⟨valid, Nat.le_trans ?_ room, rfl⟩
      unfold tdbXidMaxSerialized tdbXidDataSize
      omega
    rw [encoded x xValid, encoded y yValid, some.injEq, encoding_eq_iff xValid yValid]
  · intro input y accepted
    exact serialize_of_deserialize accepted (Nat.le_refl _)
  · intro input foreign
    cases accepted : tdbXidDeserialize input with
    | none => rfl
    | some y => exact absurd ⟨y, _, serialize_of_deserialize accepted (Nat.le_refl _)⟩ foreign

def branchXid : Xid :=
  { formatId := -1, gtridLength := 3, bqualLength := 2
    data := [0x61, 0x62, 0x63, 1, 2] ++ List.replicate 123 0xff
    formatId_range := by decide
    data_size := rfl }

def branchBytes : Bytes :=
  [0xff, 0xff, 0xff, 0xff, 0xff, 0xff, 0xff, 0xff, 3, 0, 0, 0, 2, 0, 0, 0, 0x61, 0x62, 0x63, 1, 2]

theorem xid_wire_bijection_branch : (tdbXidSerialize branchXid 21).isSome = true ∧
    (∃ y, tdbXidDeserialize branchBytes = some y ∧ y.formatId = -1 ∧
      y.data = [0x61, 0x62, 0x63, 1, 2] ++ List.replicate 123 0) ∧
    tdbXidSerialize branchXid 144 = tdbXidSerialize branchXid.canonical 144 ∧
    tdbXidSerialize branchXid.canonical 21 = some branchBytes ∧ tdbXidDeserialize (branchBytes.take 20) = none := by
  refine ⟨(xid_wire_bijection.1 branchXid 21 (by decide)).mpr (by decide), ?_,
    (xid_wire_bijection.2.2.1 branchXid branchXid.canonical 144 (by decide) (by decide)
      (by decide)).mpr ⟨rfl, rfl, rfl, by decide⟩,
    xid_wire_bijection.2.2.2.1 branchBytes branchXid.canonical (by decide),
    xid_wire_bijection.2.2.2.2.1 (branchBytes.take 20) ?_⟩
  · obtain ⟨-, y, decoded, format, -, -, data⟩ :=
      xid_wire_bijection.2.1 branchXid 21 branchBytes (by decide)
    exact ⟨y, decoded, format, data.trans (by decide)⟩
  · rintro ⟨x, outCap, encoded⟩
    have rejected : tdbXidDeserialize (branchBytes.take 20) = none := by decide
    have accepted := deserialize_of_serialize encoded
    rw [rejected] at accepted
    cases accepted

end TidesdbMysql
