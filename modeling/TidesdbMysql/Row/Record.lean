import TidesdbMysql.Base.Region
import TidesdbMysql.Row.Format

/-! `serialize_row` and `deserialize_row` on the record buffer itself: columns at their offsets, raw copies and
`Field::pack` side by side. `Row/Format` is the same row seen column by column. -/
namespace TidesdbMysql

open Base (Bytes leBytes leValue slice patch Apart)
open List

variable {rec rec' prior : RecordBuf} {accept : ColumnType → Bytes → Prop} {t : ColumnType}

/-- `Field::real_type()`. -/
inductive RealType where
  | decimal | tiny | short | long | float | double | null | timestamp | longlong | int24 | date | time | datetime
  | year | newdate | varchar | bit | timestamp2 | datetime2 | time2 | typedArray | json | newdecimal | enum | set
  | tinyBlob | mediumBlob | longBlob | blob | varString | string | geometry
  deriving DecidableEq

inductive FieldCodecCategory where
  | memcpy | generic
  deriving DecidableEq

def classifyFieldCodec : RealType → FieldCodecCategory
  | .tiny | .short | .long | .longlong | .int24 | .float | .double | .year | .newdate | .datetime2 | .timestamp2
  | .time2 => .memcpy
  | _ => .generic

/-- A column in a record: its own bytes, and for a BLOB what its pointer leads to. -/
structure Slot where
  bytes : Bytes
  blob : Bytes

/-- `Field::pack` and `Field::unpack` on a slot: unpacking is not told where the stored row ends. -/
structure FieldOps where
  codec : Codec
  lenBytes : Nat
  bodyLen : Bytes → Nat
  decode : Bytes → Bytes
  value : Slot → Bytes
  store : Bytes → Slot → Slot
  unpack_eq : ∀ d, codec.unpack d =
    if lenBytes + bodyLen (d.take lenBytes) ≤ d.length then
      some (decode (d.take (lenBytes + bodyLen (d.take lenBytes))), d.drop (lenBytes + bodyLen (d.take lenBytes)))
    else none
  value_store : ∀ v slot, codec.Fits v → value (store v slot) = v

/- The number of bytes `Field::unpack` reads. -/
def FieldOps.need (ops : FieldOps) (memory : Bytes) : Nat := ops.lenBytes + ops.bodyLen (memory.take ops.lenBytes)

/-- A column type as laid out: packed it has at most two bytes more than its slot, and the data of a
BLOB beside. -/
structure ColumnType where
  realType : RealType
  packLength : Nat
  isBlob : Bool
  ops : FieldOps
  fixed_pos : classifyFieldCodec realType = .memcpy → 0 < packLength
  store_length : ∀ v slot, ops.codec.Fits v → slot.bytes.length = packLength →
    (ops.store v slot).bytes.length = packLength
  pack_le : ∀ slot, slot.bytes.length = packLength → ops.codec.Fits (ops.value slot) →
    (ops.codec.pack (ops.value slot)).length ≤ packLength + 2 + if isBlob then slot.blob.length else 0

def rawCodec (n : Nat) (pos : 0 < n) : Codec where
  Fits v := v.length = n
  pack v := v
  unpack d := if d.length < n then none else some (d.take n, d.drop n)
  nonempty v fits := by
    rintro rfl
    exact absurd fits (Nat.ne_of_lt pos)
  inverts v rest fits := by
    have long : ¬ (v ++ rest).length < n := by
      rw [List.length_append]
      omega
    rw [if_neg long, List.take_left' fits, List.drop_left' fits]

theorem rawCodec_unpack (n : Nat) (pos : 0 < n) (d : Bytes) :
    (rawCodec n pos).unpack d = if d.length < n then none else some (d.take n, d.drop n) := rfl

namespace ColumnType

def codec (t : ColumnType) : Codec :=
  if fixed : classifyFieldCodec t.realType = .memcpy then rawCodec t.packLength (t.fixed_pos fixed) else t.ops.codec

def cell (t : ColumnType) (x : Slot) : Bytes :=
  match classifyFieldCodec t.realType with
  | .memcpy => x.bytes
  | .generic => t.ops.value x

end ColumnType

/-- `table->record[0]` or another record of the table. -/
structure RecordBuf where
  bytes : Bytes
  blob : Nat → Bytes

def RecordBuf.slot (rec : RecordBuf) (off i : Nat) (t : ColumnType) : Slot := ⟨slice rec.bytes off t.packLength, rec.blob i⟩

def RecordBuf.put (rec : RecordBuf) (off i : Nat) (x : Slot) : RecordBuf :=
  ⟨patch rec.bytes off x.bytes, Function.update rec.blob i x.blob⟩

/- The values from column `i` on. -/
def cellsOf (offset : Nat → Nat) (rec : RecordBuf) : Nat → List (FieldDef ColumnType) → List Bytes
  | _, [] => []
  | i, f :: fs => f.type.cell (rec.slot (offset i) i f.type) :: cellsOf offset rec (i + 1) fs

/-- Where the columns of a table stand in its records: behind the null bytes and clear of each other. -/
structure RecordLayout where
  schema : RowSchema ColumnType
  offset : Nat → Nat
  reclength : Nat
  defaultValues : RecordBuf
  inside : ∀ (i : Nat) (f : FieldDef ColumnType), schema.fields[i]? = some f →
    schema.nullBytes ≤ offset i ∧ offset i + f.type.packLength ≤ reclength
  apart : ∀ (i j : Nat) (f g : FieldDef ColumnType), schema.fields[i]? = some f → schema.fields[j]? = some g → i ≠ j →
    Apart (offset i) f.type.packLength (offset j) g.type.packLength
  null_room : schema.nullBytes ≤ reclength
  small : reclength < 65536
  default_length : defaultValues.bytes.length = reclength
  defaults_eq : schema.defaults =
    ⟨defaultValues.bytes.take schema.nullBytes, cellsOf offset defaultValues 0 schema.fields⟩

def RecordLayout.image (L : RecordLayout) (rec : RecordBuf) : RowBuf :=
  ⟨rec.bytes.take L.schema.nullBytes, cellsOf L.offset rec 0 L.schema.fields⟩

/-- An entry of `field_codecs`, with the widths it has in the source. -/
structure FieldCodecEntry where
  offset : Nat
  packLength : Nat
  category : FieldCodecCategory

def RecordLayout.fieldCodec (L : RecordLayout) (i : Nat) (f : FieldDef ColumnType) : FieldCodecEntry :=
  ⟨L.offset i % 4294967296, f.type.packLength % 65536, classifyFieldCodec f.type.realType⟩

def fieldVarcharLenPrefix : Nat := 2

section Serialize

variable (L : RecordLayout) (rec : RecordBuf)

/- The pack loop of `serialize_row`. -/
def packRecord : Nat → List (FieldDef ColumnType) → Bytes
  | _, [] => []
  | i, f :: fs =>
    (if f.isNull rec.bytes then []
    else
      let fce := L.fieldCodec i f
      match fce.category with
      | .memcpy => slice rec.bytes fce.offset fce.packLength
      | .generic => f.type.ops.codec.pack (f.type.ops.value (rec.slot fce.offset i f.type))) ++
    packRecord (i + 1) fs

/-- `serialize_row` up to the encryption. -/
def serializeRecord : Bytes :=
  rowHeaderMagic :: (leBytes 2 L.schema.nullBytes ++ (leBytes 2 L.schema.fields.length ++
    (rec.bytes.take L.schema.nullBytes ++ packRecord L rec 0 L.schema.fields)))

def baseEst : Nat :=
  rowHeaderSize + L.schema.nullBytes + L.reclength + fieldVarcharLenPrefix * L.schema.fields.length

def hasBlobs : Bool := L.schema.fields.any fun f => f.type.isBlob

def blobLengths : Nat → List (FieldDef ColumnType) → Nat
  | _, [] => 0
  | i, f :: fs =>
    (if f.type.isBlob = true ∧ f.isNull rec.bytes = false then (rec.blob i).length else 0) + blobLengths (i + 1) fs

/-- The size of the buffer, and `cached_row_est` as it is left. -/
def rowEst (cached : Nat) : Nat × Nat :=
  let est := if cached = 0 then baseEst L else cached
  (if hasBlobs L then est + blobLengths rec 0 L.schema.fields else est,
    if cached = 0 ∧ hasBlobs L = false then est else cached)

end Serialize

section Deserialize

variable (L : RecordLayout) (beyond : Bytes)

/- The unpack loop, with what is left of the row, what lies behind it in memory, and how far it has been read. -/
def unpackRecord : Nat → List (FieldDef ColumnType) → RecordBuf → Bytes → Nat → RecordBuf × Nat
  | _, [], rec, _, pos => (rec, pos)
  | i, f :: fs, rec, data, pos =>
    if f.isNull rec.bytes then unpackRecord (i + 1) fs rec data pos
    else if data = [] then (rec, pos)
    else
      let fce := L.fieldCodec i f
      match fce.category with
      | .memcpy =>
        if data.length < fce.packLength then (rec, pos)
        else
          unpackRecord (i + 1) fs { rec with bytes := patch rec.bytes fce.offset (data.take fce.packLength) }
            (data.drop fce.packLength) (pos + fce.packLength)
      | .generic =>
        let n := f.type.ops.need (data ++ beyond)
        unpackRecord (i + 1) fs
          (rec.put fce.offset i (f.type.ops.store (f.type.ops.decode ((data ++ beyond).take n)) (rec.slot fce.offset i f.type)))
          (data.drop n) (pos + n)

/- Columns the row does not have take the bytes and the null bit of the default record. -/
def fillDefaults : Nat → List (FieldDef ColumnType) → RecordBuf → RecordBuf
  | _, [], rec => rec
  | i, f :: fs, rec =>
    let copied := rec.put (L.offset i) i (L.defaultValues.slot (L.offset i) i f.type)
    fillDefaults (i + 1) fs
      (match f.nullPos with
      | none => copied
      | some pos => { copied with bytes := putNullBit copied.bytes pos (f.isNull L.defaultValues.bytes) })

def storedNullBytes (data : Bytes) : Nat := leValue ((data.drop 1).take 2)
def storedFields (data : Bytes) : Nat := leValue ((data.drop 3).take 2)

/-- `deserialize_row` of a plain row into a record that held `prior`; the second part is how far it has read. -/
def deserializeRecord (data : Bytes) (prior : RecordBuf) : RecordBuf × Nat :=
  if data.length < rowHeaderSize ∨ data.head? ≠ some rowHeaderMagic then
    (⟨List.replicate L.reclength 0, fun _ => []⟩, 0)
  else
    let body := data.drop rowHeaderSize
    if body.length < storedNullBytes data then (prior, rowHeaderSize)
    else
      let copyNb := min (storedNullBytes data) L.schema.nullBytes
      let copied := patch prior.bytes 0
        (body.take copyNb ++ slice L.defaultValues.bytes copyNb (L.schema.nullBytes - copyNb))
      let filled := fillDefaults L (storedFields data) (L.schema.fields.drop (storedFields data))
        { prior with bytes := copied }
      unpackRecord L beyond 0 (L.schema.fields.take (storedFields data)) filled (body.drop (storedNullBytes data))
        (rowHeaderSize + storedNullBytes data)

end Deserialize

section Layout

variable {L : RecordLayout} {i : Nat} {f : FieldDef ColumnType} {rec : RecordBuf}

theorem fieldCodec_eq (here : L.schema.fields[i]? = some f) :
    L.fieldCodec i f = ⟨L.offset i, f.type.packLength, classifyFieldCodec f.type.realType⟩ := by
  have bounds := L.inside i f here
  have small := L.small
  rw [RecordLayout.fieldCodec, Nat.mod_eq_of_lt (by omega), Nat.mod_eq_of_lt (by omega)]

theorem isNull_take (here : L.schema.fields[i]? = some f) (bytes : Bytes) :
    f.isNull (bytes.take L.schema.nullBytes) = f.isNull bytes := by
  unfold FieldDef.isNull
  cases pos : f.nullPos with
  | none => rfl
  | some p =>
    have inside := L.schema.null_inside f (mem_of_getElem? here) p pos
    simp only [nullBitSet, getD_eq_getElem?_getD, getElem?_take_of_lt inside]

theorem length_slot (here : L.schema.fields[i]? = some f) (sized : rec.bytes.length = L.reclength) :
    (rec.slot (L.offset i) i f.type).bytes.length = f.type.packLength := by
  apply Base.length_slice
  rw [sized]
  exact (L.inside i f here).2

theorem codec_fixed (fixed : classifyFieldCodec t.realType = .memcpy) :
    t.codec = rawCodec t.packLength (t.fixed_pos fixed) := dif_pos fixed

theorem codec_generic (generic : classifyFieldCodec t.realType = .generic) : t.codec = t.ops.codec := by
  apply dif_neg
  rw [generic]
  decide

structure Replaces (L : RecordLayout) (i : Nat) (f : FieldDef ColumnType) (x : Slot) (rec rec' : RecordBuf) : Prop where
  length : rec'.bytes.length = rec.bytes.length
  nulls : rec'.bytes.take L.schema.nullBytes = rec.bytes.take L.schema.nullBytes
  here : rec'.slot (L.offset i) i f.type = x
  others : ∀ j g, L.schema.fields[j]? = some g → j ≠ i →
    rec'.slot (L.offset j) j g.type = rec.slot (L.offset j) j g.type

theorem replaces_put (here : L.schema.fields[i]? = some f) (sized : rec.bytes.length = L.reclength) {x : Slot}
    (size : x.bytes.length = f.type.packLength) : Replaces L i f x rec (rec.put (L.offset i) i x) := by
  have bounds := L.inside i f here
  have inside : L.offset i + x.bytes.length ≤ rec.bytes.length := by
    rw [sized, size]
    exact bounds.2
  constructor
  · exact Base.length_patch inside
  · have front : slice (patch rec.bytes (L.offset i) x.bytes) 0 L.schema.nullBytes =
        slice rec.bytes 0 L.schema.nullBytes := Base.slice_patch_apart inside (.inr (by omega))
    rwa [Base.slice_zero, Base.slice_zero] at front
  · unfold RecordBuf.slot RecordBuf.put
    dsimp only
    rw [Base.slice_patch_self size (size ▸ inside), Function.update_self]
  · intro j g there other
    unfold RecordBuf.slot RecordBuf.put
    dsimp only
    rw [Base.slice_patch_apart inside, Function.update_of_ne other]
    rw [size]
    exact L.apart i j f g here there (Ne.symm other)

theorem cellsOf_congr {offset : Nat → Nat} {fs : List (FieldDef ColumnType)}
    (same : ∀ n f, fs[n]? = some f → rec'.slot (offset (i + n)) (i + n) f.type = rec.slot (offset (i + n)) (i + n) f.type) :
    cellsOf offset rec' i fs = cellsOf offset rec i fs := by
  induction fs generalizing i with
  | nil => rfl
  | cons f fs ih =>
    have first := same 0 f rfl
    rw [Nat.add_zero] at first
    rw [cellsOf, cellsOf, first]
    refine congrArg _ (ih fun n g there => ?_)
    have later := same (n + 1) g there
    rwa [Nat.add_comm n 1, ← Nat.add_assoc] at later

end Layout

section Pack

variable {L : RecordLayout} {rec : RecordBuf}

theorem packRecord_eq {i : Nat} {fs : List (FieldDef ColumnType)} (at_i : ∀ n, L.schema.fields[i + n]? = fs[n]?) :
    packRecord L rec i fs =
      packFields ColumnType.codec (rec.bytes.take L.schema.nullBytes) fs (cellsOf L.offset rec i fs) := by
  induction fs generalizing i with
  | nil => rfl
  | cons f fs ih =>
    have here : L.schema.fields[i]? = some f := at_i 0
    have later : packRecord L rec (i + 1) fs = _ := ih fun n => by
      rw [Nat.add_assoc, Nat.add_comm 1 n, at_i (n + 1), getElem?_cons_succ]
    rw [packRecord, cellsOf, packFields, later, isNull_take here, fieldCodec_eq here]
    congr 1
    split
    · rfl
    · cases kind : classifyFieldCodec f.type.realType with
      | memcpy =>
        rw [codec_fixed kind, ColumnType.cell, kind]
        rfl
      | generic =>
        rw [codec_generic kind, ColumnType.cell, kind]

theorem serializeRecord_eq (L : RecordLayout) (rec : RecordBuf) :
    serializeRecord L rec = serializeRow ColumnType.codec L.schema (L.image rec) := by
  unfold serializeRecord
  rw [packRecord_eq fun n => by rw [Nat.zero_add]]
  rfl

/-- The values of the columns that are not NULL are values of their types. -/
def RecordBuf.Legal (L : RecordLayout) (rec : RecordBuf) : Prop :=
  rec.bytes.length = L.reclength ∧ ∀ (i : Nat) (f : FieldDef ColumnType), L.schema.fields[i]? = some f →
    f.isNull rec.bytes = false → f.type.codec.Fits (f.type.cell (rec.slot (L.offset i) i f.type))

theorem cellsOf_length (offset : Nat → Nat) (rec : RecordBuf) (i : Nat) (fs : List (FieldDef ColumnType)) :
    (cellsOf offset rec i fs).length = fs.length := by
  induction fs generalizing i with
  | nil => rfl
  | cons f fs ih => rw [cellsOf, length_cons, length_cons, ih]

theorem fitsAll_cellsOf (legal : rec.Legal L) {i : Nat} {fs : List (FieldDef ColumnType)}
    (at_i : ∀ n, L.schema.fields[i + n]? = fs[n]?) :
    FitsAll ColumnType.codec (rec.bytes.take L.schema.nullBytes) fs (cellsOf L.offset rec i fs) := by
  induction fs generalizing i with
  | nil => trivial
  | cons f fs ih =>
    have here : L.schema.fields[i]? = some f := at_i 0
    refine ⟨fun present => ?_, ih fun n => ?_⟩
    · rw [isNull_take here] at present
      exact legal.2 i f here present
    · rw [Nat.add_assoc, Nat.add_comm 1 n, at_i (n + 1), getElem?_cons_succ]

theorem wellFormed_image (legal : rec.Legal L) : (L.image rec).WellFormed ColumnType.codec L.schema := by
  constructor
  · have room := L.null_room
    have size := legal.1
    change (rec.bytes.take L.schema.nullBytes).length = L.schema.nullBytes
    rw [length_take]
    omega
  · exact fitsAll_cellsOf legal fun n => by rw [Nat.zero_add]

end Pack

section Size

variable {L : RecordLayout} {rec : RecordBuf}

theorem packRecord_length (legal : rec.Legal L) {i : Nat} {fs : List (FieldDef ColumnType)}
    (at_i : ∀ n, L.schema.fields[i + n]? = fs[n]?) : (packRecord L rec i fs).length ≤
      (fs.map fun f => f.type.packLength).sum + fieldVarcharLenPrefix * fs.length + blobLengths rec i fs := by
  induction fs generalizing i with
  | nil => exact Nat.zero_le _
  | cons f fs ih =>
    have here : L.schema.fields[i]? = some f := at_i 0
    have later := ih fun n => by
      rw [Nat.add_assoc, Nat.add_comm 1 n, at_i (n + 1), getElem?_cons_succ]
    have slot_size := length_slot here legal.1
    rw [packRecord, blobLengths, fieldCodec_eq here, length_append, map_cons, sum_cons, length_cons]
    unfold fieldVarcharLenPrefix at later ⊢
    cases null : f.isNull rec.bytes with
    | true =>
      rw [if_pos rfl, length_nil]
      omega
    | false =>
      rw [if_neg Bool.false_ne_true]
      cases kind : classifyFieldCodec f.type.realType with
      | memcpy =>
        dsimp only
        change (slice rec.bytes (L.offset i) f.type.packLength).length = f.type.packLength at slot_size
        omega
      | generic =>
        have fits := legal.2 i f here null
        rw [codec_generic kind, ColumnType.cell, kind] at fits
        have packed := f.type.pack_le _ slot_size fits
        dsimp only [RecordBuf.slot] at packed ⊢
        simp only [and_true]
        omega

theorem packLengths_le (L : RecordLayout) :
    (L.schema.fields.map fun f => f.type.packLength).sum ≤ L.reclength - L.schema.nullBytes := by
  have regions : (L.schema.fields.mapIdx fun i f => (L.offset i, f.type.packLength)).map Prod.snd =
      L.schema.fields.map fun f => f.type.packLength := by
    apply ext_getElem?
    intro n
    rw [getElem?_map, getElem?_mapIdx, getElem?_map, Option.map_map]
    rfl
  rw [← regions]
  apply Base.sum_le_of_apart
  · intro r mem
    obtain ⟨n, bound, rfl⟩ := mem_iff_getElem.mp mem
    rw [getElem_mapIdx]
    exact L.inside n _ (getElem?_eq_getElem _)
  · rw [pairwise_iff_getElem]
    intro m n m_bound n_bound less
    rw [getElem_mapIdx, getElem_mapIdx]
    exact L.apart m n _ _ (getElem?_eq_getElem _) (getElem?_eq_getElem _) (Nat.ne_of_lt less)

theorem blobLengths_none (rec : RecordBuf) (i : Nat) {fs : List (FieldDef ColumnType)}
    (none_there : ∀ f ∈ fs, f.type.isBlob = false) : blobLengths rec i fs = 0 := by
  induction fs generalizing i with
  | nil => rfl
  | cons f fs ih =>
    rw [forall_mem_cons] at none_there
    rw [blobLengths, none_there.1, ih (i + 1) none_there.2]
    rfl

theorem serializeRecord_le_est (legal : rec.Legal L) {cached : Nat} (sound : cached = 0 ∨ cached = baseEst L) :
    (serializeRecord L rec).length ≤ (rowEst L rec cached).1 ∧
      ((rowEst L rec cached).2 = 0 ∨ (rowEst L rec cached).2 = baseEst L) := by
  have packs : (packRecord L rec 0 L.schema.fields).length ≤ (L.schema.fields.map fun f => f.type.packLength).sum +
      fieldVarcharLenPrefix * L.schema.fields.length + blobLengths rec 0 L.schema.fields :=
    packRecord_length legal fun n => by rw [Nat.zero_add]
  have lengths := packLengths_le L
  have written : (serializeRecord L rec).length ≤ baseEst L + blobLengths rec 0 L.schema.fields := by
    unfold serializeRecord baseEst rowHeaderSize
    simp only [length_cons, length_append, Base.leBytes_length, length_take]
    omega
  have est : (if cached = 0 then baseEst L else cached) = baseEst L := by
    rcases sound with rfl | rfl
    · rfl
    · exact ite_self _
  unfold rowEst
  dsimp only
  rw [est]
  cases blobs : hasBlobs L with
  | true =>
    refine ⟨written, ?_⟩
    simpa using sound
  | false =>
    have none_there : ∀ f ∈ L.schema.fields, f.type.isBlob = false := by
      simpa [hasBlobs] using blobs
    rw [blobLengths_none rec 0 none_there] at written
    refine ⟨written, ?_⟩
    split
    · exact .inr rfl
    · exact sound

end Size

section Unpack

variable {L : RecordLayout}

/-- The row has an acceptable value for every column that is not NULL, and no column runs past its end. -/
def Decodes (accept : ColumnType → Bytes → Prop) (nulls : Bytes) : List (FieldDef ColumnType) → Bytes → Prop
  | [], _ => True
  | f :: fs, data =>
    if f.isNull nulls then Decodes accept nulls fs data
    else data ≠ [] ∧ ∃ v rest, f.type.codec.unpack data = some (v, rest) ∧ accept f.type v ∧ Decodes accept nulls fs rest

def ColumnType.Fits (t : ColumnType) (v : Bytes) : Prop := t.codec.Fits v

theorem unpackRecord_field {i : Nat} {f : FieldDef ColumnType} (here : L.schema.fields[i]? = some f)
    (present : f.isNull rec.bytes = false) {data v rest : Bytes} (some_data : data ≠ [])
    (read : f.type.codec.unpack data = some (v, rest)) (beyond : Bytes) (fs : List (FieldDef ColumnType)) (pos : Nat) :
    ∃ x n, (rec.bytes.length = L.reclength → f.type.codec.Fits v → x.bytes.length = f.type.packLength ∧ f.type.cell x = v) ∧
      n + rest.length = data.length ∧ unpackRecord L beyond i (f :: fs) rec data pos =
        unpackRecord L beyond (i + 1) fs (rec.put (L.offset i) i x) rest (pos + n) := by
  rw [unpackRecord, present, if_neg Bool.false_ne_true, if_neg some_data, fieldCodec_eq here]
  cases kind : classifyFieldCodec f.type.realType with
  | memcpy =>
    rw [codec_fixed kind] at read
    by_cases short : data.length < f.type.packLength
    · rw [rawCodec_unpack, if_pos short] at read
      cases read
    · rw [rawCodec_unpack, if_neg short] at read
      cases read
      have size : (data.take f.type.packLength).length = f.type.packLength := by
        rw [length_take]
        omega
      have cell : f.type.cell ⟨data.take f.type.packLength, rec.blob i⟩ = data.take f.type.packLength := by
        rw [ColumnType.cell, kind]
      have put : rec.put (L.offset i) i ⟨data.take f.type.packLength, rec.blob i⟩ =
          { rec with bytes := patch rec.bytes (L.offset i) (data.take f.type.packLength) } := by
        rw [RecordBuf.put, Function.update_eq_self]
      refine ⟨⟨data.take f.type.packLength, rec.blob i⟩, f.type.packLength, fun _ _ => ⟨size, cell⟩, ?_, ?_⟩
      · rw [length_drop]
        omega
      · dsimp only
        rw [if_neg short, put]
  | generic =>
    rw [codec_generic kind] at read ⊢
    rw [f.type.ops.unpack_eq] at read
    by_cases room : f.type.ops.lenBytes + f.type.ops.bodyLen (data.take f.type.ops.lenBytes) ≤ data.length
    · rw [if_pos room] at read
      cases read
      have need : f.type.ops.need (data ++ beyond) =
          f.type.ops.lenBytes + f.type.ops.bodyLen (data.take f.type.ops.lenBytes) := by
        rw [FieldOps.need, take_append_of_le_length (by omega)]
      refine ⟨f.type.ops.store (f.type.ops.decode
          (data.take (f.type.ops.lenBytes + f.type.ops.bodyLen (data.take f.type.ops.lenBytes)))) (rec.slot (L.offset i) i f.type),
        f.type.ops.lenBytes + f.type.ops.bodyLen (data.take f.type.ops.lenBytes), fun sized fits => ?_, ?_, ?_⟩
      · rw [ColumnType.cell, kind]
        exact ⟨f.type.store_length _ _ fits (length_slot here sized), f.type.ops.value_store _ _ fits⟩
      · rw [length_drop]
        omega
      · dsimp only
        rw [need, take_append_of_le_length room]
    · rw [if_neg room] at read
      cases read

/- What a loop over the columns from `i` on leaves as it was. -/
structure Keeps (L : RecordLayout) (i : Nat) (rec rec' : RecordBuf) : Prop where
  length : rec'.bytes.length = rec.bytes.length
  before : ∀ j g, j < i → L.schema.fields[j]? = some g → rec'.slot (L.offset j) j g.type = rec.slot (L.offset j) j g.type

theorem Keeps.of_replaces {i : Nat} {f : FieldDef ColumnType} {x : Slot} {rec rec' rec'' : RecordBuf}
    (replaces : Replaces L i f x rec rec') (keeps : Keeps L (i + 1) rec' rec'') : Keeps L i rec rec'' where
  length := keeps.length.trans replaces.length
  before j g small there :=
    (keeps.before j g (Nat.lt_succ_of_lt small) there).trans (replaces.others j g there (Nat.ne_of_lt small))

theorem shift_at {i : Nat} {f : FieldDef ColumnType} {fs : List (FieldDef ColumnType)}
    (at_i : ∀ n, L.schema.fields[i + n]? = (f :: fs)[n]?) (n : Nat) : L.schema.fields[i + 1 + n]? = fs[n]? := by
  rw [Nat.add_assoc, Nat.add_comm 1 n, at_i (n + 1), getElem?_cons_succ]

theorem Replaces.later {i : Nat} {f : FieldDef ColumnType} {x : Slot} (replaces : Replaces L i f x rec rec')
    {gs : List (FieldDef ColumnType)} (at_i : ∀ n, L.schema.fields[i + 1 + n]? = gs[n]?) :
    cellsOf L.offset rec' (i + 1) gs = cellsOf L.offset rec (i + 1) gs := by
  apply cellsOf_congr
  intro n g there
  exact replaces.others _ g ((at_i n).trans there) (by omega)

theorem unpackRecord_spec {i : Nat} {fs gs : List (FieldDef ColumnType)} {data : Bytes} (leading : fs <+: gs)
    (at_i : ∀ n, L.schema.fields[i + n]? = gs[n]?) (sized : rec.bytes.length = L.reclength)
    (decodes : Decodes ColumnType.Fits (rec.bytes.take L.schema.nullBytes) fs data) (beyond : Bytes) (pos : Nat) :
    Keeps L i rec (unpackRecord L beyond i fs rec data pos).1 ∧
      (unpackRecord L beyond i fs rec data pos).1.bytes.take L.schema.nullBytes = rec.bytes.take L.schema.nullBytes ∧
      cellsOf L.offset (unpackRecord L beyond i fs rec data pos).1 i gs =
        unpackFields ColumnType.codec (rec.bytes.take L.schema.nullBytes) fs (cellsOf L.offset rec i gs) data ∧
      (unpackRecord L beyond i fs rec data pos).2 ≤ pos + data.length := by
  induction fs generalizing i gs rec data pos with
  | nil =>
    refine ⟨⟨rfl, fun _ _ _ _ => rfl⟩, rfl, ?_, Nat.le_add_right _ _⟩
    cases gs <;> rfl
  | cons f fs ih =>
    obtain ⟨gs, rfl, leading_rest⟩ : ∃ rest, gs = f :: rest ∧ fs <+: rest := by
      obtain ⟨tail, rfl⟩ := leading
      exact ⟨fs ++ tail, rfl, prefix_append _ _⟩
    have here : L.schema.fields[i]? = some f := at_i 0
    rw [Decodes, isNull_take here] at decodes
    rw [cellsOf, cellsOf, unpackFields, isNull_take here]
    cases null : f.isNull rec.bytes with
    | true =>
      rw [null, if_pos rfl] at decodes
      rw [unpackRecord, null, if_pos rfl, if_pos rfl]
      obtain ⟨keeps, nulls, cells, bound⟩ := ih leading_rest (shift_at at_i) sized decodes pos
      refine ⟨⟨keeps.length, fun j g small => keeps.before j g (Nat.lt_succ_of_lt small)⟩, nulls, ?_, bound⟩
      rw [cells, keeps.before i f (Nat.lt_succ_self i) here]
    | false =>
      rw [null, if_neg Bool.false_ne_true] at decodes
      obtain ⟨some_data, v, rest, read, fits, decodes⟩ := decodes
      obtain ⟨x, n, stored, count, step⟩ := unpackRecord_field here null some_data read beyond fs pos
      obtain ⟨size, cell⟩ := stored sized fits
      have replaces := replaces_put here sized size
      rw [← replaces.nulls] at decodes
      obtain ⟨keeps, nulls, cells, bound⟩ :=
        ih leading_rest (shift_at at_i) (replaces.length.trans sized) decodes (pos + n)
      rw [step, if_neg Bool.false_ne_true, if_neg some_data, read]
      refine ⟨keeps.of_replaces replaces, nulls.trans replaces.nulls, ?_, by omega⟩
      rw [cells, keeps.before i f (Nat.lt_succ_self i) here, replaces.here, cell, replaces.nulls,
        replaces.later (shift_at at_i)]

theorem unpackRecord_inside {i : Nat} {fs : List (FieldDef ColumnType)} {data : Bytes}
    (at_i : ∀ n f, fs[n]? = some f → L.schema.fields[i + n]? = some f) (room : L.reclength ≤ rec.bytes.length)
    (decodes : Decodes accept (rec.bytes.take L.schema.nullBytes) fs data) (beyond : Bytes) (pos : Nat) :
    (unpackRecord L beyond i fs rec data pos).2 ≤ pos + data.length := by
  induction fs generalizing i rec data pos with
  | nil => exact Nat.le_add_right _ _
  | cons f fs ih =>
    have here : L.schema.fields[i]? = some f := at_i 0 f rfl
    have later : ∀ n g, fs[n]? = some g → L.schema.fields[i + 1 + n]? = some g := by
      intro n g there
      rw [Nat.add_assoc, Nat.add_comm 1 n]
      exact at_i (n + 1) g there
    rw [Decodes, isNull_take here] at decodes
    cases null : f.isNull rec.bytes with
    | true =>
      rw [null, if_pos rfl] at decodes
      rw [unpackRecord, null, if_pos rfl]
      exact ih later room decodes pos
    | false =>
      rw [null, if_neg Bool.false_ne_true] at decodes
      obtain ⟨some_data, v, rest, read, -, decodes⟩ := decodes
      obtain ⟨x, n, -, count, step⟩ := unpackRecord_field here null some_data read beyond fs pos
      have bounds := L.inside i f here
      -- a value that does not fit may spoil what follows its slot, but not the null bytes
      have nulls : (rec.put (L.offset i) i x).bytes.take L.schema.nullBytes = rec.bytes.take L.schema.nullBytes :=
        Base.take_patch bounds.1 (by omega)
      have wide : L.reclength ≤ (rec.put (L.offset i) i x).bytes.length :=
        room.trans (Base.le_length_patch _ _ _)
      rw [← nulls] at decodes
      have bound := ih later wide decodes (pos + n)
      rw [step]
      omega

end Unpack

section Fill

variable {L : RecordLayout}

theorem slot_putNullBit {j pos : Nat} {g : FieldDef ColumnType} (there : L.schema.fields[j]? = some g)
    (inside : pos / 8 < L.schema.nullBytes) (rec : RecordBuf) (on : Bool) :
    RecordBuf.slot { rec with bytes := putNullBit rec.bytes pos on } (L.offset j) j g.type =
      rec.slot (L.offset j) j g.type := by
  have bounds := L.inside j g there
  unfold RecordBuf.slot putNullBit
  rw [Base.slice_modify_apart _ (by omega)]

theorem fillDefaults_spec {i : Nat} {fs : List (FieldDef ColumnType)} (rec : RecordBuf)
    (at_i : ∀ n, L.schema.fields[i + n]? = fs[n]?) (sized : rec.bytes.length = L.reclength) :
    Keeps L i rec (fillDefaults L i fs rec) ∧ (fillDefaults L i fs rec).bytes.take L.schema.nullBytes =
        fillNulls L.schema (rec.bytes.take L.schema.nullBytes) fs ∧
      cellsOf L.offset (fillDefaults L i fs rec) i fs = cellsOf L.offset L.defaultValues i fs := by
  induction fs generalizing i rec with
  | nil => exact ⟨⟨rfl, fun _ _ _ _ => rfl⟩, rfl, rfl⟩
  | cons f fs ih =>
    have here : L.schema.fields[i]? = some f := at_i 0
    have replaces := replaces_put here sized (length_slot here L.default_length)
    have default_null : f.isNull L.schema.defaults.nulls = f.isNull L.defaultValues.bytes := by
      rw [L.defaults_eq]
      exact isNull_take here _
    rw [fillDefaults, fillNulls, foldl_cons, ← fillNulls]
    cases place : f.nullPos with
    | none =>
      obtain ⟨keeps, nulls, cells⟩ := ih _ (shift_at at_i) (replaces.length.trans sized)
      refine ⟨keeps.of_replaces replaces, ?_, ?_⟩
      · rw [nulls, replaces.nulls]
      · rw [cellsOf, cellsOf, cells, keeps.before i f (Nat.lt_succ_self i) here, replaces.here]
    | some p =>
      have inside := L.schema.null_inside f (mem_of_getElem? here) p place
      have marked : Replaces L i f (L.defaultValues.slot (L.offset i) i f.type)
          { rec with bytes := putNullBit rec.bytes p (f.isNull L.defaultValues.bytes) }
          { rec.put (L.offset i) i (L.defaultValues.slot (L.offset i) i f.type) with
            bytes := putNullBit (rec.put (L.offset i) i (L.defaultValues.slot (L.offset i) i f.type)).bytes p
              (f.isNull L.defaultValues.bytes) } := by
        constructor
        · rw [putNullBit_length, putNullBit_length, replaces.length]
        · dsimp only [putNullBit]
          rw [Base.take_modify, Base.take_modify, replaces.nulls]
        · exact (slot_putNullBit here inside _ _).trans replaces.here
        · intro j g there other
          rw [slot_putNullBit there inside, slot_putNullBit there inside, replaces.others j g there other]
      have marked_size := marked.length.trans ((putNullBit_length _ _ _).trans sized)
      obtain ⟨keeps, nulls, cells⟩ := ih _ (shift_at at_i) marked_size
      have from_marked := keeps.of_replaces marked
      refine ⟨⟨from_marked.length.trans (putNullBit_length _ _ _), fun j g small there => ?_⟩, ?_, ?_⟩
      · exact (from_marked.before j g small there).trans (slot_putNullBit there inside _ _)
      · rw [nulls, marked.nulls, default_null]
        dsimp only [putNullBit]
        rw [Base.take_modify]
      · rw [cellsOf, cellsOf, cells, keeps.before i f (Nat.lt_succ_self i) here, marked.here]

end Fill

section Refines

variable {L : RecordLayout}

def rowNulls (S : RowSchema ColumnType) (data : Bytes) : Bytes :=
  fillNulls S ((data.drop rowHeaderSize).take (min (storedNullBytes data) S.nullBytes) ++
    S.defaults.nulls.drop (min (storedNullBytes data) S.nullBytes)) (S.fields.drop (storedFields data))

/-- The string is a row: its header and its null bytes are there, and the columns it says it has. -/
structure WholeRow (accept : ColumnType → Bytes → Prop) (S : RowSchema ColumnType) (data : Bytes) : Prop where
  header : ¬ (data.length < rowHeaderSize ∨ data.head? ≠ some rowHeaderMagic)
  nulls : ¬ (data.drop rowHeaderSize).length < storedNullBytes data
  columns : Decodes accept (rowNulls S data) (S.fields.take (storedFields data))
    ((data.drop rowHeaderSize).drop (storedNullBytes data))

def prefilled (L : RecordLayout) (data : Bytes) (prior : RecordBuf) : RecordBuf :=
  fillDefaults L (storedFields data) (L.schema.fields.drop (storedFields data))
    { prior with bytes := patch prior.bytes 0 ((data.drop rowHeaderSize).take (min (storedNullBytes data) L.schema.nullBytes) ++
      slice L.defaultValues.bytes (min (storedNullBytes data) L.schema.nullBytes)
        (L.schema.nullBytes - min (storedNullBytes data) L.schema.nullBytes)) }

theorem deserializeRecord_whole {data : Bytes} (whole : WholeRow accept L.schema data) (beyond : Bytes)
    (prior : RecordBuf) : deserializeRecord L beyond data prior =
      unpackRecord L beyond 0 (L.schema.fields.take (storedFields data)) (prefilled L data prior)
        ((data.drop rowHeaderSize).drop (storedNullBytes data)) (rowHeaderSize + storedNullBytes data) := by
  unfold deserializeRecord prefilled
  rw [if_neg whole.header]
  rw [if_neg whole.nulls]

section
variable (L) (offset : Nat → Nat) (rec : RecordBuf) (i k : Nat) (fs : List (FieldDef ColumnType))

theorem cellsOf_take : (cellsOf offset rec i fs).take k = cellsOf offset rec i (fs.take k) := by
  induction fs generalizing i k with
  | nil => rw [take_nil, cellsOf, take_nil]
  | cons f fs ih =>
    cases k with
    | zero => rfl
    | succ k => rw [cellsOf, take_succ_cons, take_succ_cons, cellsOf, ih]

theorem cellsOf_drop : (cellsOf offset rec i fs).drop k = cellsOf offset rec (i + k) (fs.drop k) := by
  induction fs generalizing i k with
  | nil => rw [drop_nil, cellsOf, drop_nil, cellsOf]
  | cons f fs ih =>
    cases k with
    | zero => rfl
    | succ k => rw [cellsOf, drop_succ_cons, drop_succ_cons, ih, Nat.add_assoc, Nat.add_comm 1 k]

theorem copied_nulls {data : Bytes} (nulls_there : ¬ (data.drop rowHeaderSize).length < storedNullBytes data) :
    ((data.drop rowHeaderSize).take (min (storedNullBytes data) L.schema.nullBytes) ++
      slice L.defaultValues.bytes (min (storedNullBytes data) L.schema.nullBytes)
        (L.schema.nullBytes - min (storedNullBytes data) L.schema.nullBytes)).length = L.schema.nullBytes := by
  have room := L.null_room
  have default_size := L.default_length
  rw [length_append, length_take, Base.length_slice (by omega)]
  omega

end

theorem prefilled_spec {data : Bytes} (nulls_there : ¬ (data.drop rowHeaderSize).length < storedNullBytes data)
    (sized : prior.bytes.length = L.reclength) : (prefilled L data prior).bytes.length = L.reclength ∧
      (prefilled L data prior).bytes.take L.schema.nullBytes = rowNulls L.schema data ∧
      cellsOf L.offset (prefilled L data prior) 0 L.schema.fields =
        (cellsOf L.offset prior 0 L.schema.fields).take (storedFields data) ++
          L.schema.defaults.cells.drop (storedFields data) := by
  have size := copied_nulls L nulls_there
  have room := L.null_room
  have inside : 0 + ((data.drop rowHeaderSize).take (min (storedNullBytes data) L.schema.nullBytes) ++
      slice L.defaultValues.bytes (min (storedNullBytes data) L.schema.nullBytes)
        (L.schema.nullBytes - min (storedNullBytes data) L.schema.nullBytes)).length ≤ prior.bytes.length := by
    omega
  have copied_size := (Base.length_patch inside).trans sized
  obtain ⟨keeps, nulls, cells⟩ := fillDefaults_spec
    { prior with bytes := patch prior.bytes 0 _ } (fun n => getElem?_drop.symm) copied_size
  refine ⟨keeps.length.trans copied_size, ?_, ?_⟩
  · unfold prefilled rowNulls
    rw [nulls, Base.take_patch_zero size, L.defaults_eq, drop_take]
    rfl
  · have kept : cellsOf L.offset (prefilled L data prior) 0 (L.schema.fields.take (storedFields data)) =
        cellsOf L.offset prior 0 (L.schema.fields.take (storedFields data)) := by
      apply cellsOf_congr
      intro n g there
      obtain ⟨below, there⟩ : n < storedFields data ∧ L.schema.fields[n]? = some g := by
        rwa [getElem?_take, Option.ite_none_right_eq_some] at there
      rw [Nat.zero_add]
      have bounds := L.inside n g there
      refine (keeps.before n g below there).trans ?_
      unfold RecordBuf.slot
      rw [Base.slice_patch_apart inside (.inl (by omega))]
    rw [← take_append_drop (storedFields data) (cellsOf L.offset (prefilled L data prior) 0 L.schema.fields),
      cellsOf_take, kept, cellsOf_drop, Nat.zero_add, L.defaults_eq, cellsOf_drop, Nat.zero_add, cellsOf_take]
    exact congrArg _ cells

/-- On a whole row `deserialize_row` is what `Row/Format` says of the columns, and reads nothing behind the row. -/
theorem deserializeRecord_eq {data : Bytes} (whole : WholeRow ColumnType.Fits L.schema data) (beyond : Bytes)
    (sized : prior.bytes.length = L.reclength) :
    L.image (deserializeRecord L beyond data prior).1 = deserializeRow ColumnType.codec L.schema data (L.image prior) ∧
      (deserializeRecord L beyond data prior).1.bytes.length = L.reclength ∧
      (deserializeRecord L beyond data prior).2 ≤ data.length := by
  obtain ⟨size, nulls, cells⟩ := prefilled_spec whole.nulls sized
  have columns := whole.columns
  rw [← nulls] at columns
  obtain ⟨keeps, nulls_kept, cells_read, bound⟩ := unpackRecord_spec ( take_prefix _ _)
    (fun n => by rw [Nat.zero_add]) size columns beyond (rowHeaderSize + storedNullBytes data)
  have header := whole.header
  have nulls_there := whole.nulls
  rw [deserializeRecord_whole whole]
  refine ⟨?_, keeps.length.trans size, ?_⟩
  · unfold RecordLayout.image deserializeRow
    rw [if_neg header, nulls_kept, cells_read, nulls, cells]
    rw [if_neg]
    · rfl
    · exact nulls_there
  · simp only [length_drop] at bound nulls_there
    omega

end Refines

end TidesdbMysql
