import TidesdbMysql.Base.Run
import TidesdbMysql.Row.RoundTrip

/-! The buffers behind the BLOB pointers of a handler's records: `fetch_row_by_pk` and `iter_read_current` copy
a row to `last_row` or `last_row2`, and unpacking leaves pointers into the copy. -/
namespace TidesdbMysql

open Base (Bytes slice Along)
open List Function Option

inductive BlobStore where
  | lastRow | lastRow2
  /- What `tidesdb_txn_get` returns, freed before the read returns. -/
  | value
  deriving DecidableEq

structure BlobPtr where
  store : BlobStore
  generation : Nat
  offset : Nat
  length : Nat
  deriving DecidableEq

/-- The pointers a read has left in the record at an address. Assigning to a `std::string` and freeing a buffer
leave no pointer into it valid: they begin a new generation of the store. -/
structure BlobBuffers where
  content : BlobStore → Bytes
  generation : BlobStore → Nat
  pointers : Nat → List BlobPtr

/-- A read that has come to a row, or to none; `decrypted` is what `tidesdb_decrypt_row` returns, nothing where
it fails. -/
structure RowRead where
  buf : Nat
  row : Option Bytes
  decrypted : Bytes

/-- A table as a handler reads it: the record layout, what lies behind a row in memory, and where the two records
of the table are. -/
structure ReadTable where
  layout : RecordLayout
  beyond : Bytes
  encrypted : Bool
  record0 : Nat
  record1 : Option Nat

section Unpack

variable (L : RecordLayout) (beyond : Bytes)

/- Where the unpack loop of `deserialize_row` meets the data of BLOB columns. -/
def blobRanges (nulls : Bytes) : List (FieldDef ColumnType) → Bytes → Nat → List (Nat × Nat)
  | [], _, _ => []
  | f :: fs, data, pos =>
    if f.isNull nulls then blobRanges nulls fs data pos
    else if data = [] then []
    else
      match classifyFieldCodec f.type.realType with
      | .memcpy =>
        if data.length < f.type.packLength then []
        else blobRanges nulls fs (data.drop f.type.packLength) (pos + f.type.packLength)
      | .generic =>
        let n := f.type.ops.need (data ++ beyond)
        let rest := blobRanges nulls fs (data.drop n) (pos + n)
        if f.type.isBlob then (pos + f.type.ops.lenBytes, n - f.type.ops.lenBytes) :: rest else rest

/- A row that is cut short stores no pointer; added columns point to the default record. -/
def storedBlobs (data : Bytes) : List (Nat × Nat) :=
  let body := data.drop rowHeaderSize
  if data.length < rowHeaderSize ∨ data.head? ≠ some rowHeaderMagic ∨ body.length < storedNullBytes data then []
  else
    let copyNb := min (storedNullBytes data) L.schema.nullBytes
    let nulls := body.take copyNb ++ slice L.defaultValues.bytes copyNb (L.schema.nullBytes - copyNb)
    blobRanges beyond nulls (L.schema.fields.take (storedFields data)) (body.drop (storedNullBytes data))
      (rowHeaderSize + storedNullBytes data)

end Unpack

namespace BlobBuffers

def start : BlobBuffers := ⟨fun _ => [], fun _ => 0, fun _ => []⟩

def assign (s : BlobBuffers) (store : BlobStore) (data : Bytes) : BlobBuffers :=
  { s with
    content := Function.update s.content store data
    generation := Function.update s.generation store (s.generation store + 1) }

/- The bytes a pointer leads to, as far as there are any. -/
def bytes (s : BlobBuffers) (p : BlobPtr) : List (Option UInt8) :=
  (List.range p.length).map fun i =>
    if p.generation = s.generation p.store then (s.content p.store)[p.offset + i]? else none

section Read

variable (T : ReadTable)

def unpack (s : BlobBuffers) (buf : Nat) (store : BlobStore) : BlobBuffers :=
  { s with
    pointers := Function.update s.pointers buf ((storedBlobs T.layout T.beyond (s.content store)).map fun r =>
      ⟨store, s.generation store, r.1, r.2⟩) }

section
variable (s : BlobBuffers) (r : RowRead) (other buf : Nat) (row : BlobStore) (decrypted : Bytes)

/-- `deserialize_row` of a `std::string`; a record that cannot be decrypted is zeroed. -/
def deserializeRow : BlobBuffers :=
  if T.encrypted then
    if decrypted = [] then { s with pointers := Function.update s.pointers buf [] }
    else (s.assign .lastRow decrypted).unpack T buf .lastRow
  else s.unpack T buf row

def isRec1 : Bool := T.record1.any fun lo => lo ≤ buf && buf < lo + T.layout.reclength

def backing : BlobStore := if isRec1 T buf then .lastRow2 else .lastRow

/-- What `fetch_row_by_pk` and `iter_read_current` do with the row. -/
def read : BlobBuffers :=
  match r.row with
  | none => s
  | some value =>
    if hasBlobs T.layout = false ∧ T.encrypted = false then
      ((s.assign .value value).unpack T r.buf .value).assign .value []
    else
      let store := backing T r.buf
      (s.assign store value).deserializeRow T r.buf store r.decrypted

/- One of the two records is `record[0]`. -/
def Paired : Prop := other ≠ r.buf ∧ (r.buf = T.record0 ∨ other = T.record0)

end

def BlobsKept (s : BlobBuffers) (r : RowRead) : Prop :=
  ∀ other, Paired T r other → ∀ p ∈ s.pointers other,
    (s.read T r).bytes p = s.bytes p

def ShowsBlob (s : BlobBuffers) (buf : Nat) : Prop := ∃ p ∈ s.pointers buf, ∃ b, some b ∈ s.bytes p

/-- Where the other record shows BLOB data, a read of a plain table has one of the two records in `record[1]`,
and a read of an encrypted one is into `record[1]` and cannot decrypt its row. -/
def BuffersApart (s : BlobBuffers) (r : RowRead) : Prop :=
  r.row ≠ none → (hasBlobs T.layout = true ∨ T.encrypted = true) → ∀ other, Paired T r other → s.ShowsBlob other →
    if T.encrypted then isRec1 T r.buf = true ∧ r.decrypted = []
    else isRec1 T r.buf ≠ isRec1 T other

/- The stores that a read assigns or frees. -/
def writes (r : RowRead) (store : BlobStore) : Bool :=
  r.row.isSome && if hasBlobs T.layout = false ∧ T.encrypted = false then store = .value
    else store = backing T r.buf || T.encrypted && r.decrypted ≠ [] && store = .lastRow

def home (buf : Nat) : BlobStore := if T.encrypted then .lastRow else backing T buf

/- A pointer that is still good leads into the store that backs its record. -/
def Homed (s : BlobBuffers) : Prop :=
  ∀ buf, ∀ p ∈ s.pointers buf, p.generation ≤ s.generation p.store ∧
    (p.generation = s.generation p.store → p.store = home T buf)

end Read

section Bytes

variable {s t : BlobBuffers} {p : BlobPtr}

theorem bytes_congr (generation : t.generation p.store = s.generation p.store)
    (content : t.content p.store = s.content p.store) : t.bytes p = s.bytes p := by
  rw [bytes, bytes, generation, content]

theorem bytes_stale (stale : p.generation ≠ s.generation p.store) : s.bytes p = List.replicate p.length none := by
  simp only [bytes, if_neg stale, map_const', length_range]

theorem current_of_byte {b : UInt8} (byte : some b ∈ s.bytes p) : p.generation = s.generation p.store := by
  by_contra stale
  rw [bytes_stale stale] at byte
  cases eq_of_mem_replicate byte

theorem bytes_hidden (hidden : ∀ b, some b ∉ s.bytes p) : s.bytes p = List.replicate p.length none := by
  rw [eq_replicate_iff]
  refine ⟨by rw [bytes, length_map, length_range], fun x shown => ?_⟩
  cases x with
  | none => rfl
  | some b => exact absurd shown (hidden b)

end Bytes

section Step

variable {T : ReadTable} {s : BlobBuffers} {r : RowRead}

section
variable (s) (buf : Nat) (store st : BlobStore) (data : Bytes)

theorem assign_generation :
    (s.assign store data).generation st = if st = store then s.generation store + 1 else s.generation st :=
  update_apply ..

theorem assign_content : (s.assign store data).content st = if st = store then data else s.content st :=
  update_apply ..

@[simp] theorem unpack_generation : (s.unpack T buf store).generation = s.generation := rfl

@[simp] theorem unpack_content : (s.unpack T buf store).content = s.content := rfl

end

theorem read_unwritten {st : BlobStore} (quiet : writes T r st = false) :
    (s.read T r).generation st = s.generation st ∧ (s.read T r).content st = s.content st := by
  cases here : r.row with
  | none => simp [read, here]
  | some value =>
    simp only [writes, here, isSome_some, Bool.true_and] at quiet
    simp only [read, here, deserializeRow]
    split_ifs at quiet ⊢ <;> simp_all [assign_generation, assign_content]

theorem read_written {st : BlobStore} (written : writes T r st = true) :
    s.generation st < (s.read T r).generation st := by
  cases here : r.row with
  | none => simp [writes, here] at written
  | some value =>
    simp only [writes, here, isSome_some, Bool.true_and] at written
    simp only [read, here, deserializeRow]
    split_ifs at written ⊢ <;> simp_all [assign_generation]
    all_goals grind

theorem read_generation_le (st : BlobStore) : s.generation st ≤ (s.read T r).generation st := by
  cases written : writes T r st with
  | false => exact (read_unwritten written).1.ge
  | true => exact (read_written written).le

theorem read_pointers {other : Nat} (apart : other ≠ r.buf) : (s.read T r).pointers other = s.pointers other := by
  cases here : r.row with
  | none => simp [read, here]
  | some value =>
    simp only [read, here, deserializeRow]
    split_ifs <;> simp [unpack, assign, apart]

theorem mem_unpack {buf : Nat} {store : BlobStore} {p : BlobPtr} (stored : p ∈ (s.unpack T buf store).pointers buf) :
    p.store = store ∧ p.generation = s.generation store := by
  simp only [unpack, update_self] at stored
  obtain ⟨r, -, rfl⟩ := mem_map.mp stored
  exact ⟨rfl, rfl⟩

theorem Homed.read (homed : s.Homed T) (r : RowRead) : (s.read T r).Homed T := by
  intro buf p stored
  by_cases own : buf = r.buf ∧ r.row ≠ none
  · obtain ⟨rfl, here⟩ := own
    obtain ⟨value, here⟩ := ne_none_iff_exists'.mp here
    simp only [BlobBuffers.read, here, deserializeRow] at stored ⊢
    split_ifs at stored ⊢ with plain secret failed
    · obtain ⟨store, generation⟩ := mem_unpack stored
      rw [store, generation]
      simp [assign_generation]
    · simp at stored
    · obtain ⟨store, generation⟩ := mem_unpack stored
      rw [store, generation, home, if_pos secret]
      exact ⟨le_rfl, fun _ => rfl⟩
    · obtain ⟨store, generation⟩ := mem_unpack stored
      rw [store, generation, home, if_neg secret]
      exact ⟨le_rfl, fun _ => rfl⟩
  · have before : (s.read T r).pointers buf = s.pointers buf := by
      by_cases apart : buf = r.buf
      · have none_there : r.row = none := by_contra fun there => own ⟨apart, there⟩
        simp [BlobBuffers.read, none_there]
      · exact read_pointers apart
    rw [before] at stored
    obtain ⟨old, good⟩ := homed buf p stored
    have later := read_generation_le (T := T) (s := s) (r := r) p.store
    exact ⟨old.trans later, fun current => good (le_antisymm old (current ▸ later))⟩

theorem kept_iff (homed : s.Homed T) (other : Nat) : (∀ p ∈ s.pointers other, (s.read T r).bytes p = s.bytes p) ↔
      (s.ShowsBlob other → writes T r (home T other) = false) := by
  constructor
  · rintro kept ⟨p, stored, b, byte⟩
    obtain ⟨old, good⟩ := homed other p stored
    have current := current_of_byte byte
    have after := current_of_byte ((kept p stored).symm ▸ byte)
    rw [← good current, ← Bool.not_eq_true]
    intro written
    have later := read_written (s := s) written
    omega
  · intro spared p stored
    obtain ⟨old, good⟩ := homed other p stored
    cases written : writes T r p.store with
    | false =>
      obtain ⟨generation, content⟩ := read_unwritten written
      exact bytes_congr generation content
    | true =>
      have later := read_written (s := s) written
      rw [bytes_stale (by omega), bytes_hidden]
      intro b byte
      have quiet := spared ⟨p, stored, b, byte⟩
      rw [← good (current_of_byte byte), written] at quiet
      cases quiet

theorem unwritten_iff (other : Nat) : writes T r (home T other) = false ↔
    (r.row ≠ none → (hasBlobs T.layout = true ∨ T.encrypted = true) →
      if T.encrypted then isRec1 T r.buf = true ∧ r.decrypted = [] else isRec1 T r.buf ≠ isRec1 T other) := by
  cases here : r.row with
  | none => simp [writes, here]
  | some value =>
    cases secret : T.encrypted <;> cases own : isRec1 T r.buf <;> cases theirs : isRec1 T other <;>
      cases blobs : hasBlobs T.layout <;> simp [writes, home, backing, here, secret, own, theirs, blobs]

/-- Along every sequence of reads no read touches the BLOBs of the other record, just when the two are in stores
of their own, which they are not in encrypted tables, nor in a record that is neither of the table's two. -/
theorem blobs_kept_iff (T : ReadTable) (reads : List RowRead) : Along (fun s r => (s.read T r, ())) (BlobsKept T) start
        reads ↔
      Along (fun s r => (s.read T r, ())) (BuffersApart T) start reads := by
  refine Base.along_congr _ (Homed T) (fun s r homed _ => ?_) (fun s r homed _ _ => homed.read r) ?_
    (Base.along_true _ _ _)
  · have each : ∀ other, _ := fun other => (kept_iff (r := r) homed other).trans
      (imp_congr_right fun _ => unwritten_iff other)
    constructor
    · exact fun kept here blobs other paired shown => (each other).mp (kept other paired) shown here blobs
    · exact fun apart other paired => (each other).mpr fun shown here blobs => apart here blobs other paired shown
  · intro buf p stored
    cases stored

/- An encrypted table with a TINYBLOB: one row is read into `record[0]`, the next into `record[1]`. -/
theorem other_record_overwritten :
    ¬ ∀ (T : ReadTable) (reads : List RowRead), Along (fun s r => (s.read T r, ())) (BlobsKept T) start reads := by
  intro claim
  let row c : Bytes := [0xFE, 1, 0, 3, 0, 1, 7, 0, 0, 0, 1, c]
  have kept := claim ⟨noteLayout, [], true, 0, some 100⟩ [⟨0, some [0], row 97⟩, ⟨100, some [0], row 98⟩]
  have moved := kept.2.1 0 ⟨by decide, .inr rfl⟩ ⟨.lastRow, 2, 11, 1⟩ (by decide)
  exact absurd moved (by decide)

end Step

end BlobBuffers

end TidesdbMysql
