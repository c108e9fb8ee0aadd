import TidesdbMysql.Row.RoundTrip
import TidesdbMysql.Table.ScanEnd

/-! What the reading functions answer when they come to a row that cannot be decoded. -/
namespace TidesdbMysql

open Base (Bytes SortedMap Iter Prog)

namespace Reader

variable {V D R : Type}

def Delivers (scanned : V → Prop) (fetched : D → Prop) : (c : ReadCall) → ReadAns V D c → Prop
  | .get _, .ok d => fetched d
  | .keyValue, .ok e => isDataKey e.1 = true ∧ scanned e.2
  | _, _ => False

def Zero (a : Answer R) : Prop := ∃ r, a = some (.ok r)

theorem Shaped.settles {p : Reader V D (Answer R)} (shaped : Shaped p) (scanned : V → Prop) (fetched : D → Prop) :
    p.Settles (Delivers scanned fetched) Zero := by
  induction shaped with
  | turnsOut | found | ended => trivial
  | valid each ih => exact fun it => ih it.isSome
  | @minor c g minor other each ih =>
    apply Prog.settles_ask
    intro answer
    refine ⟨ih answer, fun delivers => ?_⟩
    cases c with
    | get pk => exact absurd trivial minor
    | keyValue => exact absurd rfl other
    | iterNew | move | key | value | sideGet | metaGet => exact delivers.elim
  | keyValue each hands ih =>
    apply Prog.settles_ask
    intro answer
    refine ⟨ih answer, fun delivers => ?_⟩
    cases answer with
    | error rc => exact delivers.elim
    | ok e =>
      obtain ⟨r, handed⟩ := hands e delivers.1
      rw [handed]
      exact ⟨r, rfl⟩
  | @get pk g hands missing tells ih =>
    apply Prog.settles_ask
    intro answer
    cases answer with
    | ok d =>
      obtain ⟨r, handed⟩ := hands d
      rw [handed]
      exact ⟨trivial, fun _ => ⟨r, rfl⟩⟩
    | error rc =>
      refine ⟨?_, fun delivers => delivers.elim⟩
      by_cases none_there : rc = .notFound
      · rw [none_there]
        exact ih
      · rw [tells rc none_there]
        trivial
  | @iterNew g served tells ih =>
    apply Prog.settles_ask
    intro rc
    refine ⟨?_, fun delivers => delivers.elim⟩
    by_cases good : rc = .success
    · rw [good]
      exact ih
    · rw [tells rc good]
      trivial

end Reader

/-- Where a record comes from: a stored string, or an entry of a key that has all the columns. -/
inductive RowSource where
  | stored (row : Bytes)
  | entry (ik : Bytes)

def storedRows (rows : SortedMap Bytes Bytes) : SortedMap Bytes RowSource where
  entries := rows.entries.map fun e => (e.1, .stored e.2)
  sorted := List.pairwise_map.mpr rows.sorted

/-- The functions that read a row, each with what it finds in its handler; `rnd_pos` is
`fetch_row_by_pk`. -/
inductive StoredRead (A : Type) [LinearOrder A] where
  | fetchRowByPk (rows : SortedMap Bytes Bytes) (pk : Bytes)
  | primary (width : Nat) (family rows : SortedMap Bytes Bytes) (st : PkState family rows) (call : PkCall)
  | secondary (T : Schema) (key : Key) (icp : Bytes → Reader.Icp RowSource) (covered : Bytes → Bool)
      (m rows : SortedMap Bytes Bytes) (st : SecState m) (call : SecCall)
  | spatial (mode : MbrMode) (query : Mbr A) (m : SortedMap Bytes (Mbr A)) (rows : SortedMap Bytes Bytes)
      (st : SpatialState m) (call : SpatialCall)
  | ftRead (m rows : SortedMap Bytes Bytes) (place : Iter (Bytes × Bytes)) (results : List Bytes)

/- `try_keyread_from_index` -/
def keyReadOf (covered : Bytes → Bool) (ik : Bytes) : Option RowSource := if covered ik then some (.entry ik) else none

def Answer.status {R : Type} (a : Answer R) : Answer Unit := a.map fun result => result.map fun _ => ()

namespace StoredRead

variable {A : Type} [LinearOrder A]

/-- What the function returns; `.ok ()` is 0. -/
def status : StoredRead A → Answer Unit
  | .fetchRowByPk rows pk =>
    Answer.status ((Reader.fetchRowByPk pk).quiet (readService (SortedMap.empty : SortedMap Bytes Bytes) rows) none).1
  | .primary width family rows st call =>
    Answer.status ((call.prog width st).quiet (readService family rows) st.place).1
  | .secondary T key icp covered m rows st call =>
    Answer.status ((call.prog T key icp (keyReadOf covered) st).quiet (readService m (storedRows rows)) st.place).1
  | .spatial mode query m rows st call => Answer.status ((call.prog mode query st).quiet (readService m rows) st.place).1
  | .ftRead m rows place results => Answer.status ((Reader.ftRead results).quiet (readService m rows) place).1

def Reaches (stored : Bytes) : StoredRead A → Prop
  | .fetchRowByPk rows pk =>
    (Reader.fetchRowByPk pk).Hears (Reader.Delivers (fun _ => False) fun row => row = stored)
      (readService (SortedMap.empty : SortedMap Bytes Bytes) rows) none
  | .primary width family rows st call =>
    (call.prog width st).Hears (Reader.Delivers (fun row => row = stored) fun row => row = stored)
      (readService family rows) st.place
  | .secondary T key icp covered m rows st call =>
    (call.prog T key icp (keyReadOf covered) st).Hears (Reader.Delivers (fun _ => False) fun row => row = .stored stored)
      (readService m (storedRows rows)) st.place
  | .spatial mode query m rows st call =>
    (call.prog mode query st).Hears (Reader.Delivers (fun _ => False) fun row => row = stored) (readService m rows) st.place
  | .ftRead m rows place results =>
    (Reader.ftRead results).Hears (Reader.Delivers (fun _ => False) fun row => row = stored) (readService m rows) place

theorem status_of_zero {R : Type} {a : Answer R} (zero : Reader.Zero a) : a.status = some (.ok ()) := by
  obtain ⟨r, rfl⟩ := zero
  rfl

theorem status_of_reaches {stored : Bytes} (read : StoredRead A) (reaches : read.Reaches stored) :
    read.status = some (.ok ()) := by
  cases read with
  | fetchRowByPk rows pk => exact status_of_zero (((Reader.shaped_fetch pk).settles _ _).hears reaches)
  | primary width family rows st call =>
    exact status_of_zero (((PkCall.shaped width st call).settles _ _).hears reaches)
  | secondary T key icp covered m rows st call =>
    exact status_of_zero (((SecCall.shaped st call).settles _ _).hears reaches)
  | spatial mode query m rows st call => exact status_of_zero (((SpatialCall.shaped call).settles _ _).hears reaches)
  | ftRead m rows place results => exact status_of_zero (((Reader.ftRead_shaped results).settles _ _).hears reaches)

end StoredRead

section Corrupt

variable (L : RecordLayout) (encrypted : Bool) (aes : Aes) (masterKey : Option Bytes)

/-- The string decrypts to a row that has its header, its null bytes and every column it says it has. -/
def CompleteRow (stored : Bytes) : Prop := WholeRow (fun _ _ => True) L.schema (plainOf aes masterKey encrypted stored)

theorem CompleteRow.inside {stored : Bytes} (complete : CompleteRow L encrypted aes masterKey stored) (beyond : Bytes)
    (prior : RecordBuf) (sized : prior.bytes.length = L.reclength) :
    (HaTidesdb.deserializeRow aes masterKey L encrypted beyond stored prior).2 ≤
      (plainOf aes masterKey encrypted stored).length := by
  have header := complete.header
  have nulls_there := complete.nulls
  have readable : plainOf aes masterKey encrypted stored ≠ [] := by
    intro none_there
    rw [none_there] at header
    exact header (.inl (by decide))
  obtain ⟨size, nulls, -⟩ := prefilled_spec nulls_there sized
  have columns := complete.columns
  rw [← nulls] at columns
  have kept : ∀ n f, (L.schema.fields.take (storedFields (plainOf aes masterKey encrypted stored)))[n]? = some f →
      L.schema.fields[0 + n]? = some f := by
    intro n f there
    rw [List.getElem?_take, Option.ite_none_right_eq_some] at there
    rw [Nat.zero_add]
    exact there.2
  have bound := unpackRecord_inside kept (Nat.le_of_eq size.symm) columns beyond
    (rowHeaderSize + storedNullBytes (plainOf aes masterKey encrypted stored))
  rw [deserializeRow_eq aes masterKey L encrypted beyond stored prior readable, deserializeRecord_whole complete]
  simp only [List.length_drop] at bound nulls_there
  omega

/-- A row that cannot be decoded is answered with an error, and decoding does not leave the string. -/
def StoredRead.Guarded {A : Type} [LinearOrder A] (read : StoredRead A) : Prop :=
  ∀ stored, read.Reaches stored →
    (¬ CompleteRow L encrypted aes masterKey stored → ∃ code, read.status = some (.error code)) ∧
    ∀ (beyond : Bytes) (prior : RecordBuf), prior.bytes.length = L.reclength →
      (HaTidesdb.deserializeRow aes masterKey L encrypted beyond stored prior).2 ≤
        (plainOf aes masterKey encrypted stored).length

/-- Every row that cannot be decoded is returned as data. -/
theorem read_guarded_iff {A : Type} [LinearOrder A] (read : StoredRead A) :
    read.Guarded L encrypted aes masterKey ↔
      ∀ stored, read.Reaches stored → CompleteRow L encrypted aes masterKey stored := by
  constructor
  · intro guarded stored reaches
    by_contra corrupt
    obtain ⟨code, is_error⟩ := (guarded stored reaches).1 corrupt
    rw [read.status_of_reaches reaches] at is_error
    cases is_error
  · intro complete stored reaches
    have whole := complete stored reaches
    exact ⟨fun corrupt => absurd whole corrupt, fun beyond prior sized => whole.inside L encrypted aes masterKey beyond prior sized⟩

end Corrupt

/- `(7, 'abc', NULL)`, cut off after the first letter. -/
def cutNote : Bytes := [0xFE, 1, 0, 3, 0, 2, 7, 0, 0, 0, 3, 97]

def noteRows : SortedMap Bytes Bytes := ⟨[([1], cutNote)], List.pairwise_singleton _ _⟩
def noteFamily : SortedMap Bytes Bytes := ⟨[([keyNsData, 1], cutNote)], List.pairwise_singleton _ _⟩

/- After `rnd_init`. -/
def onCutNote : PkState noteFamily noteRows where
  opened := true
  place := noteFamily.iterSeek [keyNsData]
  on := SortedMap.iterSeek_on _ _
  dir := .none
  exactDone := false
  currentPk := []
  there exactly := by cases exactly
  searchComp := []

/-- `rnd_next` returns 0 for a row that ends in its second column, and has read behind it. -/
theorem cut_row_is_returned :
    ¬ ∀ (L : RecordLayout) (encrypted : Bool) (aes : Aes) (masterKey : Option Bytes) (read : StoredRead Nat),
      read.Guarded L encrypted aes masterKey := by
  intro claim
  have reaches : (StoredRead.primary 1 noteFamily noteRows onCutNote .rndNext : StoredRead Nat).Reaches cutNote :=
    .inl ⟨rfl, rfl⟩
  have read_behind : (HaTidesdb.deserializeRow paddingOnly none noteLayout false [] cutNote noteDefaults).2 = 14 := rfl
  have corrupt : ¬ CompleteRow noteLayout false paddingOnly none cutNote := by
    intro complete
    have inside := complete.inside noteLayout false paddingOnly none [] noteDefaults rfl
    rw [read_behind] at inside
    exact absurd inside (by decide)
  obtain ⟨code, is_error⟩ := (claim noteLayout false paddingOnly none _ cutNote reaches).1 corrupt
  rw [StoredRead.status_of_reaches _ reaches] at is_error
  cases is_error

end TidesdbMysql
