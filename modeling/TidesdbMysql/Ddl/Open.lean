import TidesdbMysql.Ddl.Names
import TidesdbMysql.Table.Counters

/-! `open` on a share that several handlers use. The part under `lock_shared_ha_data` is one step; an open that meets the
mutex held by a call that has returned waits for ever. Options that are copied from the definition alone (isolation,
TTL, BLOB fields, codecs) are left out. -/
namespace TidesdbMysql
open Base

namespace Opening

/- `fields` are the numbers of the key's columns. -/
structure KeyInfo where
  name : Name
  comparableKeyLength : Nat
  isFts : Bool
  isSpatial : Bool
  fields : List Nat

structure TableInfo where
  cfName : Name
  keys : List KeyInfo
  primaryKey : Option Nat
  fields : Nat
  encryptionKeyId : Option Nat
  schema : Schema
  table : Table

/-- What the engine, the key file and the data dictionary answer to one open; no version is
`ENCRYPTION_KEY_VERSION_INVALID`. -/
structure OpenAnswers where
  dataCf : Bool
  keyVersion : Option Nat
  idxCf : Name → Bool
  recover : RecoverAnswers
  valid : Bool

/-- The share. A family handle is null or not; `pkIndex` is none without a primary key. -/
structure Share where
  cf : Bool
  cfName : Name
  pkIndex : Option Nat
  pkKeyLen : Nat
  encryption : Option (Nat × Nat)
  idxCompKeyLen : List Nat
  idxIsFts : List Bool
  idxIsSpatial : List Bool
  idxCover : List (List Bool)
  idxCfs : List Bool
  idxCfNames : List Name
  numSecondaryIndexes : Nat
  nextRowId : Nat
  autoIncVal : Nat
  deriving DecidableEq

/- `TidesDB_share::TidesDB_share` -/
def Share.fresh : Share := ⟨false, [], none, 0, none, [], [], [], [], [], [], 0, 1, 0⟩

section
variable (info : TableInfo)

def pkFields : List Nat :=
  match info.primaryKey.bind (info.keys[·]?) with
  | none => []
  | some pk => pk.fields

def coverOf (key : KeyInfo × Nat) : List Bool :=
  (List.range info.fields).map fun f =>
    key.1.fields.contains f || info.primaryKey ≠ some key.2 && (pkFields info).contains f

def idxSlot (ans : OpenAnswers) (key : KeyInfo × Nat) : Bool × Name :=
  if info.primaryKey = some key.2 then (false, [])
  else (ans.idxCf (idxCfName info.cfName key.1.name), idxCfName info.cfName key.1.name)

def pkLength : Nat :=
  match info.primaryKey.bind (info.keys[·]?) with
  | none => hiddenPkSize
  | some pk => pk.comparableKeyLength

/- The counters of the share after `recover_counters`. -/
def recoverShare (a : RecoverAnswers) (share : Share) : Share :=
  let t := recoverCounters info.schema a { info.table with nextRowId := share.nextRowId, autoIncVal := share.autoIncVal }
  { share with nextRowId := t.nextRowId, autoIncVal := t.autoIncVal }

def nameShare (share : Share) : Share := { share with cfName := info.cfName }

def bindShare (share : Share) : Share :=
  { share with cf := true, pkIndex := info.primaryKey, pkKeyLen := pkLength info, encryption := none }

def fillShare (ans : OpenAnswers) (encryption : Option (Nat × Nat)) (share : Share) : Share :=
  let slots := info.keys.zipIdx.map (idxSlot info ans)
  recoverShare info ans.recover { share with
    encryption
    idxCompKeyLen := info.keys.map (·.comparableKeyLength)
    idxIsFts := info.keys.map (·.isFts)
    idxIsSpatial := info.keys.map (·.isSpatial)
    idxCover := info.keys.zipIdx.map (coverOf info)
    idxCfs := share.idxCfs ++ slots.map (·.1)
    idxCfNames := share.idxCfNames ++ slots.map (·.2)
    numSecondaryIndexes := (share.idxCfs ++ slots.map (·.1)).count true }

inductive OpenResult where
  | done | closed | noSuchTable | tableDefChanged | blocked
  deriving DecidableEq

structure State where
  locked : Bool
  share : Share
  opened : Nat → Bool

inductive Event where
  | openCall (handler : Nat) (ans : OpenAnswers)
  | closeCall (handler : Nat)

def finishOpen (ans : OpenAnswers) (handler : Nat) (st : State) : State × OpenResult :=
  if ans.valid then ({ st with opened := Function.update st.opened handler true }, .done) else (st, .tableDefChanged)

def openTable (ans : OpenAnswers) (handler : Nat) (st : State) : State × OpenResult :=
  if st.locked then (st, .blocked)
  else if st.share.cf then finishOpen ans handler st
  else
    let share := nameShare info st.share
    if ans.dataCf = false then ({ st with share }, .noSuchTable)
    else
      match info.encryptionKeyId with
      | none => finishOpen ans handler { st with share := fillShare info ans none (bindShare info share) }
      | some id =>
        match ans.keyVersion with
        -- this exit does not unlock
        | none => ({ st with locked := true, share := { bindShare info share with encryption := some (id, 0) } }, .noSuchTable)
        | some version =>
          finishOpen ans handler { st with share := fillShare info ans (some (id, version)) (bindShare info share) }

def openStep (st : State) : Event → State × OpenResult
  | .openCall handler ans => openTable info ans handler st
  | .closeCall handler => ({ st with opened := Function.update st.opened handler false }, .closed)

def start : State := ⟨false, .fresh, fun _ => false⟩

def counters (t : Table) : Nat × Nat := (t.nextRowId, t.autoIncVal)

structure FullyInitialised (share : Share) : Prop where
  cf : share.cf = true
  cfName : share.cfName = info.cfName
  pkKeyLen : share.pkKeyLen = pkLength info
  encryption : share.encryption.map (·.1) = info.encryptionKeyId
  idxCompKeyLen : share.idxCompKeyLen = info.keys.map (·.comparableKeyLength)
  idxCover : share.idxCover = info.keys.zipIdx.map (coverOf info)
  idxCfs : ∀ i key, info.keys[i]? = some key → info.primaryKey ≠ some i →
    share.idxCfs[i]? = some true ∧ share.idxCfNames[i]? = some (idxCfName info.cfName key.name)
  counted : (share.nextRowId, share.autoIncVal) = counters (reopen info.schema recovered info.table)

def Blank (share : Share) : Prop := share = { Share.fresh with cfName := share.cfName }

/-- A call that has come back: the mutex is free, the share is initialised or is not, and the open handlers have one
that is. -/
structure Settled (st : State) (result : OpenResult) : Prop where
  returned : result ≠ .blocked
  unlocked : st.locked = false
  share : FullyInitialised info st.share ∨ Blank st.share
  opened : ∀ handler, st.opened handler = true → FullyInitialised info st.share

/- The calls of `recover_counters` that the table needs. -/
def RecoverCalls (T : Schema) (a : RecoverAnswers) : Prop :=
  a.txnBegin = true ∧ a.iterNew = true ∧ a.iterKey = true ∧
    (T.pk.isSome = true → T.nextNumberField.isSome = true → a.iterValue = true)

/-- The key is available if needed, every index family is found, and the counters are read or as
constructed. -/
def InitSucceeds (ans : OpenAnswers) : Prop :=
  (info.encryptionKeyId.isSome = true → ans.keyVersion.isSome = true) ∧
    (∀ key ∈ info.keys.zipIdx, info.primaryKey ≠ some key.2 → ans.idxCf (idxCfName info.cfName key.1.name) = true) ∧
      (RecoverCalls info.schema ans.recover ∨ counters (reopen info.schema recovered info.table) = (1, 0))

def FirstInit : List Event → Prop
  | [] => True
  | .closeCall _ :: rest => FirstInit rest
  | .openCall _ ans :: rest => if ans.dataCf then InitSucceeds info ans else FirstInit rest

end

variable {T : Schema} {a : RecoverAnswers} {s : Table}

theorem seedCounters_failed (begun : a.txnBegin = true) (made : a.iterNew = true)
    (failed : ¬ RecoverCalls T a) : seedCounters T a s = s := by
  unfold seedCounters
  cases s.rows.entries.getLast? with
  | none => rfl
  | some last =>
    cases key : a.iterKey with
    | false => rfl
    | true =>
      have unread : ¬ (T.pk.isSome = true → T.nextNumberField.isSome = true → a.iterValue = true) :=
        fun value => failed ⟨begun, made, key, value⟩
      cases pk : T.pk with
      | none => simp [pk] at unread
      | some k =>
        cases number : T.nextNumberField with
        | none => rfl
        | some f =>
          have value : a.iterValue = false := by simpa [pk, number] using unread
          simp [value]

theorem counters_of_failed (failed : ¬ RecoverCalls T a) : counters (reopen T a s) = (1, 0) := by
  unfold reopen recoverCounters
  cases begun : a.txnBegin with
  | false => simp [counters]
  | true =>
    cases made : a.iterNew with
    | false => simp [counters]
    | true => simp [seedCounters_failed begun made failed, counters]

theorem reopen_of_calls (calls : RecoverCalls T a) : reopen T a s = reopen T recovered s := by
  obtain ⟨begun, made, key, value⟩ := calls
  have seeded : ∀ t, seedCounters T a t = seedCounters T recovered t := by
    intro t
    unfold seedCounters
    cases t.rows.entries.getLast? with
    | none => rfl
    | some last =>
      rw [key]
      cases pk : T.pk with
      | none => rfl
      | some k =>
        cases number : T.nextNumberField with
        | none => rfl
        | some f => simp [value (by simp [pk]) (by simp [number]), recovered]
  unfold reopen recoverCounters
  simp [begun, made, seeded, recovered]

theorem counters_iff : counters (reopen T a s) = counters (reopen T recovered s) ↔
      RecoverCalls T a ∨ counters (reopen T recovered s) = (1, 0) := by
  by_cases calls : RecoverCalls T a
  · simp [reopen_of_calls calls, calls]
  · rw [counters_of_failed calls]
    simp [calls, eq_comm]

section Opens

variable {info : TableInfo} {st : State}

variable {share : Share} {events : List Event}

theorem not_blank_of_cf (cf : share.cf = true) : ¬ Blank share := by
  intro blank
  rw [blank] at cf
  cases cf

theorem fillShare_slot (ans : OpenAnswers) (encryption : Option (Nat × Nat)) {i : Nat} {key : KeyInfo}
    (cfs : share.idxCfs = []) (names : share.idxCfNames = []) (listed : info.keys[i]? = some key) :
    (fillShare info ans encryption share).idxCfs[i]? = some (idxSlot info ans (key, i)).1 ∧
      (fillShare info ans encryption share).idxCfNames[i]? = some (idxSlot info ans (key, i)).2 := by
  simp [fillShare, recoverShare, cfs, names, List.getElem?_zipIdx, listed]

theorem fillShare_counters (info : TableInfo) (ans : OpenAnswers) (encryption : Option (Nat × Nat)) (rows : share.nextRowId = 1)
    (numbers : share.autoIncVal = 0) :
    ((fillShare info ans encryption share).nextRowId, (fillShare info ans encryption share).autoIncVal) =
      counters (reopen info.schema ans.recover info.table) := by
  simp [fillShare, recoverShare, reopen, counters, rows, numbers]

/-- The share that an open fills in is fully initialised, just when every call on the way has succeeded. -/
theorem fillShare_initialised_iff {ans : OpenAnswers} {encryption : Option (Nat × Nat)} (blank : Blank share)
    (keyed : encryption.map (·.1) = info.encryptionKeyId) :
    FullyInitialised info (fillShare info ans encryption (bindShare info (nameShare info share))) ↔
      (∀ key ∈ info.keys.zipIdx, info.primaryKey ≠ some key.2 → ans.idxCf (idxCfName info.cfName key.1.name) = true) ∧
        (RecoverCalls info.schema ans.recover ∨ counters (reopen info.schema recovered info.table) = (1, 0)) := by
  have cfs : (bindShare info (nameShare info share)).idxCfs = [] := by rw [blank]; rfl
  have names : (bindShare info (nameShare info share)).idxCfNames = [] := by rw [blank]; rfl
  have rows : (bindShare info (nameShare info share)).nextRowId = 1 := by rw [blank]; rfl
  have numbers : (bindShare info (nameShare info share)).autoIncVal = 0 := by rw [blank]; rfl
  have counted := fillShare_counters info ans encryption rows numbers
  constructor
  · intro full
    refine ⟨?_, counters_iff.mp (counted.symm.trans full.counted)⟩
    rintro ⟨key, i⟩ mem secondary
    have listed : info.keys[i]? = some key := List.mk_mem_zipIdx_iff_getElem?.mp mem
    have found := (full.idxCfs i key listed secondary).1
    rw [(fillShare_slot ans encryption cfs names listed).1, idxSlot, if_neg secondary] at found
    exact Option.some.inj found
  · rintro ⟨found, recovers⟩
    refine ⟨rfl, rfl, rfl, keyed, rfl, rfl, ?_, counted.trans (counters_iff.mpr recovers)⟩
    intro i key listed secondary
    have here := found (key, i) (List.mk_mem_zipIdx_iff_getElem?.mpr listed) secondary
    obtain ⟨slot, name⟩ := fillShare_slot ans encryption cfs names listed
    rw [slot, name, idxSlot, if_neg secondary]
    exact ⟨congrArg some here, rfl⟩

section
variable (ans : OpenAnswers) (handler : Nat) (unlocked : st.locked = false)
include unlocked

theorem finishOpen_settled (full : FullyInitialised info st.share) :
    Settled info (finishOpen ans handler st).1 (finishOpen ans handler st).2 ∧
      (finishOpen ans handler st).1.locked = false ∧ (finishOpen ans handler st).1.share = st.share := by
  unfold finishOpen
  split <;> exact ⟨⟨by simp, unlocked, .inl full, fun _ _ => full⟩, unlocked, rfl⟩

theorem along_initialised (full : FullyInitialised info st.share) :
    Along (openStep info) (fun st e => Settled info (openStep info st e).1 (openStep info st e).2) st events := by
  induction events generalizing st with
  | nil => trivial
  | cons e rest ih =>
    cases e with
    | openCall handler ans =>
      have step : openStep info st (.openCall handler ans) = finishOpen ans handler st := by
        simp [openStep, openTable, unlocked, full.cf]
      obtain ⟨settled, free, same⟩ := finishOpen_settled ans handler unlocked full
      rw [Along, step]
      exact ⟨settled, ih free (same ▸ full)⟩
    | closeCall handler => exact ⟨⟨by simp [openStep], unlocked, .inl full, fun _ _ => full⟩, ih unlocked full⟩

/- An open that fills the share in settles, and with it all that follows, just when the share is complete. -/
theorem finishOpen_iff {ans : OpenAnswers} {handler : Nat} (cf : st.share.cf = true) :
    (Settled info (finishOpen ans handler st).1 (finishOpen ans handler st).2 ∧
      Along (openStep info) (fun st e => Settled info (openStep info st e).1 (openStep info st e).2)
        (finishOpen ans handler st).1 events) ↔ FullyInitialised info st.share := by
  have same : (finishOpen ans handler st).1.share = st.share := by
    unfold finishOpen
    split <;> rfl
  constructor
  · rintro ⟨settled, -⟩
    rcases settled.share with full | blank
    · exact same ▸ full
    · exact absurd (same ▸ blank) (not_blank_of_cf cf)
  · intro full
    obtain ⟨settled, free, -⟩ := finishOpen_settled ans handler unlocked full
    exact ⟨settled, along_initialised free (same ▸ full)⟩

theorem openTable_cases (cf : st.share.cf = false) :
    (ans.dataCf = false ∧ openTable info ans handler st = ({ st with share := nameShare info st.share }, .noSuchTable)) ∨
    (ans.dataCf = true ∧ info.encryptionKeyId.isSome = true ∧ ans.keyVersion.isSome = false ∧
      (openTable info ans handler st).1.locked = true) ∨
    (ans.dataCf = true ∧ (info.encryptionKeyId.isSome = true → ans.keyVersion.isSome = true) ∧
      ∃ encryption, encryption.map (·.1) = info.encryptionKeyId ∧ openTable info ans handler st =
        finishOpen ans handler { st with share := fillShare info ans encryption (bindShare info (nameShare info st.share)) }) := by
  unfold openTable
  rw [unlocked, cf]
  cases ans.dataCf with
  | false => exact .inl ⟨rfl, rfl⟩
  | true =>
    cases info.encryptionKeyId with
    | none => exact .inr (.inr ⟨rfl, nofun, none, rfl, rfl⟩)
    | some id =>
      cases ans.keyVersion with
      | none => exact .inr (.inl ⟨rfl, rfl, rfl, rfl⟩)
      | some version => exact .inr (.inr ⟨rfl, fun _ => rfl, some (id, version), rfl, rfl⟩)

end

theorem along_blank (unlocked : st.locked = false) (blank : Blank st.share)
    (unopened : ∀ handler, st.opened handler = false) :
    Along (openStep info) (fun st e => Settled info (openStep info st e).1 (openStep info st e).2) st events ↔
      FirstInit info events := by
  have settled_blank : ∀ {st : State} {result}, result ≠ .blocked → st.locked = false → Blank st.share →
      (∀ handler, st.opened handler = false) → Settled info st result := by
    intro st result returned unlocked blank unopened
    refine ⟨returned, unlocked, .inr blank, ?_⟩
    intro handler opened
    rw [unopened] at opened
    cases opened
  induction events generalizing st with
  | nil => simp [Along, FirstInit]
  | cons e rest ih =>
    rw [Along]
    cases e with
    | closeCall handler =>
      have still : ∀ other, Function.update st.opened handler false other = false := by
        intro other
        by_cases same : other = handler <;> simp [same, unopened]
      have settled : Settled info (openStep info st (.closeCall handler)).1 (openStep info st (.closeCall handler)).2 :=
        settled_blank (by simp [openStep]) unlocked blank still
      rw [FirstInit, and_iff_right settled]
      exact ih unlocked blank still
    | openCall handler ans =>
      have cf : st.share.cf = false := by rw [blank]; rfl
      rw [FirstInit, openStep]
      rcases openTable_cases ans handler unlocked cf with
        ⟨missing, step⟩ | ⟨found, encrypted, keyless, locked⟩ | ⟨found, keyed, encryption, key, step⟩
      · have blank_named : Blank (nameShare info st.share) := by
          rw [blank]
          rfl
        have settled : Settled info { st with share := nameShare info st.share } .noSuchTable :=
          settled_blank (by simp) unlocked blank_named unopened
        rw [step, missing, and_iff_right settled]
        exact ih unlocked blank_named unopened
      · rw [if_pos found]
        constructor
        · rintro ⟨settled, -⟩
          rw [settled.unlocked] at locked
          cases locked
        · intro succeeds
          rw [succeeds.1 encrypted] at keyless
          cases keyless
      · rw [if_pos found, step]
        refine (finishOpen_iff ?_ ?_).trans ?_
        · exact unlocked
        · rfl
        · exact (fillShare_initialised_iff blank key).trans (and_iff_right keyed).symm

end Opens

/- An encrypted table without keys, whose encryption key is not there at the first open. -/
section

def encryptedTable : TableInfo := ⟨['d'], [], none, 1, some 7, ⟨none, [], none⟩, Table.empty⟩

def keyMissing : OpenAnswers := ⟨true, none, fun _ => true, recovered, true⟩

def allAnswered : OpenAnswers := ⟨true, some 1, fun _ => true, recovered, true⟩

end

end Opening

end TidesdbMysql
