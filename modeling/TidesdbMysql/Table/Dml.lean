import TidesdbMysql.Table.Schema
import TidesdbMysql.Txn.Engine

/-! `write_row`, `update_row` and `delete_row` as the writes they issue on the
column families of the table. The engine accepts every write here. -/
namespace TidesdbMysql

open Base (Bytes leBytes SortedMap Starts)
open Function

/-- What the buffers of one call held: the key's, each UNIQUE probe's, and the halves of each
entry's from either record. -/
structure Scratch where
  pk : Residue
  probe : Nat → Residue
  entry : Nat → Residue
  entryPk : Nat → Residue
  oldEntry : Nat → Residue

/-- An iterator `write_row` keeps for a UNIQUE key, with the entries it shows. -/
structure DupIter where
  txn : Nat
  generation : Nat
  seen : SortedMap Bytes Bytes

abbrev DupIters := Nat → Option DupIter

/-- A call of `write_row`; `updateAutoIncrement` is the value the server stores or its error. -/
structure Insert where
  record : Record
  isRecord0 : Bool
  updateAutoIncrement : Except HaCode (Option Bytes)
  skipUniqueCheck : Bool
  writeCanReplace : Bool
  txn : Nat
  txnGeneration : Nat
  scratch : Scratch

inductive ErrKey where
  | primary
  | secondary (i : Nat)
  deriving DecidableEq

structure WriteResult where
  code : HaCode
  errkey : Option ErrKey
  ops : List TableOp
  table : Table
  iters : DupIters

def emptyVal : Bytes := [0]

def hiddenPkSize : Nat := 8

def hiddenPk (rowId : Nat) : Bytes := (leBytes 8 rowId).reverse

def Schema.pkParts (T : Schema) : Nat :=
  match T.pk with
  | some key => key.parts.length
  | none => 0

/- The number field, where `update_auto_increment` is called for it. -/
def Insert.numbered (T : Schema) (req : Insert) : Option NumberField :=
  if req.isRecord0 then T.nextNumberField else none

section
variable (T : Schema) (ix : Index) (residue pkResidue : Residue) (current : Bytes) (record : Record) (s : Table)
  (req : Insert) (iters : DupIters) (i : Nat)

/-- The test that sets `pk_auto_generated`: only the number of primary key parts is compared. -/
def Insert.takenForGenerated : Bool :=
  match req.numbered T with
  | none => false
  | some f =>
    decide (f.valInt (column req.record f.field) = 0) && T.pk.isSome && T.pkParts == 1

/- The record as `update_auto_increment` leaves it. -/
def Insert.stored : Record :=
  match req.numbered T, req.updateAutoIncrement with
  | some f, .ok value => req.record.set f.field value
  | _, _ => req.record

def autoIncrement : Except HaCode Nat :=
  match req.numbered T, req.updateAutoIncrement with
  | none, _ => .ok s.autoIncVal
  | some _, .error e => .error e
  | some f, .ok value => .ok (max s.autoIncVal (f.valInt value))

/-- `update_auto_increment` is not called, or it succeeds. -/
def Insert.Served : Prop :=
  (req.numbered T).isSome = true → req.updateAutoIncrement.toBool = true
  deriving Decidable

theorem served_iff : req.Served T ↔ ∃ counter, autoIncrement T s req = .ok counter := by
  unfold Insert.Served autoIncrement
  cases req.numbered T with
  | none => simp
  | some f => cases req.updateAutoIncrement <;> simp [Except.toBool]

def pkFromRecord : Bytes :=
  match T.pk with
  | some key => makeComparableKey residue key.parts record
  | none => current

def secIdxKey : Bytes :=
  makeComparableKey residue ix.key.parts record ++ pkFromRecord T pkResidue current record

def Insert.looksUpPk : Bool :=
  T.pk.isSome && !(req.skipUniqueCheck || req.takenForGenerated T) &&
    !(req.writeCanReplace && T.indexes.isEmpty)

def dupIter : DupIter :=
  match iters i with
  | some it =>
    if it.txn = req.txn ∧ it.generation = req.txnGeneration then it
    else ⟨req.txn, req.txnGeneration, s.index i⟩
  | none => ⟨req.txn, req.txnGeneration, s.index i⟩

def probeKey (ix : Index) : Bytes :=
  makeComparableKey (req.scratch.probe i) ix.key.parts (req.stored T)

end

/- The first UNIQUE key under whose probe the iterator finds an entry. -/
def dupCheck (T : Schema) (s : Table) (req : Insert) : Nat → List Index → DupIters → Option Nat × DupIters
  | _, [], iters => (none, iters)
  | i, ix :: rest, iters =>
    if ix.isUnique then
      let it := dupIter s req iters i
      let iters := Function.update iters i (some it)
      -- valid after the seek, and the key at the cursor starts with the probe
      if (it.seen.seek (probeKey T req i ix)).head?.any (Starts (probeKey T req i ix)) then
        (some i, iters)
      else dupCheck T s req (i + 1) rest iters
    else dupCheck T s req (i + 1) rest iters

section
variable (mbr : Bytes → Option (Nat × Bytes)) (key : Key) (tokens : List Bytes) (pk : Bytes) (record : Record)
  (term : Bytes)

/- `tf_map` counts in 16 bits, the document length has 32. -/
def ftsTf : Nat := tokens.count term % 65536

def ftsWordCount : Nat := tokens.length % 4294967296

def ftsPut : CfOp Bytes :=
  .put (ftsBuildKey term pk) (ftsBuildValue (ftsTf tokens term) (ftsWordCount tokens))

def spatialPuts : List (CfOp Bytes) :=
  (spatialEntry mbr key record).toList.map fun e => .put (spatialBuildKey e.1 pk) e.2

def spatialDeletes : List (CfOp Bytes) :=
  (spatialEntry mbr key record).toList.map fun e => .delete (spatialBuildKey e.1 pk)

end

section
variable (T : Schema) (s : Table) (counter : Nat) (req : Insert) (scratch : Scratch) (pk : Bytes) (record : Record)
  (i : Nat) (ix : Index)

def writeEntries : List (CfOp Bytes) :=
  match ix.kind with
  | .fulltext tokenize =>
    (ftsTerms tokenize ix.key record).map
      (ftsPut (ftsExtractAndTokenize tokenize ix.key record) pk)
  | .spatial mbr => spatialPuts mbr ix.key pk record
  | .ordinary _ => [.put (secIdxKey T ix (scratch.entry i) (scratch.entryPk i) pk record) emptyVal]

def newPk : Bytes :=
  match T.pk with
  | some key => makeComparableKey req.scratch.pk key.parts (req.stored T)
  | none => hiddenPk s.nextRowId

def Table.counted : Table :=
  { s with
    nextRowId := if T.pk.isSome then s.nextRowId else s.nextRowId + 1
    autoIncVal := counter }

def writeOps : List TableOp :=
  .row (.put pk (req.stored T)) ::
    indexOps (writeEntries T req.scratch pk (req.stored T)) 0 T.indexes

end

def writeRow (T : Schema) (s : Table) (iters : DupIters) (req : Insert) : WriteResult :=
  match autoIncrement T s req with
  | .error e => ⟨e, none, [], s, iters⟩
  | .ok counter =>
    let pk := newPk T s req
    let counted := s.counted T counter
    if req.looksUpPk T && (s.rows.lookup pk).isSome then
      ⟨.foundDuppKey, some .primary, [], counted, iters⟩
    else
      match if req.skipUniqueCheck then (none, iters) else dupCheck T s req 0 T.indexes iters with
      | (some i, iters) => ⟨.foundDuppKey, some (.secondary i), [], counted, iters⟩
      | (none, iters) => ⟨.ok, none, writeOps T req pk, counted.applyAll (writeOps T req pk), iters⟩

section
variable (T : Schema) (s : Table) (iters : DupIters) (req : Insert) (i : Nat) (ix : Index)

def PkHit : Prop :=
  req.looksUpPk T = true ∧ s.rows.HasKey (newPk T s req)
  deriving Decidable

/-- The probe of a UNIQUE key meets an entry the iterator shows. -/
def ProbeHits : Prop :=
  ∃ e ∈ (dupIter s req iters i).seen.entries, Starts (probeKey T req i ix) e = true
  deriving Decidable

end

/-- Some UNIQUE key among `ixs`, numbered from `i`, has a probe that hits. -/
def UniqueHit (T : Schema) (s : Table) (iters : DupIters) (req : Insert) (i : Nat) (ixs : List Index) : Prop :=
  ∃ n ix, ixs[n]? = some ix ∧ ix.isUnique = true ∧ ProbeHits T s iters req (i + n) ix

def Hit (T : Schema) (s : Table) (iters : DupIters) (req : Insert) : Prop :=
  PkHit T s req ∨ (req.skipUniqueCheck = false ∧ UniqueHit T s iters req 0 T.indexes)

section Probes

variable {T : Schema} {s : Table} {iters : DupIters} {req : Insert}

theorem uniqueHit_cons (i : Nat) (ix : Index) (rest : List Index) : UniqueHit T s iters req i (ix :: rest) ↔
      (ix.isUnique = true ∧ ProbeHits T s iters req i ix) ∨ UniqueHit T s iters req (i + 1) rest := by
  have shift : ∀ n, i + (n + 1) = i + 1 + n := by
    intro n
    omega
  constructor
  · rintro ⟨n, found, at_n, unique, hits⟩
    cases n with
    | zero =>
      obtain rfl : ix = found := by simpa using at_n
      exact Or.inl ⟨unique, hits⟩
    | succ n =>
      rw [shift] at hits
      exact Or.inr ⟨n, found, by simpa using at_n, unique, hits⟩
  · rintro (⟨unique, hits⟩ | ⟨n, found, at_n, unique, hits⟩)
    · exact ⟨0, ix, rfl, unique, hits⟩
    · rw [← shift] at hits
      exact ⟨n + 1, found, by simpa using at_n, unique, hits⟩

theorem uniqueHit_update (i : Nat) (it : Option DupIter) (ixs : List Index) :
    UniqueHit T s (Function.update iters i it) req (i + 1) ixs ↔ UniqueHit T s iters req (i + 1) ixs := by
  refine exists_congr fun n => exists_congr fun ix => ?_
  have apart : i + 1 + n ≠ i := by omega
  have same : dupIter s req (update iters i it) (i + 1 + n) = dupIter s req iters (i + 1 + n) := by
    unfold dupIter
    rw [update_of_ne apart]
  rw [ProbeHits, same, ← ProbeHits]

theorem dupCheck_found (i : Nat) (ixs : List Index) :
    (dupCheck T s req i ixs iters).1.isSome = true ↔ UniqueHit T s iters req i ixs := by
  induction ixs generalizing i iters with
  | nil => simp [dupCheck, UniqueHit]
  | cons ix rest ih =>
    rw [uniqueHit_cons, dupCheck]
    cases unique : ix.isUnique with
    | false => simp [ih]
    | true =>
      have first : _ ↔ ProbeHits T s iters req i ix :=
        Base.seek_head_starts (dupIter s req iters i).seen (probeKey T req i ix)
      simp only [if_true, true_and, first]
      split
      · next hit => simp [hit]
      · next miss => rw [ih, uniqueHit_update, or_iff_right miss]

instance (i : Nat) (ixs : List Index) : Decidable (UniqueHit T s iters req i ixs) :=
  decidable_of_iff _ (dupCheck_found i ixs)

instance : Decidable (Hit T s iters req) :=
  inferInstanceAs (Decidable (PkHit T s req ∨ (req.skipUniqueCheck = false ∧ UniqueHit T s iters req 0 T.indexes)))

/-- `write_row` gives up with the server's error, reports a duplicate and writes nothing, or writes
the row and its entries. -/
theorem writeRow_cases (T : Schema) (s : Table) (iters : DupIters) (req : Insert) :
    (¬ req.Served T ∧ (writeRow T s iters req).ops = [] ∧ (writeRow T s iters req).table = s) ∨
    ∃ counter, req.Served T ∧ (Hit T s iters req ∧ (writeRow T s iters req).code = .foundDuppKey ∧
        (writeRow T s iters req).ops = [] ∧ (writeRow T s iters req).table = s.counted T counter ∨
      ¬ Hit T s iters req ∧ (writeRow T s iters req).code = .ok ∧
        (writeRow T s iters req).ops = writeOps T req (newPk T s req) ∧
        (writeRow T s iters req).table = (s.counted T counter).applyAll (writeOps T req (newPk T s req))) := by
  have served := served_iff T s req
  cases auto : autoIncrement T s req with
  | error e =>
    refine Or.inl ⟨fun answered => ?_, by simp [writeRow, auto]⟩
    obtain ⟨counter, ok⟩ := served.mp answered
    simp [auto] at ok
  | ok counter =>
    refine Or.inr ⟨counter, served.mpr ⟨counter, auto⟩, ?_⟩
    have taken : (s.rows.lookup (newPk T s req)).isSome = true ↔ s.rows.HasKey (newPk T s req) := by
      rw [Option.isSome_iff_ne_none, ne_eq, SortedMap.lookup_eq_none, not_not]
    simp only [writeRow, auto, Bool.and_eq_true, taken, Hit, PkHit]
    by_cases lookup : req.looksUpPk T = true ∧ s.rows.HasKey (newPk T s req)
    · simp [lookup]
    · cases skip : req.skipUniqueCheck with
      | true => simp [lookup]
      | false =>
        have check : (dupCheck T s req 0 T.indexes iters).1.isSome = true ↔
            UniqueHit T s iters req 0 T.indexes := dupCheck_found 0 T.indexes
        rcases dup : dupCheck T s req 0 T.indexes iters with ⟨found, after⟩
        rw [dup] at check
        cases found with
        | some | none => simp [lookup, ← check]

end Probes

/-- A call of `update_row`: the handler stands on the row `current`, and `writeSet`
lists the columns of `table->write_set`. -/
structure Update where
  current : Bytes
  old : Record
  new : Record
  writeSet : List Nat
  scratch : Scratch

def Key.touched (key : Key) (writeSet : List Nat) : Bool :=
  key.parts.any fun kp => decide (kp.field ∈ writeSet)

def updatedPk (T : Schema) (req : Update) : Bytes :=
  match T.pk with
  | some key =>
    if key.touched req.writeSet then makeComparableKey req.scratch.pk key.parts req.new
    else req.current
  | none => req.current

def ftsNeedPut (oldTokens newTokens : List Bytes) (term : Bytes) : Bool :=
  !(decide (term ∈ oldTokens)) || decide (ftsWordCount oldTokens ≠ ftsWordCount newTokens) ||
    decide (ftsTf oldTokens term ≠ ftsTf newTokens term)

def ftsUpdate (tokenize : Bytes → List Bytes) (key : Key) (req : Update) (pk : Bytes) : List (CfOp Bytes) :=
  let oldTokens := ftsExtractAndTokenize tokenize key req.old
  let newTokens := ftsExtractAndTokenize tokenize key req.new
  if req.current ≠ pk then
    oldTokens.dedup.map (fun term => .delete (ftsBuildKey term req.current)) ++
      newTokens.dedup.map (ftsPut newTokens pk)
  else
    (oldTokens.dedup.filter fun term => decide (term ∉ newTokens)).map
        (fun term => .delete (ftsBuildKey term req.current)) ++
      (newTokens.dedup.filter (ftsNeedPut oldTokens newTokens)).map (ftsPut newTokens pk)

def updateEntries (T : Schema) (req : Update) (pk : Bytes) (i : Nat) (ix : Index) : List (CfOp Bytes) :=
  match ix.kind with
  | .fulltext tokenize => if ix.key.touched req.writeSet then ftsUpdate tokenize ix.key req pk else []
  | .spatial mbr =>
    if ix.key.first.field ∈ req.writeSet then
      spatialDeletes mbr ix.key req.current req.old ++ spatialPuts mbr ix.key pk req.new
    else []
  | .ordinary _ =>
    if req.current = pk ∧ ix.key.touched req.writeSet = false then []
    else
      let oldIk := makeComparableKey (req.scratch.oldEntry i) ix.key.parts req.old ++ req.current
      let newIk := secIdxKey T ix (req.scratch.entry i) (req.scratch.entryPk i) pk req.new
      if oldIk = newIk then [] else [.delete oldIk, .put newIk emptyVal]

def updateOps (T : Schema) (req : Update) : List TableOp :=
  (if req.current ≠ updatedPk T req then [.row (.delete req.current)] else []) ++
    .row (.put (updatedPk T req) req.new) ::
      indexOps (updateEntries T req (updatedPk T req)) 0 T.indexes

/- No branch of `update_row` looks for a duplicate. -/
def updateRow (T : Schema) (s : Table) (req : Update) : HaCode × Table :=
  (.ok, s.applyAll (updateOps T req))

structure Delete where
  current : Bytes
  record : Record
  scratch : Scratch

def deleteEntries (T : Schema) (req : Delete) (i : Nat) (ix : Index) : List (CfOp Bytes) :=
  match ix.kind with
  | .fulltext tokenize =>
    (ftsTerms tokenize ix.key req.record).map fun term => .delete (ftsBuildKey term req.current)
  | .spatial mbr => spatialDeletes mbr ix.key req.current req.record
  | .ordinary _ =>
    [.delete (secIdxKey T ix (req.scratch.entry i) (req.scratch.entryPk i) req.current req.record)]

def deleteRow (T : Schema) (s : Table) (req : Delete) : HaCode × Table :=
  (.ok, s.applyAll (.row (.delete req.current) :: indexOps (deleteEntries T req) 0 T.indexes))

end TidesdbMysql
