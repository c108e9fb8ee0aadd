import TidesdbMysql.Table.Unique
import TidesdbMysql.Txn.Session

/-! The iterators `write_row` keeps for its UNIQUE checks, over the statements of one transaction.
An iterator shows what its transaction saw when it was opened. -/
namespace TidesdbMysql

open Base (Bytes SortedMap Starts run Along)
open Function

/-- What the engine answers in `maybe_bulk_commit`: the commit's code, and the transaction to go on
in. -/
structure BulkAnswers where
  commit : Rc
  next : Except Rc Nat

/-- A handler and its connection's transaction. `cachedStmtShape` says whether the statement is
autocommit, and is set within one. -/
structure DmlHandler where
  committed : Table
  snapshot : Option Table
  buffer : List TableOp
  txn : Nat
  txnGeneration : Nat
  trxFrozen : Bool
  dupIterCache : DupIters
  stmtTxnDirty : Bool
  cachedStmtShape : Option Bool
  inBulkInsert : Bool
  inBulkDelete : Bool
  bulkInsertOps : Nat

inductive DmlEvent where
  | externalLock (isAutocommit : Bool)
  | externalUnlock (inTrx : Bool)
  | startBulkInsert
  | endBulkInsert
  | startBulkDelete
  | endBulkDelete
  | write (req : Insert) (bulk : BulkAnswers)
  | update (req : Update)
  | delete (req : Delete) (bulk : BulkAnswers)
  | otherCommits (ops : List TableOp)

namespace DmlHandler

def view (h : DmlHandler) : Table :=
  { (h.snapshot.getD h.committed).applyAll h.buffer with
    nextRowId := h.committed.nextRowId
    autoIncVal := h.committed.autoIncVal }

def freeDupIterCache (h : DmlHandler) : DmlHandler := { h with dupIterCache := fun _ => none }

/- The call as `write_row` compares it with the cached iterators. -/
def request (h : DmlHandler) (req : Insert) : Insert :=
  { req with txn := h.txn, txnGeneration := if h.cachedStmtShape.isSome then h.txnGeneration else 0 }

def externalLock (h : DmlHandler) (isAutocommit : Bool) : DmlHandler :=
  { h with stmtTxnDirty := false, cachedStmtShape := some isAutocommit }

def externalUnlock (h : DmlHandler) (inTrx : Bool) : DmlHandler :=
  let inMultiStmt := match h.cachedStmtShape with
    | some isAutocommit => !isAutocommit
    | none => inTrx
  let frozenView := h.cachedStmtShape.isSome && h.trxFrozen
  let h := if !inMultiStmt || h.stmtTxnDirty || !frozenView then h.freeDupIterCache else h
  { h with stmtTxnDirty := false, cachedStmtShape := none }

def maybeBulkCommit (h : DmlHandler) (bulk : BulkAnswers) : DmlHandler × HaCode :=
  if h.cachedStmtShape.isNone then (h, .ok)
  else if bulk.commit ≠ .success then (h, tdbRcToHa bulk.commit)
  else
    -- the new transaction runs at READ COMMITTED
    let h := { h with committed := h.committed.applyAll h.buffer, snapshot := none, buffer := [] }
    match bulk.next with
    | .error rc => (h, tdbRcToHa rc)
    | .ok txn => ({ h with txn := txn, txnGeneration := h.txnGeneration + 1 }.freeDupIterCache, .ok)

def bulkTail (h : DmlHandler) (inBulk : Bool) (ops : Nat) (bulk : BulkAnswers) : DmlHandler × HaCode :=
  if inBulk then
    let h := { h with bulkInsertOps := h.bulkInsertOps + ops }
    if h.bulkInsertOps ≥ tidesdbBulkInsertBatchOps then
      let (h, code) := h.maybeBulkCommit bulk
      if code ≠ .ok then (h, code) else ({ h with bulkInsertOps := 0 }, .ok)
    else (h, .ok)
  else (h, .ok)

variable (T : Schema)

/- The handler after the checks and the puts of `write_row`. -/
def written (h : DmlHandler) (req : Insert) : DmlHandler :=
  let r := writeRow T h.view h.dupIterCache (h.request req)
  { h with
    stmtTxnDirty := h.stmtTxnDirty || decide (req.Served T)
    dupIterCache := r.iters
    buffer := h.buffer ++ r.ops
    committed := { h.committed with nextRowId := r.table.nextRowId, autoIncVal := r.table.autoIncVal } }

def deleted (h : DmlHandler) (req : Delete) : DmlHandler :=
  { h with
    stmtTxnDirty := true
    buffer := h.buffer ++ .row (.delete req.current) :: indexOps (deleteEntries T req) 0 T.indexes }

def step (h : DmlHandler) : DmlEvent → DmlHandler × HaCode
  | .externalLock isAutocommit => (h.externalLock isAutocommit, .ok)
  | .externalUnlock inTrx => (h.externalUnlock inTrx, .ok)
  | .startBulkInsert => ({ h with inBulkInsert := true, bulkInsertOps := 0 }, .ok)
  | .endBulkInsert => ({ h with inBulkInsert := false }, .ok)
  | .startBulkDelete => ({ h with inBulkDelete := true, bulkInsertOps := 0 }, .ok)
  | .endBulkDelete => ({ h with inBulkDelete := false }, .ok)
  | .write req bulk =>
    let r := writeRow T h.view h.dupIterCache (h.request req)
    if r.code ≠ .ok then (h.written T req, r.code)
    else (h.written T req).bulkTail h.inBulkInsert (1 + T.indexes.length) bulk
  | .update req => ({ h with stmtTxnDirty := true, buffer := h.buffer ++ updateOps T req }, .ok)
  | .delete req bulk => (h.deleted T req).bulkTail h.inBulkDelete (1 + T.indexes.length) bulk
  | .otherCommits ops => ({ h with committed := h.committed.applyAll ops }, .ok)

end DmlHandler

/-- A `write_row` answers as it would with freshly opened iterators, and names the same key. -/
def SameVerdict (T : Schema) (h : DmlHandler) : DmlEvent → Prop
  | .write req _ =>
    (writeRow T h.view h.dupIterCache (h.request req)).code = (writeRow T h.view (fun _ => none) (h.request req)).code ∧
      (writeRow T h.view h.dupIterCache (h.request req)).errkey =
        (writeRow T h.view (fun _ => none) (h.request req)).errkey
  | _ => True

def Under (index : SortedMap Bytes Bytes) (probe : Bytes) : Prop := ∃ e ∈ index.entries, Starts probe e = true

/-- Up to the first UNIQUE key met under the probe, each was met at the iterator's opening just when
it is now. -/
def ProbesAsOpened (T : Schema) (s : Table) (iters : DupIters) (req : Insert) : Nat → List Index → Prop
  | _, [] => True
  | i, ix :: rest =>
    if ix.isUnique then
      (Under (dupIter s req iters i).seen (probeKey T req i ix) ↔ Under (s.index i) (probeKey T req i ix)) ∧
        (¬ Under (s.index i) (probeKey T req i ix) → ProbesAsOpened T s iters req (i + 1) rest)
    else ProbesAsOpened T s iters req (i + 1) rest

/-- The checks of a `write_row` that reaches them find the probes as they were. -/
def Undisturbed (T : Schema) (h : DmlHandler) : DmlEvent → Prop
  | .write req _ => req.Served T → ¬ PkHit T h.view (h.request req) → req.skipUniqueCheck = false →
    ProbesAsOpened T h.view h.dupIterCache (h.request req) 0 T.indexes
  | _ => True

instance (T : Schema) (h : DmlHandler) (e : DmlEvent) : Decidable (SameVerdict T h e) := by
  cases e <;> dsimp only [SameVerdict] <;> infer_instance

section
variable {T : Schema} {s : Table} {iters : DupIters} {req : Insert}

theorem dupCheck_congr {iters' : DupIters} {i : Nat} (ixs : List Index) (same : ∀ j, i ≤ j → iters j = iters' j) :
    (dupCheck T s req i ixs iters).1 = (dupCheck T s req i ixs iters').1 := by
  induction ixs generalizing i iters iters' with
  | nil => rfl
  | cons ix rest ih =>
    have here : dupIter s req iters i = dupIter s req iters' i := by
      unfold dupIter
      rw [same i le_rfl]
    have later : ∀ it : Option DupIter, ∀ j, i + 1 ≤ j → update iters i it j = update iters' i it j := by
      intro it j above
      have other : j ≠ i := by omega
      rw [update_of_ne other, update_of_ne other]
      exact same j (by omega)
    simp only [dupCheck, here]
    split
    · split
      · rfl
      · exact ih (later _)
    · exact ih fun j above => same j (by omega)

theorem dupCheck_cons (i : Nat) (ix : Index) (rest : List Index) : (dupCheck T s req i (ix :: rest) iters).1 =
      if ix.isUnique = true ∧ ProbeHits T s iters req i ix then some i
      else (dupCheck T s req (i + 1) rest iters).1 := by
  have moved : ∀ it : Option DupIter, ∀ j, i + 1 ≤ j → update iters i it j = iters j := by
    intro it j above
    exact update_of_ne (by omega) _ _
  have found : _ ↔ ProbeHits T s iters req i ix :=
    Base.seek_head_starts (dupIter s req iters i).seen (probeKey T req i ix)
  rw [dupCheck]
  cases unique : ix.isUnique with
  | false => simp
  | true =>
    simp only [if_true, true_and, found]
    split
    · rfl
    · exact dupCheck_congr rest (moved _)

theorem dupCheck_bound {i k : Nat} (ixs : List Index) (found : (dupCheck T s req i ixs iters).1 = some k) : i ≤ k := by
  induction ixs generalizing i with
  | nil => simp [dupCheck] at found
  | cons ix rest ih =>
    rw [dupCheck_cons] at found
    split at found
    · cases found
      exact le_rfl
    · exact Nat.le_of_succ_le (ih found)

theorem dupCheck_same_iff (i : Nat) (ixs : List Index) :
    (dupCheck T s req i ixs iters).1 = (dupCheck T s req i ixs fun _ => none).1 ↔
      ProbesAsOpened T s iters req i ixs := by
  induction ixs generalizing i with
  | nil => simp [dupCheck, ProbesAsOpened]
  | cons ix rest ih =>
    rw [dupCheck_cons, dupCheck_cons, ProbesAsOpened]
    cases unique : ix.isUnique with
    | false => simp [ih]
    | true =>
      -- a later key never answers with this key's number
      have later : ∀ its : DupIters, (dupCheck T s req (i + 1) rest its).1 ≠ some i := by
        intro its found
        exact absurd (dupCheck_bound rest found) (by omega)
      simp only [if_true, true_and]
      change _ ↔ (ProbeHits T s iters req i ix ↔ ProbeHits T s (fun _ => none) req i ix) ∧
        (¬ ProbeHits T s (fun _ => none) req i ix → ProbesAsOpened T s iters req (i + 1) rest)
      by_cases now : ProbeHits T s (fun _ => none) req i ix <;> by_cases opened : ProbeHits T s iters req i ix
      · simp [now, opened]
      · simp [now, opened, later]
      · simp [now, opened, (later _).symm]
      · simp [now, opened, ih]

theorem writeRow_same_iff (iters' : DupIters) : ((writeRow T s iters req).code = (writeRow T s iters' req).code ∧
      (writeRow T s iters req).errkey = (writeRow T s iters' req).errkey) ↔
    (req.Served T → ¬ PkHit T s req → req.skipUniqueCheck = false →
      (dupCheck T s req 0 T.indexes iters).1 = (dupCheck T s req 0 T.indexes iters').1) := by
  have served := served_iff T s req
  have taken : (s.rows.lookup (newPk T s req)).isSome = true ↔ s.rows.HasKey (newPk T s req) := by
    rw [Option.isSome_iff_ne_none, ne_eq, SortedMap.lookup_eq_none, not_not]
  cases auto : autoIncrement T s req with
  | error e =>
    have failed : ¬ req.Served T := by
      intro answered
      obtain ⟨counter, ok⟩ := served.mp answered
      simp [auto] at ok
    simp [writeRow, auto, failed]
  | ok counter =>
    have answered := served.mpr ⟨counter, auto⟩
    simp only [writeRow, auto, Bool.and_eq_true, taken, answered, true_imp_iff, PkHit]
    by_cases lookup : req.looksUpPk T = true ∧ s.rows.HasKey (newPk T s req)
    · simp [lookup]
    · cases skip : req.skipUniqueCheck with
      | true => simp [lookup]
      | false =>
        simp only [not_false_eq_true, lookup, Bool.false_eq_true, if_false, true_imp_iff]
        rcases dupCheck T s req 0 T.indexes iters with ⟨found, after⟩
        rcases dupCheck T s req 0 T.indexes iters' with ⟨found', after'⟩
        cases found <;> cases found' <;> simp

end

theorem same_verdict_iff (T : Schema) (h : DmlHandler) (e : DmlEvent) : SameVerdict T h e ↔ Undisturbed T h e := by
  cases e with
  | write req bulk =>
    refine (writeRow_same_iff _).trans ?_
    rw [dupCheck_same_iff]
    exact Iff.rfl
  | _ => exact Iff.rfl

/-- The server locks the table once for each statement, and writes rows in a statement. -/
def Bracketed (h : DmlHandler) : DmlEvent → Prop
  | .externalLock _ => h.cachedStmtShape = none
  | .write _ _ => h.cachedStmtShape.isSome = true
  | _ => True

instance (h : DmlHandler) (e : DmlEvent) : Decidable (Bracketed h e) := by
  cases e <;> dsimp only [Bracketed] <;> infer_instance

def DmlHandler.opened (committed : Table) : DmlHandler :=
  ⟨committed, none, [], 0, 1, false, fun _ => none, false, none, false, false, 0⟩

/- `INSERT INTO t VALUES (1, 7), (2, 7)`. -/
def insertTwice : List DmlEvent :=
  [.externalLock true, .write (insertOf [some [1], some [7]]) ⟨.success, .ok 0⟩,
    .write (insertOf [some [2], some [7]]) ⟨.success, .ok 0⟩, .externalUnlock false]

end TidesdbMysql
