import TidesdbMysql.Table.Reader

/-! `write_row`, `update_row` and `delete_row` as programs over the engine's calls, any of which may fail. -/
namespace TidesdbMysql

open Base (Bytes SortedMap Starts Iter Prog Service)

/-- The calls of one row. `restart` is the reset after a batch commit, or the new transaction where it fails. -/
inductive DmlCall where
  | get (pk : Bytes)
  | iterNew (i : Nat)
  | seek (i : Nat) (k : Bytes)
  | key (i : Nat)
  | op (o : TableOp)
  | metaGet (i : Nat)
  | metaPut (i : Nat) (docs words : Int)
  | commit
  | restart

abbrev DmlAns : DmlCall → Type
  | .get _ => Except Rc Record
  | .key _ => Except Rc Bytes
  | .metaGet _ => Except Rc (Int × Int)
  | .iterNew _ | .seek _ _ | .op _ | .metaPut _ _ _ | .commit | .restart => Rc

/- Where the iterators of the UNIQUE keys stand. -/
abbrev Places := Nat → Iter (Bytes × Bytes)

/-- What a call reads: the rows, the entries an iterator shows, the counters; nothing it has written
itself. -/
structure DmlView where
  rows : SortedMap Bytes Record
  seen : Nat → SortedMap Bytes Bytes
  counters : Nat → Option (Int × Int)

def dmlService (v : DmlView) : Service Places DmlCall DmlAns Failure where
  serve
    | .get pk, places => (foundOr (v.rows.lookup pk), places)
    | .iterNew i, places => (.success, Function.update places i none)
    | .seek i k, places => (.success, Function.update places i ((v.seen i).iterSeek k))
    | .key i, places => (foundOr ((places i).item.map Prod.fst), places)
    | .op _, places => (.success, places)
    | .metaGet i, places => (foundOr (v.counters i), places)
    | .metaPut _ _ _, places => (.success, places)
    | .commit, places => (.success, places)
    | .restart, places => (.success, places)
  refuse
    | .get _, f => .error f.rc
    | .iterNew _, f => f.rc
    | .seek _ _, f => f.rc
    | .key _, f => .error f.rc
    | .op _, f => f.rc
    | .metaGet _, f => .error f.rc
    | .metaPut _ _ _, f => f.rc
    | .commit, f => f.rc
    | .restart, f => f.rc

abbrev Writer := Prog Places DmlCall DmlAns HaCode

/- What becomes of `tidesdb_txn_delete_cf` on a full-text or a spatial key is not looked at. -/
def Index.ignores (ix : Index) : CfOp Bytes → Bool
  | .put _ _ => false
  | .delete _ =>
    match ix.kind with
    | .ordinary _ => false
    | .fulltext _ | .spatial _ => true

/-- Beside the row: a reason to give up before the first engine call, and whether the row fills its
batch. -/
structure RowContext where
  refusal : Option HaCode
  inBulkInsert : Bool
  batchFull : Bool

namespace Writer

def issueRow (o : CfOp Record) (next : Writer) : Writer := do
  let rc ← Prog.ask (DmlCall.op (.row o))
  if rc = Rc.success then next else pure (tdbRcToHa rc)

def issueEntries (ix : Index) (i : Nat) : List (CfOp Bytes) → Writer → Writer
  | [], next => next
  | o :: rest, next => do
    let rc ← Prog.ask (DmlCall.op (.entry i o))
    if rc = Rc.success ∨ ix.ignores o = true then issueEntries ix i rest next else pure (tdbRcToHa rc)

def ftsLoadMeta : Except Rc (Int × Int) → Int × Int
  | .ok totals => totals
  | .error _ => (0, 0)

/-- `fts_update_meta`, whose answer the callers drop. -/
def ftsUpdateMeta (i : Nat) (deltaDocs deltaWords : Int) (next : Writer) : Writer := do
  let loaded ← Prog.ask (DmlCall.metaGet i)
  let _ ← Prog.ask (DmlCall.metaPut i (max 0 ((ftsLoadMeta loaded).1 + deltaDocs))
    (max 0 ((ftsLoadMeta loaded).2 + deltaWords)))
  next

def overIndexes (entries : Nat → Index → List (CfOp Bytes)) (moved : Index → Option (Int × Int)) :
    Nat → List Index → Writer → Writer
  | _, [], next => next
  | i, ix :: rest, next => issueEntries ix i (entries i ix)
      (match moved ix with
      | none => overIndexes entries moved (i + 1) rest next
      | some delta => ftsUpdateMeta i delta.1 delta.2 (overIndexes entries moved (i + 1) rest next))

section
variable (iters : DupIters) (i : Nat) (key : Bytes) (next : Writer) (T : Schema) (req : Insert) (ix : Index)
  (record : Record) (ctx : RowContext)

/-- `maybe_bulk_commit`, where the batch is full. -/
def bulkTail : Writer :=
  if ctx.batchFull then do
    let rc ← Prog.ask DmlCall.commit
    if rc = Rc.success then do
      let rc ← Prog.ask DmlCall.restart
      if rc = Rc.success then pure .ok else pure (tdbRcToHa rc)
    else pure (tdbRcToHa rc)
  else pure .ok

def ftsWordDelta : Option Int :=
  match ix.kind with
  | .fulltext tokenize => some (ftsWordCount (ftsExtractAndTokenize tokenize ix.key record))
  | .ordinary _ | .spatial _ => none

def writeMoved (ix : Index) : Option (Int × Int) :=
  if ctx.inBulkInsert then none else (ftsWordDelta ix (req.stored T)).map fun words => (1, words)

def updateMoved (req : Update) (ix : Index) : Option (Int × Int) :=
  match ftsWordDelta ix req.old, ftsWordDelta ix req.new with
  | some old, some new => if ix.key.touched req.writeSet ∧ new - old ≠ 0 then some (0, new - old) else none
  | _, _ => none

def deleteMoved (req : Delete) (ix : Index) : Option (Int × Int) :=
  (ftsWordDelta ix req.record).map fun words => (-1, -words)

/- An entry that starts with the probe is a duplicate; a key that cannot be read is none. -/
def compareKey : Except Rc Bytes → Writer
  | .ok fk => if key <+: fk then pure .foundDuppKey else next
  | .error _ => next

def look : Writer :=
  .see fun places =>
    if (places i).isSome then Prog.ask (DmlCall.key i) >>= compareKey key next else next

def probe : Writer := do
  let _ ← Prog.ask (DmlCall.seek i key)
  look i key next

def cached (i : Nat) : Bool :=
  (iters i).any fun it => decide (it.txn = req.txn ∧ it.generation = req.txnGeneration)

end

def dupChecks (T : Schema) (iters : DupIters) (req : Insert) : Nat → List Index → Writer → Writer
  | _, [], next => next
  | i, ix :: rest, next =>
    if ix.isUnique then
      if cached iters req i then probe i (probeKey T req i ix) (dupChecks T iters req (i + 1) rest next)
      else do
        let rc ← Prog.ask (DmlCall.iterNew i)
        if rc = Rc.success then probe i (probeKey T req i ix) (dupChecks T iters req (i + 1) rest next)
        else pure (tdbRcToHa rc)
    else dupChecks T iters req (i + 1) rest next

section
variable (T : Schema) (s : Table) (iters : DupIters) (req : Insert) (ctx : RowContext) (pk : Bytes) (next : Writer)

def compareRow : Except Rc Record → Writer
  | .ok _ => pure .foundDuppKey
  | .error rc => if rc = .notFound then next else pure (tdbRcToHa rc)

def pkCheck : Writer := Prog.ask (DmlCall.get pk) >>= compareRow next

def writePuts : Writer :=
  issueRow (.put (newPk T s req) (req.stored T))
    (overIndexes (writeEntries T req.scratch (newPk T s req) (req.stored T)) (writeMoved T req ctx) 0 T.indexes
      (bulkTail ctx))

def writeChecks : Writer :=
  if req.skipUniqueCheck then writePuts T s req ctx
  else dupChecks T iters req 0 T.indexes (writePuts T s req ctx)

def writeRow : Writer :=
  match autoIncrement T s req, ctx.refusal with
  | .error code, _ => pure code
  | .ok _, some code => pure code
  | .ok _, none =>
    if req.looksUpPk T then pkCheck (newPk T s req) (writeChecks T s iters req ctx)
    else writeChecks T s iters req ctx

/- `in_bulk_update_` is never set. -/
def updateRow (req : Update) (ctx : RowContext) : Writer :=
  match ctx.refusal with
  | some code => pure code
  | none =>
    let put := issueRow (.put (updatedPk T req) req.new)
      (overIndexes (updateEntries T req (updatedPk T req)) (updateMoved req) 0 T.indexes (pure .ok))
    if req.current ≠ updatedPk T req then issueRow (.delete req.current) put else put

def deleteRow (req : Delete) (ctx : RowContext) : Writer :=
  match ctx.refusal with
  | some code => pure code
  | none => issueRow (.delete req.current)
      (overIndexes (deleteEntries T req) (deleteMoved req) 0 T.indexes (bulkTail ctx))

end

end Writer

end TidesdbMysql
