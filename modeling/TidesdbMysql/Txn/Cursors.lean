import TidesdbMysql.Txn.IsolationLevel

/-! The iterators of a connection's handlers, over the model of the connection: the scan iterator with its `scan_txn`,
the duplicate-check iterators, and every engine call made through one of them or through `stmt_txn`. Freeing an iterator
does not count as a call through it. -/
namespace TidesdbMysql
open Base

variable {W : Type}

/-- An engine object in a handler's hands: its transaction and the generation it was got in. `turn`
counts the changes of transaction until then, `none` for one made through an outdated pointer. -/
structure Held where
  txn : Nat
  generation : Nat
  turn : Option Nat
  deriving DecidableEq

/-- An iterator with its family, transaction and generation. It sees the connection's first `seen`
writes. -/
structure CachedIter where
  cf : Nat
  held : Held
  txnGen : Nat
  seen : Nat
  deriving DecidableEq

/- `stmtGeneration` and `stmtTurn` say when `stmt_txn` was set, `releasedAt` the writes at the last
unlock. -/
structure Cursor where
  stmtGeneration : Nat
  stmtTurn : Option Nat
  stmtTxnDirty : Bool
  cachedIsAutocommit : Bool
  scanTxn : Option Held
  scanCf : Option Nat
  scanIter : Option CachedIter
  scanIterLastErr : Option (Option Nat × Option Nat)
  dupIterCache : Nat → Option CachedIter
  releasedAt : Nat

def Cursor.opened : Cursor := ⟨0, none, false, false, none, none, none, none, fun _ => none, 0⟩

def Conn.liveId (c : Conn W) : Option (Nat × Nat) := idOf c.trx

def Conn.generation (c : Conn W) : Nat := (c.trx.map Trx.txnGeneration).getD 0

/-- `log` is what the row functions have written, with the handler; no scan sees the counts of
`end_bulk_insert`. -/
structure Session (W : Type) where
  conn : Conn W
  cursors : Nat → Cursor
  turns : Nat
  log : List (Nat × W)

/-- An engine call through an object, and the transaction and generation the connection had then. -/
structure Use where
  held : Held
  now : Option (Nat × Nat)
  deriving DecidableEq

/- What a call of `ensure_stmt_txn` may ask for and meet. -/
structure Opening where
  iso : Isolation
  rcs : TrxRcs

namespace Session

section
variable (s : Session W) (p : Nat) (c : Conn W) (h : Nat) (cursor : Cursor)

def setCursor : Session W :=
  { s with cursors := Function.update s.cursors h cursor }

@[simp] theorem setCursor_self : (s.setCursor h cursor).cursors h = cursor := by
  simp [setCursor]

theorem setCursor_other {h h' : Nat} (other : h' ≠ h) (cursor : Cursor) :
    (s.setCursor h cursor).cursors h' = s.cursors h' := by
  simp [setCursor, other]

def advance : Session W :=
  { s with conn := c, turns := if c.liveId = s.conn.liveId then s.turns else s.turns + 1 }

/- An object made through the pointer `p`. -/
def got : Held :=
  ⟨p, s.conn.generation, if s.conn.liveHandle = some p then some s.turns else none⟩

end

def stmtTxn (s : Session W) (h : Nat) : Option Held :=
  (s.conn.handlers h).stmtTxn.map fun p => ⟨p, (s.cursors h).stmtGeneration, (s.cursors h).stmtTurn⟩

section
variable (s : Session W) (o : Held) (h : Nat) (txn : Option Held) (it : CachedIter)

/- `stmt_txn = trx->txn`. -/
def take : Session W :=
  s.setCursor h { s.cursors h with stmtGeneration := s.conn.generation, stmtTurn := some s.turns }

def use : Use := ⟨o, s.conn.liveId⟩

def freeIters : Session W :=
  s.setCursor h { s.cursors h with scanIter := none, dupIterCache := fun _ => none }

def ensureStmtTxn (s : Session W) (h : Nat) (o : Opening) : Session W × HaCode :=
  if (s.conn.handlers h).stmtTxn.isSome then (s, .ok)
  else
    let (c, code) := s.conn.ensureStmtTxn h o.iso o.rcs
    if code = .ok then ((s.advance c).take h, .ok) else (s.advance c, code)

def curGen : Nat := if (s.conn.handlers h).cachedTrx then s.conn.generation else 0

def keeps : Bool :=
  txn.any (·.txn = it.held.txn) && it.txnGen = s.curGen h

end

/- The scan iterator `rnd_init` and `index_init` go on with. -/
def keptIter (s : Session W) (h : Nat) (cf : Nat) : Option CachedIter :=
  (s.cursors h).scanIter.filter fun it => it.cf = cf && s.keeps h (s.stmtTxn h) it

def rndInit (s : Session W) (h cf : Nat) (o : Opening) (newRc : Rc) : Session W × List Use :=
  let (s, code) := s.ensureStmtTxn h o
  if code ≠ .ok then (s, [])
  else
    match s.keptIter h cf with
    | some it => (s.setCursor h { s.cursors h with scanTxn := s.stmtTxn h }, [s.use it.held])
    | none =>
      match s.stmtTxn h with
      | none => (s, [])
      | some p =>
        if newRc = .success then
          (s.setCursor h { s.cursors h with scanTxn := some p, scanIter := some ⟨cf, s.got p.txn, s.curGen h, s.log.length⟩ },
            [s.use p, s.use (s.got p.txn)])
        else (s.setCursor h { s.cursors h with scanTxn := none, scanIter := none }, [s.use p])

/- `cf` is `none` if the key has no family. -/
def indexInit (s : Session W) (h : Nat) (cf : Option Nat) (o : Opening) : Session W × List Use :=
  let (s, code) := s.ensureStmtTxn h o
  if code ≠ .ok then (s, [])
  else
    match cf with
    | none => (s.setCursor h { s.cursors h with scanTxn := none, scanCf := none }, [])
    | some cf =>
      (s.setCursor h { s.cursors h with scanTxn := s.stmtTxn h, scanCf := some cf, scanIter := s.keptIter h cf }, [])

def ensureScanIter (s : Session W) (h : Nat) (newRc : Rc) : Session W × List Use × Bool :=
  let cursor := s.cursors h
  match cursor.scanIter with
  | some _ => (s, [], true)
  | none =>
    let attempt := (cursor.scanCf, cursor.scanTxn.map Held.txn)
    if cursor.scanIterLastErr = some attempt then (s, [], false)
    else
      match cursor.scanTxn, cursor.scanCf with
      | some p, some cf =>
        if newRc = .success then
          (s.setCursor h { cursor with scanIter := some ⟨cf, s.got p.txn, s.curGen h, s.log.length⟩, scanIterLastErr := none },
            [s.use p], true)
        else (s.setCursor h { cursor with scanIterLastErr := some attempt }, [s.use p], false)
      | _, _ => (s.setCursor h { cursor with scanIterLastErr := some attempt }, [], false)

section
variable (s : Session W) (h : Nat) (handler : Handler) (i cf : Nat) (o : Opening) (newRc : Rc) (fetches : Bool)

/- The calls through the scan iterator and through `scan_txn`. -/
def throughIter : List Use := ((s.cursors h).scanIter.map fun it => s.use it.held).toList

def throughScanTxn : List Use := ((s.cursors h).scanTxn.map s.use).toList

def throughStmtTxn : List Use := ((s.stmtTxn h).map s.use).toList

/- `index_next` and the other reads that begin with `ensure_scan_iter`; a row may be fetched by its primary key. -/
def indexRead : Session W × List Use :=
  let (s, uses, ok) := s.ensureScanIter h newRc
  if ok then (s, uses ++ s.throughIter h ++ if fetches then s.throughScanTxn h else []) else (s, uses)

def indexNextSame : List Use :=
  if (s.cursors h).scanIter.isNone then [] else s.throughIter h ++ if fetches then s.throughScanTxn h else []

/- `rnd_pos`, the full-text reads and the primary-key check of `write_row`. -/
def stmtRead : Session W × List Use :=
  let (s, code) := s.ensureStmtTxn h o
  if code ≠ .ok then (s, []) else (s, s.throughStmtTxn h)

/- The check of one unique key in `write_row`. -/
def uniqueCheck : Session W × List Use :=
  let (s, code) := s.ensureStmtTxn h o
  if code ≠ .ok then (s, [])
  else
    let cursor := s.cursors h
    match (cursor.dupIterCache i).filter (s.keeps h (s.stmtTxn h)) with
    | some it => (s, [s.use it.held])
    | none =>
      match s.stmtTxn h with
      | none => (s, [])
      | some p =>
        if newRc = .success then
          (s.setCursor h { cursor with
            dupIterCache := Function.update cursor.dupIterCache i (some ⟨cf, s.got p.txn, s.curGen h, s.log.length⟩) },
            [s.use p, s.use (s.got p.txn)])
        else (s.setCursor h { cursor with dupIterCache := Function.update cursor.dupIterCache i none }, [s.use p])

/- `if (!scan_txn) scan_txn = stmt_txn`. -/
def withScanTxn : Session W :=
  s.setCursor h { s.cursors h with scanTxn := (s.cursors h).scanTxn.or (s.stmtTxn h) }

def withScanCf : Session W := s.setCursor h { s.cursors h with scanCf := some cf }

/- `none` is the primary key: the row is fetched at once. -/
def multiRangeReadNext (cf : Option Nat) (o : Opening) (newRc : Rc) (fetches : Bool) : Session W × List Use :=
  let (s, code) := s.ensureStmtTxn h o
  if code ≠ .ok then (s, [])
  else
    match cf with
    | none => (s.withScanTxn h, if fetches then (s.withScanTxn h).throughScanTxn h else [])
    | some cf => ((s.withScanTxn h).withScanCf h cf).indexRead h newRc fetches

/- `rnd_end` and `index_end` keep the iterator. -/
def scanEnd : Session W := s.setCursor h { s.cursors h with scanTxn := none }

def release : Session W :=
  { s.setCursor h { s.cursors h with stmtTxnDirty := false, releasedAt := s.log.length } with
    conn := s.conn.setHandler h handler }

end

section
variable (s : Session W) (h : Nat) (call : RowCall W) (ws : List W)

def close : Session W :=
  (s.freeIters h).release h { s.conn.handlers h with stmtTxn := none }

def externalLock (s : Session W) (h : Nat) (o : Opening) : Session W :=
  let (c, code) := s.conn.externalLock h o.iso o.rcs
  let s := s.advance c
  if code = .ok then
    let s := s.take h
    s.setCursor h { s.cursors h with stmtTxnDirty := false, cachedIsAutocommit := !c.inTrx }
  else s

/- Iterators are kept over the end of a statement in a transaction, unless the handler has written. -/
def dropsIters : Bool :=
  let handler := s.conn.handlers h
  let inMultiStmt := if handler.cachedTrx then !(s.cursors h).cachedIsAutocommit else s.conn.inTrx
  let frozenView := handler.cachedTrx && s.conn.trx.any fun x => x.isolationLevel.frozen
  !inMultiStmt || (s.cursors h).stmtTxnDirty || !frozenView

def externalUnlock : Session W :=
  (if s.dropsIters h then s.freeIters h else s).release h { s.conn.handlers h with stmtTxn := none, cachedTrx := false }

/-- After a batch commit the handler gives up its iterators and takes the transaction anew. -/
def bulkTail (s : Session W) (h : Nat) (call : RowCall W) : Session W :=
  let (c, r) := s.conn.bulkTail h call
  if s.conn.fillsBatch h call.kind && s.conn.liveHandle.isSome && r.code = .ok then
    let s := ((s.advance c).freeIters h).take h
    s.setCursor h { s.cursors h with scanTxn := s.conn.liveHandle.map s.got }
  else s.advance c

def markDirty (s : Session W) (h : Nat) : Session W :=
  (s.advance (s.conn.markDirty h)).setCursor h { s.cursors h with stmtTxnDirty := true }

def wrote : Session W := { s with log := s.log ++ ws.map (h, ·) }

def rowOp : Session W × List Use :=
  match call.refusal with
  | .beforeTxn _ => (s, [])
  | refusal =>
    let (s, code) := s.ensureStmtTxn h ⟨call.iso, call.trxRcs⟩
    if code ≠ .ok then (s, [])
    else
      let s := s.markDirty h
      match refusal with
      | .afterTxn _ => (s, [])
      | _ =>
        let uses := if call.calls.isEmpty then [] else s.throughStmtTxn h
        let (c, r) := s.conn.throughStmtTxn h (putAll · call.calls)
        let s := (s.advance c).wrote h r.buffered
        if r.code ≠ .ok then (s, uses) else (s.bulkTail h call, uses)

end

end Session

/-- The calls on a connection's handlers and its hooks; the checks of a `write_row` come one after
the other. -/
inductive SessionCall (W : Type) where
  | server (e : Event W)
  | rndInit (h cf : Nat) (o : Opening) (newRc : Rc)
  | rndNext (h : Nat)
  | indexInit (h : Nat) (cf : Option Nat) (o : Opening)
  | indexRead (h : Nat) (newRc : Rc) (fetches : Bool)
  | indexNextSame (h : Nat) (fetches : Bool)
  | pointRead (h : Nat)
  | stmtRead (h : Nat) (o : Opening)
  | uniqueCheck (h i cf : Nat) (o : Opening) (newRc : Rc)
  | multiRangeReadNext (h : Nat) (cf : Option Nat) (o : Opening) (newRc : Rc) (fetches : Bool)
  | scanEnd (h : Nat)
  | close (h : Nat)

namespace Session

def serve (s : Session W) : Event W → Session W × List Use
  | .externalLock h iso rcs => (s.externalLock h ⟨iso, rcs⟩, [])
  | .externalUnlock h => (s.externalUnlock h, [])
  | .row h call => s.rowOp h call
  | .endBulkInsert h metaCalls =>
    (s.advance (s.conn.endBulkInsert h metaCalls).1, if metaCalls.isEmpty then [] else s.throughStmtTxn h)
  | .deleteAllRows h result =>
    let s := s.freeIters h
    ((s.advance (s.conn.step (.deleteAllRows h result)).1).setCursor h { s.cursors h with stmtTxnDirty := false }, [])
  | e => (s.advance (s.conn.step e).1, [])

def step (s : Session W) : SessionCall W → Session W × List Use
  | .server e => s.serve e
  | .rndInit h cf o newRc => s.rndInit h cf o newRc
  | .rndNext h => (s, s.throughIter h)
  | .indexInit h cf o => s.indexInit h cf o
  | .indexRead h newRc fetches => s.indexRead h newRc fetches
  | .indexNextSame h fetches => (s, s.indexNextSame h fetches)
  | .pointRead h => (s, s.throughScanTxn h)
  | .stmtRead h o => s.stmtRead h o
  | .uniqueCheck h i cf o newRc => s.uniqueCheck h i cf o newRc
  | .multiRangeReadNext h cf o newRc fetches => s.multiRangeReadNext h cf o newRc fetches
  | .scanEnd h => (s.scanEnd h, [])
  | .close h => (s.close h, [])

def opened (c : Conn W) : Session W := ⟨c, fun _ => .opened, 0, []⟩

section
variable (s : Session W) (e : Event W) (h : Nat) (call : RowCall W) (o : Opening)

end

end Session

end TidesdbMysql
