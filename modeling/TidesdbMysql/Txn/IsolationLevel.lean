import TidesdbMysql.Txn.Turns

/-! The isolation level of a connection's engine transaction beside the one that `trx->isolation_level` records. -/
namespace TidesdbMysql
open Base Option Conn Engine

variable {W : Type}

/- The order of `tidesdb_isolation_level_t`. -/
def Isolation.strength : Isolation → Nat
  | .readUncommitted => 0
  | .readCommitted => 1
  | .repeatableRead => 2
  | .snapshot => 3
  | .serializable => 4

def levelsOf (trx : Option (Trx W)) : Option (Isolation × Isolation) :=
  trx.bind fun x => x.txn.map fun t => (t.isolation, x.isolationLevel)

/-- Whether `get_or_create_trx` begins or resets a transaction, and succeeds. -/
def opens (trx : Option (Trx W)) (rcs : TrxRcs) : Bool :=
  match trx with
  | none => rcs.malloc && rcs.beginRc = .success
  | some x =>
    if x.txn.isNone then rcs.beginRc = .success
    else x.needsReset && (rcs.resetRc = .success || rcs.beginRc = .success)

def Conn.opensAt (c : Conn W) : Event W → Option Isolation
  | .startConsistentSnapshot iso rcs | .externalLock _ iso rcs => if opens c.trx rcs then some iso else none
  | .row h call =>
    match call.refusal with
    | .beforeTxn _ => none
    | _ => if (c.handlers h).stmtTxn.isNone && opens c.trx call.trxRcs then some call.iso else none
  | _ => none

def Conn.bulkStart (c : Conn W) (h : Nat) (call : RowCall W) : Option (Conn W) :=
  match call.refusal with
  | .none =>
    let (c, code) := c.ensureStmtTxn h call.iso call.trxRcs
    if code ≠ .ok then none
    else
      let (c, r) := (c.markDirty h).throughStmtTxn h (putAll · call.calls)
      if r.code ≠ .ok then none else some c
  | _ => none

def EngineTxn.isActive (t : EngineTxn W) : Bool :=
  match t.phase with
  | .active _ => true
  | _ => false

def Conn.fillsBatch (c : Conn W) (h : Nat) (kind : RowKind) : Bool :=
  (c.handlers h).inBulk kind &&
  ((c.handlers h).bulkInsertOps + 1 + (c.handlers h).numSecondaryIndexes ≥ tidesdbBulkInsertBatchOps) &&
  (c.handlers h).cachedTrx

def Conn.renewsBatch (c : Conn W) (h : Nat) (call : RowCall W) : Bool :=
  c.fillsBatch h call.kind && ((c.trx.bind Trx.txn).any EngineTxn.isActive && call.bulkCommit.rc = .success &&
    (call.bulkReset = .success || call.bulkBegin = .success))

def Conn.renewsAt (c : Conn W) : Event W → Option Isolation
  | .row h call =>
    (c.bulkStart h call).bind fun mid => if mid.renewsBatch h call then (levelsOf mid.trx).map Prod.snd else none
  | _ => none

structure Watched (W : Type) where
  conn : Conn W
  opened : Option Isolation

def Watched.step (w : Watched W) (e : Event W) : Watched W × Result W :=
  (⟨(w.conn.step e).1, (w.conn.opensAt e).or w.opened⟩, (w.conn.step e).2)

/-- The level on record is that of the engine transaction, which is no weaker than the level it was opened at. -/
def Watched.RealLevel (w : Watched W) : Prop :=
  ∀ l ∈ levelsOf w.conn.trx, l.1 = l.2 ∧ ∀ level ∈ w.opened, level.strength ≤ l.1.strength

/-- A batch is committed in mid-statement only at READ COMMITTED. -/
def BatchAtReadCommitted (w : Watched W) (e : Event W) : Prop :=
  ∀ level ∈ w.conn.renewsAt e, level = .readCommitted

section Levels

variable {e : Engine W} {trx : Option (Trx W)}

def KeepsLevels (trx trx' : Option (Trx W)) : Prop := levelsOf trx' = none ∨ levelsOf trx' = levelsOf trx

theorem levelsOf_attached {x : Trx W} {t : EngineTxn W} (attached : x.txn = some t) :
    levelsOf (some x) = some (t.isolation, x.isolationLevel) := by
  simp [levelsOf, attached]

theorem keepsLevels_attached {x x' : Trx W} {t t' : EngineTxn W} (before : x.txn = some t) (after : x'.txn = some t')
    (level : t'.isolation = t.isolation) (record : x'.isolationLevel = x.isolationLevel) :
    KeepsLevels (some x) (some x') := by
  right
  rw [levelsOf_attached before, levelsOf_attached after, level, record]

theorem getOrCreateTrx_levels (e : Engine W) (trx : Option (Trx W)) (iso : Isolation) (rcs : TrxRcs) :
    if opens trx rcs then levelsOf (getOrCreateTrx e trx iso rcs).2.1 = some (iso, iso)
    else KeepsLevels trx (getOrCreateTrx e trx iso rcs).2.1 := by
  cases trx with
  | none =>
    cases malloc : rcs.malloc with
    | false => simp [opens, getOrCreateTrx, malloc, KeepsLevels]
    | true => by_cases begun : rcs.beginRc = .success <;> simp [opens, getOrCreateTrx, malloc, begun, KeepsLevels, levelsOf, txnBegin]
  | some x =>
    cases attached : x.txn with
    | none => by_cases begun : rcs.beginRc = .success <;> simp [opens, getOrCreateTrx, attached, begun, KeepsLevels, levelsOf, txnBegin]
    | some t =>
      cases flagged : x.needsReset with
      | false => simp [opens, getOrCreateTrx, attached, flagged, KeepsLevels]
      | true =>
        by_cases reset : rcs.resetRc = .success
        · simp [opens, getOrCreateTrx, attached, flagged, reset, levelsOf, txnReset]
        · by_cases begun : rcs.beginRc = .success <;>
            simp [opens, getOrCreateTrx, attached, flagged, reset, begun, KeepsLevels, levelsOf, txnBegin]

theorem keepsLevels_refl (trx : Option (Trx W)) : KeepsLevels trx trx := .inr rfl

theorem Hooked.keepsLevels {trx' : Option (Trx W)} (hooked : Hooked trx trx') : KeepsLevels trx trx' := by
  cases hooked with
  | same => exact keepsLevels_refl _
  | freed detached =>
    left
    simp [levelsOf, detached]
  | finished attached same => exact keepsLevels_attached attached rfl same.isolation rfl
  | touched attached same => exact keepsLevels_attached attached rfl same.isolation rfl

end Levels

section Step

variable {c : Conn W} {h : Nat} {call : RowCall W}

@[simp] theorem markDirty_levels (c : Conn W) (h : Nat) : levelsOf (c.markDirty h).trx = levelsOf c.trx := by
  unfold markDirty
  split
  · cases c.trx <;> rfl
  · rfl

theorem throughStmtTxn_levels (puts : EngineTxn W → EngineTxn W × List W × Rc)
    (longer : ∀ t, Extends t (puts t).1 (puts t).2.1) : levelsOf (c.throughStmtTxn h puts).1.trx = levelsOf c.trx := by
  rcases throughStmtTxn_cases c h puts with same | ⟨x, t, held, attached, done⟩
  · rw [same]
  · rw [done, held, levelsOf_attached attached, levelsOf_attached rfl, (longer t).same.isolation]

theorem ensureStmtTxn_levels (iso : Isolation) (rcs : TrxRcs) : if (c.handlers h).stmtTxn.isNone && opens c.trx rcs then
      levelsOf (c.ensureStmtTxn h iso rcs).1.trx = some (iso, iso)
    else KeepsLevels c.trx (c.ensureStmtTxn h iso rcs).1.trx := by
  have got := getOrCreateTrx_levels c.engine c.trx iso rcs
  unfold ensureStmtTxn
  cases pointer : (c.handlers h).stmtTxn with
  | some p => exact keepsLevels_refl _
  | none =>
    have trx : (if (c.getOrCreate iso rcs).2 = true then ((c.getOrCreate iso rcs).1.setHandler h
          { (c.getOrCreate iso rcs).1.handlers h with stmtTxn := (c.getOrCreate iso rcs).1.liveHandle }, HaCode.ok)
        else ((c.getOrCreate iso rcs).1, HaCode.outOfMem)).1.trx = (getOrCreateTrx c.engine c.trx iso rcs).2.1 := by
      split <;> rfl
    simp only [isNone_none, Bool.true_and, isSome_none, Bool.false_eq_true, if_false]
    rw [trx]
    exact got

theorem txnCommit_success {e : Engine W} {t : EngineTxn W} {answer : WriteRc} :
    (e.txnCommit t answer).2.2 = .success ↔ t.isActive = true ∧ answer.rc = .success := by
  unfold txnCommit EngineTxn.isActive
  cases t.phase with
  | active ws =>
    by_cases accepted : answer.rc = .success
    · simp [accepted]
    · cases answer.aborts <;> simp [accepted]
  | prepared | committed | aborted => simp

theorem maybeBulkCommit_levels (c : Conn W) (h : Nat) (call : RowCall W) :
    if (c.trx.bind Trx.txn).any EngineTxn.isActive && call.bulkCommit.rc = .success &&
        (call.bulkReset = .success || call.bulkBegin = .success) then
      ∃ l, levelsOf c.trx = some l ∧ levelsOf (c.maybeBulkCommit h call).1.trx = some (.readCommitted, l.2)
    else KeepsLevels c.trx (c.maybeBulkCommit h call).1.trx := by
  cases held : c.trx with
  | none =>
    simp only [maybeBulkCommit, held]
    exact keepsLevels_refl _
  | some x =>
    cases attached : x.txn with
    | none =>
      simp only [maybeBulkCommit, held, attached]
      simpa [attached] using keepsLevels_refl _
    | some t =>
      have level := (txnCommit_same c.engine t call.bulkCommit).2.isolation
      by_cases done : (c.engine.txnCommit t call.bulkCommit).2.2 = .success
      · obtain ⟨active, accepted⟩ := txnCommit_success.mp done
        by_cases reset : call.bulkReset = .success
        · simp [maybeBulkCommit, held, attached, done, active, accepted, reset, levelsOf, txnReset, setHandler]
        · by_cases begun : call.bulkBegin = .success
          · simp [maybeBulkCommit, held, attached, done, active, accepted, reset, begun, levelsOf, txnBegin, setHandler]
          · simp [maybeBulkCommit, held, attached, done, active, accepted, reset, begun, levelsOf, KeepsLevels]
      · have refused : ¬ (t.isActive = true ∧ call.bulkCommit.rc = .success) := fun both => done (txnCommit_success.mpr both)
        have kept : KeepsLevels (some x) (c.maybeBulkCommit h call).1.trx := by
          simp only [maybeBulkCommit, held, attached, done, ne_eq, not_false_eq_true, if_true]
          exact keepsLevels_attached attached rfl level rfl
        rw [if_neg]
        · exact kept
        · simp only [bind_some, attached, any_some, Bool.and_eq_true, decide_eq_true_eq]
          exact fun all => refused all.1

def Conn.countRow (c : Conn W) (h : Nat) : Conn W :=
  c.setHandler h { c.handlers h with
    bulkInsertOps := (c.handlers h).bulkInsertOps + 1 + (c.handlers h).numSecondaryIndexes }

/-- The same transaction and the same pointers to it: only the handlers' counts differ. -/
structure SameButCounts (c c' : Conn W) : Prop where
  engine : c'.engine = c.engine
  trx : c'.trx = c.trx
  pointers : ∀ h, (c'.handlers h).stmtTxn = (c.handlers h).stmtTxn
  cached : ∀ h, (c'.handlers h).cachedTrx = (c.handlers h).cachedTrx

theorem setHandler_field {α : Type} (field : Handler → α) (c : Conn W) (h : Nat) {handler : Handler}
    (same : field handler = field (c.handlers h)) : ∀ h', field ((c.setHandler h handler).handlers h') = field (c.handlers h') := by
  intro h'
  by_cases own : h' = h
  · subst own
    rw [setHandler_same, same]
  · exact congrArg field (Function.update_of_ne own _ _)

section
variable (c) (e : Event W) (h call)

theorem sameButCounts_setHandler {handler : Handler} (pointer : handler.stmtTxn = (c.handlers h).stmtTxn)
    (cached : handler.cachedTrx = (c.handlers h).cachedTrx) : SameButCounts c (c.setHandler h handler) :=
  ⟨rfl, rfl, setHandler_field Handler.stmtTxn c h pointer, setHandler_field Handler.cachedTrx c h cached⟩

theorem bulkTail_spec : if c.fillsBatch h call.kind then
      SameButCounts ((c.countRow h).maybeBulkCommit h call).1 (c.bulkTail h call).1 ∧
        (c.bulkTail h call).2 = ((c.countRow h).maybeBulkCommit h call).2
    else SameButCounts c (c.bulkTail h call).1 ∧ (c.bulkTail h call).2 = answer .ok := by
  have counted : SameButCounts c (c.countRow h) := sameButCounts_setHandler c h rfl rfl
  by_cases bulk : (c.handlers h).inBulk call.kind = true
  · by_cases full : (c.handlers h).bulkInsertOps + 1 + (c.handlers h).numSecondaryIndexes ≥ tidesdbBulkInsertBatchOps
    · by_cases cached : (c.handlers h).cachedTrx = true
      · have fills : c.fillsBatch h call.kind = true := by simp [fillsBatch, bulk, full, cached]
        rw [fills, if_pos rfl]
        unfold bulkTail
        dsimp only
        rw [if_pos bulk, if_pos full, setHandler_same, if_pos cached]
        split
        · exact ⟨⟨rfl, rfl, fun _ => rfl, fun _ => rfl⟩, rfl⟩
        · exact ⟨sameButCounts_setHandler _ h rfl rfl, rfl⟩
      · have stays : c.fillsBatch h call.kind = false := by simp [fillsBatch, cached]
        rw [stays]
        unfold bulkTail
        rw [if_pos bulk, if_pos full, setHandler_same, if_neg cached]
        have again : SameButCounts (c.countRow h) ((c.countRow h).setHandler h
            { (c.countRow h).handlers h with bulkInsertOps := 0 }) := sameButCounts_setHandler (c.countRow h) h rfl rfl
        exact ⟨⟨rfl, rfl, fun h' => (again.pointers h').trans (counted.pointers h'),
          fun h' => (again.cached h').trans (counted.cached h')⟩, rfl⟩
    · have stays : c.fillsBatch h call.kind = false := by simp [fillsBatch, full]
      rw [stays]
      unfold bulkTail
      rw [if_pos bulk, if_neg full]
      exact ⟨counted, rfl⟩
  · have stays : c.fillsBatch h call.kind = false := by simp [fillsBatch, bulk]
    rw [stays]
    unfold bulkTail
    rw [if_neg bulk]
    exact ⟨⟨rfl, rfl, fun _ => rfl, fun _ => rfl⟩, rfl⟩

theorem bulkTail_levels : if c.renewsBatch h call then
      ∃ l, levelsOf c.trx = some l ∧ levelsOf (c.bulkTail h call).1.trx = some (.readCommitted, l.2)
    else KeepsLevels c.trx (c.bulkTail h call).1.trx := by
  have committed := maybeBulkCommit_levels (c.countRow h) h call
  have spec := bulkTail_spec c h call
  rw [renewsBatch]
  cases full : c.fillsBatch h call.kind with
  | false =>
    rw [full] at spec
    rw [spec.1.trx]
    exact keepsLevels_refl _
  | true =>
    rw [full] at spec
    rw [Bool.true_and, spec.1.trx]
    exact committed

def Conn.levelsFor : Option (Isolation × Isolation) :=
  ((c.opensAt e).map fun iso => (iso, iso)).or (levelsOf c.trx)

end

inductive LevelStep (c : Conn W) (e : Event W) : Option (Isolation × Isolation) → Prop where
  | gone (quiet : c.renewsAt e = none) : LevelStep c e none
  | kept {l : Isolation × Isolation} (quiet : c.renewsAt e = none) (levels : c.levelsFor e = some l) : LevelStep c e (some l)
  | renewed {l : Isolation × Isolation} (renews : c.renewsAt e = some l.2) (levels : c.levelsFor e = some l) :
      LevelStep c e (some (.readCommitted, l.2))

theorem levelStep_of_keeps {e : Event W} {trx : Option (Trx W)} (quiet : c.renewsAt e = none) (closed : c.opensAt e = none)
    (keeps : KeepsLevels c.trx trx) : LevelStep c e (levelsOf trx) := by
  rcases keeps with none | same
  · rw [none]
    exact .gone quiet
  · rw [same]
    cases levels : levelsOf c.trx with
    | none => exact .gone quiet
    | some l => exact .kept quiet (by rw [levelsFor, closed, levels]; rfl)

theorem levelStep_getOrCreate {e : Event W} {iso : Isolation} {rcs : TrxRcs} (quiet : c.renewsAt e = none)
    (asked : c.opensAt e = if opens c.trx rcs then some iso else none) :
    LevelStep c e (levelsOf (c.getOrCreate iso rcs).1.trx) := by
  have got := getOrCreateTrx_levels c.engine c.trx iso rcs
  cases opened : opens c.trx rcs with
  | false =>
    rw [opened] at got asked
    exact levelStep_of_keeps quiet asked got
  | true =>
    rw [opened] at got asked
    have levels : levelsOf (c.getOrCreate iso rcs).1.trx = some (iso, iso) := got
    rw [levels]
    exact .kept quiet (by rw [levelsFor, asked]; rfl)

theorem levelStep_of_levelsFor {e : Event W} {levels : Option (Isolation × Isolation)} (quiet : c.renewsAt e = none)
    (reached : levels = none ∨ levels = c.levelsFor e) : LevelStep c e levels := by
  rcases reached with rfl | rfl
  · exact .gone quiet
  · cases levels : c.levelsFor e with
    | none => exact .gone quiet
    | some l => exact .kept quiet levels

theorem ensured_levels (c : Conn W) (h : Nat) {call : RowCall W} (passed : ∀ code, call.refusal ≠ .beforeTxn code) :
    levelsOf (c.ensureStmtTxn h call.iso call.trxRcs).1.trx = none ∨
      levelsOf (c.ensureStmtTxn h call.iso call.trxRcs).1.trx = c.levelsFor (.row h call) := by
  have asked : c.opensAt (.row h call) =
      if (c.handlers h).stmtTxn.isNone && opens c.trx call.trxRcs then some call.iso else none := by
    cases refusal : call.refusal with
    | beforeTxn code => exact absurd refusal (passed code)
    | none | afterTxn => simp only [opensAt, refusal]
  have got := ensureStmtTxn_levels (c := c) (h := h) call.iso call.trxRcs
  rw [levelsFor, asked]
  split at got
  · rename_i opened
    rw [if_pos opened]
    exact .inr got
  · rename_i closed
    rw [if_neg closed]
    exact got

theorem rowOp_levels (c : Conn W) (h : Nat) (call : RowCall W) :
    LevelStep c (.row h call) (levelsOf (c.rowOp h call).1.trx) := by
  cases refusal : call.refusal with
  | beforeTxn code =>
    have quiet : c.renewsAt (.row h call) = none := by simp [renewsAt, bulkStart, refusal]
    have closed : c.opensAt (.row h call) = none := by simp [opensAt, refusal]
    simp only [rowOp, refusal]
    exact levelStep_of_keeps quiet closed (keepsLevels_refl _)
  | afterTxn code =>
    have quiet : c.renewsAt (.row h call) = none := by simp [renewsAt, bulkStart, refusal]
    have passed : ∀ code, call.refusal ≠ .beforeTxn code := by simp [refusal]
    have reached := ensured_levels c h passed
    apply levelStep_of_levelsFor quiet
    simp only [rowOp, refusal]
    split
    · exact reached
    · rw [markDirty_levels]
      exact reached
  | none =>
    have passed : ∀ code, call.refusal ≠ .beforeTxn code := by simp [refusal]
    have reached := ensured_levels c h passed
    have put := throughStmtTxn_levels (c := (c.ensureStmtTxn h call.iso call.trxRcs).1.markDirty h) (h := h)
      (putAll · call.calls) (putAll_extends · call.calls)
    rw [markDirty_levels] at put
    by_cases ensured : (c.ensureStmtTxn h call.iso call.trxRcs).2 = .ok
    · by_cases done : (((c.ensureStmtTxn h call.iso call.trxRcs).1.markDirty h).throughStmtTxn h
          (putAll · call.calls)).2.code = .ok
      · simp only [rowOp, refusal, ensured, ne_eq, not_true_eq_false, if_false, done]
        have start : c.bulkStart h call = some (((c.ensureStmtTxn h call.iso call.trxRcs).1.markDirty h).throughStmtTxn h
            (putAll · call.calls)).1 := by
          simp only [bulkStart, refusal, ensured, ne_eq, not_true_eq_false, if_false, done]
        rw [← put] at reached
        revert start reached
        generalize (((c.ensureStmtTxn h call.iso call.trxRcs).1.markDirty h).throughStmtTxn h (putAll · call.calls)).1 = mid
        intro reached start
        have tail := bulkTail_levels mid h call
        have renews : c.renewsAt (.row h call) =
            if mid.renewsBatch h call then (levelsOf mid.trx).map Prod.snd else none := by
          rw [renewsAt, start, bind_some]
        split at tail
        · rename_i full
          obtain ⟨l, levels, after⟩ := tail
          rw [if_pos full, levels] at renews
          rw [levels] at reached
          rw [after]
          exact .renewed renews (reached.resolve_left nofun).symm
        · rename_i room
          rw [if_neg room] at renews
          apply levelStep_of_levelsFor renews
          rcases tail with gone | same
          · exact .inl gone
          · rw [same]
            exact reached
      · have quiet : c.renewsAt (.row h call) = none := by
          simp only [renewsAt, bulkStart, refusal, ensured, ne_eq, not_true_eq_false, if_false, done,
            not_false_eq_true, if_true, bind_none]
        simp only [rowOp, refusal, ensured, ne_eq, not_true_eq_false, if_false, done, not_false_eq_true, if_true]
        rw [put]
        exact levelStep_of_levelsFor quiet reached
    · have quiet : c.renewsAt (.row h call) = none := by
        simp only [renewsAt, bulkStart, refusal, ensured, ne_eq, not_false_eq_true, if_true, bind_none]
      simp only [rowOp, refusal, ensured, ne_eq, not_false_eq_true, if_true]
      exact levelStep_of_levelsFor quiet reached

theorem step_levels (c : Conn W) (e : Event W) : LevelStep c e (levelsOf (c.step e).1.trx) := by
  cases e with
  | startConsistentSnapshot iso rcs => exact levelStep_getOrCreate rfl rfl
  | externalLock h iso rcs =>
    have trx : (c.externalLock h iso rcs).1.trx = (c.getOrCreate iso rcs).1.trx := by
      unfold externalLock
      dsimp only
      split <;> rfl
    simp only [step]
    rw [trx]
    exact levelStep_getOrCreate rfl rfl
  | row h call => exact rowOp_levels c h call
  | endBulkInsert h metaCalls =>
    simp only [step, endBulkInsert]
    split
    · rw [throughStmtTxn_levels _ (putEach_extends · metaCalls)]
      exact levelStep_of_keeps rfl rfl (keepsLevels_refl _)
    · exact levelStep_of_keeps rfl rfl (keepsLevels_refl _)
  | rowLockAcquire key =>
    apply levelStep_of_keeps rfl rfl
    right
    simp only [step]
    cases c.trx <;> rfl
  | prepare all xid rc => exact levelStep_of_keeps rfl rfl (tidesdbPrepare_hookStep c.inTrx all xid rc).hooked.keepsLevels
  | commit all rc => exact levelStep_of_keeps rfl rfl (tidesdbCommit_hookStep c.inTrx all rc).hooked.keepsLevels
  | rollback all rc => exact levelStep_of_keeps rfl rfl (tidesdbRollback_hookStep rc).hooked.keepsLevels
  | closeConnection => exact .gone rfl
  | deleteAllRows h result => exact levelStep_of_keeps rfl rfl (discardTxn_hookStep 0).hooked.keepsLevels
  | backupDir check =>
    cases check with
    | cleared | rejected => exact levelStep_of_keeps rfl rfl (keepsLevels_refl _)
    | attempted destinationEmpty rc => exact levelStep_of_keeps rfl rfl (discardTxn_hookStep 1).hooked.keepsLevels
  | flushBeforeCfMutation rc => exact levelStep_of_keeps rfl rfl (flush_hookStep rc).hooked.keepsLevels
  | _ => exact levelStep_of_keeps rfl rfl (keepsLevels_refl _)

end Step

section Runs

def Watched.Recorded (w : Watched W) : Prop := ∀ l ∈ levelsOf w.conn.trx, w.opened = some l.2

theorem Watched.Recorded.levelsFor {w : Watched W} (recorded : w.Recorded) {e : Event W} {l : Isolation × Isolation}
    (levels : w.conn.levelsFor e = some l) : (w.step e).1.opened = some l.2 := by
  change (w.conn.opensAt e).or w.opened = some l.2
  rw [Conn.levelsFor] at levels
  cases opened : w.conn.opensAt e with
  | some iso =>
    rw [opened] at levels
    cases levels
    rfl
  | none =>
    rw [opened] at levels
    exact recorded l levels

theorem watched_step_recorded (w : Watched W) (e : Event W) (recorded : w.Recorded) : (w.step e).1.Recorded := by
  intro l mem
  have after : levelsOf (w.conn.step e).1.trx = some l := mem
  have step := step_levels w.conn e
  rw [after] at step
  cases step with
  | kept quiet levels => exact recorded.levelsFor levels
  | renewed renews levels =>
    have opened := recorded.levelsFor levels
    exact opened

theorem RealLevel.levelsFor {w : Watched W} (real : w.RealLevel) {e : Event W} {l : Isolation × Isolation}
    (levels : w.conn.levelsFor e = some l) : l.1 = l.2 := by
  rw [Conn.levelsFor] at levels
  cases opened : w.conn.opensAt e with
  | some iso =>
    rw [opened] at levels
    cases levels
    rfl
  | none =>
    rw [opened] at levels
    exact (real l levels).1

theorem watched_step_real (w : Watched W) (e : Event W) (recorded : w.Recorded) (real : w.RealLevel) :
    (w.step e).1.RealLevel ↔ BatchAtReadCommitted w e := by
  have step := step_levels w.conn e
  unfold BatchAtReadCommitted
  change (∀ l ∈ levelsOf (w.conn.step e).1.trx, l.1 = l.2 ∧ ∀ level ∈ (w.step e).1.opened, level.strength ≤ l.1.strength) ↔ _
  revert step
  generalize levelsOf (w.conn.step e).1.trx = after
  intro step
  cases step with
  | gone quiet => simp [quiet]
  | @kept l quiet levels =>
    have opened := recorded.levelsFor levels
    have same := RealLevel.levelsFor real levels
    simp [quiet, opened, same]
  | @renewed l renews levels =>
    have opened := recorded.levelsFor levels
    simp only [renews, opened, mem_some_iff, forall_eq']
    constructor
    · rintro ⟨level, -⟩
      exact level.symm
    · intro level
      rw [level]
      exact ⟨rfl, le_refl _⟩

end Runs

/- `BEGIN` at REPEATABLE READ, then a bulk insert of eight rows into a table with 63 secondary keys. -/
section Bulk

def bulkRow : RowCall Unit :=
  ⟨.write, resolveEffectiveIsolation false .repeatableRead, .good, .none, [⟨(), .success, true⟩],
    ⟨.success, false⟩, .success, .success⟩

def bulkInsertInTrx : List (Event Unit) :=
  [.options true, .externalLock 0 (resolveEffectiveIsolation false .repeatableRead) .good, .startBulkInsert 0] ++
    List.replicate 8 (.row 0 bulkRow)

def bulkConn : Watched Unit := ⟨Conn.opened [] 0 (fun _ => Handler.opened 63) (.start []), none⟩

end Bulk

end TidesdbMysql
