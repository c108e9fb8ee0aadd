import TidesdbMysql.Txn.Cursors

/-! Whether the iterators and the `stmt_txn` of a handler are of the transaction the connection has when they are used. -/
namespace TidesdbMysql
open Base List Function Option Session Conn

variable {W : Type}
variable {cursor : Cursor} {c : Conn W} {p : Nat} {handler : Handler} {s' : Session W}

def Use.Current (u : Use) : Prop := u.now = some (u.held.txn, u.held.generation)
  deriving Decidable

def Conn.Later (c c' : Conn W) : Prop := TidesdbMysql.Later c.engine c.trx c'.engine c'.trx

def Conn.Named (c : Conn W) : Prop := ∀ p g, c.liveId = some (p, g) → p < c.engine.nextId

def turned (c c' : Conn W) (turns : Nat) : Nat := if c'.liveId = c.liveId then turns else turns + 1

def Dated (c : Conn W) (turns : Nat) (o : Held) : Prop :=
  (o.turn = some turns ∧ c.liveId = some (o.txn, o.generation)) ∨
  ((∀ k ∈ o.turn, k < turns) ∧ o.txn < c.engine.nextId ∧ ∀ g, c.liveId = some (o.txn, g) → o.generation < g)

section Dates

variable {c c' : Conn W} {turns : Nat} {o : Held}

theorem Dated.current_iff (dated : Dated c turns o) : c.liveId = some (o.txn, o.generation) ↔ o.turn = some turns := by
  rcases dated with ⟨now, current⟩ | ⟨before, -, past⟩
  · exact ⟨fun _ => now, fun _ => current⟩
  · constructor
    · intro current
      exact absurd (past _ current) (Nat.lt_irrefl _)
    · intro now
      exact absurd (before turns now) (Nat.lt_irrefl _)

theorem Dated.named (named : c.Named) (dated : Dated c turns o) : o.txn < c.engine.nextId := by
  rcases dated with ⟨-, current⟩ | ⟨-, below, -⟩
  · exact named _ _ current
  · exact below

theorem Dated.later (named : c.Named) (later : c.Later c') (dated : Dated c turns o) :
    Dated c' (turned c c' turns) o := by
  have below := Nat.lt_of_lt_of_le (dated.named named) later.names
  unfold turned
  by_cases same : c'.liveId = c.liveId
  · rw [if_pos same]
    rcases dated with ⟨now, current⟩ | ⟨before, -, past⟩
    · exact .inl ⟨now, same.trans current⟩
    · exact .inr ⟨before, below, fun g here => past g (same.symm.trans here)⟩
  · rw [if_neg same]
    have moved := later.id.resolve_left same
    right
    rcases dated with ⟨now, current⟩ | ⟨before, known, past⟩
    · refine ⟨?_, below, fun g here => ?_⟩
      · intro k mem
        cases now.symm.trans mem
        exact Nat.lt_succ_self _
      · rcases moved o.txn g here with ⟨fresh, -⟩ | ⟨g₀, there, grown⟩
        · exact absurd (named _ _ current) (Nat.not_lt.mpr fresh)
        · cases current.symm.trans there
          exact grown
    · refine ⟨fun k mem => Nat.lt_succ_of_lt (before k mem), below, fun g here => ?_⟩
      rcases moved o.txn g here with ⟨fresh, -⟩ | ⟨g₀, there, grown⟩
      · exact absurd known (Nat.not_lt.mpr fresh)
      · exact Nat.lt_trans (past g₀ there) grown

theorem Conn.Named.later (named : c.Named) (later : c.Later c') : c'.Named := by
  intro p g here
  rcases later.id with same | moved
  · exact Nat.lt_of_lt_of_le (named p g (same.symm.trans here)) later.names
  · rcases moved p g here with ⟨-, given⟩ | ⟨g₀, there, -⟩
    · exact given
    · exact Nat.lt_of_lt_of_le (named p g₀ there) later.names

theorem liveHandle_iff : c.liveHandle = some p ↔ c.liveId = some (p, c.generation) := by
  unfold liveHandle liveId idOf generation
  cases c.trx with
  | none => simp
  | some x => cases attached : x.txn <;> simp [attached]

theorem liveHandle_of_id {p g : Nat} (here : c.liveId = some (p, g)) : c.liveHandle = some p := by
  revert here
  unfold liveHandle liveId idOf
  cases c.trx with
  | none => simp
  | some x => cases attached : x.txn <;> simp +contextual [attached]

theorem Dated.now (live : c.liveHandle = some p) : Dated c turns ⟨p, c.generation, some turns⟩ :=
  .inl ⟨rfl, liveHandle_iff.mp live⟩

theorem Dated.got_live {s : Session W} (live : s.conn.liveHandle = some p) : Dated s.conn s.turns (s.got p) := by
  rw [got, if_pos live]
  exact Dated.now live

theorem Dated.got {s : Session W} (named : s.conn.Named) (dated : Dated s.conn s.turns o) :
    Dated s.conn s.turns (s.got o.txn) := by
  by_cases live : s.conn.liveHandle = some o.txn
  · exact Dated.got_live live
  · rw [Session.got, if_neg live]
    have below : o.txn < s.conn.engine.nextId := dated.named named
    exact .inr ⟨nofun, below, fun g here => absurd (liveHandle_of_id here) live⟩

end Dates

namespace Session

def Unturned (s : Session W) (o : Held) : Prop := o.turn = some s.turns

/- The read begins with the iterator there is, or with making one through `scan_txn`. -/
def ReadUnturned (s : Session W) (h : Nat) (fetches : Bool) : Prop :=
  match (s.cursors h).scanIter with
  | some it => s.Unturned it.held ∧ (fetches = true → ∀ p ∈ (s.cursors h).scanTxn, s.Unturned p)
  | none =>
    (s.cursors h).scanIterLastErr ≠ some ((s.cursors h).scanCf, (s.cursors h).scanTxn.map Held.txn) →
      (s.cursors h).scanCf.isSome = true → ∀ p ∈ (s.cursors h).scanTxn, s.Unturned p

/-- What the call goes on to use was got since the connection's transaction last changed. -/
def Undisturbed (s : Session W) : SessionCall W → Prop
  | .server (.row h call) => call.refusal = .none → call.calls ≠ [] → ∀ p ∈ s.stmtTxn h, s.Unturned p
  | .server (.endBulkInsert h metaCalls) => metaCalls ≠ [] → ∀ p ∈ s.stmtTxn h, s.Unturned p
  | .server _ => True
  | .rndInit h cf o _ =>
    let m := s.ensureStmtTxn h o
    m.2 = .ok → ∀ x ∈ ((m.1.keptIter h cf).map CachedIter.held).or (m.1.stmtTxn h), m.1.Unturned x
  | .rndNext h => ∀ it ∈ (s.cursors h).scanIter, s.Unturned it.held
  | .indexInit .. => True
  | .indexRead h _ fetches => s.ReadUnturned h fetches
  | .indexNextSame h fetches =>
    ∀ it ∈ (s.cursors h).scanIter, s.Unturned it.held ∧ (fetches = true → ∀ p ∈ (s.cursors h).scanTxn, s.Unturned p)
  | .pointRead h => ∀ p ∈ (s.cursors h).scanTxn, s.Unturned p
  | .stmtRead h _ => ∀ p ∈ s.stmtTxn h, s.Unturned p
  | .uniqueCheck h i _ o _ =>
    let m := s.ensureStmtTxn h o
    m.2 = .ok → ∀ x ∈ ((((m.1.cursors h).dupIterCache i).filter (m.1.keeps h (m.1.stmtTxn h))).map CachedIter.held).or
      (m.1.stmtTxn h), m.1.Unturned x
  | .multiRangeReadNext h cf o _ fetches =>
    let m := s.ensureStmtTxn h o
    m.2 = .ok →
      match cf with
      | none => fetches = true → ∀ p ∈ ((m.1.withScanTxn h).cursors h).scanTxn, m.1.Unturned p
      | some cf => ((m.1.withScanTxn h).withScanCf h cf).ReadUnturned h fetches
  | .scanEnd _ | .close _ => True

end Session

structure CursorSound (c : Conn W) (turns h : Nat) (cursor : Cursor) : Prop where
  stmt : ∀ p ∈ (c.handlers h).stmtTxn, Dated c turns ⟨p, cursor.stmtGeneration, cursor.stmtTurn⟩
  scan : ∀ o ∈ cursor.scanTxn, Dated c turns o
  iter : ∀ it ∈ cursor.scanIter, Dated c turns it.held
  dup : ∀ i, ∀ it ∈ cursor.dupIterCache i, Dated c turns it.held

structure Session.Sound (s : Session W) : Prop where
  named : s.conn.Named
  cursors : ∀ h, CursorSound s.conn s.turns h (s.cursors h)

section Sound

variable {s : Session W} {h : Nat}

theorem Session.Sound.stmtTxn (sound : s.Sound) : ∀ o ∈ s.stmtTxn h, Dated s.conn s.turns o := by
  intro o mem
  obtain ⟨p, pointer, rfl⟩ := map_eq_some_iff.mp mem
  exact (sound.cursors h).stmt p pointer

theorem CursorSound.later {c c' : Conn W} {turns : Nat} {cursor : Cursor} (before : CursorSound c turns h cursor)
    (named : c.Named) (later : c.Later c') (pointer : ∀ p ∈ (c'.handlers h).stmtTxn, p ∈ (c.handlers h).stmtTxn) :
    CursorSound c' (turned c c' turns) h cursor := by
  constructor
  · exact fun p mem => (before.stmt p (pointer p mem)).later named later
  · exact fun o mem => (before.scan o mem).later named later
  · exact fun it mem => (before.iter it mem).later named later
  · exact fun i it mem => (before.dup i it mem).later named later

theorem Session.Sound.moved (sound : s.Sound) (later : s.conn.Later s'.conn)
    (turns : s'.turns = turned s.conn s'.conn s.turns)
    (pointers : ∀ h', h' ≠ h → (s'.conn.handlers h').stmtTxn = (s.conn.handlers h').stmtTxn)
    (cursors : ∀ h', h' ≠ h → s'.cursors h' = s.cursors h') (own : CursorSound s'.conn s'.turns h (s'.cursors h)) :
    s'.Sound := by
  refine ⟨sound.named.later later, fun h' => ?_⟩
  by_cases same : h' = h
  · subst same
    exact own
  · rw [cursors h' same, turns]
    exact (sound.cursors h').later sound.named later fun p pointer => pointers h' same ▸ pointer

theorem Session.Sound.setCursor (sound : s.Sound) (own : CursorSound s.conn s.turns h cursor) :
    (s.setCursor h cursor).Sound := by
  refine ⟨sound.named, fun h' => ?_⟩
  by_cases same : h' = h
  · subst same
    rw [s.setCursor_self]
    exact own
  · rw [s.setCursor_other same]
    exact sound.cursors h'

theorem Session.Sound.advance (sound : s.Sound) (later : s.conn.Later c)
    (pointers : ∀ h, ∀ p ∈ (c.handlers h).stmtTxn, p ∈ (s.conn.handlers h).stmtTxn) : (s.advance c).Sound :=
  ⟨sound.named.later later, fun h => (sound.cursors h).later sound.named later (pointers h)⟩

/- A pointer taken from the connection is of its transaction now. -/
theorem Session.Sound.taken (sound : s.Sound) (later : s.conn.Later c) (same : c.handlers = s.conn.handlers)
    (live : handler.stmtTxn = c.liveHandle) : ((s.advance (c.setHandler h handler)).take h).Sound := by
  refine sound.moved (h := h) later rfl ?_ ?_ ?_
  · intro h' other
    rw [← same]
    exact congrArg Handler.stmtTxn (update_of_ne other _ _)
  · exact fun h' other => setCursor_other _ other _
  · have before := (sound.cursors h).later sound.named later (fun p mem => same ▸ mem)
    rw [take, setCursor_self]
    refine ⟨fun p pointer => Dated.now ?_, before.scan, before.iter, before.dup⟩
    have pointed : ((c.setHandler h handler).handlers h).stmtTxn = c.liveHandle := by rw [setHandler_same, live]
    exact pointed.symm.trans pointer

theorem Session.Sound.ensureStmtTxn (sound : s.Sound) (o : Opening) : (s.ensureStmtTxn h o).1.Sound := by
  unfold Session.ensureStmtTxn
  split
  · exact sound
  · rename_i unset
    have later : s.conn.Later (s.conn.getOrCreate o.iso o.rcs).1 := getOrCreateTrx_later o.iso o.rcs
    unfold Conn.ensureStmtTxn
    rw [if_neg unset]
    dsimp only
    by_cases ok : (s.conn.getOrCreate o.iso o.rcs).2 = true
    · rw [if_pos ok, if_pos rfl]
      exact sound.taken later rfl rfl
    · rw [if_neg ok, if_neg (by simp)]
      exact sound.advance later (fun _ _ mem => mem)

theorem Session.Sound.release (sound : s.Sound) (none : handler.stmtTxn = none) : (s.release h handler).Sound := by
  have later : s.conn.Later (s.conn.setHandler h handler) := .of_id le_rfl rfl
  have turns : s.turns = turned s.conn (s.conn.setHandler h handler) s.turns := (if_pos rfl).symm
  refine sound.moved (h := h) later turns ?_ ?_ ?_
  · exact fun h' other => congrArg Handler.stmtTxn (update_of_ne other _ _)
  · exact fun h' other => s.setCursor_other other _
  · have before := sound.cursors h
    change CursorSound (s.conn.setHandler h handler) s.turns h ((s.setCursor h _).cursors h)
    rw [s.setCursor_self]
    refine ⟨fun p pointer => ?_, before.scan, before.iter, before.dup⟩
    rw [setHandler_same, none] at pointer
    cases pointer

theorem CursorSound.freed {turns : Nat} (before : CursorSound c turns h cursor) :
    CursorSound c turns h { cursor with scanIter := none, dupIterCache := fun _ => none } :=
  ⟨before.stmt, before.scan, nofun, nofun⟩

theorem Session.Sound.freeIters (sound : s.Sound) : (s.freeIters h).Sound := sound.setCursor (sound.cursors h).freed

theorem Session.Sound.externalLock (sound : s.Sound) (o : Opening) : (s.externalLock h o).Sound := by
  have later : s.conn.Later (s.conn.getOrCreate o.iso o.rcs).1 := getOrCreateTrx_later o.iso o.rcs
  unfold Session.externalLock Conn.externalLock
  dsimp only
  by_cases ok : (s.conn.getOrCreate o.iso o.rcs).2 = true
  · rw [if_pos ok, if_pos rfl]
    have taken := sound.taken (h := h) later rfl (show { (s.conn.getOrCreate o.iso o.rcs).1.handlers h with
      stmtTxn := (s.conn.getOrCreate o.iso o.rcs).1.liveHandle, cachedTrx := true }.stmtTxn = _ from rfl)
    have own := taken.cursors h
    exact taken.setCursor ⟨own.stmt, own.scan, own.iter, own.dup⟩
  · rw [if_neg ok, if_neg (by simp)]
    exact sound.advance later (fun _ _ mem => mem)

theorem ite_sound {p : Prop} [Decidable p] (yes : s'.Sound) (no : s.Sound) : (if p then s' else s).Sound := by
  split
  · exact yes
  · exact no

theorem Session.Sound.externalUnlock (sound : s.Sound) : (s.externalUnlock h).Sound :=
  Session.Sound.release (ite_sound sound.freeIters sound) rfl

theorem Session.Sound.close (sound : s.Sound) : (s.close h).Sound := (sound.freeIters).release rfl

theorem maybeBulkCommit_pointer (c : Conn W) (h : Nat) (call : RowCall W) :
    ((c.maybeBulkCommit h call).1.handlers h).stmtTxn =
      if c.liveHandle.isSome && (c.maybeBulkCommit h call).2.code = .ok then (c.maybeBulkCommit h call).1.liveHandle
      else (c.handlers h).stmtTxn := by
  cases held : c.trx with
  | none => simp [maybeBulkCommit, liveHandle, held]
  | some x =>
    cases attached : x.txn with
    | none => simp [maybeBulkCommit, liveHandle, held, attached]
    | some t =>
      have live : c.liveHandle.isSome = true := by simp [liveHandle, held, attached]
      simp only [live, Bool.true_and, maybeBulkCommit, held, attached]
      split
      · rename_i failed
        simp [answer, failed]
      split
      · simp [liveHandle, setHandler]
      split
      · rename_i failed
        simp [failed]
      · simp [liveHandle, setHandler]

theorem maybeBulkCommit_others (c : Conn W) {h h' : Nat} (other : h' ≠ h) (call : RowCall W) :
    (c.maybeBulkCommit h call).1.handlers h' = c.handlers h' := by
  unfold maybeBulkCommit
  split
  · rfl
  split
  · rfl
  dsimp only
  split
  · rfl
  split
  · exact update_of_ne other _ _
  split
  · rfl
  · exact update_of_ne other _ _

theorem Session.Sound.bulkTail (sound : s.Sound) (call : RowCall W) : (s.bulkTail h call).Sound := by
  have spec := bulkTail_spec s.conn h call
  have counted : SameButCounts s.conn (s.conn.countRow h) := sameButCounts_setHandler s.conn h rfl rfl
  unfold Session.bulkTail
  dsimp only
  cases full : s.conn.fillsBatch h call.kind with
  | false =>
    rw [full] at spec
    obtain ⟨same, -⟩ := spec
    refine sound.advance (.of_id (Nat.le_of_eq (congrArg Engine.nextId same.engine).symm) (congrArg idOf same.trx)) ?_
    intro h' p pointer
    rw [same.pointers h'] at pointer
    exact pointer
  | true =>
    rw [full] at spec
    obtain ⟨same, answered⟩ := spec
    have moved := maybeBulkCommit_later (s.conn.countRow h) h call
    have later : s.conn.Later (s.conn.bulkTail h call).1 := by
      unfold Conn.Later
      rw [same.engine, same.trx]
      exact moved
    have pointer := maybeBulkCommit_pointer (s.conn.countRow h) h call
    have live : (s.conn.countRow h).liveHandle = s.conn.liveHandle := rfl
    have live' : (s.conn.bulkTail h call).1.liveHandle = ((s.conn.countRow h).maybeBulkCommit h call).1.liveHandle := by
      unfold liveHandle
      rw [same.trx]
    have others : ∀ h', h' ≠ h → ((s.conn.bulkTail h call).1.handlers h').stmtTxn = (s.conn.handlers h').stmtTxn := by
      intro h' other
      rw [same.pointers h', maybeBulkCommit_others _ other]
      exact counted.pointers h'
    rw [live, ← answered, ← live', ← same.pointers h] at pointer
    rw [Bool.true_and]
    split
    · rename_i committed
      rw [if_pos committed] at pointer
      refine sound.moved later rfl others ?_ ?_
      · intro h' other
        exact (setCursor_other _ other _).trans ((setCursor_other _ other _).trans (setCursor_other _ other _))
      · rw [Session.setCursor_self, Session.take, Session.setCursor_self, Session.freeIters, Session.setCursor_self]
        refine ⟨fun p pointed => Dated.now (pointer.symm.trans pointed), fun o mem => ?_, nofun, nofun⟩
        obtain ⟨p, live, rfl⟩ := map_eq_some_iff.mp mem
        exact Dated.got_live live
    · rename_i kept
      rw [if_neg kept] at pointer
      refine sound.advance later ?_
      intro h' p pointed
      by_cases same : h' = h
      · subst same
        rw [pointer, counted.pointers] at pointed
        exact pointed
      · rw [others h' same] at pointed
        exact pointed

theorem throughStmtTxn_later (c : Conn W) (h : Nat) (puts : EngineTxn W → EngineTxn W × List W × Rc)
    (longer : ∀ t, Extends t (puts t).1 (puts t).2.1) : c.Later (c.throughStmtTxn h puts).1 := by
  unfold Conn.Later
  rcases throughStmtTxn_cases c h puts with same | ⟨x, t, held, attached, done⟩
  · rw [same]
    exact .of_id le_rfl rfl
  · rw [done, held]
    apply Later.of_id le_rfl
    rw [idOf_attached attached, idOf_attached rfl, (longer t).same.handle]

@[simp] theorem markDirty_liveId (c : Conn W) (h : Nat) : (c.markDirty h).liveId = c.liveId := by
  unfold Conn.markDirty
  split
  · unfold liveId
    cases c.trx <;> rfl
  · rfl

theorem Session.Sound.marked (sound : s.Sound) : (s.markDirty h).Sound := by
  have later : s.conn.Later (s.conn.markDirty h) :=
    .of_id (Nat.le_of_eq (congrArg Engine.nextId (markDirty_engine s.conn h)).symm) (markDirty_liveId s.conn h)
  have advanced : (s.advance (s.conn.markDirty h)).Sound := by
    refine sound.advance later fun h' p pointer => ?_
    rw [markDirty_handlers] at pointer
    exact pointer
  have own := advanced.cursors h
  exact advanced.setCursor ⟨own.stmt, own.scan, own.iter, own.dup⟩

theorem Session.Sound.wrote (sound : s.Sound) (ws : List W) : (s.wrote h ws).Sound := ⟨sound.named, sound.cursors⟩

theorem Session.Sound.rowOp (sound : s.Sound) (call : RowCall W) : (s.rowOp h call).1.Sound := by
  have ensured := sound.ensureStmtTxn (h := h) ⟨call.iso, call.trxRcs⟩
  have marked := ensured.marked (h := h)
  unfold Session.rowOp
  split
  · exact sound
  dsimp only
  split
  · exact ensured
  split
  · exact marked
  have put : (Session.advance _ (Conn.throughStmtTxn _ h (putAll · call.calls)).1).Sound :=
    marked.advance (throughStmtTxn_later _ h _ (putAll_extends · call.calls)) fun h' p pointer => by
      rw [throughStmtTxn_handlers] at pointer
      exact pointer
  split
  · exact put.wrote _
  · exact (put.wrote _).bulkTail call

theorem resolveIndoubt_later (c : Conn W) (xid : Option Xid) (hook : CallKind)
    {fn : Engine W → EngineTxn W → Engine W × EngineTxn W × Rc} (names : ∀ e t, (fn e t).1.nextId = e.nextId) :
    c.Later (c.resolveIndoubt xid hook fn).1 := by
  refine .of_id (Nat.le_of_eq ?_) rfl
  unfold resolveIndoubt
  dsimp only
  split
  · exact ((names _ _).trans (note_nextId _ _ _)).symm
  · rfl

theorem step_later (c : Conn W) {e : Event W} (plain : ∀ h call, e ≠ .row h call) : c.Later (c.step e).1 := by
  cases e with
  | startConsistentSnapshot iso rcs => exact getOrCreateTrx_later iso rcs
  | externalLock h iso rcs =>
    have later : c.Later (c.getOrCreate iso rcs).1 := getOrCreateTrx_later iso rcs
    simp only [Conn.step, Conn.externalLock]
    split <;> exact later
  | row h call => exact absurd rfl (plain h call)
  | endBulkInsert h metaCalls =>
    simp only [Conn.step, Conn.endBulkInsert]
    split
    · exact throughStmtTxn_later (c.setHandler h _) h _ (putEach_extends · metaCalls)
    · exact .of_id le_rfl rfl
  | rowLockAcquire key =>
    apply Later.of_id le_rfl
    simp only [Conn.step]
    cases c.trx <;> rfl
  | prepare all xid rc => exact (tidesdbPrepare_hookStep c.inTrx all xid rc).later
  | commit all rc => exact (tidesdbCommit_hookStep c.inTrx all rc).later
  | rollback all rc => exact (tidesdbRollback_hookStep rc).later
  | closeConnection =>
    apply Later.of_none _ rfl
    simp only [Conn.step, tidesdbCloseConnection]
    split
    · split
      · exact Nat.le_of_eq ((note_nextId _ _ _).trans (txnRollback_same _ _).1).symm
      · exact le_rfl
    · exact le_rfl
  | deleteAllRows h result => exact (discardTxn_hookStep 0).later
  | backupDir check =>
    cases check with
    | cleared | rejected => exact .of_id le_rfl rfl
    | attempted destinationEmpty rc => exact (discardTxn_hookStep 1).later
  | flushBeforeCfMutation rc => exact (flush_hookStep rc).later
  | commitByXid xid rc => exact resolveIndoubt_later c xid .commitHook fun e t => (txnCommitPrepared_same e t rc).1
  | rollbackByXid xid rc => exact resolveIndoubt_later c xid .rollbackHook fun e t => (txnRollbackPrepared_same e t rc).1
  | _ => exact .of_id le_rfl rfl

theorem setHandler_pointers (c : Conn W) (h : Nat) (kept : ∀ p ∈ handler.stmtTxn, p ∈ (c.handlers h).stmtTxn) :
    ∀ h', ∀ p ∈ ((c.setHandler h handler).handlers h').stmtTxn, p ∈ (c.handlers h').stmtTxn := by
  intro h' p pointer
  by_cases same : h' = h
  · subst same
    rw [setHandler_same] at pointer
    exact kept p pointer
  · exact (congrArg Handler.stmtTxn (update_of_ne same _ _)).symm.trans pointer

theorem endBulkInsert_pointers (c : Conn W) (h : Nat) (metaCalls : List (EngineCall W)) :
    ∀ h', ∀ p ∈ ((c.endBulkInsert h metaCalls).1.handlers h').stmtTxn, p ∈ (c.handlers h').stmtTxn := by
  intro h' p pointer
  unfold endBulkInsert at pointer
  dsimp only at pointer
  split at pointer
  · rw [throughStmtTxn_handlers] at pointer
    exact setHandler_pointers c h (by simp) h' p pointer
  · exact setHandler_pointers c h (by simp) h' p pointer

section
variable (sound : s.Sound) (cf : Nat) (o : Opening) (newRc : Rc) (fetches : Bool) (e : Event W)
include sound

theorem Session.Sound.serve : (s.serve e).1.Sound := by
  have moved plain
      pointers :
      (s.advance (s.conn.step e).1).Sound := sound.advance (step_later s.conn plain) pointers
  cases e with
  | externalLock h iso rcs => exact sound.externalLock ⟨iso, rcs⟩
  | externalUnlock h => exact sound.externalUnlock
  | row h call => exact sound.rowOp call
  | endBulkInsert h metaCalls =>
    have advanced := moved (by simp) (endBulkInsert_pointers s.conn h metaCalls)
    exact advanced
  | deleteAllRows h result =>
    have freed : (s.freeIters h).Sound := sound.freeIters
    have emptied := freed.advance (step_later s.conn (e := .deleteAllRows h result) (by simp))
      (setHandler_pointers { s.conn with engine := _, trx := _ } h nofun)
    have own := emptied.cursors h
    exact emptied.setCursor ⟨own.stmt, own.scan, own.iter, own.dup⟩
  | startBulkInsert h => exact moved (by simp) (setHandler_pointers s.conn h fun _ mem => mem)
  | startBulkDelete h => exact moved (by simp) (setHandler_pointers s.conn h fun _ mem => mem)
  | endBulkDelete h => exact moved (by simp) (setHandler_pointers s.conn h fun _ mem => mem)
  | backupDir check =>
    refine moved (by simp) ?_
    cases check <;> exact fun _ _ mem => mem
  | _ => exact moved (by simp) fun _ _ mem => mem

theorem Session.Sound.kept {cf : Nat} : ∀ it ∈ s.keptIter h cf, Dated s.conn s.turns it.held := by
  intro it mem
  exact (sound.cursors h).iter it (mem_filter_iff.mp mem).1

theorem Session.Sound.rndInit : (s.rndInit h cf o newRc).1.Sound := by
  have ensured := sound.ensureStmtTxn (h := h) o
  have own := ensured.cursors h
  unfold Session.rndInit
  dsimp only
  split
  · exact ensured
  split
  · exact ensured.setCursor ⟨own.stmt, ensured.stmtTxn, own.iter, own.dup⟩
  split
  · exact ensured
  · rename_i p pointer
    have dated : Dated _ _ p := ensured.stmtTxn p pointer
    split
    · refine ensured.setCursor ⟨own.stmt, ?_, ?_, own.dup⟩
      · rintro _ ⟨⟩
        exact dated
      · rintro _ ⟨⟩
        exact dated.got ensured.named
    · exact ensured.setCursor ⟨own.stmt, nofun, nofun, own.dup⟩

theorem Session.Sound.indexInit (cf : Option Nat) (o : Opening) : (s.indexInit h cf o).1.Sound := by
  have ensured := sound.ensureStmtTxn (h := h) o
  have own := ensured.cursors h
  unfold Session.indexInit
  dsimp only
  split
  · exact ensured
  split
  · exact ensured.setCursor ⟨own.stmt, nofun, own.iter, own.dup⟩
  · exact ensured.setCursor ⟨own.stmt, ensured.stmtTxn, ensured.kept, own.dup⟩

theorem Session.Sound.ensureScanIter : (s.ensureScanIter h newRc).1.Sound := by
  have own := sound.cursors h
  unfold Session.ensureScanIter
  dsimp only
  split
  · exact sound
  split
  · exact sound
  split
  · rename_i p cf pointer _
    split
    · refine sound.setCursor ⟨own.stmt, own.scan, ?_, own.dup⟩
      rintro _ ⟨⟩
      exact (own.scan p pointer).got sound.named
    · exact sound.setCursor ⟨own.stmt, own.scan, own.iter, own.dup⟩
  · exact sound.setCursor ⟨own.stmt, own.scan, own.iter, own.dup⟩

theorem Session.Sound.indexRead : (s.indexRead h newRc fetches).1.Sound := by
  have iter := sound.ensureScanIter (h := h) newRc
  unfold Session.indexRead
  dsimp only
  split <;> exact iter

theorem Session.Sound.stmtRead : (s.stmtRead h o).1.Sound := by
  have ensured := sound.ensureStmtTxn (h := h) o
  unfold Session.stmtRead
  dsimp only
  split <;> exact ensured

end

theorem CursorSound.setDup {turns : Nat} (own : CursorSound c turns h cursor) (i : Nat) {slot : Option CachedIter}
    (dated : ∀ it ∈ slot, Dated c turns it.held) :
    CursorSound c turns h { cursor with dupIterCache := update cursor.dupIterCache i slot } := by
  refine ⟨own.stmt, own.scan, own.iter, fun j it mem => ?_⟩
  dsimp only at mem
  by_cases same : j = i
  · subst same
    rw [update_self] at mem
    exact dated it mem
  · rw [update_of_ne same] at mem
    exact own.dup j it mem

section
variable (sound : s.Sound) (call : SessionCall W) (i cf : Nat) (o : Opening) (newRc : Rc)
include sound

theorem Session.Sound.uniqueCheck : (s.uniqueCheck h i cf o newRc).1.Sound := by
  have ensured := sound.ensureStmtTxn (h := h) o
  have own := ensured.cursors h
  unfold Session.uniqueCheck
  dsimp only
  split
  · exact ensured
  split
  · exact ensured
  split
  · exact ensured
  · rename_i p pointer
    split
    · refine ensured.setCursor (own.setDup i ?_)
      rintro _ ⟨⟩
      exact (ensured.stmtTxn p pointer).got ensured.named
    · exact ensured.setCursor (own.setDup i nofun)

theorem Session.Sound.withScanTxn : (s.withScanTxn h).Sound := by
  have own := sound.cursors h
  refine sound.setCursor ⟨own.stmt, fun o mem => ?_, own.iter, own.dup⟩
  rcases or_eq_some_iff.mp mem with set | ⟨-, taken⟩
  · exact own.scan o set
  · exact sound.stmtTxn o taken

theorem Session.Sound.withScanCf : (s.withScanCf h cf).Sound := by
  have own := sound.cursors h
  exact sound.setCursor ⟨own.stmt, own.scan, own.iter, own.dup⟩

theorem Session.Sound.multiRangeReadNext (cf : Option Nat) (o : Opening) (newRc : Rc) (fetches : Bool) :
    (s.multiRangeReadNext h cf o newRc fetches).1.Sound := by
  have ensured := sound.ensureStmtTxn (h := h) o
  unfold Session.multiRangeReadNext
  dsimp only
  split
  · exact ensured
  split
  · exact ensured.withScanTxn
  · exact (ensured.withScanTxn.withScanCf _).indexRead newRc fetches

theorem Session.Sound.scanEnd : (s.scanEnd h).Sound := by
  have own := sound.cursors h
  exact sound.setCursor ⟨own.stmt, nofun, own.iter, own.dup⟩

theorem Session.Sound.step : (s.step call).1.Sound := by
  cases call with
  | server e => exact sound.serve e
  | rndInit h cf o newRc => exact sound.rndInit cf o newRc
  | rndNext | indexNextSame | pointRead => exact sound
  | indexInit h cf o => exact sound.indexInit cf o
  | indexRead h newRc fetches => exact sound.indexRead newRc fetches
  | stmtRead h o => exact sound.stmtRead o
  | uniqueCheck h i cf o newRc => exact sound.uniqueCheck i cf o newRc
  | multiRangeReadNext h cf o newRc fetches => exact sound.multiRangeReadNext cf o newRc fetches
  | scanEnd h => exact sound.scanEnd
  | close h => exact sound.close

end

theorem use_current_iff {o : Held} (dated : Dated s.conn s.turns o) : (s.use o).Current ↔ s.Unturned o := dated.current_iff

theorem use_got_current {o : Held} (dated : Dated s.conn s.turns o) (now : s.Unturned o) : (s.use (s.got o.txn)).Current :=
  liveHandle_iff.mp (liveHandle_of_id (dated.current_iff.mpr now))

theorem through_current_iff {object : Option Held} (dated : ∀ o ∈ object, Dated s.conn s.turns o) :
    (∀ u ∈ (object.map s.use).toList, u.Current) ↔ ∀ o ∈ object, s.Unturned o := by
  cases object with
  | none => simp
  | some o => simp [use_current_iff (dated o rfl)]

theorem throughStmtTxn_current_iff (sound : s.Sound) :
    (∀ u ∈ s.throughStmtTxn h, u.Current) ↔ ∀ p ∈ s.stmtTxn h, s.Unturned p := through_current_iff sound.stmtTxn

theorem throughScanTxn_current_iff (sound : s.Sound) :
    (∀ u ∈ s.throughScanTxn h, u.Current) ↔ ∀ p ∈ (s.cursors h).scanTxn, s.Unturned p :=
  through_current_iff (sound.cursors h).scan

theorem throughIter_current_iff (sound : s.Sound) :
    (∀ u ∈ s.throughIter h, u.Current) ↔ ∀ it ∈ (s.cursors h).scanIter, s.Unturned it.held := by
  have dated := (sound.cursors h).iter
  unfold throughIter
  cases held : (s.cursors h).scanIter with
  | none => simp
  | some it => simp [use_current_iff (dated it held)]

theorem stmtTxn_unset (unset : ¬ (s.conn.handlers h).stmtTxn.isSome) : s.stmtTxn h = none := by
  rw [stmtTxn, not_isSome_iff_eq_none.mp unset]
  rfl

theorem ensureStmtTxn_set (set : (s.conn.handlers h).stmtTxn.isSome) (o : Opening) : s.ensureStmtTxn h o = (s, .ok) :=
  if_pos set

theorem ensureStmtTxn_unturned (unset : ¬ (s.conn.handlers h).stmtTxn.isSome) {o : Opening}
    (ok : (s.ensureStmtTxn h o).2 = .ok) : ∀ p ∈ (s.ensureStmtTxn h o).1.stmtTxn h, (s.ensureStmtTxn h o).1.Unturned p := by
  revert ok
  unfold Session.ensureStmtTxn
  rw [if_neg unset]
  dsimp only
  split
  · intro _ p mem
    obtain ⟨pointer, -, rfl⟩ := map_eq_some_iff.mp mem
    rw [Session.Unturned, Session.take, Session.setCursor_self]
    rfl
  · rename_i failed
    exact fun ok => absurd ok failed

theorem markDirty_stmtTxn : (s.markDirty h).stmtTxn h = s.stmtTxn h := by
  unfold Session.stmtTxn Session.markDirty
  rw [setCursor_self]
  change ((s.conn.markDirty h).handlers h).stmtTxn.map _ = _
  rw [markDirty_handlers]

theorem markDirty_turns : (s.markDirty h).turns = s.turns := if_pos (markDirty_liveId s.conn h)

theorem markDirty_uses (sound : s.Sound) :
    (∀ u ∈ (s.markDirty h).throughStmtTxn h, u.Current) ↔ ∀ p ∈ s.stmtTxn h, s.Unturned p := by
  have through := throughStmtTxn_current_iff (h := h) (sound.marked (h := h))
  unfold Session.Unturned at through ⊢
  rwa [markDirty_stmtTxn, markDirty_turns] at through

/-- Where `ensure_stmt_txn` comes first, what matters is the pointer there was. -/
theorem ensured_pointer (o : Opening) : (s.ensureStmtTxn h o).2 = .ok →
    ((∀ p ∈ (s.ensureStmtTxn h o).1.stmtTxn h, (s.ensureStmtTxn h o).1.Unturned p) ↔ ∀ p ∈ s.stmtTxn h, s.Unturned p) := by
  intro ok
  by_cases set : (s.conn.handlers h).stmtTxn.isSome
  · rw [ensureStmtTxn_set set]
  · have unset := stmtTxn_unset set
    rw [unset]
    exact ⟨nofun, fun _ => ensureStmtTxn_unturned set ok⟩

theorem ensured_failed {o : Opening} (failed : (s.ensureStmtTxn h o).2 ≠ .ok) : s.stmtTxn h = none := by
  by_cases set : (s.conn.handlers h).stmtTxn.isSome
  · rw [ensureStmtTxn_set set] at failed
    exact absurd rfl failed
  · exact stmtTxn_unset set

section
variable (sound : s.Sound) (fetches : Bool) (i cf : Nat) (o : Opening) (newRc : Rc) (call : RowCall W)
include sound

theorem rowOp_uses : (∀ u ∈ (s.rowOp h call).2, u.Current) ↔ s.Undisturbed (.server (.row h call)) := by
  have ensured := sound.ensureStmtTxn (h := h) ⟨call.iso, call.trxRcs⟩
  unfold Session.rowOp Session.Undisturbed
  cases refused : call.refusal with
  | beforeTxn code => simp [refused]
  | afterTxn code =>
    dsimp only
    split <;> simp [refused]
  | none =>
    by_cases ok : (s.ensureStmtTxn h ⟨call.iso, call.trxRcs⟩).2 = .ok
    · have through := (markDirty_uses ensured).trans (ensured_pointer _ ok)
      simp only [ok, ne_eq, not_true_eq_false, if_false, refused, forall_const]
      cases writes : call.calls with
      | nil => split <;> simp
      | cons first rest => split <;> simpa using through
    · simp [ok, ensured_failed ok]

theorem rndInit_uses : (∀ u ∈ (s.rndInit h cf o newRc).2, u.Current) ↔ s.Undisturbed (.rndInit h cf o newRc) := by
  have ensured := sound.ensureStmtTxn (h := h) o
  unfold rndInit Session.Undisturbed
  by_cases ok : (s.ensureStmtTxn h o).2 = .ok
  · simp only [ok, ne_eq, not_true_eq_false, if_false, forall_const]
    cases kept : (s.ensureStmtTxn h o).1.keptIter h cf with
    | some it => simp [use_current_iff (ensured.kept it kept)]
    | none =>
      cases pointer : (s.ensureStmtTxn h o).1.stmtTxn h with
      | none => simp
      | some p =>
        have dated := ensured.stmtTxn p pointer
        have made := use_got_current dated
        dsimp only
        split
        · simpa [use_current_iff dated] using made
        · simp [use_current_iff dated]
  · simp [ok]

theorem stmtRead_uses : (∀ u ∈ (s.stmtRead h o).2, u.Current) ↔ s.Undisturbed (.stmtRead h o) := by
  have ensured := sound.ensureStmtTxn (h := h) o
  unfold stmtRead Session.Undisturbed
  by_cases ok : (s.ensureStmtTxn h o).2 = .ok
  · have through := (throughStmtTxn_current_iff ensured).trans (ensured_pointer _ ok)
    simpa only [ok, ne_eq, not_true_eq_false, if_false] using through
  · simp [ok, ensured_failed ok]

theorem uniqueCheck_uses :
    (∀ u ∈ (s.uniqueCheck h i cf o newRc).2, u.Current) ↔ s.Undisturbed (.uniqueCheck h i cf o newRc) := by
  have ensured := sound.ensureStmtTxn (h := h) o
  unfold uniqueCheck Session.Undisturbed
  by_cases ok : (s.ensureStmtTxn h o).2 = .ok
  · simp only [ok, ne_eq, not_true_eq_false, if_false, forall_const]
    split
    · rename_i it kept
      have dated := (ensured.cursors h).dup i it (mem_filter_iff.mp kept).1
      simp [kept, use_current_iff dated]
    · rename_i kept
      cases pointer : (s.ensureStmtTxn h o).1.stmtTxn h with
      | none =>
        rw [pointer] at kept
        simp [kept]
      | some p =>
        have dated := ensured.stmtTxn p pointer
        have made := use_got_current dated
        rw [pointer] at kept
        dsimp only
        split
        · simpa [kept, use_current_iff dated] using made
        · simp [kept, use_current_iff dated]
  · simp [ok]

theorem read_current_iff {it : CachedIter} (held : (s.cursors h).scanIter = some it) (fetches : Bool) :
    (∀ u ∈ s.throughIter h ++ (if fetches then s.throughScanTxn h else []), u.Current) ↔
      s.Unturned it.held ∧ (fetches = true → ∀ p ∈ (s.cursors h).scanTxn, s.Unturned p) := by
  have iter := throughIter_current_iff (h := h) sound
  rw [held] at iter
  rw [forall_mem_append, iter]
  cases fetches with
  | false => simp
  | true =>
    rw [if_pos rfl, throughScanTxn_current_iff sound]
    simp

theorem indexNextSame_uses :
    (∀ u ∈ s.indexNextSame h fetches, u.Current) ↔ s.Undisturbed (.indexNextSame h fetches) := by
  unfold Session.indexNextSame Session.Undisturbed
  cases held : (s.cursors h).scanIter with
  | none => simp [held]
  | some it =>
    rw [if_neg (by simp), read_current_iff sound held]
    simp [held]

end

theorem madeIter_uses {p : Held} {cf gen seen : Nat} (dated : Dated s.conn s.turns p)
    (made : (s.setCursor h cursor).Sound) (iter : cursor.scanIter = some ⟨cf, s.got p.txn, gen, seen⟩)
    (scan : cursor.scanTxn = some p) (fetches : Bool) : (∀ u ∈ [s.use p] ++ (s.setCursor h cursor).throughIter h ++
      (if fetches then (s.setCursor h cursor).throughScanTxn h else []), u.Current) ↔ s.Unturned p := by
  have held : ((s.setCursor h cursor).cursors h).scanIter = some ⟨cf, s.got p.txn, gen, seen⟩ := by rw [s.setCursor_self, iter]
  rw [append_assoc, forall_mem_append, read_current_iff made held, s.setCursor_self, scan, forall_mem_singleton,
    use_current_iff dated]
  constructor
  · exact fun current => current.1
  · intro now
    have live := liveHandle_of_id (dated.current_iff.mpr now)
    refine ⟨now, if_pos live, fun _ => ?_⟩
    rintro _ ⟨⟩
    exact now

theorem indexRead_uses (sound : s.Sound) (newRc : Rc) (fetches : Bool) :
    (∀ u ∈ (s.indexRead h newRc fetches).2, u.Current) ↔ s.ReadUnturned h fetches := by
  have after := sound.ensureScanIter (h := h) newRc
  unfold indexRead Session.ReadUnturned
  unfold ensureScanIter at after ⊢
  cases held : (s.cursors h).scanIter with
  | some it =>
    simp only [held, if_true, nil_append]
    exact read_current_iff sound held fetches
  | none =>
    simp only [held] at after ⊢
    by_cases again : (s.cursors h).scanIterLastErr = some ((s.cursors h).scanCf, (s.cursors h).scanTxn.map Held.txn)
    · simp [again]
    · rw [if_neg again] at after ⊢
      cases scan : (s.cursors h).scanTxn with
      | none => simp
      | some p =>
        have dated := (sound.cursors h).scan p scan
        rw [scan] at again
        cases family : (s.cursors h).scanCf with
        | none => simp
        | some cf =>
          rw [family] at again
          simp only [scan, family] at after ⊢
          have condition : (¬ (s.cursors h).scanIterLastErr = some (some cf, Option.map Held.txn (some p)) →
              (some cf).isSome = true → ∀ q ∈ some p, s.Unturned q) ↔ s.Unturned p :=
            ⟨fun holds => holds again rfl p rfl, fun now _ _ q mem => mem_some.mp mem ▸ now⟩
          rw [condition]
          split
          · rename_i opened
            rw [if_pos opened] at after
            exact madeIter_uses dated after rfl rfl fetches
          · simp [use_current_iff dated]

theorem multiRangeReadNext_uses (sound : s.Sound) (cf : Option Nat) (o : Opening) (newRc : Rc) (fetches : Bool) :
    (∀ u ∈ (s.multiRangeReadNext h cf o newRc fetches).2, u.Current) ↔
      s.Undisturbed (.multiRangeReadNext h cf o newRc fetches) := by
  have ensured := sound.ensureStmtTxn (h := h) o
  unfold multiRangeReadNext Session.Undisturbed
  by_cases ok : (s.ensureStmtTxn h o).2 = .ok
  · simp only [ok, ne_eq, not_true_eq_false, if_false, forall_const]
    cases cf with
    | none =>
      cases fetches with
      | false => simp
      | true =>
        simp only [if_true, forall_const]
        exact throughScanTxn_current_iff ensured.withScanTxn
    | some cf => exact indexRead_uses (ensured.withScanTxn.withScanCf cf) newRc fetches
  · simp [ok]

theorem serve_uses (sound : s.Sound) (e : Event W) : (∀ u ∈ (s.serve e).2, u.Current) ↔ s.Undisturbed (.server e) := by
  cases e with
  | row h call => exact rowOp_uses sound call
  | endBulkInsert h metaCalls =>
    have through := throughStmtTxn_current_iff (h := h) sound
    unfold serve Session.Undisturbed
    cases metaCalls with
    | nil => simp
    | cons first rest => simpa using through
  | _ => simp [serve, Session.Undisturbed]

/-- A call uses only objects of the present transaction just when what it goes on with was got since the last turn. -/
theorem step_uses (sound : s.Sound) (call : SessionCall W) :
    (∀ u ∈ (s.step call).2, u.Current) ↔ s.Undisturbed call := by
  cases call with
  | server e => exact serve_uses sound e
  | rndInit h cf o newRc => exact rndInit_uses sound cf o newRc
  | rndNext h => exact throughIter_current_iff sound
  | indexInit h cf o =>
    have none : (s.indexInit h cf o).2 = [] := by
      unfold Session.indexInit
      dsimp only
      split
      · rfl
      · cases cf <;> rfl
    simp [Session.step, Session.Undisturbed, none]
  | indexRead h newRc fetches => exact indexRead_uses sound newRc fetches
  | indexNextSame h fetches => exact indexNextSame_uses sound fetches
  | pointRead h => exact throughScanTxn_current_iff sound
  | stmtRead h o => exact stmtRead_uses sound o
  | uniqueCheck h i cf o newRc => exact uniqueCheck_uses sound i cf o newRc
  | multiRangeReadNext h cf o newRc fetches => exact multiRangeReadNext_uses sound cf o newRc fetches
  | scanEnd | close => simp [Session.step, Session.Undisturbed]

theorem opened_sound (committed : List W) (nextId : Nat) (indexes : Nat → Nat) (recovery : Recovery (EngineTxn W)) :
    (Session.opened (Conn.opened committed nextId (fun h => .opened (indexes h)) recovery)).Sound := by
  refine ⟨nofun, fun h => ⟨nofun, nofun, nofun, fun i => nofun⟩⟩

end Sound

/- `INSERT INTO a SELECT … FROM b`, where `a` has 63 secondary keys: the eighth row commits, and the
scan of `b` goes on. -/
section InsertSelect

def selectOpening : Opening := ⟨.snapshot, .good⟩

def insertSelect : List (SessionCall Unit) :=
  [.server (.options true), .server (.externalLock 0 .snapshot .good), .server (.externalLock 1 .snapshot .good),
    .rndInit 1 1 selectOpening .success, .server (.startBulkInsert 0)] ++
    (List.replicate 8 [SessionCall.rndNext 1, .server (.row 0 bulkRow)]).flatten ++ [.rndNext 1]

def twoTables : Session Unit := .opened (.opened [] 0 (fun _ => .opened 63) (.start []))

end InsertSelect

end TidesdbMysql
