import TidesdbMysql.Txn.Ledger

/-! The laws of one call on a connection: which calls commit, which keep the
writes they find, and that the flags stay sound. -/
namespace TidesdbMysql
open Base Conn

variable {W : Type}

section
variable (c : Conn W) (h : Nat) (handler : Handler)

@[simp] theorem setHandler_engine : (c.setHandler h handler).engine = c.engine := rfl

@[simp] theorem setHandler_pending : (c.setHandler h handler).pending = c.pending := rfl

@[simp] theorem setHandler_same : (c.setHandler h handler).handlers h = handler := by
  simp [setHandler]

end

/- What is committed. -/

section
variable (c : Conn W) (h : Nat) (metaCalls : List (EngineCall W)) (call : RowCall W)
  (puts : EngineTxn W → EngineTxn W × List W × Rc) (e : Engine W) (trx : Option (Trx W)) (iso : Isolation)
  (rcs : TrxRcs)

theorem getOrCreateTrx_committed : (getOrCreateTrx e trx iso rcs).1.committed = e.committed := by
  cases trx with
  | none =>
    simp only [getOrCreateTrx]
    split
    · split <;> rfl
    · rfl
  | some x =>
    cases attached : x.txn with
    | none =>
      simp only [getOrCreateTrx, attached]
      split <;> rfl
    | some t =>
      simp only [getOrCreateTrx, attached]
      split
      · split
        · simp
        · split <;> simp
      · rfl

@[simp] theorem getOrCreate_committed : (c.getOrCreate iso rcs).1.engine.committed = c.engine.committed :=
  getOrCreateTrx_committed c.engine c.trx iso rcs

@[simp] theorem externalLock_committed : (c.externalLock h iso rcs).1.engine.committed = c.engine.committed := by
  unfold externalLock
  dsimp only
  split <;> simp

@[simp] theorem ensureStmtTxn_committed : (c.ensureStmtTxn h iso rcs).1.engine.committed = c.engine.committed := by
  unfold ensureStmtTxn
  dsimp only
  split
  · rfl
  · split <;> simp

@[simp] theorem markDirty_engine : (c.markDirty h).engine = c.engine := by
  unfold markDirty
  split <;> rfl

@[simp] theorem throughStmtTxn_engine :
    (c.throughStmtTxn h puts).1.engine = c.engine ∧ (c.throughStmtTxn h puts).2.flushed = [] := by
  rcases throughStmtTxn_cases c h puts with same | ⟨x, t, -, -, done⟩
  · rw [same]
    exact ⟨rfl, rfl⟩
  · rw [done]
    exact ⟨rfl, rfl⟩

theorem getOrCreate_live {c : Conn W} {iso : Isolation} {rcs : TrxRcs} (got : (c.getOrCreate iso rcs).2 = true) :
    (c.getOrCreate iso rcs).1.liveHandle.isSome = true := by
  revert got
  unfold getOrCreate liveHandle
  cases held : c.trx with
  | none =>
    simp only [getOrCreateTrx]
    split
    · split
      · intro got
        cases got
      · exact fun _ => rfl
    · intro got
      cases got
  | some x =>
    cases attached : x.txn with
    | none =>
      simp only [getOrCreateTrx, attached]
      split
      · intro got
        cases got
      · exact fun _ => rfl
    | some t =>
      simp only [getOrCreateTrx, attached]
      split
      · split
        · exact fun _ => rfl
        · split
          · intro got
            cases got
          · exact fun _ => rfl
      · intro _
        simp [attached]

@[simp] theorem markDirty_handlers : (c.markDirty h).handlers = c.handlers := by
  unfold markDirty
  split <;> rfl

@[simp] theorem throughStmtTxn_handlers : (c.throughStmtTxn h puts).1.handlers = c.handlers := by
  rcases throughStmtTxn_cases c h puts with same | ⟨x, t, -, -, done⟩
  · rw [same]
  · rw [done]

theorem maybeBulkCommit_committed :
    (c.maybeBulkCommit h call).1.engine.committed = c.engine.committed ++ (c.maybeBulkCommit h call).2.flushed := by
  rcases maybeBulkCommit_cases c h call with
    same | ⟨x, t, -, -, ⟨rc, t', -, -, refused⟩ | ⟨ws, -, ⟨-, -, lost⟩ | ⟨t', handlers, -, -, renewed⟩⟩⟩
  · simp [same, answer]
  · simp [refused, answer]
  · simp [lost]
  · simp [renewed]

theorem bulkTail_committed :
    (c.bulkTail h call).1.engine.committed = c.engine.committed ++ (c.bulkTail h call).2.flushed := by
  rcases bulkTail_cases c h call with ⟨handlers, same⟩ | ⟨before, handlers, flushed⟩
  · simp [same, answer]
  · rw [flushed]
    exact maybeBulkCommit_committed { c with handlers := before } h call

theorem rowOp_committed : (c.rowOp h call).1.engine.committed = c.engine.committed ++ (c.rowOp h call).2.flushed := by
  unfold rowOp
  split
  · simp [answer]
  dsimp only
  split
  · simp [answer]
  split
  · simp [answer]
  split
  · simp
  · rw [bulkTail_committed]
    simp

theorem endBulkInsert_committed : (c.endBulkInsert h metaCalls).1.engine.committed =
      c.engine.committed ++ (c.endBulkInsert h metaCalls).2.flushed := by
  unfold endBulkInsert
  dsimp only
  split
  · simp
  · simp [answer]

/- What is kept. -/

def Conn.written : List W := c.engine.committed ++ c.pending

theorem getOrCreate_kept (sound : SoundTrx c.trx) (clean : NoStaleFlag c.trx) :
    SoundTrx (c.getOrCreate iso rcs).1.trx ∧ (c.getOrCreate iso rcs).1.written = c.written := by
  have same := getOrCreateTrx_same c.engine iso rcs sound clean
  refine ⟨same.sound, ?_⟩
  unfold written
  rw [getOrCreate_committed]
  exact congrArg (c.engine.committed ++ ·) same.pending

theorem externalLock_kept (sound : SoundTrx c.trx) (clean : NoStaleFlag c.trx) :
    SoundTrx (c.externalLock h iso rcs).1.trx ∧ (c.externalLock h iso rcs).1.written = c.written := by
  have kept := getOrCreate_kept c iso rcs sound clean
  unfold externalLock
  dsimp only
  split <;> exact kept

theorem ensureStmtTxn_kept (sound : SoundTrx c.trx) (clean : (c.handlers h).stmtTxn = none → NoStaleFlag c.trx) :
    SoundTrx (c.ensureStmtTxn h iso rcs).1.trx ∧ (c.ensureStmtTxn h iso rcs).1.written = c.written ∧
    ((c.ensureStmtTxn h iso rcs).1.handlers h).cachedTrx = (c.handlers h).cachedTrx := by
  unfold ensureStmtTxn
  dsimp only
  split
  · exact ⟨sound, rfl, rfl⟩
  · rename_i unset
    have kept := getOrCreate_kept c iso rcs sound (clean (by simpa using unset))
    split
    · exact ⟨kept.1, kept.2, by simp [getOrCreate]⟩
    · exact ⟨kept.1, kept.2, rfl⟩

theorem markDirty_kept (sound : SoundTrx c.trx) : SoundTrx (c.markDirty h).trx ∧ (c.markDirty h).written = c.written ∧
    ((c.handlers h).cachedTrx = true → ∀ x ∈ (c.markDirty h).trx, x.dirty = true) := by
  unfold markDirty
  split
  · cases held : c.trx with
    | none => exact ⟨soundTrx_none, by simp [written, pending, held], by simp⟩
    | some x =>
      have before := sound x held
      refine ⟨soundTrx_some ⟨before.settled, fun _ _ _ => rfl⟩, ?_, by simp⟩
      simp [written, pending, held, pendingOf]
  · rename_i uncached
    exact ⟨sound, rfl, fun cached => absurd cached uncached⟩

theorem throughStmtTxn_kept {puts : EngineTxn W → EngineTxn W × List W × Rc}
    (extending : ∀ t, Extends t (puts t).1 (puts t).2.1) (sound : SoundTrx c.trx)
    (dirty : ∀ x ∈ c.trx, x.dirty = true ∨ ∀ t, (puts t).2.1 = []) : SoundTrx (c.throughStmtTxn h puts).1.trx ∧
    (c.throughStmtTxn h puts).1.written = c.written ++ (c.throughStmtTxn h puts).2.buffered := by
  rcases throughStmtTxn_cases c h puts with same | ⟨x, t, held, attached, done⟩
  · rw [same]
    exact ⟨sound, by simp [answer]⟩
  rw [done]
  have before := sound x held
  have extended := extending t
  refine ⟨soundTrx_some ⟨fun flagged s mem => ?_, fun s mem writes => ?_⟩, ?_⟩
  · have finished := before.settled flagged t attached
    simp only [Option.mem_some_iff] at mem
    rw [← mem, extended.finished finished]
    exact finished
  · simp only [Option.mem_some_iff] at mem
    rcases dirty x held with marked | silent
    · exact marked
    · rw [← mem, extended.buffer_eq, silent t, List.append_nil] at writes
      exact before.covered t attached writes
  · simp only [written, pending, held]
    rw [pendingOf_attached attached, pendingOf_attached rfl, extended.buffer_eq, List.append_assoc]

theorem maybeBulkCommit_kept (sound : SoundTrx c.trx) : SoundTrx (c.maybeBulkCommit h call).1.trx ∧
    ((c.maybeBulkCommit h call).2.code = .ok → (c.maybeBulkCommit h call).1.written = c.written) := by
  rcases maybeBulkCommit_cases c h call with same | ⟨x, t, held, attached, outcome⟩
  · rw [same]
    exact ⟨sound, fun _ => rfl⟩
  have before := sound x held
  rcases outcome with ⟨rc, t', failed, kind, refused⟩ | ⟨ws, active, outcome⟩
  · rw [refused]
    refine ⟨soundTrx_some ?_, fun ok => absurd ((tdbRcToHa_eq_ok rc).mp ok) failed⟩
    rcases kind with rfl | rfl
    · rw [show { x with txn := some t' } = x by rw [← attached]]
      exact before
    · exact sound_of_finished rfl (.inr rfl)
  rcases outcome with ⟨-, unbegun, lost⟩ | ⟨t', handlers, -, fresh, renewed⟩
  · rw [lost]
    exact ⟨soundTrx_some (sound_of_detached rfl), fun ok => absurd ((tdbRcToHa_eq_ok _).mp ok) unbegun⟩
  · rw [renewed]
    refine ⟨soundTrx_some (sound_of_fresh rfl fresh (before.unflagged attached active)), fun _ => ?_⟩
    simp only [written, pending, held]
    rw [pendingOf_attached attached, pendingOf_attached rfl, buffer_of_active fresh, buffer_of_active active,
      List.append_nil]

theorem bulkTail_kept (sound : SoundTrx c.trx) : SoundTrx (c.bulkTail h call).1.trx ∧
    ((c.bulkTail h call).2.code = .ok → (c.bulkTail h call).1.written = c.written) := by
  rcases bulkTail_cases c h call with ⟨handlers, same⟩ | ⟨before, handlers, flushed⟩
  · rw [same]
    exact ⟨sound, fun _ => rfl⟩
  · rw [flushed]
    exact maybeBulkCommit_kept { c with handlers := before } h call sound

theorem rowOp_kept (sound : SoundTrx c.trx) (clean : (c.handlers h).stmtTxn = none → NoStaleFlag c.trx)
    (locked : (c.handlers h).cachedTrx = true) : SoundTrx (c.rowOp h call).1.trx ∧
    ((c.rowOp h call).2.code = .ok → (c.rowOp h call).1.written = c.written ++ (c.rowOp h call).2.buffered) := by
  obtain ⟨sound₁, written₁, cached⟩ := ensureStmtTxn_kept c h call.iso call.trxRcs sound clean
  obtain ⟨sound₂, written₂, dirty⟩ := markDirty_kept (c.ensureStmtTxn h call.iso call.trxRcs).1 h sound₁
  unfold rowOp
  split
  · exact ⟨sound, fun _ => by simp [answer]⟩
  dsimp only
  split
  · exact ⟨sound₁, fun _ => by simp [answer, written₁]⟩
  split
  · exact ⟨sound₂, fun _ => by simp [answer, written₁, written₂]⟩
  obtain ⟨sound₃, written₃⟩ := throughStmtTxn_kept ((c.ensureStmtTxn h call.iso call.trxRcs).1.markDirty h) h
    (fun t => putAll_extends t call.calls) sound₂ (fun x mem => .inl (dirty (cached.trans locked) x mem))
  split
  · exact ⟨sound₃, fun _ => by rw [written₃, written₂, written₁]⟩
  · obtain ⟨sound₄, written₄⟩ := bulkTail_kept _ h call sound₃
    exact ⟨sound₄, fun ok => by rw [written₄ ok, written₃, written₂, written₁]⟩

theorem endBulkInsert_kept (sound : SoundTrx c.trx) (dirty : metaCalls = [] ∨ ∀ x ∈ c.trx, x.dirty = true) :
    SoundTrx (c.endBulkInsert h metaCalls).1.trx ∧
    (c.endBulkInsert h metaCalls).1.written = c.written ++ (c.endBulkInsert h metaCalls).2.buffered := by
  unfold endBulkInsert
  dsimp only
  split
  · refine throughStmtTxn_kept _ h (fun t => putEach_extends t metaCalls) sound fun x mem => ?_
    rcases dirty with rfl | marked
    · exact .inr fun t => rfl
    · exact .inl (marked x mem)
  · exact ⟨sound, by simp [answer, written]⟩

end

end TidesdbMysql
