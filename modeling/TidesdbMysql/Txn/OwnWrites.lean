import TidesdbMysql.Txn.Cursors

/-! Whether a scan shows what the earlier statements of its transaction have written. An iterator sees the writes that
were made before it was; the handlers keep theirs over statements, each by its own dirty flag. -/
namespace TidesdbMysql
open Base List Option Conn Session Handler

variable {W : Type}
variable {log : List (Nat × W)} {cursor : Cursor}

def SessionCall.Within : SessionCall W → Prop
  | .server (.externalLock ..) | .server (.externalUnlock _) | .server (.row ..) | .server (.rowLockAcquire _) => True
  | .server (.startBulkInsert _) | .server (.endBulkInsert ..) => True
  | .server (.startBulkDelete _) | .server (.endBulkDelete _) => True
  | .server (.commit all _) => all = false
  | .server _ => False
  | _ => True

instance decidableCallWithin (call : SessionCall W) : Decidable call.Within := by
  apply SessionCall.casesOn (motive := fun call => Decidable call.Within) call
  case server =>
    intro e
    apply Event.casesOn (motive := fun e => Decidable (SessionCall.server e).Within) e <;>
      intros <;> dsimp only [SessionCall.Within] <;> exact inferInstance
  all_goals intros; exact .isTrue trivial

structure TrxStatement (W : Type) where
  calls : List (SessionCall W)
  within : ∀ call ∈ calls, call.Within

namespace Session

def executes (s : Session W) (st : TrxStatement W) : Session W × Unit := (run step s st.calls, ())

/-- What the server does: it locks a handler that is not locked, and writes through one that is. -/
def Served (s : Session W) : SessionCall W → Prop
  | .server (.externalLock h ..) => (s.conn.handlers h).cachedTrx = false
  | .server (.row h _) => (s.conn.handlers h).cachedTrx = true
  | _ => True

/-- The iterator a scan begins with. An index scan that has none yet makes it in its first read. -/
def scansWith (s : Session W) : SessionCall W → Option CachedIter
  | .rndInit h cf o newRc =>
    if (s.ensureStmtTxn h o).2 = .ok then ((s.rndInit h cf o newRc).1.cursors h).scanIter else none
  | .indexInit h (some cf) o =>
    if (s.ensureStmtTxn h o).2 = .ok then ((s.indexInit h (some cf) o).1.cursors h).scanIter else none
  | .indexRead h newRc fetches =>
    if (s.cursors h).scanIter.isSome then none else ((s.indexRead h newRc fetches).1.cursors h).scanIter
  | _ => none

/-- Of the first `n` writes, the scan's iterator sees those to its family. -/
def Reflects (s : Session W) (cfOf : W → Nat) (n : Nat) (call : SessionCall W) : Prop :=
  ∀ it ∈ s.scansWith call, ∀ i < n, it.seen ≤ i → ∀ e ∈ s.log[i]?, cfOf e.2 ≠ it.cf

/- A write to the family that the handler's own flag has not been raised for, or not been looked at since. -/
def Elsewhere (s : Session W) (h i : Nat) (e : Nat × W) : Prop := e.1 ≠ h ∨ (s.cursors h).releasedAt ≤ i
  deriving Decidable

instance (s : Session W) (cfOf : W → Nat) (n : Nat) (call : SessionCall W) : Decidable (s.Reflects cfOf n call) :=
  inferInstanceAs (Decidable (∀ it ∈ s.scansWith call, _))

instance (s : Session W) (call : SessionCall W) : Decidable (s.Served call) := by
  apply SessionCall.casesOn (motive := fun call => Decidable (s.Served call)) call
  case server =>
    intro e
    apply Event.casesOn (motive := fun e => Decidable (s.Served (.server e))) e <;>
      intros <;> dsimp only [Served] <;> exact inferInstance
  all_goals intros; exact .isTrue trivial

/-- Since the kept iterator was made, no write to its family went through another handler, nor this
one without an unlock. -/
def UnwrittenElsewhere (s : Session W) (cfOf : W → Nat) (n : Nat) : SessionCall W → Prop
  | .rndInit h cf o _ | .indexInit h (some cf) o =>
    (s.ensureStmtTxn h o).2 = .ok → ∀ it ∈ (s.ensureStmtTxn h o).1.keptIter h cf,
      ∀ i < n, it.seen ≤ i → ∀ e ∈ s.log[i]?, cfOf e.2 = cf → ¬ s.Elsewhere h i e
  | _ => True

instance (s : Session W) (cfOf : W → Nat) (n : Nat) (call : SessionCall W) : Decidable (s.UnwrittenElsewhere cfOf n call) := by
  apply SessionCall.casesOn (motive := fun call => Decidable (s.UnwrittenElsewhere cfOf n call)) call
  case indexInit =>
    intro h cf o
    cases cf <;> dsimp only [UnwrittenElsewhere] <;> exact inferInstance
  all_goals intros; dsimp only [UnwrittenElsewhere]; exact inferInstance

end Session

section Quiet

variable {s s' : Session W} {h : Nat}

/-- A cursor of a handler that neither wrote nor was locked or unlocked: its iterator is the one it had, or a new one. -/
structure CursorQuiet (writes : Nat) (cursor cursor' : Cursor) : Prop where
  iter : ∀ it ∈ cursor'.scanIter, it ∈ cursor.scanIter ∨ it.seen = writes
  dirty : cursor.stmtTxnDirty = true → cursor'.stmtTxnDirty = true
  released : cursor'.releasedAt = cursor.releasedAt

structure Quiet (s s' : Session W) : Prop where
  log : s'.log = s.log
  cached : ∀ h, (s'.conn.handlers h).cachedTrx = (s.conn.handlers h).cachedTrx
  cursors : ∀ h, CursorQuiet s.log.length (s.cursors h) (s'.cursors h)

theorem CursorQuiet.refl (writes : Nat) (cursor : Cursor) : CursorQuiet writes cursor cursor :=
  ⟨fun _ mem => .inl mem, id, rfl⟩

theorem Quiet.refl (s : Session W) : Quiet s s := ⟨rfl, fun _ => rfl, fun h => .refl _ (s.cursors h)⟩

theorem Quiet.trans {s'' : Session W} (first : Quiet s s') (second : Quiet s' s'') : Quiet s s'' := by
  refine ⟨second.log.trans first.log, fun h => (second.cached h).trans (first.cached h), fun h => ?_⟩
  have one := first.cursors h
  have two := second.cursors h
  rw [first.log] at two
  constructor
  · intro it mem
    rcases two.iter it mem with old | fresh
    · exact one.iter it old
    · exact .inr fresh
  · exact fun dirty => two.dirty (one.dirty dirty)
  · exact two.released.trans one.released

theorem Quiet.setCursor (own : CursorQuiet s.log.length (s.cursors h) cursor) : Quiet s (s.setCursor h cursor) := by
  refine ⟨rfl, fun _ => rfl, fun h' => ?_⟩
  by_cases same : h' = h
  · subst same
    rw [s.setCursor_self]
    exact own
  · rw [s.setCursor_other same]
    exact .refl _ _

theorem Quiet.advance {c : Conn W} (cached : ∀ h, (c.handlers h).cachedTrx = (s.conn.handlers h).cachedTrx) :
    Quiet s (s.advance c) := ⟨rfl, cached, fun h => .refl _ (s.cursors h)⟩

theorem Quiet.freeIters : Quiet s (s.freeIters h) := .setCursor ⟨nofun, id, rfl⟩

theorem Quiet.take : Quiet s (s.take h) := .setCursor ⟨fun _ mem => .inl mem, id, rfl⟩

section
variable (i cf : Nat) (o : Opening) (newRc : Rc) (fetches : Bool)

theorem Quiet.ensureStmtTxn : Quiet s (s.ensureStmtTxn h o).1 := by
  unfold Session.ensureStmtTxn
  split
  · exact .refl s
  · rename_i unset
    have cached : ∀ h', ((s.conn.ensureStmtTxn h o.iso o.rcs).1.handlers h').cachedTrx = (s.conn.handlers h').cachedTrx := by
      unfold Conn.ensureStmtTxn
      rw [if_neg unset]
      dsimp only
      split
      · exact setHandler_field cachedTrx (s.conn.getOrCreate o.iso o.rcs).1 h rfl
      · exact fun _ => rfl
    dsimp only
    split
    · exact (Quiet.advance cached).trans .take
    · exact .advance cached

theorem Quiet.rndInit : Quiet s (s.rndInit h cf o newRc).1 := by
  have ensured : Quiet s (s.ensureStmtTxn h o).1 := .ensureStmtTxn o
  unfold Session.rndInit
  dsimp only
  split
  · exact ensured
  split
  · exact ensured.trans (.setCursor ⟨fun _ mem => .inl mem, id, rfl⟩)
  split
  · exact ensured
  split
  · refine ensured.trans (.setCursor ⟨?_, id, rfl⟩)
    rintro _ ⟨⟩
    exact .inr rfl
  · exact ensured.trans (.setCursor ⟨nofun, id, rfl⟩)

theorem Quiet.indexInit (cf : Option Nat) (o : Opening) : Quiet s (s.indexInit h cf o).1 := by
  have ensured : Quiet s (s.ensureStmtTxn h o).1 := .ensureStmtTxn o
  unfold Session.indexInit
  dsimp only
  split
  · exact ensured
  split
  · exact ensured.trans (.setCursor ⟨fun _ mem => .inl mem, id, rfl⟩)
  · exact ensured.trans (.setCursor ⟨fun it kept => .inl (mem_filter_iff.mp kept).1, id, rfl⟩)

theorem Quiet.ensureScanIter : Quiet s (s.ensureScanIter h newRc).1 := by
  have again err : Quiet s (s.setCursor h { s.cursors h with scanIterLastErr := err }) :=
    .setCursor ⟨fun _ mem => .inl mem, id, rfl⟩
  unfold Session.ensureScanIter
  dsimp only
  split
  · exact .refl s
  split
  · exact .refl s
  split
  · split
    · refine .setCursor ⟨?_, id, rfl⟩
      rintro _ ⟨⟩
      exact .inr rfl
    · exact again _
  · exact again _

theorem Quiet.indexRead : Quiet s (s.indexRead h newRc fetches).1 := by
  have iter : Quiet s (s.ensureScanIter h newRc).1 := .ensureScanIter newRc
  unfold Session.indexRead
  dsimp only
  split <;> exact iter

theorem Quiet.stmtRead : Quiet s (s.stmtRead h o).1 := by
  have ensured : Quiet s (s.ensureStmtTxn h o).1 := .ensureStmtTxn o
  unfold Session.stmtRead
  dsimp only
  split <;> exact ensured

theorem Quiet.uniqueCheck : Quiet s (s.uniqueCheck h i cf o newRc).1 := by
  have ensured : Quiet s (s.ensureStmtTxn h o).1 := .ensureStmtTxn o
  unfold Session.uniqueCheck
  dsimp only
  split
  · exact ensured
  split
  · exact ensured
  split
  · exact ensured
  split <;> exact ensured.trans (.setCursor ⟨fun _ mem => .inl mem, id, rfl⟩)

end

theorem Quiet.multiRangeReadNext (cf : Option Nat) (o : Opening) (newRc : Rc) (fetches : Bool) :
    Quiet s (s.multiRangeReadNext h cf o newRc fetches).1 := by
  have ensured : Quiet s (s.ensureStmtTxn h o).1 := .ensureStmtTxn o
  have scan : Quiet s ((s.ensureStmtTxn h o).1.withScanTxn h) :=
    ensured.trans (.setCursor ⟨fun _ mem => .inl mem, id, rfl⟩)
  unfold Session.multiRangeReadNext
  dsimp only
  split
  · exact ensured
  split
  · exact scan
  · rename_i cf
    have family : Quiet s (((s.ensureStmtTxn h o).1.withScanTxn h).withScanCf h cf) :=
      scan.trans (.setCursor ⟨fun _ mem => .inl mem, id, rfl⟩)
    exact family.trans (.indexRead newRc fetches)

theorem Quiet.markDirty : Quiet s (s.markDirty h) := by
  refine (Quiet.advance fun h' => ?_).trans (.setCursor ⟨fun _ mem => .inl mem, fun _ => rfl, rfl⟩)
  rw [markDirty_handlers]

theorem maybeBulkCommit_cachedTrx (c : Conn W) (h : Nat) (call : RowCall W) :
    ∀ h', ((c.maybeBulkCommit h call).1.handlers h').cachedTrx = (c.handlers h').cachedTrx := by
  unfold maybeBulkCommit
  split
  · exact fun _ => rfl
  split
  · exact fun _ => rfl
  dsimp only
  split
  · exact fun _ => rfl
  split
  · exact setHandler_field cachedTrx { c with engine := _, trx := _ } h rfl
  split
  · exact fun _ => rfl
  · exact setHandler_field cachedTrx { c with engine := _, trx := _ } h rfl

theorem bulkTail_cachedTrx (c : Conn W) (h : Nat) (call : RowCall W) :
    ∀ h', ((c.bulkTail h call).1.handlers h').cachedTrx = (c.handlers h').cachedTrx := by
  have spec := bulkTail_spec c h call
  intro h'
  cases full : c.fillsBatch h call.kind with
  | false =>
    rw [full] at spec
    exact spec.1.cached h'
  | true =>
    rw [full] at spec
    have counted : SameButCounts c (c.countRow h) := sameButCounts_setHandler c h rfl rfl
    exact (spec.1.cached h').trans ((maybeBulkCommit_cachedTrx _ h call h').trans (counted.cached h'))

theorem Quiet.bulkTail (call : RowCall W) : Quiet s (s.bulkTail h call) := by
  have moved : Quiet s (s.advance (s.conn.bulkTail h call).1) := .advance (bulkTail_cachedTrx s.conn h call)
  unfold Session.bulkTail
  dsimp only
  split
  · exact Quiet.trans ((moved.trans .freeIters).trans .take) (.setCursor ⟨fun _ mem => .inl mem, id, rfl⟩)
  · exact moved

end Quiet

/-- The handler's own writes since its iterator was made have raised its flag, and it has not been unlocked since. -/
structure Tracked (cached : Bool) (h : Nat) (cursor : Cursor) (log : List (Nat × W)) : Prop where
  released : cursor.releasedAt ≤ log.length
  own : ∀ it ∈ cursor.scanIter, ∀ i w, it.seen ≤ i → log[i]? = some (h, w) →
    cached = true ∧ cursor.stmtTxnDirty = true ∧ cursor.releasedAt ≤ i

def Session.Tracks (s : Session W) : Prop := ∀ h, Tracked (s.conn.handlers h).cachedTrx h (s.cursors h) s.log

section Tracks

variable {s s' : Session W} {h : Nat}

theorem Session.Tracks.quiet (tracks : s.Tracks) (quiet : Quiet s s') : s'.Tracks := by
  intro h
  have before := tracks h
  have own := quiet.cursors h
  rw [quiet.log, quiet.cached h]
  refine ⟨own.released ▸ before.released, fun it mem i w late entry => ?_⟩
  rcases own.iter it mem with old | fresh
  · obtain ⟨cached, dirty, after⟩ := before.own it old i w late entry
    exact ⟨cached, own.dirty dirty, own.released ▸ after⟩
  · obtain ⟨bound, -⟩ := List.getElem?_eq_some_iff.mp entry
    omega

theorem Session.Tracks.moved (tracks : s.Tracks) (log : s'.log = s.log)
    (handlers : ∀ h', h' ≠ h → (s'.conn.handlers h').cachedTrx = (s.conn.handlers h').cachedTrx)
    (cursors : ∀ h', h' ≠ h → s'.cursors h' = s.cursors h')
    (own : Tracked (s'.conn.handlers h).cachedTrx h (s'.cursors h) s.log) : s'.Tracks := by
  intro h'
  by_cases same : h' = h
  · subst same
    rw [log]
    exact own
  · rw [log, handlers h' same, cursors h' same]
    exact tracks h'

theorem Tracked.of_none {cached : Bool} (released : cursor.releasedAt ≤ log.length) (none : cursor.scanIter = none) :
    Tracked cached h cursor log := by
  refine ⟨released, fun it mem => ?_⟩
  rw [none] at mem
  cases mem

theorem Tracked.unlocked {cached : Bool} {cursor cursor' : Cursor} (before : Tracked false h cursor log)
    (iter : cursor'.scanIter = cursor.scanIter) (released : cursor'.releasedAt ≤ log.length) :
    Tracked cached h cursor' log := by
  refine ⟨released, fun it mem i w late entry => ?_⟩
  rw [iter] at mem
  cases (before.own it mem i w late entry).1

theorem Session.Tracks.wrote (tracks : s.Tracks) (cached : (s.conn.handlers h).cachedTrx = true)
    (dirty : (s.cursors h).stmtTxnDirty = true) (ws : List W) : (s.wrote h ws).Tracks := by
  intro h'
  have before := tracks h'
  have longer : s.log.length ≤ (s.log ++ ws.map (h, ·)).length := by simp
  refine ⟨Nat.le_trans before.released longer, fun it mem i w late entry => ?_⟩
  change (s.log ++ ws.map (h, ·))[i]? = some (h', w) at entry
  by_cases old : i < s.log.length
  · rw [getElem?_append_left old] at entry
    exact before.own it mem i w late entry
  · rw [getElem?_append_right (Nat.not_lt.mp old), getElem?_map] at entry
    obtain ⟨_, -, same⟩ := map_eq_some_iff.mp entry
    cases same
    exact ⟨cached, dirty, Nat.le_trans before.released (Nat.not_lt.mp old)⟩

theorem Session.Tracks.externalLock (tracks : s.Tracks) (unlocked : (s.conn.handlers h).cachedTrx = false) (o : Opening) :
    (s.externalLock h o).Tracks := by
  have before := tracks h
  rw [unlocked] at before
  unfold Session.externalLock Conn.externalLock
  dsimp only
  by_cases ok : (s.conn.getOrCreate o.iso o.rcs).2 = true
  · rw [if_pos ok, if_pos rfl]
    refine tracks.moved (h := h) rfl ?_ ?_ ?_
    · exact fun h' other => congrArg cachedTrx (Function.update_of_ne other _ _)
    · intro h' other
      exact (setCursor_other _ other _).trans (setCursor_other _ other _)
    · rw [setCursor_self, take, setCursor_self]
      exact before.unlocked rfl before.released
  · rw [if_neg ok, if_neg (by simp)]
    exact tracks.quiet (.advance fun _ => rfl)

theorem Session.Tracks.release (tracks : s.Tracks) (handler : Handler)
    (kept : (s.cursors h).scanIter = none ∨ (s.cursors h).stmtTxnDirty = false) : (s.release h handler).Tracks := by
  refine tracks.moved (h := h) rfl ?_ ?_ ?_
  · exact fun h' other => congrArg cachedTrx (Function.update_of_ne other _ _)
  · exact fun h' other => s.setCursor_other other _
  · change Tracked _ h ((s.setCursor h _).cursors h) s.log
    rw [s.setCursor_self]
    refine ⟨le_rfl, fun it mem i w late entry => ?_⟩
    rcases kept with none | clean
    · cases none.symm.trans mem
    · cases clean.symm.trans ((tracks h).own it mem i w late entry).2.1

theorem Session.Tracks.externalUnlock (tracks : s.Tracks) : (s.externalUnlock h).Tracks := by
  unfold Session.externalUnlock
  split
  · have freed : (s.freeIters h).Tracks := tracks.quiet .freeIters
    refine freed.release _ (.inl ?_)
    rw [freeIters, s.setCursor_self]
  · rename_i keeps
    refine tracks.release _ (.inr ?_)
    unfold dropsIters at keeps
    simp only [Bool.or_eq_true, not_or, Bool.not_eq_true] at keeps
    exact keeps.1.2

theorem Session.Tracks.close (tracks : s.Tracks) : (s.close h).Tracks := by
  have freed : (s.freeIters h).Tracks := tracks.quiet .freeIters
  refine freed.release _ (.inl ?_)
  rw [freeIters, s.setCursor_self]

theorem rowOp_cases (call : RowCall W) : Quiet s (s.rowOp h call).1 ∨
    ∃ m ws, Quiet s m ∧ (m.cursors h).stmtTxnDirty = true ∧ Quiet (m.wrote h ws) (s.rowOp h call).1 := by
  have ensured : Quiet s (s.ensureStmtTxn h ⟨call.iso, call.trxRcs⟩).1 := .ensureStmtTxn _
  have marked := ensured.trans (.markDirty (h := h))
  unfold Session.rowOp
  split
  · exact .inl (.refl s)
  dsimp only
  split
  · exact .inl ensured
  split
  · exact .inl marked
  have put : Quiet s (advance _ (throughStmtTxn _ h (putAll · call.calls)).1) :=
    marked.trans (.advance fun h' => by rw [throughStmtTxn_handlers])
  split
  · exact .inr ⟨_, _, put, congrArg Cursor.stmtTxnDirty (setCursor_self _ h _), .refl _⟩
  · exact .inr ⟨_, _, put, congrArg Cursor.stmtTxnDirty (setCursor_self _ h _), .bulkTail call⟩

theorem Session.Tracks.rowOp (tracks : s.Tracks) (locked : (s.conn.handlers h).cachedTrx = true) (call : RowCall W) :
    (s.rowOp h call).1.Tracks := by
  rcases rowOp_cases call with quiet | ⟨m, ws, before, dirty, after⟩
  · exact tracks.quiet quiet
  · have logged := (tracks.quiet before).wrote ((before.cached h).trans locked) dirty ws
    exact logged.quiet after

theorem endBulkInsert_cachedTrx (c : Conn W) (h : Nat) (metaCalls : List (EngineCall W)) :
    ∀ h', ((c.endBulkInsert h metaCalls).1.handlers h').cachedTrx = (c.handlers h').cachedTrx := by
  unfold endBulkInsert
  dsimp only
  split
  · rw [throughStmtTxn_handlers]
    exact setHandler_field cachedTrx c h rfl
  · exact setHandler_field cachedTrx c h rfl

theorem Session.Tracks.serve (tracks : s.Tracks) {e : Event W} (served : s.Served (.server e)) : (s.serve e).1.Tracks := by
  have moved cached :
      (s.advance (s.conn.step e).1).Tracks := tracks.quiet (.advance cached)
  cases e with
  | externalLock h iso rcs => exact tracks.externalLock served ⟨iso, rcs⟩
  | externalUnlock h => exact tracks.externalUnlock
  | row h call => exact tracks.rowOp served call
  | endBulkInsert h metaCalls => exact moved (endBulkInsert_cachedTrx s.conn h metaCalls)
  | deleteAllRows h result =>
    have freed : (s.freeIters h).Tracks := tracks.quiet .freeIters
    have emptied : ((s.freeIters h).advance (s.conn.step (.deleteAllRows h result)).1).Tracks :=
      freed.quiet (.advance (setHandler_field cachedTrx { s.conn with engine := _, trx := _ } h rfl))
    refine emptied.moved (h := h) rfl (fun _ _ => rfl) (fun h' other => setCursor_other _ other _) ?_
    change Tracked _ h ((setCursor _ h _).cursors h) _
    rw [setCursor_self]
    refine .of_none (emptied h).released ?_
    rw [freeIters, s.setCursor_self]
  | startBulkInsert h => exact moved (setHandler_field cachedTrx s.conn h rfl)
  | startBulkDelete h => exact moved (setHandler_field cachedTrx s.conn h rfl)
  | endBulkDelete h => exact moved (setHandler_field cachedTrx s.conn h rfl)
  | backupDir check =>
    refine moved ?_
    cases check <;> exact fun _ => rfl
  | _ => exact moved fun _ => rfl

theorem Session.Tracks.step (tracks : s.Tracks) {call : SessionCall W} (served : s.Served call) : (s.step call).1.Tracks := by
  cases call with
  | server e => exact tracks.serve served
  | rndInit h cf o newRc => exact tracks.quiet (.rndInit cf o newRc)
  | indexInit h cf o => exact tracks.quiet (.indexInit cf o)
  | indexRead h newRc fetches => exact tracks.quiet (.indexRead newRc fetches)
  | stmtRead h o => exact tracks.quiet (.stmtRead o)
  | uniqueCheck h i cf o newRc => exact tracks.quiet (.uniqueCheck i cf o newRc)
  | multiRangeReadNext h cf o newRc fetches => exact tracks.quiet (.multiRangeReadNext cf o newRc fetches)
  | scanEnd h => exact tracks.quiet (.setCursor ⟨fun _ mem => .inl mem, id, rfl⟩)
  | close h => exact tracks.close
  | _ => exact tracks

theorem externalUnlock_log : (s.externalUnlock h).log = s.log := by
  unfold externalUnlock
  split <;> rfl

theorem serve_log (e : Event W) : s.log.length ≤ (s.serve e).1.log.length := by
  cases e with
  | externalLock h iso rcs =>
    simp only [Session.serve, Session.externalLock]
    split <;> exact le_rfl
  | externalUnlock h => exact Nat.le_of_eq (congrArg length externalUnlock_log).symm
  | row h call =>
    rcases rowOp_cases (h := h) call with quiet | ⟨m, ws, before, -, after⟩
    · exact Nat.le_of_eq (congrArg length quiet.log).symm
    · have written : (s.rowOp h call).1.log = s.log ++ ws.map (h, ·) := by rw [after.log, ← before.log]; rfl
      have longer := congrArg length written
      rw [length_append] at longer
      exact Nat.le.intro longer.symm
  | _ => exact le_rfl

theorem step_log (call : SessionCall W) : s.log.length ≤ (s.step call).1.log.length := by
  have quiet {s' : Session W} (quiet : Quiet s s') : s.log.length ≤ s'.log.length :=
    Nat.le_of_eq (congrArg length quiet.log).symm
  cases call with
  | server e => exact serve_log e
  | rndInit h cf o newRc => exact quiet (.rndInit cf o newRc)
  | indexInit h cf o => exact quiet (.indexInit cf o)
  | indexRead h newRc fetches => exact quiet (.indexRead newRc fetches)
  | stmtRead h o => exact quiet (.stmtRead o)
  | uniqueCheck h i cf o newRc => exact quiet (.uniqueCheck i cf o newRc)
  | multiRangeReadNext h cf o newRc fetches => exact quiet (.multiRangeReadNext cf o newRc fetches)
  | _ => exact le_rfl

variable {o : Opening} {cf : Nat} {it : CachedIter} {newRc : Rc}

theorem ensured_pointed (ok : (s.ensureStmtTxn h o).2 = .ok) : ((s.ensureStmtTxn h o).1.stmtTxn h).isSome = true := by
  rw [Session.stmtTxn, isSome_map]
  revert ok
  unfold Session.ensureStmtTxn
  split
  · rename_i set
    exact fun _ => set
  · rename_i unset
    unfold Conn.ensureStmtTxn
    rw [if_neg unset]
    dsimp only
    split
    · rename_i got
      intro _
      have pointer : (((s.conn.getOrCreate o.iso o.rcs).1.setHandler h { (s.conn.getOrCreate o.iso o.rcs).1.handlers h with
          stmtTxn := (s.conn.getOrCreate o.iso o.rcs).1.liveHandle }).handlers h).stmtTxn = _ :=
        congrArg Handler.stmtTxn (setHandler_same _ h _)
      exact (congrArg isSome pointer).trans (getOrCreate_live got)
    · exact nofun

theorem keptIter_iff :
    it ∈ s.keptIter h cf ↔ it ∈ (s.cursors h).scanIter ∧ it.cf = cf ∧ s.keeps h (s.stmtTxn h) it = true := by
  rw [keptIter, mem_filter_iff]
  simp

theorem rndInit_scansWith (begun : it ∈ s.scansWith (.rndInit h cf o newRc)) :
    ((s.ensureStmtTxn h o).2 = .ok ∧ it ∈ (s.ensureStmtTxn h o).1.keptIter h cf) ∨ it.seen = s.log.length := by
  have log : (s.ensureStmtTxn h o).1.log = s.log := (Quiet.ensureStmtTxn o).log
  unfold scansWith at begun
  dsimp only at begun
  split at begun
  · rename_i ok
    obtain ⟨p, pointer⟩ := isSome_iff_exists.mp (ensured_pointed ok)
    unfold rndInit at begun
    simp only [ok, ne_eq, not_true_eq_false, if_false, pointer] at begun
    cases kept : (s.ensureStmtTxn h o).1.keptIter h cf with
    | some it' =>
      simp only [kept, setCursor_self] at begun
      cases begun.symm.trans (keptIter_iff.mp kept).1
      exact .inl ⟨ok, rfl⟩
    | none =>
      right
      simp only [kept] at begun
      split at begun
      · rw [setCursor_self] at begun
        cases begun
        exact congrArg length log
      · rw [setCursor_self] at begun
        cases begun
  · cases begun

theorem rndInit_keeps (ok : (s.ensureStmtTxn h o).2 = .ok)
    (kept : it ∈ (s.ensureStmtTxn h o).1.keptIter h cf) : it ∈ s.scansWith (.rndInit h cf o newRc) := by
  have there := (keptIter_iff.mp kept).1
  rw [mem_def] at kept
  unfold scansWith rndInit
  simp only [ok, if_true, ne_eq, not_true_eq_false, if_false, kept, setCursor_self]
  exact there

theorem indexInit_scansWith : s.scansWith (.indexInit h (some cf) o) =
      if (s.ensureStmtTxn h o).2 = .ok then (s.ensureStmtTxn h o).1.keptIter h cf else none := by
  unfold scansWith indexInit
  dsimp only
  split
  · rename_i ok
    simp only [ok, ne_eq, not_true_eq_false, if_false, setCursor_self]
  · rfl

theorem indexRead_scansWith {fetches : Bool}
    (begun : it ∈ s.scansWith (.indexRead h newRc fetches)) : it.seen = s.log.length := by
  have quiet : Quiet s (s.indexRead h newRc fetches).1 := .indexRead newRc fetches
  unfold scansWith at begun
  dsimp only at begun
  split at begun
  · cases begun
  · rename_i none
    rcases (quiet.cursors h).iter it begun with old | fresh
    · exact absurd (isSome_of_mem old) none
    · exact fresh

variable (cfOf : W → Nat) {n : Nat}

theorem kept_reflects_iff (tracks : s.Tracks) (within : n ≤ s.log.length)
    (kept : it ∈ (s.ensureStmtTxn h o).1.keptIter h cf) : (∀ i < n, it.seen ≤ i → ∀ e ∈ s.log[i]?, cfOf e.2 ≠ it.cf) ↔
      ∀ i < n, it.seen ≤ i → ∀ e ∈ s.log[i]?, cfOf e.2 = cf → ¬ s.Elsewhere h i e := by
  obtain ⟨there, family, -⟩ := keptIter_iff.mp kept
  rw [family]
  constructor
  · intro seen i early late e entry same
    exact absurd same (seen i early late e entry)
  · rintro unwritten i early late ⟨h', w⟩ entry same
    have own := unwritten i early late _ entry same
    rw [Session.Elsewhere, not_or, not_not] at own
    obtain ⟨rfl, unlocked⟩ := own
    rcases ((Quiet.ensureStmtTxn o).cursors h').iter it there with old | fresh
    · exact unlocked ((tracks h').own it old i w late entry).2.2
    · omega

theorem reflects_iff (tracks : s.Tracks) (within : n ≤ s.log.length) (call : SessionCall W) :
    s.Reflects cfOf n call ↔ s.UnwrittenElsewhere cfOf n call := by
  cases call with
  | rndInit h cf o newRc =>
    constructor
    · intro seen ok it kept
      exact (kept_reflects_iff cfOf tracks within kept).mp (seen it (rndInit_keeps ok kept))
    · intro unwritten it begun
      rcases rndInit_scansWith begun with ⟨ok, kept⟩ | fresh
      · exact (kept_reflects_iff cfOf tracks within kept).mpr (unwritten ok it kept)
      · intro i early late
        omega
  | indexInit h cf o =>
    cases cf with
    | none => exact iff_of_true nofun trivial
    | some cf =>
      unfold Session.Reflects
      rw [indexInit_scansWith]
      constructor
      · intro seen ok it kept
        rw [if_pos ok] at seen
        exact (kept_reflects_iff cfOf tracks within kept).mp (seen it kept)
      · intro unwritten it begun
        split at begun
        · rename_i ok
          exact (kept_reflects_iff cfOf tracks within begun).mpr (unwritten ok it begun)
        · cases begun
  | indexRead h newRc fetches =>
    refine iff_of_true (fun it begun i early late => ?_) trivial
    have fresh := indexRead_scansWith begun
    omega
  | _ => exact iff_of_true nofun trivial

theorem opened_tracks (c : Conn W) : (Session.opened c).Tracks := fun _ => .of_none le_rfl rfl

theorem statement_reflects_iff (tracks : s.Tracks) {calls : List (SessionCall W)}
    (served : Along Session.step Session.Served s calls) :
    Along Session.step (fun s' => s'.Reflects cfOf s.log.length) s calls ↔
      Along Session.step (fun s' => s'.UnwrittenElsewhere cfOf s.log.length) s calls :=
  along_congr Session.step (fun s' => s'.Tracks ∧ s.log.length ≤ s'.log.length)
    (fun _ call known _ => reflects_iff cfOf known.1 known.2 call)
    (fun _ call known served _ => ⟨known.1.step served, Nat.le_trans known.2 (step_log call)⟩) ⟨tracks, le_rfl⟩ served

end Tracks

/-- Every scan shows what earlier statements wrote, just when none keeps an iterator that such a
write has passed by. -/
theorem own_writes_read_iff (cfOf : W → Nat) (c : Conn W) (before : List (SessionCall W)) (statements : List (TrxStatement W))
    (served : Along Session.step Session.Served (.opened c)
      (before ++ .server (.options true) :: statements.flatMap TrxStatement.calls)) :
    let begun := run Session.step (.opened c) (before ++ [.server (.options true)])
    Along Session.executes (fun s st => Along Session.step (fun s' => s'.Reflects cfOf s.log.length) s st.calls) begun statements ↔
      Along Session.executes (fun s st => Along Session.step (fun s' => s'.UnwrittenElsewhere cfOf s.log.length) s st.calls)
        begun statements := by
  intro begun
  have split : before ++ SessionCall.server (.options true) :: statements.flatMap TrxStatement.calls =
      (before ++ [.server (.options true)]) ++ statements.flatMap TrxStatement.calls := by simp
  rw [split, along_append] at served
  obtain ⟨first, rest⟩ := served
  have tracks : begun.Tracks :=
    run_invariant Session.step Session.Tracks (fun _ _ tracks served => tracks.step served) (opened_tracks c) first
  refine along_congr Session.executes Session.Tracks (fun _ st tracks served => statement_reflects_iff cfOf tracks served)
    (fun _ st tracks served _ => ?_) tracks ((along_flatMap Session.step Session.Served TrxStatement.calls begun statements).mp rest)
  exact run_invariant Session.step Session.Tracks (fun _ _ tracks served => tracks.step served) tracks served

/- The first statement reads through two handlers of a table, the second writes through one, the
third reads through the other. -/
section SelfJoin

def joinOpening : Opening := ⟨.snapshot, .good⟩

def joinRow : RowCall Unit :=
  ⟨.write, .snapshot, .good, .none, [⟨(), .success, true⟩], ⟨.success, false⟩, .success, .success⟩

def lockHandler (h : Nat) : SessionCall Unit := .server (.externalLock h .snapshot .good)

def scanHandler (h : Nat) : List (SessionCall Unit) := [.rndInit h 0 joinOpening .success, .rndNext h, .scanEnd h]

def unlockHandler (h : Nat) : SessionCall Unit := .server (.externalUnlock h)

def selfJoin : List (TrxStatement Unit) :=
  [⟨[lockHandler 0, lockHandler 1] ++ scanHandler 0 ++ scanHandler 1 ++ [unlockHandler 0, unlockHandler 1], by decide⟩,
    ⟨[lockHandler 0, .server (.row 0 joinRow), unlockHandler 0], by decide⟩,
    ⟨[lockHandler 1] ++ scanHandler 1 ++ [unlockHandler 1], by decide⟩]

def joinConn : Conn Unit := .opened [] 0 (fun _ => .opened 0) (.start [])

theorem self_join_misses : ¬ Along Session.executes
    (fun s st => Along Session.step (fun s' => s'.Reflects (fun _ => 0) s.log.length) s st.calls)
    (run Session.step (.opened joinConn) [.server (.options true)]) selfJoin := by
  decide

def oneHandler : List (TrxStatement Unit) :=
  [⟨[lockHandler 0] ++ scanHandler 0 ++ [unlockHandler 0], by decide⟩,
    ⟨[lockHandler 0, .server (.row 0 joinRow), unlockHandler 0], by decide⟩,
    ⟨[lockHandler 0] ++ scanHandler 0 ++ [unlockHandler 0], by decide⟩]

theorem one_handler_reads : Along Session.executes
    (fun s st => Along Session.step (fun s' => s'.Reflects (fun _ => 0) s.log.length) s st.calls)
    (run Session.step (.opened joinConn) [.server (.options true)]) oneHandler :=
  (own_writes_read_iff (fun _ => 0) joinConn [] oneHandler (by decide)).mpr (by decide)

end SelfJoin

end TidesdbMysql
