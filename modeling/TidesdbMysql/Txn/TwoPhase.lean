import TidesdbMysql.Txn.NoLoss

/-! Two-phase commit: what is called on a prepared batch after its fate was decided. -/
namespace TidesdbMysql
open Base List Option Conn Engine EngineTxn

variable {W : Type}
variable {items : List (InDoubt (EngineTxn W))} {d : InDoubt (EngineTxn W)} {c : Conn W}

def overturns : CallKind → CallKind → Bool
  | .commitHook, .rollbackPrepared _ | .commitHook, .reset | .commitHook, .free
  | .commitHook, .rollback => true
  | .rollbackHook, .commitPrepared true => true
  | .commitPrepared true, .commitPrepared true => true
  | _, _ => false

def Reverses (c d : Call) : Prop := c.batch = d.batch ∧ overturns c.kind d.kind = true
  deriving Decidable

/-- No batch is discarded after the commit hook, none committed after the rollback hook, and none
committed twice. -/
def DecisionsKept (calls : List Call) : Prop := calls.Pairwise fun c d => ¬ Reverses c d

def liveOf (trx : Option (Trx W)) : Option (EngineTxn W) := trx.bind Trx.txn

variable {t : EngineTxn W} {kinds : List CallKind} {calls : List Call} {e e' : Engine W}
  {live' : Option (EngineTxn W)} {batch : Nat} {rc : Rc}

theorem liveOf_attached {x : Trx W} (attached : x.txn = some t) : liveOf (some x) = some t := attached

theorem liveOf_detached {x : Trx W} (detached : x.txn = none) : liveOf (some x) = none := detached

/-- The names of batches are told apart, and a batch that is not over has not been
committed. -/
structure TwoPhase (e : Engine W) (live : Option (EngineTxn W)) (items : List (InDoubt (EngineTxn W))) :
    Prop where
  kept : DecisionsKept e.calls
  named : ∀ d ∈ e.calls, d.batch < e.nextId
  liveNamed : ∀ t ∈ live, t.batch < e.nextId
  liveOpen : ∀ t ∈ live, ¬ t.Finished → ⟨t.batch, .commitPrepared true⟩ ∉ e.calls
  itemNamed : ∀ d ∈ items, d.txn.batch < e.nextId
  itemOpen : ∀ d ∈ items, ⟨d.txn.batch, .commitPrepared true⟩ ∉ e.calls
  itemsApart : items.Pairwise fun a b => a.txn.batch ≠ b.txn.batch
  liveApart : ∀ t ∈ live, ∀ d ∈ items, t.batch ≠ d.txn.batch

def landed (t : EngineTxn W) (kinds : List CallKind) : List Call :=
  if t.isPrepared then kinds.map (⟨t.batch, ·⟩) else []

/-- Calls land on the live transaction; afterwards it is gone, the same batch, or a fresh one. -/
structure Touches (e : Engine W) (live : Option (EngineTxn W)) (e' : Engine W)
    (live' : Option (EngineTxn W)) (kinds : List CallKind) : Prop where
  calls : e'.calls = e.calls ++ (live.elim [] fun t => landed t kinds)
  names : e.nextId ≤ e'.nextId
  after : ∀ t' ∈ live',
    (∃ t ∈ live, t'.batch = t.batch ∧
      (¬ t'.Finished → ¬ t.Finished ∧ (t.isPrepared = true → .commitPrepared true ∉ kinds))) ∨
    (e.nextId ≤ t'.batch ∧ t'.batch < e'.nextId)

def Harmless (calls : List Call) (batch : Nat) (kinds : List CallKind) : Prop :=
  (kinds.Pairwise fun k l => overturns k l = false) ∧
  ∀ k ∈ kinds, ∀ d ∈ calls, d.batch = batch → overturns d.kind k = false

theorem landed_mem {d : Call} (mem : d ∈ landed t kinds) :
    t.isPrepared = true ∧ d.batch = t.batch ∧ d.kind ∈ kinds := by
  unfold landed at mem
  split at mem
  · obtain ⟨k, inside, rfl⟩ := mem_map.mp mem
    exact ⟨‹_›, rfl, inside⟩
  · contradiction

theorem kept_landed (kept : DecisionsKept calls) (harmless : t.isPrepared = true → Harmless calls t.batch kinds) :
    DecisionsKept (calls ++ landed t kinds) := by
  refine pairwise_append.mpr ⟨kept, ?_, ?_⟩
  · unfold landed
    split
    · rename_i prepared
      refine pairwise_map.mpr ((harmless prepared).1.imp ?_)
      intro k l fine reversed
      simp [reversed.2] at fine
    · exact List.Pairwise.nil
  · intro c earlier d later reversed
    obtain ⟨prepared, batch, inside⟩ := landed_mem later
    have fine := (harmless prepared).2 d.kind inside c earlier (reversed.1.trans batch)
    simp [reversed.2] at fine

theorem Touches.mem_calls {live live' : Option (EngineTxn W)} (touches : Touches e live e' live' kinds) {d : Call}
    (mem : d ∈ e'.calls) : d ∈ e.calls ∨ ∃ t ∈ live, t.isPrepared = true ∧ d.batch = t.batch ∧ d.kind ∈ kinds := by
  rw [touches.calls, mem_append] at mem
  rcases mem with old | new
  · exact .inl old
  · cases live with
    | none => contradiction
    | some t => exact .inr ⟨t, rfl, landed_mem new⟩

theorem TwoPhase.touched {live live' : Option (EngineTxn W)} (inv : TwoPhase e live items)
    (touches : Touches e live e' live' kinds)
    (harmless : ∀ t ∈ live, t.isPrepared = true → Harmless e.calls t.batch kinds) : TwoPhase e' live' items := by
  have names := touches.names
  have bounded : ∀ d ∈ e'.calls, d.batch < e.nextId := by
    intro d mem
    rcases touches.mem_calls mem with old | ⟨t, here, -, batch, -⟩
    · exact inv.named d old
    · exact batch ▸ inv.liveNamed t here
  refine ⟨?_, ?_, ?_, ?_, ?_, ?_, inv.itemsApart, ?_⟩
  · rw [touches.calls]
    cases live with
    | none => simpa using inv.kept
    | some t => exact kept_landed inv.kept (harmless t rfl)
  · intro d mem
    have := bounded d mem
    omega
  · intro t' mem
    rcases touches.after t' mem with ⟨t, here, batch, -⟩ | ⟨-, fresh⟩
    · have := inv.liveNamed t here
      omega
    · exact fresh
  · intro t' mem unfinished committed
    rcases touches.after t' mem with ⟨t, here, batch, same⟩ | ⟨fresh, -⟩
    · obtain ⟨open_, quiet⟩ := same unfinished
      rw [batch] at committed
      rcases touches.mem_calls committed with old | ⟨s, there, prepared, -, inside⟩
      · exact inv.liveOpen t here open_ old
      · have one : s = t := mem_unique there here
        exact quiet (one ▸ prepared) inside
    · have := bounded _ committed
      simp only at this
      omega
  · intro d mem
    have := inv.itemNamed d mem
    omega
  · intro d mem committed
    rcases touches.mem_calls committed with old | ⟨t, here, -, batch, -⟩
    · exact inv.itemOpen d mem old
    · exact inv.liveApart t here d mem batch.symm
  · intro t' mem d inside
    rcases touches.after t' mem with ⟨t, here, batch, -⟩ | ⟨fresh, -⟩
    · rw [batch]
      exact inv.liveApart t here d inside
    · have := inv.itemNamed d inside
      omega

/- Engine calls. -/

theorem note_calls (e : Engine W) (t : EngineTxn W) (kind : CallKind) :
    (e.note t kind).calls = e.calls ++ landed t [kind] := by
  unfold note landed isPrepared
  cases t.phase <;> simp

theorem landed_of_open (unprepared : t.isPrepared = false) (kinds : List CallKind) : landed t kinds = [] := by
  simp [landed, unprepared]

theorem finished_unprepared (finished : t.Finished) : t.isPrepared = false := by
  rcases finished with h | h <;> simp [isPrepared, h]

theorem landed_append (t : EngineTxn W) (ks ls : List CallKind) : landed t ks ++ landed t ls = landed t (ks ++ ls) := by
  unfold landed
  split <;> simp

theorem note_note_calls (e : Engine W) (t : EngineTxn W) (hook kind : CallKind) :
    ((e.note t hook).note t kind).calls = e.calls ++ landed t [hook, kind] := by
  rw [note_calls, note_calls, append_assoc, landed_append]
  rfl

theorem txnFree_finished (e : Engine W) (finished : t.Finished) : e.txnFree t = e := by
  rcases finished with h | h <;> simp [txnFree, note, h]

theorem txnRollback_calls (e : Engine W) (t : EngineTxn W) :
    (e.txnRollback t).1.calls = e.calls ++ landed t [.rollback] ∧
    (e.txnRollback t).1.nextId = e.nextId ∧ (e.txnRollback t).2.batch = t.batch := by
  unfold txnRollback
  cases phase : t.phase with
  | active | prepared => simp [note_calls]
  | committed | aborted => simp [landed, isPrepared, phase]

theorem Touches.idle (e : Engine W) (live : Option (EngineTxn W)) : Touches e live e live [] := by
  refine ⟨?_, le_rfl, fun t mem => .inl ⟨t, mem, rfl, fun open_ => ⟨open_, by simp⟩⟩⟩
  cases live <;> simp [landed]

theorem Touches.gone (calls : e'.calls = e.calls ++ landed t kinds) (names : e'.nextId = e.nextId) :
    Touches e (some t) e' none kinds :=
  ⟨calls, Nat.le_of_eq names.symm, by simp⟩

theorem Touches.finished {t t' : EngineTxn W}
    (calls : e'.calls = e.calls ++ landed t kinds) (names : e'.nextId = e.nextId)
    (batch : t'.batch = t.batch) (finished : t'.Finished) : Touches e (some t) e' (some t') kinds := by
  refine ⟨calls, Nat.le_of_eq names.symm, fun s mem => .inl ⟨t, rfl, ?_, ?_⟩⟩
  · rw [← mem_some_iff.mp mem, batch]
  · intro open_
    rw [← mem_some_iff.mp mem] at open_
    exact absurd finished open_

theorem Touches.stays (calls : e'.calls = e.calls ++ landed t kinds) (names : e'.nextId = e.nextId)
    (quiet : .commitPrepared true ∉ kinds) : Touches e (some t) e' (some t) kinds :=
  ⟨calls, Nat.le_of_eq names.symm, fun s mem => .inl ⟨s, mem, rfl, fun open_ => ⟨open_, fun _ => quiet⟩⟩⟩

theorem Touches.hook (e : Engine W) (finished : t.Finished) (hook : CallKind) :
    Touches e (some t) (e.note t hook) (some t) [] := by
  refine Touches.finished ?_ (note_nextId e t hook) rfl finished
  simp [note_calls, landed_of_open (finished_unprepared finished)]

theorem Touches.begun {live : Option (EngineTxn W)} {t' : EngineTxn W}
    (calls : e'.calls = e.calls ++ (live.elim [] fun t => landed t kinds)) (names : e'.nextId = e.nextId + 1)
    (batch : t'.batch = e.nextId) : Touches e live e' (some t') kinds := by
  refine ⟨calls, by omega, fun s mem => .inr ?_⟩
  rw [← mem_some_iff.mp mem]
  omega

theorem Touches.of_open (unprepared : t.isPrepared = false)
    (touches : Touches e (some t) e' live' kinds) : Touches e (some t) e' live' [] := by
  refine ⟨?_, touches.names, fun t' mem => ?_⟩
  · simpa [landed_of_open unprepared] using touches.calls
  · rcases touches.after t' mem with ⟨s, here, batch, same⟩ | fresh
    · exact .inl ⟨s, here, batch, fun open_ => ⟨(same open_).1, by simp⟩⟩
    · exact .inr fresh

def Discards (kinds : List CallKind) : Prop := ∃ k, kinds = [k] ∧ overturns .commitHook k = true

theorem harmless_nil (calls : List Call) (batch : Nat) : Harmless calls batch [] :=
  ⟨List.Pairwise.nil, by simp⟩

theorem harmless_discard (discards : Discards kinds) (undecided : ⟨batch, .commitHook⟩ ∉ calls) :
    Harmless calls batch kinds := by
  obtain ⟨k, rfl, destructive⟩ := discards
  refine ⟨pairwise_singleton _ _, fun l mem d earlier same => ?_⟩
  rw [mem_singleton.mp mem]
  have other : d.kind ≠ .commitHook := by
    intro hook
    exact undecided (by rw [← same, ← hook]; exact earlier)
  cases k <;> cases kind : d.kind <;> simp_all [overturns]

theorem getOrCreateTrx_touches (e : Engine W) (trx : Option (Trx W)) (iso : Isolation) (rcs : TrxRcs) :
    ∃ kinds, Touches e (liveOf trx) (getOrCreateTrx e trx iso rcs).1 (liveOf (getOrCreateTrx e trx iso rcs).2.1) kinds ∧
      (kinds = [] ∨ Discards kinds ∧ ∃ x ∈ trx, x.needsReset = true) := by
  cases trx with
  | none =>
    simp only [getOrCreateTrx]
    split
    · split
      · exact ⟨[], Touches.idle e none, .inl rfl⟩
      · exact ⟨[], Touches.begun (by simp [txnBegin, liveOf]) rfl rfl, .inl rfl⟩
    · exact ⟨[], Touches.idle e none, .inl rfl⟩
  | some x =>
    cases attached : x.txn with
    | none =>
      simp only [getOrCreateTrx, attached]
      split
      · exact ⟨[], Touches.idle e _, .inl rfl⟩
      · exact ⟨[], Touches.begun (by simp [txnBegin, liveOf_detached attached]) rfl rfl, .inl rfl⟩
    | some t =>
      simp only [getOrCreateTrx, attached]
      split
      · rename_i flagged
        split
        · refine ⟨[.reset], Touches.begun ?_ ?_ ?_, .inr ⟨⟨_, rfl, rfl⟩, x, rfl, flagged⟩⟩
          · simp [txnReset, note_calls, liveOf_attached attached]
          all_goals simp [txnReset]
        · refine ⟨[.free], ?_, .inr ⟨⟨_, rfl, rfl⟩, x, rfl, flagged⟩⟩
          split
          · rw [liveOf_attached attached]
            exact Touches.gone (note_calls e t .free) (note_nextId e t .free)
          · refine Touches.begun ?_ ?_ ?_
            · simp [txnBegin, txnFree, note_calls, liveOf_attached attached]
            all_goals simp [txnBegin, txnFree]
      · exact ⟨[], Touches.idle e _, .inl rfl⟩

/- The hooks and the places that free the handle. -/

theorem rollbackFree_touches (e : Engine W) (t : EngineTxn W) :
    Touches e (some t) ((e.txnRollback t).1.txnFree (e.txnRollback t).2) none [.rollback] := by
  obtain ⟨calls, names, -⟩ := txnRollback_calls e t
  rw [txnFree_finished _ (txnRollback_finished e t)]
  exact Touches.gone calls names

theorem rollback_touches (e : Engine W) (t : EngineTxn W) :
    Touches e (some t) (e.txnRollback t).1 (some (e.txnRollback t).2) [.rollback] := by
  obtain ⟨calls, names, batch⟩ := txnRollback_calls e t
  exact Touches.finished calls names batch (txnRollback_finished e t)

theorem refused_rollbackFree_touches (e : Engine W) {t' : EngineTxn W} (refused : Refused t t') :
    Touches e (some t) ((e.txnRollback t').1.txnFree (e.txnRollback t').2) none [.rollback] := by
  rcases refused with rfl | ⟨unprepared, rfl⟩
  · exact rollbackFree_touches e t'
  · refine Touches.gone ?_ rfl
    rw [landed_of_open unprepared]
    simp [txnRollback, txnFree, note]

theorem active_unprepared {ws : List W} (active : t.phase = .active ws) : t.isPrepared = false := by
  simp [isPrepared, active]

theorem active_unfinished {ws : List W} (active : t.phase = .active ws) : ¬ t.Finished := by
  rintro (h | h) <;> simp [active] at h

theorem tidesdbPrepare_touches (e : Engine W) (trx : Option (Trx W)) (inTrx all : Bool) (xid : Xid) (answer : WriteRc) :
    ∃ kinds, Touches e (liveOf trx) (tidesdbPrepare e trx inTrx all xid answer).1
      (liveOf (tidesdbPrepare e trx inTrx all xid answer).2.1) kinds ∧
      (kinds = [] ∨ Discards kinds ∧ isReal inTrx all = true ∧ ∃ x ∈ trx, x.dirty = true) := by
  rcases attached_cases trx with idle | ⟨x, t, rfl, attached⟩
  · rw [tidesdbPrepare_idle idle]
    exact ⟨[], Touches.idle e _, .inl rfl⟩
  rw [liveOf_attached attached]
  simp only [tidesdbPrepare, attached]
  split
  · exact ⟨[], by rw [liveOf_attached attached]; exact Touches.idle e _, .inl rfl⟩
  rename_i real
  split
  · exact ⟨[], by rw [liveOf_attached attached]; exact Touches.idle e _, .inl rfl⟩
  rename_i dirty
  have due : isReal inTrx all = true ∧ ∃ y ∈ some x, y.dirty = true :=
    ⟨by simpa using real, x, rfl, by simpa using dirty⟩
  split
  · exact ⟨[.rollback], rollback_touches e t, .inr ⟨⟨_, rfl, rfl⟩, due⟩⟩
  · rcases txnPrepare_cases e t answer with ⟨ws, active, voted⟩ | ⟨rc, t', failed, left, refused⟩
    · refine ⟨[], ?_, .inl rfl⟩
      simp only [voted, ne_eq, not_true_eq_false, if_false]
      refine ⟨by simp [landed], le_rfl, fun s mem => .inl ⟨t, rfl, ?_, fun _ => ?_⟩⟩
      · rw [← mem_some_iff.mp mem]
      · exact ⟨active_unfinished active, fun _ => by simp⟩
    · simp only [refused, ne_eq, failed, not_false_eq_true, if_true]
      exact ⟨[.rollback], refused_rollbackFree_touches e left, .inr ⟨⟨_, rfl, rfl⟩, due⟩⟩

theorem tidesdbCommit_touches (e : Engine W) (trx : Option (Trx W)) (inTrx all : Bool) (answer : WriteRc) :
    ∃ kinds, Touches e (liveOf trx) (tidesdbCommit e trx inTrx all answer).1
      (liveOf (tidesdbCommit e trx inTrx all answer).2.1) kinds ∧
      (kinds = [] ∨ isReal inTrx all = true ∧ ∃ ok, kinds = [.commitHook, .commitPrepared ok]) := by
  rcases attached_cases trx with idle | ⟨x, t, rfl, attached⟩
  · rw [tidesdbCommit_idle idle]
    exact ⟨[], Touches.idle e _, .inl rfl⟩
  rw [liveOf_attached attached]
  simp only [tidesdbCommit, attached]
  split
  · exact ⟨[], by rw [liveOf_attached attached]; exact Touches.idle e _, .inl rfl⟩
  rename_i real
  have real : isReal inTrx all = true := by simpa using real
  cases phase : t.phase with
  | committed => exact ⟨[], Touches.hook e (.inl phase) _, .inl rfl⟩
  | aborted => exact ⟨[], Touches.hook e (.inr phase) _, .inl rfl⟩
  | prepared ws =>
    refine ⟨[.commitHook, .commitPrepared (answer.rc = .success)], ?_, .inr ⟨real, _, rfl⟩⟩
    have landing := note_note_calls e t .commitHook (.commitPrepared (answer.rc = .success))
    simp only [txnCommitPrepared, phase]
    by_cases accepted : answer.rc = .success
    · simp only [accepted, if_true, ne_eq, not_true_eq_false, if_false]
      refine Touches.finished ?_ (by simp) rfl (.inl rfl)
      simpa [accepted] using landing
    · simp only [accepted, if_false, ne_eq, not_false_eq_true, if_true]
      exact Touches.stays (by simpa [accepted] using landing) (by simp) (by simp)
  | active ws =>
    have unprepared := active_unprepared phase
    have unnoted : e.note t .commitHook = e := by simp [note, phase]
    refine ⟨[], ?_, .inl rfl⟩
    simp only [unnoted]
    split
    · rcases txnCommit_cases e t answer with ⟨ws', active, -, done⟩ | ⟨rc, t', failed, left, refused⟩
      · simp only [done, ne_eq, not_true_eq_false, if_false]
        exact Touches.finished (by simp [landed]) rfl rfl (.inl rfl)
      · simp only [refused, ne_eq, failed, not_false_eq_true, if_true]
        exact (refused_rollbackFree_touches e left).of_open unprepared
    · exact (rollback_touches e t).of_open unprepared

theorem tidesdbRollback_touches (e : Engine W) (trx : Option (Trx W)) (rc : Rc) :
    ∃ kinds, Touches e (liveOf trx) (tidesdbRollback e trx rc).1 (liveOf (tidesdbRollback e trx rc).2.1) kinds ∧
      (kinds = [] ∨ ∃ ok, kinds = [.rollbackHook, .rollbackPrepared ok]) := by
  rcases attached_cases trx with idle | ⟨x, t, rfl, attached⟩
  · rw [tidesdbRollback_idle idle]
    exact ⟨[], Touches.idle e _, .inl rfl⟩
  rw [liveOf_attached attached]
  simp only [tidesdbRollback, attached]
  cases phase : t.phase with
  | committed => exact ⟨[], Touches.hook e (.inl phase) _, .inl rfl⟩
  | aborted => exact ⟨[], Touches.hook e (.inr phase) _, .inl rfl⟩
  | active ws =>
    have unprepared := active_unprepared phase
    have unnoted : e.note t .rollbackHook = e := by simp [note, phase]
    refine ⟨[], ?_, .inl rfl⟩
    simp only [unnoted]
    exact (rollback_touches e t).of_open unprepared
  | prepared ws =>
    refine ⟨[.rollbackHook, .rollbackPrepared (rc = .success)], ?_, .inr ⟨_, rfl⟩⟩
    have landing := note_note_calls e t .rollbackHook (.rollbackPrepared (rc = .success))
    simp only [txnRollbackPrepared, phase]
    by_cases accepted : rc = .success
    · simp only [accepted, if_true]
      exact Touches.finished (by simpa [accepted] using landing) (by simp) rfl (.inr rfl)
    · simp only [accepted, if_false]
      exact Touches.stays (by simpa [accepted] using landing) (by simp) (by simp)

theorem tidesdbCloseConnection_touches (e : Engine W) (trx : Option (Trx W)) :
    ∃ kinds, Touches e (liveOf trx) (tidesdbCloseConnection e trx) none kinds ∧ (kinds = [] ∨ Discards kinds) := by
  cases trx with
  | none => exact ⟨[], Touches.idle e none, .inl rfl⟩
  | some x =>
    cases attached : x.txn with
    | none =>
      rw [liveOf_detached attached]
      simp only [tidesdbCloseConnection, attached]
      exact ⟨[], Touches.idle e none, .inl rfl⟩
    | some t =>
      rw [liveOf_attached attached]
      simp only [tidesdbCloseConnection, attached]
      exact ⟨[.rollback], rollbackFree_touches e t, .inr ⟨_, rfl, rfl⟩⟩

theorem discardTxn_touches (generations : Nat) (e : Engine W) (trx : Option (Trx W)) :
    ∃ kinds, Touches e (liveOf trx) (discardTxn generations e trx).1
      (liveOf (discardTxn generations e trx).2) kinds ∧ (kinds = [] ∨ Discards kinds) := by
  rcases attached_cases trx with idle | ⟨x, t, rfl, attached⟩
  · rw [discardTxn_idle idle]
    exact ⟨[], Touches.idle e _, .inl rfl⟩
  rw [liveOf_attached attached]
  simp only [discardTxn, attached]
  exact ⟨[.rollback], rollbackFree_touches e t, .inr ⟨_, rfl, rfl⟩⟩

theorem flush_touches (e : Engine W) (trx : Option (Trx W)) (answer : WriteRc) :
    ∃ kinds, Touches e (liveOf trx) (flushEngineTxnBeforeCfMutation e trx answer).1
      (liveOf (flushEngineTxnBeforeCfMutation e trx answer).2) kinds ∧ (kinds = [] ∨ Discards kinds) := by
  rcases attached_cases trx with idle | ⟨x, t, rfl, attached⟩
  · rw [flush_idle idle]
    exact ⟨[], Touches.idle e _, .inl rfl⟩
  rw [liveOf_attached attached]
  simp only [flushEngineTxnBeforeCfMutation, attached]
  by_cases dirty : x.dirty = true
  · simp only [dirty, if_true]
    rcases txnCommit_cases e t answer with ⟨ws, active, -, done⟩ | ⟨rc, t', failed, left, refused⟩
    · refine ⟨[], ?_, .inl rfl⟩
      simp only [done, ne_eq, not_true_eq_false, if_false]
      exact Touches.gone (by simp [txnFree, note, landed]) rfl
    · simp only [refused, ne_eq, failed, not_false_eq_true, if_true]
      exact ⟨[.rollback], refused_rollbackFree_touches e left, .inr ⟨_, rfl, rfl⟩⟩
  · simp only [dirty]
    exact ⟨[.rollback], rollbackFree_touches e t, .inr ⟨_, rfl, rfl⟩⟩

/- Row calls. -/

theorem throughStmtTxn_touches (c : Conn W) (h : Nat) {puts : EngineTxn W → EngineTxn W × List W × Rc}
    (extending : ∀ t, Extends t (puts t).1 (puts t).2.1) :
    Touches c.engine (liveOf c.trx) (c.throughStmtTxn h puts).1.engine (liveOf (c.throughStmtTxn h puts).1.trx) [] := by
  rcases throughStmtTxn_cases c h puts with same | ⟨x, t, held, attached, done⟩
  · rw [same]
    exact Touches.idle _ _
  rw [done, held, liveOf_attached attached]
  refine ⟨by simp [landed], le_rfl, fun s mem => .inl ⟨t, rfl, ?_, fun open_ => ?_⟩⟩
  · rw [← mem_some_iff.mp mem]
    rcases extending t with ⟨same, -⟩ | ⟨buffer, -, longer⟩
    · rw [same]
    · rw [longer]
  · refine ⟨fun finished => open_ ?_, by simp⟩
    rw [← mem_some_iff.mp mem, (extending t).finished finished]
    exact finished

theorem maybeBulkCommit_touches (c : Conn W) (h : Nat) (call : RowCall W) :
    Touches c.engine (liveOf c.trx) (c.maybeBulkCommit h call).1.engine
      (liveOf (c.maybeBulkCommit h call).1.trx) [] := by
  rcases maybeBulkCommit_cases c h call with same | ⟨x, t, held, attached, outcome⟩
  · rw [same]
    exact Touches.idle _ _
  rw [held, liveOf_attached attached]
  have quiet : c.engine.calls = c.engine.calls ++ landed t [] := by simp [landed]
  rcases outcome with
    ⟨rc, t', -, rfl | rfl, refused⟩ | ⟨ws, -, ⟨-, -, lost⟩ | ⟨t', handlers, batch, -, renewed⟩⟩
  · rw [refused]
    exact Touches.idle _ _
  · rw [refused]
    exact Touches.finished quiet rfl rfl (.inr rfl)
  · rw [lost]
    exact Touches.gone quiet rfl
  · rw [renewed]
    exact Touches.begun quiet rfl batch

theorem bulkTail_touches (c : Conn W) (h : Nat) (call : RowCall W) :
    Touches c.engine (liveOf c.trx) (c.bulkTail h call).1.engine (liveOf (c.bulkTail h call).1.trx) [] := by
  rcases bulkTail_cases c h call with ⟨handlers, same⟩ | ⟨before, handlers, flushed⟩
  · rw [same]
    exact Touches.idle _ _
  · rw [flushed]
    exact maybeBulkCommit_touches { c with handlers := before } h call

theorem markDirty_live (c : Conn W) (h : Nat) : liveOf (c.markDirty h).trx = liveOf c.trx := by
  unfold markDirty
  split
  · cases c.trx <;> rfl
  · rfl

@[simp] theorem markDirty_recovery (c : Conn W) (h : Nat) : (c.markDirty h).recovery = c.recovery := by
  unfold markDirty
  split <;> rfl

@[simp] theorem throughStmtTxn_recovery (c : Conn W) (h : Nat) (puts : EngineTxn W → EngineTxn W × List W × Rc) :
    (c.throughStmtTxn h puts).1.recovery = c.recovery := by
  rcases throughStmtTxn_cases c h puts with same | ⟨x, t, -, -, done⟩
  · rw [same]
  · rw [done]

theorem maybeBulkCommit_recovery (c : Conn W) (h : Nat) (call : RowCall W) :
    (c.maybeBulkCommit h call).1.recovery = c.recovery := by
  rcases maybeBulkCommit_cases c h call with
    same | ⟨x, t, -, -, ⟨rc, t', -, -, refused⟩ | ⟨ws, -, ⟨-, -, lost⟩ | ⟨t', handlers, -, -, renewed⟩⟩⟩
  · rw [same]
  · rw [refused]
  · rw [lost]
  · rw [renewed]

@[simp] theorem bulkTail_recovery (c : Conn W) (h : Nat) (call : RowCall W) :
    (c.bulkTail h call).1.recovery = c.recovery := by
  rcases bulkTail_cases c h call with ⟨handlers, same⟩ | ⟨before, handlers, flushed⟩
  · rw [same]
  · rw [flushed]
    exact maybeBulkCommit_recovery { c with handlers := before } h call

/- Recovered transactions. -/

theorem harmless_commit {ok : Bool} (undecided : ⟨batch, .rollbackHook⟩ ∉ calls)
    (open_ : ⟨batch, .commitPrepared true⟩ ∉ calls) : Harmless calls batch [.commitHook, .commitPrepared ok] := by
  refine ⟨by simp [overturns], fun k mem d earlier same => ?_⟩
  have noRollback : d.kind ≠ .rollbackHook := by
    intro hook
    exact undecided (by rw [← same, ← hook]; exact earlier)
  have noCommit : d.kind ≠ .commitPrepared true := by
    intro hook
    exact open_ (by rw [← same, ← hook]; exact earlier)
  simp only [mem_cons, not_mem_nil, or_false] at mem
  rcases mem with rfl | rfl
  · cases d.kind <;> simp [overturns]
  · cases kind : d.kind with
    | commitPrepared done => cases done <;> cases ok <;> simp_all [overturns]
    | _ => cases ok <;> simp_all [overturns]

theorem harmless_rollback {ok : Bool} (undecided : ⟨batch, .commitHook⟩ ∉ calls) :
    Harmless calls batch [.rollbackHook, .rollbackPrepared ok] := by
  refine ⟨by simp [overturns], fun k mem d earlier same => ?_⟩
  have noCommit : d.kind ≠ .commitHook := by
    intro hook
    exact undecided (by rw [← same, ← hook]; exact earlier)
  simp only [mem_cons, not_mem_nil, or_false] at mem
  rcases mem with rfl | rfl
  · cases d.kind <;> simp [overturns]
  · cases kind : d.kind <;> simp_all [overturns]

theorem TwoPhase.resolved {live : Option (EngineTxn W)} {items items' : List (InDoubt (EngineTxn W))}
    (inv : TwoPhase e live items) (here : d ∈ items) (calls : e'.calls = e.calls ++ landed d.txn kinds)
    (names : e'.nextId = e.nextId) (harmless : d.txn.isPrepared = true → Harmless e.calls d.txn.batch kinds)
    (rest : items'.Sublist items) (erased : .commitPrepared true ∈ kinds → d.txn.isPrepared = true →
      ∀ o ∈ items', o.txn.batch ≠ d.txn.batch) : TwoPhase e' live items' := by
  refine ⟨?_, ?_, ?_, ?_, ?_, ?_, inv.itemsApart.sublist rest, ?_⟩
  · rw [calls]
    exact kept_landed inv.kept harmless
  · intro c mem
    rw [calls, mem_append] at mem
    rw [names]
    rcases mem with old | new
    · exact inv.named c old
    · rw [(landed_mem new).2.1]
      exact inv.itemNamed d here
  · rw [names]
    exact inv.liveNamed
  · intro t mem open_ committed
    rw [calls, mem_append] at committed
    rcases committed with old | new
    · exact inv.liveOpen t mem open_ old
    · exact inv.liveApart t mem d here (landed_mem new).2.1
  · intro o mem
    rw [names]
    exact inv.itemNamed o (rest.subset mem)
  · intro o mem committed
    rw [calls, mem_append] at committed
    rcases committed with old | new
    · exact inv.itemOpen o (rest.subset mem) old
    · obtain ⟨prepared, batch, inside⟩ := landed_mem new
      exact erased inside prepared o mem batch
  · intro t mem o inside
    exact inv.liveApart t mem o (rest.subset inside)

theorem erased_apart (apart : items.Pairwise fun a b => a.txn.batch ≠ b.txn.batch) (i : Fin items.length) :
    ∀ o ∈ items.eraseIdx i, o.txn.batch ≠ (items.get i).txn.batch := by
  have whole := (getElem_cons_eraseIdx_perm i.isLt).pairwise_iff
    (R := fun a b : InDoubt (EngineTxn W) => a.txn.batch ≠ b.txn.batch) (fun differ => differ.symm)
  have heads := (pairwise_cons.mp (whole.mpr apart)).1
  intro o mem
  exact (heads o mem).symm

theorem resolveIndoubt_cases (c : Conn W) (xid : Option Xid) (hook : CallKind)
    (fn : Engine W → EngineTxn W → Engine W × EngineTxn W × Rc) :
    (c.resolveIndoubt xid hook fn).1 = c ∨ ∃ i, findIndoubt c.recovery xid = some i ∧
      (c.resolveIndoubt xid hook fn).1 = { c with
        engine := (fn (c.engine.note (c.recovery.items.get i).txn hook) (c.recovery.items.get i).txn).1
        recovery := if (fn c.engine (c.recovery.items.get i).txn).2.2 = .success
          then c.recovery.eraseAt i else c.recovery } := by
  cases located : findIndoubt c.recovery xid with
  | none =>
    left
    simp only [resolveIndoubt, resolveByXid_missing _ located]
  | some i =>
    refine .inr ⟨i, rfl, ?_⟩
    by_cases accepted : (fn c.engine (c.recovery.items.get i).txn).2.2 = .success
    · have resolved : tidesdbResolveByXid c.recovery xid (fun t => (fn c.engine t).2.2) = _ :=
        resolveByXid_accepted located accepted
      simp only [resolveIndoubt, if_pos accepted, resolved]
    · have resolved : tidesdbResolveByXid c.recovery xid (fun t => (fn c.engine t).2.2) = _ :=
        resolveByXid_refused located accepted
      simp only [resolveIndoubt, if_neg accepted, resolved]

theorem txnCommitPrepared_calls (e : Engine W) (t : EngineTxn W) (rc : Rc) :
    ((e.note t .commitHook).txnCommitPrepared t rc).1.calls =
      e.calls ++ landed t [.commitHook, .commitPrepared (rc = .success)] ∧
    ((e.note t .commitHook).txnCommitPrepared t rc).1.nextId = e.nextId := by
  cases phase : t.phase with
  | prepared ws =>
    have landing := note_note_calls e t .commitHook (.commitPrepared (rc = .success))
    simp only [txnCommitPrepared, phase]
    split <;> simp [landing]
  | _ => simp [txnCommitPrepared, phase, note, landed, isPrepared]

theorem txnRollbackPrepared_calls (e : Engine W) (t : EngineTxn W) (rc : Rc) :
    ((e.note t .rollbackHook).txnRollbackPrepared t rc).1.calls =
      e.calls ++ landed t [.rollbackHook, .rollbackPrepared (rc = .success)] ∧
    ((e.note t .rollbackHook).txnRollbackPrepared t rc).1.nextId = e.nextId := by
  cases phase : t.phase with
  | prepared ws =>
    have landing := note_note_calls e t .rollbackHook (.rollbackPrepared (rc = .success))
    simp only [txnRollbackPrepared, phase]
    split <;> simp [landing]
  | _ => simp [txnRollbackPrepared, phase, note, landed, isPrepared]

/- Which steps respect the decision taken. -/

def Unmarked (c : Conn W) (t : EngineTxn W) (hook : CallKind) : Prop :=
  t.isPrepared = true → ⟨t.batch, hook⟩ ∉ c.engine.calls
  deriving Decidable

def LiveUnmarked (c : Conn W) (hook : CallKind) : Prop := ∀ t ∈ liveOf c.trx, Unmarked c t hook
  deriving Decidable

def FoundUnmarked (c : Conn W) (xid : Option Xid) (hook : CallKind) : Prop :=
  ∀ i ∈ findIndoubt c.recovery xid, Unmarked c (c.recovery.items.get i).txn hook
  deriving Decidable

/-- After the commit hook nothing that could discard a prepared batch is called; after the rollback
hook, no final commit. -/
def RespectsDecision (c : Conn W) : Event W → Prop
  | .startConsistentSnapshot _ _ | .externalLock _ _ _ =>
    (∃ x ∈ c.trx, x.needsReset = true) → LiveUnmarked c .commitHook
  | .row h _ => (c.handlers h).stmtTxn = none →
    (∃ x ∈ c.trx, x.needsReset = true) → LiveUnmarked c .commitHook
  | .prepare all _ _ => isReal c.inTrx all = true →
    (∃ x ∈ c.trx, x.dirty = true) → LiveUnmarked c .commitHook
  | .commit all _ => isReal c.inTrx all = true → LiveUnmarked c .rollbackHook
  | .rollback _ _ | .closeConnection | .deleteAllRows _ _ | .backupDir (.attempted _ _)
  | .flushBeforeCfMutation _ => LiveUnmarked c .commitHook
  | .commitByXid xid _ => FoundUnmarked c xid .rollbackHook
  | .rollbackByXid xid _ => FoundUnmarked c xid .commitHook
  | _ => True

instance (c : Conn W) (e : Event W) : Decidable (RespectsDecision c e) := by
  apply Event.casesOn (motive := fun e => Decidable (RespectsDecision c e)) e
  case backupDir =>
    intro check
    cases check <;> dsimp only [RespectsDecision] <;> exact inferInstance
  all_goals intros; dsimp only [RespectsDecision]; exact inferInstance

def Conn.TwoPhase (c : Conn W) : Prop := TidesdbMysql.TwoPhase c.engine (liveOf c.trx) c.recovery.items

theorem TwoPhase.discarded {due : Prop} (inv : c.TwoPhase)
    (touching : ∃ kinds, Touches c.engine (liveOf c.trx) e' live' kinds ∧ (kinds = [] ∨ Discards kinds ∧ due))
    (respects : due → LiveUnmarked c .commitHook) : TidesdbMysql.TwoPhase e' live' c.recovery.items := by
  obtain ⟨kinds, touches, quiet | ⟨discards, required⟩⟩ := touching
  · exact inv.touched touches fun t _ _ => quiet ▸ harmless_nil _ _
  · exact inv.touched touches fun t here prepared =>
      harmless_discard discards (respects required t here prepared)

theorem TwoPhase.freed (inv : c.TwoPhase)
    (touching : ∃ kinds, Touches c.engine (liveOf c.trx) e' live' kinds ∧ (kinds = [] ∨ Discards kinds))
    (respects : LiveUnmarked c .commitHook) : TidesdbMysql.TwoPhase e' live' c.recovery.items := by
  obtain ⟨kinds, touches, shape⟩ := touching
  exact TwoPhase.discarded inv ⟨kinds, touches, shape.imp_right fun h => ⟨h, trivial⟩⟩ fun _ => respects

theorem rowOp_twoPhase (c : Conn W) (h : Nat) (call : RowCall W) (inv : c.TwoPhase)
    (respects : RespectsDecision c (.row h call)) : (c.rowOp h call).1.TwoPhase := by
  have ensured : (c.ensureStmtTxn h call.iso call.trxRcs).1.TwoPhase := by
    unfold ensureStmtTxn
    dsimp only
    split
    · exact inv
    · rename_i unset
      have got := TwoPhase.discarded inv (getOrCreateTrx_touches c.engine c.trx call.iso call.trxRcs)
        (respects (by simpa using unset))
      split <;> exact got
  have marked : ((c.ensureStmtTxn h call.iso call.trxRcs).1.markDirty h).TwoPhase := by
    unfold Conn.TwoPhase
    rw [markDirty_engine, markDirty_live, markDirty_recovery]
    exact ensured
  have put : (((c.ensureStmtTxn h call.iso call.trxRcs).1.markDirty h).throughStmtTxn h
      (putAll · call.calls)).1.TwoPhase := by
    unfold Conn.TwoPhase
    rw [throughStmtTxn_recovery]
    exact marked.touched (throughStmtTxn_touches _ h fun t => putAll_extends t call.calls) fun t _ _ => harmless_nil _ _
  unfold rowOp
  split
  · exact inv
  dsimp only
  split
  · exact ensured
  split
  · exact marked
  split
  · exact put
  · unfold Conn.TwoPhase
    rw [bulkTail_recovery]
    exact put.touched (bulkTail_touches _ h call) fun t _ _ => harmless_nil _ _

theorem resolve_twoPhase (c : Conn W) (xid : Option Xid) {hook : CallKind}
    (fn : Engine W → EngineTxn W → Engine W × EngineTxn W × Rc)
    (lands : ∀ t, (fn (c.engine.note t hook) t).1.calls = c.engine.calls ++ landed t kinds ∧ (fn (c.engine.note t hook) t).1.nextId = c.engine.nextId)
    (gone : ∀ t, .commitPrepared true ∈ kinds → t.isPrepared = true → (fn c.engine t).2.2 = .success) (inv : c.TwoPhase)
    (harmless : ∀ i ∈ findIndoubt c.recovery xid, (c.recovery.items.get i).txn.isPrepared = true → Harmless c.engine.calls (c.recovery.items.get i).txn.batch kinds) :
    (c.resolveIndoubt xid hook fn).1.TwoPhase := by
  rcases resolveIndoubt_cases c xid hook fn with same | ⟨i, located, changed⟩
  · rw [same]
    exact inv
  · rw [changed]
    obtain ⟨calls, names⟩ := lands (c.recovery.items.get i).txn
    refine inv.resolved (get_mem _ i) calls names (harmless i located) ?_ ?_
    · split
      · exact c.recovery.eraseAt_sublist i
      · exact List.Sublist.refl _
    · intro committed prepared
      rw [if_pos (gone _ committed prepared)]
      exact erased_apart inv.itemsApart i

theorem step_twoPhase (c : Conn W) (e : Event W) (inv : c.TwoPhase) (respects : RespectsDecision c e) :
    (c.step e).1.TwoPhase := by
  cases e with
  | startConsistentSnapshot iso rcs =>
    have got := TwoPhase.discarded inv (getOrCreateTrx_touches c.engine c.trx iso rcs) respects
    exact got
  | externalLock h iso rcs =>
    have got := TwoPhase.discarded inv (getOrCreateTrx_touches c.engine c.trx iso rcs) respects
    simp only [step, externalLock]
    split <;> exact got
  | endBulkInsert h metaCalls =>
    simp only [step, endBulkInsert]
    split
    · unfold Conn.TwoPhase
      rw [throughStmtTxn_recovery]
      exact TwoPhase.touched inv (throughStmtTxn_touches (c.setHandler h _) h fun t => putEach_extends t metaCalls)
        fun t _ _ => harmless_nil _ _
    · exact inv
  | row h call => exact rowOp_twoPhase c h call inv respects
  | rowLockAcquire key =>
    have live : liveOf (c.step (.rowLockAcquire key)).1.trx = liveOf c.trx := by
      simp only [step]
      cases c.trx <;> rfl
    unfold Conn.TwoPhase
    rw [live]
    exact inv
  | prepare all xid answer =>
    have voted := TwoPhase.discarded inv (tidesdbPrepare_touches c.engine c.trx c.inTrx all xid answer)
      fun due => respects due.1 due.2
    exact voted
  | commit all answer =>
    obtain ⟨kinds, touches, rfl | ⟨real, ok, rfl⟩⟩ :=
      tidesdbCommit_touches c.engine c.trx c.inTrx all answer
    · exact inv.touched touches fun t _ _ => harmless_nil _ _
    · refine inv.touched touches fun t here prepared => ?_
      have unfinished : ¬ t.Finished := fun finished => by
        simp [finished_unprepared finished] at prepared
      exact harmless_commit (respects real t here prepared) (inv.liveOpen t here unfinished)
  | rollback all rc =>
    obtain ⟨kinds, touches, rfl | ⟨ok, rfl⟩⟩ := tidesdbRollback_touches c.engine c.trx rc
    · exact inv.touched touches fun t _ _ => harmless_nil _ _
    · exact inv.touched touches fun t here prepared => harmless_rollback (respects t here prepared)
  | closeConnection =>
    have closed := TwoPhase.freed inv (tidesdbCloseConnection_touches c.engine c.trx) respects
    exact closed
  | deleteAllRows h result =>
    have discarded := TwoPhase.freed inv (discardTxn_touches 0 c.engine c.trx) respects
    exact discarded
  | backupDir check =>
    cases check with
    | cleared | rejected => exact inv
    | attempted destinationEmpty rc =>
      have discarded := TwoPhase.freed inv (discardTxn_touches 1 c.engine c.trx) respects
      exact discarded
  | flushBeforeCfMutation answer =>
    have flushed := TwoPhase.freed inv (flush_touches c.engine c.trx answer) respects
    exact flushed
  | commitByXid xid rc =>
    refine resolve_twoPhase c xid (fun e t => e.txnCommitPrepared t rc)
      (fun t => txnCommitPrepared_calls c.engine t rc) ?_ inv
      fun i located prepared => harmless_commit (respects i located prepared) (inv.itemOpen _ (get_mem _ i))
    intro t committed prepared
    cases phase : t.phase <;>
      simp_all [txnCommitPrepared, isPrepared]
  | rollbackByXid xid rc =>
    refine resolve_twoPhase c xid (fun e t => e.txnRollbackPrepared t rc)
      (fun t => txnRollbackPrepared_calls c.engine t rc) ?_ inv
      fun i located prepared => harmless_rollback (respects i located prepared)
    intro t committed
    simp at committed
  | _ => exact inv

def recoveredTxns (listed : List (Bytes × List W)) : List (PreparedTxn (EngineTxn W)) :=
  listed.zipIdx.map fun p => ⟨some ⟨p.2, p.2, .snapshot, .prepared p.1.2⟩, some p.1.1⟩

def Conn.afterRecovery (committed : List W) (listed : List (Bytes × List W)) (handlers : Nat → Handler) : Conn W :=
  Conn.opened committed listed.length handlers (tidesdbCollectPrepared (recoveredTxns listed))

theorem recovered_entry {p : (Bytes × List W) × Nat}
    (entry : PreparedTxn.entry ⟨some ⟨p.2, p.2, .snapshot, .prepared p.1.2⟩, some p.1.1⟩ = some d) :
    d.txn.batch = p.2 := by
  simp only [PreparedTxn.entry, ite_none_left_eq_some, some.injEq] at entry
  rw [← entry.2]

theorem afterRecovery_twoPhase (committed : List W) (listed : List (Bytes × List W))
    (handlers : Nat → Handler) : (Conn.afterRecovery committed listed handlers).TwoPhase := by
  have distinct : listed.zipIdx.Pairwise fun p q => p.2 ≠ q.2 := by
    have nodup : (range' 0 listed.length).Nodup := nodup_range'
    rw [← zipIdx_map_snd] at nodup
    exact pairwise_map.mp nodup
  refine ⟨List.Pairwise.nil, by simp [afterRecovery, opened], by
    simp [afterRecovery, opened, liveOf], by simp [afterRecovery, opened, liveOf],
    ?_, by simp [afterRecovery, opened], ?_, by
    simp [afterRecovery, opened, liveOf]⟩
  · intro d mem
    obtain ⟨found, listedThere, entry⟩ := mem_filterMap.mp mem
    obtain ⟨p, inside, rfl⟩ := mem_map.mp listedThere
    rw [recovered_entry entry]
    have bound : p.2 < listed.length := by simpa using snd_lt_of_mem_zipIdx inside
    exact bound
  · refine pairwise_filterMap.mpr (pairwise_map.mpr (distinct.imp ?_))
    intro p q differ d first d' second
    rw [recovered_entry first, recovered_entry second]
    exact differ

/-- In a run whose steps respect every decision taken, none is reversed or lost. -/
theorem decisions_kept_of_respected (committed : List W) (listed : List (Bytes × List W))
    (handlers : Nat → Handler) (es : List (Event W))
    (respected : Along Conn.step RespectsDecision (Conn.afterRecovery committed listed handlers) es) :
    DecisionsKept (run Conn.step (Conn.afterRecovery committed listed handlers) es).engine.calls := by
  have inv := run_invariant step Conn.TwoPhase step_twoPhase
    (afterRecovery_twoPhase committed listed handlers) respected
  exact inv.kept

def serverXid : Xid := ⟨1, 1, 0, 7 :: List.replicate 127 0, by decide, by simp [tdbXidDataSize]⟩

/- BEGIN, one insert, and a two-phase COMMIT whose second phase the engine refuses. -/
def refusedCommit : List (Event Nat) :=
  .options true :: insertStmt 5 ++
    [.prepare true serverXid ⟨.success, false⟩, .commit true ⟨.io, false⟩]

def retriedCommit : List (Event Nat) := refusedCommit ++ [.commit true ⟨.success, false⟩]

def emptyStart : Conn Nat := Conn.afterRecovery [] [] fun _ => Handler.opened 0

theorem decisions_kept_of_respected_retry : DecisionsKept (run Conn.step emptyStart retriedCommit).engine.calls :=
  decisions_kept_of_respected [] [] (fun _ => Handler.opened 0) retriedCommit (by decide +kernel)

/-- After the refused commit a rollback, the connection's end and the prepare of a second COMMIT
each discard the batch. -/
theorem decided_commit_reversed : let c := run step emptyStart refusedCommit
    c.engine.calls = [⟨0, .commitHook⟩, ⟨0, .commitPrepared false⟩] ∧ c.pending = [5] ∧
    (c.step (.rollback true .success)).1.engine.calls =
      c.engine.calls ++ [⟨0, .rollbackHook⟩, ⟨0, .rollbackPrepared true⟩] ∧
    ¬ DecisionsKept (c.step (.rollback true .success)).1.engine.calls ∧
    ¬ DecisionsKept (c.step .closeConnection).1.engine.calls ∧
    ¬ DecisionsKept (c.step (.prepare true serverXid ⟨.success, false⟩)).1.engine.calls := by
  unfold DecisionsKept
  decide +kernel

end TidesdbMysql
