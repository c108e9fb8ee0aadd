import TidesdbMysql.Txn.Session

/-! What every call does to the two lists that matter to a user: the committed
writes, and the writes the connection's transaction still holds. -/
namespace TidesdbMysql
open Base Option Engine EngineTxn

variable {W : Type}

def pendingOf (trx : Option (Trx W)) : List W := ((trx.bind Trx.txn).map EngineTxn.buffer).getD []

def Conn.pending (c : Conn W) : List W := pendingOf c.trx

variable {x : Trx W} {t : EngineTxn W} {ws : List W} {trx : Option (Trx W)}

theorem pendingOf_attached (attached : x.txn = some t) : pendingOf (some x) = t.buffer := by
  simp [pendingOf, attached]

theorem pendingOf_detached (detached : x.txn = none) : pendingOf (some x) = [] := by
  simp [pendingOf, detached]

/- Engine calls. -/

@[simp] theorem note_committed (e : Engine W) (t : EngineTxn W) (kind : CallKind) :
    (e.note t kind).committed = e.committed := by
  unfold note
  split <;> rfl

@[simp] theorem note_nextId (e : Engine W) (t : EngineTxn W) (kind : CallKind) : (e.note t kind).nextId = e.nextId := by
  unfold note
  split <;> rfl

@[simp] theorem txnFree_committed (e : Engine W) (t : EngineTxn W) :
    (e.txnFree t).committed = e.committed := note_committed e t .free

@[simp] theorem txnReset_committed (e : Engine W) (t : EngineTxn W) (iso : Isolation) :
    (e.txnReset t iso).1.committed = e.committed := note_committed e t .reset

@[simp] theorem txnBegin_committed (e : Engine W) (iso : Isolation) : (e.txnBegin iso).1.committed = e.committed := rfl

theorem buffer_of_active (active : t.phase = .active ws) : t.buffer = ws := by
  simp [buffer, active]

theorem active_of_held (held : t.buffer ≠ []) (unprepared : t.isPrepared = false) : ∃ ws, t.phase = .active ws := by
  cases phase : t.phase with
  | active ws => exact ⟨ws, rfl⟩
  | prepared ws => simp [isPrepared, phase] at unprepared
  | committed => exact absurd (EngineTxn.Finished.buffer_eq (.inl phase)) held
  | aborted => exact absurd (EngineTxn.Finished.buffer_eq (.inr phase)) held

@[simp] theorem txnRollback_committed (e : Engine W) (t : EngineTxn W) :
    (e.txnRollback t).1.committed = e.committed := by
  unfold txnRollback
  split <;> simp

theorem txnRollback_finished (e : Engine W) (t : EngineTxn W) : (e.txnRollback t).2.Finished := by
  unfold txnRollback EngineTxn.Finished
  cases h : t.phase <;> simp [h]

/- A refusal leaves the transaction as it is, or aborted. -/
def Refused (t t' : EngineTxn W) : Prop := t' = t ∨ t.isPrepared = false ∧ t' = { t with phase := .aborted }

theorem txnCommit_cases (e : Engine W) (t : EngineTxn W) (answer : WriteRc) :
    (∃ ws, t.phase = .active ws ∧ answer.rc = .success ∧ e.txnCommit t answer =
      ({ e with committed := e.committed ++ ws }, { t with phase := .committed }, .success)) ∨
    ∃ rc t', rc ≠ .success ∧ Refused t t' ∧ e.txnCommit t answer = (e, t', rc) := by
  unfold txnCommit Refused isPrepared
  cases t.phase with
  | active ws =>
    by_cases accepted : answer.rc = .success
    · exact .inl ⟨ws, rfl, accepted, by simp [accepted]⟩
    · cases answer.aborts <;> simp [accepted]
  | _ => simp

theorem txnPrepare_cases (e : Engine W) (t : EngineTxn W) (answer : WriteRc) :
    (∃ ws, t.phase = .active ws ∧ e.txnPrepare t answer = (e, { t with phase := votedPhase ws }, .success)) ∨
    ∃ rc t', rc ≠ .success ∧ Refused t t' ∧ e.txnPrepare t answer = (e, t', rc) := by
  unfold txnPrepare Refused isPrepared
  cases t.phase with
  | active ws =>
    by_cases accepted : answer.rc = .success
    · exact .inl ⟨ws, rfl, by simp [accepted]⟩
    · cases answer.aborts <;> simp [accepted]
  | _ => simp

theorem put_cases (t : EngineTxn W) (w : W) (rc : Rc) : (∃ ws, t.phase = .active ws ∧
      t.put w rc = ({ t with phase := .active (ws ++ [w]) }, .success)) ∨
    (∃ rc', rc' ≠ .success ∧ t.put w rc = (t, rc')) := by
  unfold put
  cases t.phase with
  | active ws =>
    by_cases accepted : rc = .success
    · exact .inl ⟨ws, rfl, by simp [accepted]⟩
    · exact .inr ⟨rc, accepted, by simp [accepted]⟩
  | prepared | committed | aborted => exact .inr ⟨.invalidArgs, by decide, rfl⟩

def Extends (t t' : EngineTxn W) (ws : List W) : Prop :=
  (t' = t ∧ ws = []) ∨ ∃ buffer, t.phase = .active buffer ∧ t' = { t with phase := .active (buffer ++ ws) }

theorem Extends.cons {t t' : EngineTxn W} {buffer ws : List W} {w : W} (active : t.phase = .active buffer)
    (rest : Extends { t with phase := .active (buffer ++ [w]) } t' ws) : Extends t t' (w :: ws) := by
  rcases rest with ⟨rfl, rfl⟩ | ⟨longer, phase, rfl⟩
  · exact .inr ⟨buffer, active, rfl⟩
  · simp only [Phase.active.injEq] at phase
    subst phase
    exact .inr ⟨buffer, active, by simp⟩

theorem putAll_extends (t : EngineTxn W) (calls : List (EngineCall W)) :
    Extends t (putAll t calls).1 (putAll t calls).2.1 := by
  induction calls generalizing t with
  | nil => exact .inl ⟨rfl, rfl⟩
  | cons call rest ih =>
    rcases put_cases t call.write call.rc with ⟨buffer, active, accepted⟩ | ⟨rc, failed, refused⟩
    · simp only [putAll, accepted, if_true]
      exact Extends.cons active (ih _)
    · simp only [putAll, refused, if_neg failed]
      split
      · exact .inl ⟨rfl, rfl⟩
      · exact ih t

theorem putEach_extends (t : EngineTxn W) (calls : List (EngineCall W)) :
    Extends t (putEach t calls).1 (putEach t calls).2.1 := by
  induction calls generalizing t with
  | nil => exact .inl ⟨rfl, rfl⟩
  | cons call rest ih =>
    rcases put_cases t call.write call.rc with ⟨buffer, active, accepted⟩ | ⟨rc, failed, refused⟩
    · simp only [putEach, accepted, if_true]
      exact Extends.cons active (ih _)
    · simp only [putEach, refused, if_neg failed]
      exact ih t

theorem Extends.buffer_eq {t t' : EngineTxn W} (extends_ : Extends t t' ws) : t'.buffer = t.buffer ++ ws := by
  rcases extends_ with ⟨rfl, rfl⟩ | ⟨buffer, active, rfl⟩
  · simp
  · simp [EngineTxn.buffer, active]

theorem Extends.finished {t t' : EngineTxn W} (extends_ : Extends t t' ws) (finished : t.Finished) : t' = t := by
  rcases extends_ with ⟨rfl, -⟩ | ⟨buffer, active, -⟩
  · rfl
  · rcases finished with h | h <;> simp [active] at h

/- The flags of a connection. -/

/-- The flags agree with the transaction: one that is marked for a reset is over,
and one that holds writes is marked dirty. -/
structure Trx.Sound (x : Trx W) : Prop where
  settled : x.needsReset = true → ∀ t ∈ x.txn, t.Finished
  covered : ∀ t ∈ x.txn, t.buffer ≠ [] → x.dirty = true

def SoundTrx (trx : Option (Trx W)) : Prop := ∀ x ∈ trx, x.Sound

theorem soundTrx_some (sound : x.Sound) : SoundTrx (some x) := by
  intro y mem
  exact mem_some_iff.mp mem ▸ sound

theorem soundTrx_none : SoundTrx (none : Option (Trx W)) := by
  intro x mem
  contradiction

theorem sound_of_detached (detached : x.txn = none) : x.Sound := by
  constructor <;> simp [detached]

theorem sound_of_finished (attached : x.txn = some t) (finished : t.Finished) : x.Sound := by
  constructor
  · intro _ s mem
    simp only [attached, mem_some_iff] at mem
    exact mem ▸ finished
  · intro s mem held
    simp only [attached, mem_some_iff] at mem
    exact absurd finished.buffer_eq (mem ▸ held)

theorem sound_of_fresh (attached : x.txn = some t)
    (fresh : t.phase = .active []) (unflagged : x.needsReset = false) : x.Sound := by
  constructor
  · simp [unflagged]
  · intro s mem held
    simp only [attached, mem_some_iff] at mem
    exact absurd (buffer_of_active fresh) (mem ▸ held)

theorem finish_sound (x : Trx W) (finished : t.Finished) : (x.finish t).Sound :=
  sound_of_finished rfl finished

theorem finish_pending (x : Trx W) (finished : t.Finished) : pendingOf (some (x.finish t)) = [] := finished.buffer_eq

def NoStaleFlag (trx : Option (Trx W)) : Prop := ∀ x ∈ trx, x.txn.isNone = true → x.needsReset = false
  deriving Decidable

structure SameLists (e : Engine W) (trx : Option (Trx W)) (e' : Engine W) (trx' : Option (Trx W)) :
    Prop where
  committed : e'.committed = e.committed
  pending : pendingOf trx' = pendingOf trx
  sound : SoundTrx trx'

theorem getOrCreateTrx_same (e : Engine W) (iso : Isolation) (rcs : TrxRcs)
    (sound : SoundTrx trx) (clean : NoStaleFlag trx) :
    SameLists e trx (getOrCreateTrx e trx iso rcs).1 (getOrCreateTrx e trx iso rcs).2.1 := by
  cases trx with
  | none =>
    simp only [getOrCreateTrx]
    split
    · split
      · exact ⟨rfl, rfl, soundTrx_none⟩
      · exact ⟨rfl, rfl, soundTrx_some (sound_of_fresh rfl rfl rfl)⟩
    · exact ⟨rfl, rfl, soundTrx_none⟩
  | some x =>
    cases attached : x.txn with
    | none =>
      have clear := clean x rfl (by simp [attached])
      simp only [getOrCreateTrx, attached]
      split
      · exact ⟨rfl, rfl, sound⟩
      · exact ⟨rfl, (pendingOf_detached attached).symm, soundTrx_some (sound_of_fresh rfl rfl clear)⟩
    | some t =>
      simp only [getOrCreateTrx, attached]
      by_cases flagged : x.needsReset = true
      · -- a transaction marked for a reset is over, so it holds no write
        have empty : pendingOf (some x) = [] := by
          rw [pendingOf_attached attached]
          exact ((sound x rfl).settled flagged t attached).buffer_eq
        simp only [flagged, if_true]
        split
        · exact ⟨txnReset_committed e t iso, empty.symm, soundTrx_some (sound_of_fresh rfl rfl rfl)⟩
        · split
          · exact ⟨txnFree_committed e t, empty.symm, soundTrx_some (sound_of_detached rfl)⟩
          · exact ⟨txnFree_committed e t, empty.symm, soundTrx_some (sound_of_fresh rfl rfl rfl)⟩
      · simp only [flagged]
        exact ⟨rfl, rfl, sound⟩

theorem attached_cases (trx : Option (Trx W)) : trx.bind Trx.txn = none ∨ ∃ x t, trx = some x ∧ x.txn = some t := by
  cases trx with
  | none => exact .inl rfl
  | some x =>
    cases attached : x.txn with
    | none => exact .inl attached
    | some t => exact .inr ⟨x, t, rfl, attached⟩

/- Without an engine transaction the hooks, and the places that free it, do nothing. -/

section
variable {e : Engine W} (idle : trx.bind Trx.txn = none)
include idle

theorem pendingOf_idle : pendingOf trx = [] := by
  rw [pendingOf, idle]
  rfl

theorem tidesdbPrepare_idle {inTrx all : Bool} {xid : Xid} {answer : WriteRc} :
    tidesdbPrepare e trx inTrx all xid answer = (e, trx, .ok) := by
  cases trx with
  | none => rfl
  | some x => rw [tidesdbPrepare, show x.txn = none from idle]

theorem tidesdbCommit_idle {inTrx all : Bool} {answer : WriteRc} : tidesdbCommit e trx inTrx all answer = (e, trx, .ok) := by
  cases trx with
  | none => rfl
  | some x => rw [tidesdbCommit, show x.txn = none from idle]

theorem tidesdbRollback_idle {rc : Rc} : tidesdbRollback e trx rc = (e, trx, .ok) := by
  cases trx with
  | none => rfl
  | some x => rw [tidesdbRollback, show x.txn = none from idle]

theorem discardTxn_idle {generations : Nat} : discardTxn generations e trx = (e, trx) := by
  cases trx with
  | none => rfl
  | some x => rw [discardTxn, show x.txn = none from idle]

theorem flush_idle {answer : WriteRc} : flushEngineTxnBeforeCfMutation e trx answer = (e, trx) := by
  cases trx with
  | none => rfl
  | some x => rw [flushEngineTxnBeforeCfMutation, show x.txn = none from idle]

end

theorem tidesdbPrepare_committed (e : Engine W) (trx : Option (Trx W)) (inTrx all : Bool) (xid : Xid)
    (answer : WriteRc) : (tidesdbPrepare e trx inTrx all xid answer).1.committed = e.committed := by
  rcases attached_cases trx with idle | ⟨x, t, rfl, attached⟩
  · rw [tidesdbPrepare_idle idle]
  simp only [tidesdbPrepare, attached]
  split
  · rfl
  split
  · rfl
  split
  · exact txnRollback_committed e t
  · rcases txnPrepare_cases e t answer with ⟨ws, -, voted⟩ | ⟨rc, t', failed, -, refused⟩
    · simp [voted]
    · simp [refused, failed]

theorem votedPhase_buffer (t : EngineTxn W) (ws : List W) :
    ({ t with phase := votedPhase ws } : EngineTxn W).buffer = ws := by
  cases ws <;> rfl

theorem Trx.Sound.unflagged (sound : x.Sound)
    (attached : x.txn = some t) (active : t.phase = .active ws) : x.needsReset = false := by
  by_contra flagged
  rcases sound.settled (by simpa using flagged) t attached with h | h <;> simp [active] at h

theorem tidesdbPrepare_sound (e : Engine W) (inTrx all : Bool) (xid : Xid) (answer : WriteRc) (sound : SoundTrx trx) :
    SoundTrx (tidesdbPrepare e trx inTrx all xid answer).2.1 ∧ ((tidesdbPrepare e trx inTrx all xid answer).2.2 = .ok →
      pendingOf (tidesdbPrepare e trx inTrx all xid answer).2.1 = pendingOf trx) := by
  rcases attached_cases trx with idle | ⟨x, t, rfl, attached⟩
  · rw [tidesdbPrepare_idle idle]
    exact ⟨sound, fun _ => rfl⟩
  simp only [tidesdbPrepare, attached]
  split
  · exact ⟨sound, fun _ => rfl⟩
  split
  · exact ⟨sound, fun _ => rfl⟩
  rename_i dirty
  split
  · exact ⟨soundTrx_some (finish_sound x (txnRollback_finished e t)), fun h => by cases h⟩
  · rcases txnPrepare_cases e t answer with ⟨ws, active, voted⟩ | ⟨rc, t', failed, -, refused⟩
    · have unflagged := (sound x rfl).unflagged attached active
      simp only [voted, ne_eq, not_true_eq_false, if_false]
      refine ⟨soundTrx_some ⟨by simp [unflagged], fun _ _ _ => by simpa using dirty⟩, fun _ => ?_⟩
      rw [pendingOf_attached attached, buffer_of_active active, pendingOf_attached rfl, votedPhase_buffer]
    · simp only [refused, ne_eq, failed, not_false_eq_true, if_true]
      exact ⟨soundTrx_some (sound_of_detached rfl), fun h => absurd ((tdbRcToHa_eq_ok rc).mp h) failed⟩

inductive CommitEnd (e : Engine W) (x : Trx W) (t : EngineTxn W) :
    Engine W × Option (Trx W) × HaCode → Prop where
  | done (e' : Engine W) (t' : EngineTxn W) (finished : t'.Finished)
      (all : e'.committed = e.committed ++ t.buffer) : CommitEnd e x t (e', some (x.finish t'), .ok)
  | inDoubt (e' : Engine W) (code : HaCode) (ws : List W) (prepared : t.phase = .prepared ws)
      (failed : code ≠ .ok) (none : e'.committed = e.committed) : CommitEnd e x t (e', some x, code)
  | lost (e' : Engine W) (code : HaCode) (failed : code ≠ .ok)
      (none : e'.committed = e.committed) : CommitEnd e x t (e', some x.detach, code)

theorem tidesdbCommit_end (e : Engine W) (inTrx all : Bool)
    (answer : WriteRc) (sound : x.Sound) (attached : x.txn = some t) (real : isReal inTrx all = true) :
    CommitEnd e x t (tidesdbCommit e (some x) inTrx all answer) := by
  have same : { x with txn := some t } = x := by rw [← attached]
  simp only [tidesdbCommit, attached, real, Bool.not_true, Bool.false_eq_true, if_false]
  cases phase : t.phase with
  | committed =>
    have finished : t.Finished := .inl phase
    exact .done _ _ finished (by simp [finished.buffer_eq])
  | aborted =>
    have finished : t.Finished := .inr phase
    exact .done _ _ finished (by simp [finished.buffer_eq])
  | prepared ws =>
    by_cases accepted : answer.rc = .success
    · simp only [txnCommitPrepared, phase, accepted, if_true, ne_eq, not_true_eq_false, if_false]
      exact .done _ _ (.inl rfl) (by simp [buffer, phase])
    · simp only [txnCommitPrepared, phase, accepted, if_false, ne_eq, not_false_eq_true, if_true, same]
      exact .inDoubt _ _ ws phase (by simp [accepted]) (by simp)
  | active ws =>
    by_cases dirty : x.dirty = true
    · simp only [dirty, if_true]
      rcases txnCommit_cases (e.note t .commitHook) t answer with
        ⟨ws', active, -, committed⟩ | ⟨rc, t', failed, -, refused⟩
      · simp only [committed, ne_eq, not_true_eq_false, if_false]
        exact .done _ _ (.inl rfl) (by simp [buffer_of_active active])
      · simp only [refused, ne_eq, failed, not_false_eq_true, if_true]
        exact .lost _ _ (by simp [failed]) (by simp)
    · have empty : t.buffer = [] := by
        by_contra held
        exact dirty (sound.covered t attached held)
      simp only [dirty]
      exact .done _ _ (txnRollback_finished _ t) (by simp [empty])

theorem tidesdbCommit_sound (e : Engine W) (inTrx all : Bool)
    (answer : WriteRc) (sound : SoundTrx trx) :
    SoundTrx (tidesdbCommit e trx inTrx all answer).2.1 ∧
    ((tidesdbCommit e trx inTrx all answer).2.2 = .ok →
      (tidesdbCommit e trx inTrx all answer).1.committed ++
        pendingOf (tidesdbCommit e trx inTrx all answer).2.1 = e.committed ++ pendingOf trx) ∧
    ((tidesdbCommit e trx inTrx all answer).2.2 = .ok → isReal inTrx all = true →
      pendingOf (tidesdbCommit e trx inTrx all answer).2.1 = []) := by
  rcases attached_cases trx with idle | ⟨x, t, rfl, attached⟩
  · rw [tidesdbCommit_idle idle]
    exact ⟨sound, fun _ => rfl, fun _ _ => pendingOf_idle idle⟩
  by_cases real : isReal inTrx all = true
  · have ending := tidesdbCommit_end e inTrx all answer (sound x rfl) attached real
    revert ending
    generalize tidesdbCommit e (some x) inTrx all answer = out
    intro ending
    rw [pendingOf_attached attached]
    cases ending with
    | done e' t' finished all =>
      exact ⟨soundTrx_some (finish_sound x finished),
        fun _ => by simp [finish_pending x finished, all], fun _ _ => finish_pending x finished⟩
    | inDoubt e' code ws prepared failed none =>
      exact ⟨sound, fun ok => absurd ok failed, fun ok => absurd ok failed⟩
    | lost e' code failed none =>
      exact ⟨soundTrx_some (sound_of_detached rfl), fun ok => absurd ok failed,
        fun ok => absurd ok failed⟩
  · simp [tidesdbCommit, attached, real, sound]

def RollbackHeard (trx : Option (Trx W)) (rc : Rc) : Prop :=
  ∀ x ∈ trx, ∀ t ∈ x.txn, t.isPrepared = true → rc = .success
  deriving Decidable

theorem tidesdbRollback_end (e : Engine W) (rc : Rc) (attached : x.txn = some t) :
    ∃ e' t', tidesdbRollback e (some x) rc = (e', some (x.finish t'), .ok) ∧ e'.committed = e.committed ∧
      (t'.Finished ∨ t' = t ∧ t.isPrepared = true ∧ rc ≠ .success) := by
  simp only [tidesdbRollback, attached]
  cases phase : t.phase with
  | committed => exact ⟨_, _, rfl, by simp, .inl (.inl phase)⟩
  | aborted => exact ⟨_, _, rfl, by simp, .inl (.inr phase)⟩
  | active ws => exact ⟨_, _, rfl, by simp, .inl (txnRollback_finished _ t)⟩
  | prepared ws =>
    simp only [txnRollbackPrepared, phase]
    by_cases accepted : rc = .success
    · simp only [accepted, if_true]
      exact ⟨_, _, rfl, by simp, .inl (.inr rfl)⟩
    · simp only [accepted, if_false]
      exact ⟨_, _, rfl, by simp, .inr ⟨rfl, by simp [isPrepared, phase], accepted⟩⟩

theorem tidesdbRollback_committed (e : Engine W) (trx : Option (Trx W)) (rc : Rc) :
    (tidesdbRollback e trx rc).1.committed = e.committed := by
  rcases attached_cases trx with idle | ⟨x, t, rfl, attached⟩
  · rw [tidesdbRollback_idle idle]
  obtain ⟨e', t', ending, same, -⟩ := tidesdbRollback_end e rc attached
  rw [ending]
  exact same

theorem tidesdbRollback_sound (e : Engine W) {rc : Rc} (sound : SoundTrx trx) (heard : RollbackHeard trx rc) :
    SoundTrx (tidesdbRollback e trx rc).2.1 ∧ pendingOf (tidesdbRollback e trx rc).2.1 = [] := by
  rcases attached_cases trx with idle | ⟨x, t, rfl, attached⟩
  · rw [tidesdbRollback_idle idle]
    exact ⟨sound, pendingOf_idle idle⟩
  obtain ⟨e', t', ending, -, finished | ⟨-, prepared, refused⟩⟩ := tidesdbRollback_end e rc attached
  · rw [ending]
    exact ⟨soundTrx_some (finish_sound x finished), finish_pending x finished⟩
  · exact absurd (heard x rfl t attached prepared) refused

/- The places that free the handle. -/

theorem discardTxn_sound (generations : Nat) (e : Engine W) (sound : SoundTrx trx) :
    SoundTrx (discardTxn generations e trx).2 ∧ pendingOf (discardTxn generations e trx).2 = [] ∧
    (discardTxn generations e trx).1.committed = e.committed := by
  rcases attached_cases trx with idle | ⟨x, t, rfl, attached⟩
  · rw [discardTxn_idle idle]
    exact ⟨sound, pendingOf_idle idle, rfl⟩
  simp only [discardTxn, attached]
  exact ⟨soundTrx_some (sound_of_detached rfl), rfl, by simp⟩

def FlushHeard (trx : Option (Trx W)) (answer : WriteRc) : Prop :=
  ∀ x ∈ trx, ∀ t ∈ x.txn, t.buffer ≠ [] → t.isPrepared = false ∧ answer.rc = .success

theorem flush_sound (e : Engine W) (answer : WriteRc) (sound : SoundTrx trx) :
    SoundTrx (flushEngineTxnBeforeCfMutation e trx answer).2 ∧
    (FlushHeard trx answer → (flushEngineTxnBeforeCfMutation e trx answer).1.committed ++
        pendingOf (flushEngineTxnBeforeCfMutation e trx answer).2 = e.committed ++ pendingOf trx) := by
  rcases attached_cases trx with idle | ⟨x, t, rfl, attached⟩
  · rw [flush_idle idle]
    exact ⟨sound, fun _ => rfl⟩
  refine ⟨?_, fun heard => ?_⟩
  · simp only [flushEngineTxnBeforeCfMutation, attached]
    exact soundTrx_some (sound_of_detached rfl)
  · rw [pendingOf_attached attached]
    simp only [flushEngineTxnBeforeCfMutation, attached]
    rw [pendingOf_detached rfl, List.append_nil]
    by_cases empty : t.buffer = []
    · rcases txnCommit_cases e t answer with ⟨ws, active, -, committed⟩ | ⟨rc, t', failed, -, refused⟩
      · rw [buffer_of_active active] at empty
        split <;> simp [committed, empty, buffer_of_active active]
      · split <;> simp [refused, failed, empty]
    · obtain ⟨unprepared, accepted⟩ := heard x rfl t attached empty
      have dirty := (sound x rfl).covered t attached empty
      obtain ⟨ws, active⟩ := active_of_held empty unprepared
      simp [dirty, txnCommit, active, accepted, buffer]

/- Row calls: what each part of one can do. -/

theorem throughStmtTxn_cases (c : Conn W) (h : Nat) (puts : EngineTxn W → EngineTxn W × List W × Rc) :
    c.throughStmtTxn h puts = (c, answer .internalError) ∨
    ∃ x t, c.trx = some x ∧ x.txn = some t ∧ c.throughStmtTxn h puts =
      ({ c with trx := some { x with txn := some (puts t).1 } }, ⟨tdbRcToHa (puts t).2.2, (puts t).2.1, []⟩) := by
  unfold Conn.throughStmtTxn
  split
  · exact .inl rfl
  rename_i x held
  split
  · exact .inl rfl
  rename_i t attached
  split
  · exact .inr ⟨x, t, held, attached, rfl⟩
  · exact .inl rfl

theorem maybeBulkCommit_cases (c : Conn W) (h : Nat) (call : RowCall W) : c.maybeBulkCommit h call = (c, answer .ok) ∨
    ∃ x t, c.trx = some x ∧ x.txn = some t ∧
      ((∃ rc t', rc ≠ .success ∧ (t' = t ∨ t' = { t with phase := .aborted }) ∧ c.maybeBulkCommit h call =
          ({ c with trx := some { x with txn := some t' } }, answer (tdbRcToHa rc))) ∨
      ∃ ws, t.phase = .active ws ∧ ((call.bulkReset ≠ .success ∧ call.bulkBegin ≠ .success ∧ c.maybeBulkCommit h call =
          ({ c with
              engine := { c.engine with committed := c.engine.committed ++ ws }
              trx := some { x with txn := none } }, ⟨tdbRcToHa call.bulkBegin, [], ws⟩)) ∨
        ∃ t' handlers, t'.batch = c.engine.nextId ∧ t'.phase = .active [] ∧ c.maybeBulkCommit h call = ({ c with
              engine := { c.engine with committed := c.engine.committed ++ ws, nextId := c.engine.nextId + 1 }
              trx := some { x with txn := some t', txnGeneration := x.txnGeneration + 1 }
              handlers := handlers }, ⟨.ok, [], ws⟩))) := by
  unfold Conn.maybeBulkCommit
  split
  · exact .inl rfl
  rename_i x held
  split
  · exact .inl rfl
  rename_i t attached
  refine .inr ⟨x, t, held, attached, ?_⟩
  rcases txnCommit_cases c.engine t call.bulkCommit with ⟨ws, active, -, committed⟩ | ⟨rc, t', failed, left, refused⟩
  · refine .inr ⟨ws, active, ?_⟩
    simp only [committed, ne_eq, not_true_eq_false, if_false, buffer_of_active active]
    split
    · exact .inr ⟨_, _, rfl, rfl, rfl⟩
    · rename_i unreset
      split
      · rename_i lost
        exact .inl ⟨unreset, lost, rfl⟩
      · exact .inr ⟨_, _, rfl, rfl, rfl⟩
  · refine .inl ⟨rc, t', failed, left.imp_right And.right, ?_⟩
    simp only [refused, ne_eq, failed, not_false_eq_true, if_true]

theorem bulkTail_cases (c : Conn W) (h : Nat) (call : RowCall W) :
    (∃ handlers, c.bulkTail h call = ({ c with handlers := handlers }, answer .ok)) ∨
    ∃ before handlers, c.bulkTail h call =
      ({ (({ c with handlers := before } : Conn W).maybeBulkCommit h call).1 with handlers := handlers },
        (({ c with handlers := before } : Conn W).maybeBulkCommit h call).2) := by
  unfold Conn.bulkTail
  dsimp only
  split
  · split
    · split
      · split <;> exact .inr ⟨_, _, rfl⟩
      · split <;> exact .inl ⟨_, rfl⟩
    · exact .inl ⟨_, rfl⟩
  · exact .inl ⟨_, rfl⟩

end TidesdbMysql
