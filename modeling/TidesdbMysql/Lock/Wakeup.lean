import TidesdbMysql.Lock.Invariant

/-! No thread sleeps through the release of its lock, or through a kill. -/
namespace TidesdbMysql

open Base (run)
open LockPc
open Function Option

namespace LockPc

variable {X : Type}

/- The lock a thread has last found owned, with no kill pending, and is going to sleep on or does. -/
def checked : LockPc X → Option Nat
  | .walkStart site lock | .walkAt site lock _ _ | .walkHop site lock _ _ | .walked site lock _ =>
    if site = .inWait then some lock else none
  | .asleep lock => some lock
  | _ => none

/- The victim of the `kill_query` call the thread is in. -/
def kills : LockPc X → Option (X × Nat)
  | .killing victim epoch | .pointed victim epoch | .broadcasting victim epoch _ => some (victim, epoch)
  | _ => none

theorem waits_of_checked {pc : LockPc X} {lock : Nat} (checked : pc.checked = some lock) : pc.waits = some lock := by
  unfold LockPc.checked at checked
  split at checked <;> simp_all [waits]

theorem holds_of_checked (env : LockEnv) (pk : Nat → Base.Bytes) {pc : LockPc X} {lock : Nat}
    (checked : pc.checked = some lock) : pc = .asleep lock ∨ pc.holds env pk = some (tdbLockPart env (pk lock)) := by
  unfold LockPc.checked at checked
  split at checked <;> simp_all [holds]

end LockPc

namespace LockState

variable {X : Type} [DecidableEq X] {env : LockEnv} {s : LockState X} {x y : X} {plan : LockPlan X} {lock : Nat}

structure Alert (s : LockState X) : Prop where
  owned : ∀ x lock, (s.pc x).checked = some lock → s.ownerTrx lock ≠ none
  told : ∀ x, s.alerted x = true → s.killed x = true ∧ (s.pc x).checked = none
  called : ∀ x victim epoch, (s.pc x).kills = some (victim, epoch) →
    epoch ≤ s.epoch victim ∧ (epoch = s.epoch victim → s.killed victim = true)
  loaded : ∀ x victim wait lock, s.pc x = .broadcasting victim (s.epoch victim) wait →
    (s.pc victim).checked = some lock → wait = lock

theorem Move.checked (move : Move env s x plan) (next : plan.next.checked = some lock) :
    (s.pc x).checked = some lock ∨ s.ownerTxnId lock ≠ 0 ∧ s.killed x = false ∧ plan.effect = .nothing := by
  cases move with
  | recheck at_x owned alive =>
    obtain rfl : _ = lock := by simpa [checked] using next
    exact .inr ⟨owned, alive, rfl⟩
  | stay at_x => exact .inl (at_x ▸ next)
  | pardon at_x => exact .inl (at_x ▸ next)
  | _ => exact .inl (by simp_all [checked])

theorem Move.kills {victim : X} {epoch : Nat} (move : Move env s x plan) (next : plan.next.kills = some (victim, epoch)) :
    (s.pc x).kills = some (victim, epoch) ∨ plan.effect = .kill victim ∧ epoch = s.epoch victim := by
  cases move with
  | kill killed at_x =>
    obtain ⟨rfl, rfl⟩ : killed = victim ∧ s.epoch killed = epoch := by simpa [kills] using next
    exact .inr ⟨rfl, rfl⟩
  | stay at_x => exact .inl (at_x ▸ next)
  | pardon at_x => exact .inl (at_x ▸ next)
  | _ => exact .inl (by simp_all [kills])

theorem checked_other (apart : y ≠ x) (checked : ((s.perform env x plan).pc y).checked = some lock) :
    (s.pc y).checked = some lock ∧ (s.pc y = .asleep lock → s.wakes plan.effect ≠ some lock) := by
  simp only [perform, update_of_ne apart] at checked
  split at checked
  · rename_i slept asleep
    split at checked
    · cases checked
    · rename_i unwoken
      obtain rfl : slept = lock := some.inj checked
      exact ⟨asleep ▸ rfl, fun _ => unwoken⟩
  · rename_i awake
    exact ⟨checked, fun asleep => absurd asleep (awake lock)⟩

/- Another thread sees its lock freed, or a broadcast on it, only in its sleep, which that ends. -/
theorem checked_woken (sound : s.Sound env) (apart : y ≠ x) (unlocked : s.mutex (s.partition env lock) = none)
    (wakes : 0 < s.waiters lock → s.wakes plan.effect = some lock) :
    ((s.perform env x plan).pc y).checked ≠ some lock := by
  intro checked
  obtain ⟨before, unwoken⟩ := checked_other apart checked
  rcases holds_of_checked env s.pk before with asleep | holds
  · refine unwoken asleep (wakes (Nat.pos_of_ne_zero fun zero => ?_))
    have counted := sound.counted lock
    rw [zero, Nat.cast_zero, eq_comm, inLoop, Set.encard_eq_zero] at counted
    exact Set.eq_empty_iff_forall_notMem.mp counted y (by simp [asleep, LockPc.inLoop])
  · have taken := (sound.exclusive y _).mp holds
    cases taken.symm.trans unlocked

theorem alert_owned (sound : s.Sound env) (alert : s.Alert) (move : Move env s x plan) (y : X) (lock : Nat)
    (checked : ((s.perform env x plan).pc y).checked = some lock) : (s.perform env x plan).ownerTrx lock ≠ none := by
  by_cases here : y = x
  · subst here
    rw [perform_pc_self] at checked
    rcases move.tenure with ⟨_, _, -, -, next | next⟩ | ⟨_, _, _, -, -, next, -⟩ | ⟨⟨-, same, -⟩, -⟩
    · simp [next, LockPc.checked] at checked
    · simp [next, LockPc.checked] at checked
    · simp [next, LockPc.checked] at checked
    · rw [same]
      rcases move.checked checked with before | ⟨owned, -⟩
      · exact alert.owned y lock before
      · exact fun free => owned (sound.owned.id_eq_zero_iff.mpr free)
  · have owned := alert.owned y lock (checked_other here checked).1
    rcases move.tenure with ⟨claimed, _, -, claim, -⟩ | ⟨freed, _, _, -, free, -, unlocked⟩ | ⟨⟨-, same, -⟩, -⟩
    · rw [(perform_claim claim).2]
      by_cases lock_eq : lock = claimed
      · simp [lock_eq]
      · simpa [lock_eq] using owned
    · by_cases lock_eq : lock = freed
      · subst lock_eq
        exact absurd checked (checked_woken sound here unlocked fun waited => by simp [wakes, free, waited])
      · rw [(perform_free free).2]
        simpa [lock_eq] using owned
    · rwa [same]

/- A call that returns for the present kill finds its victim past the check, or wakes it. -/
theorem Move.answered {victim : X} {broadcast : Option Nat} (sound : s.Sound env) (alert : s.Alert)
    (move : Move env s x plan) (answer : plan.effect = .answer victim (s.epoch victim) broadcast) :
    s.killed victim = true ∧ ((s.perform env x plan).pc victim).checked = none := by
  have next : plan.next = .idle := by cases move <;> first | rfl | cases answer
  have unchecked : ∀ lock, victim ≠ x → ((s.perform env x plan).pc victim).checked = some lock →
      ∃ wait, broadcast = some wait ∧ s.pc x = .broadcasting victim (s.epoch victim) wait ∧
        s.mutex (s.partition env wait) = none := by
    intro lock apart checked
    have before := (checked_other apart checked).1
    cases move with
    | answer at_x =>
      cases answer
      rcases at_x with ⟨-, gone⟩ | ⟨-, idle⟩
      · simp [gone, LockPc.checked] at before
      · have waits := sound.waiting victim
        rw [idle, waits_of_checked before] at waits
        cases waits
    | broadcast at_x unlocked =>
      cases answer
      exact ⟨_, rfl, at_x, unlocked⟩
    | _ => cases answer
  have killed : s.killed victim = true := by
    have kills : (s.pc x).kills = some (victim, s.epoch victim) := by
      cases move with
      | answer at_x =>
        cases answer
        rcases at_x with ⟨at_x, -⟩ | ⟨at_x, -⟩ <;> rw [at_x] <;> rfl
      | broadcast at_x => cases answer; rw [at_x]; rfl
      | _ => cases answer
    exact (alert.called x victim _ kills).2 rfl
  refine ⟨killed, eq_none_iff_forall_ne_some.mpr fun lock checked => ?_⟩
  by_cases here : victim = x
  · rw [here, perform_pc_self, next] at checked
    cases checked
  · obtain ⟨wait, broadcasts, at_x, unlocked⟩ := unchecked lock here checked
    obtain rfl := alert.loaded x victim wait lock at_x (checked_other here checked).1
    exact checked_woken sound here unlocked (fun _ => by rw [answer, broadcasts]; rfl) checked

theorem alert_told (sound : s.Sound env) (alert : s.Alert) (move : Move env s x plan) (y : X)
    (alerted : (s.perform env x plan).alerted y = true) :
    (s.perform env x plan).killed y = true ∧ ((s.perform env x plan).pc y).checked = none := by
  have earlier : s.alerted y = true → (plan.effect = .pardon → y ≠ x) →
      (s.perform env x plan).killed y = true ∧ ((s.perform env x plan).pc y).checked = none := by
    intro before unpardoned
    obtain ⟨killed, unchecked⟩ := alert.told y before
    refine ⟨?_, eq_none_iff_forall_ne_some.mpr fun lock checked => ?_⟩
    · cases effect : plan.effect with
      | kill victim => by_cases here : y = victim <;> simp [perform, effect, here, killed]
      | pardon => simp [perform, effect, unpardoned effect, killed]
      | _ => simp [perform, effect, killed]
    · by_cases here : y = x
      · subst here
        rw [perform_pc_self] at checked
        rcases move.checked checked with earlier | ⟨-, alive, -⟩
        · cases unchecked.symm.trans earlier
        · cases killed.symm.trans alive
      · cases unchecked.symm.trans (checked_other here checked).1
  cases effect : plan.effect with
  | answer victim epoch broadcast =>
    by_cases here : y = victim
    · subst here
      by_cases before : s.alerted y = true
      · exact earlier before (by simp [effect])
      · have present : epoch = s.epoch y := by simpa [perform, effect, before] using alerted
        obtain ⟨killed, unchecked⟩ := move.answered sound alert (effect.trans (by rw [present]))
        exact ⟨by simpa [perform, effect] using killed, unchecked⟩
    · exact earlier (by simpa [perform, effect, here] using alerted) (by simp [effect])
  | pardon =>
    by_cases here : y = x
    · simp [perform, effect, here] at alerted
    · exact earlier (by simpa [perform, effect, here] using alerted) fun _ => here
  | _ => exact earlier (by simpa [perform, effect] using alerted) (by simp [effect])

theorem alert_called (alert : s.Alert) (move : Move env s x plan) (y victim : X) (epoch : Nat)
    (kills : ((s.perform env x plan).pc y).kills = some (victim, epoch)) : epoch ≤ (s.perform env x plan).epoch victim ∧
      (epoch = (s.perform env x plan).epoch victim → (s.perform env x plan).killed victim = true) := by
  have before : (s.pc y).kills = some (victim, epoch) ∨ plan.effect = .kill victim ∧ epoch = s.epoch victim := by
    by_cases here : y = x
    · subst here
      rw [perform_pc_self] at kills
      exact move.kills kills
    · rw [perform_pc_other LockPc.kills (fun _ => rfl) here] at kills
      exact .inl kills
  rcases before with before | ⟨effect, rfl⟩
  · obtain ⟨le, present⟩ := alert.called y victim epoch before
    cases effect : plan.effect with
    | pardon =>
      by_cases here : victim = x
      · subst here
        simp only [perform, effect, update_self]
        omega
      · simpa [perform, effect, here] using And.intro le present
    | kill killed =>
      by_cases here : victim = killed
      · simpa [perform, effect, here] using here ▸ le
      · simpa [perform, effect, here] using And.intro le present
    | _ => simpa [perform, effect] using And.intro le present
  · simp [perform, effect]

theorem Move.broadcasts {victim : X} {epoch wait : Nat} (move : Move env s x plan)
    (next : plan.next = .broadcasting victim epoch wait) :
    s.pc x = .broadcasting victim epoch wait ∨ s.waitingOn victim = some wait := by
  cases move with
  | load at_x granted waits =>
    obtain ⟨rfl, rfl, rfl⟩ : _ = victim ∧ _ = epoch ∧ _ = wait := by simpa using next
    exact .inr waits
  | stay at_x => exact .inl (at_x.trans next)
  | pardon at_x => exact .inl (at_x.trans next)
  | _ => cases next

/- The victim waits for what its killer has loaded: a victim that checks anew sees the kill. -/
theorem alert_loaded (sound : s.Sound env) (alert : s.Alert) (move : Move env s x plan) (y victim : X) (wait lock : Nat)
    (broadcasts : (s.perform env x plan).pc y = .broadcasting victim ((s.perform env x plan).epoch victim) wait)
    (checked : ((s.perform env x plan).pc victim).checked = some lock) : wait = lock := by
  have apart : victim ≠ y := by
    rintro rfl
    rw [broadcasts] at checked
    cases checked
  have older : s.epoch victim ≤ (s.perform env x plan).epoch victim := by
    cases effect : plan.effect with
    | pardon => by_cases here : victim = x <;> simp [perform, effect, here]
    | _ => simp [perform, effect]
  have held : s.pc y = .broadcasting victim ((s.perform env x plan).epoch victim) wait → wait = lock := by
    intro at_y
    obtain ⟨le, killed⟩ := alert.called y victim _ (by rw [at_y]; rfl)
    have present := le_antisymm le older
    rw [present] at at_y killed
    refine alert.loaded y victim wait lock at_y ?_
    by_cases here : victim = x
    · subst here
      rw [perform_pc_self] at checked
      rcases move.checked checked with before | ⟨-, alive, -⟩
      · exact before
      · cases (killed rfl).symm.trans alive
    · exact (checked_other here checked).1
  by_cases mine : y = x
  · subst mine
    rw [perform_pc_self] at broadcasts
    rcases move.broadcasts broadcasts with before | waits
    · exact held before
    · have awaited := sound.waiting victim
      rw [waits, waits_of_checked (checked_other apart checked).1] at awaited
      exact some.inj awaited
  · refine held ?_
    simp only [perform, update_of_ne mine] at broadcasts
    split at broadcasts
    · split at broadcasts <;> cases broadcasts
    · exact broadcasts

theorem alert_run (env : LockEnv) (events : List (ThreadEvent X)) : (run (step env) start events).Alert := by
  have keeps : ∀ (s : LockState X) event, s.Sound env ∧ s.Alert → True →
      (step env s event).1.Sound env ∧ (step env s event).1.Alert := by
    intro s event ⟨sound, alert⟩ _
    have move := planOf_move env s event
    exact ⟨sound_step sound event, alert_owned sound alert move, alert_told sound alert move, alert_called alert move,
      alert_loaded sound alert move⟩
  have initial : (start : LockState X).Alert := by
    constructor <;> simp [start, checked, kills]
  exact (Base.run_invariant _ _ keeps ⟨sound_start env, initial⟩ (Base.along_true _ _ _)).2

theorem no_wakeup_lost (env : LockEnv) (events : List (ThreadEvent X)) :
    ¬ ∃ x lock, (run (step env) start events).pc x = .asleep lock ∧ ((run (step env) start events).ownerTxnId lock = 0 ∨
        (run (step env) start events).killed x = true ∧ (run (step env) start events).alerted x = true) := by
  have alert := alert_run env events
  rintro ⟨x, lock, asleep, free | ⟨-, alerted⟩⟩
  · rw [(sound_run env events).owned.id_eq_zero_iff] at free
    exact alert.owned x lock (by rw [asleep]; rfl) free
  · simpa [asleep, checked] using (alert.told x alerted).2

end LockState

end TidesdbMysql
