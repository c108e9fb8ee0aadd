import Mathlib.Data.Set.Card
import TidesdbMysql.Base.Links
import TidesdbMysql.Lock.Table

/-! What holds of the lock table between any two steps of any number of threads. -/
namespace TidesdbMysql

open Base (Bytes Linked run Along)
open LockPc
open List Function Option

namespace LockPc

variable {X : Type}

/- The lock the thread has published as the one it waits for. -/
def waits : LockPc X → Option Nat
  | .walkStart _ lock | .walkAt _ lock _ _ | .walkHop _ lock _ _ | .walked _ lock _ | .waitLoop lock | .asleep lock
  | .woken lock | .leaving lock _ | .clearing lock _ | .claiming lock .afterWalk => some lock
  | _ => none

/- The lock the thread has found owned by another, from then on until it leaves the wait loop. -/
def contests : LockPc X → Option Nat
  | .publishing lock | .walkStart _ lock | .walkAt _ lock _ _ | .walkHop _ lock _ _ | .walked _ lock _ | .waitLoop lock
  | .asleep lock | .woken lock => some lock
  | _ => none

/- The lock the thread has found free and is about to claim. -/
def expectsFree : LockPc X → Option Nat
  | .claiming lock _ | .leaving lock .granted => some lock
  | _ => none

/- The lock whose wait loop the thread is in. -/
def inLoop : LockPc X → Option Nat
  | .walkStart site lock | .walkAt site lock _ _ | .walkHop site lock _ _ | .walked site lock _ =>
    if site = .inWait then some lock else none
  | .waitLoop lock | .asleep lock | .woken lock => some lock
  | _ => none

/- The partition whose mutex the thread has. -/
def holds (env : LockEnv) (pk : Nat → Bytes) : LockPc X → Option Nat
  | .searching key => some (tdbLockPart env key)
  | .walkStart site lock | .walkAt site lock _ _ | .walkHop site lock _ _ | .walked site lock _ =>
    if site = .inWait then some (tdbLockPart env (pk lock)) else none
  | .found lock | .publishing lock | .waitLoop lock | .leaving lock _ | .claiming lock _ | .clearing lock _ =>
    some (tdbLockPart env (pk lock))
  | _ => none

/- The lock the thread works on in `row_lock_acquire`. -/
def acquires : LockPc X → Option Nat
  | .found lock | .publishing lock | .walkStart _ lock | .walkAt _ lock _ _ | .walkHop _ lock _ _ | .walked _ lock _
  | .waitLoop lock | .asleep lock | .woken lock | .leaving lock _ | .claiming lock _ | .clearing lock _ => some lock
  | _ => none

/- `row_locks_release_all` leaves `held_locks_head` as it is until it has come to the end of the
list. -/
def heldFrom (head : Option Nat) : LockPc X → Option Nat
  | .releasing lock _ => lock
  | .unlinking lock _ _ => some lock
  | _ => head

def Unlinks (heldNext : Nat → Option Nat) : LockPc X → Prop
  | .unlinking lock next _ => heldNext lock = next
  | _ => True

/- In `row_lock_acquire`, before it has claimed a lock. -/
def unclaimed : LockPc X → Bool
  | .entering _ | .searching _ => true
  | .clearing _ granted => !granted
  | pc => pc.acquires.isSome

end LockPc

namespace LockState

variable {X : Type} [DecidableEq X] {env : LockEnv} {s : LockState X} {x y : X} {plan : LockPlan X} {lock : Nat}

def heldFrom (s : LockState X) (x : X) : Option Nat := (s.pc x).heldFrom (s.heldLocksHead x)

/- A step changes another thread only by waking it. -/
theorem perform_pc_other {B : Type} (f : LockPc X → B) (same : ∀ lock, f (.woken lock) = f (.asleep lock))
    (apart : y ≠ x) : f ((s.perform env x plan).pc y) = f (s.pc y) := by
  simp only [perform, update_of_ne apart]
  split
  · next asleep =>
    split
    · rw [asleep, same]
    · rw [asleep]
  · rfl

theorem perform_pc_self : (s.perform env x plan).pc x = plan.next := by simp [perform]

theorem Move.waits (move : Move env s x plan) : plan.next.waits = plan.effect.waitAfter (s.pc x).waits := by
  cases move with
  | claim at_x last =>
    rename_i site
    cases site <;> simp_all [waits, LockEffect.waitAfter]
  | answer at_x => rcases at_x with ⟨at_x, _⟩ | ⟨at_x, _⟩ <;> simp [at_x, waits, LockEffect.waitAfter]
  | stay at_x => simp [at_x, LockEffect.waitAfter]
  | pardon at_x => simp [at_x, LockEffect.waitAfter]
  | _ => simp_all [waits, LockEffect.waitAfter]

theorem waiting_step (waiting : ∀ y, s.waitingOn y = (s.pc y).waits) (move : Move env s x plan) (y : X) :
    (s.perform env x plan).waitingOn y = ((s.perform env x plan).pc y).waits := by
  by_cases same : y = x
  · subst same
    rw [perform_pc_self, move.waits, ← waiting]
    exact update_self _ _ _
  · rw [perform_pc_other waits (fun _ => rfl) same, ← waiting]
    exact update_of_ne same _ _

/- The chains: every allocated lock is in that of its partition, with a key of its own. -/
structure Chained (env : LockEnv) (s : LockState X) : Prop where
  chained : ∀ p lock, lock ∈ s.chain p ↔ lock < s.fresh ∧ s.partition env lock = p
  distinct : ∀ p, ((s.chain p).map s.pk).Nodup
  allocated : ∀ x lock, (s.pc x).acquires = some lock → lock < s.fresh

omit [DecidableEq X] in
theorem find_some {key : Bytes} (there : s.find env key = some lock) :
    lock ∈ s.chain (tdbLockPart env key) ∧ s.pk lock = key := by
  refine ⟨mem_of_find?_eq_some there, ?_⟩
  simpa using find?_some there

theorem Move.acquires (move : Move env s x plan) (next : plan.next.acquires = some lock) :
    (s.pc x).acquires = some lock ∨ (∃ key, s.find env key = some lock) ∨ ∃ key, plan.effect = .create key := by
  cases move with
  | stay at_x => exact .inl (at_x ▸ next)
  | pardon at_x => exact .inl (at_x ▸ next)
  | found at_x there =>
    obtain rfl : _ = lock := some.inj next
    exact .inr (.inl ⟨_, there⟩)
  | create at_x missing => exact .inr (.inr ⟨_, rfl⟩)
  | _ => simp_all [acquires]

/- Nothing but a new lock changes the chains. -/
theorem perform_old (old : ∀ key, plan.effect ≠ .create key) :
    (s.perform env x plan).fresh = s.fresh ∧ (s.perform env x plan).chain = s.chain ∧ (s.perform env x plan).pk = s.pk := by
  cases effect : plan.effect with
  | create key => exact absurd effect (old key)
  | _ => simp [perform, effect]

theorem chained_create (inv : s.Chained env) {key : Bytes} (missing : s.find env key = none)
    (made : plan.effect = .create key) (next : plan.next = .found s.fresh) : (s.perform env x plan).Chained env := by
  have outside p : s.fresh ∉ s.chain p := fun mem => Nat.lt_irrefl _ ((inv.chained p _).mp mem).1
  have keys p : (s.chain p).map (update s.pk s.fresh key) = (s.chain p).map s.pk :=
    map_congr_left fun lock mem => update_of_ne (ne_of_mem_of_not_mem mem (outside p)) _ _
  refine ⟨fun p lock => ?_, fun p => ?_, fun y lock acquired => ?_⟩
  · have old := inv.chained p lock
    simp only [perform, made, partition]
    by_cases newest : lock = s.fresh
    · subst newest
      by_cases here : p = tdbLockPart env key
      · simp [here]
      · simp [update_of_ne here, outside, Ne.symm here]
    · rw [update_of_ne newest]
      have below : lock < s.fresh + 1 ↔ lock < s.fresh := by omega
      rw [below]
      by_cases here : p = tdbLockPart env key
      · subst here
        simpa [newest, partition] using old
      · simpa [update_of_ne here, partition] using old
  · simp only [perform, made]
    by_cases here : p = tdbLockPart env key
    · subst here
      rw [update_self, map_cons, update_self, keys, nodup_cons]
      refine ⟨fun mem => ?_, inv.distinct _⟩
      obtain ⟨lock, mem, same⟩ := mem_map.mp mem
      simpa [same] using find?_eq_none.mp missing lock mem
    · rw [update_of_ne here, keys]
      exact inv.distinct p
  · simp only [perform, made]
    by_cases same : y = x
    · subst same
      rw [perform_pc_self, next] at acquired
      obtain rfl : _ = lock := some.inj acquired
      exact Nat.lt_succ_self _
    · rw [perform_pc_other acquires (fun _ => rfl) same] at acquired
      exact Nat.lt_succ_of_lt (inv.allocated y lock acquired)

theorem chained_step (inv : s.Chained env) (move : Move env s x plan) : (s.perform env x plan).Chained env := by
  by_cases made : ∃ key, plan.effect = .create key
  · obtain ⟨key, made⟩ := made
    cases move with
    | create at_x missing =>
      cases made
      exact chained_create inv missing rfl rfl
    | _ => cases made
  · obtain ⟨fresh, chain, pk⟩ : (s.perform env x plan).fresh = s.fresh ∧ _ := perform_old (not_exists.mp made)
    refine ⟨fun p lock => ?_, fun p => ?_, fun y lock acquired => ?_⟩
    · rw [chain, fresh, partition, pk]
      exact inv.chained p lock
    · rw [chain, pk]
      exact inv.distinct p
    · rw [fresh]
      by_cases same : y = x
      · subst same
        rw [perform_pc_self] at acquired
        rcases move.acquires acquired with before | ⟨key, there⟩ | created
        · exact inv.allocated y lock before
        · exact ((inv.chained _ lock).mp (find_some there).1).1
        · exact absurd created made
      · rw [perform_pc_other acquires (fun _ => rfl) same] at acquired
        exact inv.allocated y lock acquired

/- The mutexes are with the threads that work under them. -/
def Exclusive (env : LockEnv) (s : LockState X) : Prop := ∀ x p, (s.pc x).holds env s.pk = some p ↔ s.mutex p = some x

omit [DecidableEq X] in
theorem holds_congr {pk pk' : Nat → Bytes} {pc : LockPc X} (same : ∀ lock, pc.acquires = some lock → pk' lock = pk lock) :
    pc.holds env pk' = pc.holds env pk := by
  unfold holds
  split <;> simp_all [acquires]

/- A thread takes one mutex at a time. -/
theorem Move.mutex (move : Move env s x plan) : match plan.mutex with
    | .keep => plan.next.holds env (s.perform env x plan).pk = (s.pc x).holds env s.pk
    | .take p => s.mutex p = none ∧ (s.pc x).holds env s.pk = none ∧
      plan.next.holds env (s.perform env x plan).pk = some p
    | .drop p => (s.pc x).holds env s.pk = some p ∧ plan.next.holds env (s.perform env x plan).pk = none := by
  cases move with
  | found at_x there =>
    simp [at_x, holds, perform, (find_some there).2]
  | create at_x missing => simp [at_x, holds, perform]
  | answer at_x => rcases at_x with ⟨at_x, _⟩ | ⟨at_x, _⟩ <;> simp [at_x, holds]
  | stay at_x => simp [at_x, perform]
  | pardon at_x => simp [at_x, perform]
  | _ => simp_all [holds, perform, partition]

theorem perform_pk (below : lock < s.fresh) : (s.perform env x plan).pk lock = s.pk lock := by
  cases effect : plan.effect with
  | create key => simp [perform, effect, Nat.ne_of_lt below]
  | _ => simp [perform, effect]

theorem exclusive_step (chained : s.Chained env) (exclusive : s.Exclusive env) (move : Move env s x plan) :
    (s.perform env x plan).Exclusive env := by
  have others {y : X} (apart : y ≠ x) :
      ((s.perform env x plan).pc y).holds env (s.perform env x plan).pk = (s.pc y).holds env s.pk := by
    rw [perform_pc_other (holds env _) (fun _ => rfl) apart]
    exact holds_congr fun lock acquired => perform_pk (chained.allocated y lock acquired)
  have mutex : (s.perform env x plan).mutex = match plan.mutex with
      | .keep => s.mutex
      | .take p => update s.mutex p (some x)
      | .drop p => update s.mutex p none := rfl
  have own := move.mutex
  intro y p
  have before := exclusive y p
  by_cases same : y = x
  · subst same
    rw [perform_pc_self]
    cases use : plan.mutex with
    | keep =>
      simp only [use] at own mutex
      rw [own, mutex]
      exact before
    | take q =>
      simp only [use] at own mutex
      rw [own.2.1] at before
      rw [own.2.2, mutex]
      by_cases here : p = q
      · simp [here]
      · simpa [here, Ne.symm here] using before
    | drop q =>
      simp only [use] at own mutex
      rw [own.1] at before
      rw [own.2, mutex]
      by_cases here : p = q
      · simp [here]
      · simpa [here, Ne.symm here] using before
  · rw [others same, before]
    cases use : plan.mutex with
    | keep =>
      simp only [use] at mutex
      rw [mutex]
    | take q =>
      simp only [use] at own mutex
      rw [mutex]
      by_cases here : p = q
      · simp [here, own.1, Ne.symm same]
      · simp [here]
    | drop q =>
      simp only [use] at own mutex
      rw [mutex]
      by_cases here : p = q
      · simp [here, (exclusive x q).mp own.1, Ne.symm same]
      · simp [here]

def SameOwners (s t : LockState X) : Prop :=
  t.ownerTxnId = s.ownerTxnId ∧ t.ownerTrx = s.ownerTrx ∧ t.heldNext = s.heldNext

/- A lock changes hands when it is claimed and when it is released. -/
theorem Move.tenure (move : Move env s x plan) :
    (∃ lock site, s.pc x = .claiming lock site ∧ plan.effect = .claim lock ∧
        (plan.next = .idle ∨ plan.next = .clearing lock true)) ∨
      (∃ lock next closes, s.pc x = .unlinking lock next closes ∧ plan.effect = .free lock ∧
        plan.next = .releasing next closes ∧ s.mutex (s.partition env lock) = none) ∨
      s.SameOwners (s.perform env x plan) ∧ (s.perform env x plan).heldFrom x = s.heldFrom x ∧
        ((s.pc x).Unlinks s.heldNext → plan.next.Unlinks s.heldNext) := by
  cases move with
  | claimAfterWalk at_x => exact .inl ⟨_, _, at_x, rfl, .inr rfl⟩
  | claim at_x last => exact .inl ⟨_, _, at_x, rfl, .inl rfl⟩
  | freeLock at_x unlocked => exact .inr (.inl ⟨_, _, _, at_x, rfl, rfl, unlocked⟩)
  | stay at_x | pardon at_x =>
    refine .inr (.inr ⟨⟨rfl, rfl, rfl⟩, ?_, at_x ▸ id⟩)
    simp [heldFrom, perform, at_x, LockEffect.headAfter]
  | answer at_x =>
    refine .inr (.inr ⟨⟨rfl, rfl, rfl⟩, ?_, fun _ => trivial⟩)
    rcases at_x with ⟨at_x, -⟩ | ⟨at_x, -⟩ <;> simp [heldFrom, perform, at_x, LockEffect.headAfter, LockPc.heldFrom]
  | unlink at_x =>
    refine .inr (.inr ⟨⟨rfl, rfl, rfl⟩, ?_, fun _ => rfl⟩)
    simp [heldFrom, perform, at_x, LockPc.heldFrom]
  | _ =>
    refine .inr (.inr ⟨⟨rfl, rfl, rfl⟩, ?_, fun _ => trivial⟩)
    simp_all [heldFrom, perform, LockEffect.headAfter, LockPc.heldFrom]

/- Who owns what, as the threads know it. -/
structure Owned (s : LockState X) : Prop where
  ids : ∀ lock, s.ownerTxnId lock = if (s.ownerTrx lock).isSome then lockTxnId else 0
  contested : ∀ x lock, (s.pc x).contests = some lock → s.ownerTrx lock ≠ some x
  unowned : ∀ x lock, (s.pc x).expectsFree = some lock → s.ownerTrx lock = none

omit [DecidableEq X] in
theorem Owned.id_eq_zero_iff (owned : s.Owned) : s.ownerTxnId lock = 0 ↔ s.ownerTrx lock = none := by
  rw [owned.ids]
  cases s.ownerTrx lock <;> simp [lockTxnId]

theorem Owned.contests (owned : s.Owned) (move : Move env s x plan) (next : plan.next.contests = some lock) :
    s.ownerTrx lock ≠ some x := by
  cases move with
  | contest at_x foreign _ =>
    obtain rfl : _ = lock := some.inj next
    intro own
    exact foreign ⟨by simp [owned.ids, own], own⟩
  | stay at_x => exact owned.contested x lock (at_x ▸ next)
  | pardon at_x => exact owned.contested x lock (at_x ▸ next)
  | _ => exact owned.contested x lock (by simp_all [contests])

theorem Owned.expectsFree (owned : s.Owned) (move : Move env s x plan) (next : plan.next.expectsFree = some lock) :
    s.ownerTrx lock = none := by
  cases move with
  | free at_x unowned | freed at_x _ unowned =>
    obtain rfl : _ = lock := some.inj next
    exact owned.id_eq_zero_iff.mp unowned
  | grant at_x ended =>
    obtain rfl : _ = lock := some.inj next
    have foreign := owned.contested x _ (congrArg LockPc.contests at_x)
    by_contra taken
    exact ended ⟨fun unowned => taken (owned.id_eq_zero_iff.mp unowned), foreign⟩
  | stay at_x => exact owned.unowned x lock (at_x ▸ next)
  | pardon at_x => exact owned.unowned x lock (at_x ▸ next)
  | _ => exact owned.unowned x lock (by simp_all [expectsFree])

omit [DecidableEq X] in
theorem holds_of_expectsFree {pc : LockPc X} (expects : pc.expectsFree = some lock) :
    pc.holds env s.pk = some (s.partition env lock) := by
  unfold expectsFree at expects
  split at expects <;> simp_all [holds, partition]

theorem perform_owner (env : LockEnv) (s : LockState X) (x : X) (plan : LockPlan X) (lock : Nat) :
    (s.perform env x plan).ownerTrx lock = s.ownerTrx lock ∨ (s.perform env x plan).ownerTrx lock = none ∨
      plan.effect = .claim lock ∧ (s.perform env x plan).ownerTrx lock = some x := by
  cases effect : plan.effect with
  | claim claimed =>
    by_cases here : lock = claimed <;> simp [perform, effect, here]
  | free freed =>
    by_cases here : lock = freed <;> simp [perform, effect, here]
  | _ => simp [perform, effect]

theorem Move.claims (move : Move env s x plan) (claim : plan.effect = .claim lock) :
    (s.pc x).expectsFree = some lock ∧ plan.next.contests = none ∧ plan.next.expectsFree = none := by
  cases move with
  | claimAfterWalk at_x | claim at_x last =>
    cases claim
    simp [at_x, expectsFree, contests]
  | _ => cases claim

theorem ids_step (owned : s.Owned) (lock : Nat) :
    (s.perform env x plan).ownerTxnId lock = if ((s.perform env x plan).ownerTrx lock).isSome then lockTxnId else 0 := by
  cases effect : plan.effect with
  | claim claimed | free claimed =>
    by_cases here : lock = claimed
    · simp [perform, effect, here]
    · simpa [perform, effect, here] using owned.ids lock
  | _ => simpa [perform, effect] using owned.ids lock

theorem owned_step (exclusive : s.Exclusive env) (owned : s.Owned) (move : Move env s x plan) :
    (s.perform env x plan).Owned := by
  refine ⟨ids_step owned, fun y lock contests => ?_, fun y lock expects => ?_⟩
  · have foreign : s.ownerTrx lock ≠ some y := by
      by_cases same : y = x
      · subst same
        exact owned.contests move (by rwa [perform_pc_self] at contests)
      · rw [perform_pc_other LockPc.contests (fun _ => rfl) same] at contests
        exact owned.contested y lock contests
    rcases perform_owner env s x plan lock with kept | freed | ⟨claim, claimed⟩
    · rwa [kept]
    · simp [freed]
    · rw [claimed]
      rintro same
      obtain rfl : x = y := some.inj same
      rw [perform_pc_self, (move.claims claim).2.1] at contests
      cases contests
  · have unowned : s.ownerTrx lock = none := by
      by_cases same : y = x
      · subst same
        exact owned.expectsFree move (by rwa [perform_pc_self] at expects)
      · rw [perform_pc_other LockPc.expectsFree (fun _ => rfl) same] at expects
        exact owned.unowned y lock expects
    rcases perform_owner env s x plan lock with kept | freed | ⟨claim, claimed⟩
    · rwa [kept]
    · exact freed
    · -- two threads that expect a lock to be free have the mutex of its partition
      obtain ⟨claims, -, done⟩ := move.claims claim
      by_cases same : y = x
      · subst same
        rw [perform_pc_self, done] at expects
        cases expects
      · rw [perform_pc_other LockPc.expectsFree (fun _ => rfl) same] at expects
        have one := (exclusive x _).mp (holds_of_expectsFree claims)
        have two := (exclusive y _).mp (holds_of_expectsFree expects)
        rw [one] at two
        exact absurd (some.inj two).symm same

/- The list of a transaction has the locks it owns, and `row_locks_release_all` knows how it goes on. -/
def Listed (s : LockState X) (x : X) : Prop :=
  (∃ held, Linked s.heldNext (s.heldFrom x) held ∧ held.Nodup ∧ ∀ lock, lock ∈ held ↔ s.ownerTrx lock = some x) ∧
    (s.pc x).Unlinks s.heldNext

omit [DecidableEq X] in
theorem Listed.unlinking (listed : s.Listed x) {next : Option Nat} {closes : Bool}
    (at_x : s.pc x = .unlinking lock next closes) :
    s.ownerTrx lock = some x ∧ ∃ held, Linked s.heldNext next held ∧ (lock :: held).Nodup ∧
      ∀ other, other ∈ lock :: held ↔ s.ownerTrx other = some x := by
  obtain ⟨⟨held, linked, nodup, owns⟩, unlinks⟩ := listed
  rw [heldFrom, at_x] at linked
  rw [at_x] at unlinks
  obtain ⟨rest, rfl, tail⟩ := Linked.pop linked
  exact ⟨(owns lock).mp (mem_cons_self ..), rest, unlinks ▸ tail, nodup, owns⟩

theorem heldFrom_other (apart : y ≠ x) : (s.perform env x plan).heldFrom y = s.heldFrom y := by
  have head : (s.perform env x plan).heldLocksHead y = s.heldLocksHead y := update_of_ne apart _ _
  rw [heldFrom, head]
  exact perform_pc_other (LockPc.heldFrom _) (fun _ => rfl) apart

theorem perform_claim (claim : plan.effect = .claim lock) :
    (s.perform env x plan).heldNext = Function.update s.heldNext lock (s.heldLocksHead x) ∧
      (s.perform env x plan).ownerTrx = Function.update s.ownerTrx lock (some x) := by
  simp only [perform, claim, and_self]

theorem perform_free (free : plan.effect = .free lock) :
    (s.perform env x plan).heldNext = Function.update s.heldNext lock none ∧
      (s.perform env x plan).ownerTrx = Function.update s.ownerTrx lock none := by
  simp only [perform, free, and_self]

/- What happens to a lock of no concern to the transaction. -/
omit [DecidableEq X] in
theorem Listed.update (listed : s.Listed x) {t : LockState X} {next : Option Nat} {owner : Option X}
    (from_eq : t.heldFrom x = s.heldFrom x) (unlinks : ∀ heldNext, (t.pc x).Unlinks heldNext = (s.pc x).Unlinks heldNext)
    (before : s.ownerTrx lock ≠ some x) (after : owner ≠ some x) (links : t.heldNext = Function.update s.heldNext lock next)
    (owners : t.ownerTrx = Function.update s.ownerTrx lock owner) : t.Listed x := by
  have apart : ∀ at_lock next closes, s.pc x = .unlinking at_lock next closes → at_lock ≠ lock := by
    rintro at_lock next closes at_x rfl
    exact before (listed.unlinking at_x).1
  obtain ⟨⟨held, linked, nodup, owns⟩, unlinking⟩ := listed
  have outside : lock ∉ held := fun mem => before ((owns lock).mp mem)
  refine ⟨⟨held, ?_, nodup, fun other => ?_⟩, ?_⟩
  · rw [from_eq, links]
    exact linked.update outside _
  · rw [owners, owns]
    by_cases here : other = lock
    · simp [here, before, after]
    · simp [here]
  · rw [unlinks, links]
    cases at_x : s.pc x with
    | unlinking at_lock next closes =>
      rw [at_x] at unlinking
      exact (update_of_ne (apart _ _ _ at_x) _ _).trans unlinking
    | _ => trivial

theorem listed_self (listed : s.Listed x) (owned : s.Owned) (move : Move env s x plan) :
    (s.perform env x plan).Listed x := by
  rcases move.tenure with ⟨lock, site, at_x, claim, next⟩ | ⟨lock, next, closes, at_x, free, next_eq, -⟩ |
    ⟨⟨-, owners, links⟩, from_eq, unlinks⟩
  · have unowned := owned.unowned x lock (congrArg LockPc.expectsFree at_x)
    obtain ⟨⟨held, linked, nodup, owns⟩, -⟩ := listed
    have outside : lock ∉ held := by simp [owns, unowned]
    obtain ⟨links, owners⟩ := perform_claim claim
    refine ⟨⟨lock :: held, ?_, nodup_cons.mpr ⟨outside, nodup⟩, fun other => ?_⟩, ?_⟩
    · have from_eq : (s.perform env x plan).heldFrom x = some lock := by
        rcases next with next | next <;> simp [heldFrom, next, LockPc.heldFrom, perform, claim, LockEffect.headAfter]
      rw [heldFrom, at_x] at linked
      rw [from_eq, links]
      exact linked.push outside
    · rw [owners, mem_cons, owns]
      by_cases here : other = lock <;> simp [here]
    · rw [perform_pc_self]
      rcases next with next | next <;> simp [next, LockPc.Unlinks]
  · obtain ⟨owner, held, linked, nodup, owns⟩ := listed.unlinking at_x
    obtain ⟨outside, nodup⟩ := nodup_cons.mp nodup
    obtain ⟨links, owners⟩ := perform_free free
    refine ⟨⟨held, ?_, nodup, fun other => ?_⟩, ?_⟩
    · rw [heldFrom, perform_pc_self, next_eq, links]
      exact linked.update outside _
    · have before := owns other
      rw [owners]
      by_cases here : other = lock
      · simp [here, outside]
      · simpa [here] using before
    · simp [perform_pc_self, next_eq, LockPc.Unlinks]
  · obtain ⟨⟨held, linked, nodup, owns⟩, unlinking⟩ := listed
    refine ⟨⟨held, ?_, nodup, fun other => ?_⟩, ?_⟩
    · rwa [from_eq, links]
    · rw [owners, owns]
    · rw [perform_pc_self, links]
      exact unlinks unlinking

theorem listed_step (listed : ∀ x, s.Listed x) (owned : s.Owned) (move : Move env s x plan) (y : X) :
    (s.perform env x plan).Listed y := by
  by_cases same : y = x
  · subst same
    exact listed_self (listed y) owned move
  have unlinks heldNext :
      ((s.perform env x plan).pc y).Unlinks heldNext = (s.pc y).Unlinks heldNext :=
    perform_pc_other (LockPc.Unlinks heldNext) (fun _ => rfl) same
  rcases move.tenure with ⟨lock, site, at_x, claim, -⟩ | ⟨lock, next, closes, at_x, free, -, -⟩ |
    ⟨⟨-, owners, links⟩, -, -⟩
  · have unowned := owned.unowned x lock (congrArg expectsFree at_x)
    obtain ⟨links, owners⟩ := perform_claim claim
    exact (listed y).update (heldFrom_other same) unlinks (by simp [unowned]) (by simpa using Ne.symm same) links owners
  · have owner := ((listed x).unlinking at_x).1
    obtain ⟨links, owners⟩ := perform_free free
    exact (listed y).update (heldFrom_other same) unlinks (by simpa [owner] using Ne.symm same) (by simp) links owners
  · obtain ⟨⟨held, linked, nodup, owns⟩, unlinking⟩ := listed y
    refine ⟨⟨held, ?_, nodup, fun other => ?_⟩, ?_⟩
    · rwa [heldFrom_other same, links]
    · rw [owners, owns]
    · rwa [unlinks, links]

/- The number of threads in the wait loop of a lock. -/
noncomputable def inLoop (s : LockState X) (lock : Nat) : ℕ∞ := {x | (s.pc x).inLoop = some lock}.encard

theorem Move.inLoop (move : Move env s x plan) : match plan.effect with
    | .countIn lock => (s.pc x).inLoop = none ∧ plan.next.inLoop = some lock
    | .countOut lock => (s.pc x).inLoop = some lock ∧ plan.next.inLoop = none
    | _ => plan.next.inLoop = (s.pc x).inLoop := by
  cases move with
  | answer at_x => rcases at_x with ⟨at_x, -⟩ | ⟨at_x, -⟩ <;> simp [at_x, LockPc.inLoop]
  | stay at_x => simp [at_x]
  | pardon at_x => simp [at_x]
  | _ => simp_all [LockPc.inLoop]

theorem inLoop_insert {t : LockState X} (others : ∀ y, y ≠ x → (t.pc y).inLoop = (s.pc y).inLoop)
    (out : (s.pc x).inLoop ≠ some lock) (into : (t.pc x).inLoop = some lock) : t.inLoop lock = s.inLoop lock + 1 := by
  have grown : {y | (t.pc y).inLoop = some lock} = insert x {y | (s.pc y).inLoop = some lock} := by
    ext y
    by_cases same : y = x
    · simp [same, into]
    · simp [same, others y same]
  exact (congrArg Set.encard grown).trans (Set.encard_insert_of_notMem out)

theorem inLoop_congr {t : LockState X} (others : ∀ y, y ≠ x → (t.pc y).inLoop = (s.pc y).inLoop)
    (same : (t.pc x).inLoop = some lock ↔ (s.pc x).inLoop = some lock) : t.inLoop lock = s.inLoop lock := by
  have alike : ∀ y, (t.pc y).inLoop = some lock ↔ (s.pc y).inLoop = some lock := by
    intro y
    by_cases here : y = x
    · rw [here, same]
    · rw [others y here]
  simp only [inLoop, alike]

theorem counted_step (counted : ∀ lock, (s.waiters lock : ℕ∞) = s.inLoop lock) (move : Move env s x plan) (lock : Nat) :
    ((s.perform env x plan).waiters lock : ℕ∞) = (s.perform env x plan).inLoop lock := by
  have others : ∀ y, y ≠ x → ((s.perform env x plan).pc y).inLoop = (s.pc y).inLoop := fun y apart =>
    perform_pc_other LockPc.inLoop (fun _ => rfl) apart
  have own := move.inLoop
  have self : ((s.perform env x plan).pc x).inLoop = plan.next.inLoop := by rw [perform_pc_self]
  rw [← self] at own
  have same (waiters : (s.perform env x plan).waiters lock = s.waiters lock)
      (alike : ((s.perform env x plan).pc x).inLoop = some lock ↔ (s.pc x).inLoop = some lock) :
      ((s.perform env x plan).waiters lock) = (s.perform env x plan).inLoop lock := by
    rw [waiters, counted, inLoop_congr others alike]
  cases effect : plan.effect with
  | countIn counted_in =>
    simp only [effect] at own
    by_cases here : lock = counted_in
    · subst here
      rw [inLoop_insert others (by simp [own.1]) own.2, ← counted]
      simp [perform, effect]
    · exact same (by simp [perform, effect, here]) (by simp [own.1, own.2, Ne.symm here])
  | countOut counted_out =>
    simp only [effect] at own
    by_cases here : lock = counted_out
    · subst here
      have before := counted lock
      rw [inLoop_insert (fun y apart => (others y apart).symm) (by simp [own.2]) own.1] at before
      cases waiters : s.waiters lock with
      | zero =>
        rw [waiters] at before
        exact absurd before.symm (by simp)
      | succ n =>
        rw [waiters, Nat.cast_succ] at before
        simpa [perform, effect, waiters] using before
    · exact same (by simp [perform, effect, here]) (by simp [own.1, own.2, Ne.symm here])
  | _ =>
    simp only [effect] at own
    exact same (by simp [perform, effect]) (by rw [own])

structure Sound (env : LockEnv) (s : LockState X) : Prop where
  chained : s.Chained env
  exclusive : s.Exclusive env
  owned : s.Owned
  listed : ∀ x, s.Listed x
  counted : ∀ lock, (s.waiters lock : ℕ∞) = s.inLoop lock
  waiting : ∀ x, s.waitingOn x = (s.pc x).waits

omit [DecidableEq X] in
theorem sound_start (env : LockEnv) : (start : LockState X).Sound env where
  chained := ⟨by simp [start], by simp [start], by simp [start, acquires]⟩
  exclusive := by simp [Exclusive, start, holds]
  owned := ⟨by simp [start], by simp [start, contests], by simp [start, expectsFree]⟩
  listed x := ⟨⟨[], .nil, .nil, by simp [start]⟩, trivial⟩
  counted := by simp [start, inLoop, LockPc.inLoop]
  waiting x := rfl

theorem sound_step (sound : s.Sound env) (event : ThreadEvent X) : (s.step env event).1.Sound env := by
  have move := planOf_move env s event
  exact ⟨chained_step sound.chained move, exclusive_step sound.chained sound.exclusive move,
    owned_step sound.exclusive sound.owned move, listed_step sound.listed sound.owned move,
    counted_step sound.counted move, waiting_step sound.waiting move⟩

theorem sound_run (env : LockEnv) (events : List (ThreadEvent X)) : (run (step env) start events).Sound env :=
  Base.run_invariant _ _ (fun _ event sound _ => sound_step sound event) (sound_start env) (Base.along_true _ _ _)

/- Nobody's locks and nobody's list. -/
def LocksKept (s t : LockState X) : Prop := s.SameOwners t ∧ t.heldLocksHead = s.heldLocksHead

/-- The call that the thread is in returns the code with the last of these events. -/
def Returns (env : LockEnv) (x : X) (code : HaCode) : LockState X → List (ThreadEvent X) → Prop
  | _, [] => False
  | s, event :: rest =>
    if event.thread = x ∧ (s.step env event).2 ≠ none then (s.step env event).2 = some code ∧ rest = []
    else Returns env x code (s.step env event).1 rest

theorem Move.unclaimed (move : Move env s x plan) (unclaimed : (s.pc x).unclaimed = true) :
    s.LocksKept (s.perform env x plan) ∧
        (plan.code = none ∧ plan.next.unclaimed = true ∨ plan.code ≠ none ∧ plan.next = .idle) ∨
      plan.code = some .ok ∨ plan.code = none ∧ ∃ lock, plan.next = .clearing lock true := by
  cases move with
  | claimAfterWalk at_x => exact .inr (.inr ⟨rfl, _, rfl⟩)
  | claim at_x last => exact .inr (.inl rfl)
  | acquire key at_x | release closes at_x | kill victim at_x | unlink at_x | freeLock at_x | forget at_x | queue at_x
  | point at_x | load at_x | broadcast at_x | pass at_x | unset at_x =>
    simp [at_x, LockPc.unclaimed, LockPc.acquires] at unclaimed
  | answer at_x => rcases at_x with ⟨at_x, -⟩ | ⟨at_x, -⟩ <;> simp [at_x, LockPc.unclaimed, LockPc.acquires] at unclaimed
  | stay at_x | pardon at_x =>
    exact .inl ⟨⟨⟨rfl, rfl, rfl⟩, update_eq_self _ _⟩, .inl ⟨rfl, at_x ▸ unclaimed⟩⟩
  | _ =>
    refine .inl ⟨⟨⟨rfl, rfl, rfl⟩, update_eq_self _ _⟩, ?_⟩
    simp [LockPc.unclaimed, LockPc.acquires]

theorem Move.claimed (move : Move env s x plan) (claimed : s.pc x = .clearing lock true) :
    plan.code = none ∧ plan.next = .clearing lock true ∨ plan.code = some .ok := by
  cases move with
  | stay at_x => exact .inl ⟨rfl, at_x.symm.trans claimed⟩
  | pardon at_x => exact .inl ⟨rfl, at_x.symm.trans claimed⟩
  | answer at_x => simp [claimed] at at_x
  | _ => simp_all

/- After the claim the call can only succeed. -/
theorem claimed_returns {code : HaCode} {events : List (ThreadEvent X)} (claimed : s.pc x = .clearing lock true)
    (returns : Returns env x code s events) : code = .ok := by
  induction events generalizing s with
  | nil => exact returns.elim
  | cons event rest ih =>
    rw [Returns] at returns
    by_cases own : event.thread = x
    · rcases (planOf_move env s event).claimed (own ▸ claimed) with ⟨none_yet, next⟩ | done
      · have code_eq : (s.step env event).2 = none := none_yet
        rw [if_neg (by simp [code_eq])] at returns
        refine ih ?_ returns
        rw [← own]
        exact perform_pc_self.trans next
      · have code_eq : (s.step env event).2 = some .ok := done
        rw [if_pos ⟨own, by simp [code_eq]⟩, code_eq] at returns
        exact (some.inj returns.1).symm
    · rw [if_neg (fun both => own both.1)] at returns
      have kept : ((s.step env event).1.pc x = .clearing lock true) = _ :=
        perform_pc_other (· = clearing lock true) (by simp) (Ne.symm own)
      exact ih (kept.mpr claimed) returns

/- A call that fails has claimed nothing on the way, and is not waiting any more. -/
theorem failed_call {code : HaCode} {events : List (ThreadEvent X)} (waiting : ∀ y, s.waitingOn y = (s.pc y).waits)
    (unclaimed : (s.pc x).unclaimed = true) (failed : code ≠ .ok) (returns : Returns env x code s events) :
    Along (step env) (fun s event => event.thread = x → s.LocksKept (s.step env event).1) s events ∧
      (run (step env) s events).waitingOn x = none := by
  induction events generalizing s with
  | nil => exact returns.elim
  | cons event rest ih =>
    rw [Returns] at returns
    have move := planOf_move env s event
    have later := waiting_step waiting move
    by_cases own : event.thread = x
    · subst own
      rcases move.unclaimed unclaimed with ⟨kept, going | ended⟩ | done | ⟨none_yet, lock, claimed⟩
      · have code_eq : (s.step env event).2 = none := going.1
        rw [if_neg (by simp [code_eq])] at returns
        obtain ⟨along, ends⟩ := ih later (by rw [← going.2]; exact congrArg _ perform_pc_self) returns
        exact ⟨⟨fun _ => kept, along⟩, ends⟩
      · rw [if_pos ⟨rfl, ended.1⟩] at returns
        obtain ⟨-, rfl⟩ := returns
        refine ⟨⟨fun _ => kept, trivial⟩, ?_⟩
        exact (later event.thread).trans (by rw [perform_pc_self, ended.2]; rfl)
      · have code_eq : (s.step env event).2 = some .ok := done
        rw [if_pos ⟨rfl, by simp [code_eq]⟩, code_eq] at returns
        exact absurd (some.inj returns.1).symm failed
      · have code_eq : (s.step env event).2 = none := none_yet
        rw [if_neg (by simp [code_eq])] at returns
        exact absurd (claimed_returns (perform_pc_self.trans claimed) returns) failed
    · rw [if_neg (fun both => own both.1)] at returns
      have kept : ((s.step env event).1.pc x).unclaimed = _ := perform_pc_other LockPc.unclaimed (fun _ => rfl) (Ne.symm own)
      obtain ⟨along, ends⟩ := ih later (kept.trans unclaimed) returns
      exact ⟨⟨fun same => absurd same own, along⟩, ends⟩

/-- A chain has a key once, the owner fields agree, a lock is once in its owner's list only, and
`waiters` counts the wait loops. A failed call has touched nothing. -/
structure TableInvariants (env : LockEnv) (s : LockState X) : Prop where
  distinct : ∀ p, ((s.chain p).map s.pk).Nodup
  owners : ∀ lock, (s.ownerTrx lock).isSome ↔ s.ownerTxnId lock ≠ 0
  held : ∀ x, ∃ held, Linked s.heldNext (s.heldFrom x) held ∧
    ∀ lock, held.count lock = if s.ownerTrx lock = some x then 1 else 0
  counted : ∀ lock, (s.waiters lock : ℕ∞) = s.inLoop lock
  failed : ∀ x key code later, s.pc x = .entering key → code ≠ .ok → Returns env x code s later →
    Along (step env) (fun s event => event.thread = x → s.LocksKept (s.step env event).1) s later ∧
      (run (step env) s later).waitingOn x = none

theorem lock_table_invariants (env : LockEnv) (events : List (ThreadEvent X)) :
    (run (step env) start events).TableInvariants env := by
  have sound := sound_run env events
  generalize run (step env) start events = s at sound
  refine ⟨sound.chained.distinct, fun lock => ?_, fun x => ?_, sound.counted, ?_⟩
  · rw [ne_eq, sound.owned.id_eq_zero_iff, isSome_iff_ne_none]
  · obtain ⟨⟨held, linked, nodup, owns⟩, -⟩ := sound.listed x
    refine ⟨held, linked, fun lock => ?_⟩
    rw [nodup.count]
    simp only [owns]
  · intro x key code later at_x failed returns
    exact failed_call sound.waiting (by rw [at_x]; rfl) failed returns

/- Two locks are taken, and the second is released. -/
def halfReleased : List (ThreadEvent Bool) :=
  .acquire true [1] :: List.replicate 4 (.advance true true) ++ .acquire true [2] :: List.replicate 4 (.advance true true) ++
    [.release true, .advance true true, .advance true true]

/-- While `row_locks_release_all` runs, a lock it has still to release is not in the list from
`held_locks_head` on. -/
theorem half_released_list : ¬ ∀ (env : LockEnv) (events : List (ThreadEvent Bool)) (x : Bool) (lock : Nat),
      (run (step env) start events).ownerTrx lock = some x →
        ∃ held, Linked (run (step env) start events).heldNext ((run (step env) start events).heldLocksHead x) held ∧
          held.count lock = 1 := by
  intro claim
  obtain ⟨held, linked, once⟩ := claim ⟨fun _ => 0, false⟩ halfReleased true 0 (by decide)
  have head : (run (step ⟨fun _ => 0, false⟩) start halfReleased).heldLocksHead true = some 1 := by decide
  have last : (run (step ⟨fun _ => 0, false⟩) start halfReleased).heldNext 1 = none := by decide
  rw [head] at linked
  obtain ⟨rest, rfl, tail⟩ := Linked.pop linked
  rw [last, Base.linked_none] at tail
  subst tail
  simp at once

end LockState

end TidesdbMysql
