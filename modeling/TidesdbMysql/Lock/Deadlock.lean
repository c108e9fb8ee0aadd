import TidesdbMysql.Base.Follow
import TidesdbMysql.Lock.Invariant

/-! The deadlock walk: of the threads on a short cycle one is still to find it. -/
namespace TidesdbMysql

open Base (run follow)
open LockPc
open List

namespace LockState

variable {X : Type} [DecidableEq X] {env : LockEnv} {s : LockState X} {x y z : X} {plan : LockPlan X} {lock n : Nat}

/- The transaction another one waits for. -/
def blocker (s : LockState X) (x : X) : Option X := (s.waitingOn x).bind s.ownerTrx

/-- A thread neither asleep nor about to be, whose walk has kept to the cycle and not come around
it. -/
def OnGuard (s : LockState X) (n : Nat) (x : X) : Prop :=
  match s.pc x with
  | .asleep _ | .walked .inWait _ false => False
  | .walkAt .inWait _ cur depth => depth < n ∧ follow s.blocker (depth + 1) x = cur
  | .walkHop .inWait _ curWaiting depth =>
    depth + 1 < n ∧ ∃ cur, follow s.blocker (depth + 1) x = some cur ∧ s.waitingOn cur = some curWaiting
  | _ => True

def Guarded (s : LockState X) : Prop :=
  ∀ n x, 0 < n → n ≤ deadlockMaxDepth → follow s.blocker n x = some x →
    ∃ k y, follow s.blocker k x = some y ∧ s.OnGuard n y

/- A new edge of the graph comes from the thread that publishes its wait, or leads to the one that
claims a lock. -/
theorem blocker_cases (blocks : (s.perform env x plan).blocker y = some z) :
    s.blocker y = some z ∨ (∃ lock, plan.effect = .wait (some lock)) ∧ y = x ∨ (∃ lock, plan.effect = .claim lock) ∧ z = x := by
  obtain ⟨lock, waits, owns⟩ := Option.bind_eq_some_iff.mp blocks
  have published : s.waitingOn y = some lock ∨ plan.effect = .wait (some lock) ∧ y = x := by
    by_cases same : y = x
    · subst same
      simp only [perform, Function.update_self] at waits
      cases effect : plan.effect with
      | wait target =>
        rw [effect, LockEffect.waitAfter] at waits
        exact .inr ⟨congrArg _ waits, rfl⟩
      | forget => simp [effect, LockEffect.waitAfter] at waits
      | _ => exact .inl (by simpa [effect, LockEffect.waitAfter] using waits)
    · exact .inl (by simpa [perform, same] using waits)
  rcases published with waited | ⟨wait, same⟩
  · rcases perform_owner env s x plan lock with kept | freed | ⟨claim, claimed⟩
    · exact .inl (Option.bind_eq_some_iff.mpr ⟨lock, waited, kept ▸ owns⟩)
    · rw [freed] at owns
      cases owns
    · rw [claimed] at owns
      exact .inr (.inr ⟨⟨lock, claim⟩, (Option.some.inj owns).symm⟩)
  · exact .inr (.inl ⟨⟨lock, wait⟩, same⟩)

theorem waitingOn_kept (waiting : ∀ y, s.waitingOn y = (s.pc y).waits) (move : Move env s x plan)
    (before : s.blocker y = some z) (after : (s.perform env x plan).blocker y = some z) :
    (s.perform env x plan).waitingOn y = s.waitingOn y := by
  by_cases same : y = x
  · subst same
    have self : (s.perform env y plan).waitingOn y = plan.effect.waitAfter (s.waitingOn y) := Function.update_self _ _ _
    cases move with
    | publish at_x => simp [blocker, waiting, at_x, waits] at before
    | leaveGranted at_x | leave at_x _ _ | clear at_x | forget at_x | queue at_x =>
      simp [blocker, self, LockEffect.waitAfter] at after
    | _ => exact self
  · exact Function.update_of_ne same _ _

/- A walk around a cycle goes on until it has found it. -/
theorem walkOn_cycle {depth : Nat} (short : n ≤ deadlockMaxDepth) (inside : depth < n)
    (cycle : follow s.blocker n x = some x) :
    s.walkOn x (follow s.blocker (depth + 1) x) depth = .error true ∨ depth + 1 < n ∧
      ∃ cur curWaiting, follow s.blocker (depth + 1) x = some cur ∧ s.waitingOn cur = some curWaiting ∧
        s.walkOn x (follow s.blocker (depth + 1) x) depth = .ok curWaiting := by
  obtain ⟨cur, further, reached, on⟩ := Base.follow_on cycle (Nat.zero_lt_of_lt inside) (depth + 1)
  obtain ⟨curWaiting, waits, -⟩ := Option.bind_eq_some_iff.mp on
  have deep : depth < deadlockMaxDepth := Nat.lt_of_lt_of_le inside short
  rw [reached]
  by_cases around : cur = x
  · exact .inl (by simp [walkOn, deep, around])
  · refine .inr ⟨?_, cur, curWaiting, rfl, waits, by simp [walkOn, deep, around, waits]⟩
    rcases Nat.lt_or_ge (depth + 1) n with before | after
    · exact before
    · obtain rfl : depth + 1 = n := by omega
      rw [cycle] at reached
      exact absurd (Option.some.inj reached).symm around

theorem OnGuard.self (guard : s.OnGuard n x) (waiting : ∀ y, s.waitingOn y = (s.pc y).waits)
    (move : Move env s x plan) (kept : ∀ k, follow (s.perform env x plan).blocker k x = follow s.blocker k x)
    (positive : 0 < n) (short : n ≤ deadlockMaxDepth) (cycle : follow s.blocker n x = some x) :
    (s.perform env x plan).OnGuard n x := by
  have kept_waits (effect : plan.effect = .nothing ∨ plan.effect = .pardon) :
      (s.perform env x plan).waitingOn = s.waitingOn := by
    rcases effect with effect | effect <;> simp [perform, effect, LockEffect.waitAfter]
  unfold OnGuard at guard ⊢
  rw [perform_pc_self]
  simp only [kept]
  cases move with
  | stay at_x =>
    simp only [kept_waits (.inl rfl)]
    rwa [at_x] at guard
  | pardon at_x =>
    simp only [kept_waits (.inr rfl)]
    rwa [at_x] at guard
  | walkStart at_x granted =>
    rename_i site _
    cases site with
    | beforeWait => trivial
    | inWait =>
      have on := waiting x
      rw [at_x] at on
      exact ⟨positive, by simp [follow, blocker, on, waits]⟩
  | walkOn at_x further =>
    rename_i site _ _ _ _
    cases site with
    | beforeWait => trivial
    | inWait =>
      rw [at_x] at guard
      obtain ⟨inside, rfl⟩ := guard
      rcases walkOn_cycle short inside cycle with found | ⟨before, cur, curWaiting, reached, waits, goes⟩
      · cases further.symm.trans found
      · cases further.symm.trans goes
        exact ⟨before, cur, reached, by rw [kept_waits (.inl rfl)]; exact waits⟩
  | walkEnd at_x ends =>
    rename_i site _ _ _ foundCycle
    cases site with
    | beforeWait => trivial
    | inWait =>
      rw [at_x] at guard
      obtain ⟨inside, rfl⟩ := guard
      rcases walkOn_cycle short inside cycle with found | ⟨-, cur, curWaiting, -, -, goes⟩
      · cases ends.symm.trans found
        trivial
      · cases ends.symm.trans goes
  | walkHop at_x =>
    rename_i site _ _ _
    cases site with
    | beforeWait => trivial
    | inWait =>
      rw [at_x] at guard
      obtain ⟨before, cur, reached, waits⟩ := guard
      refine ⟨before, ?_⟩
      rw [follow, reached]
      simp [blocker, waits]
  | sleep at_x => simp [at_x] at guard
  | _ => trivial

theorem OnGuard.other (guard : s.OnGuard n y) (apart : y ≠ x)
    (kept : ∀ k, follow (s.perform env x plan).blocker k y = follow s.blocker k y)
    (waits : ∀ k z, follow s.blocker k y = some z → (s.perform env x plan).waitingOn z = s.waitingOn z) :
    (s.perform env x plan).OnGuard n y := by
  have same : (s.perform env x plan).pc y = s.pc y ∨ ∃ lock, s.pc y = .asleep lock := by
    simp only [perform, Function.update_of_ne apart]
    split
    · exact .inr ⟨_, by assumption⟩
    · exact .inl rfl
  unfold OnGuard at guard ⊢
  rcases same with same | ⟨lock, asleep⟩
  · simp only [same, kept]
    split at guard
    · exact guard.elim
    · exact guard.elim
    · exact guard
    · obtain ⟨before, cur, reached, waited⟩ := guard
      exact ⟨before, cur, reached, (waits _ _ reached).trans waited⟩
    · trivial
  · simp [asleep] at guard

theorem onGuard_new (move : Move env s x plan)
    (new : (∃ lock, plan.effect = .wait (some lock)) ∨ ∃ lock, plan.effect = .claim lock) :
    (s.perform env x plan).OnGuard n x := by
  unfold OnGuard
  rw [perform_pc_self]
  cases move with
  | publish at_x | claim at_x _ | claimAfterWalk at_x => trivial
  | _ => simp at new

theorem guarded_step (waiting : ∀ y, s.waitingOn y = (s.pc y).waits) (guarded : s.Guarded) (move : Move env s x plan) :
    (s.perform env x plan).Guarded := by
  intro n a positive short cycle
  by_cases old : ∀ k b c, follow (s.perform env x plan).blocker k a = some b →
      (s.perform env x plan).blocker b = some c → s.blocker b = some c
  · have same k : follow (s.perform env x plan).blocker k a = follow s.blocker k a := by
      obtain ⟨b, -, reached, -⟩ := Base.follow_on cycle positive k
      rw [reached, Base.follow_of_follow old reached]
    obtain ⟨k, y, reached, guard⟩ := guarded n a positive short (same n ▸ cycle)
    have reached' := (same k).trans reached
    have further j : follow (s.perform env x plan).blocker j y = follow s.blocker j y := by
      have one := same (k + j)
      rwa [Base.follow_add, Base.follow_add, reached', reached] at one
    refine ⟨k, y, reached', ?_⟩
    by_cases moves : y = x
    · subst moves
      exact guard.self waiting move further positive short (Base.follow_cycle (same n ▸ cycle) reached)
    · refine guard.other moves further fun j z at_z => ?_
      have at_z' : follow (s.perform env x plan).blocker (k + j) a = some z := by
        rw [Base.follow_add, reached']
        exact (further j).trans at_z
      obtain ⟨b, c, there, blocks⟩ := Base.follow_on cycle positive (k + j)
      obtain rfl : b = z := Option.some.inj (there.symm.trans at_z')
      exact waitingOn_kept waiting move (old _ _ _ there blocks) blocks
  · -- the thread that moves is on the cycle, and has just published its wait or claimed a lock
    push Not at old
    obtain ⟨k, b, c, reached, blocks, new⟩ := old
    rcases blocker_cases blocks with before | ⟨wait, rfl⟩ | ⟨claim, rfl⟩
    · exact absurd before new
    · exact ⟨k, b, reached, onGuard_new move (.inl wait)⟩
    · exact ⟨k + 1, c, by rw [follow, reached]; exact blocks, onGuard_new move (.inr claim)⟩

/-- The threads of the list all sleep, each on a lock of the next and the last on one of the first. -/
def AsleepInCycle (s : LockState X) (cycle : List X) : Prop :=
  ∀ i, ∀ x ∈ cycle[i]?, ∃ lock, s.pc x = .asleep lock ∧ s.ownerTrx lock = cycle[(i + 1) % cycle.length]?

omit [DecidableEq X] in
theorem AsleepInCycle.follow {cycle : List X} (waiting : ∀ y, s.waitingOn y = (s.pc y).waits)
    (asleep : s.AsleepInCycle cycle) (first : cycle[0]? = some x) (k : Nat) :
    follow s.blocker k x = cycle[k % cycle.length]? := by
  induction k with
  | zero => simpa [Base.follow] using first.symm
  | succ k ih =>
    rw [Base.follow, ih]
    have inside : k % cycle.length < cycle.length := Nat.mod_lt _ (List.getElem?_eq_some_iff.mp first).1
    obtain ⟨lock, at_k, owned⟩ := asleep _ _ (getElem?_eq_getElem inside)
    rw [getElem?_eq_getElem inside, Option.bind_some, blocker, waiting, at_k]
    simpa [waits] using owned

theorem guarded_run (env : LockEnv) (events : List (ThreadEvent X)) : (run (step env) start events).Guarded := by
  have keeps : ∀ (s : LockState X) event, s.Sound env ∧ s.Guarded → True →
      (step env s event).1.Sound env ∧ (step env s event).1.Guarded :=
    fun s event inv _ => ⟨sound_step inv.1 event, guarded_step inv.1.waiting inv.2 (planOf_move env s event)⟩
  have initial : (start : LockState X).Guarded := by
    intro n x positive _ cycle
    obtain ⟨b, c, -, blocks⟩ := Base.follow_on cycle positive 0
    cases blocks
  exact (Base.run_invariant _ _ keeps ⟨sound_start env, initial⟩ (Base.along_true _ _ _)).2

theorem short_deadlocks_detected (env : LockEnv) (events : List (ThreadEvent X)) :
    ¬ ∃ cycle, cycle ≠ [] ∧ cycle.length ≤ deadlockMaxDepth ∧ (run (step env) start events).AsleepInCycle cycle := by
  rintro ⟨cycle, nonempty, short, asleep⟩
  have positive := length_pos_iff.mpr nonempty
  have first := getElem?_eq_getElem positive
  have around := asleep.follow (sound_run env events).waiting first
  obtain ⟨k, y, reached, guard⟩ := guarded_run env events _ _ positive short (by rw [around, Nat.mod_self, first])
  rw [around] at reached
  obtain ⟨lock, at_y, -⟩ := asleep _ y reached
  simp [OnGuard, at_y] at guard

end LockState

end TidesdbMysql
