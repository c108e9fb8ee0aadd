import Mathlib.Tactic.FinCases
import TidesdbMysql.Lock.Invariant

/-! The partition mutexes and the lifecycle lock against each other. -/
namespace TidesdbMysql

open Base (Bytes run)
open LockPc

namespace LockPc

variable {X : Type}

/- The partition whose mutex the thread is about to take. -/
def wantsMutex (env : LockEnv) (pk : Nat → Bytes) : LockPc X → Option Nat
  | .entering key => some (tdbLockPart env key)
  | .walked site lock _ => if site = .beforeWait then some (tdbLockPart env (pk lock)) else none
  | .woken lock | .unlinking lock _ _ | .broadcasting _ _ lock => some (tdbLockPart env (pk lock))
  | _ => none

def wantsRead : LockPc X → Bool
  | .walkStart _ _ | .pointed _ _ => true
  | _ => false

/- The thread has the lifecycle lock as a reader. -/
def reads : LockPc X → Bool
  | .walkAt _ _ _ _ | .walkHop _ _ _ _ | .broadcasting _ _ _ => true
  | _ => false

theorem holds_of_wantsMutex {env : LockEnv} {pk : Nat → Bytes} {pc : LockPc X} {p : Nat}
    (wants : pc.wantsMutex env pk = some p) : pc.holds env pk = none := by
  unfold wantsMutex at wants
  split at wants <;> simp_all [holds]

end LockPc

namespace LockState

variable {X : Type} [DecidableEq X] {env : LockEnv} {s : LockState X} {x y : X} {plan : LockPlan X}

/-- What a thread waits for is with another: a mutex, or the lifecycle lock, also behind a waiting
writer that is preferred. -/
inductive BlockedBy (env : LockEnv) (s : LockState X) (x y : X) : Prop
  | mutex (p : Nat) (wants : (s.pc x).wantsMutex env s.pk = some p) (held : s.mutex p = some y)
  | read (wants : (s.pc x).wantsRead = true) (first : env.writersFirst = true) (queued : y ∈ s.writers)
  | write (wants : s.pc x = .closing) (reads : y ∈ s.readers)

def Deadlocked (env : LockEnv) (s : LockState X) : Prop :=
  ∃ stuck : Set X, stuck.Nonempty ∧ ∀ x ∈ stuck, ∃ y ∈ stuck, s.BlockedBy env x y

theorem Move.reads (move : Move env s x plan) : match plan.gate with
    | .enter => (s.pc x).reads = false ∧ plan.next.reads = true
    | .leave => (s.pc x).reads = true ∧ plan.next.reads = false | _ => plan.next.reads = (s.pc x).reads := by
  cases move with
  | answer at_x => rcases at_x with ⟨at_x, -⟩ | ⟨at_x, -⟩ <;> simp [at_x, reads]
  | stay at_x => simp [at_x]
  | pardon at_x => simp [at_x]
  | _ => simp_all [reads]

theorem readers_step (readers : ∀ y, s.readers.count y = if (s.pc y).reads then 1 else 0) (move : Move env s x plan)
    (y : X) : (s.perform env x plan).readers.count y = if ((s.perform env x plan).pc y).reads then 1 else 0 := by
  have own := move.reads
  have before := readers y
  by_cases same : y = x
  · subst same
    rw [perform_pc_self]
    cases gate : plan.gate with
    | enter =>
      simp only [gate] at own
      simpa [perform, gate, own] using before
    | leave =>
      simp only [gate] at own
      simp [perform, gate, own, before]
    | _ =>
      simp only [gate] at own
      simpa [perform, gate, own] using before
  · rw [perform_pc_other reads (fun _ => rfl) same, ← before]
    cases gate : plan.gate with
    | enter => simp [perform, gate, Ne.symm same]
    | leave => simp [perform, gate, List.count_erase_of_ne same]
    | _ => simp [perform, gate]

theorem readers_run (env : LockEnv) (events : List (ThreadEvent X)) (y : X) :
    (run (step env) start events).readers.count y = if ((run (step env) start events).pc y).reads then 1 else 0 :=
  Base.run_invariant (step env) (fun s => ∀ y, s.readers.count y = if (s.pc y).reads then 1 else 0)
    (fun s event readers _ => readers_step readers (planOf_move env s event)) (fun _ => rfl) (Base.along_true _ _ _) y

/- Where writers have no preference, the holder of a mutex waits for nothing. -/
omit [DecidableEq X] in
theorem holder_unblocked (exclusive : s.Exclusive env) (shared : env.writersFirst = false) {p : Nat}
    (held : s.mutex p = some x) : ¬ s.BlockedBy env x y := by
  have holds := (exclusive x p).mpr held
  rintro (⟨q, wants, -⟩ | ⟨-, first, -⟩ | ⟨closing, -⟩)
  · cases (holds_of_wantsMutex wants).symm.trans holds
  · cases shared.symm.trans first
  · rw [closing] at holds
    cases holds

theorem reader_blocked (readers : ∀ y, s.readers.count y = if (s.pc y).reads then 1 else 0)
    (shared : env.writersFirst = false) (reads : x ∈ s.readers) (blocked : s.BlockedBy env x y) :
    ∃ p, s.mutex p = some y := by
  have reading : (s.pc x).reads = true := by
    by_contra idle
    have none_there := readers x
    rw [if_neg idle] at none_there
    exact List.count_eq_zero.mp none_there reads
  rcases blocked with ⟨p, -, held⟩ | ⟨-, first, -⟩ | ⟨closing, -⟩
  · exact ⟨p, held⟩
  · cases shared.symm.trans first
  · rw [closing] at reading
    cases reading

theorem not_deadlocked (exclusive : s.Exclusive env) (readers : ∀ y, s.readers.count y = if (s.pc y).reads then 1 else 0)
    (shared : env.writersFirst = false) : ¬ s.Deadlocked env := by
  rintro ⟨stuck, ⟨x, inside⟩, blocked⟩
  obtain ⟨y, there, blocks⟩ := blocked x inside
  rcases blocks with ⟨p, -, held⟩ | ⟨-, first, -⟩ | ⟨-, reads⟩
  · obtain ⟨z, -, further⟩ := blocked y there
    exact holder_unblocked exclusive shared held further
  · cases shared.symm.trans first
  · obtain ⟨z, beyond, further⟩ := blocked y there
    obtain ⟨p, held⟩ := reader_blocked readers shared reads further
    obtain ⟨_, -, last⟩ := blocked z beyond
    exact holder_unblocked exclusive shared held last

/- A transaction kills another that waits for its lock, while a third connection closes. -/
def killWhileClosing : List (ThreadEvent (Fin 3)) :=
  .acquire 0 [1] :: List.replicate 4 (.advance 0 true) ++
    .acquire 1 [1] :: List.replicate 8 (.advance 1 true) ++
    [.kill 0 1, .advance 0 true, .advance 0 true, .close 2, .advance 2 true]

/-- The killer reads and wants the mutex, the waiter has it and wants to read, and a closing
connection is to come first. -/
theorem kill_while_closing_deadlocks :
    (run (step ⟨fun _ => 0, true⟩) start killWhileClosing).Deadlocked ⟨fun _ => 0, true⟩ := by
  refine ⟨Set.univ, ⟨0, trivial⟩, fun x _ => ?_⟩
  fin_cases x
  · exact ⟨1, trivial, .mutex 0 (by decide) (by decide)⟩
  · exact ⟨2, trivial, .read (by decide) rfl (by decide)⟩
  · exact ⟨0, trivial, .write (by decide) (by decide)⟩

/-- The lock manager cannot deadlock on its own locks just where a waiting writer does not hold up
readers. -/
theorem lock_order_iff (writersFirst : Bool) :
    (∀ (hash : Bytes → Nat) (X : Type) [DecidableEq X] (events : List (ThreadEvent X)),
      ¬ (run (step ⟨hash, writersFirst⟩) start events).Deadlocked ⟨hash, writersFirst⟩) ↔ writersFirst = false := by
  constructor
  · intro never
    cases writersFirst with
    | false => rfl
    | true => exact absurd kill_while_closing_deadlocks (never (fun _ => 0) (Fin 3) killWhileClosing)
  · rintro rfl hash X _ events
    exact not_deadlocked (sound_run _ events).exclusive (readers_run _ events) rfl

theorem some_policy_deadlocks : ¬ ∀ (env : LockEnv) (X : Type) [DecidableEq X] (events : List (ThreadEvent X)),
    ¬ (run (step env) start events).Deadlocked env :=
  fun never => never _ (Fin 3) killWhileClosing kill_while_closing_deadlocks

end LockState

end TidesdbMysql
