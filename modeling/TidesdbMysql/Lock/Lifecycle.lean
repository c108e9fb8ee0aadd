import TidesdbMysql.Lock.Order

/-! Which transaction structures are read and written, and when they are freed. -/
namespace TidesdbMysql

open Base (run Along)
open LockPc

namespace LockPc

variable {X : Type}

def isFreed : LockPc X → Bool
  | .freed | .gone => true
  | _ => false

/- `tidesdb_close_connection` has released the locks. -/
def isClosed : LockPc X → Bool
  | .closing => true
  | pc => pc.isFreed

def walksAt : LockPc X → Option X
  | .walkAt _ _ cur _ => cur
  | _ => none

theorem closed_of_freed {pc : LockPc X} (freed : pc.isFreed = true) : pc.isClosed = true := by
  cases pc <;> first | rfl | cases freed

end LockPc

namespace LockState

variable {X : Type} [DecidableEq X] {env : LockEnv} {s : LockState X} {x y : X} {plan : LockPlan X}

section
variable (env s) (event : ThreadEvent X)

/- The structure the step reads or writes a field of. A comparison of pointers does neither. -/
def touches : ThreadEvent X → Option X
  | .release x | .close x => if s.pc x = .idle then some x else none
  | .advance x _ =>
    match s.pc x with
    | .publishing _ | .leaving _ _ | .claiming _ _ | .clearing _ _ | .releasing none _ => some x
    | .walkAt _ _ (some cur) depth => if depth < deadlockMaxDepth ∧ cur ≠ x then some cur else none
    | .pointed victim _ => if s.readGranted env then some victim else none
    | _ => none
  | _ => none

def TouchesLive : Prop :=
  ∀ y, s.touches env event = some y → (s.pc y).isFreed = false

/-- Where `kill_query` gets the lifecycle lock, the structure it has the address of is not freed yet. -/
def KillsLive : ThreadEvent X → Prop
  | .advance x _ => ∀ victim epoch, s.pc x = .pointed victim epoch → s.readGranted env = true →
    (s.pc victim).isFreed = false
  | _ => True

end

theorem Move.isClosed (move : Move env s x plan) (closed : plan.next.isClosed = true) :
    (s.pc x).isClosed = true ∧ plan.effect.headAfter (s.heldLocksHead x) = s.heldLocksHead x ∨
      plan.effect.headAfter (s.heldLocksHead x) = none := by
  cases move with
  | stay at_x => exact .inl ⟨at_x ▸ closed, rfl⟩
  | pardon at_x => exact .inl ⟨at_x ▸ closed, rfl⟩
  | _ => simp_all [isClosed, isFreed, LockEffect.headAfter]

theorem closed_step (emptied : ∀ y, (s.pc y).isClosed = true → s.heldLocksHead y = none) (move : Move env s x plan) (y : X)
    (closed : ((s.perform env x plan).pc y).isClosed = true) : (s.perform env x plan).heldLocksHead y = none := by
  by_cases same : y = x
  · subst same
    rw [perform_pc_self] at closed
    have head : (s.perform env y plan).heldLocksHead y = plan.effect.headAfter (s.heldLocksHead y) :=
      Function.update_self _ _ _
    rcases move.isClosed closed with ⟨before, kept⟩ | emptied_now
    · rw [head, kept]
      exact emptied y before
    · rw [head, emptied_now]
  · rw [perform_pc_other isClosed (fun _ => rfl) same] at closed
    exact (Function.update_of_ne same _ _).trans (emptied y closed)

/- A connection that has released its locks owns none. -/
omit [DecidableEq X] in
theorem closed_owns_nothing (listed : s.Listed y) (emptied : (s.pc y).isClosed = true → s.heldLocksHead y = none)
    (closed : (s.pc y).isClosed = true) (lock : Nat) : s.ownerTrx lock ≠ some y := by
  obtain ⟨⟨held, linked, -, owns⟩, -⟩ := listed
  have nowhere : s.heldFrom y = none := by
    rw [heldFrom, emptied closed]
    cases at_y : s.pc y <;> first | rfl | simp [at_y, isClosed, isFreed] at closed
  rw [nowhere, Base.linked_none] at linked
  subst linked
  exact fun own => List.not_mem_nil ((owns lock).mpr own)

/-- Once every thread has released its locks or is closed, no lock is owned or waited for and no mutex is taken. -/
theorem locks_free_at_rest (env : LockEnv) (events : List (ThreadEvent X)) (s : LockState X)
    (reached : run (step env) start events = s)
    (rest : ∀ x, s.pc x = .idle ∧ s.heldLocksHead x = none ∨ (s.pc x).isClosed = true) (lock : Nat) :
    s.ownerTrx lock = none ∧ s.ownerTxnId lock = 0 ∧ s.waiters lock = 0 ∧ s.mutex lock = none := by
  have emptied := Base.run_invariant (step env) (fun s => ∀ y, (s.pc y).isClosed = true → s.heldLocksHead y = none)
    (fun s event inv _ => closed_step inv (planOf_move env s event)) (s := start) (fun _ _ => rfl) (Base.along_true _ _ events)
  have sound := sound_run env events
  rw [reached] at emptied sound
  have quiet : ∀ x, (s.pc x).inLoop = none ∧ (s.pc x).holds env s.pk = none ∧ ∀ lock, s.ownerTrx lock ≠ some x := by
    intro x
    rcases rest x with ⟨idle, none_held⟩ | closed
    · obtain ⟨⟨held, linked, -, owns⟩, -⟩ := sound.listed x
      rw [heldFrom, idle, none_held] at linked
      obtain rfl := Base.linked_none.mp linked
      exact ⟨by rw [idle]; rfl, by rw [idle]; rfl, fun lock own => List.not_mem_nil ((owns lock).mpr own)⟩
    · refine ⟨?_, ?_, closed_owns_nothing (sound.listed x) (emptied x) closed⟩ <;> cases at_x : s.pc x <;>
        first | rfl | simp [at_x, isClosed, isFreed] at closed
  have unowned : s.ownerTrx lock = none := Option.eq_none_iff_forall_ne_some.mpr fun x => (quiet x).2.2 lock
  refine ⟨unowned, sound.owned.id_eq_zero_iff.mpr unowned, ?_, Option.eq_none_iff_forall_ne_some.mpr fun x taken => ?_⟩
  · have counted := sound.counted lock
    simpa [inLoop, (quiet _).1] using counted
  · cases (quiet x).2.1.symm.trans ((sound.exclusive x lock).mpr taken)

theorem released_lock_free : (run (step ⟨fun _ => 0, false⟩) start (.acquire true [1] ::
    List.replicate 4 (.advance true true) ++ .release true :: List.replicate 3 (.advance true true))).ownerTrx 0 = none :=
  (locks_free_at_rest _ _ _ rfl (by decide) 0).1

/- Where the walk stands, and who is freed. -/
theorem Move.walksAt (move : Move env s x plan) (next : plan.next.walksAt = some y) :
    (s.pc x).walksAt = some y ∨ ∃ lock, s.ownerTrx lock = some y := by
  cases move with
  | stay at_x => exact .inl (at_x ▸ next)
  | pardon at_x => exact .inl (at_x ▸ next)
  | walkStart | walkHop => exact .inr ⟨_, next⟩
  | _ => simp_all [walksAt]

theorem Move.isFreed (move : Move env s x plan) (freed : plan.next.isFreed = true) :
    (s.pc x).isFreed = true ∨ s.readers = [] := by
  cases move with
  | pass at_x unread => exact .inr unread
  | stay at_x => exact .inl (at_x ▸ freed)
  | pardon at_x => exact .inl (at_x ▸ freed)
  | _ => simp_all [isFreed]

structure Walks (s : LockState X) : Prop where
  readers : ∀ y, s.readers.count y = if (s.pc y).reads then 1 else 0
  emptied : ∀ y, (s.pc y).isClosed = true → s.heldLocksHead y = none
  live : ∀ x y, (s.pc x).walksAt = some y → (s.pc y).isFreed = false

omit [DecidableEq X] in
theorem reads_of_walksAt {pc : LockPc X} (at_y : pc.walksAt = some y) : pc.reads = true ∧ pc.isFreed = false := by
  cases pc <;> first | exact ⟨rfl, rfl⟩ | cases at_y

theorem walks_step (sound : s.Sound env) (walks : s.Walks) (move : Move env s x plan) :
    (s.perform env x plan).Walks := by
  refine ⟨readers_step walks.readers move, closed_step walks.emptied move, fun z y at_y => ?_⟩
  have live : (s.pc y).isFreed = false := by
    by_cases same : z = x
    · subst same
      rw [perform_pc_self] at at_y
      rcases move.walksAt at_y with before | ⟨lock, owner⟩
      · exact walks.live z y before
      · by_contra freed
        have closed := closed_of_freed (Bool.eq_true_of_not_eq_false freed)
        exact closed_owns_nothing (sound.listed y) (walks.emptied y) closed lock owner
    · rw [perform_pc_other walksAt (fun _ => rfl) same] at at_y
      exact walks.live z y at_y
  by_cases same : y = x
  · subst same
    rw [perform_pc_self]
    by_contra freed
    rcases move.isFreed (Bool.eq_true_of_not_eq_false freed) with before | unread
    · cases live.symm.trans before
    · -- whoever walks there has the lifecycle lock
      have apart : z ≠ y := by
        rintro rfl
        rw [perform_pc_self] at at_y
        exact freed (reads_of_walksAt at_y).2
      rw [perform_pc_other walksAt (fun _ => rfl) apart] at at_y
      have reading := walks.readers z
      rw [unread, (reads_of_walksAt at_y).1] at reading
      cases reading
  · rw [perform_pc_other isFreed (fun _ => rfl) same]
    exact live

theorem touchesLive_iff (walks : s.Walks) (event : ThreadEvent X) : s.TouchesLive env event ↔ s.KillsLive env event := by
  cases event with
  | advance x malloc =>
    cases at_x : s.pc x with
    | walkAt site lock cur depth =>
      refine iff_of_true (fun y touched => ?_) (by simp [KillsLive, at_x])
      cases cur with
      | none => simp [touches, at_x] at touched
      | some cur =>
        have live := walks.live x cur (by rw [at_x]; rfl)
        simp only [touches, at_x, Option.ite_none_right_eq_some, Option.some.injEq] at touched
        rwa [← touched.2]
    | releasing lock closes => cases lock <;> simp [TouchesLive, touches, KillsLive, at_x, isFreed]
    | _ => simp [TouchesLive, touches, KillsLive, at_x, isFreed]
  | release x | close x => by_cases idle : s.pc x = .idle <;> simp [TouchesLive, touches, KillsLive, idle, isFreed]
  | _ => simp [TouchesLive, touches, KillsLive]

/-- No freed structure is touched just when `kill_query` never gets the lifecycle lock on one freed
since it loaded the address. -/
theorem freed_never_touched_iff (env : LockEnv) (events : List (ThreadEvent X)) :
    Along (step env) (TouchesLive env) start events ↔ Along (step env) (KillsLive env) start events := by
  refine Base.along_congr (step env) (fun s => s.Sound env ∧ s.Walks) (fun s event inv _ => touchesLive_iff inv.2 event)
    (fun s event inv _ _ => ⟨sound_step inv.1 event, walks_step inv.1 inv.2 (planOf_move env s event)⟩) ⟨sound_start env, ?_⟩
    (Base.along_true _ _ _)
  exact ⟨fun _ => rfl, fun _ _ => rfl, fun _ _ at_y => by cases at_y⟩

/- The victim's connection closes between the load of its address and the lock. -/
def killAfterLoad : List (ThreadEvent Bool) :=
  [.kill true false, .advance true true, .close false, .advance false true, .advance false true, .advance true true]

theorem kill_touches_freed : ¬ ∀ (env : LockEnv) (X : Type) [DecidableEq X] (events : List (ThreadEvent X)),
      Along (step env) (TouchesLive env) start events := by
  intro claim
  have live := claim ⟨fun _ => 0, false⟩ Bool killAfterLoad
  exact absurd (live.2.2.2.2.2.1 false (by decide)) (by decide)

end LockState

end TidesdbMysql
