import TidesdbMysql.Lock.Rows

/-! Which row calls are made under the lock of their row. With `pessimistic_locking`, `index_read_map` locks
an exact read by the whole primary key in a statement that writes, `write_row` its new row, and nothing else
locks. -/
namespace TidesdbMysql

open Base (Bytes run Along)
open LockState LockPc
open List Function Option

/- How a statement comes to its rows. -/
inductive ReadPath where
  | fullKey (stmtHasWriteLock : Bool)
  | partialKey
  | range
  | secondaryIndex
  | tableScan
  deriving DecidableEq

inductive HandlerCall where
  | read (path : ReadPath) (pk : Bytes)
  | writeRow (pk : Bytes)
  | updateRow (oldPk newPk : Bytes)
  | deleteRow (pk : Bytes)
  deriving DecidableEq

namespace HandlerCall

def locks : HandlerCall → Option Bytes
  | .read (.fullKey true) pk | .writeRow pk => some pk
  | _ => none

/- The rows that the call changes without asking for a lock. -/
def changes : HandlerCall → List Bytes
  | .updateRow oldPk newPk => [oldPk, newPk]
  | .deleteRow pk => [pk]
  | _ => []

end HandlerCall

inductive HandlerEvent (X : Type) where
  | call (x : X) (call : HandlerCall)
  | finish (x : X)
  | thread (event : ThreadEvent X)

/-- Whether a thread is in `write_row`, the rows each has read by key for an update or inserted, and
those it has changed. -/
structure Statements (X : Type) where
  locks : LockState X
  inserts : X → Bool
  secured : X → List Bytes
  changed : X → List Bytes

namespace LockPc

variable {X : Type}

def ends : LockPc X → Bool
  | .releasing _ _ | .unlinking _ _ _ => true
  | _ => false

end LockPc

namespace LockState

variable {X : Type} [DecidableEq X] {env : LockEnv} {s : LockState X} {x y : X} {plan : LockPlan X} {lock : Nat} {pk : Bytes}

def Holds (s : LockState X) (x : X) (pk : Bytes) : Prop :=
  ∃ lock, lock < s.fresh ∧ s.pk lock = pk ∧ s.ownerTrx lock = some x

omit [DecidableEq X] in
theorem Holds.unique (chained : s.Chained env) (one : s.Holds x pk) (two : s.Holds y pk) : x = y := by
  obtain ⟨lock, below, key, owner⟩ := one
  obtain ⟨other, below', key', owner'⟩ := two
  have here := (chained.chained (tdbLockPart env pk) lock).mpr ⟨below, by rw [partition, key]⟩
  have there := (chained.chained (tdbLockPart env pk) other).mpr ⟨below', by rw [partition, key']⟩
  obtain rfl := inj_on_of_nodup_map (chained.distinct _) here there (key.trans key'.symm)
  exact some.inj (owner.symm.trans owner')

theorem fresh_le (env : LockEnv) (s : LockState X) (x : X) (plan : LockPlan X) : s.fresh ≤ (s.perform env x plan).fresh := by
  simp only [perform]
  split <;> omega

/- A step changes what its own thread owns, and only while it releases is that less. -/
theorem owner_other (sound : s.Sound env) (move : Move env s x plan) (apart : y ≠ x) (lock : Nat) :
    (s.perform env x plan).ownerTrx lock = some y ↔ s.ownerTrx lock = some y := by
  rcases move.tenure with ⟨claimed, site, at_x, claim, -⟩ | ⟨freed, next, closes, at_x, free, -⟩ | ⟨⟨-, same, -⟩, -⟩
  · rw [(perform_claim claim).2]
    by_cases here : lock = claimed
    · have unowned := sound.owned.unowned x claimed (congrArg expectsFree at_x)
      simp [here, unowned, Ne.symm apart]
    · simp [here]
  · rw [(perform_free free).2]
    by_cases here : lock = freed
    · simp [here, ((sound.listed x).unlinking at_x).1, Ne.symm apart]
    · simp [here]
  · rw [same]

theorem owner_self (move : Move env s x plan) (ends : (s.pc x).ends = false) :
    (s.perform env x plan).ownerTrx lock = some x ↔ s.ownerTrx lock = some x ∨ plan.effect = .claim lock := by
  rcases move.tenure with ⟨claimed, site, -, claim, -⟩ | ⟨freed, next, closes, at_x, -⟩ | ⟨⟨-, same, -⟩, -⟩
  · rw [(perform_claim claim).2, claim]
    by_cases here : lock = claimed
    · simp [here]
    · simp [here, Ne.symm here]
  · rw [at_x] at ends
    cases ends
  · refine ⟨fun own => .inl (same ▸ own), ?_⟩
    rintro (own | claim)
    · rwa [same]
    · simp [(perform_claim claim).2]

theorem Holds.step (sound : s.Sound env) (move : Move env s x plan) (ends : y = x → (s.pc x).ends = false)
    (holds : s.Holds y pk) : (s.perform env x plan).Holds y pk := by
  obtain ⟨lock, below, key, owner⟩ := holds
  refine ⟨lock, below.trans_le (fresh_le env s x plan), (perform_pk below).trans key, ?_⟩
  by_cases mine : y = x
  · subst mine
    exact (owner_self move (ends rfl)).mpr (.inl owner)
  · exact (owner_other sound move mine lock).mpr owner

theorem Move.ends (move : Move env s x plan) (before : (s.pc x).ends = true) (after : plan.next.ends = false) :
    ∃ closes, s.pc x = .releasing none closes := by
  cases move with
  | stay at_x | pardon at_x => cases (at_x ▸ before).symm.trans after
  | forget at_x => exact ⟨_, at_x⟩
  | answer at_x => rcases at_x with ⟨at_x, -⟩ | ⟨at_x, -⟩ <;> simp [at_x, ends] at before
  | _ => simp_all [ends]

theorem Move.ends_next (move : Move env s x plan) (after : plan.next.ends = true) :
    (s.pc x).ends = true ∨ s.pc x = .idle := by
  cases move with
  | stay at_x | pardon at_x => exact .inl (at_x ▸ after)
  | _ => simp_all [LockPc.ends]

theorem Move.cleared (move : Move env s x plan) (next : plan.next = .clearing lock true) :
    s.pc x = .clearing lock true ∨ plan.effect = .claim lock := by
  cases move with
  | stay at_x | pardon at_x => exact .inl (at_x.trans next)
  | _ => simp_all

/- A call of `row_lock_acquire` that succeeds leaves its thread with the lock. -/
theorem Move.granted (sound : s.Sound env) (cleared : ∀ lock, s.pc x = .clearing lock true → s.ownerTrx lock = some x)
    (move : Move env s x plan) (asked : (s.pc x).keyOf s.pk = some pk) (ok : plan.code = some .ok) :
    (s.perform env x plan).Holds x pk := by
  have held : ∃ lock, (s.pc x).acquires = some lock ∧ s.pk lock = pk ∧
      (s.ownerTrx lock = some x ∨ plan.effect = .claim lock) := by
    cases move with
    | reenter at_x own => exact ⟨_, by rw [at_x]; rfl, by simpa [at_x, LockPc.keyOf, LockPc.acquires] using asked, .inl own⟩
    | claim at_x => exact ⟨_, by rw [at_x]; rfl, by simpa [at_x, LockPc.keyOf, LockPc.acquires] using asked, .inr rfl⟩
    | clear at_x =>
      rename_i granted
      cases granted with
      | true =>
        exact ⟨_, by rw [at_x]; rfl, by simpa [at_x, LockPc.keyOf, LockPc.acquires] using asked, .inl (cleared _ at_x)⟩
      | false => cases ok
    | answer at_x => rcases at_x with ⟨at_x, -⟩ | ⟨at_x, -⟩ <;> simp [at_x, LockPc.keyOf, LockPc.acquires] at asked
    | _ => simp_all [LockPc.keyOf, LockPc.acquires]
  obtain ⟨lock, acquires, key, own⟩ := held
  have below := sound.chained.allocated x lock acquires
  refine ⟨lock, below.trans_le (fresh_le env s x plan), (perform_pk below).trans key, (owner_self move ?_).mpr own⟩
  cases at_x : s.pc x <;> simp_all [LockPc.ends, LockPc.acquires]

/-- A thread that holds the lock of a row is the only one to hold it until it releases its locks, whatever the
others do in between. -/
theorem held_alone_until_release (env : LockEnv) (events later : List (ThreadEvent X)) (x : X) (pk : Bytes)
    (held : (run (step env) start events).Holds x pk)
    (goes_on : Along (step env) (fun s event => event.thread = x → (s.pc x).ends = false)
      (run (step env) start events) later) (y : X) :
    (run (step env) start (events ++ later)).Holds y pk ↔ y = x := by
  rw [Base.run_append]
  have still := Base.run_invariant (step env) (fun s => s.Sound env ∧ s.Holds x pk)
    (fun s event inv keeps => ⟨sound_step inv.1 event,
      inv.2.step inv.1 (planOf_move env s event) fun own => own ▸ keeps own.symm⟩) ⟨sound_run env events, held⟩ goes_on
  refine ⟨fun other => other.unique still.1.chained still.2, ?_⟩
  rintro rfl
  exact still.2

/- Another thread asks for the lock of a row, finds it taken and goes to sleep. -/
theorem sleeper_does_not_hold : ¬ (run (step ⟨fun _ => 0, false⟩) start ((.acquire true [1] ::
      replicate 4 (.advance true true)) ++ .acquire false [1] :: replicate 9 (.advance false true))).Holds false [1] := by
  intro holds
  cases (held_alone_until_release _ _ _ true _ ⟨0, by decide, by decide, by decide⟩ (by decide) false).mp holds

end LockState

namespace Statements

variable {X : Type} [DecidableEq X]

def step (env : LockEnv) (s : Statements X) (event : HandlerEvent X) : Statements X × Unit :=
  (match event with
    | .call x call =>
      if s.locks.pc x = .idle then
        match call.locks with
        | some pk => ⟨(s.locks.step env (.acquire x pk)).1, Function.update s.inserts x (decide (call = .writeRow pk)),
            s.secured, s.changed⟩
        | none => { s with changed := Function.update s.changed x (call.changes ++ s.changed x) }
      else s
    | .finish x =>
      if s.locks.pc x = .idle then
        ⟨(s.locks.step env (.release x)).1, s.inserts, Function.update s.secured x [], Function.update s.changed x []⟩
      else s
    | .thread (.advance x malloc) =>
      match (s.locks.step env (.advance x malloc)).2, (s.locks.pc x).keyOf s.locks.pk with
      | some .ok, some pk => ⟨(s.locks.step env (.advance x malloc)).1, s.inserts,
          Function.update s.secured x (pk :: s.secured x),
          Function.update s.changed x (if s.inserts x then pk :: s.changed x else s.changed x)⟩
      | _, _ => { s with locks := (s.locks.step env (.advance x malloc)).1 }
    | .thread (.acquire _ _) | .thread (.release _) | .thread (.close _) => s
    | .thread event => { s with locks := (s.locks.step env event).1 }, ())

def start : Statements X := ⟨.start, fun _ => false, fun _ => [], fun _ => []⟩

/-- A row is updated or deleted under its lock, and nobody else has changed it and not ended yet. -/
def Covered (s : Statements X) : HandlerEvent X → Prop
  | .call x call => s.locks.pc x = .idle → ∀ pk ∈ call.changes, s.locks.Holds x pk ∧ ∀ y, y ≠ x → pk ∉ s.changed y
  | _ => True

/-- The transaction has read the row by its whole primary key in a statement that writes, or inserted it. -/
def Secured (s : Statements X) : HandlerEvent X → Prop
  | .call x call => s.locks.pc x = .idle → ∀ pk ∈ call.changes, pk ∈ s.secured x
  | _ => True

structure Kept (env : LockEnv) (s : Statements X) : Prop where
  sound : s.locks.Sound env
  cleared : ∀ x lock, s.locks.pc x = .clearing lock true → s.locks.ownerTrx lock = some x
  secured : ∀ x, ∀ pk ∈ s.secured x, s.locks.Holds x pk
  changed : ∀ x, ∀ pk ∈ s.changed x, s.locks.Holds x pk
  held : ∀ x lock, s.locks.ownerTrx lock = some x → lock < s.locks.fresh ∧
    (s.locks.pk lock ∈ s.secured x ∨ s.locks.pc x = .clearing lock true ∨ (s.locks.pc x).ends = true)
  ended : ∀ x, (s.locks.pc x).ends = true → s.secured x = [] ∧ s.changed x = []

variable {env : LockEnv} {s : Statements X} {x : X} {plan : LockPlan X} {secured changed : List Bytes}

section
variable (kept : s.Kept env) (event : HandlerEvent X) (inserts : X → Bool)
include kept

theorem Kept.allocated (move : s.locks.Move env x plan) {y : X} {lock : Nat}
    (owner : (s.locks.perform env x plan).ownerTrx lock = some y) : lock < s.locks.fresh := by
  rcases perform_owner env s.locks x plan lock with before | free | ⟨claim, -⟩
  · exact (kept.held y lock (before ▸ owner)).1
  · cases free.symm.trans owner
  · exact kept.sound.chained.allocated x lock (acquires_of_expectsFree (move.claims claim).1)

theorem Kept.held_self (move : s.locks.Move env x plan) (goes_on : plan.next.ends = false)
    (grows : ∀ pk, pk ∈ secured ↔ pk ∈ s.secured x ∨ plan.code = some .ok ∧ (s.locks.pc x).keyOf s.locks.pk = some pk)
    {lock : Nat} (owner : (s.locks.perform env x plan).ownerTrx lock = some x) :
    s.locks.pk lock ∈ secured ∨ plan.next = .clearing lock true := by
  cases ends : (s.locks.pc x).ends with
  | true =>
    -- the end of the list has been reached, and with it the last lock
    obtain ⟨closes, at_x⟩ := move.ends ends goes_on
    rcases move.tenure with ⟨_, _, claiming, -⟩ | ⟨_, _, _, unlinking, -⟩ | ⟨⟨-, same, -⟩, -⟩
    · cases at_x.symm.trans claiming
    · cases at_x.symm.trans unlinking
    · obtain ⟨⟨held, linked, -, owns⟩, -⟩ := kept.sound.listed x
      rw [LockState.heldFrom, at_x, LockPc.heldFrom, Base.linked_none] at linked
      rw [same, ← owns, linked] at owner
      cases owner
  | false =>
    rcases (owner_self move ends).mp owner with before | claim
    · obtain ⟨-, secured_before | cleared | ended⟩ := kept.held x lock before
      · exact .inl ((grows _).mpr (.inl secured_before))
      · rcases move.claimed cleared with ⟨-, next⟩ | ok
        · exact .inr next
        · exact .inl ((grows _).mpr (.inr ⟨ok, by rw [cleared]; rfl⟩))
      · cases ends.symm.trans ended
    · cases move with
      | claimAfterWalk at_x =>
        cases claim
        exact .inr rfl
      | claim at_x last =>
        cases claim
        exact .inl ((grows _).mpr (.inr ⟨rfl, by rw [at_x]; rfl⟩))
      | _ => cases claim

theorem Kept.moved (move : s.locks.Move env x plan) (sound : (s.locks.perform env x plan).Sound env)
    (ends : plan.next.ends = true → secured = [] ∧ changed = []) (grows : plan.next.ends = false → ∀ pk, pk ∈ secured ↔
      pk ∈ s.secured x ∨ plan.code = some .ok ∧ (s.locks.pc x).keyOf s.locks.pk = some pk)
    (inserted : ∀ pk ∈ changed, pk ∈ s.changed x ∨ pk ∈ secured) :
    Kept env ⟨s.locks.perform env x plan, inserts, Function.update s.secured x secured, Function.update s.changed x changed⟩ := by
  have kept_on : ∀ pk, plan.next.ends = false → pk ∈ s.secured x ∨ pk ∈ s.changed x →
      (s.locks.perform env x plan).Holds x pk := by
    intro pk _ before
    have goes_on : (s.locks.pc x).ends = false := by
      by_contra ended
      have none_left := kept.ended x (Bool.eq_true_of_not_eq_false ended)
      rw [none_left.1, none_left.2] at before
      simp at before
    exact (before.elim (kept.secured x pk) (kept.changed x pk)).step kept.sound move fun _ => goes_on
  have mine : ∀ pk ∈ secured, (s.locks.perform env x plan).Holds x pk := by
    intro pk inside
    cases after : plan.next.ends with
    | true => simp [(ends after).1] at inside
    | false =>
      rcases (grows after pk).mp inside with before | ⟨ok, asked⟩
      · exact kept_on pk after (.inl before)
      · exact move.granted kept.sound (kept.cleared x) asked ok
  refine ⟨sound, fun y lock at_y => ?_, fun y pk inside => ?_, fun y pk inside => ?_, fun y lock owner => ?_, fun y ended => ?_⟩
  · by_cases same : y = x
    · subst same
      rw [LockState.perform_pc_self] at at_y
      rcases move.cleared at_y with before | claim
      · exact (LockState.owner_self move (by rw [before]; rfl)).mpr (.inl (kept.cleared y lock before))
      · rw [(LockState.perform_claim claim).2, update_self]
    · have before : ((s.locks.perform env x plan).pc y = .clearing lock true) = _ :=
        LockState.perform_pc_other (· = LockPc.clearing lock true) (by simp) same
      exact (LockState.owner_other kept.sound move same lock).mpr (kept.cleared y lock (before ▸ at_y))
  · by_cases same : y = x
    · subst same
      exact mine pk (by simpa using inside)
    · simp only [update_of_ne same] at inside
      exact (kept.secured y pk inside).step kept.sound move fun here => absurd here same
  · by_cases same : y = x
    · subst same
      simp only [update_self] at inside
      cases after : plan.next.ends with
      | true => simp [(ends after).2] at inside
      | false => exact (inserted pk inside).elim (fun before => kept_on pk after (.inr before)) (mine pk)
    · simp only [update_of_ne same] at inside
      exact (kept.changed y pk inside).step kept.sound move fun here => absurd here same
  · have below := kept.allocated move owner
    refine ⟨below.trans_le (LockState.fresh_le ..), ?_⟩
    dsimp only
    rw [LockState.perform_pk below]
    by_cases same : y = x
    · subst same
      rw [LockState.perform_pc_self, update_self]
      cases after : plan.next.ends with
      | true => exact .inr (.inr rfl)
      | false => exact (kept.held_self move after (grows after) owner).imp_right .inl
    · have cleared : ((s.locks.perform env x plan).pc y = .clearing lock true) = _ :=
        LockState.perform_pc_other (· = LockPc.clearing lock true) (by simp) same
      rw [update_of_ne same, cleared, LockState.perform_pc_other LockPc.ends (fun _ => rfl) same]
      exact (kept.held y lock ((LockState.owner_other kept.sound move same lock).mp owner)).2
  · by_cases same : y = x
    · subst same
      rw [LockState.perform_pc_self] at ended
      simpa using ends ended
    · rw [LockState.perform_pc_other LockPc.ends (fun _ => rfl) same] at ended
      simpa [same] using kept.ended y ended

theorem Kept.quiet {event : ThreadEvent X}
    (ends : (s.locks.planOf env event).next.ends = true → (s.locks.pc event.thread).ends = true)
    (nothing : (s.locks.step env event).2 = some .ok → (s.locks.pc event.thread).keyOf s.locks.pk = none) :
    Kept env ⟨(s.locks.step env event).1, inserts, s.secured, s.changed⟩ := by
  have moved := kept.moved inserts (planOf_move env s.locks event) (sound_step kept.sound event)
    (fun after => kept.ended _ (ends after)) (fun _ pk => (or_iff_left fun both => ?_).symm) fun pk inside => .inl inside
  · rw [update_eq_self, update_eq_self] at moved
    exact moved
  · cases (nothing both.1).symm.trans both.2

theorem Kept.step (covered : s.Covered event) : (s.step env event).1.Kept env := by
  have move := fun event => LockState.planOf_move env s.locks event
  have sound := fun event => LockState.sound_step kept.sound event
  cases event with
  | call x call =>
    simp only [Statements.step]
    by_cases idle : s.locks.pc x = .idle
    · rw [if_pos idle]
      cases locks : call.locks with
      | some pk =>
        refine kept.quiet _ ?_ ?_ <;> simp [LockState.step, LockState.planOf, ThreadEvent.thread, idle, LockPc.ends]
      | none =>
        refine ⟨kept.sound, kept.cleared, kept.secured, fun y pk inside => ?_, kept.held, fun y ended => ?_⟩
        · by_cases same : y = x
          · subst same
            simp only [update_self, mem_append] at inside
            exact inside.elim (fun changes => (covered idle pk changes).1) (kept.changed y pk)
          · simp only [update_of_ne same] at inside
            exact kept.changed y pk inside
        · have same : y ≠ x := by
            rintro rfl
            rw [idle] at ended
            cases ended
          simpa [same] using kept.ended y ended
    · rwa [if_neg idle]
  | finish x =>
    simp only [Statements.step]
    by_cases idle : s.locks.pc x = .idle
    · rw [if_pos idle]
      refine kept.moved _ (move (.release x)) (sound (.release x)) (fun _ => ⟨rfl, rfl⟩) (fun after => ?_) (by simp)
      simp [LockState.planOf, ThreadEvent.thread, idle, LockPc.ends] at after
    · rwa [if_neg idle]
  | thread event =>
    have ends : ∀ event : ThreadEvent X, (s.locks.pc event.thread = .idle → (s.locks.planOf env event).next.ends = false) →
        (s.locks.planOf env event).next.ends = true → (s.locks.pc event.thread).ends = true := by
      intro event starts after
      exact ((move event).ends_next after).resolve_right fun idle => by cases (starts idle).symm.trans after
    cases event with
    | advance x malloc =>
      have stays := ends (.advance x malloc) fun idle => by
        have idle : s.locks.pc x = .idle := idle
        simp [LockState.planOf, LockState.plan, idle, LockPc.ends]
      simp only [Statements.step]
      split
      · next pk ok asked =>
        refine kept.moved _ (move (.advance x malloc)) (sound (.advance x malloc)) (fun after => ?_) (fun _ other => ?_)
          (fun other inside => ?_)
        · have none_asked : (s.locks.pc x).keyOf s.locks.pk = none := by
            have ended : (s.locks.pc x).ends = true := stays after
            cases at_x : s.locks.pc x <;> simp_all [LockPc.ends, LockPc.keyOf, LockPc.acquires]
          cases none_asked.symm.trans asked
        · have told : (s.locks.planOf env (.advance x malloc)).code = some .ok := ok
          have asked : (s.locks.pc (ThreadEvent.advance x malloc).thread).keyOf s.locks.pk = some pk := asked
          rw [told, asked, mem_cons, or_comm, and_iff_right rfl, some.injEq, @eq_comm _ pk]
          exact Iff.rfl
        · split at inside
          · exact (mem_cons.mp inside).elim (fun same => .inr (same ▸ mem_cons_self)) .inl
          · exact .inl inside
      · next other =>
        refine kept.quiet _ stays fun ok => ?_
        by_contra asked
        obtain ⟨pk, asked⟩ := ne_none_iff_exists'.mp asked
        exact other pk ok asked
    | acquire | release | close => exact kept
    | kill x victim =>
      refine kept.quiet _ (ends (.kill x victim) fun idle => ?_) fun ok => ?_
      · have idle : s.locks.pc x = .idle := idle
        simp [LockState.planOf, ThreadEvent.thread, idle, LockPc.ends]
      · simp only [LockState.step, LockState.planOf] at ok
        split at ok <;> cases ok
    | pardon x =>
      refine kept.quiet _ (ends (.pardon x) fun idle => ?_) fun ok => by cases ok
      exact congrArg LockPc.ends idle
    | wake x =>
      refine kept.quiet _ (ends (.wake x) fun idle => ?_) fun ok => by cases ok
      have idle : s.locks.pc x = .idle := idle
      simp [LockState.planOf, idle, LockPc.ends]

end

omit [DecidableEq X] in
theorem covered_iff (kept : s.Kept env) (event : HandlerEvent X) : s.Covered event ↔ s.Secured event := by
  cases event with
  | call x call =>
    refine forall_congr' fun idle => forall₂_congr fun pk inside => ⟨fun covered => ?_, fun secured => ⟨?_, ?_⟩⟩
    · obtain ⟨lock, -, rfl, owner⟩ := covered.1
      simpa [idle, ends] using (kept.held x lock owner).2
    · exact kept.secured x pk secured
    · intro y apart changed
      exact apart ((kept.changed y pk changed).unique kept.sound.chained (kept.secured x pk secured))
  | _ => exact Iff.rfl

/-- Every update and delete is made under its row's lock, over no unfinished change, just when each
row is first read by its whole primary key in a statement that writes, or inserted; the new key
too. -/
theorem coverage_iff (env : LockEnv) (events : List (HandlerEvent X)) :
    Along (step env) Covered start events ↔ Along (step env) Secured start events := by
  refine Base.along_congr (step env) (Kept env) (fun s event kept _ => covered_iff kept event)
    (fun s event kept _ covered => kept.step event covered) ⟨LockState.sound_start env, ?_, ?_, ?_, ?_, ?_⟩
    (Base.along_true _ _ _)
  all_goals simp [start, LockState.start, LockPc.ends]

/- Two transactions update a row that each has found by a scan. -/
theorem scanned_row_uncovered : ¬ ∀ (env : LockEnv) (X : Type) [DecidableEq X] (events : List (HandlerEvent X)),
      Along (step env) Covered start events := by
  intro claim
  have covered := claim ⟨fun _ => 0, false⟩ Bool [.call true (.read .tableScan [1]), .call false (.read .tableScan [1]),
    .call true (.updateRow [1] [1]), .call false (.updateRow [1] [1])]
  obtain ⟨-, -, -, second, -⟩ := covered
  exact (second rfl [1] (by decide)).2 true (by decide) (by decide)

end Statements

end TidesdbMysql
