import Mathlib.Data.Set.Function
import TidesdbMysql.Lock.Invariant

/-! Which rows a lock stands for. `index_read_map` and `write_row` pass the comparable primary key alone. -/
namespace TidesdbMysql

open Base (Bytes run Along)
open LockState LockPc
open Option

variable {lock : Nat}

/-- The table, and the comparable primary key in it. -/
abbrev TableRow := Nat × Bytes

/- The lock table, with the row of each thread's last request and the row each lock was last taken for. -/
structure RowState (X : Type) where
  locks : LockState X
  asks : X → Option TableRow
  took : Nat → Option TableRow

namespace LockPc

variable {X : Type}

def keyOf (pk : Nat → Bytes) : LockPc X → Option Bytes
  | .entering key | .searching key => some key
  | pc => pc.acquires.map pk

/- The thread has found its lock with another, and is going to wait. -/
def decides : LockPc X → LockPc X → Option Nat
  | .found _, .publishing lock => some lock
  | .waitLoop _, .walkStart _ lock => some lock
  | _, _ => none

/- The lock the thread waits for, or is about to publish. -/
def bars : LockPc X → Option Nat
  | .publishing lock => some lock
  | pc => pc.waits

theorem acquires_of_bars {pc : LockPc X} (bars : pc.bars = some lock) : pc.acquires = some lock := by
  unfold LockPc.bars at bars
  split at bars
  · exact bars
  · unfold waits at bars
    split at bars <;> simp_all [acquires]

theorem acquires_of_expectsFree {pc : LockPc X} (expects : pc.expectsFree = some lock) : pc.acquires = some lock := by
  unfold expectsFree at expects
  split at expects <;> simp_all [acquires]

theorem keyOf_congr {pk pk' : Nat → Bytes} {pc : LockPc X} (same : ∀ lock, pc.acquires = some lock → pk' lock = pk lock) :
    pc.keyOf pk' = pc.keyOf pk := by
  cases pc <;> simp_all [keyOf, acquires]

end LockPc

namespace RowState

variable {X : Type} [DecidableEq X]

def step (env : LockEnv) (s : RowState X) (event : ThreadEvent X × Nat) : RowState X × Option HaCode :=
  (⟨(s.locks.step env event.1).1,
    match event.1 with
    | .acquire x pk => if s.locks.pc x = .idle then Function.update s.asks x (some (event.2, pk)) else s.asks
    | _ => s.asks,
    match (s.locks.planOf env event.1).effect with
    | .claim lock => Function.update s.took lock (s.asks event.1.thread)
    | _ => s.took⟩, (s.locks.step env event.1).2)

def start : RowState X := ⟨.start, fun _ => none, fun _ => none⟩

/-- A request waits only for a lock held, and a deadlock is reported only over a lock taken, for the
same row. -/
def SameRow (env : LockEnv) (s : RowState X) (event : ThreadEvent X × Nat) : Prop :=
  (∀ lock, (s.locks.pc event.1.thread).decides (s.locks.planOf env event.1).next = some lock →
    s.took lock = s.asks event.1.thread ∧ ∃ y, y ≠ event.1.thread ∧ s.locks.ownerTrx lock = some y) ∧
  ((s.locks.step env event.1).2 = some .lockDeadlock →
    ∀ lock, s.locks.waitingOn event.1.thread = some lock → s.took lock = s.asks event.1.thread)

/- The tables and keys the requests of a run are for. -/
def Within (rows : Set TableRow) (event : ThreadEvent X × Nat) : Prop :=
  match event.1 with
  | .acquire _ pk => (event.2, pk) ∈ rows
  | _ => True

variable {env : LockEnv} {s : RowState X} {rows : Set TableRow} {event : ThreadEvent X × Nat}

structure Named (rows : Set TableRow) (s : RowState X) : Prop where
  asked : ∀ x key, (s.locks.pc x).keyOf s.locks.pk = some key → ∃ row ∈ rows, s.asks x = some row ∧ row.2 = key
  taken : ∀ lock row, s.took lock = some row → row ∈ rows ∧ row.2 = s.locks.pk lock ∧ lock < s.locks.fresh
  owned : ∀ lock, s.locks.ownerTrx lock ≠ none → s.took lock ≠ none
  barred : ∀ x lock, (s.locks.pc x).bars = some lock → s.took lock ≠ none

omit [DecidableEq X] in
theorem Named.acquired (named : s.Named rows) {x : X} (acquires : (s.locks.pc x).acquires = some lock) :
    ∃ row ∈ rows, s.asks x = some row ∧ row.2 = s.locks.pk lock := by
  refine named.asked x _ ?_
  cases at_x : s.locks.pc x <;> simp_all [LockPc.keyOf, LockPc.acquires]

/- Where the keys tell the rows apart, a lock is taken for the row that is asked for. -/
omit [DecidableEq X] in
theorem Named.same (named : s.Named rows) (apart : rows.InjOn Prod.snd) {x : X}
    (acquires : (s.locks.pc x).acquires = some lock) (taken : s.took lock ≠ none) : s.took lock = s.asks x := by
  obtain ⟨row, inside, asked, key⟩ := named.acquired acquires
  obtain ⟨other, took⟩ := ne_none_iff_exists'.mp taken
  obtain ⟨there, key', -⟩ := named.taken lock other took
  rw [took, asked, apart there inside (key'.trans key.symm)]

theorem move_decides {s : LockState X} {x : X} {plan : LockPlan X} (move : s.Move env x plan)
    (decides : (s.pc x).decides plan.next = some lock) :
    s.ownerTxnId lock ≠ 0 ∧ (s.pc x).acquires = some lock ∧ plan.next.contests = some lock := by
  cases move with
  | contest at_x foreign owned | recheck at_x owned =>
    rw [at_x] at decides
    cases decides
    exact ⟨owned, by rw [at_x]; rfl, rfl⟩
  | stay at_x | pardon at_x =>
    rw [at_x] at decides
    unfold LockPc.decides at decides
    split at decides <;> simp_all
  | answer at_x => rcases at_x with ⟨at_x, -⟩ | ⟨at_x, -⟩ <;> simp [at_x, LockPc.decides] at decides
  | _ => simp_all [LockPc.decides]

theorem sameRow_of_apart (sound : s.locks.Sound env) (named : s.Named rows) (apart : rows.InjOn Prod.snd)
    (event : ThreadEvent X × Nat) : s.SameRow env event := by
  have move := LockState.planOf_move env s.locks event.1
  refine ⟨fun lock decides => ?_, fun _ lock waits => ?_⟩
  · obtain ⟨id, acquires, contests⟩ := move_decides move decides
    have held : s.locks.ownerTrx lock ≠ none := fun free => id (sound.owned.id_eq_zero_iff.mpr free)
    obtain ⟨owner, owns⟩ := ne_none_iff_exists'.mp held
    refine ⟨named.same apart acquires (named.owned lock held), owner, ?_, owns⟩
    rintro rfl
    exact sound.owned.contests move contests owns
  · rw [sound.waiting] at waits
    have bars : (s.locks.pc event.1.thread).bars = some lock := by
      cases at_x : s.locks.pc event.1.thread <;> simp_all [LockPc.bars, LockPc.waits]
    exact named.same apart (LockPc.acquires_of_bars bars) (named.barred _ _ bars)

theorem move_keyOf {s : LockState X} {x : X} {plan : LockPlan X} {key : Bytes} (move : s.Move env x plan)
    (next : plan.next.keyOf (s.perform env x plan).pk = some key) :
    (s.pc x).keyOf s.pk = some key ∨ s.pc x = .idle ∧ plan.next = .entering key := by
  cases move with
  | acquire pk at_x => exact .inr ⟨at_x, by simpa [keyOf] using next⟩
  | found at_x there => exact .inl (by simpa [at_x, keyOf, acquires, perform, (find_some there).2] using next)
  | create at_x missing => exact .inl (by simpa [at_x, keyOf, acquires, perform] using next)
  | stay at_x | pardon at_x => exact .inl (at_x ▸ next)
  | _ => simp_all [keyOf, acquires, perform]

theorem move_bars {s : LockState X} {x : X} {plan : LockPlan X} (move : s.Move env x plan)
    (next : plan.next.bars = some lock) : (s.pc x).bars = some lock ∨ s.ownerTxnId lock ≠ 0 := by
  cases move with
  | contest at_x foreign owned =>
    cases next
    exact .inr owned
  | stay at_x | pardon at_x => exact .inl (at_x ▸ next)
  | _ => simp_all [bars, waits]

theorem asked_step (sound : s.locks.Sound env) (named : s.Named rows) (within : Within rows event) (y : X) (key : Bytes)
    (keyed : ((s.step env event).1.locks.pc y).keyOf (s.step env event).1.locks.pk = some key) :
    ∃ row ∈ rows, (s.step env event).1.asks y = some row ∧ row.2 = key := by
  have move := LockState.planOf_move env s.locks event.1
  simp only [step, LockState.step] at keyed
  by_cases mine : y = event.1.thread
  · subst mine
    rw [LockState.perform_pc_self] at keyed
    rcases move_keyOf move keyed with before | ⟨idle, entering⟩
    · have busy : s.locks.pc event.1.thread ≠ .idle := by
        intro idle
        rw [idle] at before
        cases before
      have kept : (s.step env event).1.asks = s.asks := by
        obtain ⟨event, table⟩ := event
        cases event <;> simp_all [step, ThreadEvent.thread]
      rw [kept]
      exact named.asked _ key before
    · obtain ⟨event, table⟩ := event
      cases event with
      | acquire x pk =>
        have idle : s.locks.pc x = .idle := idle
        obtain rfl : pk = key := by simpa [LockState.planOf, ThreadEvent.thread, idle] using entering
        exact ⟨(table, pk), within, by simp [step, idle, ThreadEvent.thread], rfl⟩
      | _ => simp_all [LockState.planOf, LockState.plan, ThreadEvent.thread]
  · have kept : (s.step env event).1.asks y = s.asks y := by
      obtain ⟨event, table⟩ := event
      cases event with
      | acquire x pk =>
        simp only [step]
        split
        · exact Function.update_of_ne mine _ _
        · rfl
      | _ => rfl
    rw [kept]
    refine named.asked y key ?_
    rw [LockState.perform_pc_other (LockPc.keyOf _) (fun _ => rfl) mine] at keyed
    rwa [LockPc.keyOf_congr fun lock acquired => LockState.perform_pk (sound.chained.allocated y lock acquired)] at keyed

theorem took_step (env : LockEnv) (s : RowState X) (event : ThreadEvent X × Nat) (lock : Nat) :
    (s.step env event).1.took lock = s.took lock ∧ (s.locks.planOf env event.1).effect ≠ .claim lock ∨
      (s.locks.planOf env event.1).effect = .claim lock ∧ (s.step env event).1.took lock = s.asks event.1.thread := by
  simp only [step]
  cases (s.locks.planOf env event.1).effect with
  | claim claimed => by_cases here : lock = claimed <;> simp [here, Ne.symm]
  | _ => simp

theorem named_step (sound : s.locks.Sound env) (named : s.Named rows) (within : Within rows event) :
    (s.step env event).1.Named rows := by
  have move := LockState.planOf_move env s.locks event.1
  have claimed : ∀ lock, (s.locks.planOf env event.1).effect = .claim lock →
      ∃ row ∈ rows, s.asks event.1.thread = some row ∧ row.2 = s.locks.pk lock ∧ lock < s.locks.fresh := by
    intro lock claim
    have acquires := LockPc.acquires_of_expectsFree (move.claims claim).1
    obtain ⟨row, inside, asked, key⟩ := named.acquired acquires
    exact ⟨row, inside, asked, key, sound.chained.allocated _ _ acquires⟩
  have grows : ∀ lock, s.took lock ≠ none → (s.step env event).1.took lock ≠ none := by
    intro lock taken
    rcases took_step env s event lock with ⟨kept, -⟩ | ⟨claim, took⟩
    · rwa [kept]
    · obtain ⟨row, -, asked, -⟩ := claimed lock claim
      simp [took, asked]
  refine ⟨asked_step sound named within, fun lock row took => ?_, fun lock owned => ?_, fun y lock bars => ?_⟩
  · have below : s.locks.fresh ≤ (s.step env event).1.locks.fresh := by
      simp only [step, LockState.step, LockState.perform]
      split <;> omega
    obtain ⟨inside, key, old⟩ : row ∈ rows ∧ row.2 = s.locks.pk lock ∧ lock < s.locks.fresh := by
      rcases took_step env s event lock with ⟨kept, -⟩ | ⟨claim, now⟩
      · exact named.taken lock row (kept ▸ took)
      · obtain ⟨asked_row, inside, asked, key, old⟩ := claimed lock claim
        obtain rfl : asked_row = row := some.inj (asked.symm.trans (now.symm.trans took))
        exact ⟨inside, key, old⟩
    exact ⟨inside, key.trans (LockState.perform_pk old).symm, old.trans_le below⟩
  · rcases LockState.perform_owner env s.locks event.1.thread (s.locks.planOf env event.1) lock with kept | free | ⟨claim, -⟩
    · exact grows lock (named.owned lock (kept ▸ owned))
    · exact absurd free owned
    · obtain ⟨row, -, asked, -⟩ := claimed lock claim
      rcases took_step env s event lock with ⟨-, other⟩ | ⟨-, now⟩
      · exact absurd claim other
      · simp [now, asked]
  · refine grows lock ?_
    simp only [step, LockState.step] at bars
    by_cases mine : y = event.1.thread
    · subst mine
      rw [LockState.perform_pc_self] at bars
      rcases move_bars move bars with before | id
      · exact named.barred _ lock before
      · exact named.owned lock fun free => id (sound.owned.id_eq_zero_iff.mpr free)
    · rw [LockState.perform_pc_other LockPc.bars (fun _ => rfl) mine] at bars
      exact named.barred y lock bars

/- One thread gets the lock of a row, and another has come to the search for that of the other row. -/
def twoTables (one two : Nat) (pk : Bytes) : List (ThreadEvent Bool × Nat) :=
  (.acquire true pk, one) :: List.replicate 4 (.advance true true, one) ++ [(.acquire false pk, two), (.advance false true, two)]

theorem twoTables_blocked (one two : Nat) (pk : Bytes)
    (same : Along (step ⟨fun _ => 0, false⟩) (SameRow ⟨fun _ => 0, false⟩) start (twoTables one two pk ++ List.replicate 2 (.advance false true, two))) :
    one = two := by
  obtain ⟨-, -, ⟨same, -⟩, -⟩ := (Base.along_append ..).mp same
  generalize reached : run (step ⟨fun _ => 0, false⟩) start (twoTables one two pk) = s at same
  have searching : s.locks.pc false = .searching pk := by rw [← reached]; rfl
  have found : s.locks.find ⟨fun _ => 0, false⟩ pk = some 0 := by
    have chain : s.locks.chain 0 = [0] := by rw [← reached]; rfl
    have key : s.locks.pk 0 = pk := by rw [← reached]; rfl
    have here : tdbLockPart ⟨fun _ => 0, false⟩ pk = 0 := rfl
    simp [find, here, chain, key]
  have owner : s.locks.ownerTxnId 0 = lockTxnId ∧ s.locks.ownerTrx 0 = some true := by rw [← reached]; exact ⟨rfl, rfl⟩
  have took : s.took 0 = some (one, pk) := by rw [← reached]; rfl
  have asks : s.asks false = some (two, pk) := by rw [← reached]; rfl
  simpa [step, LockState.step, LockState.planOf, LockState.plan, ThreadEvent.thread, searching, found, LockState.perform, owner,
    decides, lockTxnId, took, asks] using same 0

/-- Requests conflict on the same row only, just when no two rows in use have the same comparable
key, as rows of different tables can. -/
theorem same_row_iff (rows : Set TableRow) :
    (∀ (env : LockEnv) (X : Type) [DecidableEq X] (events : List (ThreadEvent X × Nat)),
      (∀ event ∈ events, Within rows event) → Along (step env) (SameRow env) start events) ↔ rows.InjOn Prod.snd := by
  constructor
  · rintro same ⟨one, pk⟩ first ⟨two, pk'⟩ second rfl
    have blocked := same ⟨fun _ => 0, false⟩ Bool (twoTables one two pk ++ List.replicate 2 (.advance false true, two))
      (by simp_all [twoTables, Within])
    rw [twoTables_blocked one two pk blocked]
  · intro apart env X _ events within
    have inside : Along (step env) (fun _ event => Within rows event) start events :=
      Base.along_of_forall (step env) (fun event mem _ => within event mem) start
    refine (Base.along_congr (step env) (fun s => s.locks.Sound env ∧ s.Named rows) (fun s event inv _ => ?_)
      (fun s event inv inside _ => ?_) ⟨LockState.sound_start env, ?_⟩ inside).mp (Base.along_true _ _ _)
    · exact iff_of_true trivial (sameRow_of_apart inv.1 inv.2 apart event)
    · exact ⟨LockState.sound_step inv.1 event.1, named_step inv.1 inv.2 inside⟩
    · exact ⟨by simp [start, LockState.start, LockPc.keyOf, LockPc.acquires], by simp [start], by simp [start, LockState.start],
        by simp [start, LockState.start, LockPc.bars, LockPc.waits]⟩

theorem one_key_two_tables : ¬ ∀ (env : LockEnv) (X : Type) [DecidableEq X] (events : List (ThreadEvent X × Nat)),
      Along (step env) (SameRow env) start events :=
  fun claim => absurd (twoTables_blocked 1 2 [1] (claim _ _ _)) (by decide)

end RowState

end TidesdbMysql
