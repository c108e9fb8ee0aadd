import TidesdbMysql.Txn.RowLocks

/-! The row lock table as the threads of the server work on it. A step of a thread makes at most one
access to `owner_trx` or `waiting_on`, the fields the deadlock walk reads without a mutex, together
with the accesses around it that the mutex of the partition guards or that only the thread makes. -/
namespace TidesdbMysql

open Base (Bytes)

variable {X : Type}

def rowLockPartitions : Nat := 65536

def deadlockMaxDepth : Nat := 100

/- The two calls of `tdb_lock_would_deadlock`. -/
inductive WalkSite where
  | beforeWait
  | inWait
  deriving DecidableEq

/- The three places where `row_lock_acquire` claims a lock. -/
inductive ClaimSite where
  | atOnce
  | afterWalk
  | afterWait
  deriving DecidableEq

inductive Leaving where
  | granted
  | killed
  | deadlock
  deriving DecidableEq

/-- Where a thread stands in `row_lock_acquire`, `row_locks_release_all`, `kill_query` or
`close_connection`. -/
inductive LockPc (X : Type) where
  | idle
  | entering (key : Bytes)
  | searching (key : Bytes)
  | found (lock : Nat)
  | publishing (lock : Nat)
  | walkStart (site : WalkSite) (lock : Nat)
  | walkAt (site : WalkSite) (lock : Nat) (cur : Option X) (depth : Nat)
  | walkHop (site : WalkSite) (lock curWaiting depth : Nat)
  | walked (site : WalkSite) (lock : Nat) (foundCycle : Bool)
  | waitLoop (lock : Nat)
  | asleep (lock : Nat)
  | woken (lock : Nat)
  | leaving (lock : Nat) (why : Leaving)
  | claiming (lock : Nat) (site : ClaimSite)
  | clearing (lock : Nat) (granted : Bool)
  | releasing (lock : Option Nat) (closes : Bool)
  | unlinking (lock : Nat) (next : Option Nat) (closes : Bool)
  | killing (victim : X) (epoch : Nat)
  | pointed (victim : X) (epoch : Nat)
  | broadcasting (victim : X) (epoch wait : Nat)
  | closing
  | freed
  | gone
  deriving DecidableEq

/-- The lock table and the threads, one for each transaction structure. A lock is an address; those
from `fresh` on are not allocated and read as zeroes. `readers` and `writers` are of
`g_trx_lifecycle_lock`, `epoch` counts kills taken back, `alerted` says that `kill_query` has
returned for the present one. -/
structure LockState (X : Type) where
  fresh : Nat
  chain : Nat → List Nat
  pk : Nat → Bytes
  ownerTxnId : Nat → Nat
  ownerTrx : Nat → Option X
  waiters : Nat → Nat
  heldNext : Nat → Option Nat
  mutex : Nat → Option X
  pc : X → LockPc X
  waitingOn : X → Option Nat
  heldLocksHead : X → Option Nat
  readers : List X
  writers : List X
  killed : X → Bool
  epoch : X → Nat
  alerted : X → Bool

/- `hash` is XXH3_64bits. POSIX leaves open whether a waiting writer keeps new readers out. -/
structure LockEnv where
  hash : Bytes → Nat
  writersFirst : Bool

/-- What a step does to the shared fields. -/
inductive LockEffect (X : Type) where
  | nothing
  | create (key : Bytes)
  | wait (lock : Option Nat)
  | countIn (lock : Nat)
  | countOut (lock : Nat)
  | claim (lock : Nat)
  | free (lock : Nat)
  | forget
  | kill (victim : X)
  | pardon
  | answer (victim : X) (epoch : Nat) (broadcast : Option Nat)

/- `waiting_on` and `held_locks_head` of the thread after the step. -/
def LockEffect.waitAfter (before : Option Nat) : LockEffect X → Option Nat
  | .wait lock => lock
  | .forget => none
  | _ => before

def LockEffect.headAfter (before : Option Nat) : LockEffect X → Option Nat
  | .claim lock => some lock
  | .forget => none
  | _ => before

inductive MutexUse where
  | keep
  | take (partition : Nat)
  | drop (partition : Nat)
  deriving DecidableEq

/- What a step does with `g_trx_lifecycle_lock`: a reader comes or goes, a writer waits or has had it. -/
inductive GateUse where
  | keep
  | enter
  | leave
  | queue
  | pass
  deriving DecidableEq

structure LockPlan (X : Type) where
  effect : LockEffect X
  mutex : MutexUse
  gate : GateUse
  next : LockPc X
  code : Option HaCode

/- Calls, a kill taken back, a step with what `my_malloc` answers, and a wait that ends without a
reason. -/
inductive ThreadEvent (X : Type) where
  | acquire (x : X) (key : Bytes)
  | release (x : X)
  | close (x : X)
  | kill (x victim : X)
  | pardon (x : X)
  | advance (x : X) (malloc : Bool)
  | wake (x : X)

def ThreadEvent.thread : ThreadEvent X → X
  | .acquire x _ | .release x | .close x | .kill x _ | .pardon x | .advance x _ | .wake x => x

def tdbLockPart (env : LockEnv) (key : Bytes) : Nat := env.hash key % rowLockPartitions

namespace LockState

variable {X : Type} [DecidableEq X]

def partition (env : LockEnv) (s : LockState X) (lock : Nat) : Nat := tdbLockPart env (s.pk lock)

/- The search along the chain of the partition. -/
def find (env : LockEnv) (s : LockState X) (key : Bytes) : Option Nat :=
  (s.chain (tdbLockPart env key)).find? fun lock => decide (s.pk lock = key)

def readGranted (env : LockEnv) (s : LockState X) : Bool := !env.writersFirst || s.writers.isEmpty

/- One round of the loop of `tdb_lock_would_deadlock`: the lock it goes on to, or what it has
found. -/
def walkOn (s : LockState X) (x : X) (cur : Option X) (depth : Nat) : Except Bool Nat :=
  match cur with
  | none => .error false
  | some trx =>
    if depth < deadlockMaxDepth then
      if trx = x then .error true
      else
        match s.waitingOn trx with
        | none => .error false
        | some curWaiting => .ok curWaiting
    else .error false

/-- What the thread does next. A thread that needs a mutex or the lifecycle lock and cannot have it
stays where it is. -/
def plan (env : LockEnv) (s : LockState X) (x : X) (malloc : Bool) : LockPlan X :=
  let stay : LockPlan X := ⟨.nothing, .keep, .keep, s.pc x, none⟩
  match s.pc x with
  | .idle | .asleep _ | .gone => stay
  | .entering key =>
    if s.mutex (tdbLockPart env key) = none then ⟨.nothing, .take (tdbLockPart env key), .keep, .searching key, none⟩
    else stay
  | .searching key =>
    match s.find env key with
    | some lock => ⟨.nothing, .keep, .keep, .found lock, none⟩
    | none =>
      if malloc then ⟨.create key, .keep, .keep, .found s.fresh, none⟩
      else ⟨.nothing, .drop (tdbLockPart env key), .keep, .idle, some .outOfMem⟩
  | .found lock =>
    if s.ownerTxnId lock = lockTxnId ∧ s.ownerTrx lock = some x then
      ⟨.nothing, .drop (s.partition env lock), .keep, .idle, some .ok⟩
    else if s.ownerTxnId lock = 0 then ⟨.nothing, .keep, .keep, .claiming lock .atOnce, none⟩
    else ⟨.nothing, .keep, .keep, .publishing lock, none⟩
  | .publishing lock => ⟨.wait (some lock), .drop (s.partition env lock), .keep, .walkStart .beforeWait lock, none⟩
  | .walkStart site lock =>
    if s.readGranted env then ⟨.nothing, .keep, .enter, .walkAt site lock (s.ownerTrx lock) 0, none⟩ else stay
  | .walkAt site lock cur depth =>
    match s.walkOn x cur depth with
    | .ok curWaiting => ⟨.nothing, .keep, .keep, .walkHop site lock curWaiting depth, none⟩
    | .error foundCycle => ⟨.nothing, .keep, .leave, .walked site lock foundCycle, none⟩
  | .walkHop site lock curWaiting depth =>
    ⟨.nothing, .keep, .keep, .walkAt site lock (s.ownerTrx curWaiting) (depth + 1), none⟩
  | .walked .beforeWait lock foundCycle =>
    if s.mutex (s.partition env lock) = none then
      if foundCycle then ⟨.nothing, .take (s.partition env lock), .keep, .clearing lock false, none⟩
      else if s.ownerTxnId lock = 0 then
        ⟨.nothing, .take (s.partition env lock), .keep, .claiming lock .afterWalk, none⟩
      else ⟨.countIn lock, .take (s.partition env lock), .keep, .waitLoop lock, none⟩
    else stay
  | .walked .inWait lock foundCycle =>
    if foundCycle then ⟨.countOut lock, .keep, .keep, .leaving lock .deadlock, none⟩
    else ⟨.nothing, .drop (s.partition env lock), .keep, .asleep lock, none⟩
  | .waitLoop lock =>
    if s.ownerTxnId lock ≠ 0 ∧ s.ownerTrx lock ≠ some x then
      if s.killed x then ⟨.countOut lock, .keep, .keep, .leaving lock .killed, none⟩
      else ⟨.nothing, .keep, .keep, .walkStart .inWait lock, none⟩
    else ⟨.countOut lock, .keep, .keep, .leaving lock .granted, none⟩
  | .woken lock =>
    if s.mutex (s.partition env lock) = none then
      ⟨.nothing, .take (s.partition env lock), .keep, .waitLoop lock, none⟩
    else stay
  | .leaving lock .granted => ⟨.wait none, .keep, .keep, .claiming lock .afterWait, none⟩
  | .leaving lock .killed => ⟨.wait none, .drop (s.partition env lock), .keep, .idle, some .lockWaitTimeout⟩
  | .leaving lock .deadlock => ⟨.wait none, .drop (s.partition env lock), .keep, .idle, some .lockDeadlock⟩
  | .claiming lock .afterWalk => ⟨.claim lock, .keep, .keep, .clearing lock true, none⟩
  | .claiming lock _ => ⟨.claim lock, .drop (s.partition env lock), .keep, .idle, some .ok⟩
  | .clearing lock granted =>
    ⟨.wait none, .drop (s.partition env lock), .keep, .idle, some (if granted then .ok else .lockDeadlock)⟩
  | .releasing (some lock) closes => ⟨.nothing, .keep, .keep, .unlinking lock (s.heldNext lock) closes, none⟩
  | .releasing none false => ⟨.forget, .keep, .keep, .idle, some .ok⟩
  | .releasing none true => ⟨.forget, .keep, .queue, .closing, none⟩
  | .unlinking lock next closes =>
    -- the mutex is taken and dropped within the step
    if s.mutex (s.partition env lock) = none then ⟨.free lock, .keep, .keep, .releasing next closes, none⟩ else stay
  | .killing victim epoch =>
    if s.pc victim = .gone then ⟨.answer victim epoch none, .keep, .keep, .idle, some .ok⟩
    else ⟨.nothing, .keep, .keep, .pointed victim epoch, none⟩
  | .pointed victim epoch =>
    if s.readGranted env then
      match s.waitingOn victim with
      | none => ⟨.answer victim epoch none, .keep, .keep, .idle, some .ok⟩
      | some wait => ⟨.nothing, .keep, .enter, .broadcasting victim epoch wait, none⟩
    else stay
  | .broadcasting victim epoch wait =>
    if s.mutex (s.partition env wait) = none then ⟨.answer victim epoch (some wait), .keep, .leave, .idle, some .ok⟩
    else stay
  | .closing => if s.readers = [] then ⟨.nothing, .keep, .pass, .freed, none⟩ else stay
  | .freed => ⟨.nothing, .keep, .keep, .gone, some .ok⟩

/- The threads that sleep on a lock are woken when it is released, and by `kill_query`. -/
def wakes (s : LockState X) : LockEffect X → Option Nat
  | .free lock => if 0 < s.waiters lock then some lock else none
  | .answer _ _ broadcast => broadcast
  | _ => none

def perform (env : LockEnv) (s : LockState X) (x : X) (plan : LockPlan X) : LockState X where
  fresh := match plan.effect with
    | .create _ => s.fresh + 1
    | _ => s.fresh
  chain := match plan.effect with
    | .create key => Function.update s.chain (tdbLockPart env key) (s.fresh :: s.chain (tdbLockPart env key))
    | _ => s.chain
  pk := match plan.effect with
    | .create key => Function.update s.pk s.fresh key
    | _ => s.pk
  ownerTxnId := match plan.effect with
    | .claim lock => Function.update s.ownerTxnId lock lockTxnId
    | .free lock => Function.update s.ownerTxnId lock 0
    | _ => s.ownerTxnId
  ownerTrx := match plan.effect with
    | .claim lock => Function.update s.ownerTrx lock (some x)
    | .free lock => Function.update s.ownerTrx lock none
    | _ => s.ownerTrx
  waiters := match plan.effect with
    | .countIn lock => Function.update s.waiters lock (s.waiters lock + 1)
    | .countOut lock => Function.update s.waiters lock (s.waiters lock - 1)
    | _ => s.waiters
  heldNext := match plan.effect with
    | .claim lock => Function.update s.heldNext lock (s.heldLocksHead x)
    | .free lock => Function.update s.heldNext lock none
    | _ => s.heldNext
  mutex := match plan.mutex with
    | .keep => s.mutex
    | .take partition => Function.update s.mutex partition (some x)
    | .drop partition => Function.update s.mutex partition none
  pc := Function.update (fun y => match s.pc y with
    | .asleep lock => if s.wakes plan.effect = some lock then .woken lock else .asleep lock
    | pc => pc) x plan.next
  waitingOn := Function.update s.waitingOn x (plan.effect.waitAfter (s.waitingOn x))
  heldLocksHead := Function.update s.heldLocksHead x (plan.effect.headAfter (s.heldLocksHead x))
  readers := match plan.gate with
    | .enter => x :: s.readers
    | .leave => s.readers.erase x
    | _ => s.readers
  writers := match plan.gate with
    | .queue => x :: s.writers
    | .pass => s.writers.erase x
    | _ => s.writers
  killed := match plan.effect with
    | .kill victim => Function.update s.killed victim true
    | .pardon => Function.update s.killed x false
    | _ => s.killed
  epoch := match plan.effect with
    | .pardon => Function.update s.epoch x (s.epoch x + 1)
    | _ => s.epoch
  alerted := match plan.effect with
    | .answer victim epoch _ => Function.update s.alerted victim (s.alerted victim || decide (epoch = s.epoch victim))
    | .pardon => Function.update s.alerted x false
    | _ => s.alerted

/- What an event makes its thread do. -/
def planOf (env : LockEnv) (s : LockState X) (event : ThreadEvent X) : LockPlan X :=
  let call (effect : LockEffect X) (next : LockPc X) : LockPlan X :=
    if s.pc event.thread = .idle then ⟨effect, .keep, .keep, next, none⟩
    else ⟨.nothing, .keep, .keep, s.pc event.thread, none⟩
  match event with
  | .acquire _ key => call .nothing (.entering key)
  | .release x => call .nothing (.releasing (s.heldLocksHead x) false)
  | .close x => call .nothing (.releasing (s.heldLocksHead x) true)
  | .kill _ victim => call (.kill victim) (.killing victim (s.epoch victim))
  | .pardon x => ⟨.pardon, .keep, .keep, s.pc x, none⟩
  | .advance x malloc => s.plan env x malloc
  | .wake x =>
    ⟨.nothing, .keep, .keep, match s.pc x with
      | .asleep lock => .woken lock
      | pc => pc, none⟩

def step (env : LockEnv) (s : LockState X) (event : ThreadEvent X) : LockState X × Option HaCode :=
  (s.perform env event.thread (s.planOf env event), (s.planOf env event).code)

def start : LockState X where
  fresh := 0
  chain _ := []
  pk _ := []
  ownerTxnId _ := 0
  ownerTrx _ := none
  waiters _ := 0
  heldNext _ := none
  mutex _ := none
  pc _ := .idle
  waitingOn _ := none
  heldLocksHead _ := none
  readers := []
  writers := []
  killed _ := false
  epoch _ := 0
  alerted _ := false

/-- Everything a thread can do in one step. -/
inductive Move (env : LockEnv) (s : LockState X) (x : X) : LockPlan X → Prop where
  | stay {pc : LockPc X} (at_x : s.pc x = pc) : Move env s x ⟨.nothing, .keep, .keep, pc, none⟩
  | acquire (key : Bytes) (at_x : s.pc x = .idle) : Move env s x ⟨.nothing, .keep, .keep, .entering key, none⟩
  | release (closes : Bool) (at_x : s.pc x = .idle) :
    Move env s x ⟨.nothing, .keep, .keep, .releasing (s.heldLocksHead x) closes, none⟩
  | kill (victim : X) (at_x : s.pc x = .idle) :
    Move env s x ⟨.kill victim, .keep, .keep, .killing victim (s.epoch victim), none⟩
  | pardon {pc : LockPc X} (at_x : s.pc x = pc) : Move env s x ⟨.pardon, .keep, .keep, pc, none⟩
  | enter {key : Bytes} (at_x : s.pc x = .entering key) (unlocked : s.mutex (tdbLockPart env key) = none) :
    Move env s x ⟨.nothing, .take (tdbLockPart env key), .keep, .searching key, none⟩
  | found {key : Bytes} {lock : Nat} (at_x : s.pc x = .searching key) (there : s.find env key = some lock) :
    Move env s x ⟨.nothing, .keep, .keep, .found lock, none⟩
  | create {key : Bytes} (at_x : s.pc x = .searching key) (missing : s.find env key = none) :
    Move env s x ⟨.create key, .keep, .keep, .found s.fresh, none⟩
  | outOfMem {key : Bytes} (at_x : s.pc x = .searching key) :
    Move env s x ⟨.nothing, .drop (tdbLockPart env key), .keep, .idle, some .outOfMem⟩
  | reenter {lock : Nat} (at_x : s.pc x = .found lock) (own : s.ownerTrx lock = some x) :
    Move env s x ⟨.nothing, .drop (s.partition env lock), .keep, .idle, some .ok⟩
  | free {lock : Nat} (at_x : s.pc x = .found lock) (unowned : s.ownerTxnId lock = 0) :
    Move env s x ⟨.nothing, .keep, .keep, .claiming lock .atOnce, none⟩
  | contest {lock : Nat} (at_x : s.pc x = .found lock)
    (foreign : ¬ (s.ownerTxnId lock = lockTxnId ∧ s.ownerTrx lock = some x)) (owned : s.ownerTxnId lock ≠ 0) :
    Move env s x ⟨.nothing, .keep, .keep, .publishing lock, none⟩
  | publish {lock : Nat} (at_x : s.pc x = .publishing lock) :
    Move env s x ⟨.wait (some lock), .drop (s.partition env lock), .keep, .walkStart .beforeWait lock, none⟩
  | walkStart {site : WalkSite} {lock : Nat} (at_x : s.pc x = .walkStart site lock) (granted : s.readGranted env = true) :
    Move env s x ⟨.nothing, .keep, .enter, .walkAt site lock (s.ownerTrx lock) 0, none⟩
  | walkOn {site : WalkSite} {lock depth curWaiting : Nat} {cur : Option X} (at_x : s.pc x = .walkAt site lock cur depth)
    (further : s.walkOn x cur depth = .ok curWaiting) :
    Move env s x ⟨.nothing, .keep, .keep, .walkHop site lock curWaiting depth, none⟩
  | walkEnd {site : WalkSite} {lock depth : Nat} {cur : Option X} {foundCycle : Bool}
    (at_x : s.pc x = .walkAt site lock cur depth) (ends : s.walkOn x cur depth = .error foundCycle) :
    Move env s x ⟨.nothing, .keep, .leave, .walked site lock foundCycle, none⟩
  | walkHop {site : WalkSite} {lock curWaiting depth : Nat} (at_x : s.pc x = .walkHop site lock curWaiting depth) :
    Move env s x ⟨.nothing, .keep, .keep, .walkAt site lock (s.ownerTrx curWaiting) (depth + 1), none⟩
  | deadlock {lock : Nat} (at_x : s.pc x = .walked .beforeWait lock true)
    (unlocked : s.mutex (s.partition env lock) = none) :
    Move env s x ⟨.nothing, .take (s.partition env lock), .keep, .clearing lock false, none⟩
  | freed {lock : Nat} (at_x : s.pc x = .walked .beforeWait lock false)
    (unlocked : s.mutex (s.partition env lock) = none) (unowned : s.ownerTxnId lock = 0) :
    Move env s x ⟨.nothing, .take (s.partition env lock), .keep, .claiming lock .afterWalk, none⟩
  | enterLoop {lock : Nat} (at_x : s.pc x = .walked .beforeWait lock false)
    (unlocked : s.mutex (s.partition env lock) = none) :
    Move env s x ⟨.countIn lock, .take (s.partition env lock), .keep, .waitLoop lock, none⟩
  | deadlockInWait {lock : Nat} (at_x : s.pc x = .walked .inWait lock true) :
    Move env s x ⟨.countOut lock, .keep, .keep, .leaving lock .deadlock, none⟩
  | sleep {lock : Nat} (at_x : s.pc x = .walked .inWait lock false) :
    Move env s x ⟨.nothing, .drop (s.partition env lock), .keep, .asleep lock, none⟩
  | giveUp {lock : Nat} (at_x : s.pc x = .waitLoop lock) :
    Move env s x ⟨.countOut lock, .keep, .keep, .leaving lock .killed, none⟩
  | recheck {lock : Nat} (at_x : s.pc x = .waitLoop lock) (owned : s.ownerTxnId lock ≠ 0) (alive : s.killed x = false) :
    Move env s x ⟨.nothing, .keep, .keep, .walkStart .inWait lock, none⟩
  | grant {lock : Nat} (at_x : s.pc x = .waitLoop lock) (ended : ¬ (s.ownerTxnId lock ≠ 0 ∧ s.ownerTrx lock ≠ some x)) :
    Move env s x ⟨.countOut lock, .keep, .keep, .leaving lock .granted, none⟩
  | wake {lock : Nat} (at_x : s.pc x = .asleep lock) : Move env s x ⟨.nothing, .keep, .keep, .woken lock, none⟩
  | rejoin {lock : Nat} (at_x : s.pc x = .woken lock) (unlocked : s.mutex (s.partition env lock) = none) :
    Move env s x ⟨.nothing, .take (s.partition env lock), .keep, .waitLoop lock, none⟩
  | leaveGranted {lock : Nat} (at_x : s.pc x = .leaving lock .granted) :
    Move env s x ⟨.wait none, .keep, .keep, .claiming lock .afterWait, none⟩
  | leave {lock : Nat} {why : Leaving} {code : HaCode} (at_x : s.pc x = .leaving lock why) (failed : why ≠ .granted)
    (error : code ≠ .ok) : Move env s x ⟨.wait none, .drop (s.partition env lock), .keep, .idle, some code⟩
  | claimAfterWalk {lock : Nat} (at_x : s.pc x = .claiming lock .afterWalk) :
    Move env s x ⟨.claim lock, .keep, .keep, .clearing lock true, none⟩
  | claim {lock : Nat} {site : ClaimSite} (at_x : s.pc x = .claiming lock site) (last : site ≠ .afterWalk) :
    Move env s x ⟨.claim lock, .drop (s.partition env lock), .keep, .idle, some .ok⟩
  | clear {lock : Nat} {granted : Bool} (at_x : s.pc x = .clearing lock granted) :
    Move env s x ⟨.wait none, .drop (s.partition env lock), .keep, .idle, some (if granted then .ok else .lockDeadlock)⟩
  | unlink {lock : Nat} {closes : Bool} (at_x : s.pc x = .releasing (some lock) closes) :
    Move env s x ⟨.nothing, .keep, .keep, .unlinking lock (s.heldNext lock) closes, none⟩
  | freeLock {lock : Nat} {next : Option Nat} {closes : Bool} (at_x : s.pc x = .unlinking lock next closes)
    (unlocked : s.mutex (s.partition env lock) = none) :
    Move env s x ⟨.free lock, .keep, .keep, .releasing next closes, none⟩
  | forget (at_x : s.pc x = .releasing none false) : Move env s x ⟨.forget, .keep, .keep, .idle, some .ok⟩
  | queue (at_x : s.pc x = .releasing none true) : Move env s x ⟨.forget, .keep, .queue, .closing, none⟩
  | point {victim : X} {epoch : Nat} (at_x : s.pc x = .killing victim epoch) :
    Move env s x ⟨.nothing, .keep, .keep, .pointed victim epoch, none⟩
  | answer {victim : X} {epoch : Nat}
    (at_x : s.pc x = .killing victim epoch ∧ s.pc victim = .gone ∨
      s.pc x = .pointed victim epoch ∧ s.waitingOn victim = none) :
    Move env s x ⟨.answer victim epoch none, .keep, .keep, .idle, some .ok⟩
  | load {victim : X} {epoch wait : Nat} (at_x : s.pc x = .pointed victim epoch)
    (granted : s.readGranted env = true) (waits : s.waitingOn victim = some wait) :
    Move env s x ⟨.nothing, .keep, .enter, .broadcasting victim epoch wait, none⟩
  | broadcast {victim : X} {epoch wait : Nat} (at_x : s.pc x = .broadcasting victim epoch wait)
    (unlocked : s.mutex (s.partition env wait) = none) :
    Move env s x ⟨.answer victim epoch (some wait), .keep, .leave, .idle, some .ok⟩
  | pass (at_x : s.pc x = .closing) (unread : s.readers = []) : Move env s x ⟨.nothing, .keep, .pass, .freed, none⟩
  | unset (at_x : s.pc x = .freed) : Move env s x ⟨.nothing, .keep, .keep, .gone, some .ok⟩

theorem plan_move (env : LockEnv) (s : LockState X) (x : X) (malloc : Bool) : Move env s x (s.plan env x malloc) := by
  unfold plan
  cases at_x : s.pc x with
  | idle | asleep | gone => exact .stay at_x
  | entering key =>
    simp only
    split
    · next unlocked => exact .enter at_x unlocked
    · exact .stay at_x
  | searching key =>
    simp only
    split
    · next there => exact .found at_x there
    · next missing =>
      split
      · exact .create at_x missing
      · exact .outOfMem at_x
  | found lock =>
    simp only
    split
    · next own => exact .reenter at_x own.2
    · next foreign =>
      split
      · next unowned => exact .free at_x unowned
      · next owned => exact .contest at_x foreign owned
  | publishing lock => exact .publish at_x
  | walkStart site lock =>
    simp only
    split
    · next granted => exact .walkStart at_x granted
    · exact .stay at_x
  | walkAt site lock cur depth =>
    simp only
    split
    · next further => exact .walkOn at_x further
    · next ends => exact .walkEnd at_x ends
  | walkHop site lock curWaiting depth => exact .walkHop at_x
  | walked site lock foundCycle =>
    cases site with
    | beforeWait =>
      simp only
      split
      · next unlocked =>
        cases foundCycle with
        | true => exact .deadlock at_x unlocked
        | false =>
          simp only [Bool.false_eq_true, if_false]
          split
          · next unowned => exact .freed at_x unlocked unowned
          · exact .enterLoop at_x unlocked
      · exact .stay at_x
    | inWait =>
      cases foundCycle with
      | true => exact .deadlockInWait at_x
      | false => exact .sleep at_x
  | waitLoop lock =>
    simp only
    split
    · next owned =>
      cases alive : s.killed x with
      | true => exact .giveUp at_x
      | false => exact .recheck at_x owned.1 alive
    · next ended => exact .grant at_x ended
  | woken lock =>
    simp only
    split
    · next unlocked => exact .rejoin at_x unlocked
    · exact .stay at_x
  | leaving lock why =>
    cases why with
    | granted => exact .leaveGranted at_x
    | killed | deadlock => exact .leave at_x nofun nofun
  | claiming lock site =>
    cases site with
    | atOnce | afterWait => exact .claim at_x nofun
    | afterWalk => exact .claimAfterWalk at_x
  | clearing lock granted => exact .clear at_x
  | releasing lock closes =>
    cases lock with
    | some lock => exact .unlink at_x
    | none =>
      cases closes with
      | false => exact .forget at_x
      | true => exact .queue at_x
  | unlinking lock next closes =>
    simp only
    split
    · next unlocked => exact .freeLock at_x unlocked
    · exact .stay at_x
  | killing victim epoch =>
    simp only
    split
    · next gone => exact .answer (.inl ⟨at_x, gone⟩)
    · exact .point at_x
  | pointed victim epoch =>
    simp only
    split
    · next granted =>
      split
      · next idle => exact .answer (.inr ⟨at_x, idle⟩)
      · next waits => exact .load at_x granted waits
    · exact .stay at_x
  | broadcasting victim epoch wait =>
    simp only
    split
    · next unlocked => exact .broadcast at_x unlocked
    · exact .stay at_x
  | closing =>
    simp only
    split
    · next unread => exact .pass at_x unread
    · exact .stay at_x
  | freed => exact .unset at_x

theorem planOf_move (env : LockEnv) (s : LockState X) (event : ThreadEvent X) :
    Move env s event.thread (s.planOf env event) := by
  have called {effect : LockEffect X} {next : LockPc X}
      (move : s.pc event.thread = .idle → Move env s event.thread ⟨effect, .keep, .keep, next, none⟩) :
      Move env s event.thread (if s.pc event.thread = .idle then ⟨effect, .keep, .keep, next, none⟩
        else ⟨.nothing, .keep, .keep, s.pc event.thread, none⟩) := by
    split
    · next idle => exact move idle
    · exact .stay rfl
  cases event with
  | acquire x key => exact called (.acquire key)
  | release x => exact called (.release false)
  | close x => exact called (.release true)
  | kill x victim => exact called (.kill victim)
  | pardon x => exact .pardon rfl
  | advance x malloc => exact plan_move env s x malloc
  | wake x =>
    simp only [planOf, ThreadEvent.thread]
    split
    · next at_x => exact .wake at_x
    · exact .stay rfl

end LockState

end TidesdbMysql
