import TidesdbMysql.Base.Bytes
import TidesdbMysql.Base.Run

/-! The master key, the threads' copies of it, and the generation number that tells a copy from a stale one. -/
namespace TidesdbMysql
open Base

variable {T : Type} [DecidableEq T]

/-- `key` is there while `g_master_key_loaded`, `writing` while a load or a clear has the mutex, and `tls` are copies
with their generations. `register` is not in the code: a load or a clear sets it at its increment. -/
structure MasterKey (T : Type) where
  key : Option Bytes
  gen : Nat
  writing : Bool
  tls : T → Bytes × Nat
  register : Option Bytes

/- `g_master_key_gen` is a `uint64_t`. -/
def masterKeyGens : Nat := 18446744073709551616

/-- A load or a clear up to its increment, the increment and the end of it, and `encryption_key_get` without and
with the mutex. -/
inductive KeyEvent (T : Type) where
  | load (bytes : Bytes)
  | clear
  | publish
  | get (t : T)
  | getLocked (t : T)
  deriving DecidableEq

namespace MasterKey

variable (s : MasterKey T)

omit [DecidableEq T] in
def write (key : Option Bytes) : MasterKey T := if s.writing then s else { s with key := key, writing := true }

def step : KeyEvent T → MasterKey T × Option (Option Bytes)
  | .load bytes => (s.write bytes, none)
  | .clear => (s.write none, none)
  | .publish =>
    (if s.writing then { s with gen := (s.gen + 1) % masterKeyGens, writing := false, register := s.key } else s, none)
  | .get t => (s, if s.gen ≠ 0 ∧ (s.tls t).2 = s.gen then some (s.tls t).1 else none)
  | .getLocked t =>
    if s.writing then (s, none)
    else
      match s.key with
      | none => ({ s with tls := Function.update s.tls t ([], 0) }, some none)
      | some bytes => ({ s with tls := Function.update s.tls t (bytes, s.gen) }, some bytes)

def start : MasterKey T := ⟨none, 0, false, fun _ => ([], 0), none⟩

structure Coherent : Prop where
  key : s.writing = false → s.key = s.register
  past : ∀ t, (s.tls t).2 ≤ s.gen
  copies : s.gen ≠ 0 → ∀ t, (s.tls t).2 = s.gen → s.register = some (s.tls t).1

variable {s}

omit [DecidableEq T] in
theorem Coherent.write (coherent : s.Coherent) (key : Option Bytes) : (s.write key).Coherent := by
  unfold MasterKey.write
  split
  · exact coherent
  · exact ⟨nofun, coherent.past, coherent.copies⟩

theorem Coherent.copy (coherent : s.Coherent) {bytes : Bytes} {gen : Nat} (past : gen ≤ s.gen)
    (fresh : s.gen ≠ 0 → gen = s.gen → s.register = some bytes) (t : T) :
    Coherent { s with tls := Function.update s.tls t (bytes, gen) } := by
  refine ⟨coherent.key, fun u => ?_, fun loaded u => ?_⟩ <;> by_cases same : u = t
  · simpa [same] using past
  · simpa [same] using coherent.past u
  · simpa [same] using fresh loaded
  · simpa [same] using coherent.copies loaded u

theorem Coherent.step {event : KeyEvent T} (coherent : s.Coherent)
    (unwrapped : event = .publish → s.gen + 1 < masterKeyGens) : (s.step event).1.Coherent := by
  cases event with
  | get t => exact coherent
  | clear => exact coherent.write none
  | load bytes => exact coherent.write bytes
  | publish =>
    dsimp only [MasterKey.step]
    split
    · rw [Nat.mod_eq_of_lt (unwrapped rfl)]
      -- no copy has a number that was not given yet
      refine ⟨fun _ => rfl, fun t => Nat.le_succ_of_le (coherent.past t), fun _ t now => ?_⟩
      exact absurd now (Nat.ne_of_lt (Nat.lt_succ_of_le (coherent.past t)))
    · exact coherent
  | getLocked t =>
    dsimp only [MasterKey.step]
    split
    · exact coherent
    · rename_i unlocked
      have held := coherent.key (Bool.not_eq_true _ ▸ unlocked)
      split
      · exact coherent.copy (Nat.zero_le _) (fun loaded zero => absurd zero.symm loaded) t
      · exact coherent.copy (Nat.le_refl _) (fun _ _ => held.symm.trans ‹_›) t

/-- Whatever the threads do, a call of `encryption_key_get` answers what the register holds at one moment of the
call, as long as the generation number does not wrap. -/
theorem key_gets_linearizable (events : List (KeyEvent T))
    (unwrapped : Along step (fun s event => event = .publish → s.gen + 1 < masterKeyGens) start events) :
    Along step (fun s event => ∀ answer, (s.step event).2 = some answer → answer = s.register) start events := by
  refine (along_congr step Coherent (fun s event coherent _ => iff_true_intro ?_)
    (fun s event coherent ok _ => coherent.step ok) ⟨fun _ => rfl, fun _ => Nat.le_refl _, nofun⟩ unwrapped).mpr
      (along_true step start events)
  intro answer answered
  cases event with
  | load | clear | publish => cases answered
  | get t => grind [step, coherent.copies]
  | getLocked t => cases held : s.key <;> grind [step, coherent.key]

/- A copy is taken between a load and a clear, and not used after. -/
theorem cleared_key_not_given : Along step (fun s event => ∀ answer, (s.step event).2 = some answer → answer = s.register)
    start [.load [7], .publish, .getLocked (), .get (), .clear, .publish, .get (), .getLocked ()] :=
  key_gets_linearizable _ (by decide)

end MasterKey

end TidesdbMysql
