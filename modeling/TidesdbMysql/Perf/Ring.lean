import Mathlib.Order.Nat
import TidesdbMysql.Base.Run

/-! The ring of performance samples: `push_sample` of its one writer and the drain of `flush_once`, in
single stores and reads of either. -/
namespace TidesdbMysql

open Base (Along run)
open List Function

structure Sample where
  methodId : UInt8
  threadId : UInt8
  reserved : UInt16
  enterTsc : UInt64
  exitTsc : UInt64
  deriving DecidableEq

def kMethodCount : UInt8 := 32

def Sample.Counted (s : Sample) : Prop := 1 ≤ s.methodId ∧ s.methodId ≤ kMethodCount

instance (s : Sample) : Decidable s.Counted := inferInstanceAs (Decidable (_ ∧ _))

def Sample.stores (s : Sample) : List (Sample → Sample) :=
  [fun t => { t with methodId := s.methodId }, fun t => { t with threadId := s.threadId },
    fun t => { t with reserved := s.reserved }, fun t => { t with enterTsc := s.enterTsc },
    fun t => { t with exitTsc := s.exitTsc }]

/-- A drain under way: `by_method` is `out` by methods, and `due` what was pending at the index load. -/
structure Drain where
  w : Nat
  rd : Nat
  i : Nat
  out : List Sample
  due : List Sample

/-- A ring, with the push and the drain under way. Its history is `done`, the samples pushed in full,
of which the last drain found `seen`, and what every drain gave out for what was due. -/
structure PerfRing where
  capacityPow2 : Nat
  writeIdx : Nat
  readIdx : Nat
  slots : Nat → Sample
  push : Option (Sample × List (Sample → Sample))
  drain : Option Drain
  done : List Sample
  seen : Nat
  drained : List (List Sample × List Sample)

inductive RingEvent where
  | reserve (methodId threadId : UInt8) (enterTsc exitTsc : UInt64)
  | store
  | load
  | read
  | finish

namespace PerfRing

def empty (capacityPow2 : Nat) : PerfRing :=
  { capacityPow2, writeIdx := 0, readIdx := 0, slots := fun _ => ⟨0, 0, 0, 0, 0⟩, push := none, drain := none,
    done := [], seen := 0, drained := [] }

variable (r : PerfRing)

def capacity : Nat := 1 <<< r.capacityPow2

def slotIdx (w : Nat) : Nat := w &&& (r.capacity - 1)

def toDrain (d : Drain) : Nat := min (d.w - d.rd) r.capacity

def due : List Sample := (r.done.drop r.seen).drop (r.done.length - r.seen - r.capacity)

def storeWith (f : Sample → Sample) : PerfRing :=
  { r with slots := update r.slots (r.slotIdx (r.writeIdx - 1)) (f (r.slots (r.slotIdx (r.writeIdx - 1)))) }

def step : RingEvent → PerfRing
  | .reserve methodId threadId enterTsc exitTsc =>
    let s : Sample := ⟨methodId, threadId, 0, enterTsc, exitTsc⟩
    if r.push.isNone then { r with writeIdx := r.writeIdx + 1, push := some (s, s.stores) } else r
  | .store =>
    match r.push with
    | some (s, [f]) => { r.storeWith f with push := none, done := r.done ++ [s] }
    | some (s, f :: rest) => { r.storeWith f with push := some (s, rest) }
    | _ => r
  | .load =>
    if r.drain.isNone then
      { r with drain := some ⟨r.writeIdx, r.readIdx, 0, [], r.due⟩, seen := r.done.length }
    else r
  | .read =>
    match r.drain with
    | some d =>
      let s := r.slots (r.slotIdx (d.rd + d.i))
      if d.i < r.toDrain d then
        { r with drain := some { d with i := d.i + 1, out := if s.Counted then d.out ++ [s] else d.out } }
      else r
    | none => r
  | .finish =>
    match r.drain with
    | some d =>
      if d.i < r.toDrain d then r
      else { r with readIdx := d.w, drain := none, drained := r.drained ++ [(d.out, d.due)] }
    | none => r

/-- No drain starts inside a push, or with more pending than fits, unless by whole laps; and no store
hits a slot that the drain under way has still to read. -/
def Respects : RingEvent → Prop
  | .reserve methodId _ _ _ => 1 ≤ methodId ∧ methodId ≤ kMethodCount
  | .store => ∀ d ∈ r.drain, ∀ i < r.toDrain d, d.i ≤ i → r.slotIdx (d.rd + i) ≠ r.slotIdx (r.writeIdx - 1)
  | .load => r.push.isNone = true ∧ (r.writeIdx - r.readIdx ≤ r.capacity ∨ r.capacity ∣ r.writeIdx - r.readIdx)
  | .read | .finish => True

instance : (e : RingEvent) → Decidable (r.Respects e)
  | .reserve .. => inferInstanceAs (Decidable (_ ∧ _))
  | .store => inferInstanceAs (Decidable (∀ d ∈ r.drain, ∀ i < r.toDrain d, _ → _))
  | .load => inferInstanceAs (Decidable (_ ∧ (_ ∨ _)))
  | .read | .finish => instDecidableTrue

def ringStep (r : PerfRing) (e : RingEvent) : PerfRing × Unit := (r.step e, ())

/-- Each drain gives out what was due, and all drains together each pushed sample at most once. -/
structure Exact : Prop where
  yields : ∀ d ∈ r.drained, d.1 = d.2
  once : (r.drained.flatMap Prod.fst).Sublist r.done

/- What a drain has read, and what waits for it in the slots. -/
structure Drains (d : Drain) : Prop where
  ordered : d.rd ≤ d.w ∧ d.w = r.seen
  length : d.due.length = r.toDrain d
  segment : d.due.Sublist ((r.done.take d.w).drop d.rd)
  read : d.out = d.due.take d.i
  unread : ∀ i < r.toDrain d, d.i ≤ i → d.due[i]? = some (r.slots (r.slotIdx (d.rd + i)))

structure Sound : Prop where
  yields : ∀ d ∈ r.drained, d.1 = d.2
  taken : (r.drained.flatMap Prod.fst).Sublist (r.done.take r.readIdx)
  written : r.writeIdx = r.done.length + r.push.toList.length
  pushing : ∀ p ∈ r.push, p.1.Counted ∧ p.2 ≠ [] ∧
    p.2.foldl (fun t f => f t) (r.slots (r.slotIdx (r.writeIdx - 1))) = p.1
  counted : ∀ s ∈ r.done, s.Counted
  held : ∀ j < r.done.length, r.writeIdx ≤ j + r.capacity → r.done[j]? = some (r.slots (r.slotIdx j))
  position : r.readIdx ≤ r.seen ∧ r.seen ≤ r.done.length
  idle : r.drain = none → r.seen = r.readIdx
  drains : ∀ d ∈ r.drain, d.rd = r.readIdx ∧ r.Drains d

variable {r}

theorem slotIdx_eq (w : Nat) : r.slotIdx w = w % r.capacity := by
  rw [slotIdx, capacity, Nat.one_shiftLeft, Nat.and_two_pow_sub_one_eq_mod]

theorem slotIdx_ne {a b : Nat} (less : a < b) (near : b < a + r.capacity) : r.slotIdx a ≠ r.slotIdx b := by
  rw [slotIdx_eq, slotIdx_eq]
  intro same
  have whole : r.capacity ∣ b - a := Nat.dvd_of_mod_eq_zero (Nat.sub_mod_eq_zero_of_mod_eq same.symm)
  have least := Nat.le_of_dvd (Nat.sub_pos_of_lt less) whole
  omega

theorem slotIdx_add {a b : Nat} (laps : r.capacity ∣ b) : r.slotIdx (a + b) = r.slotIdx a := by
  obtain ⟨n, rfl⟩ := laps
  rw [slotIdx_eq, slotIdx_eq, Nat.add_mul_mod_self_left]

theorem slots_storeWith (f : Sample → Sample) : (r.storeWith f).slots =
    update r.slots (r.slotIdx (r.writeIdx - 1)) (f (r.slots (r.slotIdx (r.writeIdx - 1)))) := rfl

namespace Sound

theorem reserve (sound : r.Sound) {m t : UInt8} {a b : UInt64} (counted : 1 ≤ m ∧ m ≤ kMethodCount) :
    (r.step (.reserve m t a b)).Sound := by
  rw [step]
  split
  · rename_i free
    have written := sound.written
    rw [Option.isNone_iff_eq_none.mp free] at written
    refine { sound with written := ?_, pushing := ?_, held := ?_, drains := ?_ }
    · exact congrArg (· + 1) written
    · rintro p ⟨⟩
      exact ⟨counted, cons_ne_nil _ _, rfl⟩
    · intro j below near
      exact sound.held j below (Nat.le_of_succ_le near)
    · intro d under
      obtain ⟨start, drains⟩ := sound.drains d under
      exact ⟨start, { drains with }⟩
  · exact sound

/- A store leaves the slots of the pushed samples that are still held, and by the condition those the
drain has to read. -/
theorem storeWith (sound : r.Sound) (respects : r.Respects .store) {s : Sample} {f : Sample → Sample}
    {rest : List (Sample → Sample)} (under : r.push = some (s, f :: rest)) :
    (∀ j < r.done.length, r.writeIdx ≤ j + r.capacity →
      r.done[j]? = some ((r.storeWith f).slots (r.slotIdx j))) ∧
    rest.foldl (fun t f => f t) ((r.storeWith f).slots (r.slotIdx (r.writeIdx - 1))) = s ∧
    ∀ d ∈ r.drain, d.rd = r.readIdx ∧ (r.storeWith f).Drains d := by
  have written := sound.written
  rw [under] at written
  refine ⟨?_, ?_, ?_⟩
  · intro j below near
    have apart : r.slotIdx j ≠ r.slotIdx (r.writeIdx - 1) := by
      apply slotIdx_ne
      · rw [written]
        exact below
      · omega
    rw [sound.held j below near, slots_storeWith, update_of_ne apart]
  · rw [slots_storeWith, update_self]
    exact (sound.pushing _ under).2.2
  · intro d going
    obtain ⟨start, drains⟩ := sound.drains d going
    refine ⟨start, { drains with unread := ?_ }⟩
    intro i inside ahead
    rw [drains.unread i inside ahead]
    exact congrArg some (update_of_ne (respects d going i inside ahead) _ _).symm

theorem store (sound : r.Sound) (respects : r.Respects .store) : (r.step .store).Sound := by
  rw [step]
  split
  · next s f under =>
    obtain ⟨held, stored, drains⟩ := sound.storeWith respects under
    have written := sound.written
    rw [under] at written
    have inside : ∀ n, n ≤ r.seen → (r.done ++ [s]).take n = r.done.take n :=
      fun n low => take_append_of_le_length (low.trans sound.position.2)
    refine { sound with taken := ?_, written := ?_, pushing := nofun, counted := ?_, held := ?_, position := ?_, drains := ?_ }
    · exact (inside _ sound.position.1).symm ▸ sound.taken
    · rw [length_append]
      exact written
    · exact forall_mem_append.mpr ⟨sound.counted, forall_mem_singleton.mpr (sound.pushing _ under).1⟩
    · intro j below near
      rw [length_append] at below
      rcases Nat.lt_succ_iff_lt_or_eq.mp below with before | rfl
      · rw [getElem?_append_left before]
        exact held j before near
      · rw [getElem?_append_right le_rfl, Nat.sub_self]
        rw [written] at stored
        exact congrArg some stored.symm
    · rw [length_append]
      exact ⟨sound.position.1, Nat.le_succ_of_le sound.position.2⟩
    · intro d going
      obtain ⟨start, drains⟩ := drains d going
      refine ⟨start, { drains with segment := ?_ }⟩
      rw [inside _ drains.ordered.2.le]
      exact drains.segment
  · next s f rest more under =>
    obtain ⟨held, stored, drains⟩ := sound.storeWith respects under
    refine { sound with written := ?_, pushing := ?_, held := held, drains := ?_ }
    · have written := sound.written
      rw [under] at written
      exact written
    · rintro p ⟨⟩
      refine ⟨(sound.pushing _ under).1, ?_, stored⟩
      rintro rfl
      exact more rfl
    · intro d going
      obtain ⟨start, drains⟩ := drains d going
      exact ⟨start, { drains with }⟩
  · exact sound

theorem load (sound : r.Sound) (respects : r.Respects .load) : (r.step .load).Sound := by
  rw [step]
  split
  · rename_i free
    have seen := sound.idle (Option.isNone_iff_eq_none.mp free)
    have position := sound.position
    have written : r.writeIdx = r.done.length := by
      rw [sound.written, Option.isNone_iff_eq_none.mp respects.1]
      rfl
    have tail : r.due = r.done.drop (r.readIdx + (r.writeIdx - r.readIdx - r.capacity)) := by
      rw [due, drop_drop, seen, written]
    refine { sound with position := ⟨position.1.trans position.2, le_rfl⟩, idle := nofun, drains := ?_ }
    rintro d ⟨⟩
    refine ⟨rfl, ⟨seen ▸ written ▸ position.2, written⟩, ?_, ?_, rfl, ?_⟩
    · change r.due.length = min (r.writeIdx - r.readIdx) r.capacity
      rw [tail, length_drop]
      omega
    · rw [written, take_length]
      simp only [tail]
      rw [← drop_drop]
      exact drop_sublist _ _
    · intro i inside _
      -- The window starts `capacity` below the writer, which is a slot of `rd` when whole laps are lost.
      have same : r.slotIdx (r.readIdx + i) = r.slotIdx (r.readIdx + (r.writeIdx - r.readIdx - r.capacity) + i) := by
        rw [Nat.add_right_comm]
        refine (slotIdx_add ?_).symm
        rcases respects.2 with fits | laps
        · rw [Nat.sub_eq_zero_of_le fits]
          exact Nat.dvd_zero _
        · exact Nat.dvd_sub laps (Nat.dvd_refl _)
      change i < min (r.writeIdx - r.readIdx) r.capacity at inside
      change r.due[i]? = some (r.slots (r.slotIdx (r.readIdx + i)))
      rw [same, tail, getElem?_drop]
      apply sound.held
      all_goals omega
  · exact sound

theorem read (sound : r.Sound) : (r.step .read).Sound := by
  rw [step]
  split
  · next d going =>
    obtain ⟨start, drains⟩ := sound.drains d going
    dsimp only
    split
    · rename_i inside
      have next := drains.unread d.i inside le_rfl
      have counted : (r.slots (r.slotIdx (d.rd + d.i))).Counted := by
        apply sound.counted
        have listed := drains.segment.subset (mem_of_getElem? next)
        exact mem_of_mem_take (mem_of_mem_drop listed)
      refine { sound with idle := nofun, drains := ?_ }
      rintro e ⟨⟩
      refine ⟨start, { drains with read := ?_, unread := ?_ }⟩
      · rw [if_pos counted, drains.read, take_add_one, next]
        rfl
      · intro i within ahead
        exact drains.unread i within (Nat.le_of_succ_le ahead)
    · exact sound
  · exact sound

theorem finish (sound : r.Sound) : (r.step .finish).Sound := by
  rw [step]
  split
  · next d going =>
    obtain ⟨start, drains⟩ := sound.drains d going
    split
    · exact sound
    · rename_i through
      have whole : d.out = d.due := by
        rw [drains.read, take_of_length_le]
        rw [drains.length]
        exact Nat.le_of_not_lt through
      refine { sound with yields := ?_, taken := ?_, position := ?_, idle := ?_, drains := nofun }
      · exact forall_mem_append.mpr ⟨sound.yields, forall_mem_singleton.mpr whole⟩
      · have split : r.done.take d.w = r.done.take r.readIdx ++ (r.done.take d.w).drop d.rd := by
          have front : (r.done.take d.w).take d.rd = r.done.take d.rd := by
            rw [take_take, min_eq_left drains.ordered.1]
          rw [← start, ← front, take_append_drop]
        rw [flatMap_append, flatMap_singleton, whole, split]
        exact sound.taken.append drains.segment
      · exact ⟨drains.ordered.2.le, sound.position.2⟩
      · exact fun _ => drains.ordered.2.symm
  · exact sound

end Sound

theorem empty_sound (capacityPow2 : Nat) : (empty capacityPow2).Sound where
  yields := nofun
  taken := Sublist.slnil
  written := rfl
  pushing := nofun
  counted := nofun
  held := nofun
  position := ⟨le_rfl, le_rfl⟩
  idle _ := rfl
  drains := nofun

theorem step_sound (e : RingEvent) (sound : r.Sound) (respects : r.Respects e) : (r.step e).Sound := by
  cases e with
  | reserve m t a b => exact sound.reserve respects
  | store => exact sound.store respects
  | load => exact sound.load respects
  | read => exact sound.read
  | finish => exact sound.finish

theorem drains_exact (capacityPow2 : Nat) (es : List RingEvent)
    (respected : Along ringStep Respects (empty capacityPow2) es) : (run ringStep (empty capacityPow2) es).Exact := by
  have sound := Base.run_invariant ringStep Sound (fun _ e => step_sound e) (empty_sound capacityPow2) respected
  exact ⟨sound.yields, sound.taken.trans (take_sublist _ _)⟩

theorem quiet_drain_exact :
    (run ringStep (empty 4) [.reserve 1 7 5 9, .store, .store, .store, .store, .store, .load, .read, .finish]).Exact :=
  drains_exact 4 _ (by decide)

/-- A drain between the stores of a push gives out a sample that nobody pushed. -/
theorem drain_inside_push :
    ¬ ∀ (capacityPow2 : Nat) (es : List RingEvent),
      (∀ m t a b, .reserve m t a b ∈ es → 1 ≤ m ∧ m ≤ kMethodCount) → (run ringStep (empty capacityPow2) es).Exact := by
  intro claim
  have exact := claim 4 [.reserve 1 7 5 9, .store, .load, .read, .finish] fun m t a b mem => by
    obtain ⟨rfl, -⟩ : m = 1 ∧ t = 7 ∧ a = 5 ∧ b = 9 := by simpa using mem
    decide
  have torn := exact.yields ([⟨1, 0, 0, 0, 0⟩], []) (by decide)
  cases torn

end PerfRing

end TidesdbMysql
