import Mathlib.Data.List.ReduceOption
import Mathlib.Logic.Function.Basic
import TidesdbMysql.Base.Run

/-! A shared cell that threads update in compare-exchange loops. The stores of every
interleaving form one sequence, each made over the value the one before it left. -/
namespace TidesdbMysql.Base
open List Function Option

variable {S Op V : Type}

/-- The value, and the threads that are in a loop, each with the value it has read last. -/
structure Cell (S Op V : Type) where
  value : V
  pending : S → Option (Op × V)

def Cell.idle (S Op : Type) (v : V) : Cell S Op V := ⟨v, fun _ => none⟩

inductive CellEvent (S Op : Type) where
  | call (s : S) (op : Op)
  | attempt (s : S) (spurious : Bool)
  deriving DecidableEq

variable [DecidableEq S] [DecidableEq V]

/-- `next` is what an operation stores over the value read, none where its loop ends. A
compare-exchange may fail for no reason; one that fails loads again. -/
def cellStep (next : Op → V → Option V) (c : Cell S Op V) : CellEvent S Op → Cell S Op V × Option (Op × V)
  | .call s op =>
    match c.pending s with
    | some _ => (c, none)
    | none => ({ c with pending := Function.update c.pending s (some (op, c.value)) }, none)
  | .attempt s spurious =>
    match c.pending s with
    | none => (c, none)
    | some (op, seen) =>
      match next op seen with
      | none => ({ c with pending := Function.update c.pending s none }, none)
      | some v =>
        if c.value = seen ∧ spurious = false then (⟨v, Function.update c.pending s none⟩, some (op, seen))
        else ({ c with pending := Function.update c.pending s (some (op, c.value)) }, none)

def stores (next : Op → V → Option V) (c : Cell S Op V) (events : List (CellEvent S Op)) : List (Op × V) :=
  (results (cellStep next) c events).reduceOption

inductive Chain (next : Op → V → Option V) : V → List (Op × V) → V → Prop where
  | nil (v : V) : Chain next v [] v
  | cons {op : Op} {v v' w : V} {rest : List (Op × V)} (moved : next op v = some v') (tail : Chain next v' rest w) :
    Chain next v ((op, v) :: rest) w

section
variable (next : Op → V → Option V) (c : Cell S Op V) (events : List (CellEvent S Op)) (e : CellEvent S Op)
  (rest : List (CellEvent S Op))

theorem stores_cons :
    stores next c (e :: rest) = (cellStep next c e).2.toList ++ stores next (cellStep next c e).1 rest := by
  rw [stores, results]
  cases (cellStep next c e).2 with
  | none => exact reduceOption_cons_of_none _
  | some store => exact reduceOption_cons_of_some _ _

theorem cellStep_cases : ((cellStep next c e).2 = none ∧ (cellStep next c e).1.value = c.value) ∨
    ∃ s op v, c.pending s = some (op, c.value) ∧ next op c.value = some v ∧
      (cellStep next c e).2 = some (op, c.value) ∧ (cellStep next c e).1.value = v := by
  cases e with
  | call s op =>
    simp only [cellStep]
    cases c.pending s with
    | none | some => exact .inl ⟨rfl, rfl⟩
  | attempt s spurious =>
    simp only [cellStep]
    cases waiting : c.pending s with
    | none => exact .inl ⟨rfl, rfl⟩
    | some pair =>
      obtain ⟨op, seen⟩ := pair
      cases stored : next op seen with
      | none =>
        simp [stored]
      | some v =>
        by_cases unchanged : c.value = seen ∧ spurious = false
        · simp only [stored, if_pos unchanged]
          obtain ⟨rfl, -⟩ := unchanged
          exact .inr ⟨s, op, v, waiting, stored, rfl, rfl⟩
        · simp [stored, if_neg unchanged]

theorem stores_chain : Chain next c.value (stores next c events) (run (cellStep next) c events).value := by
  induction events generalizing c with
  | nil => exact .nil _
  | cons e rest ih =>
    have later := ih (cellStep next c e).1
    rw [stores_cons, run]
    rcases cellStep_cases next c e with ⟨quiet, same⟩ | ⟨s, op, v, -, moved, stored, now⟩
    · rw [quiet]
      rw [same] at later
      exact later
    · rw [stored]
      rw [now] at later
      exact .cons moved later

theorem pending_called {s : S} {op : Op} {v : V} (waits : (cellStep next c e).1.pending s = some (op, v)) :
    (∃ w, c.pending s = some (op, w)) ∨ e = .call s op := by
  cases e with
  | call t other =>
    simp only [cellStep] at waits
    cases waiting : c.pending t with
    | some pair =>
      rw [waiting] at waits
      exact .inl ⟨v, waits⟩
    | none =>
      simp only [waiting] at waits
      by_cases same : s = t
      · subst same
        rw [update_self, some.injEq, Prod.mk.injEq] at waits
        exact .inr (by rw [waits.1])
      · rw [update_of_ne same] at waits
        exact .inl ⟨v, waits⟩
  | attempt t spurious =>
    have kept : ∀ {x : Option (Op × V)}, (∀ w, x = some (op, w) → ∃ w, c.pending t = some (op, w)) →
        update c.pending t x s = some (op, v) → ∃ w, c.pending s = some (op, w) := by
      intro x own waits
      by_cases same : s = t
      · subst same
        rw [update_self] at waits
        exact own v waits
      · rw [update_of_ne same] at waits
        exact ⟨v, waits⟩
    left
    simp only [cellStep] at waits
    cases waiting : c.pending t with
    | none =>
      rw [waiting] at waits
      exact ⟨v, waits⟩
    | some pair =>
      obtain ⟨held, seen⟩ := pair
      rw [waiting] at waits kept
      simp only at waits
      split at waits
      · exact kept (fun w none_is => by cases none_is) waits
      · split at waits
        · exact kept (fun w none_is => by cases none_is) waits
        · refine kept (fun w again => ⟨seen, ?_⟩) waits
          rw [some.injEq, Prod.mk.injEq] at again
          rw [again.1]

theorem stores_called {op : Op} {v : V} (stored : (op, v) ∈ stores next c events) :
    (∃ s w, c.pending s = some (op, w)) ∨ ∃ s, CellEvent.call s op ∈ events := by
  induction events generalizing c with
  | nil => cases stored
  | cons e rest ih =>
    rw [stores_cons, mem_append] at stored
    rcases stored with now | later
    · rcases cellStep_cases next c e with ⟨quiet, -⟩ | ⟨s, op', w, waits, -, store, -⟩
      · rw [quiet] at now
        cases now
      · rw [store, toList_some, mem_singleton, Prod.mk.injEq] at now
        rw [← now.1] at waits
        exact .inl ⟨s, _, waits⟩
    · rcases ih _ later with ⟨s, w, waits⟩ | ⟨s, called⟩
      · rcases pending_called next c e waits with ⟨w', before⟩ | rfl
        · exact .inl ⟨s, w', before⟩
        · exact .inr ⟨s, mem_cons_self⟩
      · exact .inr ⟨s, mem_cons_of_mem _ called⟩

end

end TidesdbMysql.Base
