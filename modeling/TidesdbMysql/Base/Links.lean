import Mathlib.Data.List.Basic
import Mathlib.Logic.Function.Basic

/-! Singly linked lists: a head pointer and a `next` pointer in every node. -/
namespace TidesdbMysql.Base
open Function

variable {A : Type}

inductive Linked (next : A → Option A) : Option A → List A → Prop where
  | nil : Linked next none []
  | cons {a : A} {rest : List A} (tail : Linked next (next a) rest) : Linked next (some a) (a :: rest)

variable {next next' : A → Option A} {p : Option A} {nodes : List A}

theorem Linked.congr (linked : Linked next p nodes) (same : ∀ a ∈ nodes, next' a = next a) : Linked next' p nodes := by
  induction linked with
  | nil => exact .nil
  | cons tail ih =>
    rw [List.forall_mem_cons] at same
    rw [← same.1] at ih
    exact .cons (ih same.2)

theorem linked_none : Linked next none nodes ↔ nodes = [] := by
  constructor
  · intro linked
    cases linked
    rfl
  · rintro rfl
    exact .nil

theorem Linked.pop {a : A} (linked : Linked next (some a) nodes) :
    ∃ rest, nodes = a :: rest ∧ Linked next (next a) rest := by
  cases linked with
  | cons tail => exact ⟨_, rfl, tail⟩

variable [DecidableEq A]

theorem Linked.push (linked : Linked next p nodes) {a : A} (outside : a ∉ nodes) :
    Linked (Function.update next a p) (some a) (a :: nodes) := by
  refine .cons ?_
  rw [update_self]
  refine linked.congr fun b mem => update_of_ne ?_ _ _
  rintro rfl
  exact outside mem

theorem Linked.update (linked : Linked next p nodes) {a : A} (outside : a ∉ nodes) (q : Option A) :
    Linked (Function.update next a q) p nodes := by
  refine linked.congr fun b mem => update_of_ne ?_ _ _
  rintro rfl
  exact outside mem

end TidesdbMysql.Base
