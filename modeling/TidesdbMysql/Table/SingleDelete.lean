import TidesdbMysql.Base.Alternate
import TidesdbMysql.Table.Lifetimes

/-! The order of puts and single deletes on one key. The engine's single delete cancels one put: on
every key of an index they have to take turns, a put first. -/
namespace TidesdbMysql

open Base (Bytes SortedMap Alternates turn run Along)
open List

section OnKey

variable {V : Type}

section
variable (issued : List (CfOp V)) (k : Bytes) (entries : List (Bytes × V)) (keys : List Bytes)
  (xs ys ops : List (CfOp V))

def CfOp.putOn : CfOp V → Option Bool
  | .put j _ => if j = k then some true else none
  | .delete j => if j = k then some false else none

def opsOn : List Bool := ops.filterMap (CfOp.putOn k)

theorem opsOn_append : opsOn k (xs ++ ys) = opsOn k xs ++ opsOn k ys :=
  filterMap_append

theorem opsOn_deletes : opsOn k (keys.map (CfOp.delete : Bytes → CfOp V)) = List.replicate (keys.count k) false := by
  induction keys with
  | nil => rfl
  | cons j rest ih =>
    rw [opsOn, map_cons, filterMap_cons, ← opsOn, ih, CfOp.putOn, count_cons]
    by_cases here : j = k <;> simp [here, replicate_succ]

theorem opsOn_puts :
    opsOn k (entries.map fun e => CfOp.put e.1 e.2) = List.replicate ((entries.map Prod.fst).count k) true := by
  induction entries with
  | nil => rfl
  | cons e rest ih =>
    rw [opsOn, map_cons, filterMap_cons, ← opsOn, ih, CfOp.putOn, map_cons, count_cons]
    by_cases here : e.1 = k <;> simp [here, replicate_succ]

theorem opsOn_eq {ops : List (CfOp V)} (ordered : DeletesFirst ops) (k : Bytes) :
    opsOn k ops = List.replicate ((deletedKeys ops).count k) false ++ List.replicate ((writtenKeys ops).count k) true := by
  conv_lhs => rw [ordered]
  rw [opsOn_append, opsOn_deletes, opsOn_puts]
  rfl

def Stands : Prop := turn true (opsOn k issued) = false
  deriving Decidable

end

/-- No key is deleted twice or without a put, and none is put twice or over an earlier put. -/
def InTurn (issued ops : List (CfOp V)) : Prop :=
  ((deletedKeys ops).Nodup ∧ ∀ k ∈ deletedKeys ops, Stands issued k) ∧
    (writtenKeys ops).Nodup ∧ ∀ k ∈ writtenKeys ops, Stands issued k → k ∈ deletedKeys ops
  deriving Decidable

theorem alternates_call {ops : List (CfOp V)} (ordered : DeletesFirst ops) (first : Bool) (k : Bytes) :
    Alternates first (opsOn k ops) ↔ ((deletedKeys ops).count k ≤ 1 ∧ (k ∈ deletedKeys ops → first = false)) ∧
        (writtenKeys ops).count k ≤ 1 ∧ (k ∈ writtenKeys ops → first = false → k ∈ deletedKeys ops) := by
  rw [opsOn_eq ordered, Base.alternates_append, Base.alternates_replicate, Base.alternates_replicate, Base.turn_replicate]
  have deleted := count_pos_iff (a := k) (l := deletedKeys ops)
  have written := count_pos_iff (a := k) (l := writtenKeys ops)
  rw [← deleted, ← written]
  generalize (deletedKeys ops).count k = n
  generalize (writtenKeys ops).count k = m
  cases first <;> simp <;> omega

theorem inTurn_iff {ops : List (CfOp V)} (ordered : DeletesFirst ops) (issued : List (CfOp V)) :
    (∀ k, Alternates (turn true (opsOn k issued)) (opsOn k ops)) ↔ InTurn issued ops := by
  simp only [alternates_call ordered, InTurn, nodup_iff_count_le_one, Stands, forall_and]

end OnKey

section Calls

variable {T : Schema} {ix : Index} {i : Nat} {issued : List (CfOp Bytes)}

end Calls

structure Issued where
  table : TimedTable
  issued : Nat → List (CfOp Bytes)

namespace Issued

def step (T : Schema) (o : TtlOptions) (s : Issued) (call : TimedCall) : Issued × HaCode :=
  let ops := dmlOps T (s.table.expire call.now).plain call.dml
  ({ table := (s.table.step T o call).1
     issued := fun i => s.issued i ++ ops.filterMap (TableOp.onEntries i) }, (s.table.step T o call).2)

def start : Issued := ⟨TimedTable.empty, fun _ => []⟩

section
variable (o : TtlOptions) (T : Schema) (s : Issued) (call : TimedCall)

def Alternating : Prop :=
  ∀ (i : Nat) (ix : Index), T.indexes[i]? = some ix → ∀ k, Alternates true (opsOn k (s.issued i))

def CallInTurn : Prop :=
  ∀ i, (inside : i < T.indexes.length) →
    InTurn (s.issued i) (entryOps T (s.table.expire call.now).plain call.dml i T.indexes[i])

instance : Decidable (CallInTurn T s call) :=
  inferInstanceAs (Decidable (∀ i, (inside : i < T.indexes.length) →
    InTurn (s.issued i) (entryOps T (s.table.expire call.now).plain call.dml i T.indexes[i])))

theorem step_issued {T : Schema} {i : Nat} {ix : Index} (at_i : T.indexes[i]? = some ix) :
    (s.step T o call).1.issued i = s.issued i ++ entryOps T (s.table.expire call.now).plain call.dml i ix :=
  congrArg (s.issued i ++ ·) (onEntries_dmlOps _ call.dml at_i)

end

theorem step_alternating {T : Schema} {o : TtlOptions} {s : Issued} {call : TimedCall} (before : Alternating T s) :
    Alternating T (s.step T o call).1 ↔ CallInTurn T s call := by
  constructor
  · intro after i inside
    have at_i : T.indexes[i]? = some T.indexes[i] := List.getElem?_eq_getElem inside
    refine (inTurn_iff (entryOps_deletesFirst T _ call.dml i _) _).mp fun k => ?_
    have whole := after i _ at_i k
    rw [step_issued o s call at_i, opsOn_append, Base.alternates_append] at whole
    exact whole.2
  · intro in_turn i ix at_i k
    obtain ⟨inside, rfl⟩ := List.getElem?_eq_some_iff.mp at_i
    rw [step_issued o s call at_i, opsOn_append, Base.alternates_append]
    exact ⟨before i _ at_i k, (inTurn_iff (entryOps_deletesFirst T _ call.dml i _) _).mpr (in_turn i inside) k⟩

/- `id` the primary key, `body` with a FULLTEXT key whose words are single letters. -/
def letters : Schema where
  pk := some (byteKey 0)
  indexes := [⟨byteKey 1, .fulltext fun doc => doc.map fun letter => [letter]⟩]
  nextNumberField := none

/- INSERT (1, 'a'), then UPDATE ... SET body = 'a b'. -/
def letterRun : List TimedCall :=
  [⟨0, 0, .write (fun _ => none) (insertOf [some [1], some [97]])⟩,
    ⟨0, 0, .update ⟨[1], [some [1], some [97]], [some [1], some [97, 98]], [1], zeroed⟩⟩]

/- The word is replaced, and the row is deleted. -/
example : Along (step letters ⟨none, 0⟩) (CallInTurn letters) start
    [⟨0, 0, .write (fun _ => none) (insertOf [some [1], some [97]])⟩,
      ⟨0, 0, .update ⟨[1], [some [1], some [97]], [some [1], some [98]], [1], zeroed⟩⟩,
      ⟨0, 0, .delete ⟨[1], [some [1], some [98]], zeroed⟩⟩] := by
  decide

end Issued

end TidesdbMysql
