import TidesdbMysql.Table.Consistency
import TidesdbMysql.Table.Reserve

/-! The counters of the share over whole runs: `recover_counters`, `reset_auto_increment` and
`delete_all_rows` beside the row functions. The meta keys of the data family sort before its
rows and are left out. -/
namespace TidesdbMysql

open Base (Bytes leBytes beBytes beValue SortedMap run Along)

def hiddenPkFirstRowId : Nat := 1

/-- Which of the engine's calls in `recover_counters` succeed. -/
structure RecoverAnswers where
  txnBegin : Bool
  iterNew : Bool
  iterKey : Bool
  iterValue : Bool
  deriving DecidableEq

def recovered : RecoverAnswers := ⟨true, true, true, true⟩

section
variable (T : Schema) (a : RecoverAnswers) (s : Table) (value : Nat)

def seedCounters : Table :=
  match s.rows.entries.getLast? with
  | none => s
  | some (key, record) =>
    if a.iterKey = false then s
    else
      match T.pk, T.nextNumberField with
      | none, _ => if key.length = hiddenPkSize then { s with nextRowId := (beValue key + 1) % 2 ^ 64 } else s
      | some _, none => s
      | some _, some f => if a.iterValue then { s with autoIncVal := f.valInt (column record f.field) } else s

def recoverCounters : Table :=
  if a.txnBegin = false then s
  else
    let s := if a.iterNew then seedCounters T a s else s
    if T.pk.isNone ∧ s.nextRowId = 0 then { s with nextRowId := hiddenPkFirstRowId } else s

def reopen : Table :=
  recoverCounters T a { s with nextRowId := 1, autoIncVal := 0 }

def resetAutoIncrement : Table :=
  { s with
    autoIncVal := if value > 0 then value - 1 else 0
    nextRowId := if value > 0 then value else hiddenPkFirstRowId }

/- `auto_inc_val` stays. -/
def deleteAllRows : Table :=
  { s with
    rows := SortedMap.empty
    index := fun _ => SortedMap.empty
    nextRowId := hiddenPkFirstRowId }

end

inductive CounterEvent where
  | dml (call : Dml)
  | getAutoIncrement (q : Reservation)
  | truncate
  | reset (value : Nat)
  | reopen (a : RecoverAnswers)

def counterStep (T : Schema) (s : Table) : CounterEvent → Table × HaCode
  | .dml call => dmlStep T s call
  | .getAutoIncrement q => ({ s with autoIncVal := (s.autoIncVal + q.nbDesiredValues) % 2 ^ 64 }, .ok)
  | .truncate => (deleteAllRows s, .ok)
  | .reset value => (resetAutoIncrement s value, .ok)
  | .reopen a => (reopen T a s, .ok)

def CounterEvent.Called (s : Table) : CounterEvent → Prop
  | .dml call => Positioned s call
  | _ => True

instance (s : Table) (e : CounterEvent) : Decidable (e.Called s) := by
  cases e <;> dsimp only [CounterEvent.Called] <;> infer_instance

/- What the row functions do to rows and counters. -/

section Effects
variable {T : Schema} {s : Table}

@[simp] theorem applyAll_nextRowId (s : Table) (ops : List TableOp) : (s.applyAll ops).nextRowId = s.nextRowId := by
  induction ops generalizing s with
  | nil => rfl
  | cons op rest ih =>
    refine (ih (s.apply op)).trans ?_
    cases op <;> rfl

@[simp] theorem applyAll_autoIncVal (s : Table) (ops : List TableOp) : (s.applyAll ops).autoIncVal = s.autoIncVal := by
  induction ops generalizing s with
  | nil => rfl
  | cons op rest ih =>
    refine (ih (s.apply op)).trans ?_
    cases op <;> rfl

theorem writeRow_rows (iters : DupIters) (req : Insert) (pk record : _) :
    (writeRow T s iters req).table.rows.Has pk record ↔
      (req.Served T ∧ ¬ Hit T s iters req) ∧ pk = newPk T s req ∧ record = req.stored T ∨
      ¬ ((req.Served T ∧ ¬ Hit T s iters req) ∧ pk = newPk T s req) ∧ s.rows.Has pk record := by
  rcases writeRow_cases T s iters req with ⟨unserved, -, same⟩ | ⟨counter, served, hit | missed⟩
  · rw [same]
    simp [unserved]
  · rw [hit.2.2.2]
    simp [hit.1, Table.counted]
  · have rows : ((s.counted T counter).applyAll (writeOps T req (newPk T s req))).rows =
        s.rows.put (newPk T s req) (req.stored T) :=
      rows_after [.put (newPk T s req) (req.stored T)]
        (writeEntries T req.scratch (newPk T s req) (req.stored T))
    rw [missed.2.2.2, rows, SortedMap.has_put]
    simp [served, missed.1]

theorem writeRow_counters (iters : DupIters) (req : Insert) : (writeRow T s iters req).table.nextRowId =
      (if req.Served T ∧ T.pk = none then s.nextRowId + 1 else s.nextRowId) ∧
    (writeRow T s iters req).table.autoIncVal = match autoIncrement T s req with
      | .ok counter => counter | .error _ => s.autoIncVal := by
  have served := served_iff T s req
  unfold writeRow
  cases auto : autoIncrement T s req with
  | error e =>
    have unserved : ¬ req.Served T := by
      rw [served, auto]
      rintro ⟨counter, same⟩
      cases same
    simp [unserved]
  | ok counter =>
    have answered : req.Served T := served.mpr ⟨counter, auto⟩
    have ids : (s.counted T counter).nextRowId = if req.Served T ∧ T.pk = none then s.nextRowId + 1 else s.nextRowId := by
      cases user : T.pk <;> simp [Table.counted, answered, user]
    simp only
    split
    · exact ⟨ids, rfl⟩
    · split
      · exact ⟨ids, rfl⟩
      · simp only [applyAll_nextRowId, applyAll_autoIncVal]
        exact ⟨ids, rfl⟩

theorem seedCounters_rows (a : RecoverAnswers) : (seedCounters T a s).rows = s.rows := by
  unfold seedCounters
  repeat' split
  all_goals rfl

theorem reopen_rows (a : RecoverAnswers) : (reopen T a s).rows = s.rows := by
  simp only [reopen, recoverCounters, apply_ite Table.rows, seedCounters_rows, ite_self]

end Effects

end TidesdbMysql
