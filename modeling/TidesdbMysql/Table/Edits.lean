import TidesdbMysql.Table.Consistency

/-! What a call of a row function takes out of each column family and what it puts there. In every
column family the deletes come before the puts. -/
namespace TidesdbMysql

open Base (Bytes SortedMap)
open List Function

variable {V : Type}

def CfOp.deleted : CfOp V → Option Bytes
  | .put _ _ => none
  | .delete k => some k

def CfOp.written : CfOp V → Option (Bytes × V)
  | .put k v => some (k, v)
  | .delete _ => none

def deletedKeys (ops : List (CfOp V)) : List Bytes := ops.filterMap CfOp.deleted

def writtenEntries (ops : List (CfOp V)) : List (Bytes × V) := ops.filterMap CfOp.written

def writtenKeys (ops : List (CfOp V)) : List Bytes := (writtenEntries ops).map Prod.fst

def DeletesFirst (ops : List (CfOp V)) : Prop :=
  ops = (deletedKeys ops).map CfOp.delete ++ (writtenEntries ops).map fun e => CfOp.put e.1 e.2

section Shapes

variable {A B : Type}

@[simp] theorem deletedKeys_append (xs ys : List (CfOp V)) : deletedKeys (xs ++ ys) = deletedKeys xs ++ deletedKeys ys :=
  filterMap_append

@[simp] theorem deletedKeys_deletes (xs : List A) (f : A → Bytes) :
    deletedKeys (xs.map fun x => (CfOp.delete (f x) : CfOp V)) = xs.map f := by
  simp [deletedKeys, filterMap_map, comp_def, CfOp.deleted]

section
variable (xs : List A) (f : A → Bytes) (ys : List B) (g : B → Bytes) (h : B → V)

@[simp] theorem deletedKeys_puts : deletedKeys (ys.map fun y => CfOp.put (g y) (h y)) = [] := by
  simp [deletedKeys, filterMap_map, comp_def, CfOp.deleted]

@[simp] theorem writtenEntries_deletes : writtenEntries (xs.map fun x => (CfOp.delete (f x) : CfOp V)) = [] := by
  simp [writtenEntries, filterMap_map, comp_def, CfOp.written]

@[simp] theorem writtenEntries_puts :
    writtenEntries (ys.map fun y => CfOp.put (g y) (h y)) = ys.map fun y => (g y, h y) := by
  simp [writtenEntries, filterMap_map, comp_def, CfOp.written]

theorem deletesFirst_replace :
    DeletesFirst ((xs.map fun x => CfOp.delete (f x)) ++ ys.map fun y => CfOp.put (g y) (h y)) := by
  have entries : writtenEntries ((xs.map fun x => (CfOp.delete (f x) : CfOp V)) ++ ys.map fun y => CfOp.put (g y) (h y)) =
      ys.map fun y => (g y, h y) := by
    rw [writtenEntries, filterMap_append]
    exact congrArg₂ (· ++ ·) (writtenEntries_deletes xs f) (writtenEntries_puts ys g h)
  rw [DeletesFirst, entries]
  simp [comp_def]

theorem deletesFirst_deletes : DeletesFirst (xs.map fun x => (CfOp.delete (f x) : CfOp V)) := by
  simpa using deletesFirst_replace xs f ([] : List Empty) nofun nofun

theorem deletesFirst_puts : DeletesFirst (ys.map fun y => CfOp.put (g y) (h y)) := by
  simpa using deletesFirst_replace ([] : List Empty) nofun ys g h

end

end Shapes

theorem has_deletes (m : SortedMap Bytes V) (keys : List Bytes) (k : Bytes) (v : V) :
    (applyOps m (keys.map CfOp.delete)).Has k v ↔ k ∉ keys ∧ m.Has k v := by
  induction keys generalizing m with
  | nil => simp [applyOps]
  | cons key rest ih =>
    simp only [applyOps, map_cons, foldl_cons, CfOp.apply] at ih ⊢
    rw [ih, SortedMap.has_erase, mem_cons, not_or]
    exact and_left_comm.trans and_assoc.symm

theorem writeEntries_deletesFirst (T : Schema) (scratch : Scratch) (pk : Bytes) (record : Record) (i : Nat) (ix : Index) :
    DeletesFirst (writeEntries T scratch pk record i ix) := by
  unfold writeEntries
  cases ix.kind with
  | ordinary unique => rfl
  | fulltext | spatial => exact deletesFirst_puts _ _ _

theorem deleteEntries_deletesFirst (T : Schema) (req : Delete) (i : Nat) (ix : Index) :
    DeletesFirst (deleteEntries T req i ix) := by
  unfold deleteEntries
  cases ix.kind with
  | ordinary unique => rfl
  | fulltext | spatial => exact deletesFirst_deletes _ _

theorem updateEntries_deletesFirst (T : Schema) (req : Update) (pk : Bytes) (i : Nat) (ix : Index) :
    DeletesFirst (updateEntries T req pk i ix) := by
  unfold updateEntries
  cases ix.kind with
  | ordinary unique =>
    simp only
    split
    · rfl
    · split <;> rfl
  | fulltext tokenize =>
    simp only
    split
    · unfold ftsUpdate
      split <;> exact deletesFirst_replace _ _ _ _ _
    · rfl
  | spatial mbr =>
    simp only
    split
    · exact deletesFirst_replace _ _ _ _ _
    · rfl

section Images

variable {T : Schema} {ix : Index} {i : Nat}

end Images

def dmlOps (T : Schema) (s : Table) : Dml → List TableOp
  | .write iters req => (writeRow T s iters req).ops
  | .update req => updateOps T req
  | .delete req => .row (.delete req.current) :: indexOps (deleteEntries T req) 0 T.indexes

def Accepted (T : Schema) (s : Table) (iters : DupIters) (req : Insert) : Prop := req.Served T ∧ ¬ Hit T s iters req
  deriving Decidable

section
variable (T : Schema) (s : Table) (call : Dml) (i : Nat) (ix : Index)

def writtenRow : Dml → Option (Bytes × Record)
  | .write iters req => if Accepted T s iters req then some (newPk T s req, req.stored T) else none
  | .update req => some (updatedPk T req, req.new)
  | .delete _ => none

def removedRows : Dml → List Bytes
  | .write _ _ => []
  | .update req => if req.current ≠ updatedPk T req then [req.current] else []
  | .delete req => [req.current]

def rowOps : List (CfOp Record) :=
  (removedRows T call).map CfOp.delete ++ (writtenRow T s call).toList.map fun e => CfOp.put e.1 e.2

/-- The writes of a call on the column family of the key `ix`, number `i`. -/
def entryOps : List (CfOp Bytes) :=
  match call with
  | .write iters req =>
    if Accepted T s iters req then writeEntries T req.scratch (newPk T s req) (req.stored T) i ix else []
  | .update req => updateEntries T req (updatedPk T req) i ix
  | .delete req => deleteEntries T req i ix

theorem entryOps_deletesFirst : DeletesFirst (entryOps T s call i ix) := by
  cases call with
  | write iters req =>
    simp only [entryOps]
    split
    · exact writeEntries_deletesFirst T req.scratch _ _ i ix
    · rfl
  | update req => exact updateEntries_deletesFirst T req _ i ix
  | delete req => exact deleteEntries_deletesFirst T req i ix

end

theorem indexOps_nil {f : Nat → Index → List (CfOp Bytes)} (nothing : ∀ i ix, f i ix = []) (i : Nat) (ixs : List Index) :
    indexOps f i ixs = [] := by
  induction ixs generalizing i with
  | nil => rfl
  | cons ix rest ih => rw [indexOps, nothing, ih, map_nil, append_nil]

theorem dmlOps_eq (T : Schema) (s : Table) (call : Dml) :
    dmlOps T s call = (rowOps T s call).map TableOp.row ++ indexOps (entryOps T s call) 0 T.indexes := by
  cases call with
  | write iters req =>
    have none_written : ¬ Accepted T s iters req → dmlOps T s (.write iters req) = [] →
        dmlOps T s (.write iters req) = (rowOps T s (.write iters req)).map TableOp.row ++
          indexOps (entryOps T s (.write iters req)) 0 T.indexes := by
      intro rejected nothing
      have idle : ∀ i ix, entryOps T s (.write iters req) i ix = [] := fun i ix => if_neg rejected
      rw [nothing, indexOps_nil idle]
      simp [rowOps, removedRows, writtenRow, rejected]
    rcases writeRow_cases T s iters req with ⟨unserved, nothing, -⟩ | ⟨counter, served, ⟨hit, -, nothing, -⟩ | ⟨free, -, ops, -⟩⟩
    · exact none_written (fun accepted => unserved accepted.1) nothing
    · exact none_written (fun accepted => accepted.2 hit) nothing
    · have accepted : Accepted T s iters req := ⟨served, free⟩
      have entries : entryOps T s (.write iters req) = writeEntries T req.scratch (newPk T s req) (req.stored T) := by
        funext i ix
        exact if_pos accepted
      rw [dmlOps, ops, entries]
      simp [rowOps, removedRows, writtenRow, accepted, writeOps]
  | update req =>
    rw [dmlOps, updateOps_eq]
    simp only [rowOps, removedRows, writtenRow]
    split <;> rfl
  | delete req => rfl

end TidesdbMysql
