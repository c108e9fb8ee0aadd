import TidesdbMysql.Base.Expiry
import TidesdbMysql.Table.Edits

/-! Tables whose rows expire. A lifetime goes with every put, the engine makes a deadline of it, and
each entry of a column family dies at its own. -/
namespace TidesdbMysql

open Base (Bytes SortedMap Deadline LiveAt Lasts run Along)
open List Function Option Base.SortedMap

variable {ix : Index} {ops : List (CfOp Bytes)} {record : Record}

/-- The TTL_COL column, with its `val_int`. -/
structure TtlField where
  field : Nat
  valInt : Bytes → Int64

structure TtlOptions where
  ttlField : Option TtlField
  defaultTtl : UInt64

section
variable (o : TtlOptions) (sessTtl : UInt64) (record : Record)

def TtlOptions.hasTtl : Bool := decide (0 < o.defaultTtl) || o.ttlField.isSome

/- `ttl_seconds` at the end of `compute_row_ttl`: the column, or the session, or the table. -/
def ttlSeconds : Int64 :=
  let own : Int64 := (o.ttlField.bind fun f => (column record f.field).map f.valInt).getD 0
  let session := if own ≤ 0 ∧ 0 < sessTtl then sessTtl.toInt64 else own
  if session ≤ 0 ∧ 0 < o.defaultTtl then o.defaultTtl.toInt64 else session

/-- The lifetime of a row; `none` is TIDESDB_TTL_NONE. -/
def computeRowTtl : Option Nat :=
  if (ttlSeconds o sessTtl record).toInt ≤ 0 then none else some (ttlSeconds o sessTtl record).toInt.toNat

def rowTtl : Option Nat :=
  if o.hasTtl ∨ 0 < sessTtl then computeRowTtl o sessTtl record else none

end

theorem rowTtl_pos {o : TtlOptions} {sessTtl : UInt64} {seconds : Nat} (given : seconds ∈ rowTtl o sessTtl record) :
    0 < seconds := by
  unfold rowTtl at given
  split at given
  · unfold computeRowTtl at given
    split at given
    · cases given
    · cases given
      omega
  · cases given

structure TimedTable where
  rows : SortedMap Bytes (Record × Deadline)
  index : Nat → SortedMap Bytes (Bytes × Deadline)
  nextRowId : Nat
  autoIncVal : Nat
  clock : Nat

/- A call at a moment, under the session's `tidesdb_ttl`. -/
structure TimedCall where
  now : Nat
  sessTtl : UInt64
  dml : Dml

def TimedTable.plain (s : TimedTable) : Table :=
  ⟨s.rows.values, fun i => (s.index i).values, s.nextRowId, s.autoIncVal⟩

def TimedTable.expire (s : TimedTable) (now : Nat) : TimedTable :=
  { s with rows := s.rows.expire now, index := fun i => (s.index i).expire now }

def TableOp.onRows : TableOp → Option (CfOp Record)
  | .row op => some op
  | .entry _ _ => none

def TableOp.onEntries (i : Nat) : TableOp → Option (CfOp Bytes)
  | .row _ => none
  | .entry j op => if j = i then some op else none

def CfOp.stamp {V : Type} (deadline : Deadline) : CfOp V → CfOp (V × Deadline)
  | .put k v => .put k (v, deadline)
  | .delete k => .delete k

def TimedCall.deadline (T : Schema) (o : TtlOptions) (seen : Table) (call : TimedCall) : Deadline :=
  (writtenRow T seen call.dml).bind fun row => (rowTtl o call.sessTtl row.2).map (call.now + ·)

namespace TimedTable

def step (T : Schema) (o : TtlOptions) (s : TimedTable) (call : TimedCall) : TimedTable × HaCode :=
  let live := s.expire call.now
  let after := dmlStep T live.plain call.dml
  let ops := dmlOps T live.plain call.dml
  let stamp {V : Type} : CfOp V → CfOp (V × Deadline) := CfOp.stamp (call.deadline T o live.plain)
  ({ rows := applyOps live.rows ((ops.filterMap TableOp.onRows).map stamp)
     index := fun i => applyOps (live.index i) ((ops.filterMap (TableOp.onEntries i)).map stamp)
     nextRowId := after.1.nextRowId
     autoIncVal := after.1.autoIncVal
     clock := call.now }, after.2)

end TimedTable

section Projections

variable {V : Type}

section
variable (f : Nat → Index → List (CfOp Bytes)) (T : Schema) (o : TtlOptions) (s : Table) (call : Dml)
  (ops : List TableOp) (i : Nat) (ixs : List Index)

theorem onRows_indexOps : (indexOps f i ixs).filterMap TableOp.onRows = [] := by
  induction ixs generalizing i with
  | nil => rfl
  | cons ix rest ih => simp [indexOps, ih, filterMap_map, comp_def, TableOp.onRows]

theorem onRows_dmlOps : (dmlOps T s call).filterMap TableOp.onRows = rowOps T s call := by
  rw [dmlOps_eq, filterMap_append, onRows_indexOps, append_nil, filterMap_map]
  exact filterMap_some

theorem onEntries_indexOps_below {i j : Nat} (below : j < i) (ixs : List Index) :
    (indexOps f i ixs).filterMap (TableOp.onEntries j) = [] := by
  induction ixs generalizing i with
  | nil => rfl
  | cons ix rest ih =>
    have apart : i ≠ j := Nat.ne_of_gt below
    simp [indexOps, ih (Nat.lt_succ_of_lt below), filterMap_map, comp_def, TableOp.onEntries, apart]

theorem onEntries_indexOps {ixs : List Index} {n : Nat} (at_n : ixs[n]? = some ix) :
    (indexOps f i ixs).filterMap (TableOp.onEntries (i + n)) = f (i + n) ix := by
  induction ixs generalizing i n with
  | nil => simp at at_n
  | cons head rest ih =>
    cases n with
    | zero =>
      obtain rfl : head = ix := by simpa using at_n
      simp [indexOps, onEntries_indexOps_below f (Nat.lt_add_one i), filterMap_map, comp_def, TableOp.onEntries]
    | succ n =>
      have tail : rest[n]? = some ix := by simpa using at_n
      have shift : i + (n + 1) = i + 1 + n := by omega
      have apart : i ≠ i + 1 + n := by omega
      rw [shift, ← ih (i + 1) tail]
      simp [indexOps, filterMap_map, comp_def, TableOp.onEntries, apart]

theorem onEntries_dmlOps {T : Schema} {i : Nat} (at_i : T.indexes[i]? = some ix) :
    (dmlOps T s call).filterMap (TableOp.onEntries i) = entryOps T s call i ix := by
  have own := onEntries_indexOps (entryOps T s call) 0 at_i
  rw [Nat.zero_add] at own
  rw [dmlOps_eq, filterMap_append, own, filterMap_map]
  simp [comp_def, TableOp.onEntries]

end

end Projections

section Deadlines

variable {V : Type} {m : SortedMap Bytes (V × Deadline)} {deadline : Deadline} {k : Bytes}

theorem hasUntil_deletes (keys : List Bytes) (d : Deadline) :
    (applyOps m (keys.map CfOp.delete)).HasUntil k d ↔ k ∉ keys ∧ m.HasUntil k d := by
  simp only [SortedMap.HasUntil, has_deletes, exists_and_left]

theorem hasUntil_puts (entries : List (Bytes × V)) (d : Deadline) :
    (applyOps m (entries.map fun e => CfOp.put e.1 (e.2, deadline))).HasUntil k d ↔
      (k ∈ entries.map Prod.fst ∧ d = deadline) ∨ (k ∉ entries.map Prod.fst ∧ m.HasUntil k d) := by
  induction entries generalizing m with
  | nil => simp [applyOps]
  | cons entry rest ih =>
    simp only [applyOps, map_cons, foldl_cons, CfOp.apply] at ih ⊢
    rw [ih, hasUntil_put, mem_cons, not_or]
    generalize (k ∈ rest.map Prod.fst) = later
    by_cases here : k = entry.1
    · by_cases again : later <;> simp [here, again]
    · simp [here]

/-- After a call a key has the call's deadline, if it was put, or the one it had, if it was left alone. -/
theorem hasUntil_stamped {ops : List (CfOp V)} (ordered : DeletesFirst ops) (d : Deadline) :
    (applyOps m (ops.map (CfOp.stamp deadline))).HasUntil k d ↔
      (k ∈ writtenKeys ops ∧ d = deadline) ∨ (k ∉ writtenKeys ops ∧ k ∉ deletedKeys ops ∧ m.HasUntil k d) := by
  have stamped : ops.map (CfOp.stamp deadline) =
      (deletedKeys ops).map CfOp.delete ++ (writtenEntries ops).map fun e => CfOp.put e.1 (e.2, deadline) := by
    conv_lhs => rw [ordered]
    simp [CfOp.stamp, comp_def]
  rw [stamped, applyOps, foldl_append]
  exact (hasUntil_puts (writtenEntries ops) d).trans (or_congr_right (and_congr_right fun _ => hasUntil_deletes _ d))

end Deadlines

def RowStays (T : Schema) (s : Table) (call : Dml) (pk : Bytes) : Prop :=
  pk ∉ removedRows T call ∧ ∀ row ∈ writtenRow T s call, row.1 ≠ pk

theorem has_rowOps (T : Schema) (s : Table) (call : Dml) (m : SortedMap Bytes (Record × Deadline)) (deadline : Deadline)
    (pk : Bytes) (record : Record) (x : Deadline) :
    (applyOps m ((rowOps T s call).map (CfOp.stamp deadline))).Has pk (record, x) ↔
      ((pk, record) ∈ writtenRow T s call ∧ x = deadline) ∨ (RowStays T s call pk ∧ m.Has pk (record, x)) := by
  have stamped : (rowOps T s call).map (CfOp.stamp deadline) = (removedRows T call).map CfOp.delete ++
      (writtenRow T s call).toList.map fun e => CfOp.put e.1 (e.2, deadline) := by
    simp [rowOps, CfOp.stamp, comp_def]
  rw [stamped, applyOps, foldl_append, RowStays]
  cases writtenRow T s call with
  | none => simpa [applyOps] using has_deletes m (removedRows T call) pk (record, x)
  | some row =>
    simp only [toList_some, map_cons, map_nil, foldl_cons, foldl_nil, CfOp.apply, has_put]
    rw [← applyOps, has_deletes]
    constructor
    · rintro (⟨rfl, same⟩ | ⟨apart, kept, has⟩)
      · cases same
        exact Or.inl ⟨rfl, rfl⟩
      · refine Or.inr ⟨⟨kept, fun stored here => ?_⟩, has⟩
        cases here
        exact Ne.symm apart
    · rintro (⟨here, rfl⟩ | ⟨⟨kept, others⟩, has⟩)
      · cases here
        exact Or.inl ⟨rfl, rfl⟩
      · exact Or.inr ⟨(others row rfl).symm, kept, has⟩

namespace TimedTable

/-- The entries of a row all stand, each until a deadline that meets the condition, whatever the
buffer held. -/
def Covers (ix : Index) (m : SortedMap Bytes (Bytes × Deadline)) (pk : Bytes) (record : Record)
    (meets : Deadline → Prop) : Prop :=
  ∃ residue, ∀ k ∈ ix.entryKeys residue pk record, ∃ d, m.HasUntil k d ∧ meets d

def LiveEntries (T : Schema) (s : TimedTable) (t : Nat) : Prop :=
  ∀ pk record x, s.rows.Has pk (record, x) → LiveAt x t →
    ∀ (i : Nat) (ix : Index), T.indexes[i]? = some ix → Covers ix (s.index i) pk record (LiveAt · t)

/-- From now on, as long as nothing is written, index entries live as long as their row. -/
def EntriesLive (T : Schema) (s : TimedTable) : Prop := ∀ t, s.clock ≤ t → LiveEntries T s t

def Covered (T : Schema) (s : TimedTable) : Prop :=
  ∀ pk record x, s.rows.Has pk (record, x) →
    ∀ (i : Nat) (ix : Index), T.indexes[i]? = some ix → Covers ix (s.index i) pk record (Lasts · x)

def Current (s : TimedTable) : Prop := ∀ pk record x, s.rows.Has pk (record, x) → LiveAt x s.clock

theorem entriesLive_iff {T : Schema} {s : TimedTable} (current : Current s) : EntriesLive T s ↔ Covered T s := by
  constructor
  · intro alive pk record x has i ix at_i
    obtain ⟨t, later, live_then, last⟩ :=
      Base.exists_last_moment (current pk record x has) ((s.index i).entries.map fun e => e.2.2)
    obtain ⟨residue, entries⟩ := alive t later pk record x has live_then i ix at_i
    refine ⟨residue, fun k mem => ?_⟩
    obtain ⟨d, ⟨v, there⟩, live⟩ := entries k mem
    exact ⟨d, ⟨v, there⟩, last d (mem_map.mpr ⟨(k, (v, d)), there, rfl⟩) live⟩
  · intro covered t _ pk record x has live_then i ix at_i
    obtain ⟨residue, entries⟩ := covered pk record x has i ix at_i
    refine ⟨residue, fun k mem => ?_⟩
    obtain ⟨d, there, lasts⟩ := entries k mem
    exact ⟨d, there, live_then.of_lasts lasts⟩

section
variable (ops : List (CfOp Bytes)) (before : SortedMap Bytes (Bytes × Deadline)) (deadline x : Deadline) (k : Bytes)

/-- After the writes the key stands until `x` at least: put so by the call, or left alone with such
a deadline. -/
def KeptUntil : Prop :=
  (k ∈ writtenKeys ops ∧ Lasts deadline x) ∨
    (k ∉ writtenKeys ops ∧ k ∉ deletedKeys ops ∧ ∃ d, before.HasUntil k d ∧ Lasts d x)
  deriving Decidable

end

theorem keptUntil_iff (ordered : DeletesFirst ops) (before : SortedMap Bytes (Bytes × Deadline)) (deadline x : Deadline)
    (k : Bytes) :
    (∃ d, (applyOps before (ops.map (CfOp.stamp deadline))).HasUntil k d ∧ Lasts d x) ↔ KeptUntil ops before deadline x k := by
  simp only [hasUntil_stamped ordered]
  constructor
  · rintro ⟨d, ⟨put, rfl⟩ | ⟨unput, undeleted, has⟩, lasts⟩
    · exact Or.inl ⟨put, lasts⟩
    · exact Or.inr ⟨unput, undeleted, d, has, lasts⟩
  · rintro (⟨put, lasts⟩ | ⟨unput, undeleted, d, has, lasts⟩)
    · exact ⟨deadline, Or.inl ⟨put, rfl⟩, lasts⟩
    · exact ⟨d, Or.inr ⟨unput, undeleted, has⟩, lasts⟩

def Touches (ix : Index) (ops : List (CfOp Bytes)) (pk : Bytes) (record : Record) : Prop :=
  ∃ residue, ∃ k ∈ ix.entryKeys residue pk record, k ∈ writtenKeys ops ∨ k ∈ deletedKeys ops

/-- After the call the entries of the row stand in the index at least until `x`. -/
def Keeps (T : Schema) (o : TtlOptions) (s : TimedTable) (call : TimedCall) (i : Nat) (ix : Index) (pk : Bytes)
    (record : Record) (x : Deadline) : Prop :=
  let live := s.expire call.now
  ∃ residue, ∀ k ∈ ix.entryKeys residue pk record,
    KeptUntil (entryOps T live.plain call.dml i ix) (live.index i) (call.deadline T o live.plain) x k

/-- Every entry of the row stored is put again or was to live as long, and no other row touched
loses one. -/
def Renews (T : Schema) (o : TtlOptions) (s : TimedTable) (call : TimedCall) : Prop :=
  let live := s.expire call.now
  (∀ row ∈ writtenRow T live.plain call.dml, ∀ (i : Nat) (ix : Index), T.indexes[i]? = some ix →
    Keeps T o s call i ix row.1 row.2 (call.deadline T o live.plain)) ∧
  ∀ pk record x, live.rows.Has pk (record, x) → RowStays T live.plain call.dml pk →
    ∀ (i : Nat) (ix : Index), T.indexes[i]? = some ix → Touches ix (entryOps T live.plain call.dml i ix) pk record →
      Keeps T o s call i ix pk record x

variable {T : Schema} {o : TtlOptions} {s : TimedTable} {call : TimedCall}

theorem step_rows (pk : Bytes) (record : Record) (x : Deadline) : (s.step T o call).1.rows.Has pk (record, x) ↔
      ((pk, record) ∈ writtenRow T (s.expire call.now).plain call.dml ∧ x = call.deadline T o (s.expire call.now).plain) ∨
        (RowStays T (s.expire call.now).plain call.dml pk ∧ (s.expire call.now).rows.Has pk (record, x)) := by
  simp only [step, onRows_dmlOps]
  exact has_rowOps T _ call.dml _ _ pk record x

theorem step_covers {i : Nat} (at_i : T.indexes[i]? = some ix) (pk : Bytes) (record : Record) (x : Deadline) :
    Covers ix ((s.step T o call).1.index i) pk record (Lasts · x) ↔ Keeps T o s call i ix pk record x := by
  simp only [Covers, Keeps, step, onEntries_dmlOps _ call.dml at_i, keptUntil_iff (entryOps_deletesFirst T _ call.dml i ix)]

theorem expire_covered (covered : Covered T s) (now : Nat) : Covered T (s.expire now) := by
  intro pk record x has i ix at_i
  obtain ⟨before, live⟩ := has_expire.mp has
  obtain ⟨residue, entries⟩ := covered pk record x before i ix at_i
  refine ⟨residue, fun k mem => ?_⟩
  obtain ⟨d, there, lasts⟩ := entries k mem
  exact ⟨d, hasUntil_expire.mpr ⟨there, live.of_lasts lasts⟩, lasts⟩

theorem kept_untouched {before : SortedMap Bytes (Bytes × Deadline)} {pk : Bytes} {deadline x : Deadline}
    (untouched : ¬ Touches ix ops pk record) (covers : Covers ix before pk record (Lasts · x)) :
    ∃ residue, ∀ k ∈ ix.entryKeys residue pk record, KeptUntil ops before deadline x k := by
  obtain ⟨residue, entries⟩ := covers
  refine ⟨residue, fun k mem => Or.inr ⟨fun put => ?_, fun deleted => ?_, entries k mem⟩⟩
  · exact untouched ⟨residue, k, mem, Or.inl put⟩
  · exact untouched ⟨residue, k, mem, Or.inr deleted⟩

theorem step_covered (covered : Covered T s) : Covered T (s.step T o call).1 ↔ Renews T o s call := by
  constructor
  · intro after
    constructor
    · intro row stored i ix at_i
      have there := (step_rows (o := o) row.1 row.2 _).mpr (Or.inl ⟨stored, rfl⟩)
      exact (step_covers at_i _ _ _).mp (after _ _ _ there i ix at_i)
    · intro pk record x has stays i ix at_i _
      have there := (step_rows (o := o) pk record x).mpr (Or.inr ⟨stays, has⟩)
      exact (step_covers at_i _ _ _).mp (after _ _ _ there i ix at_i)
  · rintro ⟨own, others⟩ pk record x there i ix at_i
    rw [step_covers at_i]
    rcases (step_rows pk record x).mp there with ⟨stored, rfl⟩ | ⟨stays, has⟩
    · exact own (pk, record) stored i ix at_i
    · by_cases touched : Touches ix (entryOps T (s.expire call.now).plain call.dml i ix) pk record
      · exact others pk record x has stays i ix at_i touched
      · exact kept_untouched touched (expire_covered covered call.now pk record x has i ix at_i)

theorem step_current : Current (s.step T o call).1 := by
  intro pk record x there
  rcases (step_rows pk record x).mp there with ⟨stored, rfl⟩ | ⟨-, has⟩
  · intro d given
    simp only [TimedCall.deadline, mem_def, bind_eq_some_iff, map_eq_some_iff] at given
    obtain ⟨row, -, seconds, lifetime, rfl⟩ := given
    exact Nat.lt_add_of_pos_right (rowTtl_pos lifetime)
  · exact (has_expire.mp has).2

def empty : TimedTable := ⟨SortedMap.empty, fun _ => SortedMap.empty, 1, 0, 0⟩

/- The server calls at increasing times, and updates and deletes rows it has just read. -/
def Due (s : TimedTable) (call : TimedCall) : Prop :=
  s.clock ≤ call.now ∧ Positioned (s.expire call.now).plain call.dml
  deriving Decidable

/- `id` the primary key, `tag` with a key, `note` without; the rows live ten seconds. -/
def tagIndex : Index := ⟨byteKey 1, .ordinary false⟩

def notes : Schema where
  pk := some (byteKey 0)
  indexes := [tagIndex]
  nextNumberField := none

def tenSeconds : TtlOptions := ⟨none, 10⟩

/- INSERT (1, 5, 7), and five seconds later UPDATE ... SET note = 8. -/
def noteRun : List TimedCall :=
  [⟨0, 0, .write (fun _ => none) (insertOf [some [1], some [5], some [7]])⟩,
    ⟨5, 0, .update ⟨[1], [some [1], some [5], some [7]], [some [1], some [5], some [8]], [2], zeroed⟩⟩]

end TimedTable

end TidesdbMysql
