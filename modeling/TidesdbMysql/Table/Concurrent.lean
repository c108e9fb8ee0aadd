import Mathlib.Data.List.Pairwise
import TidesdbMysql.Table.Unique
import TidesdbMysql.Txn.Hooks

/-! `write_row` in concurrent transactions: each checks its rows against what it sees, and the
engine compares at commit only the keys that were written. -/
namespace TidesdbMysql

open Base (Bytes SortedMap run Along)
open List Function Base.SortedMap

variable {s' : Store} {v : Record}

structure Inserted where
  pk : Bytes
  req : Insert
  seen : Nat

structure InsertTxn where
  isolation : Isolation
  begun : Nat
  inserted : List Inserted

/-- The engine and the counters of the share. `history` has the rows of every commit. -/
structure Store where
  start : Table
  history : List (List Inserted)
  sessions : Nat → Option InsertTxn
  nextRowId : Nat
  autoIncVal : Nat

section
variable (T : Schema) (s : Store) (t : InsertTxn) (n : Nat) (rows : List Inserted)

def insertOps : List TableOp := rows.flatMap fun i => writeOps T i.req i.pk

/- The table after the first `n` commits. -/
def Store.after : Table :=
  s.start.applyAll (insertOps T (s.history.take n).flatten)

def Store.committed : Table := s.after T s.history.length

def Store.seenBy : Nat := if t.isolation.frozen then t.begun else s.history.length

/- What the transaction sees: its base, its own writes, and the counters all sessions share. -/
def Store.view : Table :=
  { (s.after T (s.seenBy t)).applyAll (insertOps T t.inserted) with
    nextRowId := s.nextRowId
    autoIncVal := s.autoIncVal }

def CfOp.key {V : Type} : CfOp V → Bytes
  | .put k _ => k
  | .delete k => k

def TableOp.touches : TableOp → Option Nat × Bytes
  | .row op => (none, op.key)
  | .entry i op => (some i, op.key)

def Conflicts : Prop :=
  ∃ op ∈ insertOps T t.inserted, ∃ op' ∈ insertOps T (s.history.drop t.begun).flatten, op.touches = op'.touches

instance : Decidable (Conflicts T s t) :=
  inferInstanceAs (Decidable (∃ op ∈ insertOps T t.inserted,
    ∃ op' ∈ insertOps T (s.history.drop t.begun).flatten, op.touches = op'.touches))

end

inductive StoreEvent where
  | begin (x : Nat) (shape : StatementShape)
  | write (x : Nat) (iters : DupIters) (req : Insert)
  | commit (x : Nat)
  | rollback (x : Nat)

section
variable (T : Schema) (detects : Isolation → Bool)

/- `detects` are the levels at which the engine looks for conflicts. -/
def Granted (s : Store) (t : InsertTxn) : Prop := ¬ (detects t.isolation = true ∧ Conflicts T s t)

instance (s : Store) (t : InsertTxn) : Decidable (Granted T detects s t) :=
  inferInstanceAs (Decidable (¬ (detects t.isolation = true ∧ Conflicts T s t)))

def storeStep (s : Store) : StoreEvent → Store × HaCode
  | .begin x shape =>
    match s.sessions x with
    | some _ => (s, .ok)
    | none =>
      ({ s with sessions := Function.update s.sessions x (some ⟨shape.effectiveIso, s.history.length, []⟩) }, .ok)
  | .write x iters req =>
    match s.sessions x with
    | none => (s, .generic)
    | some t =>
      let r := writeRow T (s.view T t) iters req
      let row : Inserted := ⟨newPk T (s.view T t) req, req, s.seenBy t⟩
      ({ s with
          sessions := if r.ops.isEmpty then s.sessions
            else Function.update s.sessions x (some { t with inserted := t.inserted ++ [row] })
          nextRowId := r.table.nextRowId
          autoIncVal := r.table.autoIncVal }, r.code)
  | .commit x =>
    match s.sessions x with
    | none => (s, .ok)
    | some t =>
      if Granted T detects s t then
        ({ s with history := s.history ++ [t.inserted], sessions := Function.update s.sessions x none }, .ok)
      else ({ s with sessions := Function.update s.sessions x none }, tdbRcToHa .conflict)
  | .rollback x => ({ s with sessions := Function.update s.sessions x none }, .ok)

end

section
variable (T : Schema) (i : Inserted) (s : Table) (a b : Record)

/-- Two rows agree on a UNIQUE key without a NULL. -/
def UniqueClash : Prop :=
  ∃ ix ∈ T.indexes, ix.isUnique = true ∧ NoNull ix.key.parts a ∧ SameKey ix.key.parts a b
  deriving Decidable

theorem UniqueClash.symm {T : Schema} {a b : Record} (clash : UniqueClash T a b) : UniqueClash T b a := by
  obtain ⟨ix, mem, unique, full, same⟩ := clash
  exact ⟨ix, mem, unique, full.of_same same, same.symm⟩

def UniqueDistinct : Prop :=
  ∀ e ∈ s.rows.entries, ∀ e' ∈ s.rows.entries, e.1 ≠ e'.1 → ¬ UniqueClash T e.2 e'.2
  deriving Decidable

/-- The checks find every row seen that agrees on a UNIQUE key, and one with the primary key. -/
def CheckFinds (s : Store) : StoreEvent → Prop
  | .write x iters req => ∀ t ∈ s.sessions x,
    (∃ e ∈ (s.view T t).rows.entries, UniqueClash T (req.stored T) e.2) ∨
      (s.view T t).rows.HasKey (newPk T (s.view T t) req) → Hit T (s.view T t) iters req
  | _ => True

instance (s : Store) (e : StoreEvent) : Decidable (CheckFinds T s e) := by
  cases e <;> dsimp only [CheckFinds] <;> infer_instance

/- The rows of the tables. -/

def Inserted.entry : Bytes × Record := (i.pk, i.req.stored T)

end

section
variable {T : Schema} {detects : Isolation → Bool} {s : Store}

theorem rows_insertOps (m : Table) (rows : List Inserted) :
    (m.applyAll (insertOps T rows)).rows = m.rows.putAll (rows.map (Inserted.entry T)) := by
  induction rows generalizing m with
  | nil => rfl
  | cons i rest ih =>
    have put : (m.applyAll (writeOps T i.req i.pk)).rows = m.rows.put i.pk (i.req.stored T) :=
      rows_after [.put i.pk (i.req.stored T)] (writeEntries T i.req.scratch i.pk (i.req.stored T))
    rw [insertOps, flatMap_cons, m.applyAll_append]
    refine (ih _).trans ?_
    rw [put]
    rfl

theorem after_append (start : s'.start = s.start) (history : s.history <+: s'.history) {n : Nat}
    (below : n ≤ s.history.length) : s'.after T n = s.after T n := by
  obtain ⟨more, longer⟩ := history
  rw [Store.after, Store.after, start, ← longer, take_append_of_le_length below]

theorem committed_rows {n : Nat} :
    (s.committed T).rows = (s.after T n).rows.putAll ((s.history.drop n).flatten.map (Inserted.entry T)) := by
  rw [Store.committed, Store.after, Store.after, rows_insertOps, rows_insertOps, ← putAll_append,
    ← map_append, ← flatten_append, take_append_drop, take_length]

theorem view_rows (t : InsertTxn) :
    (s.view T t).rows = (s.after T (s.seenBy t)).rows.putAll (t.inserted.map (Inserted.entry T)) :=
  rows_insertOps _ _

theorem commit_rows (rows : List Inserted) (sessions : Nat → Option InsertTxn) :
    ({ s with history := s.history ++ [rows], sessions := sessions }.committed T).rows =
      (s.committed T).rows.putAll (rows.map (Inserted.entry T)) := by
  have base : { s with history := s.history ++ [rows], sessions := sessions }.after T s.history.length = s.committed T := by
    refine after_append ?_ (prefix_append _ _) le_rfl
    rfl
  rw [committed_rows, base, drop_left]
  simp

end

/-- No committed row is overwritten, and none agrees with another on a UNIQUE key. -/
def CommitKeepsKeys (T : Schema) (detects : Isolation → Bool) (s : Store) : StoreEvent → Prop
  | .commit x => ∀ t ∈ s.sessions x, Granted T detects s t →
    (∀ i ∈ t.inserted, ¬ (s.committed T).rows.HasKey i.pk) ∧
      UniqueDistinct T ((storeStep T detects s (.commit x)).1.committed T)
  | _ => True

section
variable (T : Schema) (detects : Isolation → Bool) (s : Store)

/-- No transaction that committed since the check brought a row that agrees, nor, without conflicts,
one with its primary key. -/
def Unraced : StoreEvent → Prop
  | .commit x => ∀ t ∈ s.sessions x, Granted T detects s t →
    ∀ i ∈ t.inserted, ∀ i' ∈ (s.history.drop i.seen).flatten,
      (detects t.isolation = false → i'.pk ≠ i.pk) ∧ ¬ UniqueClash T (i.req.stored T) (i'.req.stored T)
  | _ => True

instance (e : StoreEvent) : Decidable (CommitKeepsKeys T detects s e) := by
  cases e <;> dsimp only [CommitKeepsKeys] <;> infer_instance

instance (e : StoreEvent) : Decidable (Unraced T detects s e) := by
  cases e <;> dsimp only [Unraced] <;> infer_instance

end

/- What is known of a transaction in progress. A row it has written itself hides the committed one
with the same key. -/
structure TxnInv (T : Schema) (s : Store) (t : InsertTxn) : Prop where
  begun : t.begun ≤ s.history.length
  seen : ∀ i ∈ t.inserted, t.begun ≤ i.seen ∧ i.seen ≤ s.history.length
  free : ∀ i ∈ t.inserted, ¬ (s.after T i.seen).rows.HasKey i.pk
  checked : ∀ i ∈ t.inserted, ∀ e ∈ (s.after T i.seen).rows.entries, (∀ j ∈ t.inserted, j.pk ≠ e.1) →
    ¬ UniqueClash T (i.req.stored T) e.2
  apart : t.inserted.Pairwise fun i j => i.pk ≠ j.pk ∧ ¬ UniqueClash T (i.req.stored T) (j.req.stored T)

structure StoreInv (T : Schema) (s : Store) : Prop where
  distinct : UniqueDistinct T (s.committed T)
  intact : ∀ i ∈ s.history.flatten, (s.committed T).rows.Has i.pk (i.req.stored T)
  txns : ∀ x t, s.sessions x = some t → TxnInv T s t

section
variable {T : Schema} {detects : Isolation → Bool} {s : Store} {t : InsertTxn}

instance (T : Schema) : Std.Symm fun i j : Inserted =>
    i.pk ≠ j.pk ∧ ¬ UniqueClash T (i.req.stored T) (j.req.stored T) :=
  ⟨fun _ _ apart => ⟨apart.1.symm, fun clash => apart.2 clash.symm⟩⟩

theorem TxnInv.nodup (inv : TxnInv T s t) : ((t.inserted.map (Inserted.entry T)).map (·.1)).Nodup := by
  rw [map_map, List.Nodup, pairwise_map]
  exact inv.apart.imp fun apart => apart.1

theorem TxnInv.has_committed (inv : TxnInv T s t) (sessions : Nat → Option InsertTxn) {k : Bytes} :
    ({ s with history := s.history ++ [t.inserted], sessions := sessions }.committed T).rows.Has k v ↔
      (∃ i ∈ t.inserted, i.pk = k ∧ i.req.stored T = v) ∨
      (∀ i ∈ t.inserted, i.pk ≠ k) ∧ (s.committed T).rows.Has k v := by
  rw [commit_rows, has_putAll inv.nodup]
  simp [Inserted.entry]

theorem committed_cases {n : Nat} {k : Bytes} (has : (s.committed T).rows.Has k v) :
    (s.after T n).rows.Has k v ∨ ∃ i ∈ (s.history.drop n).flatten, i.pk = k ∧ i.req.stored T = v := by
  rw [committed_rows (n := n)] at has
  rcases mem_of_has_putAll has with later | before
  · obtain ⟨i, mem, same⟩ := mem_map.mp later
    cases same
    exact .inr ⟨i, mem, rfl, rfl⟩
  · exact .inl before

theorem pk_ne_of_granted (inv : TxnInv T s t) (granted : Granted T detects s t) (looks : detects t.isolation = true)
    {i i' : Inserted} (mem : i ∈ t.inserted) (later : i' ∈ (s.history.drop i.seen).flatten) : i'.pk ≠ i.pk := by
  intro same
  refine granted ⟨looks, .row (.put i.pk (i.req.stored T)), ?_, .row (.put i'.pk (i'.req.stored T)), ?_, ?_⟩
  · exact mem_flatMap.mpr ⟨i, mem, mem_cons_self⟩
  · refine mem_flatMap.mpr ⟨i', ?_, mem_cons_self⟩
    obtain ⟨rows, listed, here⟩ := mem_flatten.mp later
    refine mem_flatten.mpr ⟨rows, ?_, here⟩
    obtain ⟨gap, seen⟩ := Nat.exists_eq_add_of_le (inv.seen i mem).1
    rw [seen, ← drop_drop] at listed
    exact mem_of_mem_drop listed
  · simp only [TableOp.touches, CfOp.key, same]

theorem commit_keeps_iff (inv : StoreInv T s) {x : Nat} :
    CommitKeepsKeys T detects s (.commit x) ↔ Unraced T detects s (.commit x) := by
  refine forall₂_congr fun t here => forall_congr' fun granted => ?_
  have own := inv.txns x t here
  have result : (storeStep T detects s (.commit x)).1 =
      { s with history := s.history ++ [t.inserted], sessions := update s.sessions x none } := by
    have at_x : s.sessions x = some t := here
    simp only [storeStep, at_x, if_pos granted]
  rw [result]
  constructor
  · rintro ⟨unwritten, distinct⟩ i mem i' later
    have there : i' ∈ s.history.flatten := by
      obtain ⟨rows, listed, in_rows⟩ := mem_flatten.mp later
      exact mem_flatten.mpr ⟨rows, mem_of_mem_drop listed, in_rows⟩
    have intact := inv.intact i' there
    have differ : ∀ j ∈ t.inserted, j.pk ≠ i'.pk := by
      intro j j_in same
      exact unwritten j j_in (same ▸ intact.hasKey)
    refine ⟨fun _ same => differ i mem same.symm, fun clash => ?_⟩
    have new_row := (own.has_committed (update s.sessions x none)).mpr (.inl ⟨i, mem, rfl, rfl⟩)
    have old_row := (own.has_committed (update s.sessions x none)).mpr (.inr ⟨differ, intact⟩)
    exact distinct _ new_row _ old_row (differ i mem) clash
  · intro unraced
    have unwritten : ∀ i ∈ t.inserted, ¬ (s.committed T).rows.HasKey i.pk := by
      intro i mem taken
      obtain ⟨v, has⟩ := hasKey_iff.mp taken
      rcases committed_cases has with seen | ⟨i', later, same, -⟩
      · exact own.free i mem seen.hasKey
      · cases looks : detects t.isolation with
        | true => exact pk_ne_of_granted own granted looks mem later same
        | false => exact (unraced i mem i' later).1 looks same
    -- a new row beside a committed one
    have beside : ∀ i ∈ t.inserted, ∀ k v, (s.committed T).rows.Has k v → ¬ UniqueClash T (i.req.stored T) v := by
      intro i mem k v has
      rcases committed_cases has with seen | ⟨i', later, -, rfl⟩
      · refine own.checked i mem (k, v) seen fun j j_in same => ?_
        exact unwritten j j_in (same ▸ has.hasKey)
      · exact (unraced i mem i' later).2
    refine ⟨unwritten, fun e e_in e' e'_in differ clash => ?_⟩
    rcases (own.has_committed _).mp e_in with ⟨i, mem, i_pk, i_row⟩ | ⟨-, old⟩ <;>
      rcases (own.has_committed _).mp e'_in with ⟨j, j_in, j_pk, j_row⟩ | ⟨-, old'⟩
    · rw [← i_row, ← j_row] at clash
      have related : i.pk ≠ j.pk ∧ ¬ UniqueClash T (i.req.stored T) (j.req.stored T) := by
        have other : i ≠ j := by
          rintro rfl
          exact differ (i_pk.symm.trans j_pk)
        exact own.apart.forall mem j_in other
      exact related.2 clash
    · rw [← i_row] at clash
      exact beside i mem _ _ old' clash
    · rw [← j_row] at clash
      exact beside j j_in _ _ old clash.symm
    · exact inv.distinct e old e' old' differ clash

theorem seenBy_bounds (below : t.begun ≤ s.history.length) : t.begun ≤ s.seenBy t ∧ s.seenBy t ≤ s.history.length := by
  unfold Store.seenBy
  split <;> omega

theorem TxnInv.later (inv : TxnInv T s t) (start : s'.start = s.start) (history : s.history <+: s'.history) :
    TxnInv T s' t := by
  have longer := history.length_le
  have same : ∀ i ∈ t.inserted, s'.after T i.seen = s.after T i.seen := by
    intro i mem
    exact after_append start history (inv.seen i mem).2
  refine ⟨inv.begun.trans longer, fun i mem => ?_, fun i mem => ?_, fun i mem => ?_, inv.apart⟩
  · exact ⟨(inv.seen i mem).1, (inv.seen i mem).2.trans longer⟩
  · rw [same i mem]
    exact inv.free i mem
  · rw [same i mem]
    exact inv.checked i mem

theorem TxnInv.write (inv : TxnInv T s t) {row : Inserted} (seen : row.seen = s.seenBy t)
    (unused : ¬ (s.view T t).rows.HasKey row.pk)
    (clear : ∀ e ∈ (s.view T t).rows.entries, ¬ UniqueClash T (row.req.stored T) e.2) :
    TxnInv T s { t with inserted := t.inserted ++ [row] } := by
  have own : ∀ i ∈ t.inserted, (s.view T t).rows.Has i.pk (i.req.stored T) := by
    intro i mem
    rw [view_rows, has_putAll inv.nodup]
    exact .inl (mem_map.mpr ⟨i, mem, rfl⟩)
  refine ⟨inv.begun, ?_, ?_, ?_, ?_⟩
  · intro i mem
    rcases mem_append.mp mem with old | new
    · exact inv.seen i old
    · rw [mem_singleton.mp new, seen]
      exact seenBy_bounds inv.begun
  · intro i mem
    rcases mem_append.mp mem with old | new
    · exact inv.free i old
    · rw [mem_singleton.mp new, seen]
      intro taken
      rw [view_rows, hasKey_putAll] at unused
      exact unused (.inr taken)
  · intro i mem e there apart
    have unwritten : ∀ j ∈ t.inserted, j.pk ≠ e.1 := fun j j_in => apart j (mem_append_left _ j_in)
    rcases mem_append.mp mem with old | new
    · exact inv.checked i old e there unwritten
    · rw [mem_singleton.mp new, seen] at there
      rw [mem_singleton.mp new]
      refine clear e ?_
      change (s.view T t).rows.Has e.1 e.2
      rw [view_rows, has_putAll inv.nodup]
      refine .inr ⟨?_, there⟩
      simpa [Inserted.entry] using unwritten
  · refine pairwise_append.mpr ⟨inv.apart, pairwise_singleton _ _, fun i old j new => ?_⟩
    rw [mem_singleton.mp new]
    refine ⟨fun same => unused ?_, fun clash => clear _ (own i old) clash.symm⟩
    rw [← same]
    exact (own i old).hasKey

theorem StoreInv.of_sessions (inv : StoreInv T s) (start : s'.start = s.start) (history : s'.history = s.history)
    (txns : ∀ x t, s'.sessions x = some t → TxnInv T s t) : StoreInv T s' := by
  have none_new : s.history <+: s'.history := history ▸ prefix_rfl
  have same : s'.committed T = s.committed T := by
    rw [Store.committed, Store.committed, history]
    exact after_append start none_new le_rfl
  refine ⟨?_, ?_, fun x t here => (txns x t here).later start none_new⟩
  · rw [same]
    exact inv.distinct
  · rw [same, history]
    exact inv.intact

theorem sessions_update (inv : StoreInv T s) {x : Nat} {new : Option InsertTxn} (kept : ∀ t ∈ new, TxnInv T s t)
    (y : Nat) (t : InsertTxn) (here : Function.update s.sessions x new y = some t) : TxnInv T s t := by
  by_cases same : y = x
  · rw [same, update_self] at here
    exact kept t here
  · rw [update_of_ne same] at here
    exact inv.txns y t here

theorem write_keeps_inv (inv : StoreInv T s) {x : Nat} {iters : DupIters} {req : Insert}
    (finds : CheckFinds T s (.write x iters req)) : StoreInv T (storeStep T detects s (.write x iters req)).1 := by
  cases here : s.sessions x with
  | none =>
    simp only [storeStep, here]
    exact inv
  | some t =>
    simp only [storeStep, here]
    refine inv.of_sessions rfl rfl ?_
    rcases writeRow_cases T (s.view T t) iters req with ⟨-, ops, -⟩ | ⟨_, -, ⟨-, -, ops, -⟩ | ⟨miss, -, ops, -⟩⟩
    · rw [ops]
      exact inv.txns
    · rw [ops]
      exact inv.txns
    · rw [ops]
      refine sessions_update inv fun u new => ?_
      cases new
      have clear := mt (finds t here) miss
      rw [not_or] at clear
      refine (inv.txns x t here).write rfl clear.2 fun e mem clash => ?_
      exact clear.1 ⟨e, mem, clash⟩

theorem commit_keeps_inv (inv : StoreInv T s) {x : Nat} (good : CommitKeepsKeys T detects s (.commit x)) :
    StoreInv T (storeStep T detects s (.commit x)).1 := by
  cases here : s.sessions x with
  | none =>
    simp only [storeStep, here]
    exact inv
  | some t =>
    have closed : ∀ y u, update s.sessions x none y = some u → TxnInv T s u :=
      sessions_update inv (by simp)
    by_cases granted : Granted T detects s t
    · obtain ⟨unwritten, distinct⟩ := good t here granted
      simp only [storeStep, here, if_pos granted] at distinct ⊢
      have own := inv.txns x t here
      refine ⟨distinct, fun i mem => ?_, fun y u open_y => (closed y u open_y).later rfl (prefix_append _ _)⟩
      rw [own.has_committed]
      rw [flatten_append, mem_append] at mem
      rcases mem with old | new
      · have intact := inv.intact i old
        exact .inr ⟨fun j j_in same => unwritten j j_in (same ▸ intact.hasKey), intact⟩
      · exact .inl ⟨i, by simpa using new, rfl, rfl⟩
    · simp only [storeStep, here, if_neg granted]
      exact inv.of_sessions rfl rfl closed

theorem storeStep_keeps_inv (inv : StoreInv T s) {e : StoreEvent} (finds : CheckFinds T s e)
    (good : CommitKeepsKeys T detects s e) : StoreInv T (storeStep T detects s e).1 := by
  cases e with
  | begin x shape =>
    cases here : s.sessions x with
    | some t =>
      simp only [storeStep, here]
      exact inv
    | none =>
      simp only [storeStep, here]
      refine inv.of_sessions rfl rfl (sessions_update inv fun u new => ?_)
      cases new
      exact ⟨le_rfl, by simp, by simp, by simp, List.Pairwise.nil⟩
  | write x iters req => exact write_keeps_inv inv finds
  | commit x => exact commit_keeps_inv inv good
  | rollback x => exact inv.of_sessions rfl rfl (sessions_update inv (by simp))

end

def Store.idle (s : Table) : Store := ⟨s, [], fun _ => none, s.nextRowId, s.autoIncVal⟩

theorem idle_inv {T : Schema} {s : Table} (distinct : UniqueDistinct T s) : StoreInv T (Store.idle s) :=
  ⟨distinct, by simp [Store.idle], by simp [Store.idle]⟩

/-- Where each check finds what its transaction sees, keys stay unique exactly when no row is raced
between check and commit. -/
theorem unique_across_transactions_iff (T : Schema) (detects : Isolation → Bool) (s : Table) (es : List StoreEvent)
    (distinct : UniqueDistinct T s) (finds : Along (storeStep T detects) (CheckFinds T) (Store.idle s) es) :
    Along (storeStep T detects) (CommitKeepsKeys T detects) (Store.idle s) es ↔
      Along (storeStep T detects) (Unraced T detects) (Store.idle s) es := by
  refine Base.along_congr _ (StoreInv T) ?_ ?_ (idle_inv distinct) finds
  · intro s e inv _
    cases e with
    | commit x => exact commit_keeps_iff inv
    | begin | write | rollback => exact Iff.rfl
  · intro s e inv finds_here good
    exact storeStep_keeps_inv inv finds_here good

/- Conflicts are looked for everywhere but at READ COMMITTED. -/
def detectsConflicts : Isolation → Bool
  | .readCommitted => false
  | _ => true

/- Two sessions, each with one INSERT, that both commit after both have inserted. -/
def racingInserts (shape : StatementShape) (first second : Record) : List StoreEvent :=
  [.begin 0 shape, .begin 1 shape, .write 0 (fun _ => none) (insertOf first),
    .write 1 (fun _ => none) (insertOf second), .commit 0, .commit 1]

def beginRepeatableRead : StatementShape := ⟨false, false, false, .repeatableRead⟩

def autocommitStatement : StatementShape := ⟨false, true, false, .repeatableRead⟩

theorem unique_across_transactions_apart :
    Along (storeStep uniqueIds detectsConflicts) (CommitKeepsKeys uniqueIds detectsConflicts) (Store.idle Table.empty)
      (racingInserts beginRepeatableRead [some [1], some [7]] [some [2], some [8]]) :=
  (unique_across_transactions_iff uniqueIds detectsConflicts Table.empty _ (by decide) (by decide)).mpr (by decide)

/-- Two entries with one UNIQUE value are different keys, so both commits pass, as do two autocommit
inserts of one primary key. -/
theorem concurrent_inserts_not_unique : (¬ ∀ (T : Schema) (s : Table) (es : List StoreEvent), UniqueDistinct T s →
      Along (storeStep T detectsConflicts) (CheckFinds T) (Store.idle s) es →
        UniqueDistinct T ((run (storeStep T detectsConflicts) (Store.idle s) es).committed T)) ∧
    ¬ ∀ (T : Schema) (s : Table) (es : List StoreEvent), UniqueDistinct T s →
      Along (storeStep T detectsConflicts) (CheckFinds T) (Store.idle s) es →
        Along (storeStep T detectsConflicts) (CommitKeepsKeys T detectsConflicts) (Store.idle s) es := by
  constructor
  · intro claim
    have distinct := claim uniqueIds Table.empty
      (racingInserts beginRepeatableRead [some [1], some [7]] [some [2], some [7]]) (by decide) (by decide)
    exact absurd distinct (by decide)
  · intro claim
    have kept := claim ids Table.empty (racingInserts autocommitStatement [some [1]] [some [1]]) (by decide) (by decide)
    exact absurd kept (by decide)

end TidesdbMysql
