import Mathlib.Data.List.Dedup
import Mathlib.Logic.Function.Basic
import TidesdbMysql.Base.ByteOrder
import TidesdbMysql.Key.Encode

/-! A table and its column families as one transaction sees them: the rows under
their primary key bytes and, for every other key, its entries. -/
namespace TidesdbMysql

open Base (Bytes leBytes SortedMap)
open List Function

/- Tokenizer and geometry parser are functions of the column bytes; `mbr` answers the centroid's
Hilbert value and the box. -/
inductive IndexKind where
  | ordinary (unique : Bool)
  | fulltext (tokenize : Bytes → List Bytes)
  | spatial (mbr : Bytes → Option (Nat × Bytes))

structure Index where
  key : Key
  kind : IndexKind

def Index.isUnique (ix : Index) : Bool :=
  match ix.kind with
  | .ordinary unique => unique
  | _ => false

/-- `table->next_number_field`, with its `val_int`. -/
structure NumberField where
  field : Nat
  valInt : Option Bytes → Nat

/- `indexes` are the keys other than the primary key, each with its column family. -/
structure Schema where
  pk : Option Key
  indexes : List Index
  nextNumberField : Option NumberField

def ftsMaxTermBytes : Nat := 512

section
variable (mbr : Bytes → Option (Nat × Bytes)) (hilbert : Nat) (tokenize : Bytes → List Bytes) (key : Key)
  (parts : List KeyPart) (record : Record) (tf docLen : Nat) (term pk : Bytes)

def ftsBuildKey : Bytes :=
  leBytes 2 (min term.length ftsMaxTermBytes) ++ (term.take ftsMaxTermBytes ++ pk)

def ftsBuildValue : Bytes := leBytes 2 tf ++ leBytes 4 docLen

/- The document of a record: its key columns that are not NULL, a blank between. -/
def ftsDocument : Bytes :=
  parts.foldl (fun doc kp =>
    match column record kp.field with
    | none => doc
    | some v => if doc = [] then v else doc ++ 32 :: v) []

def ftsExtractAndTokenize : List Bytes :=
  tokenize (ftsDocument key.parts record)

/- The keys of `tf_map`; nothing below depends on the order it lists them in. -/
def ftsTerms : List Bytes :=
  (ftsExtractAndTokenize tokenize key record).dedup

def spatialBuildKey : Bytes := (leBytes 8 hilbert).reverse ++ pk

def spatialEntry : Option (Nat × Bytes) :=
  match column record key.first.field with
  | none => none
  | some geometry => if geometry = [] then none else mbr geometry

end

/-- The entry keys a row stands for in an index; `residue` is what the buffer held. -/
def Index.entryKeys (ix : Index) (residue : Residue) (pk : Bytes) (record : Record) : List Bytes :=
  match ix.kind with
  | .ordinary _ => [makeComparableKey residue ix.key.parts record ++ pk]
  | .fulltext tokenize => (ftsTerms tokenize ix.key record).map (ftsBuildKey · pk)
  | .spatial mbr => (spatialEntry mbr ix.key record).toList.map (fun e => spatialBuildKey e.1 pk)

inductive CfOp (V : Type) where
  | put (key : Bytes) (value : V)
  | delete (key : Bytes)

variable {V : Type}

def CfOp.apply (m : SortedMap Bytes V) : CfOp V → SortedMap Bytes V
  | .put k v => m.put k v
  | .delete k => m.erase k

def applyOps (m : SortedMap Bytes V) (ops : List (CfOp V)) : SortedMap Bytes V :=
  ops.foldl CfOp.apply m

section Effects

variable {A B : Type}

section
variable (m : SortedMap Bytes V) (ys : List B) (g : B → Bytes) (h : B → V) (xs : List A) (f : A → Bytes) (k : Bytes)

theorem hasKey_deletes : (applyOps m (xs.map fun x => CfOp.delete (f x))).HasKey k ↔ k ∉ xs.map f ∧ m.HasKey k := by
  induction xs generalizing m with
  | nil => simp [applyOps]
  | cons x rest ih =>
    simp only [applyOps, map_cons, foldl_cons, CfOp.apply] at ih ⊢
    rw [ih, SortedMap.hasKey_erase, mem_cons]
    tauto

theorem hasKey_puts : (applyOps m (ys.map fun y => CfOp.put (g y) (h y))).HasKey k ↔ k ∈ ys.map g ∨ m.HasKey k := by
  induction ys generalizing m with
  | nil => simp [applyOps]
  | cons y rest ih =>
    simp only [applyOps, map_cons, foldl_cons, CfOp.apply] at ih ⊢
    rw [ih, SortedMap.hasKey_put, mem_cons]
    tauto

theorem hasKey_replace (ys : List B) (g : B → Bytes) (h : B → V) (k : Bytes) :
    (applyOps m ((xs.map fun x => CfOp.delete (f x)) ++ ys.map fun y => CfOp.put (g y) (h y))).HasKey k ↔
      k ∈ ys.map g ∨ (k ∉ xs.map f ∧ m.HasKey k) := by
  rw [applyOps, foldl_append]
  exact (hasKey_puts _ ys g h k).trans (or_congr_right (hasKey_deletes m xs f k))

end

end Effects

structure Table where
  rows : SortedMap Bytes Record
  index : Nat → SortedMap Bytes Bytes
  nextRowId : Nat
  autoIncVal : Nat

inductive TableOp where
  | row (op : CfOp Record)
  | entry (i : Nat) (op : CfOp Bytes)

def Table.apply (s : Table) : TableOp → Table
  | .row op => { s with rows := op.apply s.rows }
  | .entry i op => { s with index := Function.update s.index i (op.apply (s.index i)) }

def Table.applyAll (s : Table) (ops : List TableOp) : Table := ops.foldl Table.apply s

/- The loop over the keys of a table, `i` the number of the first one. -/
def indexOps (f : Nat → Index → List (CfOp Bytes)) : Nat → List Index → List TableOp
  | _, [] => []
  | i, ix :: rest => (f i ix).map (TableOp.entry i) ++ indexOps f (i + 1) rest

section
variable (s : Table) (f : Nat → Index → List (CfOp Bytes)) (i : Nat) (ixs : List Index) (ops : List (CfOp Bytes))
  (xs ys : List TableOp)

theorem Table.applyAll_append : s.applyAll (xs ++ ys) = (s.applyAll xs).applyAll ys := foldl_append

theorem Table.applyAll_entries : s.applyAll (ops.map (TableOp.entry i)) =
      { s with index := update s.index i (applyOps (s.index i) ops) } := by
  induction ops generalizing s with
  | nil => simp [applyAll, applyOps]
  | cons op rest ih =>
    simp only [applyAll, map_cons, foldl_cons] at ih ⊢
    rw [ih]
    simp [Table.apply, applyOps]

@[simp] theorem applyAll_indexOps_rows : (s.applyAll (indexOps f i ixs)).rows = s.rows := by
  induction ixs generalizing s i with
  | nil => rfl
  | cons ix rest ih => rw [indexOps, s.applyAll_append, ih, s.applyAll_entries]

theorem applyAll_indexOps_below {i j : Nat} (below : j < i) (ixs : List Index) :
    (s.applyAll (indexOps f i ixs)).index j = s.index j := by
  induction ixs generalizing s i with
  | nil => rfl
  | cons ix rest ih =>
    rw [indexOps, s.applyAll_append, ih _ (Nat.lt_succ_of_lt below), s.applyAll_entries]
    exact update_of_ne (Nat.ne_of_lt below) _ _

theorem applyAll_indexOps_index {ixs : List Index} {n : Nat} {ix : Index} (at_n : ixs[n]? = some ix) :
    (s.applyAll (indexOps f i ixs)).index (i + n) = applyOps (s.index (i + n)) (f (i + n) ix) := by
  induction ixs generalizing s i n with
  | nil => simp at at_n
  | cons head rest ih =>
    rw [indexOps, s.applyAll_append]
    cases n with
    | zero =>
      obtain rfl : head = ix := by simpa using at_n
      rw [Nat.add_zero i, applyAll_indexOps_below _ f (Nat.lt_add_one i), s.applyAll_entries]
      exact update_self _ _ _
    | succ n =>
      have tail : rest[n]? = some ix := by simpa using at_n
      have shift : i + (n + 1) = i + 1 + n := by omega
      have apart : i + 1 + n ≠ i := by omega
      rw [shift, ih _ _ tail, s.applyAll_entries]
      exact congrArg (applyOps · _) (update_of_ne apart _ _)

end

end TidesdbMysql
