import TidesdbMysql.Base.Counts
import TidesdbMysql.Table.Consistency
import TidesdbMysql.Txn.Session

/-! The document and word totals of a FULLTEXT key. Row functions read, change and write them back at once,
but a bulk insert adds up what it owes and pays at its end. -/
namespace TidesdbMysql

open Base (Bytes SortedMap run Along)
open Option Base.SortedMap

variable {record : Record} {st : FtsStore} {deltas : Nat → Index → Option Delta} {req : Update}

structure Totals where
  docs : Int
  words : Int
  deriving DecidableEq

/-- `fts_load_meta`: whatever the engine answers, a failure reads as no documents and no words. -/
def ftsLoadMeta : Except Rc Totals → Totals
  | .ok totals => totals
  | .error _ => ⟨0, 0⟩

/-- The totals `fts_update_meta` writes back. -/
def ftsUpdateMeta (loaded : Totals) (deltaDocs deltaWords : Int) : Totals :=
  ⟨max 0 (loaded.docs + deltaDocs), max 0 (loaded.words + deltaWords)⟩

def ftsDocDeltaAdd : Int := 1
def ftsDocDeltaDel : Int := -1

section
variable (ix : Index) (req : Update) (record : Record)

def Index.isFts : Bool :=
  match ix.kind with
  | .fulltext _ => true
  | _ => false

def Index.tokens : List Bytes :=
  match ix.kind with
  | .fulltext tokenize => ftsExtractAndTokenize tokenize ix.key record
  | _ => []

def Index.wordCount : Int := ftsWordCount (ix.tokens record)

abbrev Delta := Int × Int

def writeDelta : Option Delta :=
  if ix.isFts then some (ftsDocDeltaAdd, ix.wordCount record) else none

def updateDelta : Option Delta :=
  if ix.isFts ∧ ix.key.touched req.writeSet ∧ ix.wordCount req.new - ix.wordCount req.old ≠ 0 then
    some (0, ix.wordCount req.new - ix.wordCount req.old)
  else none

def deleteDelta : Option Delta :=
  if ix.isFts then some (ftsDocDeltaDel, -ix.wordCount record) else none

end

structure FtsStore where
  table : Table
  stats : Nat → Option Totals

def FtsStore.totals (s : FtsStore) (i : Nat) : Totals :=
  ftsLoadMeta (match s.stats i with
    | some totals => .ok totals
    | none => .error .notFound)

def FtsStore.adjust (s : FtsStore) (T : Schema) (deltas : Nat → Index → Option Delta) : FtsStore :=
  { s with stats := fun i =>
      match (T.indexes[i]?).bind (deltas i) with
      | some delta => some (ftsUpdateMeta (s.totals i) delta.1 delta.2)
      | none => s.stats i }

/-- One session: what is committed, what its transaction sees, and the handler's bulk state. -/
structure FtsSession where
  committed : FtsStore
  view : FtsStore
  inBulkInsert : Bool
  inBulkDelete : Bool
  bulkInsertOps : Nat
  ftsMetaDocDelta : Nat → Int
  ftsMetaWordDelta : Nat → Int

inductive FtsEvent where
  | startBulkInsert
  | endBulkInsert
  | startBulkDelete
  | endBulkDelete
  | call (dml : Dml)
  | commit
  | rollback

namespace FtsSession

variable (T : Schema)

def bulkTail (s : FtsSession) (inBulk : Bool) : FtsSession :=
  if inBulk then
    if s.bulkInsertOps + 1 + T.indexes.length ≥ tidesdbBulkInsertBatchOps then
      { s with committed := s.view, bulkInsertOps := 0 }
    else { s with bulkInsertOps := s.bulkInsertOps + 1 + T.indexes.length }
  else s

def countWritten (s : FtsSession) (record : Record) : FtsSession :=
  if s.inBulkInsert then
    let owed := fun i => ((T.indexes[i]?).bind (writeDelta · record)).getD (0, 0)
    { s with
      ftsMetaDocDelta := fun i => s.ftsMetaDocDelta i + (owed i).1
      ftsMetaWordDelta := fun i => s.ftsMetaWordDelta i + (owed i).2 }
  else { s with view := s.view.adjust T fun _ ix => writeDelta ix record }

def setTable (s : FtsSession) (table : Table) : FtsSession := { s with view := { s.view with table := table } }

def call (s : FtsSession) : Dml → FtsSession × HaCode
  | .write iters req =>
    let r := writeRow T s.view.table iters req
    let s := s.setTable r.table
    if r.ops.isEmpty then (s, r.code) else ((s.countWritten T (req.stored T)).bulkTail T s.inBulkInsert, r.code)
  | .update req =>
    let r := updateRow T s.view.table req
    let s := s.setTable r.2
    ({ s with view := s.view.adjust T fun _ ix => updateDelta ix req }, r.1)
  | .delete req =>
    let r := deleteRow T s.view.table req
    let s := s.setTable r.2
    (({ s with view := s.view.adjust T fun _ ix => deleteDelta ix req.record }).bulkTail T s.inBulkDelete, r.1)

def owed (s : FtsSession) (i : Nat) (ix : Index) : Option Delta :=
  if (s.ftsMetaDocDelta i = 0 ∧ s.ftsMetaWordDelta i = 0) ∨ ix.isFts = false then none
  else some (s.ftsMetaDocDelta i, s.ftsMetaWordDelta i)

def rollback (s : FtsSession) : FtsSession :=
  { s with view := { s.committed with table := { s.committed.table with
      nextRowId := s.view.table.nextRowId
      autoIncVal := s.view.table.autoIncVal } } }

def step (s : FtsSession) : FtsEvent → FtsSession × HaCode
  | .startBulkInsert =>
    ({ s with inBulkInsert := true, bulkInsertOps := 0, ftsMetaDocDelta := fun _ => 0, ftsMetaWordDelta := fun _ => 0 }, .ok)
  | .endBulkInsert =>
    ({ s with inBulkInsert := false, view := s.view.adjust T s.owed,
              ftsMetaDocDelta := fun _ => 0, ftsMetaWordDelta := fun _ => 0 }, .ok)
  | .startBulkDelete => ({ s with inBulkDelete := true, bulkInsertOps := 0 }, .ok)
  | .endBulkDelete => ({ s with inBulkDelete := false }, .ok)
  | .call dml => s.call T dml
  | .commit => ({ s with committed := s.view }, .ok)
  | .rollback => (s.rollback, .ok)

def closing (s : FtsSession) : List FtsEvent :=
  if s.inBulkInsert then [.endBulkInsert] else if s.inBulkDelete then [.endBulkDelete] else []

def idle (s : FtsSession) : Bool := !s.inBulkInsert && !s.inBulkDelete

end FtsSession

def FtsStore.Exact (s : FtsStore) (i : Nat) (ix : Index) : Prop :=
  s.totals i = ⟨s.table.rows.size, s.table.rows.weight fun record => (ix.tokens record).length⟩
  deriving Decidable

section
variable (T : Schema) (s : FtsStore) (i : Nat) (ix : Index) (record : Record)

def Index.Short : Prop := (ix.tokens record).length < 4294967296

instance : Decidable (ix.Short record) :=
  inferInstanceAs (Decidable (_ < _))

def Dml.Short (T : Schema) (ix : Index) : Dml → Prop
  | .write _ req => ix.Short (req.stored T)
  | .update req => ix.Short req.old ∧ ix.Short req.new
  | .delete req => ix.Short req.record

instance : (dml : Dml) → Decidable (dml.Short T ix)
  | .write _ req => inferInstanceAs (Decidable (ix.Short (req.stored T)))
  | .update _ => inferInstanceAs (Decidable (_ ∧ _))
  | .delete req => inferInstanceAs (Decidable (ix.Short req.record))

def FtsEvent.Short (T : Schema) (ix : Index) : FtsEvent → Prop
  | .call dml => dml.Short T ix
  | _ => True

instance : (event : FtsEvent) → Decidable (event.Short T ix)
  | .call dml => inferInstanceAs (Decidable (dml.Short T ix))
  | .startBulkInsert | .endBulkInsert | .startBulkDelete | .endBulkDelete | .commit | .rollback => isTrue trivial

end

namespace FtsSession

variable (T : Schema) (i : Nat) (ix : Index)

/-- The calls in the server's order: row functions on the current row, one bulk operation at a time,
statements ended first. -/
def InOrder (s : FtsSession) : FtsEvent → Prop
  | .startBulkInsert | .startBulkDelete | .commit | .rollback => s.idle = true
  | .endBulkInsert => s.inBulkInsert = true
  | .endBulkDelete => s.inBulkDelete = true
  | .call dml => Positioned s.view.table dml

instance (s : FtsSession) (event : FtsEvent) : Decidable (InOrder s event) := by
  cases event <;> dsimp only [InOrder] <;> infer_instance

def Called (s : FtsSession) (event : FtsEvent) : Prop := InOrder s event ∧ event.Short T ix
  deriving Decidable

/-- Whether the statement is broken off and rolled back here, or ends and is committed, the committed totals
are exact. -/
def ExactEitherWay (s : FtsSession) : Prop :=
  (run (step T) s (s.closing ++ [.commit])).committed.Exact i ix ∧
    (run (step T) s (s.closing ++ [.rollback])).committed.Exact i ix

/-- Steps that keep totals exact: no row replaces another, no bulk insert ends a batch, and stored
totals bear what is owed. -/
def Counts (s : FtsSession) : FtsEvent → Prop
  | .call (.write iters req) =>
    req.Served T → ¬ Hit T s.view.table iters req →
      ¬ s.view.table.rows.HasKey (newPk T s.view.table req) ∧
      (s.inBulkInsert = true → s.bulkInsertOps + 1 + T.indexes.length < tidesdbBulkInsertBatchOps)
  | .call (.update req) =>
    (req.current ≠ updatedPk T req → ¬ s.view.table.rows.HasKey (updatedPk T req)) ∧
      (s.inBulkInsert = true → ix.key.touched req.writeSet = true →
        ix.wordCount req.old ≤ (s.view.totals i).words + ix.wordCount req.new)
  | .call (.delete req) =>
    s.inBulkInsert = true → 1 ≤ (s.view.totals i).docs ∧ ix.wordCount req.record ≤ (s.view.totals i).words
  | _ => True

instance (s : FtsSession) (event : FtsEvent) : Decidable (Counts T i ix s event) := by
  rcases event with _ | _ | _ | _ | (_ | _ | _) | _ | _ <;> dsimp only [Counts] <;> infer_instance

structure Tidy (s : FtsSession) : Prop where
  stored : 0 ≤ (s.view.totals i).docs ∧ 0 ≤ (s.view.totals i).words
  kept : 0 ≤ (s.committed.totals i).docs ∧ 0 ≤ (s.committed.totals i).words
  owed : 0 ≤ s.ftsMetaDocDelta i ∧ 0 ≤ s.ftsMetaWordDelta i
  settled : s.inBulkInsert = false → s.ftsMetaDocDelta i = 0 ∧ s.ftsMetaWordDelta i = 0
  apart : ¬ (s.inBulkInsert = true ∧ s.inBulkDelete = true)

structure Balanced (s : FtsSession) : Prop where
  docs : (s.view.totals i).docs + s.ftsMetaDocDelta i = s.view.table.rows.size
  words : (s.view.totals i).words + s.ftsMetaWordDelta i =
    (s.view.table.rows.weight fun record => (ix.tokens record).length : Nat)

variable {T i ix}

section Key

variable (at_i : T.indexes[i]? = some ix)

include at_i

theorem totals_adjust_some {delta : Delta} (adds : deltas i ix = some delta) :
    (st.adjust T deltas).totals i = ftsUpdateMeta (st.totals i) delta.1 delta.2 := by
  have here : (T.indexes[i]?).bind (deltas i) = some delta := by rw [at_i, bind_some, adds]
  simp only [FtsStore.totals, FtsStore.adjust, here, ftsLoadMeta]

theorem totals_adjust_none (nothing : deltas i ix = none) : (st.adjust T deltas).totals i = st.totals i := by
  have here : (T.indexes[i]?).bind (deltas i) = none := by rw [at_i, bind_some, nothing]
  simp only [FtsStore.totals, FtsStore.adjust, here]

end Key

theorem wordCount_eq (short : ix.Short record) : ix.wordCount record = (ix.tokens record).length := by
  rw [Index.wordCount, ftsWordCount, Nat.mod_eq_of_lt short]

theorem exact_iff : st.Exact i ix ↔ (st.totals i).docs = st.table.rows.size ∧
    (st.totals i).words = (st.table.rows.weight fun record => (ix.tokens record).length : Nat) := by
  unfold FtsStore.Exact
  cases st.totals i
  exact Totals.mk.injEq .. ▸ Iff.rfl

theorem balanced_iff_exact {s : FtsSession} (docs : s.ftsMetaDocDelta i = 0) (words : s.ftsMetaWordDelta i = 0) :
    Balanced i ix s ↔ s.view.Exact i ix := by
  rw [exact_iff]
  constructor
  · rintro ⟨balanced_docs, balanced_words⟩
    rw [docs, Int.add_zero] at balanced_docs
    rw [words, Int.add_zero] at balanced_words
    exact ⟨balanced_docs, balanced_words⟩
  · rintro ⟨exact_docs, exact_words⟩
    refine ⟨?_, ?_⟩
    · rw [docs, Int.add_zero, exact_docs]
    · rw [words, Int.add_zero, exact_words]

section Debt

variable (at_i : T.indexes[i]? = some ix) (fts : ix.isFts = true)

include at_i fts

theorem totals_paid {s : FtsSession} (tidy : Tidy i s) :
    ((s.view.adjust T s.owed).totals i).docs = (s.view.totals i).docs + s.ftsMetaDocDelta i ∧
      ((s.view.adjust T s.owed).totals i).words = (s.view.totals i).words + s.ftsMetaWordDelta i := by
  obtain ⟨stored_docs, stored_words⟩ := tidy.stored
  obtain ⟨owed_docs, owed_words⟩ := tidy.owed
  by_cases nothing : s.ftsMetaDocDelta i = 0 ∧ s.ftsMetaWordDelta i = 0
  · rw [totals_adjust_none at_i (if_pos (.inl nothing)), nothing.1, nothing.2]
    exact ⟨(Int.add_zero _).symm, (Int.add_zero _).symm⟩
  · have adds : s.owed i ix = some (s.ftsMetaDocDelta i, s.ftsMetaWordDelta i) := by
      rw [owed, if_neg]
      simp [nothing, fts]
    rw [totals_adjust_some at_i adds]
    exact ⟨max_eq_right (by omega), max_eq_right (by omega)⟩

theorem exactEitherWay_iff {s : FtsSession} (tidy : Tidy i s) :
    ExactEitherWay T i ix s ↔ Balanced i ix s ∧ s.committed.Exact i ix := by
  unfold ExactEitherWay closing
  cases bulk : s.inBulkInsert with
  | true =>
    have paid := totals_paid at_i fts tidy
    apply and_congr
    · show (s.view.adjust T s.owed).Exact i ix ↔ _
      rw [exact_iff, paid.1, paid.2]
      exact ⟨fun ⟨docs, words⟩ => ⟨docs, words⟩, fun balanced => ⟨balanced.docs, balanced.words⟩⟩
    · exact Iff.rfl
  | false =>
    obtain ⟨no_docs, no_words⟩ := tidy.settled bulk
    rw [balanced_iff_exact no_docs no_words]
    cases s.inBulkDelete <;> exact Iff.rfl

end Debt

/- Tidiness takes no condition beyond the order of calls. -/

theorem totals_adjust_nonneg (deltas : Nat → Index → Option Delta)
    (stored : 0 ≤ (st.totals i).docs ∧ 0 ≤ (st.totals i).words) :
    0 ≤ ((st.adjust T deltas).totals i).docs ∧ 0 ≤ ((st.adjust T deltas).totals i).words := by
  cases adds : (T.indexes[i]?).bind (deltas i) with
  | none => simpa only [FtsStore.totals, FtsStore.adjust, adds] using stored
  | some delta =>
    simp only [FtsStore.totals, FtsStore.adjust, adds, ftsLoadMeta, ftsUpdateMeta]
    exact ⟨le_max_left _ _, le_max_left _ _⟩

variable {s : FtsSession}

theorem Tidy.bulkTail (tidy : Tidy i s) (inBulk : Bool) : Tidy i (s.bulkTail T inBulk) := by
  unfold FtsSession.bulkTail
  split
  · split
    · exact ⟨tidy.stored, tidy.stored, tidy.owed, tidy.settled, tidy.apart⟩
    · exact ⟨tidy.stored, tidy.kept, tidy.owed, tidy.settled, tidy.apart⟩
  · exact tidy

theorem Tidy.adjust (tidy : Tidy i s) (deltas : Nat → Index → Option Delta) :
    Tidy i { s with view := s.view.adjust T deltas } :=
  ⟨totals_adjust_nonneg deltas tidy.stored, tidy.kept, tidy.owed, tidy.settled, tidy.apart⟩

theorem Tidy.setTable (tidy : Tidy i s) (table : Table) : Tidy i (s.setTable table) :=
  ⟨tidy.stored, tidy.kept, tidy.owed, tidy.settled, tidy.apart⟩

theorem writeDelta_nonneg (ix : Option Index) (record : Record) :
    0 ≤ ((ix.bind (writeDelta · record)).getD (0, 0)).1 ∧ 0 ≤ ((ix.bind (writeDelta · record)).getD (0, 0)).2 := by
  cases ix with
  | none => exact ⟨Int.le_refl 0, Int.le_refl 0⟩
  | some ix =>
    rw [bind_some, writeDelta]
    split
    · exact ⟨Int.one_nonneg, Int.natCast_nonneg _⟩
    · exact ⟨Int.le_refl 0, Int.le_refl 0⟩

theorem Tidy.countWritten (tidy : Tidy i s) (record : Record) : Tidy i (s.countWritten T record) := by
  unfold FtsSession.countWritten
  split
  · rename_i bulk
    have adds := writeDelta_nonneg T.indexes[i]? record
    refine ⟨tidy.stored, tidy.kept, ⟨?_, ?_⟩, fun idle => ?_, tidy.apart⟩
    · exact Int.add_nonneg tidy.owed.1 adds.1
    · exact Int.add_nonneg tidy.owed.2 adds.2
    · rw [bulk] at idle
      cases idle
  · exact tidy.adjust _

theorem Tidy.call (tidy : Tidy i s) (dml : Dml) : Tidy i (s.call T dml).1 := by
  cases dml with
  | write iters req =>
    unfold FtsSession.call
    dsimp only
    split
    · exact tidy.setTable _
    · exact ((tidy.setTable _).countWritten _).bulkTail _
  | update req => exact (tidy.setTable _).adjust _
  | delete req => exact ((tidy.setTable _).adjust _).bulkTail _

theorem Tidy.step (tidy : Tidy i s) {event : FtsEvent} (called : InOrder s event) : Tidy i (s.step T event).1 := by
  cases event with
  | startBulkInsert =>
    have idle := (Bool.and_eq_true _ _ |>.mp called).2
    refine ⟨tidy.stored, tidy.kept, ⟨Int.le_refl 0, Int.le_refl 0⟩, fun _ => ⟨rfl, rfl⟩, fun both => ?_⟩
    rw [Bool.not_eq_true'] at idle
    exact Bool.false_ne_true (idle.symm.trans both.2)
  | endBulkInsert =>
    refine ⟨totals_adjust_nonneg _ tidy.stored, tidy.kept, ⟨Int.le_refl 0, Int.le_refl 0⟩, fun _ => ⟨rfl, rfl⟩, ?_⟩
    rintro ⟨inserts, -⟩
    cases inserts
  | startBulkDelete =>
    have idle := (Bool.and_eq_true _ _ |>.mp called).1
    refine ⟨tidy.stored, tidy.kept, tidy.owed, tidy.settled, fun both => ?_⟩
    rw [Bool.not_eq_true'] at idle
    exact Bool.false_ne_true (idle.symm.trans both.1)
  | endBulkDelete =>
    refine ⟨tidy.stored, tidy.kept, tidy.owed, tidy.settled, ?_⟩
    rintro ⟨-, deletes⟩
    cases deletes
  | call dml => exact tidy.call dml
  | commit => exact ⟨tidy.stored, tidy.stored, tidy.owed, tidy.settled, tidy.apart⟩
  | rollback => exact ⟨tidy.kept, tidy.kept, tidy.owed, tidy.settled, tidy.apart⟩

/- What the row functions do to the rows, counted. -/

section Rows

variable {rows : SortedMap Bytes Record} {pk : Bytes} {record old : Record} (f : Record → Nat)

theorem size_put_iff : (rows.put pk record).size = rows.size + 1 ↔ ¬ rows.HasKey pk := by
  rw [size_put]
  constructor
  · intro grown used
    have one := size_erase_of_has used
    omega
  · intro unused
    rw [size_erase_of_not unused]

theorem weight_put_new (unused : ¬ rows.HasKey pk) : (rows.put pk record).weight f = rows.weight f + f record := by
  rw [weight_put, weight_erase_of_not unused]

theorem updateRow_rows (T : Schema) (s : Table) (req : Update) : (updateRow T s req).2.rows =
      (if req.current ≠ updatedPk T req then s.rows.erase req.current else s.rows).put (updatedPk T req) req.new := by
  simp only [updateRow, updateOps_eq, rows_after]
  split <;> rfl

theorem updateRow_size {s : Table} (row : s.rows.Has req.current req.old) :
    (updateRow T s req).2.rows.size = s.rows.size ↔
      (req.current ≠ updatedPk T req → ¬ s.rows.HasKey (updatedPk T req)) := by
  have one := size_erase_of_has row.hasKey
  rw [updateRow_rows, size_put]
  by_cases moved : req.current ≠ updatedPk T req
  · have other : (s.rows.erase req.current).HasKey (updatedPk T req) ↔ s.rows.HasKey (updatedPk T req) := by
      rw [hasKey_erase, and_iff_right moved.symm]
    rw [if_pos moved, forall_prop_of_true moved, ← other]
    constructor
    · intro same used
      have two := size_erase_of_has used
      omega
    · intro unused
      rw [size_erase_of_not unused]
      exact one
  · rw [if_neg moved, ← not_not.mp moved]
    exact iff_of_true one (fun differs => absurd rfl differs)

theorem updateRow_weight {s : Table} (row : s.rows.Has req.current req.old)
    (free : req.current ≠ updatedPk T req → ¬ s.rows.HasKey (updatedPk T req)) :
    (updateRow T s req).2.rows.weight f + f req.old = s.rows.weight f + f req.new := by
  have one := weight_erase_of_has (f := f) row
  rw [updateRow_rows, weight_put]
  by_cases moved : req.current ≠ updatedPk T req
  · have unused : ¬ (s.rows.erase req.current).HasKey (updatedPk T req) := by
      rw [hasKey_erase]
      exact fun used => free moved used.2
    rw [if_pos moved, weight_erase_of_not unused]
    omega
  · rw [if_neg moved, ← not_not.mp moved]
    omega

end Rows

/- The bulk tail moves nothing but the committed state. -/

theorem balanced_bulkTail {inBulk : Bool} : Balanced i ix (s.bulkTail T inBulk) ↔ Balanced i ix s := by
  unfold FtsSession.bulkTail
  split
  · split <;> exact ⟨fun ⟨docs, words⟩ => ⟨docs, words⟩, fun ⟨docs, words⟩ => ⟨docs, words⟩⟩
  · exact Iff.rfl

theorem committed_bulkTail {inBulk : Bool} : (s.bulkTail T inBulk).committed =
      if inBulk = true ∧ tidesdbBulkInsertBatchOps ≤ s.bulkInsertOps + 1 + T.indexes.length then s.view
      else s.committed := by
  unfold FtsSession.bulkTail
  cases inBulk with
  | false => rfl
  | true =>
    rw [if_pos rfl]
    split
    · rename_i large
      rw [if_pos ⟨rfl, large⟩]
    · rename_i small
      rw [if_neg fun both => small both.2]

section Calls

variable (at_i : T.indexes[i]? = some ix) (fts : ix.isFts = true)

include at_i fts

variable {s : FtsSession} {req : Update}

theorem countWritten_sum (tidy : Tidy i s) (short : ix.Short record) :
    ((s.countWritten T record).view.totals i).docs + (s.countWritten T record).ftsMetaDocDelta i =
        (s.view.totals i).docs + s.ftsMetaDocDelta i + 1 ∧
      ((s.countWritten T record).view.totals i).words + (s.countWritten T record).ftsMetaWordDelta i =
        (s.view.totals i).words + s.ftsMetaWordDelta i + (ix.tokens record).length := by
  have adds : writeDelta ix record = some (1, ((ix.tokens record).length : Int)) := by
    rw [writeDelta, if_pos fts, wordCount_eq short]
    rfl
  obtain ⟨stored_docs, stored_words⟩ := tidy.stored
  unfold FtsSession.countWritten
  split
  · simp only [at_i, bind_some, adds, getD_some]
    exact ⟨by omega, by omega⟩
  · rw [totals_adjust_some at_i adds, ftsUpdateMeta]
    dsimp only
    exact ⟨by omega, by omega⟩

theorem balanced_written (tidy : Tidy i s) (balanced : Balanced i ix s) (short : ix.Short record) {pk : Bytes}
    {table : Table} (rows : table.rows = s.view.table.rows.put pk record) :
    Balanced i ix ((s.setTable table).countWritten T record) ↔ ¬ s.view.table.rows.HasKey pk := by
  obtain ⟨docs, words⟩ := countWritten_sum at_i fts (tidy.setTable table) short
  have stored : ((s.setTable table).countWritten T record).view.table.rows = s.view.table.rows.put pk record := by
    rw [← rows]
    unfold FtsSession.countWritten
    split <;> rfl
  have docs_before : ((s.setTable table).view.totals i).docs + (s.setTable table).ftsMetaDocDelta i =
      s.view.table.rows.size := balanced.docs
  have words_before : ((s.setTable table).view.totals i).words + (s.setTable table).ftsMetaWordDelta i =
      (s.view.table.rows.weight fun record => (ix.tokens record).length) := balanced.words
  constructor
  · intro after
    have counted := after.docs
    rw [docs, docs_before, stored] at counted
    exact size_put_iff.mp (Int.ofNat.inj counted.symm)
  · intro unused
    refine ⟨?_, ?_⟩
    · rw [docs, docs_before, stored, size_put_iff.mpr unused]
      rfl
    · rw [words, words_before, stored, weight_put_new _ unused]
      rfl

theorem bulk_written_inexact (tidy : Tidy i s) (bulk : s.inBulkInsert = true)
    (balanced : Balanced i ix (s.countWritten T record)) : ¬ (s.countWritten T record).view.Exact i ix := by
  intro exact
  have stored := (exact_iff.mp exact).1
  have counted := balanced.docs
  have debt : (s.countWritten T record).ftsMetaDocDelta i = s.ftsMetaDocDelta i + 1 := by
    have adds : writeDelta ix record = some (1, ix.wordCount record) := if_pos fts
    simp only [FtsSession.countWritten, bulk, if_true, at_i, bind_some, adds, getD_some]
  have owed := tidy.owed.1
  omega

omit at_i fts in
theorem countWritten_frame :
    (s.countWritten T record).bulkInsertOps = s.bulkInsertOps ∧ (s.countWritten T record).committed = s.committed := by
  unfold FtsSession.countWritten
  split <;> exact ⟨rfl, rfl⟩

theorem written_keeps (tidy : Tidy i s) (balanced : Balanced i ix s) (exact : s.committed.Exact i ix)
    (short : ix.Short record) {pk : Bytes} {table : Table} (rows : table.rows = s.view.table.rows.put pk record) :
    Balanced i ix (((s.setTable table).countWritten T record).bulkTail T s.inBulkInsert) ∧
        (((s.setTable table).countWritten T record).bulkTail T s.inBulkInsert).committed.Exact i ix ↔
      ¬ s.view.table.rows.HasKey pk ∧
        (s.inBulkInsert = true → s.bulkInsertOps + 1 + T.indexes.length < tidesdbBulkInsertBatchOps) := by
  have balanced_iff := balanced_written at_i fts tidy balanced short rows
  rw [balanced_bulkTail, balanced_iff, committed_bulkTail, countWritten_frame.1, countWritten_frame.2]
  apply and_congr_right
  intro unused
  split
  · rename_i large
    apply iff_of_false (bulk_written_inexact at_i fts (tidy.setTable table) large.1 (balanced_iff.mpr unused))
    intro small
    exact absurd (small large.1) (Nat.not_lt.mpr large.2)
  · rename_i small
    apply iff_of_true exact
    intro bulk
    by_contra large
    exact small ⟨bulk, Nat.not_lt.mp large⟩

theorem write_keeps (tidy : Tidy i s) (balanced : Balanced i ix s) (exact : s.committed.Exact i ix)
    (iters : DupIters) {req : Insert} (short : ix.Short (req.stored T)) :
    Balanced i ix (s.call T (.write iters req)).1 ∧ (s.call T (.write iters req)).1.committed.Exact i ix ↔
      Counts T i ix s (.call (.write iters req)) := by
  have unwritten : (writeRow T s.view.table iters req).ops = [] →
      (writeRow T s.view.table iters req).table.rows = s.view.table.rows →
      Balanced i ix (s.call T (.write iters req)).1 ∧ (s.call T (.write iters req)).1.committed.Exact i ix := by
    intro nothing rows
    have quiet : (s.call T (.write iters req)).1 = s.setTable (writeRow T s.view.table iters req).table := by
      simp only [FtsSession.call, nothing, List.isEmpty_nil, if_true]
    have docs := balanced.docs
    have words := balanced.words
    rw [← rows] at docs words
    rw [quiet]
    exact ⟨⟨docs, words⟩, exact⟩
  rw [Counts]
  rcases writeRow_cases T s.view.table iters req with ⟨unserved, nothing, same⟩ | ⟨counter, served, result⟩
  · exact iff_of_true (unwritten nothing (by rw [same])) fun served => absurd served unserved
  · rcases result with ⟨hit, -, nothing, same⟩ | ⟨no_hit, -, written, after⟩
    · exact iff_of_true (unwritten nothing (by rw [same]; rfl)) fun _ no_hit => absurd hit no_hit
    · have rows : (writeRow T s.view.table iters req).table.rows =
          s.view.table.rows.put (newPk T s.view.table req) (req.stored T) := by
        rw [after]
        exact rows_after [.put (newPk T s.view.table req) (req.stored T)] _
      have counted : (s.call T (.write iters req)).1 =
          ((s.setTable (writeRow T s.view.table iters req).table).countWritten T (req.stored T)).bulkTail T
            s.inBulkInsert := by
        simp only [FtsSession.call, written, writeOps, List.isEmpty_cons, Bool.false_eq_true, if_false]
        rfl
      rw [counted, forall_prop_of_true served, forall_prop_of_true no_hit]
      exact written_keeps at_i fts tidy balanced exact short rows

/- The words of a document stay as they are when none of its columns is written. -/
omit at_i fts in
theorem tokens_untouched (untouched : req.Untouched) (skipped : ix.key.touched req.writeSet = false) :
    ix.tokens req.new = ix.tokens req.old := by
  have same := ftsDocument_congr (untouched.parts_eq skipped)
  unfold Index.tokens ftsExtractAndTokenize
  rw [same]

theorem totals_updated (st : FtsStore) (stored : 0 ≤ (st.totals i).docs ∧ 0 ≤ (st.totals i).words)
    (untouched : req.Untouched) : ((st.adjust T fun _ ix => updateDelta ix req).totals i).docs = (st.totals i).docs ∧
      ((st.adjust T fun _ ix => updateDelta ix req).totals i).words =
        max 0 ((st.totals i).words + (ix.wordCount req.new - ix.wordCount req.old)) := by
  by_cases adds : ix.isFts = true ∧ ix.key.touched req.writeSet = true ∧ ix.wordCount req.new - ix.wordCount req.old ≠ 0
  · have some_delta : updateDelta ix req = some (0, ix.wordCount req.new - ix.wordCount req.old) := if_pos adds
    rw [totals_adjust_some at_i some_delta, ftsUpdateMeta]
    dsimp only
    exact ⟨by omega, rfl⟩
  · have no_delta : updateDelta ix req = none := if_neg adds
    have same : ix.wordCount req.new - ix.wordCount req.old = 0 := by
      by_contra moved
      have skipped : ix.key.touched req.writeSet = false :=
        Bool.eq_false_of_not_eq_true fun touched => adds ⟨fts, touched, moved⟩
      rw [Index.wordCount, Index.wordCount, tokens_untouched untouched skipped, Int.sub_self] at moved
      exact moved rfl
    rw [totals_adjust_none at_i no_delta, same]
    exact ⟨rfl, by omega⟩

theorem update_keeps (tidy : Tidy i s) (balanced : Balanced i ix s) (exact : s.committed.Exact i ix)
    (row : s.view.table.rows.Has req.current req.old) (untouched : req.Untouched)
    (short_old : ix.Short req.old) (short_new : ix.Short req.new) :
    Balanced i ix (s.call T (.update req)).1 ∧ (s.call T (.update req)).1.committed.Exact i ix ↔
      Counts T i ix s (.call (.update req)) := by
  obtain ⟨docs, words⟩ := totals_updated at_i fts { s.view with table := (updateRow T s.view.table req).2 }
    tidy.stored untouched
  have docs_now : ((s.call T (.update req)).1.view.totals i).docs = (s.view.totals i).docs := docs
  have words_now : ((s.call T (.update req)).1.view.totals i).words =
      max 0 ((s.view.totals i).words + (ix.wordCount req.new - ix.wordCount req.old)) := words
  have docs_before := balanced.docs
  have words_before := balanced.words
  have size := updateRow_size (T := T) row
  have weight := updateRow_weight (T := T) (fun record => (ix.tokens record).length) row
  have stored := tidy.stored.2
  have settled := tidy.settled
  have old := wordCount_eq short_old
  have new := wordCount_eq short_new
  rw [Counts, ← size]
  constructor
  · rintro ⟨⟨docs_after, words_after⟩, -⟩
    rw [docs_now] at docs_after
    rw [words_now] at words_after
    have same : (updateRow T s.view.table req).2.rows.size = s.view.table.rows.size :=
      Int.ofNat.inj (docs_after.symm.trans docs_before)
    have moved := weight (size.mp same)
    have words_after' : max 0 ((s.view.totals i).words + (ix.wordCount req.new - ix.wordCount req.old)) +
        s.ftsMetaWordDelta i = ((updateRow T s.view.table req).2.rows.weight fun record => (ix.tokens record).length) :=
      words_after
    refine ⟨same, fun _ _ => ?_⟩
    omega
  · rintro ⟨same, bears⟩
    have moved := weight (size.mp same)
    have enough : ix.wordCount req.old ≤ (s.view.totals i).words + ix.wordCount req.new := by
      cases bulk : s.inBulkInsert with
      | false =>
        have none_owed := (settled bulk).2
        omega
      | true =>
        cases touched : ix.key.touched req.writeSet with
        | true => exact bears bulk touched
        | false =>
          rw [Index.wordCount, Index.wordCount, tokens_untouched untouched touched]
          omega
    refine ⟨⟨?_, ?_⟩, exact⟩
    · rw [docs_now]
      exact docs_before.trans (congrArg Nat.cast same.symm)
    · rw [words_now]
      show _ + s.ftsMetaWordDelta i =
        ((updateRow T s.view.table req).2.rows.weight fun record => (ix.tokens record).length)
      omega

theorem totals_deleted (st : FtsStore) (record : Record) :
    ((st.adjust T fun _ ix => deleteDelta ix record).totals i).docs = max 0 ((st.totals i).docs - 1) ∧
      ((st.adjust T fun _ ix => deleteDelta ix record).totals i).words =
        max 0 ((st.totals i).words - ix.wordCount record) := by
  have adds : deleteDelta ix record = some (-1, -ix.wordCount record) := if_pos fts
  rw [totals_adjust_some at_i adds, ftsUpdateMeta]
  dsimp only
  exact ⟨by omega, by omega⟩

theorem balanced_deleted (balanced : Balanced i ix s) {req : Delete}
    (row : s.view.table.rows.Has req.current req.record) (short : ix.Short req.record) :
    Balanced i ix { s.setTable (deleteRow T s.view.table req).2 with
        view := (s.setTable (deleteRow T s.view.table req).2).view.adjust T fun _ ix => deleteDelta ix req.record } ↔
      1 ≤ (s.view.totals i).docs ∧ ix.wordCount req.record ≤ (s.view.totals i).words := by
  obtain ⟨docs, words⟩ := totals_deleted at_i fts (s.setTable (deleteRow T s.view.table req).2).view req.record
  have docs_before := balanced.docs
  have words_before := balanced.words
  have rows : (deleteRow T s.view.table req).2.rows = s.view.table.rows.erase req.current := deleteRow_rows req
  have size := size_erase_of_has row.hasKey
  have weight := weight_erase_of_has (f := fun record => (ix.tokens record).length) row
  have count := wordCount_eq short
  constructor
  · rintro ⟨docs_after, words_after⟩
    rw [docs] at docs_after
    rw [words] at words_after
    have docs_after' : max 0 ((s.view.totals i).docs - 1) + s.ftsMetaDocDelta i =
      ((s.view.table.rows.erase req.current).size) := rows ▸ docs_after
    have words_after' : max 0 ((s.view.totals i).words - ix.wordCount req.record) + s.ftsMetaWordDelta i =
      ((s.view.table.rows.erase req.current).weight fun record => (ix.tokens record).length) := rows ▸ words_after
    exact ⟨by omega, by omega⟩
  · rintro ⟨one, enough⟩
    refine ⟨?_, ?_⟩
    · rw [docs]
      show max 0 ((s.view.totals i).docs - 1) + s.ftsMetaDocDelta i = ((deleteRow T s.view.table req).2.rows.size)
      rw [rows]
      omega
    · rw [words]
      show max 0 ((s.view.totals i).words - ix.wordCount req.record) + s.ftsMetaWordDelta i =
        ((deleteRow T s.view.table req).2.rows.weight fun record => (ix.tokens record).length)
      rw [rows]
      omega

theorem delete_keeps (tidy : Tidy i s) (balanced : Balanced i ix s) (exact : s.committed.Exact i ix)
    {req : Delete} (row : s.view.table.rows.Has req.current req.record) (short : ix.Short req.record) :
    Balanced i ix (s.call T (.delete req)).1 ∧ (s.call T (.delete req)).1.committed.Exact i ix ↔
      Counts T i ix s (.call (.delete req)) := by
  have balanced_iff := balanced_deleted at_i fts balanced row short
  have bears_iff : Counts T i ix s (.call (.delete req)) ↔
      1 ≤ (s.view.totals i).docs ∧ ix.wordCount req.record ≤ (s.view.totals i).words := by
    rw [Counts]
    cases bulk : s.inBulkInsert with
    | true => exact forall_prop_of_true rfl
    | false =>
      apply iff_of_true
      · intro bulk'
        cases bulk'
      · obtain ⟨no_docs, no_words⟩ := tidy.settled bulk
        have size := size_erase_of_has row.hasKey
        have weight := weight_erase_of_has (f := fun record => (ix.tokens record).length) row
        have docs := balanced.docs
        have words := balanced.words
        have count := wordCount_eq short
        exact ⟨by omega, by omega⟩
  rw [bears_iff, ← balanced_iff]
  unfold FtsSession.call
  rw [balanced_bulkTail, committed_bulkTail]
  apply and_iff_left_of_imp
  intro balanced_now
  split
  · rename_i large
    -- outside a bulk insert nothing is owed, so a batch of deletes commits exact totals
    have idle : s.inBulkInsert = false := Bool.eq_false_of_not_eq_true fun bulk => tidy.apart ⟨bulk, large.1⟩
    obtain ⟨no_docs, no_words⟩ := tidy.settled idle
    refine (balanced_iff_exact ?_ ?_).mp balanced_now
    · exact no_docs
    · exact no_words
  · exact exact

theorem step_keeps (tidy : Tidy i s) {event : FtsEvent} (called : Called T ix s event)
    (balanced : Balanced i ix s) (exact : s.committed.Exact i ix) :
    Balanced i ix (s.step T event).1 ∧ (s.step T event).1.committed.Exact i ix ↔ Counts T i ix s event := by
  have undebted : s.idle = true → s.ftsMetaDocDelta i = 0 ∧ s.ftsMetaWordDelta i = 0 := by
    intro idle
    apply tidy.settled
    simpa using (Bool.and_eq_true _ _ |>.mp idle).1
  cases event with
  | startBulkInsert =>
    obtain ⟨no_docs, no_words⟩ := undebted called.1
    refine iff_of_true ⟨?_, exact⟩ trivial
    exact (balanced_iff_exact rfl rfl).mpr ((balanced_iff_exact no_docs no_words).mp balanced)
  | endBulkInsert =>
    refine iff_of_true ⟨?_, exact⟩ trivial
    obtain ⟨docs, words⟩ := totals_paid at_i fts tidy
    refine (balanced_iff_exact rfl rfl).mpr (exact_iff.mpr ⟨?_, ?_⟩)
    · exact docs.trans balanced.docs
    · exact words.trans balanced.words
  | startBulkDelete | endBulkDelete => exact iff_of_true ⟨⟨balanced.docs, balanced.words⟩, exact⟩ trivial
  | commit =>
    obtain ⟨no_docs, no_words⟩ := undebted called.1
    exact iff_of_true ⟨⟨balanced.docs, balanced.words⟩, (balanced_iff_exact no_docs no_words).mp balanced⟩ trivial
  | rollback =>
    obtain ⟨no_docs, no_words⟩ := undebted called.1
    refine iff_of_true ⟨(balanced_iff_exact ?_ ?_).mpr exact, exact⟩ trivial
    · exact no_docs
    · exact no_words
  | call dml =>
    obtain ⟨positioned, short⟩ := called
    cases dml with
    | write iters req => exact write_keeps at_i fts tidy balanced exact iters short
    | update req => exact update_keeps at_i fts tidy balanced exact positioned.1 positioned.2 short.1 short.2
    | delete req => exact delete_keeps at_i fts tidy balanced exact positioned short

end Calls

def fresh : FtsSession where
  committed := ⟨Table.empty, fun _ => none⟩
  view := ⟨Table.empty, fun _ => none⟩
  inBulkInsert := false
  inBulkDelete := false
  bulkInsertOps := 0
  ftsMetaDocDelta _ := 0
  ftsMetaWordDelta _ := 0

theorem fresh_tidy : Tidy i fresh where
  stored := ⟨Int.le_refl 0, Int.le_refl 0⟩
  kept := ⟨Int.le_refl 0, Int.le_refl 0⟩
  owed := ⟨Int.le_refl 0, Int.le_refl 0⟩
  settled _ := ⟨rfl, rfl⟩
  apart both := Bool.false_ne_true both.1

/-- Over whole sessions the committed totals are exact just when every step counts right. -/
theorem statistics_exact_iff (T : Schema) {i : Nat} {ix : Index} (at_i : T.indexes[i]? = some ix)
    (fts : ix.isFts = true) (events : List FtsEvent) (called : Along (step T) (Called T ix) fresh events) :
    (∀ done, done <+: events → ExactEitherWay T i ix (run (step T) fresh done)) ↔
      Along (step T) (Counts T i ix) fresh events := by
  have keeps : ∀ s event, Tidy i s → Called T ix s event → ExactEitherWay T i ix s →
      (ExactEitherWay T i ix (step T s event).1 ↔ Counts T i ix s event) := by
    intro s event tidy called either
    obtain ⟨balanced, exact⟩ := (exactEitherWay_iff at_i fts tidy).mp either
    rw [exactEitherWay_iff at_i fts (tidy.step called.1)]
    exact step_keeps at_i fts tidy called balanced exact
  have knows : ∀ s event, Tidy i s → Called T ix s event → Tidy i (step T s event).1 := by
    intro s event tidy called
    exact tidy.step called.1
  have whole := Base.run_invariant_iff (step T) knows keeps fresh_tidy called
  rw [whole]
  apply and_iff_right
  exact (exactEitherWay_iff at_i fts fresh_tidy).mpr ⟨⟨rfl, rfl⟩, rfl⟩

def articleBody : Index := ⟨byteKey 1, .fulltext fun doc => if doc = [] then [] else [doc]⟩

def insertCall (pk : UInt8) (body : Bytes) : FtsEvent := .call (.write (fun _ => none) (insertOf [some [pk], some body]))

def insertAndDelete : List FtsEvent :=
  [.startBulkInsert, insertCall 1 cat, insertCall 2 cat, .endBulkInsert, .commit,
    .startBulkDelete, .call (.delete ⟨[1], [some [1], some cat], zeroed⟩), .endBulkDelete, .commit]

theorem statistics_exact_rows : Along (step articles) (Called articles articleBody) fresh insertAndDelete ∧
      ∀ done, done <+: insertAndDelete → ExactEitherWay articles 0 articleBody (run (step articles) fresh done) :=
  ⟨by decide, (statistics_exact_iff articles rfl rfl insertAndDelete (by decide)).mpr (by decide)⟩

/- REPLACE of (1, 'cat') and (1, '') into an empty table: the second row meets the first, which is updated. -/
def replaceTwice : List FtsEvent :=
  [.startBulkInsert, insertCall 1 cat, insertCall 1 [],
    .call (.update ⟨[1], [some [1], some cat], [some [1], some []], [0, 1], zeroed⟩), .endBulkInsert, .commit]

/-- The word the update takes off is not there yet, so that it stays in the totals for good. -/
theorem replaced_word_stays : ¬ ∀ (T : Schema) (i : Nat) (ix : Index), T.indexes[i]? = some ix → ix.isFts = true →
      ∀ events, Along (step T) (Called T ix) fresh events →
        ∀ done, done <+: events → ExactEitherWay T i ix (run (step T) fresh done) := by
  intro claim
  have exact := (claim articles 0 articleBody rfl rfl replaceTwice (by decide) replaceTwice (List.prefix_refl _)).1
  exact absurd exact (by decide)

end FtsSession

end TidesdbMysql
