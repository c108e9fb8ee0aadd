import TidesdbMysql.Fts.Statistics

/-! The totals of FULLTEXT keys over ALTER TABLE. They are stored under the number of the key, which moves
when other keys come and go; the statement neither moves nor removes what is stored. -/
namespace TidesdbMysql

open Base (Bytes SortedMap run Along)

/-- A key of the altered table, with the number it had before unless the statement adds it. -/
structure AlteredKey where
  index : Index
  oldNumber : Option Nat

/-- An accepted ALTER TABLE by the keys of the altered table; `built` is what it puts for the keys
it adds. -/
structure KeyAlter where
  keys : List AlteredKey
  built : Nat → SortedMap Bytes Bytes

namespace KeyAlter

variable (change : KeyAlter)

def schema (T : Schema) : Schema := { T with indexes := change.keys.map AlteredKey.index }

def table (s : Table) : Table :=
  { s with index := fun j =>
      match (change.keys[j]?).bind AlteredKey.oldNumber with
      | some n => s.index n
      | none => change.built j }

/-- `fts_doc_acc` and `fts_word_acc` after the scan. -/
def accumulated (rows : SortedMap Bytes Record) (ix : Index) : Delta :=
  rows.entries.foldl (fun acc e => (acc.1 + ftsDocDeltaAdd, acc.2 + ix.wordCount e.2)) (0, 0)

def flushed (rows : SortedMap Bytes Record) (j : Nat) (ix : Index) : Option Delta :=
  if ((change.keys[j]?).bind AlteredKey.oldNumber).isNone ∧ ix.isFts = true ∧ accumulated rows ix ≠ (0, 0) then
    some (accumulated rows ix)
  else none

def store (T : Schema) (s : FtsStore) : FtsStore :=
  ({ s with table := change.table s.table } : FtsStore).adjust (change.schema T) (change.flushed s.table.rows)

/-- What is stored under each number is what its new key has: the totals of the old number, and nothing for an
added key. -/
def Follows (s : FtsStore) : Prop :=
  ∀ j (inside : j < change.keys.length), change.keys[j].index.isFts = true →
    s.totals j = (change.keys[j].oldNumber.map s.totals).getD ⟨0, 0⟩

instance (s : FtsStore) : Decidable (change.Follows s) :=
  inferInstanceAs (Decidable (∀ j (inside : j < change.keys.length), change.keys[j].index.isFts = true →
    s.totals j = (change.keys[j].oldNumber.map s.totals).getD ⟨0, 0⟩))

end KeyAlter

structure FtsTable where
  schema : Schema
  session : FtsSession

inductive FtsTableEvent where
  | dml (event : FtsEvent)
  | alter (change : KeyAlter)

namespace FtsTable

/- An ALTER TABLE commits the transaction before it. -/
def step (s : FtsTable) : FtsTableEvent → FtsTable × HaCode
  | .dml event => ({ s with session := (s.session.step s.schema event).1 }, (s.session.step s.schema event).2)
  | .alter change =>
    let st := change.store s.schema s.session.view
    (⟨change.schema s.schema, { s.session with committed := st, view := st }⟩, .ok)

/-- DML as the server calls it, and ALTER TABLE between statements; no document is too long for an
added key. -/
def Called (s : FtsTable) : FtsTableEvent → Prop
  | .dml event => s.session.InOrder event ∧ ∀ ix ∈ s.schema.indexes, event.Short s.schema ix
  | .alter change => s.session.idle = true ∧
    (∀ key ∈ change.keys, ∀ n ∈ key.oldNumber, ∃ inside : n < s.schema.indexes.length, s.schema.indexes[n] = key.index) ∧
    ∀ key ∈ change.keys, ∀ e ∈ s.session.view.table.rows.entries, key.index.Short e.2

instance (s : FtsTable) (event : FtsEvent) : Decidable (s.Called (.dml event)) :=
  inferInstanceAs (Decidable (s.session.InOrder event ∧ ∀ ix ∈ s.schema.indexes, event.Short s.schema ix))

/-- The committed totals of every FULLTEXT key are exact, whichever way the transaction ends. -/
def Exact (s : FtsTable) : Prop :=
  ∀ i (inside : i < s.schema.indexes.length), s.schema.indexes[i].isFts = true →
    s.session.ExactEitherWay s.schema i s.schema.indexes[i]

def Follows (s : FtsTable) : FtsTableEvent → Prop
  | .dml event => ∀ i (inside : i < s.schema.indexes.length), s.schema.indexes[i].isFts = true →
    s.session.Counts s.schema i s.schema.indexes[i] event
  | .alter change => change.Follows s.session.view

instance (s : FtsTable) (event : FtsTableEvent) : Decidable (s.Follows event) := by
  cases event <;> dsimp only [Follows] <;> infer_instance

end FtsTable

namespace KeyAlter

theorem accumulated_eq {rows : SortedMap Bytes Record} {ix : Index} (short : ∀ e ∈ rows.entries, ix.Short e.2) :
    accumulated rows ix = ((rows.size : Int), ((rows.weight fun record => (ix.tokens record).length : Nat) : Int)) := by
  have counts : ∀ (entries : List (Bytes × Record)) (docs words), (∀ e ∈ entries, ix.Short e.2) →
      entries.foldl (fun acc e => (acc.1 + ftsDocDeltaAdd, acc.2 + ix.wordCount e.2)) (docs, words) =
        (docs + entries.length, words + ((entries.map fun e => (ix.tokens e.2).length).sum)) := by
    intro entries
    induction entries with
    | nil =>
      intro docs words _
      simp
    | cons e rest ih =>
      intro docs words short
      obtain ⟨here, later⟩ := List.forall_mem_cons.mp short
      rw [List.foldl_cons, ih _ _ later, FtsSession.wordCount_eq here, ftsDocDeltaAdd, List.map_cons, List.sum_cons,
        List.length_cons]
      exact Prod.ext (by dsimp only; omega) (by dsimp only; omega)
  rw [accumulated, counts _ _ _ short, Int.zero_add, Int.zero_add]
  rfl

variable {change : KeyAlter} {T : Schema} {s : FtsStore} {j : Nat} {key : AlteredKey}

theorem schema_at (at_j : change.keys[j]? = some key) : (change.schema T).indexes[j]? = some key.index := by
  rw [schema, List.getElem?_map, at_j]
  rfl

theorem store_totals_kept (at_j : change.keys[j]? = some key) {n : Nat} (kept : key.oldNumber = some n) :
    (change.store T s).totals j = s.totals j := by
  apply FtsSession.totals_adjust_none (schema_at at_j)
  rw [flushed, if_neg]
  rintro ⟨added, -⟩
  rw [at_j, Option.bind_some, kept] at added
  cases added

theorem store_totals_added (at_j : change.keys[j]? = some key) (added : key.oldNumber = none)
    (fts : key.index.isFts = true) (short : ∀ e ∈ s.table.rows.entries, key.index.Short e.2)
    (stored : 0 ≤ (s.totals j).docs ∧ 0 ≤ (s.totals j).words) :
    ((change.store T s).totals j).docs = (s.totals j).docs + s.table.rows.size ∧ ((change.store T s).totals j).words =
        (s.totals j).words + (s.table.rows.weight fun record => (key.index.tokens record).length : Nat) := by
  have counted := accumulated_eq short
  have isNew : ((change.keys[j]?).bind AlteredKey.oldNumber).isNone = true := by
    rw [at_j, Option.bind_some, added]
    rfl
  by_cases nothing : accumulated s.table.rows key.index = (0, 0)
  · have unflushed : change.flushed s.table.rows j key.index = none := by
      rw [flushed, if_neg]
      rintro ⟨-, -, something⟩
      exact something nothing
    have same : (change.store T s).totals j = s.totals j :=
      FtsSession.totals_adjust_none (schema_at at_j) unflushed
    rw [counted] at nothing
    obtain ⟨no_docs, no_words⟩ := Prod.mk.inj nothing
    rw [same, no_docs, no_words]
    exact ⟨(Int.add_zero _).symm, (Int.add_zero _).symm⟩
  · have flush : change.flushed s.table.rows j key.index = some (accumulated s.table.rows key.index) := by
      rw [flushed, if_pos ⟨isNew, fts, nothing⟩]
    have after : (change.store T s).totals j = ftsUpdateMeta (s.totals j) (accumulated s.table.rows key.index).1
        (accumulated s.table.rows key.index).2 :=
      FtsSession.totals_adjust_some (schema_at at_j) flush
    rw [after, counted, ftsUpdateMeta]
    dsimp only
    exact ⟨by omega, by omega⟩

/-- The totals under the number of a key are exact after the statement just when what was stored there is
what the key had. -/
theorem store_exact_iff (at_j : change.keys[j]? = some key) (fts : key.index.isFts = true)
    (short : ∀ e ∈ s.table.rows.entries, key.index.Short e.2) (stored : 0 ≤ (s.totals j).docs ∧ 0 ≤ (s.totals j).words)
    (before : ∀ n, key.oldNumber = some n → s.Exact n key.index) :
    (change.store T s).Exact j key.index ↔ s.totals j = (key.oldNumber.map s.totals).getD ⟨0, 0⟩ := by
  cases origin : key.oldNumber with
  | some n =>
    have exact := before n origin
    unfold FtsStore.Exact at exact ⊢
    rw [store_totals_kept at_j origin, Option.map_some, Option.getD_some, exact]
    rfl
  | none =>
    obtain ⟨docs, words⟩ := store_totals_added at_j origin fts short stored
    rw [FtsSession.exact_iff, docs, words, Option.map_none, Option.getD_none]
    show (s.totals j).docs + s.table.rows.size = s.table.rows.size ∧
      (s.totals j).words + ((s.table.rows.weight fun record => (key.index.tokens record).length)) =
        (s.table.rows.weight fun record => (key.index.tokens record).length) ↔ _
    constructor
    · rintro ⟨no_docs, no_words⟩
      exact congrArg₂ Totals.mk (show (s.totals j).docs = 0 by omega) (show (s.totals j).words = 0 by omega)
    · intro nothing
      rw [nothing]
      exact ⟨Int.zero_add _, Int.zero_add _⟩

end KeyAlter

namespace FtsTable

open FtsSession (Tidy Balanced exactEitherWay_iff balanced_iff_exact)
open FtsSession
open List Option

variable {s : FtsTable}

theorem step_tidy {event : FtsTableEvent} (tidy : ∀ i, Tidy i s.session) (called : s.Called event) :
    ∀ i, Tidy i (s.step event).1.session := by
  intro i
  cases event with
  | dml event => exact (tidy i).step called.1
  | alter change =>
    have stored := totals_adjust_nonneg (T := change.schema s.schema) (change.flushed s.session.view.table.rows)
      (show 0 ≤ (({ s.session.view with table := change.table s.session.view.table } : FtsStore).totals i).docs ∧ _ from
        (tidy i).stored)
    exact ⟨stored, stored, (tidy i).owed, (tidy i).settled, (tidy i).apart⟩

theorem dml_keeps {event : FtsEvent} (tidy : ∀ i, Tidy i s.session) (called : s.Called (.dml event)) (exact : s.Exact) :
    (s.step (.dml event)).1.Exact ↔ s.Follows (.dml event) := by
  apply forall_congr'
  intro i
  apply forall_congr'
  intro inside
  apply imp_congr_right
  intro fts
  have at_i : s.schema.indexes[i]? = some s.schema.indexes[i] := getElem?_eq_getElem inside
  obtain ⟨balanced, committed⟩ := (exactEitherWay_iff at_i fts (tidy i)).mp (exact i inside fts)
  have short := called.2 s.schema.indexes[i] (getElem_mem inside)
  have kept := step_keeps at_i fts (tidy i) ⟨called.1, short⟩ balanced committed
  exact (exactEitherWay_iff at_i fts ((tidy i).step called.1)).trans kept

theorem view_exact {i : Nat} {ix : Index} (tidy : Tidy i s.session) (idle : s.session.idle = true)
    (at_i : s.schema.indexes[i]? = some ix) (fts : ix.isFts = true)
    (exact : s.session.ExactEitherWay s.schema i ix) : s.session.view.Exact i ix := by
  obtain ⟨no_docs, no_words⟩ := tidy.settled (by simpa using (Bool.and_eq_true _ _ |>.mp idle).1)
  exact (balanced_iff_exact no_docs no_words).mp ((exactEitherWay_iff at_i fts tidy).mp exact).1

theorem alter_keeps {change : KeyAlter} (tidy : ∀ i, Tidy i s.session) (called : s.Called (.alter change))
    (exact : s.Exact) : (s.step (.alter change)).1.Exact ↔ s.Follows (.alter change) := by
  obtain ⟨idle, kept, short⟩ := called
  have tidy_after : ∀ i, Tidy i (s.step (.alter change)).1.session := step_tidy tidy ⟨idle, kept, short⟩
  have length : (change.schema s.schema).indexes.length = change.keys.length := length_map _
  have each : ∀ j inside, change.keys[j].index.isFts = true →
      ((s.step (.alter change)).1.session.ExactEitherWay (change.schema s.schema) j change.keys[j].index ↔
        s.session.view.totals j = (change.keys[j].oldNumber.map s.session.view.totals).getD ⟨0, 0⟩) := by
    intro j inside fts
    have at_j : change.keys[j]? = some change.keys[j] := getElem?_eq_getElem inside
    have mem := getElem_mem inside
    have before : ∀ n, change.keys[j].oldNumber = some n → s.session.view.Exact n change.keys[j].index := by
      intro n origin
      obtain ⟨old, same⟩ := kept _ mem n origin
      have old_fts : s.schema.indexes[n].isFts = true := same ▸ fts
      have now := view_exact (tidy n) idle (getElem?_eq_getElem old) old_fts (exact n old old_fts)
      rwa [same] at now
    rw [exactEitherWay_iff (KeyAlter.schema_at at_j) fts (tidy_after j)]
    rw [← KeyAlter.store_exact_iff (T := s.schema) at_j fts (short _ mem) (tidy j).stored before]
    obtain ⟨no_docs, no_words⟩ := (tidy j).settled (by simpa using (Bool.and_eq_true _ _ |>.mp idle).1)
    constructor
    · intro both
      exact both.2
    · intro stored
      refine ⟨(balanced_iff_exact ?_ ?_).mpr stored, stored⟩
      · exact no_docs
      · exact no_words
  constructor
  · intro after j inside fts
    apply (each j inside fts).mp
    have now := after j (length.symm ▸ inside)
    simp only [step, KeyAlter.schema, getElem_map] at now
    exact now fts
  · intro follows j inside
    have keys_inside : j < change.keys.length := length ▸ inside
    simp only [step, KeyAlter.schema, getElem_map]
    intro fts
    exact (each j keys_inside fts).mpr (follows j keys_inside fts)

def fresh (T : Schema) : FtsTable := ⟨T, FtsSession.fresh⟩

/-- Over DML and ALTER TABLE the totals under each FULLTEXT key's number are exact just when DML
counts right and no key comes to a number with other totals. -/
theorem statistics_follow_keys_iff (T : Schema) (events : List FtsTableEvent) (called : Along step Called (fresh T) events) :
    (∀ done, done <+: events → (run step (fresh T) done).Exact) ↔ Along step Follows (fresh T) events := by
  have knows : ∀ s event, (∀ i, Tidy i s.session) → Called s event → ∀ i, Tidy i (step s event).1.session := by
    intro s event tidy called
    exact step_tidy tidy called
  have keeps : ∀ s event, (∀ i, Tidy i s.session) → Called s event → s.Exact → ((step s event).1.Exact ↔ Follows s event) := by
    intro s event tidy called exact
    cases event with
    | dml event => exact dml_keeps tidy called exact
    | alter change => exact alter_keeps tidy called exact
  have start : (fresh T).Exact := by
    intro i inside fts
    have at_i : T.indexes[i]? = some T.indexes[i] := getElem?_eq_getElem inside
    exact (exactEitherWay_iff at_i fts fresh_tidy).mpr ⟨⟨rfl, rfl⟩, rfl⟩
  rw [Base.run_invariant_iff step knows keeps (fun _ => fresh_tidy) called]
  exact and_iff_right start

/- An article is inserted, then a key is added behind the FULLTEXT key. -/
def addBehind : List FtsTableEvent :=
  [.dml (FtsSession.insertCall 1 cat), .dml .commit,
    .alter ⟨[⟨FtsSession.articleBody, some 0⟩, ⟨⟨byteKey 1, .ordinary false⟩, none⟩], fun _ => SortedMap.empty⟩]

theorem addBehind_called : Along step Called (fresh articles) addBehind := by
  refine ⟨by decide, by decide, ⟨by decide, ?_, by decide⟩, trivial⟩
  intro key mem n origin
  simp only [mem_cons, not_mem_nil, or_false] at mem
  rcases mem with rfl | rfl
  · cases origin
    exact ⟨Nat.zero_lt_one, rfl⟩
  · cases origin

theorem statistics_follow_unmoved :
    Along step Called (fresh articles) addBehind ∧ ∀ done, done <+: addBehind → (run step (fresh articles) done).Exact :=
  ⟨addBehind_called,
    (statistics_follow_keys_iff articles addBehind addBehind_called).mpr ⟨by decide, by decide, by decide, trivial⟩⟩

/- An article is inserted, and its FULLTEXT key is dropped and added again. -/
def dropAndAdd : List FtsTableEvent :=
  [.dml (FtsSession.insertCall 1 cat), .dml .commit, .alter ⟨[], fun _ => SortedMap.empty⟩,
    .alter ⟨[⟨FtsSession.articleBody, none⟩], fun _ => SortedMap.empty⟩]

theorem dropAndAdd_called : Along step Called (fresh articles) dropAndAdd := by
  refine ⟨by decide, by decide, ⟨by decide, forall_mem_nil _, forall_mem_nil _⟩, ⟨by decide, ?_, by decide⟩, trivial⟩
  intro key mem n origin
  rw [mem_singleton.mp mem] at origin
  cases origin

/-- One article is counted twice. -/
theorem readded_key_counts_twice : ¬ ∀ (T : Schema) (events : List FtsTableEvent), Along step Called (fresh T) events →
      ∀ done, done <+: events → (run step (fresh T) done).Exact := by
  intro claim
  have exact := claim articles dropAndAdd dropAndAdd_called dropAndAdd (prefix_refl _)
  exact absurd (exact 0 (by decide) rfl).2 (by decide)

end FtsTable

end TidesdbMysql
