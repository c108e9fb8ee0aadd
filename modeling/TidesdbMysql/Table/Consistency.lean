import TidesdbMysql.Base.Run
import TidesdbMysql.Table.Images

/-! Index consistency over whole runs of row functions: every index holds exactly
the entries of the rows. -/
namespace TidesdbMysql

open Base (Bytes SortedMap Derived run Along)
open List Base.SortedMap

variable {ix : Index}

/-- Rows stand under their own keys and index entries are images of rows; `residue` is what the
buffer held when each was built. -/
structure Mirrored (T : Schema) (residue : Nat → Bytes → Residue) (s : Table) : Prop where
  keyed : ∀ pk record, s.rows.Has pk record → KeyOf T pk record
  entries : ∀ i (ix : Index), T.indexes[i]? = some ix →
    Derived (fun pk record => ix.entryKeys (residue i pk) pk record) s.rows (s.index i)

/-- The data column family and the indexes agree, with one posting for each distinct
term of a row. -/
structure Consistent (T : Schema) (residue : Nat → Bytes → Residue) (s : Table) : Prop
    extends Mirrored T residue s where
  single : ∀ i (ix : Index), T.indexes[i]? = some ix → ∀ pk record, s.rows.Has pk record →
    (ix.entryKeys (residue i pk) pk record).Nodup

inductive Dml where
  | write (iters : DupIters) (req : Insert)
  | update (req : Update)
  | delete (req : Delete)

def dmlStep (T : Schema) (s : Table) : Dml → Table × HaCode
  | .write iters req => ((writeRow T s iters req).table, (writeRow T s iters req).code)
  | .update req => ((updateRow T s req).2, (updateRow T s req).1)
  | .delete req => ((deleteRow T s req).2, (deleteRow T s req).1)

/- The server calls `update_row` and `delete_row` on the row it has just read. -/
def Positioned (s : Table) : Dml → Prop
  | .write _ _ => True
  | .update req => s.rows.Has req.current req.old ∧ req.Untouched
  | .delete req => s.rows.Has req.current req.record

instance (s : Table) (call : Dml) : Decidable (Positioned s call) := by
  cases call <;> dsimp only [Positioned] <;> infer_instance

def SettledRow (T : Schema) (record : Record) : Prop :=
  ∀ ix ∈ T.indexes, Settled (ix.storedParts T) record
  deriving Decidable

/-- A new key must be free where no lookup guards it, and a changed primary key needs every
full-text and spatial index to notice. -/
def Traceable (T : Schema) (s : Table) : Dml → Prop
  | .write _ req =>
    req.Served T →
    (s.rows.HasKey (newPk T s req) → req.looksUpPk T = true ∨ T.indexes.isEmpty = true) ∧
    SettledRow T (req.stored T) ∧ ∀ ix ∈ T.indexes, ix.TermsApart (req.stored T) (req.stored T)
  | .update req =>
    (req.current ≠ updatedPk T req →
      ¬ s.rows.HasKey (updatedPk T req) ∧ ∀ ix ∈ T.indexes, ix.Moves req) ∧
    SettledRow T req.old ∧ SettledRow T req.new ∧ ∀ ix ∈ T.indexes, ix.TermsApart req.old req.new
  | .delete req => SettledRow T req.record

instance (T : Schema) (s : Table) (call : Dml) : Decidable (Traceable T s call) := by
  cases call <;> dsimp only [Traceable] <;> infer_instance

theorem entryKeys_nodup {old new : Record} (apart : ix.TermsApart old new) (residue : Residue) (pk : Bytes) :
    (ix.entryKeys residue pk new).Nodup := by
  unfold Index.TermsApart at apart
  unfold Index.entryKeys
  cases kind : ix.kind with
  | ordinary unique => exact nodup_singleton _
  | fulltext tokenize =>
    simp only [kind] at apart
    apply (nodup_dedup _).map_on
    intro t ht u hu same
    exact apart t (mem_append_right _ ht) u (mem_append_right _ hu) (ftsBuildKey_inj same).1
  | spatial mbr => cases found : spatialEntry mbr ix.key new <;> simp [found]

variable {T : Schema} {residue : Nat → Bytes → Residue} {s : Table}

theorem index_after (rowOps : List (CfOp Record)) (f : Nat → Index → List (CfOp Bytes)) {i : Nat}
    (at_i : T.indexes[i]? = some ix) :
    (s.applyAll (rowOps.map TableOp.row ++ indexOps f 0 T.indexes)).index i = applyOps (s.index i) (f i ix) := by
  have rows_only : (s.applyAll (rowOps.map TableOp.row)).index = s.index := by
    induction rowOps generalizing s with
    | nil => rfl
    | cons op rest ih => exact ih
  have own := applyAll_indexOps_index (s.applyAll (rowOps.map TableOp.row)) f 0 at_i
  rw [s.applyAll_append, ← rows_only]
  simpa using own

theorem rows_after (rowOps : List (CfOp Record)) (f : Nat → Index → List (CfOp Bytes)) :
    (s.applyAll (rowOps.map TableOp.row ++ indexOps f 0 T.indexes)).rows = applyOps s.rows rowOps := by
  rw [s.applyAll_append, applyAll_indexOps_rows]
  induction rowOps generalizing s with
  | nil => rfl
  | cons op rest ih => exact ih

theorem deleteRow_rows (req : Delete) : (deleteRow T s req).2.rows = s.rows.erase req.current :=
  rows_after [.delete req.current] (deleteEntries T req)

/- The new row's entries are distinct because its terms are, the others' because they were. -/
theorem Consistent.step {s' : Table} (consistent : Consistent T residue s)
    (keyed : ∀ pk record, s'.rows.Has pk record → ¬ s.rows.Has pk record → KeyOf T pk record)
    (entries : ∀ i (ix : Index), T.indexes[i]? = some ix → Derived (fun pk record => ix.entryKeys (residue i pk) pk record) s'.rows (s'.index i))
    (single : ∀ i (ix : Index), T.indexes[i]? = some ix → ∀ pk record, s'.rows.Has pk record → ¬ s.rows.Has pk record → (ix.entryKeys (residue i pk) pk record).Nodup) :
    Consistent T residue s' where
  keyed pk record has := by
    by_cases before : s.rows.Has pk record
    · exact consistent.keyed pk record before
    · exact keyed pk record has before
  entries := entries
  single i ix at_i pk record has := by
    by_cases before : s.rows.Has pk record
    · exact consistent.single i ix at_i pk record before
    · exact single i ix at_i pk record has before

theorem delete_consistent (consistent : Consistent T residue s) (req : Delete)
    (positioned : Positioned s (.delete req)) (settled : SettledRow T req.record) :
    Consistent T residue (deleteRow T s req).2 := by
  have rows : (deleteRow T s req).2.rows = s.rows.erase req.current :=
    rows_after [.delete req.current] (deleteEntries T req)
  have old : ∀ {pk record}, (deleteRow T s req).2.rows.Has pk record → s.rows.Has pk record := by
    intro pk record has
    rw [rows, has_erase] at has
    exact has.2
  apply consistent.step
  · intro pk record has fresh
    exact absurd (old has) fresh
  · intro i ix at_i
    apply (consistent.entries i ix at_i).remove (entryKeys_names ix (residue i)) positioned
    · intro pk record
      rw [rows, has_erase]
    · intro k
      have after : (deleteRow T s req).2.index i = applyOps (s.index i) (deleteEntries T req i ix) :=
        index_after [.delete req.current] (deleteEntries T req) at_i
      rw [after]
      exact deleteEntries_keys req (settled ix (mem_of_getElem? at_i)) (consistent.keyed _ _ positioned) _ k
  · intro i ix at_i pk record has fresh
    exact absurd (old has) fresh

theorem Consistent.counted (consistent : Consistent T residue s) (counter : Nat) :
    Consistent T residue (s.counted T counter) :=
  ⟨⟨consistent.keyed, consistent.entries⟩, consistent.single⟩

theorem newPk_keyOf (T : Schema) (s : Table) (req : Insert) : KeyOf T (newPk T s req) (req.stored T) where
  user _ user := ⟨req.scratch.pk, by simp only [newPk, user]⟩
  hidden hidden := by simp [newPk, hidden, hiddenPk]

theorem put_consistent (consistent : Consistent T residue s) (req : Insert) {pk : Bytes}
    (free : s.rows.HasKey pk → T.indexes.isEmpty = true) (key_of : KeyOf T pk (req.stored T))
    (settled : SettledRow T (req.stored T)) (apart : ∀ ix ∈ T.indexes, ix.TermsApart (req.stored T) (req.stored T)) :
    Consistent T residue (s.applyAll (writeOps T req pk)) := by
  have rows : (s.applyAll (writeOps T req pk)).rows = s.rows.put pk (req.stored T) :=
    rows_after [.put pk (req.stored T)] (writeEntries T req.scratch pk (req.stored T))
  have only_new : ∀ {x v}, (s.applyAll (writeOps T req pk)).rows.Has x v → ¬ s.rows.Has x v →
      x = pk ∧ v = req.stored T := by
    intro x v has fresh
    rw [rows, has_put] at has
    rcases has with here | ⟨-, before⟩
    · exact here
    · exact absurd before fresh
  apply consistent.step
  · intro x v has fresh
    obtain ⟨rfl, rfl⟩ := only_new has fresh
    exact key_of
  · intro i ix at_i
    have mem := mem_of_getElem? at_i
    have unused : ¬ s.rows.HasKey pk := by
      intro used
      rw [isEmpty_iff.mp (free used)] at mem
      cases mem
    apply (consistent.entries i ix at_i).insert
    · intro x v
      rw [rows, has_put]
      refine or_congr_right (and_iff_right_of_imp fun has => ?_)
      rintro rfl
      exact unused has.hasKey
    · intro k
      have after : (s.applyAll (writeOps T req pk)).index i =
          applyOps (s.index i) (writeEntries T req.scratch pk (req.stored T) i ix) :=
        index_after [.put pk (req.stored T)] (writeEntries T req.scratch pk (req.stored T)) at_i
      rw [after]
      exact writeEntries_keys req.scratch (settled ix mem) key_of _ k
  · intro i ix at_i x v has fresh
    obtain ⟨rfl, rfl⟩ := only_new has fresh
    exact entryKeys_nodup (apart ix (mem_of_getElem? at_i)) _ _

theorem write_consistent (consistent : Consistent T residue s) (iters : DupIters) (req : Insert)
    (traceable : Traceable T s (.write iters req)) : Consistent T residue (writeRow T s iters req).table := by
  rcases writeRow_cases T s iters req with ⟨-, -, same⟩ | ⟨counter, served, result⟩
  · rw [same]
    exact consistent
  · obtain ⟨guarded, settled, apart⟩ := traceable served
    rcases result with ⟨-, -, -, same⟩ | ⟨no_dup, -, -, after⟩
    · rw [same]
      exact consistent.counted counter
    · rw [after]
      refine put_consistent (consistent.counted counter) req ?_ (newPk_keyOf T s req) settled apart
      intro used
      exact (guarded used).resolve_left fun looked => no_dup (Or.inl ⟨looked, used⟩)

theorem updateOps_eq (req : Update) : updateOps T req =
      ((if req.current ≠ updatedPk T req then [CfOp.delete req.current] else []) ++
        [CfOp.put (updatedPk T req) req.new]).map TableOp.row ++
      indexOps (updateEntries T req (updatedPk T req)) 0 T.indexes := by
  unfold updateOps
  split <;> simp

theorem updateRow_has (req : Update) (x : Bytes) (v : Record) :
    (updateRow T s req).2.rows.Has x v ↔ (x = updatedPk T req ∧ v = req.new) ∨
      (x ≠ updatedPk T req ∧ x ≠ req.current ∧ s.rows.Has x v) := by
  simp only [updateRow, updateOps_eq, rows_after]
  split
  · simp [applyOps, CfOp.apply]
  · next same =>
    rw [not_not] at same
    simp only [nil_append, applyOps, foldl_cons, foldl_nil, CfOp.apply, has_put, same]
    tauto

theorem updateRow_index (req : Update) {i : Nat} (at_i : T.indexes[i]? = some ix) :
    (updateRow T s req).2.index i = applyOps (s.index i) (updateEntries T req (updatedPk T req) i ix) := by
  simp only [updateRow, updateOps_eq]
  exact index_after _ _ at_i

theorem updatedPk_keyOf {req : Update} (before : KeyOf T req.current req.old) (untouched : req.Untouched) :
    KeyOf T (updatedPk T req) req.new := by
  constructor
  · intro key user
    simp only [updatedPk, user]
    cases touched : key.touched req.writeSet with
    | true => exact ⟨req.scratch.pk, rfl⟩
    | false =>
      obtain ⟨r, built⟩ := before.user key user
      exact ⟨r, (makeComparableKey_congr r (untouched.parts_eq touched)).trans built⟩
  · intro hidden
    simp only [updatedPk, hidden]
    exact before.hidden hidden

theorem update_consistent (consistent : Consistent T residue s) (req : Update)
    (positioned : Positioned s (.update req)) (traceable : Traceable T s (.update req)) :
    Consistent T residue (updateRow T s req).2 := by
  obtain ⟨moved, settled_old, settled_new, apart⟩ := traceable
  have key_of := updatedPk_keyOf (consistent.keyed _ _ positioned.1) positioned.2
  have only_new : ∀ {x v}, (updateRow T s req).2.rows.Has x v → ¬ s.rows.Has x v →
      x = updatedPk T req ∧ v = req.new := by
    intro x v has fresh
    rcases (updateRow_has req x v).mp has with here | ⟨-, -, before⟩
    · exact here
    · exact absurd before fresh
  apply consistent.step
  · intro x v has fresh
    obtain ⟨rfl, rfl⟩ := only_new has fresh
    exact key_of
  · intro i ix at_i
    have mem := mem_of_getElem? at_i
    have free : req.current = updatedPk T req ∨ ¬ s.rows.HasKey (updatedPk T req) := by
      by_cases same : req.current = updatedPk T req
      · exact Or.inl same
      · exact Or.inr (moved same).1
    apply (consistent.entries i ix at_i).replace (entryKeys_names ix (residue i)) positioned.1 (updateRow_has req) free
    intro k
    rw [updateRow_index req at_i]
    exact updateEntries_keys positioned.2 (settled_old ix mem) (settled_new ix mem)
      key_of (fun changed => (moved changed).2 ix mem)
      (apart ix mem) _ _ (fun k here => (consistent.entries i ix at_i).of_row positioned.1 here) k
  · intro i ix at_i x v has fresh
    obtain ⟨rfl, rfl⟩ := only_new has fresh
    exact entryKeys_nodup (apart ix (mem_of_getElem? at_i)) _ _

theorem dmlStep_consistent (call : Dml) (consistent : Consistent T residue s)
    (ok : Positioned s call ∧ Traceable T s call) : Consistent T residue (dmlStep T s call).1 := by
  cases call with
  | write iters req => exact write_consistent consistent iters req ok.2
  | update req => exact update_consistent consistent req ok.1 ok.2
  | delete req => exact delete_consistent consistent req ok.1 ok.2

/-- In every run of row functions whose calls meet the condition, the indexes are
exact in each state reached. -/
theorem indexes_exact_along (T : Schema) (residue : Nat → Bytes → Residue) (s : Table)
    (calls : List Dml) (consistent : Consistent T residue s)
    (along : Along (dmlStep T) (fun s call => Positioned s call ∧ Traceable T s call) s calls)
    (done : List Dml) (reached : done <+: calls) : Consistent T residue (run (dmlStep T) s done) := by
  obtain ⟨rest, rfl⟩ := reached
  rw [Base.along_append] at along
  exact Base.run_invariant (dmlStep T) (Consistent T residue)
    (fun _ call holds ok => dmlStep_consistent call holds ok) consistent along.1

def Table.empty : Table := ⟨SortedMap.empty, fun _ => SortedMap.empty, 1, 0⟩

theorem empty_consistent (T : Schema) (residue : Nat → Bytes → Residue) : Consistent T residue Table.empty where
  keyed pk record has := absurd has (has_empty pk record)
  entries i ix _ k := by simp [hasKey_iff, Table.empty]
  single i ix _ pk record has := absurd has (has_empty pk record)

def bytePart (field : Nat) : KeyPart := ⟨field, false, 1, .sortable id id, by decide, by decide⟩

def byteKey (field : Nat) : Key := ⟨[bytePart field], List.cons_ne_nil _ _⟩

/- `id TINYINT UNSIGNED PRIMARY KEY`, `body` with a FULLTEXT key; the bodies below are
single words. -/
def articles : Schema where
  pk := some (byteKey 0)
  indexes := [⟨byteKey 1, .fulltext fun doc => if doc = [] then [] else [doc]⟩]
  nextNumberField := none

def zeroed : Scratch := ⟨fun _ => 0, fun _ _ => 0, fun _ _ => 0, fun _ _ => 0, fun _ _ => 0⟩

def insertOf (record : Record) : Insert := ⟨record, true, .ok none, false, false, 0, 0, zeroed⟩

def cat : Bytes := [99, 97, 116]

/- INSERT (1, 'cat'), then UPDATE to (2, 'cat') with the given columns in the SET list. -/
def articleRun (writeSet : List Nat) : List Dml :=
  [.write (fun _ => none) (insertOf [some [1], some cat]),
    .update ⟨[1], [some [1], some cat], [some [2], some cat], writeSet, zeroed⟩]

theorem indexes_exact_along_rewritten :
    Consistent articles (fun _ _ _ => 0) (run (dmlStep articles) Table.empty (articleRun [0, 1])) :=
  indexes_exact_along articles _ Table.empty (articleRun [0, 1]) (empty_consistent _ _)
    (by decide) (articleRun [0, 1]) (prefix_refl _)

/-- An update of the primary key alone leaves the postings under the old key, though both calls
succeed. -/
theorem posting_left_behind : ¬ ∀ (T : Schema) (s : Table) (calls : List Dml), (∃ residue, Consistent T residue s) →
      Along (dmlStep T) Positioned s calls → (∀ code ∈ Base.results (dmlStep T) s calls, code = .ok) →
      ∃ residue, Consistent T residue (run (dmlStep T) s calls) := by
  intro claim
  obtain ⟨residue, consistent⟩ := claim articles Table.empty (articleRun [0])
    ⟨fun _ _ _ => 0, empty_consistent _ _⟩ (by decide) (by decide)
  have row : (run (dmlStep articles) Table.empty (articleRun [0])).rows.Has [2] [some [2], some cat] := by
    decide
  have posting := (consistent.entries 0 _ rfl).of_row row (mem_cons_self)
  exact absurd posting (by decide)

end TidesdbMysql
