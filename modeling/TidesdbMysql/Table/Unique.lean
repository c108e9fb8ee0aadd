import TidesdbMysql.Table.Consistency

/-! Uniqueness of primary and UNIQUE keys: what `write_row` checks, and what
`update_row` does not. -/
namespace TidesdbMysql

open Base (Bytes SortedMap Starts run)
open Base.SortedMap

variable {parts : List KeyPart} {req : Update} {T : Schema}

def NoNull (parts : List KeyPart) (record : Record) : Prop :=
  ∀ kp ∈ parts, column record kp.field ≠ none
  deriving Decidable

/-- Two records that may not stand in one table: same primary key, or same values in a
UNIQUE key without a NULL. -/
def Clash (T : Schema) (a b : Record) : Prop :=
  (∃ key ∈ T.pk, SameKey key.parts a b) ∨
    ∃ ix ∈ T.indexes, ix.isUnique = true ∧ NoNull ix.key.parts a ∧ SameKey ix.key.parts a b
  deriving Decidable

theorem SameKey.symm {a b : Record} (same : SameKey parts a b) : SameKey parts b a :=
  fun kp mem => (same kp mem).symm

theorem NoNull.of_same {a b : Record} (full : NoNull parts a) (same : SameKey parts a b) : NoNull parts b := by
  intro kp mem missing
  have agree := same kp mem
  rw [KeyPart.Same, missing, Option.map_none, Option.map_eq_none_iff] at agree
  exact full kp mem agree

theorem Clash.symm {a b : Record} (clash : Clash T a b) : Clash T b a := by
  rcases clash with ⟨key, user, same⟩ | ⟨ix, mem, unique, full, same⟩
  · exact Or.inl ⟨key, user, same.symm⟩
  · exact Or.inr ⟨ix, mem, unique, full.of_same same, same.symm⟩

def KeysDistinct (T : Schema) (s : Table) : Prop :=
  ∀ e ∈ s.rows.entries, ∀ e' ∈ s.rows.entries, e.1 ≠ e'.1 → ¬ Clash T e.2 e'.2
  deriving Decidable

section Update

variable {T : Schema} {s : Table}

/-- An update is refused, or keys stay distinct and no row but its own is lost, added or changed. -/
def UpdateKeepsKeys (T : Schema) (s : Table) (req : Update) : Prop :=
  ((updateRow T s req).1 = .foundDuppKey ∧ (updateRow T s req).2 = s) ∨
    (KeysDistinct T (updateRow T s req).2 ∧ (updateRow T s req).2.rows.size = s.rows.size ∧
      ∀ pk record, pk ≠ req.current → s.rows.Has pk record → (updateRow T s req).2.rows.Has pk record)

/-- The new version's key bytes are free, and no row agrees with it on the primary key or a UNIQUE
key. -/
def Unopposed (T : Schema) (s : Table) (req : Update) : Prop :=
  (req.current ≠ updatedPk T req → ¬ s.rows.HasKey (updatedPk T req)) ∧
    ∀ e ∈ s.rows.entries, e.1 ≠ req.current → ¬ Clash T req.new e.2
  deriving Decidable

theorem updateRow_rows (req : Update) : (updateRow T s req).2.rows =
      if req.current ≠ updatedPk T req then (s.rows.erase req.current).put (updatedPk T req) req.new
      else s.rows.put (updatedPk T req) req.new := by
  simp only [updateRow, updateOps_eq, rows_after]
  split <;> rfl

theorem updateRow_size (req : Update) (used : s.rows.HasKey req.current) :
    (updateRow T s req).2.rows.size = s.rows.size ↔
      (req.current ≠ updatedPk T req → ¬ s.rows.HasKey (updatedPk T req)) := by
  have removed := size_erase_of_has used
  rw [updateRow_rows]
  by_cases same : req.current = updatedPk T req
  · rw [← same]
    simp only [ne_eq, not_true_eq_false, if_false, size_put, removed, false_imp_iff]
  · simp only [ne_eq, same, not_false_eq_true, if_true, size_put, true_imp_iff]
    by_cases taken : s.rows.HasKey (updatedPk T req)
    · have still : (s.rows.erase req.current).HasKey (updatedPk T req) :=
        hasKey_erase.mpr ⟨fun here => same here.symm, taken⟩
      have lost := size_erase_of_has still
      simp only [taken, not_true_eq_false, iff_false]
      omega
    · have still : ¬ (s.rows.erase req.current).HasKey (updatedPk T req) := by
        intro here
        exact taken (hasKey_erase.mp here).2
      rw [size_erase_of_not still]
      simp only [taken, not_false_eq_true, iff_true]
      exact removed

theorem updateRow_mem (req : Update) (e : Bytes × Record) :
    e ∈ (updateRow T s req).2.rows.entries ↔ e = (updatedPk T req, req.new) ∨
      (e.1 ≠ updatedPk T req ∧ e.1 ≠ req.current ∧ e ∈ s.rows.entries) := by
  obtain ⟨pk, record⟩ := e
  rw [Prod.mk.injEq]
  exact updateRow_has req pk record

theorem Unopposed.keysDistinct (unopposed : Unopposed T s req) (distinct : KeysDistinct T s) :
    KeysDistinct T (updateRow T s req).2 := by
  intro a ha b hb apart
  rw [updateRow_mem] at ha hb
  rcases ha with rfl | ⟨-, other_a, mem_a⟩ <;> rcases hb with rfl | ⟨-, other_b, mem_b⟩
  · exact absurd rfl apart
  · exact unopposed.2 b mem_b other_b
  · exact fun clash => unopposed.2 a mem_a other_a clash.symm
  · exact distinct a mem_a b mem_b apart

theorem Unopposed.others_kept (unopposed : Unopposed T s req) {pk : Bytes} {record : Record} (other : pk ≠ req.current)
    (has : s.rows.Has pk record) : (updateRow T s req).2.rows.Has pk record := by
  refine (updateRow_has req pk record).mpr (Or.inr ⟨?_, other, has⟩)
  rintro rfl
  exact unopposed.1 (Ne.symm other) has.hasKey

/-- `update_row` keeps keys unique exactly when the new version meets no other row:
nothing in it looks for a duplicate. -/
theorem update_keeps_keys_iff (T : Schema) (s : Table) (req : Update) (distinct : KeysDistinct T s)
    (positioned : s.rows.Has req.current req.old) : UpdateKeepsKeys T s req ↔ Unopposed T s req := by
  constructor
  · rintro (⟨refused, -⟩ | ⟨distinct', size, kept⟩)
    · exact absurd refused (by simp [updateRow])
    · have free := (updateRow_size req positioned.hasKey).mp size
      refine ⟨free, ?_⟩
      intro e mem other
      have apart : e.1 ≠ updatedPk T req := by
        intro here
        exact free (here ▸ Ne.symm other) (here ▸ ⟨e, mem, rfl⟩)
      have new_row : (updatedPk T req, req.new) ∈ (updateRow T s req).2.rows.entries :=
        (updateRow_mem req _).mpr (Or.inl rfl)
      exact distinct' _ new_row e (kept e.1 e.2 other mem) (Ne.symm apart)
  · intro unopposed
    exact Or.inr ⟨unopposed.keysDistinct distinct, (updateRow_size req positioned.hasKey).mpr unopposed.1,
      fun _ _ other has => unopposed.others_kept other has⟩

end Update

/- `id TINYINT UNSIGNED PRIMARY KEY` and nothing else. -/
def ids : Schema := ⟨some (byteKey 0), [], none⟩

/- `id TINYINT UNSIGNED PRIMARY KEY, u TINYINT UNSIGNED UNIQUE`. -/
def uniqueIds : Schema := ⟨some (byteKey 0), [⟨byteKey 1, .ordinary true⟩], none⟩

def twoRows : Table :=
  run (dmlStep ids) Table.empty
    [.write (fun _ => none) (insertOf [some [1]]), .write (fun _ => none) (insertOf [some [2]])]

def setId (id : UInt8) : Update := ⟨[1], [some [1]], [some [id]], [0], zeroed⟩

theorem update_keeps_keys_moved : UpdateKeepsKeys ids twoRows (setId 3) :=
  (update_keeps_keys_iff ids twoRows (setId 3) (by decide) (by decide)).mpr (by decide)

/-- `UPDATE t SET id = 2 WHERE id = 1` answers success and row 2 is gone. -/
theorem update_swallows_row : ¬ ∀ (T : Schema) (s : Table) (req : Update), KeysDistinct T s →
      s.rows.Has req.current req.old → req.Untouched → UpdateKeepsKeys T s req := by
  intro claim
  have holds := claim ids twoRows (setId 2) (by decide) (by decide) (by decide)
  rcases holds with ⟨refused, -⟩ | ⟨-, size, -⟩
  · exact absurd refused (by decide)
  · exact absurd size (by decide)

section Insert

def Opposed (T : Schema) (s : Table) (req : Insert) : Prop :=
  ∃ e ∈ s.rows.entries, Clash T (req.stored T) e.2
  deriving Decidable

/-- An insert reports a duplicate exactly when a row clashes; then it writes nothing, else it puts
no row over another. -/
structure InsertExact (T : Schema) (s : Table) (iters : DupIters) (req : Insert) : Prop where
  verdict : (writeRow T s iters req).code = .foundDuppKey ↔ Opposed T s req
  silent : (writeRow T s iters req).code = .foundDuppKey → (writeRow T s iters req).ops = []
  fresh : (writeRow T s iters req).code ≠ .foundDuppKey → ∀ pk row,
    TableOp.row (.put pk row) ∈ (writeRow T s iters req).ops → ¬ s.rows.HasKey pk

/-- The byte comparisons answer as the values do: a key in use is looked up or a probe stops the
insert, equal bytes belong to a clash, and every clash has them. -/
structure ChecksSuffice (T : Schema) (s : Table) (iters : DupIters) (req : Insert) : Prop where
  guarded : s.rows.HasKey (newPk T s req) →
    (T.pk.isSome = true ∧ req.takenForGenerated T = false) ∨ UniqueHit T s iters req 0 T.indexes
  genuine : PkHit T s req ∨ UniqueHit T s iters req 0 T.indexes → Opposed T s req
  complete : Opposed T s req → PkHit T s req ∨ UniqueHit T s iters req 0 T.indexes

theorem row_not_in_indexOps (op : CfOp Record) (f : Nat → Index → List (CfOp Bytes)) (i : Nat)
    (ixs : List Index) : TableOp.row op ∉ indexOps f i ixs := by
  induction ixs generalizing i with
  | nil => simp [indexOps]
  | cons ix rest ih =>
    rw [indexOps, List.mem_append]
    rintro (here | later)
    · simp at here
    · exact ih (i + 1) later

theorem row_in_writeOps {req : Insert} {pk pk' : Bytes} {row : Record} :
    TableOp.row (.put pk' row) ∈ writeOps T req pk ↔ pk' = pk ∧ row = req.stored T := by
  rw [writeOps, List.mem_cons, or_iff_left (row_not_in_indexOps _ _ _ _)]
  simp

variable {T : Schema} {s : Table} {iters : DupIters} {req : Insert}

theorem looksUpPk_iff (checks_on : req.skipUniqueCheck = false) (no_replace : req.writeCanReplace = false) :
    req.looksUpPk T = true ↔ T.pk.isSome = true ∧ req.takenForGenerated T = false := by
  simp [Insert.looksUpPk, checks_on, no_replace]

theorem insert_outcome (iters : DupIters) (served : req.Served T) (checks_on : req.skipUniqueCheck = false) :
    ((PkHit T s req ∨ UniqueHit T s iters req 0 T.indexes) ∧
      (writeRow T s iters req).code = .foundDuppKey ∧ (writeRow T s iters req).ops = []) ∨
    (¬ (PkHit T s req ∨ UniqueHit T s iters req 0 T.indexes) ∧ (writeRow T s iters req).code = .ok ∧
      (writeRow T s iters req).ops = writeOps T req (newPk T s req)) := by
  rcases writeRow_cases T s iters req with ⟨failed, -⟩ | ⟨counter, -, result⟩
  · exact absurd served failed
  · simp only [Hit, checks_on, true_and] at result
    rcases result with ⟨hit, dup, nothing, -⟩ | ⟨miss, ok, ops, -⟩
    · exact Or.inl ⟨hit, dup, nothing⟩
    · exact Or.inr ⟨miss, ok, ops⟩

variable {residue : Nat → Bytes → Residue}

/- `id TINYINT UNSIGNED PRIMARY KEY, n TINYINT UNSIGNED AUTO_INCREMENT, KEY (n)`. -/
def numbered : Schema where
  pk := some (byteKey 0)
  indexes := [⟨byteKey 1, .ordinary false⟩]
  nextNumberField := some ⟨1, fun value => ((value.getD []).headD 0).toNat⟩

/- INSERT (1, NULL), with the value the server generates for `n`. -/
def insertNumbered (n : UInt8) : Insert :=
  ⟨[some [1], some [0]], true, .ok (some [n]), false, false, 0, 0, zeroed⟩

end Insert

end TidesdbMysql
