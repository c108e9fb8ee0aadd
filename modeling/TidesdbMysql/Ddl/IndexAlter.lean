import Mathlib.Data.List.Nodup
import TidesdbMysql.Ddl.Create
import TidesdbMysql.Row.Alter

/-! An ALTER that adds, drops and renames indexes: the classifier, the three phases, and
what the names of the new definition find. -/
namespace TidesdbMysql
open Base List Option Base.SortedMap

variable {old : KeyDef} {primaryKey : Option Nat} {flags : List AlterFlag}

/-- A key of a table definition. The `id` tells an index from every other one, whatever it
is called. -/
structure KeyDef where
  name : Name
  nosame : Bool
  id : Nat
  deriving DecidableEq

structure IndexedTable where
  cfName : Name
  keys : List KeyDef
  primaryKey : Option Nat
  idxCfNames : List Name
  families : Families (Option Nat)

/-- The altered definition: numbers of added keys in the new one, of dropped keys in the old one. -/
structure IndexAlter (Ty : Type) where
  keys : List KeyDef
  primaryKey : Option Nat
  indexAddBuffer : List Nat
  indexDropBuffer : List Nat
  flags : List AlterFlag
  legacyAttribute : Bool
  columns : RowSchema Ty
  alteredColumns : RowSchema Ty

variable {Ty : Type}

/-- `add_cf_names` with the keys of `add_key_nums`, and `drop_cf_names`. -/
structure InplaceCtx where
  adds : List (Name × KeyDef)
  dropCfNames : List Name

def IndexAlter.addedKey (a : IndexAlter Ty) (keyNum : Nat) : Option KeyDef :=
  match a.keys[keyNum]? with
  | none => none
  | some key => if key.nosame && a.primaryKey = some keyNum then none else some key

/-- The first loop of `prepare_inplace_alter_table`: a family in the way of an added index is
dropped. The flag says that a create failed. -/
def prepareAdds (answer : Name → Rc) (cfName : Name) (a : IndexAlter Ty) :
    List Nat → Families (Option Nat) → List (Name × KeyDef) → Families (Option Nat) × List (Name × KeyDef) × Bool
  | [], fs, adds => (fs, adds, false)
  | keyNum :: rest, fs, adds =>
    match a.addedKey keyNum with
    | none => prepareAdds answer cfName a rest fs adds
    | some key =>
      let idxCf := idxCfName cfName key.name
      if answer idxCf = .success then
        prepareAdds answer cfName a rest ((fs.erase idxCf).put idxCf none) (adds ++ [(idxCf, key)])
      else (fs.erase idxCf, adds, true)

def dropNames (t : IndexedTable) (a : IndexAlter Ty) : List Name :=
  a.indexDropBuffer.filterMap fun j => (t.idxCfNames[j]?).filter (· ≠ [])

def prepareInplaceAlterTable (answer : Name → Rc) (staged : Bool) (t : IndexedTable) (a : IndexAlter Ty) :
    Families (Option Nat) × InplaceCtx × Bool :=
  match prepareAdds answer t.cfName a a.indexAddBuffer t.families [] with
  | (fs, adds, true) => (fs, ⟨adds, []⟩, true)
  | (fs, adds, false) => (fs, ⟨adds, dropNames t a⟩, !staged)

def fillAdded (fs : Families (Option Nat)) (ctx : InplaceCtx) : Families (Option Nat) :=
  fs.putAll (ctx.adds.map fun add => (add.1, some add.2.id))

/- `share->idx_cf_names`, as `open` and the commit of an ALTER resolve them. -/
def resolveIdxNames (cfName : Name) (keys : List KeyDef) (primaryKey : Option Nat) : List Name :=
  keys.zipIdx.map fun key => if primaryKey = some key.2 then [] else idxCfName cfName key.1.name

def commitInplaceAlterTable (t : IndexedTable) (a : IndexAlter Ty) (fs : Families (Option Nat)) (ctx : InplaceCtx) :
    Bool → IndexedTable
  | false => { t with families := fs.eraseAll (ctx.adds.map (·.1)) }
  | true =>
    { t with
      families := fs.eraseAll ctx.dropCfNames
      keys := a.keys
      primaryKey := a.primaryKey
      idxCfNames := resolveIdxNames t.cfName a.keys a.primaryKey }

inductive AlterOutcome where
  | refused | rolledBack | committed
  deriving DecidableEq

/-- What the engine and the data dictionary answer along an ALTER. -/
structure AlterAnswers where
  create : Name → Rc
  staged : Bool
  built : Bool

def alterIndexes (t : IndexedTable) (e : IndexAlter Ty × AlterAnswers) : IndexedTable × AlterOutcome :=
  let (a, ans) := e
  if (checkIfSupportedInplaceAlter a.legacyAttribute a.columns a.alteredColumns a.flags).accepted = false then
    (t, .refused)
  else
    match prepareInplaceAlterTable ans.create ans.staged t a with
    | (fs, ctx, true) => (commitInplaceAlterTable t a fs ctx false, .rolledBack)
    | (fs, ctx, false) =>
      if ans.built then (commitInplaceAlterTable t a (fillAdded fs ctx) ctx true, .committed)
      else (commitInplaceAlterTable t a fs ctx false, .rolledBack)

def IndexedTable.Bound (t : IndexedTable) : Prop :=
  ∀ i key, t.keys[i]? = some key → t.primaryKey ≠ some i →
    t.families.Has (idxCfName t.cfName key.name) (some key.id)

/-- A table as `open` leaves it; no two families hold the entries of one index. -/
structure IndexedTable.Opened (t : IndexedTable) : Prop where
  resolved : t.idxCfNames = resolveIdxNames t.cfName t.keys t.primaryKey
  names : (t.keys.map KeyDef.name).Nodup
  ids : (t.keys.map KeyDef.id).Nodup
  single : ∀ n n' id, t.families.Has n (some id) → t.families.Has n' (some id) → n = n'
  bound : t.Bound

def keyId (keys : List KeyDef) (primaryKey : Option Nat) : Option Nat :=
  (primaryKey.bind (keys[·]?)).map KeyDef.id

/-- The server's part: an added key is new, any other is an old one not dropped, a changed primary
key shows in the flags. -/
structure Describes (t : IndexedTable) (a : IndexAlter Ty) : Prop where
  buffer : a.indexAddBuffer.Nodup
  names : (a.keys.map KeyDef.name).Nodup
  ids : (a.keys.map KeyDef.id).Nodup
  adds : ∀ k ∈ a.indexAddBuffer, ∀ key, a.keys[k]? = some key →
    (∀ old ∈ t.keys, old.id ≠ key.id) ∧ ∀ n, ¬ t.families.Has n (some key.id)
  keeps : ∀ k key, a.keys[k]? = some key → k ∉ a.indexAddBuffer →
    ∃ j old, t.keys[j]? = some old ∧ old.id = key.id ∧ j ∉ a.indexDropBuffer
  primary : keyId t.keys t.primaryKey ≠ keyId a.keys a.primaryKey →
    AlterFlag.addPkIndex ∈ a.flags ∨ AlterFlag.dropPkIndex ∈ a.flags

/-- No secondary index changes its name, and none is added under the name of one that is
dropped. -/
def KeepsNames (t : IndexedTable) (a : IndexAlter Ty) : Prop :=
  (∀ k key, a.keys[k]? = some key → a.primaryKey ≠ some k → ∀ old ∈ t.keys, old.id = key.id → old.name = key.name) ∧
  ∀ k ∈ a.indexAddBuffer, ∀ j ∈ a.indexDropBuffer, ∀ key ∈ a.keys[k]?, ∀ old ∈ t.keys[j]?, old.name ≠ key.name

variable {keys : List KeyDef} {key : KeyDef} {a : IndexAlter Ty} {buffer : List Nat}

theorem key_of_name (names : (keys.map KeyDef.name).Nodup) {a b : KeyDef} (ha : a ∈ keys)
    (hb : b ∈ keys) (same : a.name = b.name) : a = b :=
  inj_on_of_nodup_map names ha hb same

theorem key_of_id (ids : (keys.map KeyDef.id).Nodup) {a b : KeyDef} (ha : a ∈ keys)
    (hb : b ∈ keys) (same : a.id = b.id) : a = b :=
  inj_on_of_nodup_map ids ha hb same

theorem number_of_key (names : (keys.map KeyDef.name).Nodup) {i j : Nat}
    (hi : keys[i]? = some key) (hj : keys[j]? = some key) : i = j := by
  have within : i < keys.length := (List.getElem?_eq_some_iff.mp hi).1
  exact (getElem?_inj within (List.Nodup.of_map _ names)).mp (hi.trans hj.symm)

theorem idxCfName_injective {cfName a b : Name} (same : idxCfName cfName a = idxCfName cfName b) : a = b :=
  append_cancel_left same

theorem idxCfName_ne_nil (cfName key : Name) : idxCfName cfName key ≠ [] := by
  simp [idxCfName, cfIndexInfix]

/- The added keys and their families. -/

def IndexAlter.addedKeys (a : IndexAlter Ty) (buffer : List Nat) : List KeyDef := buffer.filterMap a.addedKey

theorem addedKey_eq_some {k : Nat} :
    a.addedKey k = some key ↔ a.keys[k]? = some key ∧ ¬ (key.nosame = true ∧ a.primaryKey = some k) := by
  unfold IndexAlter.addedKey
  cases a.keys[k]? with
  | none => simp
  | some found =>
    dsimp only
    split
    · rename_i primary
      simp only [Bool.and_eq_true, decide_eq_true_eq] at primary
      simp only [reduceCtorEq, some.injEq, false_iff]
      rintro ⟨rfl, secondary⟩
      exact secondary primary
    · rename_i secondary
      simp only [Bool.and_eq_true, decide_eq_true_eq] at secondary
      simp only [some.injEq]
      constructor
      · rintro rfl
        exact ⟨rfl, secondary⟩
      · exact And.left

theorem mem_addedKeys : key ∈ a.addedKeys buffer ↔
      ∃ k ∈ buffer, a.keys[k]? = some key ∧ ¬ (key.nosame = true ∧ a.primaryKey = some k) := by
  simp only [IndexAlter.addedKeys, mem_filterMap, addedKey_eq_some]

theorem addedKeys_names (names : (a.keys.map KeyDef.name).Nodup) (distinct : buffer.Nodup) (cfName : Name) :
    ((a.addedKeys buffer).map fun key => idxCfName cfName key.name).Nodup := by
  have keys : (a.addedKeys buffer).Nodup := by
    refine List.Nodup.filterMap (fun k k' key first second => ?_) distinct
    exact number_of_key names (addedKey_eq_some.mp first).1 (addedKey_eq_some.mp second).1
  refine List.Nodup.map_on (fun key mem key' member' same => ?_) keys
  obtain ⟨k, -, listed, -⟩ := mem_addedKeys.mp mem
  obtain ⟨k', -, listed', -⟩ := mem_addedKeys.mp member'
  exact key_of_name names (mem_of_getElem? listed) (mem_of_getElem? listed') (idxCfName_injective same)

theorem prepareAdds_spec {answer : Name → Rc} {cfName : Name}
    {fs fs' : Families (Option Nat)} {adds adds' : List (Name × KeyDef)}
    (done : prepareAdds answer cfName a buffer fs adds = (fs', adds', false)) :
    adds' = adds ++ (a.addedKeys buffer).map (fun key => (idxCfName cfName key.name, key)) ∧
    ∀ n v, n ∉ (a.addedKeys buffer).map (fun key => idxCfName cfName key.name) → (fs'.Has n v ↔ fs.Has n v) := by
  induction buffer generalizing fs adds with
  | nil =>
    simp only [prepareAdds, Prod.mk.injEq] at done
    obtain ⟨rfl, rfl, -⟩ := done
    exact ⟨by simp [IndexAlter.addedKeys], fun _ _ _ => Iff.rfl⟩
  | cons k rest ih =>
    rw [prepareAdds] at done
    cases added : a.addedKey k with
    | none =>
      rw [added] at done
      have keys : a.addedKeys (k :: rest) = a.addedKeys rest := by simp [IndexAlter.addedKeys, added]
      rw [keys]
      exact ih done
    | some key =>
      rw [added] at done
      dsimp only at done
      have keys : a.addedKeys (k :: rest) = key :: a.addedKeys rest := by simp [IndexAlter.addedKeys, added]
      by_cases made : answer (idxCfName cfName key.name) = .success
      · rw [if_pos made] at done
        obtain ⟨listed, others⟩ := ih done
        rw [keys, map_cons, map_cons]
        refine ⟨by rw [listed, append_assoc]; rfl, fun n v unlisted => ?_⟩
        rw [mem_cons, not_or] at unlisted
        rw [others n v unlisted.2, has_put, has_erase]
        simp [unlisted.1]
      · simp [made] at done

/-- A committed ALTER: dropped names are gone, added keys are filled, the rest is as before. -/
structure Committed (t : IndexedTable) (a : IndexAlter Ty) (t' : IndexedTable) : Prop where
  accepted : (checkIfSupportedInplaceAlter a.legacyAttribute a.columns a.alteredColumns a.flags).accepted = true
  cfName : t'.cfName = t.cfName
  keys : t'.keys = a.keys
  primaryKey : t'.primaryKey = a.primaryKey
  resolved : t'.idxCfNames = resolveIdxNames t.cfName a.keys a.primaryKey
  families : ∀ n v, t'.families.Has n v ↔ n ∉ dropNames t a ∧
    ((∃ key ∈ a.addedKeys a.indexAddBuffer, idxCfName t.cfName key.name = n ∧ some key.id = v) ∨
      (∀ key ∈ a.addedKeys a.indexAddBuffer, idxCfName t.cfName key.name ≠ n) ∧ t.families.Has n v)

theorem alterIndexes_committed {t t' : IndexedTable} {ans : AlterAnswers}
    (describes : Describes t a) (done : alterIndexes t (a, ans) = (t', .committed)) : Committed t a t' := by
  unfold alterIndexes at done
  dsimp only at done
  split at done
  · cases done
  · rename_i accepted
    rw [Bool.not_eq_false] at accepted
    unfold prepareInplaceAlterTable at done
    rcases prepared : prepareAdds ans.create t.cfName a a.indexAddBuffer t.families [] with ⟨fs, adds, failed⟩
    rw [prepared] at done
    cases failed with
    | true => cases done
    | false =>
      obtain ⟨listed, others⟩ := prepareAdds_spec prepared
      rw [nil_append] at listed
      subst listed
      cases staged : ans.staged with
      | false =>
        rw [staged] at done
        cases done
      | true =>
        rw [staged] at done
        simp only [Bool.not_true] at done
        by_cases built : ans.built = true
        · rw [if_pos built] at done
          cases done
          refine ⟨accepted, rfl, rfl, rfl, rfl, fun n v => ?_⟩
          have names := addedKeys_names describes.names describes.buffer t.cfName
          have distinct : (((a.addedKeys a.indexAddBuffer).map fun key =>
              (idxCfName t.cfName key.name, some key.id)).map (·.1)).Nodup := by
            rw [List.map_map]
            exact names
          dsimp only [commitInplaceAlterTable, fillAdded]
          rw [SortedMap.has_eraseAll, List.map_map]
          refine and_congr_right fun _ => (has_putAll distinct).trans ?_
          rw [List.map_map]
          have unlisted : n ∉ (a.addedKeys a.indexAddBuffer).map (fun key => idxCfName t.cfName key.name) ↔
              ∀ key ∈ a.addedKeys a.indexAddBuffer, idxCfName t.cfName key.name ≠ n := by
            simp only [List.mem_map, not_exists, not_and, ne_eq]
          refine or_congr (by simp only [List.mem_map, Prod.mk.injEq]) ⟨?_, ?_⟩
          · rintro ⟨apart, has⟩
            exact ⟨unlisted.mp apart, (others n v apart).mp has⟩
          · rintro ⟨apart, has⟩
            exact ⟨unlisted.mpr apart, (others n v (unlisted.mpr apart)).mpr has⟩
        · rw [if_neg built] at done
          cases done

theorem accepted_flags {legacyAttribute : Bool} {columns altered : RowSchema Ty}
    (accepted : (checkIfSupportedInplaceAlter legacyAttribute columns altered flags).accepted = true) :
    ∀ flag ∈ flags, flag ∈ tidesdbInstant ++ tidesdbInplaceIndex := by
  intro flag listed
  unfold checkIfSupportedInplaceAlter at accepted
  split at accepted
  · cases accepted
  · split at accepted
    · rename_i instant
      exact mem_append_left _ (of_decide_eq_true (all_eq_true.mp instant flag listed))
    · split at accepted
      · rename_i inplace
        exact of_decide_eq_true (all_eq_true.mp inplace flag listed)
      · cases accepted

section
variable {t : IndexedTable} {a : IndexAlter Ty} (opened : t.Opened) (describes : Describes t a)
  (accepted : (checkIfSupportedInplaceAlter a.legacyAttribute a.columns a.alteredColumns a.flags).accepted = true)

include describes accepted in
theorem primary_kept : keyId t.keys t.primaryKey = keyId a.keys a.primaryKey := by
  by_contra changed
  have supported := accepted_flags accepted
  cases describes.primary changed with
  | inl listed => exact absurd (supported _ listed) (by decide)
  | inr listed => exact absurd (supported _ listed) (by decide)

variable {key : KeyDef}

theorem keyId_of_primary {i : Nat} (primary : primaryKey = some i) (listed : keys[i]? = some key) :
    keyId keys primaryKey = some key.id := by
  rw [keyId, primary, bind_some, listed]
  rfl

theorem primary_of_keyId {id : Nat} (found : keyId keys primaryKey = some id) :
    ∃ i key, primaryKey = some i ∧ keys[i]? = some key ∧ key.id = id := by
  obtain ⟨key, bound, same⟩ := map_eq_some_iff.mp found
  obtain ⟨i, primary, listed⟩ := bind_eq_some_iff.mp bound
  exact ⟨i, key, primary, listed, same⟩

include describes accepted in
theorem secondary_before {k j : Nat} (listed : a.keys[k]? = some key) (secondary : a.primaryKey ≠ some k)
    (known : t.keys[j]? = some old) (same : old.id = key.id) : t.primaryKey ≠ some j := by
  intro primary
  have kept := primary_kept describes accepted
  rw [keyId_of_primary primary known] at kept
  obtain ⟨k', key', primary', listed', same'⟩ := primary_of_keyId kept.symm
  obtain rfl := key_of_id describes.ids (mem_of_getElem? listed') (mem_of_getElem? listed) (same'.trans same)
  exact secondary (number_of_key describes.names listed' listed ▸ primary')

include describes accepted in
theorem added_secondary {k : Nat} (added : k ∈ a.indexAddBuffer) (listed : a.keys[k]? = some key) :
    a.primaryKey ≠ some k := by
  intro primary
  have kept := primary_kept describes accepted
  rw [keyId_of_primary primary listed] at kept
  obtain ⟨j, old, -, known, same⟩ := primary_of_keyId kept
  exact (describes.adds k added key listed).1 old (mem_of_getElem? known) same

include opened describes accepted in
theorem dropped_secondary {j : Nat} (dropped : j ∈ a.indexDropBuffer) (known : t.keys[j]? = some old) :
    t.primaryKey ≠ some j := by
  intro primary
  have kept := primary_kept describes accepted
  rw [keyId_of_primary primary known] at kept
  obtain ⟨k, key, -, listed, same⟩ := primary_of_keyId kept.symm
  by_cases added : k ∈ a.indexAddBuffer
  · exact (describes.adds k added key listed).1 old (mem_of_getElem? known) same.symm
  · obtain ⟨j', old', known', same', stays⟩ := describes.keeps k key listed added
    obtain rfl := key_of_id opened.ids (mem_of_getElem? known') (mem_of_getElem? known) (same'.trans same)
    exact stays (number_of_key opened.names known' known ▸ dropped)

include opened in
theorem mem_dropNames {n : Name} : n ∈ dropNames t a ↔
    ∃ j ∈ a.indexDropBuffer, ∃ old, t.keys[j]? = some old ∧ t.primaryKey ≠ some j ∧ idxCfName t.cfName old.name = n := by
  have name : ∀ j, (t.idxCfNames[j]?).filter (· ≠ []) =
      (t.keys[j]?).bind fun old => if t.primaryKey = some j then none else some (idxCfName t.cfName old.name) := by
    intro j
    rw [opened.resolved, resolveIdxNames, getElem?_map, getElem?_zipIdx]
    cases t.keys[j]? with
    | none => rfl
    | some old =>
      by_cases primary : t.primaryKey = some j
      · simp [primary]
      · simp [primary, idxCfName_ne_nil]
  simp only [dropNames, mem_filterMap, name, bind_eq_some_iff]
  constructor
  · rintro ⟨j, dropped, old, known, named⟩
    split at named
    · cases named
    · rename_i secondary
      exact ⟨j, dropped, old, known, secondary, some.inj named⟩
  · rintro ⟨j, dropped, old, known, secondary, named⟩
    exact ⟨j, dropped, old, known, by rw [if_neg secondary, named]⟩

variable {t' : IndexedTable} (done : Committed t a t')

include opened describes done in
/-- An index that keeps its name keeps its family; a renamed one has no family with its
entries under the new name. -/
theorem kept_bound_iff {k j : Nat} (listed : a.keys[k]? = some key) (secondary : a.primaryKey ≠ some k)
    (stays : k ∉ a.indexAddBuffer) (known : t.keys[j]? = some old) (same : old.id = key.id)
    (undropped : j ∉ a.indexDropBuffer) :
    t'.families.Has (idxCfName t.cfName key.name) (some key.id) ↔ old.name = key.name := by
  have before : t.families.Has (idxCfName t.cfName old.name) (some old.id) :=
    opened.bound j old known (secondary_before describes done.accepted listed secondary known same)
  rw [done.families]
  constructor
  · rintro ⟨-, ⟨other, added, -, other_id⟩ | ⟨-, has⟩⟩
    · obtain ⟨k', mem, listed', -⟩ := mem_addedKeys.mp added
      exact absurd (same.trans (some.inj other_id).symm)
        ((describes.adds k' mem other listed').1 old (mem_of_getElem? known))
    · rw [← same] at has
      exact idxCfName_injective (opened.single _ _ _ before has)
  · intro name
    rw [← same, ← name]
    refine ⟨fun dropped => ?_, .inr ⟨fun other added other_name => ?_, before⟩⟩
    · obtain ⟨j', mem, old', known', -, named⟩ := (mem_dropNames opened).mp dropped
      obtain rfl := key_of_name opened.names (mem_of_getElem? known') (mem_of_getElem? known)
        (idxCfName_injective named)
      exact undropped (number_of_key opened.names known' known ▸ mem)
    · obtain ⟨k', mem, listed', -⟩ := mem_addedKeys.mp added
      obtain rfl := key_of_name describes.names (mem_of_getElem? listed') (mem_of_getElem? listed)
        ((idxCfName_injective other_name).trans name)
      exact stays (number_of_key describes.names listed' listed ▸ mem)

include opened describes done in
theorem added_bound_iff {k : Nat} (listed : a.keys[k]? = some key) (added : k ∈ a.indexAddBuffer) :
    t'.families.Has (idxCfName t.cfName key.name) (some key.id) ↔
      ∀ j ∈ a.indexDropBuffer, ∀ old ∈ t.keys[j]?, old.name ≠ key.name := by
  have secondary := added_secondary describes done.accepted added listed
  have mem : key ∈ a.addedKeys a.indexAddBuffer :=
    mem_addedKeys.mpr ⟨k, added, listed, fun primary => secondary primary.2⟩
  rw [done.families, and_iff_left (.inl ⟨key, mem, rfl, rfl⟩), mem_dropNames opened]
  constructor
  · intro undropped j dropped old known same
    exact undropped ⟨j, dropped, old, known, dropped_secondary opened describes done.accepted dropped known,
      congrArg _ same⟩
  · rintro apart ⟨j, dropped, old, known, -, named⟩
    exact apart j dropped old known (idxCfName_injective named)

include opened describes done in
theorem committed_bound_iff : t'.Bound ↔ KeepsNames t a := by
  unfold IndexedTable.Bound
  rw [done.keys, done.primaryKey, done.cfName]
  constructor
  · intro bound
    constructor
    · intro k key listed secondary old known same
      obtain ⟨j, numbered⟩ := mem_iff_getElem?.mp known
      have stays : k ∉ a.indexAddBuffer := fun added => (describes.adds k added key listed).1 old known same
      obtain ⟨j', old', known', same', undropped⟩ := describes.keeps k key listed stays
      obtain rfl := key_of_id opened.ids (mem_of_getElem? known') known (same'.trans same.symm)
      exact (kept_bound_iff opened describes done listed secondary stays known' same' undropped).mp
        (bound k key listed secondary)
    · intro k added j dropped key listed old known
      have secondary := added_secondary describes done.accepted added listed
      exact (added_bound_iff opened describes done listed added).mp (bound k key listed secondary) j dropped old known
  · rintro ⟨kept, apart⟩ k key listed secondary
    by_cases added : k ∈ a.indexAddBuffer
    · exact (added_bound_iff opened describes done listed added).mpr fun j dropped old known =>
        apart k added j dropped key listed old known
    · obtain ⟨j, old, known, same, undropped⟩ := describes.keeps k key listed added
      exact (kept_bound_iff opened describes done listed secondary added known same undropped).mpr
        (kept k key listed secondary old (mem_of_getElem? known) same)

end

def twoIndexes : IndexedTable where
  cfName := ['d']
  keys := [⟨['a'], false, 1⟩, ⟨['b'], false, 2⟩]
  primaryKey := none
  idxCfNames := resolveIdxNames ['d'] [⟨['a'], false, 1⟩, ⟨['b'], false, 2⟩] none
  families := SortedMap.empty.putAll [(idxCfName ['d'] ['a'], some 1), (idxCfName ['d'] ['b'], some 2)]

theorem twoIndexes_has (n : Name) (v : Option Nat) : twoIndexes.families.Has n v ↔
    n = idxCfName ['d'] ['a'] ∧ v = some 1 ∨ n = idxCfName ['d'] ['b'] ∧ v = some 2 := by
  show (empty.putAll [(idxCfName ['d'] ['a'], some 1), (idxCfName ['d'] ['b'], some 2)]).Has n v ↔ _
  rw [has_putAll (by decide)]
  simp

theorem twoIndexes_opened : twoIndexes.Opened := by
  refine ⟨rfl, by decide, by decide, fun n n' id has has' => ?_, fun i key listed _ => ?_⟩
  · rw [twoIndexes_has] at has has'
    rcases has with ⟨rfl, one⟩ | ⟨rfl, two⟩ <;> rcases has' with ⟨rfl, one'⟩ | ⟨rfl, two'⟩ <;> simp_all
  · rw [twoIndexes_has]
    match i, listed with
    | 0, rfl => exact .inl ⟨rfl, rfl⟩
    | 1, rfl => exact .inr ⟨rfl, rfl⟩

def noColumns : RowSchema Unit :=
  ⟨[], 0, ⟨[], []⟩, by simp, by simp, by simp, by decide, by decide, rfl, rfl⟩

def indexStatement (keys : List KeyDef) (adds drops : List Nat) (flags : List AlterFlag) : IndexAlter Unit :=
  ⟨keys, none, adds, drops, flags, false, noColumns, noColumns⟩

theorem describes_twoIndexes {adds drops : List Nat} (buffer : adds.Nodup) (names : (keys.map KeyDef.name).Nodup)
    (ids : (keys.map KeyDef.id).Nodup) (fresh : ∀ k ∈ adds, ∀ key ∈ keys[k]?, key.id ≠ 1 ∧ key.id ≠ 2)
    (kept : ∀ k < keys.length, k ∉ adds → ∃ j < 2, j ∉ drops ∧ (twoIndexes.keys[j]?).map KeyDef.id = (keys[k]?).map KeyDef.id) :
    Describes twoIndexes (indexStatement keys adds drops flags) := by
  refine ⟨buffer, names, ids, fun k added key listed => ?_, fun k key listed stays => ?_, fun changed => ?_⟩
  · obtain ⟨not_one, not_two⟩ := fresh k added key listed
    refine ⟨?_, fun n has => ?_⟩
    · simp [twoIndexes, not_one.symm, not_two.symm]
    · rw [twoIndexes_has] at has
      simp [not_one, not_two] at has
  · obtain ⟨j, -, undropped, same⟩ := kept k (List.getElem?_eq_some_iff.mp listed).1 stays
    rw [show keys[k]? = some key from listed, map_some, map_eq_some_iff] at same
    obtain ⟨old, known, same⟩ := same
    exact ⟨j, old, known, same, undropped⟩
  · exact absurd rfl changed

def allAnswers : AlterAnswers := ⟨fun _ => .success, true, true⟩

def renameStatement : IndexAlter Unit :=
  indexStatement [⟨['c'], false, 1⟩, ⟨['b'], false, 2⟩] [] [] [.renameIndex]

def swapStatement : IndexAlter Unit :=
  indexStatement [⟨['b'], false, 1⟩, ⟨['a'], false, 2⟩] [] [] [.renameIndex]

def readdStatement : IndexAlter Unit :=
  indexStatement [⟨['b'], false, 2⟩, ⟨['a'], false, 3⟩] [1] [0] [.addIndex, .dropIndex]

end TidesdbMysql
