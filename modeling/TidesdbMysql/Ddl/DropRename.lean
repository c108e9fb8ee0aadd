import TidesdbMysql.Base.Moves
import TidesdbMysql.Ddl.Create

/-! `tidesdb_drop_table_impl`, `rename_table` and `tidesdb_hton_drop_database` over the
column families of the engine. What belongs to a table is found by its name. -/
namespace TidesdbMysql
open Base List Base.SortedMap

section
variable {V : Type}

def dropColumnFamily (answer : Rc) (fs : Families V) (n : Name) : Families V × Rc :=
  if fs.HasKey n then if answer = .success then (fs.erase n, .success) else (fs, answer)
  else (fs, .notFound)

/- "drop it first so the rename can proceed": no rename onto a family that exists. -/
def renameColumnFamily (answer : Rc) (fs : Families V) (old new : Name) : Families V × Rc :=
  if fs.HasKey old then
    if answer ≠ .success then (fs, answer)
    else if fs.HasKey new then (fs, .alreadyExists) else (fs.move old new, .success)
  else (fs, .notFound)

structure Listing where
  order : List Name → List Name
  perm : ∀ names, (order names).Perm names

/- No names when `tidesdb_list_column_families` fails. -/
def listColumnFamilies (listing : Option Listing) (fs : Families V) : List Name :=
  match listing with
  | none => []
  | some l => l.order (fs.entries.map (·.1))

structure DropAnswers where
  prepared : Bool
  listing : Option Listing
  drop : Name → Rc

section
variable (listing : Option Listing) (a : DropAnswers) (drop : Name → Rc) (fs : Families V) (path : Name)
  (names : List Name)

def dropAll : Families V :=
  names.foldl (fun fs n => (dropColumnFamily (drop n) fs n).1) fs

def tidesdbDropTableImpl : Families V × Rc :=
  let cfName := pathToCfName path
  let idxCfNames := (listColumnFamilies a.listing fs).filter fun n => (cfName ++ cfIndexInfix).isPrefixOf n
  let (fs, rc) := dropColumnFamily (a.drop cfName) fs cfName
  if rc ≠ .success ∧ rc ≠ .notFound then (fs, rc) else (dropAll a.drop fs idxCfNames, .success)

/-- `ha_tidesdb::delete_table`; `none` stands for HA_ERR_GENERIC of a refused `prepare_drop`. -/
def deleteTable : Families V × Option Rc :=
  if a.prepared = false then (fs, none)
  else
    let (fs, rc) := tidesdbDropTableImpl a fs path
    (fs, some rc)

/-- `tidesdb_path_to_db_name`: the last component, trailing separators aside. -/
def tidesdbPathToDbName : Name :=
  ((path.reverse.dropWhile (· = '/')).takeWhile fun c => c ≠ '/' ∧ c ≠ '\\').reverse

def tidesdbHtonDropDatabase : Families V :=
  let db := tidesdbPathToDbName path
  if db = [] then fs
  else dropAll drop fs ((listColumnFamilies listing fs).filter fun n => (db ++ cfDbTableSep).isPrefixOf n)

end

structure RenameAnswers where
  dropData : Rc
  renameData : Rc
  listing : Option Listing
  dropIndex : Name → Rc
  renameIndex : Name → Rc

def renameIndexes (a : RenameAnswers) (oldCf newCf : Name) : Families V → List Name → Families V
  | fs, [] => fs
  | fs, cfStr :: rest =>
    if (oldCf ++ cfIndexInfix).isPrefixOf cfStr then
      let newIdx := newCf ++ cfIndexInfix ++ cfStr.drop (oldCf ++ cfIndexInfix).length
      let fs := (dropColumnFamily (a.dropIndex cfStr) fs newIdx).1
      renameIndexes a oldCf newCf (renameColumnFamily (a.renameIndex cfStr) fs cfStr newIdx).1 rest
    else renameIndexes a oldCf newCf fs rest

section
variable (listing : Option Listing) (l : Listing) (drop rename answer : Rc) (a : RenameAnswers) (fs : Families V)
  (old new n source target : Name)

def renameTable : Families V × HaCode :=
  let oldCf := pathToCfName source
  let newCf := pathToCfName target
  let fs := (dropColumnFamily a.dropData fs newCf).1
  let (fs, rc) := renameColumnFamily a.renameData fs oldCf newCf
  if rc ≠ .success ∧ rc ≠ .notFound then (fs, tdbRcToHa rc)
  else (renameIndexes a oldCf newCf fs (listColumnFamilies a.listing fs), .ok)

/- What the calls do to the families. -/

theorem dropColumnFamily_fst : (dropColumnFamily answer fs n).1 = if answer = .success then fs.erase n else fs := by
  unfold dropColumnFamily
  by_cases present : fs.HasKey n
  · rw [if_pos present]
    split <;> rfl
  · rw [if_neg present]
    split
    · refine ext_has fun k v => ?_
      rw [has_erase]
      refine (and_iff_right_of_imp ?_).symm
      rintro has rfl
      exact present has.hasKey
    · rfl

theorem renameColumnFamily_fst : (renameColumnFamily answer fs old new).1 =
      if answer = .success ∧ ¬ fs.HasKey new then fs.move old new else fs := by
  unfold renameColumnFamily
  by_cases present : fs.HasKey old
  · rw [if_pos present]
    by_cases granted : answer = .success
    · by_cases taken : fs.HasKey new <;> simp [granted, taken]
    · simp [granted]
  · have absent := lookup_eq_none.mpr present
    rw [if_neg present]
    split
    · rw [move, absent]
    · rfl

theorem drop_rename : (renameColumnFamily rename (dropColumnFamily drop fs new).1 old new).1 =
      fs.replace (decide (drop = .success)) (decide (rename = .success)) old new := by
  rw [renameColumnFamily_fst, dropColumnFamily_fst, SortedMap.replace]
  simp only [decide_eq_true_eq]

theorem has_dropAll (drop : Name → Rc) (fs : Families V) (names : List Name) (k : Name) (v : V) :
    (dropAll drop fs names).Has k v ↔ ¬ (k ∈ names ∧ drop k = .success) ∧ fs.Has k v := by
  induction names generalizing fs with
  | nil => simp [dropAll]
  | cons n rest ih =>
    have step : dropAll drop fs (n :: rest) = dropAll drop (dropColumnFamily (drop n) fs n).1 rest := rfl
    rw [step, ih, dropColumnFamily_fst, mem_cons]
    by_cases granted : drop n = .success
    · rw [if_pos granted, has_erase]
      by_cases here : k = n
      · subst here
        simp [granted]
      · simp [here]
    · rw [if_neg granted]
      by_cases here : k = n
      · subst here
        simp [granted]
      · simp [here]

theorem mem_listColumnFamilies : n ∈ listColumnFamilies (some l) fs ↔ fs.HasKey n := by
  rw [listColumnFamilies, (l.perm _).mem_iff, mem_map]
  rfl

theorem listColumnFamilies_nodup : (listColumnFamilies listing fs).Nodup := by
  cases listing with
  | none => exact nodup_nil
  | some l =>
    rw [listColumnFamilies, (l.perm _).nodup_iff, List.Nodup, pairwise_map]
    exact fs.sorted.imp fun lt => ne_of_lt lt

end

/- "We replace old table prefix with new one." -/
def movedName (oldCf newCf n : Name) : Name := newCf ++ n.drop oldCf.length

def indexNames (oldCf : Name) (names : List Name) : List Name :=
  names.filter fun n => (oldCf ++ cfIndexInfix).isPrefixOf n

theorem mem_indexNames {oldCf n : Name} {names : List Name} :
    n ∈ indexNames oldCf names ↔ n ∈ names ∧ ∃ key, n = idxCfName oldCf key := by
  rw [indexNames, mem_filter, isPrefixOf_iff_prefix]
  refine and_congr_right fun _ => ?_
  constructor
  · rintro ⟨key, rfl⟩
    exact ⟨key, rfl⟩
  · rintro ⟨key, rfl⟩
    exact ⟨key, rfl⟩

@[simp] theorem movedName_self (oldCf newCf : Name) : movedName oldCf newCf oldCf = newCf := by
  rw [movedName, drop_length, append_nil]

@[simp] theorem movedName_idx (oldCf newCf key : Name) :
    movedName oldCf newCf (idxCfName oldCf key) = idxCfName newCf key := by
  rw [movedName, idxCfName, append_assoc, drop_left, idxCfName, append_assoc]

theorem renameIndexes_eq (a : RenameAnswers) (oldCf newCf : Name) (fs : Families V) (names : List Name) :
    renameIndexes a oldCf newCf fs names =
      fs.replaceAll (movedName oldCf newCf) (fun n => decide (a.dropIndex n = .success))
        (fun n => decide (a.renameIndex n = .success)) (indexNames oldCf names) := by
  induction names generalizing fs with
  | nil => rfl
  | cons n rest ih =>
    rw [renameIndexes, indexNames, filter_cons]
    split
    · rename_i listed
      obtain ⟨key, rfl⟩ := isPrefixOf_iff_prefix.mp listed
      have target : newCf ++ cfIndexInfix ++ (oldCf ++ cfIndexInfix ++ key).drop (oldCf ++ cfIndexInfix).length =
          movedName oldCf newCf (oldCf ++ cfIndexInfix ++ key) := by
        rw [drop_left]
        exact (movedName_idx oldCf newCf key).symm
      dsimp only
      rw [target, drop_rename, ih]
      rfl
    · exact ih fs

theorem dropColumnFamily_hasKey (answer : Rc) (fs : Families V) (n k : Name) :
    (dropColumnFamily answer fs n).1.HasKey k ↔ ¬ (answer = .success ∧ k = n) ∧ fs.HasKey k := by
  rw [dropColumnFamily_fst]
  split
  · rename_i granted
    simp [granted]
  · rename_i refused
    simp [refused]

section
variable (a : RenameAnswers) (fs : Families V) (source target oldCf newCf : Name)

def Reported : Prop :=
  fs.HasKey oldCf ∧ ¬ (a.dropData = .success ∧ oldCf = newCf) ∧ a.renameData ≠ .notFound ∧
    (a.renameData = .success → fs.HasKey newCf ∧ a.dropData ≠ .success)

def afterData : Families V :=
  fs.replace (decide (a.dropData = .success)) (decide (a.renameData = .success)) oldCf newCf

theorem renameTable_cases :
    (Reported a fs (pathToCfName source) (pathToCfName target) ∧ (renameTable a fs source target).2 ≠ .ok ∧
      (renameTable a fs source target).1 = (dropColumnFamily a.dropData fs (pathToCfName target)).1) ∨
    (¬ Reported a fs (pathToCfName source) (pathToCfName target) ∧ renameTable a fs source target =
      ((afterData a fs (pathToCfName source) (pathToCfName target)).replaceAll
        (movedName (pathToCfName source) (pathToCfName target)) (fun n => decide (a.dropIndex n = .success))
        (fun n => decide (a.renameIndex n = .success)) (indexNames (pathToCfName source) (listColumnFamilies a.listing
          (afterData a fs (pathToCfName source) (pathToCfName target)))), .ok)) := by
  generalize old_eq : pathToCfName source = oldCf
  generalize new_eq : pathToCfName target = newCf
  have data := drop_rename a.dropData a.renameData fs oldCf newCf
  have source_left := dropColumnFamily_hasKey a.dropData fs newCf oldCf
  have target_left := dropColumnFamily_hasKey a.dropData fs newCf newCf
  simp only [renameTable, old_eq, new_eq]
  generalize dropped : (dropColumnFamily a.dropData fs newCf).1 = fs₁ at data source_left target_left
  have indexes : renameIndexes a oldCf newCf (afterData a fs oldCf newCf)
      (listColumnFamilies a.listing (afterData a fs oldCf newCf)) = _ := renameIndexes_eq a oldCf newCf _ _
  by_cases reported : Reported a fs oldCf newCf
  · obtain ⟨present, apart, not_missing, refused⟩ := reported
    refine .inl ⟨⟨present, apart, not_missing, refused⟩, ?_⟩
    have there : fs₁.HasKey oldCf := source_left.mpr ⟨apart, present⟩
    unfold renameColumnFamily
    rw [if_pos there]
    by_cases granted : a.renameData = .success
    · have taken : fs₁.HasKey newCf :=
        target_left.mpr ⟨fun cleared => (refused granted).2 cleared.1, (refused granted).1⟩
      simp [granted, taken, tdbRcToHa]
    · simp [granted, not_missing]
  · refine .inr ⟨reported, ?_⟩
    have heard : (renameColumnFamily a.renameData fs₁ oldCf newCf).2 = .success ∨
        (renameColumnFamily a.renameData fs₁ oldCf newCf).2 = .notFound := by
      unfold renameColumnFamily
      by_cases there : fs₁.HasKey oldCf
      · rw [if_pos there]
        obtain ⟨apart, present⟩ := source_left.mp there
        by_cases granted : a.renameData = .success
        · have free : ¬ fs₁.HasKey newCf := by
            intro taken
            obtain ⟨kept, was⟩ := target_left.mp taken
            exact reported ⟨present, apart, by simp [granted], fun _ => ⟨was, fun cleared => kept ⟨cleared, rfl⟩⟩⟩
          simp [granted, free]
        · have missing : a.renameData = .notFound := by
            by_contra other
            exact reported ⟨present, apart, other, fun given => absurd given granted⟩
          simp [missing]
      · simp [there]
    rw [if_neg (by rcases heard with h | h <;> simp [h]), data]
    exact congrArg (·, HaCode.ok) indexes

end

def Belongs (cf n : Name) : Prop := n = cf ∨ ∃ key, n = idxCfName cf key

/-- On zero every family has moved with its content; on an error both tables are as before. -/
def RenameAtomic (a : RenameAnswers) (fs : Families V) (source target : Name) : Prop :=
  ((renameTable a fs source target).2 = .ok → ∀ n v, Belongs (pathToCfName source) n → fs.Has n v →
    (renameTable a fs source target).1.Has (movedName (pathToCfName source) (pathToCfName target) n) v ∧
      ¬ (renameTable a fs source target).1.HasKey n) ∧
  ((renameTable a fs source target).2 ≠ .ok →
    ∀ n v, Belongs (pathToCfName source) n ∨ Belongs (pathToCfName target) n →
      ((renameTable a fs source target).1.Has n v ↔ fs.Has n v))

/-- The engine grants every rename, and no name of the source is taken again as a destination. -/
structure RenameGranted (a : RenameAnswers) (fs : Families V) (oldCf newCf : Name) : Prop where
  data : fs.HasKey oldCf → a.renameData = .success
  listed : ∀ key, fs.HasKey (idxCfName oldCf key) → a.listing.isSome = true
  index : ∀ key, fs.HasKey (idxCfName oldCf key) → a.renameIndex (idxCfName oldCf key) = .success ∧
    (fs.HasKey (idxCfName newCf key) → a.dropIndex (idxCfName oldCf key) = .success)
  apart : ∀ n n', Belongs oldCf n → fs.HasKey n → Belongs oldCf n' → fs.HasKey n' →
    movedName oldCf newCf n ≠ n'

theorem movedName_injective {oldCf newCf n n' : Name} (n_of : Belongs oldCf n) (n'_of : Belongs oldCf n')
    (same : movedName oldCf newCf n = movedName oldCf newCf n') : n = n' := by
  have rest : ∀ {k}, Belongs oldCf k → oldCf ++ k.drop oldCf.length = k := by
    rintro k (rfl | ⟨key, rfl⟩)
    · rw [drop_length, append_nil]
    · rw [idxCfName, append_assoc, drop_left]
  rw [← rest n_of, ← rest n'_of, append_cancel_left same]

theorem idxCfName_ne (cf key : Name) : idxCfName cf key ≠ cf := by
  intro same
  have sizes := congrArg length same
  simp [idxCfName, cfIndexInfix] at sizes

section
variable {a : RenameAnswers} {fs : Families V} {oldCf newCf : Name}

theorem has_afterData {k : Name} {v : V} (other : k ≠ oldCf) (away : k ≠ newCf) :
    (afterData a fs oldCf newCf).Has k v ↔ fs.Has k v := by
  rw [afterData, has_replace]
  simp [other, away]

/- Unless the new name reads as an index of the old one, the loop meets the families of the
source and no other. -/
theorem mem_renamed (plain : ∀ key, newCf ≠ idxCfName oldCf key) (l : Listing) (n : Name) :
    n ∈ indexNames oldCf (listColumnFamilies (some l) (afterData a fs oldCf newCf)) ↔
      fs.HasKey n ∧ ∃ key, n = idxCfName oldCf key := by
  rw [mem_indexNames, mem_listColumnFamilies]
  refine and_congr_left ?_
  rintro ⟨key, rfl⟩
  rw [hasKey_iff, hasKey_iff]
  simp only [has_afterData (idxCfName_ne oldCf key) (plain key).symm]

theorem renamed_belongs (plain : ∀ key, newCf ≠ idxCfName oldCf key) {n : Name}
    (listed : n ∈ indexNames oldCf (listColumnFamilies a.listing (afterData a fs oldCf newCf))) :
    Belongs oldCf n ∧ fs.HasKey n := by
  cases given : a.listing with
  | none =>
    rw [given] at listed
    cases listed
  | some l =>
    rw [given] at listed
    obtain ⟨present, index⟩ := (mem_renamed plain l n).mp listed
    exact ⟨.inr index, present⟩

theorem has_renamed (plain : ∀ key, newCf ≠ idxCfName oldCf key)
    (apart : ∀ n n', Belongs oldCf n → fs.HasKey n → Belongs oldCf n' → fs.HasKey n' → movedName oldCf newCf n ≠ n')
    (clears renames : Name → Bool) (k : Name) (v : V) :
    ((afterData a fs oldCf newCf).replaceAll (movedName oldCf newCf) clears renames
      (indexNames oldCf (listColumnFamilies a.listing (afterData a fs oldCf newCf)))).Has k v ↔
      (∃ s ∈ indexNames oldCf (listColumnFamilies a.listing (afterData a fs oldCf newCf)),
        (afterData a fs oldCf newCf).Goes (movedName oldCf newCf) clears renames s ∧ k = movedName oldCf newCf s ∧
          (afterData a fs oldCf newCf).Has s v) ∨
      (∀ s ∈ indexNames oldCf (listColumnFamilies a.listing (afterData a fs oldCf newCf)),
        ¬ ((afterData a fs oldCf newCf).Goes (movedName oldCf newCf) clears renames s ∧ k = s) ∧
          ¬ (clears s = true ∧ k = movedName oldCf newCf s)) ∧ (afterData a fs oldCf newCf).Has k v := by
  refine has_replaceAll ?_ ?_ ((listColumnFamilies_nodup a.listing _).filter _)
  · intro s s_in s' s'_in
    exact apart s s' (renamed_belongs plain s_in).1 (renamed_belongs plain s_in).2 (renamed_belongs plain s'_in).1
      (renamed_belongs plain s'_in).2
  · intro s s_in s' s'_in same
    exact movedName_injective (renamed_belongs plain s_in).1 (renamed_belongs plain s'_in).1 same

def afterRename (a : RenameAnswers) (fs : Families V) (oldCf newCf : Name) : Families V :=
  (afterData a fs oldCf newCf).replaceAll (movedName oldCf newCf) (fun n => decide (a.dropIndex n = .success))
    (fun n => decide (a.renameIndex n = .success))
    (indexNames oldCf (listColumnFamilies a.listing (afterData a fs oldCf newCf)))

section
variable (plain : ∀ key, newCf ≠ idxCfName oldCf key)
include plain

theorem stays_of_not_goes
    (apart : ∀ n n', Belongs oldCf n → fs.HasKey n → Belongs oldCf n' → fs.HasKey n' → movedName oldCf newCf n ≠ n')
    {n : Name} (n_of : Belongs oldCf n) {v : V} (has : fs.Has n v) (still : (afterData a fs oldCf newCf).Has n v)
    (stuck : n ∈ indexNames oldCf (listColumnFamilies a.listing (afterData a fs oldCf newCf)) → ¬ (afterData a fs oldCf newCf).Goes (movedName oldCf newCf) (fun n => decide (a.dropIndex n = .success)) (fun n => decide (a.renameIndex n = .success)) n) :
    (afterRename a fs oldCf newCf).HasKey n := by
  refine SortedMap.Has.hasKey ((has_renamed plain apart _ _ n v).mpr (.inr ⟨fun s listed => ⟨?_, ?_⟩, still⟩))
  · rintro ⟨goes, rfl⟩
    exact stuck listed goes
  · rintro ⟨-, same⟩
    obtain ⟨s_of, s_there⟩ := renamed_belongs plain listed
    exact apart s n s_of s_there n_of has.hasKey same.symm

theorem renameGranted_of_moved
    (moved : ∀ n v, Belongs oldCf n → fs.Has n v → (afterRename a fs oldCf newCf).Has (movedName oldCf newCf n) v ∧ ¬ (afterRename a fs oldCf newCf).HasKey n) :
    RenameGranted a fs oldCf newCf := by
  have apart : ∀ n n', Belongs oldCf n → fs.HasKey n → Belongs oldCf n' → fs.HasKey n' →
      movedName oldCf newCf n ≠ n' := by
    intro n n' n_of n_there n'_of n'_there same
    obtain ⟨v, has⟩ := hasKey_iff.mp n_there
    obtain ⟨v', has'⟩ := hasKey_iff.mp n'_there
    have arrived := (moved n v n_of has).1
    rw [same] at arrived
    exact (moved n' v' n'_of has').2 arrived.hasKey
  have settled : ∀ key, fs.HasKey (idxCfName oldCf key) → a.listing.isSome = true ∧
      (afterData a fs oldCf newCf).Goes (movedName oldCf newCf) (fun n => decide (a.dropIndex n = .success))
        (fun n => decide (a.renameIndex n = .success)) (idxCfName oldCf key) := by
    intro key there
    obtain ⟨v, has⟩ := hasKey_iff.mp there
    have still := (has_afterData (a := a) (idxCfName_ne oldCf key) (plain key).symm).mpr has
    by_contra stuck
    refine (moved _ v (.inr ⟨key, rfl⟩) has).2 (stays_of_not_goes plain apart (.inr ⟨key, rfl⟩) has still ?_)
    intro listed goes
    refine stuck ⟨?_, goes⟩
    cases given : a.listing with
    | none =>
      rw [given] at listed
      cases listed
    | some l => rfl
  refine ⟨fun there => ?_, fun key there => (settled key there).1, fun key there => ?_, apart⟩
  · obtain ⟨v, has⟩ := hasKey_iff.mp there
    have differ : oldCf ≠ newCf := by
      intro same
      exact apart oldCf oldCf (.inl rfl) there (.inl rfl) there (by rw [movedName_self, same])
    by_contra refused
    have still : (afterData a fs oldCf newCf).Has oldCf v := by
      rw [afterData, has_replace]
      exact .inr ⟨by simp [refused], by simp [differ], has⟩
    refine (moved oldCf v (.inl rfl) has).2 (stays_of_not_goes plain apart (.inl rfl) has still fun listed => ?_)
    obtain ⟨-, key, same⟩ := mem_indexNames.mp listed
    exact absurd same.symm (idxCfName_ne oldCf key)
  · obtain ⟨renames, clears⟩ := (settled key there).2
    refine ⟨of_decide_eq_true renames, fun taken => of_decide_eq_true (clears ?_)⟩
    obtain ⟨w, has⟩ := hasKey_iff.mp taken
    rw [movedName_idx]
    refine SortedMap.Has.hasKey ((has_afterData ?_ (idxCfName_ne newCf key)).mpr has)
    rintro same
    exact apart (idxCfName oldCf key) oldCf (.inr ⟨key, rfl⟩) there (.inl rfl) (same ▸ taken) (by rw [movedName_idx, same])

theorem moved_of_renameGranted (unreported : ¬ Reported a fs oldCf newCf) (granted : RenameGranted a fs oldCf newCf)
    {n : Name} {v : V} (n_of : Belongs oldCf n) (has : fs.Has n v) :
    (afterRename a fs oldCf newCf).Has (movedName oldCf newCf n) v ∧ ¬ (afterRename a fs oldCf newCf).HasKey n := by
  have no_target : ∀ s ∈ indexNames oldCf (listColumnFamilies a.listing (afterData a fs oldCf newCf)),
      n ≠ movedName oldCf newCf s := by
    intro s listed same
    obtain ⟨s_of, s_there⟩ := renamed_belongs plain listed
    exact granted.apart s n s_of s_there n_of has.hasKey same.symm
  rcases n_of with rfl | ⟨key, rfl⟩
  · have differ : n ≠ newCf := by
      intro same
      exact granted.apart n n (.inl rfl) has.hasKey (.inl rfl) has.hasKey (by rw [movedName_self, same])
    have given := granted.data has.hasKey
    have clear : fs.HasKey newCf → a.dropData = .success := by
      intro taken
      by_contra refused
      exact unreported ⟨has.hasKey, fun both => differ both.2, by simp [given], fun _ => ⟨taken, refused⟩⟩
    have data : ∀ k w, (afterData a fs n newCf).Has k w ↔ k = newCf ∧ fs.Has n w ∨
        k ≠ n ∧ ¬ (a.dropData = .success ∧ k = newCf) ∧ fs.Has k w := by
      intro k w
      rw [afterData, has_replace]
      simp only [given, decide_eq_true_eq]
      tauto
    constructor
    · rw [movedName_self]
      refine (has_renamed plain granted.apart _ _ _ v).mpr (.inr ⟨fun s listed => ?_, (data _ v).mpr (.inl ⟨rfl, has⟩)⟩)
      obtain ⟨-, key, rfl⟩ := mem_indexNames.mp listed
      rw [movedName_idx]
      exact ⟨fun both => plain key both.2, fun both => idxCfName_ne newCf key both.2.symm⟩
    · intro there
      obtain ⟨w, left⟩ := hasKey_iff.mp there
      rcases (has_renamed plain granted.apart _ _ n w).mp left with ⟨s, listed, -, same, -⟩ | ⟨-, still⟩
      · exact no_target s listed same
      · rcases (data n w).mp still with ⟨same, -⟩ | ⟨other, -⟩
        · exact differ same
        · exact other rfl
  · obtain ⟨l, given⟩ := Option.isSome_iff_exists.mp (granted.listed key has.hasKey)
    have listed : idxCfName oldCf key ∈
        indexNames oldCf (listColumnFamilies a.listing (afterData a fs oldCf newCf)) := by
      rw [given]
      exact (mem_renamed plain l _).mpr ⟨has.hasKey, key, rfl⟩
    obtain ⟨renames, clears⟩ := granted.index key has.hasKey
    have goes : (afterData a fs oldCf newCf).Goes (movedName oldCf newCf) (fun n => decide (a.dropIndex n = .success))
        (fun n => decide (a.renameIndex n = .success)) (idxCfName oldCf key) := by
      refine ⟨decide_eq_true renames, fun taken => decide_eq_true (clears ?_)⟩
      rw [movedName_idx] at taken
      obtain ⟨w, there⟩ := hasKey_iff.mp taken
      rw [afterData, has_replace] at there
      rcases there with ⟨-, -, same, -⟩ | ⟨-, -, was⟩
      · exact absurd same (idxCfName_ne newCf key)
      · exact was.hasKey
    constructor
    · refine (has_renamed plain granted.apart _ _ _ v).mpr (.inl ⟨_, listed, goes, rfl, ?_⟩)
      exact (has_afterData (idxCfName_ne oldCf key) (plain key).symm).mpr has
    · intro there
      obtain ⟨w, left⟩ := hasKey_iff.mp there
      rcases (has_renamed plain granted.apart _ _ _ w).mp left with ⟨s, s_listed, -, same, -⟩ | ⟨off, -⟩
      · exact no_target s s_listed same
      · exact (off _ listed).1 ⟨goes, rfl⟩

end

end

def granted (l : Listing) : RenameAnswers := ⟨.success, .success, some l, fun _ => .success, fun _ => .success⟩

theorem not_reported_granted (l : Listing) (fs : Families V) (oldCf newCf : Name) :
    ¬ Reported (granted l) fs oldCf newCf :=
  fun reported => (reported.2.2.2 rfl).2 rfl

theorem movedName_ne {oldCf newCf n n' : Name} (sizes : oldCf.length = newCf.length) (differ : oldCf ≠ newCf)
    (n'_of : Belongs oldCf n') : movedName oldCf newCf n ≠ n' := by
  have begins : oldCf <+: n' := by
    rcases n'_of with rfl | ⟨key, rfl⟩
    · exact prefix_refl _
    · exact ⟨cfIndexInfix ++ key, by rw [idxCfName, append_assoc]⟩
  rintro rfl
  obtain ⟨rest, same⟩ := begins
  exact differ (append_inj_left same sizes)

end

def inOrder : Listing := ⟨id, fun _ => List.Perm.refl _⟩

def familiesOf (entries : List (Name × Nat)) : Families Nat := SortedMap.empty.putAll entries

/- `d.t` and `d.u` with their families. -/
def pathT : Name := ['.', '/', 'd', '/', 't']
def pathU : Name := ['.', '/', 'd', '/', 'u']
def cfT : Name := ['d', '_', '_', 't']
def cfU : Name := ['d', '_', '_', 'u']

def withIndex : Families Nat := familiesOf [(cfT, 1), (idxCfName cfT ['i'], 2)]

def refusesData : RenameAnswers := { granted inOrder with renameData := .io }
def refusesIndex : RenameAnswers := { granted inOrder with renameIndex := fun _ => .io }
def refusesList : RenameAnswers := { granted inOrder with listing := none }

end TidesdbMysql
