import TidesdbMysql.Ddl.DropRename

/-! What DROP TABLE, RENAME TABLE and DROP DATABASE do to the families of other objects. Every
family carries what it was made for, and the engine does what it is asked. -/
namespace TidesdbMysql
open Base List Option Base.SortedMap

inductive CfMaker where
  | table (o : CfOwner)
  | other (n : Name)
  deriving DecidableEq

def CfMaker.cfName : CfMaker → Name
  | .table o => o.cfName
  | .other n => n

def CfMaker.tableName : CfMaker → Option TableName
  | .table o => some o.tableName
  | .other _ => none

def CfMaker.db (m : CfMaker) : Option Name := m.tableName.map (·.db)

structure Catalog (D : Type) where
  families : Families (CfMaker × D)
  named : ∀ n w, families.Has n w → n = w.1.cfName

variable {D : Type} {c : Catalog D} {t source target : TableName}

variable {n : Name} {w : CfMaker × D} {V : Type} {db : Name}

theorem Catalog.alone (has : c.families.Has n w) (k : Name) (also : c.families.Has k w) : k = n :=
  (c.named k w also).trans (c.named n w has).symm

def ReadsAs (t : TableName) (n : Name) : Prop := ∃ o : CfOwner, o.tableName = t ∧ o.cfName = n

theorem readsAs_iff (t : TableName) (n : Name) : ReadsAs t n ↔ Belongs t.cfName n := by
  constructor
  · rintro ⟨o, rfl, rfl⟩
    cases o with
    | data t => exact .inl rfl
    | index t key => exact .inr ⟨key, rfl⟩
  · rintro (rfl | ⟨key, rfl⟩)
    · exact ⟨.data t, rfl, rfl⟩
    · exact ⟨.index t key, rfl, rfl⟩

theorem Catalog.reads_own (has : c.families.Has n w) (own : w.1.tableName = some t) : ReadsAs t n := by
  obtain ⟨maker, d⟩ := w
  cases maker with
  | table o => exact ⟨o, some.inj own, (c.named n _ has).symm⟩
  | other n => cases own

/- DROP TABLE. -/

def dropGranted (l : Listing) : DropAnswers := ⟨true, some l, fun _ => .success⟩

def DropExact (c : Catalog D) (l : Listing) (t : TableName) : Prop :=
  ∀ n w, (deleteTable (dropGranted l) c.families t.path).1.Has n w ↔
    c.families.Has n w ∧ w.1.tableName ≠ some t

theorem deleteTable_granted (l : Listing) (fs : Families V) (t : TableName) :
    (deleteTable (dropGranted l) fs t.path).1 = dropAll (fun _ => .success) (fs.erase t.cfName)
      (indexNames t.cfName (listColumnFamilies (some l) fs)) := by
  have cleared := dropColumnFamily_fst .success fs t.cfName
  rw [if_pos rfl] at cleared
  simp only [deleteTable, dropGranted, tidesdbDropTableImpl, TableName.cfName] at cleared ⊢
  unfold dropColumnFamily at cleared ⊢
  by_cases present : fs.HasKey (pathToCfName t.path)
  · simp [present, indexNames]
  · simp only [if_neg present] at cleared
    simp [present, indexNames, ← cleared]

theorem has_deleteTable (l : Listing) (fs : Families V) (t : TableName) (n : Name) (v : V) :
    (deleteTable (dropGranted l) fs t.path).1.Has n v ↔ ¬ ReadsAs t n ∧ fs.Has n v := by
  rw [deleteTable_granted, has_dropAll, has_erase, readsAs_iff, mem_indexNames, mem_listColumnFamilies]
  constructor
  · rintro ⟨unlisted, other, has⟩
    refine ⟨?_, has⟩
    rintro (same | ⟨key, same⟩)
    · exact other same
    · exact unlisted ⟨⟨has.hasKey, key, same⟩, rfl⟩
  · rintro ⟨foreign, has⟩
    exact ⟨fun listed => foreign (.inr listed.1.2), fun same => foreign (.inl same), has⟩

theorem dropExact_iff (c : Catalog D) (l : Listing) (t : TableName) :
    DropExact c l t ↔ ∀ n w, c.families.Has n w → ReadsAs t n → w.1.tableName = some t := by
  constructor
  · intro exact_drop n w has reads
    by_contra foreign
    have kept := (exact_drop n w).mpr ⟨has, foreign⟩
    exact ((has_deleteTable l c.families t n w).mp kept).1 reads
  · intro owns n w
    rw [has_deleteTable]
    constructor
    · rintro ⟨unread, has⟩
      exact ⟨has, fun own => unread (c.reads_own has own)⟩
    · rintro ⟨has, foreign⟩
      exact ⟨fun reads => foreign (owns n w has reads), has⟩

/- DROP DATABASE. -/

def dbPath (db : Name) : Name := mariadbRelPathPrefix ++ db ++ ['/']

theorem tidesdbPathToDbName_eq (plain : ∀ ch ∈ db, ch ≠ '/' ∧ ch ≠ '\\') (some_char : db ≠ []) :
    tidesdbPathToDbName (dbPath db) = db := by
  have reversed : (dbPath db).reverse = '/' :: (db.reverse ++ ['/', '.']) := by
    simp [dbPath, mariadbRelPathPrefix]
  have trailing : (db.reverse ++ ['/', '.']).dropWhile (fun ch => decide (ch = '/')) = db.reverse ++ ['/', '.'] := by
    obtain ⟨last, rest, turned⟩ := exists_cons_of_ne_nil (reverse_ne_nil_iff.mpr some_char)
    have last_plain := (plain last (mem_reverse.mp (turned ▸ mem_cons_self))).1
    rw [turned, cons_append, dropWhile_cons_of_neg (by simp [last_plain])]
  have component : (db.reverse ++ ['/', '.']).takeWhile (fun ch => decide (ch ≠ '/' ∧ ch ≠ '\\')) = db.reverse := by
    rw [takeWhile_append_of_pos]
    · simp
    · intro ch mem
      exact decide_eq_true (plain ch (mem_reverse.mp mem))
  rw [tidesdbPathToDbName, reversed, dropWhile_cons_of_pos (by simp), trailing, component, reverse_reverse]

def DropDatabaseExact (c : Catalog D) (l : Listing) (db : Name) : Prop :=
  ∀ n w, (tidesdbHtonDropDatabase (some l) (fun _ => .success) c.families (dbPath db)).Has n w ↔
    c.families.Has n w ∧ w.1.db ≠ some db

theorem has_dropDatabase (l : Listing) (fs : Families V)
    (plain : ∀ ch ∈ db, ch ≠ '/' ∧ ch ≠ '\\') (some_char : db ≠ []) (n : Name) (v : V) :
    (tidesdbHtonDropDatabase (some l) (fun _ => .success) fs (dbPath db)).Has n v ↔
      ¬ (db ++ cfDbTableSep <+: n) ∧ fs.Has n v := by
  simp only [tidesdbHtonDropDatabase, tidesdbPathToDbName_eq plain some_char, if_neg some_char]
  rw [has_dropAll, mem_filter, mem_listColumnFamilies, isPrefixOf_iff_prefix]
  constructor
  · rintro ⟨unlisted, has⟩
    exact ⟨fun begins => unlisted ⟨⟨has.hasKey, begins⟩, rfl⟩, has⟩
  · rintro ⟨foreign, has⟩
    exact ⟨fun listed => foreign listed.1.2, has⟩

theorem marker_not_mem (name : Name) : mariadbTempNameMarker ∉ replaceMarker name := by
  intro mem
  obtain ⟨ch, -, same⟩ := mem_map.mp mem
  by_cases marker : ch = mariadbTempNameMarker
  · rw [if_pos marker] at same
    exact absurd same (by decide)
  · rw [if_neg marker] at same
    exact marker same

theorem prefix_own_iff (o : CfOwner) :
    o.tableName.db ++ cfDbTableSep <+: o.cfName ↔ mariadbTempNameMarker ∉ o.tableName.db := by
  have first : o.written.1 = replaceMarker o.tableName.db := by
    cases o <;> rfl
  rw [owner_cfName, joined, first]
  constructor
  · rintro ⟨rest, same⟩
    have sizes : o.tableName.db.length = (replaceMarker o.tableName.db).length := by
      rw [replaceMarker, length_map]
    rw [append_assoc, append_assoc] at same
    rw [append_inj_left same sizes]
    exact marker_not_mem _
  · intro unmarked
    have same : replaceMarker o.tableName.db = o.tableName.db := by
      conv_rhs => rw [← map_id o.tableName.db]
      refine map_congr_left fun ch mem => ?_
      rw [if_neg]
      · rfl
      · rintro rfl
        exact unmarked mem
    rw [same]
    exact prefix_append _ _

theorem dropDatabaseExact_iff (c : Catalog D) (l : Listing)
    (plain : ∀ ch ∈ db, ch ≠ '/' ∧ ch ≠ '\\') (some_char : db ≠ []) :
    DropDatabaseExact c l db ↔
      (∀ n w, c.families.Has n w → db ++ cfDbTableSep <+: n → w.1.db = some db) ∧
      ∀ n w, c.families.Has n w → w.1.db = some db → mariadbTempNameMarker ∉ db := by
  have own : ∀ {n w}, c.families.Has n w → w.1.db = some db →
      (db ++ cfDbTableSep <+: n ↔ mariadbTempNameMarker ∉ db) := by
    intro n w has made
    obtain ⟨maker, d⟩ := w
    cases maker with
    | table o =>
      obtain rfl := some.inj made
      rw [c.named n _ has]
      exact prefix_own_iff o
    | other n => cases made
  constructor
  · intro exact_drop
    refine ⟨fun n w has begins => ?_, fun n w has made => ?_⟩
    · by_contra foreign
      have kept := (exact_drop n w).mpr ⟨has, foreign⟩
      exact ((has_dropDatabase l c.families plain some_char n w).mp kept).1 begins
    · rw [← own has made]
      by_contra begins
      have kept := (has_dropDatabase l c.families plain some_char n w).mpr ⟨begins, has⟩
      exact ((exact_drop n w).mp kept).2 made
  · rintro ⟨owns, unmarked⟩ n w
    rw [has_dropDatabase l c.families plain some_char]
    constructor
    · rintro ⟨unread, has⟩
      exact ⟨has, fun made => unread ((own has made).mpr (unmarked n w has made))⟩
    · rintro ⟨has, foreign⟩
      exact ⟨fun begins => foreign (owns n w has begins), has⟩

/- RENAME TABLE. -/

def CfOwner.on (target : TableName) : CfOwner → CfOwner
  | .data _ => .data target
  | .index _ key => .index target key

def CfMaker.on (target : TableName) : CfMaker → CfMaker
  | .table o => .table (o.on target)
  | .other n => .other n

theorem movedName_on (o : CfOwner) (target : TableName) :
    movedName o.tableName.cfName target.cfName o.cfName = (o.on target).cfName := by
  cases o with
  | data t => exact movedName_self _ _
  | index t key => exact movedName_idx _ _ _

theorem Catalog.movedName_own (has : c.families.Has n w) (own : w.1.tableName = some source) :
    (w.1.on target).cfName = movedName source.cfName target.cfName n := by
  obtain ⟨maker, d⟩ := w
  cases maker with
  | table o =>
    obtain rfl := some.inj own
    rw [c.named n _ has]
    exact (movedName_on o target).symm
  | other n => cases own

/-- The families of the source are under the target's names, and the others where they were. -/
structure RenameExact (fs fs' : Families (CfMaker × D)) (source target : TableName) : Prop where
  moved : ∀ n w, fs.Has n w → w.1.tableName = some source →
    fs'.Has (w.1.on target).cfName w ∧ ¬ fs'.HasKey n
  kept : ∀ n w, fs.Has n w → w.1.tableName ≠ some source → fs'.Has n w
  only : ∀ k w, fs'.Has k w → ∃ n, fs.Has n w ∧
    k = if w.1.tableName = some source then (w.1.on target).cfName else n

structure RenameClear (fs : Families (CfMaker × D)) (source target : TableName) : Prop where
  own : ∀ n w, fs.Has n w → ReadsAs source n → w.1.tableName = some source
  free : ¬ fs.HasKey target.cfName
  freeIndex : ∀ n w, fs.Has n w → w.1.tableName = some source → ¬ fs.HasKey (w.1.on target).cfName
  apart : fs.HasKey source.cfName → ¬ ReadsAs source target.cfName

def renamedNames (l : Listing) (fs : Families V) (oldCf newCf : Name) : List Name :=
  indexNames oldCf (listColumnFamilies (some l) (fs.replace true true oldCf newCf))

section
variable {V : Type} {l : Listing} {fs : Families V} {oldCf newCf : Name}

theorem renameTable_granted (l : Listing) (fs : Families V) (source target : TableName) :
    (renameTable (granted l) fs source.path target.path).1 =
      (fs.replace true true source.cfName target.cfName).replaceAll (movedName source.cfName target.cfName)
        (fun _ => true) (fun _ => true) (renamedNames l fs source.cfName target.cfName) := by
  rcases renameTable_cases (granted l) fs source.path target.path with ⟨reported, -⟩ | ⟨-, done⟩
  · exact absurd reported (not_reported_granted l _ _ _)
  · rw [done]
    rfl

theorem replaceAll_data (fs : Families V) (oldCf newCf : Name) (rest : List Name) :
    (fs.replace true true oldCf newCf).replaceAll (movedName oldCf newCf) (fun _ => true) (fun _ => true) rest =
      fs.replaceAll (movedName oldCf newCf) (fun _ => true) (fun _ => true) (oldCf :: rest) := by
  change _ = (fs.replace true true oldCf (movedName oldCf newCf oldCf)).replaceAll _ _ _ rest
  rw [movedName_self]

theorem has_data {k : Name} {v : V} : (fs.replace true true oldCf newCf).Has k v ↔
    oldCf ≠ newCf ∧ k = newCf ∧ fs.Has oldCf v ∨ k ≠ oldCf ∧ k ≠ newCf ∧ fs.Has k v := by
  rw [has_replace]
  simp

theorem mem_renamedNames : n ∈ renamedNames l fs oldCf newCf ↔
    (fs.replace true true oldCf newCf).HasKey n ∧ ∃ key, n = idxCfName oldCf key := by
  rw [renamedNames, mem_indexNames, mem_listColumnFamilies]

theorem length_movedName (newCf : Name) (n_of : Belongs oldCf n) :
    (movedName oldCf newCf n).length + oldCf.length = newCf.length + n.length := by
  have longer : oldCf.length ≤ n.length := by
    rcases n_of with rfl | ⟨key, rfl⟩
    · exact le_rfl
    · simp [idxCfName]
  rw [movedName, length_append, length_drop]
  omega

theorem not_home {srcs : List Name} (belong : ∀ s ∈ srcs, Belongs oldCf s) {home : Name} {v : V}
    (alone : ∀ k, fs.Has k v → k = home) (hit : ∃ s ∈ srcs, s = home ∨ movedName oldCf newCf s = home) :
    ¬ (fs.replaceAll (movedName oldCf newCf) (fun _ => true) (fun _ => true) srcs).Has home v := by
  intro back
  rcases lt_trichotomy oldCf.length newCf.length with longer | sizes | shorter
  · have far : ∀ k : Name, _ → home.length < k.length := displaced alone hit (fun listed _ => by
        have size := length_movedName newCf (belong home listed)
        omega)
      (fun s listed away => by
        have size := length_movedName newCf (belong s listed)
        omega)
    exact lt_irrefl _ (far home back)
  · by_cases differ : oldCf = newCf
    · subst differ
      have stays : ∀ {k}, Belongs oldCf k → movedName oldCf oldCf k = k := by
        rintro k (rfl | ⟨key, rfl⟩)
        · exact movedName_self _ _
        · exact movedName_idx _ _ _
      have gone : ∀ k, _ → k ≠ home := displaced alone hit
        (fun listed moves => absurd (stays (belong home listed)) moves)
        (fun s listed away => (stays (belong s listed)).symm ▸ away)
      exact gone home back rfl
    · have far : ∀ k, _ → k ≠ home ∧ ¬ Belongs oldCf k := displaced alone hit
        (fun listed moves => ⟨moves, fun still => movedName_ne sizes differ still rfl⟩)
        (fun s listed away => absurd (belong s listed) away.2)
      exact (far home back).1 rfl
  · have far : ∀ k : Name, _ → k.length < home.length := displaced alone hit (fun listed _ => by
        have size := length_movedName newCf (belong home listed)
        omega)
      (fun s listed away => by
        have size := length_movedName newCf (belong s listed)
        omega)
    exact lt_irrefl _ (far home back)

end

section
variable {l : Listing}

section
variable (clear : RenameClear c.families source target)
include clear

theorem RenameClear.has_data {k : Name} : (c.families.replace true true source.cfName target.cfName).Has k w ↔
      k = target.cfName ∧ c.families.Has source.cfName w ∨ k ≠ source.cfName ∧ c.families.Has k w := by
  rw [TidesdbMysql.has_data]
  constructor
  · rintro (⟨-, same, has⟩ | ⟨other, -, has⟩)
    · exact .inl ⟨same, has⟩
    · exact .inr ⟨other, has⟩
  · rintro (⟨same, has⟩ | ⟨other, has⟩)
    · exact .inl ⟨fun equal => clear.free (equal ▸ has.hasKey), same, has⟩
    · exact .inr ⟨other, fun same => clear.free (same ▸ has.hasKey), has⟩

theorem RenameClear.listed (n_in : n ∈ renamedNames l c.families source.cfName target.cfName) :
    ∃ w, c.families.Has n w ∧ w.1.tableName = some source ∧ n ≠ source.cfName ∧ Belongs source.cfName n := by
  obtain ⟨there, key, rfl⟩ := mem_renamedNames.mp n_in
  obtain ⟨w, has⟩ := hasKey_iff.mp there
  have reads : Belongs source.cfName (idxCfName source.cfName key) := .inr ⟨key, rfl⟩
  rcases clear.has_data.mp has with ⟨same, data⟩ | ⟨other, has⟩
  · exact absurd ((readsAs_iff _ _).mpr (same ▸ reads)) (clear.apart data.hasKey)
  · exact ⟨w, has, clear.own _ w has ((readsAs_iff _ _).mpr reads), other, reads⟩

theorem RenameClear.dest_free (n_in : n ∈ renamedNames l c.families source.cfName target.cfName) :
    ¬ c.families.HasKey (movedName source.cfName target.cfName n) := by
  obtain ⟨w, has, own, -, -⟩ := clear.listed n_in
  rw [← c.movedName_own has own]
  exact clear.freeIndex n w has own

theorem RenameClear.has_renamed {k : Name} : (renameTable (granted l) c.families source.path target.path).1.Has k w ↔
      (∃ n ∈ renamedNames l c.families source.cfName target.cfName,
        k = movedName source.cfName target.cfName n ∧ c.families.Has n w) ∨
      (∀ n ∈ renamedNames l c.families source.cfName target.cfName,
        k ≠ n ∧ k ≠ movedName source.cfName target.cfName n) ∧
        (k = target.cfName ∧ c.families.Has source.cfName w ∨ k ≠ source.cfName ∧ c.families.Has k w) := by
  rw [renameTable_granted, has_replaceAll, clear.has_data]
  · simp only [SortedMap.Goes, implies_true, and_self, true_and, ne_eq]
    refine or_congr_left (exists_congr fun n => and_congr_right fun n_in => and_congr_right fun _ => ?_)
    obtain ⟨_, there, -, other, -⟩ := clear.listed n_in
    rw [clear.has_data]
    refine ⟨?_, fun has => .inr ⟨other, has⟩⟩
    rintro (⟨same, -⟩ | ⟨-, has⟩)
    · exact absurd (same ▸ there.hasKey) clear.free
    · exact has
  · intro n n_in n' n'_in same
    obtain ⟨_, has, -⟩ := clear.listed n'_in
    exact clear.dest_free n_in (same ▸ has.hasKey)
  · intro n n_in n' n'_in same
    obtain ⟨-, -, -, -, n_of⟩ := clear.listed n_in
    obtain ⟨-, -, -, -, n'_of⟩ := clear.listed n'_in
    exact movedName_injective n_of n'_of same
  · exact (listColumnFamilies_nodup _ _).filter _

theorem renameExact_of_clear :
    RenameExact c.families (renameTable (granted l) c.families source.path target.path).1 source target := by
  -- an index family of the source is met by the loop
  have met : ∀ {n w}, c.families.Has n w → w.1.tableName = some source → n ≠ source.cfName →
      n ∈ renamedNames l c.families source.cfName target.cfName := by
    intro n w has own other
    refine mem_renamedNames.mpr ⟨(clear.has_data.mpr (.inr ⟨other, has⟩)).hasKey, ?_⟩
    rcases (readsAs_iff source n).mp (c.reads_own has own) with same | index
    · exact absurd same other
    · exact index
  refine ⟨fun n w has own => ?_, fun n w has foreign => ?_, fun k w left => ?_⟩
  · have goal : (w.1.on target).cfName = _ := c.movedName_own has own
    rw [goal]
    constructor
    · by_cases data : n = source.cfName
      · subst data
        rw [movedName_self]
        refine clear.has_renamed.mpr (.inr ⟨fun s s_in => ⟨?_, ?_⟩, .inl ⟨rfl, has⟩⟩)
        · rintro rfl
          obtain ⟨_, there, -⟩ := clear.listed s_in
          exact clear.free there.hasKey
        · obtain ⟨-, key, rfl⟩ := mem_renamedNames.mp s_in
          rw [movedName_idx]
          exact (idxCfName_ne _ key).symm
      · exact clear.has_renamed.mpr (.inl ⟨n, met has own data, rfl, has⟩)
    · intro there
      obtain ⟨v, left⟩ := hasKey_iff.mp there
      rcases clear.has_renamed.mp left with ⟨s, s_in, same, -⟩ | ⟨off, ⟨same, -⟩ | ⟨other, -⟩⟩
      · exact clear.dest_free s_in (same ▸ has.hasKey)
      · exact clear.free (same ▸ has.hasKey)
      · exact (off n (met has own other)).1 rfl
  · have unread : ¬ ReadsAs source n := fun reads => foreign (clear.own n w has reads)
    refine clear.has_renamed.mpr (.inr ⟨fun s s_in => ⟨?_, ?_⟩, .inr ⟨?_, has⟩⟩)
    · rintro rfl
      obtain ⟨-, -, -, -, s_of⟩ := clear.listed s_in
      exact unread ((readsAs_iff _ _).mpr s_of)
    · rintro rfl
      exact clear.dest_free s_in has.hasKey
    · rintro rfl
      exact unread ((readsAs_iff _ _).mpr (.inl rfl))
  · rcases clear.has_renamed.mp left with ⟨n, n_in, rfl, has⟩ | ⟨off, ⟨rfl, has⟩ | ⟨other, has⟩⟩
    · obtain ⟨-, -, -, -, n_of⟩ := clear.listed n_in
      have own := clear.own n w has ((readsAs_iff _ _).mpr n_of)
      refine ⟨n, has, ?_⟩
      rw [if_pos own, c.movedName_own has own]
    · have own := clear.own _ w has ((readsAs_iff _ _).mpr (.inl rfl))
      refine ⟨_, has, ?_⟩
      rw [if_pos own, c.movedName_own has own, movedName_self]
    · refine ⟨k, has, ?_⟩
      rw [if_neg]
      exact fun own => (off k (met has own other)).1 rfl

end

theorem renameClear_of_exact
    (exact_rename : RenameExact c.families (renameTable (granted l) c.families source.path target.path).1 source target) :
    RenameClear c.families source target := by
  have result := renameTable_granted l c.families source target
  rw [result] at exact_rename
  have as_one := replaceAll_data c.families source.cfName target.cfName
    (renamedNames l c.families source.cfName target.cfName)
  have belong : ∀ s ∈ source.cfName :: renamedNames l c.families source.cfName target.cfName,
      Belongs source.cfName s := by
    intro s s_in
    rcases mem_cons.mp s_in with rfl | listed
    · exact .inl rfl
    · exact .inr (mem_renamedNames.mp listed).2
  -- a family in the way is not where it was
  have hit_foreign : ∀ {n w}, c.families.Has n w → (∃ s ∈ source.cfName :: renamedNames l c.families source.cfName
      target.cfName, s = n ∨ movedName source.cfName target.cfName s = n) → w.1.tableName = some source := by
    intro n w has hit
    by_contra foreign
    have still := exact_rename.kept n w has foreign
    rw [as_one] at still
    exact not_home belong (c.alone has) hit still
  have free : ¬ c.families.HasKey target.cfName := by
    intro taken
    obtain ⟨w, has⟩ := hasKey_iff.mp taken
    have own := hit_foreign has ⟨_, mem_cons_self, .inr (movedName_self _ _)⟩
    have lost : ∀ k, ¬ (c.families.replace true true source.cfName target.cfName).Has k w := by
      intro k left
      rcases has_data.mp left with ⟨differ, -, data⟩ | ⟨-, away, there⟩
      · exact differ (c.alone has _ data)
      · exact away (c.alone has _ there)
    have arrived := (exact_rename.moved _ w has own).1
    generalize (w.1.on target).cfName = k at arrived
    revert k
    exact within_of_replaceAll (fun _ _ => id) lost
  have listed : ∀ {n}, c.families.HasKey n → (∃ key, n = idxCfName source.cfName key) →
      n ∈ renamedNames l c.families source.cfName target.cfName := by
    rintro n there ⟨key, rfl⟩
    obtain ⟨w, has⟩ := hasKey_iff.mp there
    refine mem_renamedNames.mpr ⟨(has_data.mpr (.inr ⟨idxCfName_ne _ key, ?_, has⟩)).hasKey, key, rfl⟩
    exact fun same => free (same ▸ there)
  have source_in : ∀ {n}, c.families.HasKey n → ReadsAs source n →
      n ∈ source.cfName :: renamedNames l c.families source.cfName target.cfName := by
    intro n there reads
    rcases (readsAs_iff source n).mp reads with rfl | index
    · exact mem_cons_self
    · exact mem_cons_of_mem _ (listed there index)
  refine ⟨fun n w has reads => ?_, free, fun n w has own taken => ?_, fun there reads => ?_⟩
  · exact hit_foreign has ⟨n, source_in has.hasKey reads, .inl rfl⟩
  · obtain ⟨v, there⟩ := hasKey_iff.mp taken
    have arrived := (exact_rename.moved n w has own).1
    have met : v.1.tableName = some source := hit_foreign there
      ⟨n, source_in has.hasKey (c.reads_own has own), .inr (c.movedName_own has own).symm⟩
    exact (exact_rename.moved _ v there met).2 arrived.hasKey
  · obtain ⟨w, has⟩ := hasKey_iff.mp there
    have own := hit_foreign has ⟨_, mem_cons_self, .inl rfl⟩
    have arrived := (exact_rename.moved _ w has own).1
    rw [c.movedName_own has own, movedName_self] at arrived
    have differ : source.cfName ≠ target.cfName := fun same => free (same ▸ there)
    have moved : (c.families.replace true true source.cfName target.cfName).Has target.cfName w :=
      has_data.mpr (.inl ⟨differ, rfl, has⟩)
    have only : ∀ k, (c.families.replace true true source.cfName target.cfName).Has k w → k = target.cfName := by
      intro k left
      rcases has_data.mp left with ⟨-, same, -⟩ | ⟨other, -, also⟩
      · exact same
      · exact absurd (c.alone has _ also) other
    have index : ∃ key, target.cfName = idxCfName source.cfName key := by
      rcases (readsAs_iff _ _).mp reads with same | index
      · exact absurd same.symm differ
      · exact index
    -- the loop takes the data family for an index and moves it on
    exact not_home (fun s s_in => belong s (mem_cons_of_mem _ s_in)) only
      ⟨_, mem_renamedNames.mpr ⟨moved.hasKey, index⟩, .inl rfl⟩ arrived

end

theorem renameExact_iff (c : Catalog D) (l : Listing) (source target : TableName) :
    RenameExact c.families (renameTable (granted l) c.families source.path target.path).1 source target ↔
      RenameClear c.families source target :=
  ⟨renameClear_of_exact, renameExact_of_clear⟩

/-- DROP and RENAME TABLE and DROP DATABASE touch what is theirs only, just when no other family has
a name that reads as theirs. -/
theorem ddl_exact_iff (c : Catalog D) (l : Listing) :
    (∀ t, DropExact c l t ↔ ∀ n w, c.families.Has n w → ReadsAs t n → w.1.tableName = some t) ∧ (∀ source target,
      RenameExact c.families (renameTable (granted l) c.families source.path target.path).1 source target ↔
        RenameClear c.families source target) ∧
    ∀ db, (∀ ch ∈ db, ch ≠ '/' ∧ ch ≠ '\\') → db ≠ [] → (DropDatabaseExact c l db ↔
      (∀ n w, c.families.Has n w → db ++ cfDbTableSep <+: n → w.1.db = some db) ∧
      ∀ n w, c.families.Has n w → w.1.db = some db → mariadbTempNameMarker ∉ db) :=
  ⟨dropExact_iff c l, renameExact_iff c l, fun _ plain some_char => dropDatabaseExact_iff c l plain some_char⟩

def Catalog.empty : Catalog D := ⟨SortedMap.empty, fun n w has => absurd has (SortedMap.has_empty n w)⟩

def Catalog.add (c : Catalog D) (w : CfMaker × D) : Catalog D :=
  ⟨c.families.put w.1.cfName w, fun n v has => by
    rcases SortedMap.has_put.mp has with ⟨rfl, rfl⟩ | ⟨-, has⟩
    · rfl
    · exact c.named n v has⟩

instance (cf n : Name) : Decidable (Belongs cf n) :=
  decidable_of_iff (n = cf ∨ (cf ++ cfIndexInfix).isPrefixOf n = true) <| by
    refine or_congr_right ?_
    rw [List.isPrefixOf_iff_prefix]
    exact ⟨fun ⟨key, same⟩ => ⟨key, same.symm⟩, fun ⟨key, same⟩ => ⟨key, same.symm⟩⟩

instance (t : TableName) (n : Name) : Decidable (ReadsAs t n) := decidable_of_iff _ (readsAs_iff t n).symm

def nameT : TableName := tableT.name
def nameU : TableName := { nameT with table := ['u'], table_plain := by decide }
def nameV : TableName := ⟨['e'], ['v'], by decide, by decide⟩

/- `d.t` with an index, and `e.v`. -/
def threeFamilies : Catalog Nat :=
  ((Catalog.empty.add (.table (.data nameT), 1)).add (.table (.index nameT ['i']), 2)).add (.table (.data nameV), 3)

theorem ddl_exact_iff_three_families : DropExact threeFamilies inOrder nameT ∧ RenameExact threeFamilies.families
      (renameTable (granted inOrder) threeFamilies.families nameT.path nameU.path).1 nameT nameU ∧
    DropDatabaseExact threeFamilies inOrder ['d'] := by
  obtain ⟨drop, rename, database⟩ := ddl_exact_iff threeFamilies inOrder
  have own : ∀ e ∈ threeFamilies.families.entries, ReadsAs nameT e.1 → e.2.1.tableName = some nameT := by decide
  refine ⟨(drop nameT).mpr fun n w has => own (n, w) has, (rename nameT nameU).mpr ⟨fun n w has => own (n, w) has,
    by decide, fun n w has => ?_, by decide⟩, (database ['d'] (by simp) (by simp)).mpr ⟨fun n w has => ?_,
    fun _ _ _ _ => by decide⟩⟩
  · have free : ∀ e ∈ threeFamilies.families.entries, e.2.1.tableName = some nameT →
        ¬ threeFamilies.families.HasKey (e.2.1.on nameU).cfName := by decide
    exact free (n, w) has
  · have begins : ∀ e ∈ threeFamilies.families.entries, ['d'] ++ cfDbTableSep <+: e.1 → e.2.1.db = some ['d'] := by
      decide
    exact begins (n, w) has

/- `d.t__idx_x`, and `a.b__t`, whose family has the name of that of `a__b.t`. -/
def nameIdx : TableName := { nameT with table := ['t', '_', '_', 'i', 'd', 'x', '_', 'x'], table_plain := by decide }
def nameAB : TableName := ⟨['a'], ['b', '_', '_', 't'], by decide, by decide⟩
def nameA : TableName := { nameT with db := ['a', '_', '_', 'b'], db_plain := by decide }

/-- DROP TABLE t drops the rows of `t__idx_x`, RENAME takes that family with it, RENAME to `a__b.t`
drops `a.b__t`, DROP DATABASE a drops `a__b.t`. -/
theorem ddl_not_exact : let c := (Catalog.empty.add (.table (.data nameT), 1)).add (.table (.data nameIdx), 2)
    let twins := (Catalog.empty.add (.table (.data nameT), 1)).add (.table (.data nameAB), 2)
    let other : Catalog Nat := Catalog.empty.add (.table (.data nameA), 1)
    (¬ DropExact c inOrder nameT ∧ (deleteTable (dropGranted inOrder) c.families nameT.path).1.entries = []) ∧
    (¬ RenameExact c.families (renameTable (granted inOrder) c.families nameT.path nameU.path).1 nameT nameU ∧
      (renameTable (granted inOrder) c.families nameT.path nameU.path).1.lookup nameIdx.cfName = none) ∧
    (¬ RenameExact twins.families (renameTable (granted inOrder) twins.families nameT.path nameA.path).1 nameT nameA ∧
      (renameTable (granted inOrder) twins.families nameT.path nameA.path).1.lookup nameAB.cfName =
        some (.table (.data nameT), 1)) ∧
    ¬ DropDatabaseExact other inOrder ['a'] ∧
    (tidesdbHtonDropDatabase (some inOrder) (fun _ => .success) other.families (dbPath ['a'])).entries = [] := by
  refine ⟨⟨fun exact_drop => ?_, by decide⟩, ⟨fun exact_rename => ?_, by decide⟩, ⟨fun exact_rename => ?_, by decide⟩,
    fun exact_drop => ?_, by decide⟩
  · have kept := (exact_drop nameIdx.cfName (.table (.data nameIdx), 2)).mpr ⟨by decide, by decide⟩
    exact absurd kept (by decide)
  · have kept := exact_rename.kept nameIdx.cfName (.table (.data nameIdx), 2) (by decide) (by decide)
    exact absurd kept (by decide)
  · have kept := exact_rename.kept nameAB.cfName (.table (.data nameAB), 2) (by decide) (by decide)
    exact absurd kept (by decide)
  · have kept := (exact_drop nameA.cfName (.table (.data nameA), 1)).mpr ⟨by decide, by decide⟩
    exact absurd kept (by decide)

end TidesdbMysql
