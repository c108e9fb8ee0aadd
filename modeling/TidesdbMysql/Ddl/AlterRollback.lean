import TidesdbMysql.Ddl.FamilyCalls
import TidesdbMysql.Ddl.IndexAlter

/-! An ALTER that is rolled back, with every answer of the engine on the way: `prepare_inplace_alter_table`, a build that
gets some way, and `commit_inplace_alter_table` with `commit` false. -/
namespace TidesdbMysql
open Base List Base.SortedMap

variable {Ty : Type}
variable {names : List Name}

/-- `undo` answers the drops of the rollback, `filled` is what the build left in a new family,
`flushed` what the data family holds once the FULLTEXT counters are written. -/
structure RollbackAnswers extends FamilyAnswers where
  staged : Bool
  filled : Name → Option Nat
  flushed : Option (Option Nat)
  undo : Name → Rc

/- `created` is not in the source. -/
structure Prepared where
  families : Families (Option Nat)
  adds : List (Name × KeyDef)
  created : List Name

/-- The first loop of `prepare_inplace_alter_table`; the flag says that it has given up. -/
def prepareCalls (ans : FamilyAnswers) (cfName : Name) (a : IndexAlter Ty) : List Nat → Prepared → Prepared × Bool
  | [], st => (st, false)
  | keyNum :: rest, st =>
    match a.addedKey keyNum with
    | none => prepareCalls ans cfName a rest st
    | some key =>
      let idxCf := idxCfName cfName key.name
      match recreate ans st.families idxCf none with
      | (fs, .success) =>
        if ans.found idxCf then prepareCalls ans cfName a rest ⟨fs, st.adds ++ [(idxCf, key)], st.created ++ [idxCf]⟩
        else (⟨fs, st.adds, st.created ++ [idxCf]⟩, true)
      | (fs, _) => (⟨fs, st.adds, st.created⟩, true)

/- The drops of `add_cf_names`, whose answers are not looked at. -/
def undoAdds (undo : Name → Rc) (names : List Name) (fs : Families (Option Nat)) : Families (Option Nat) :=
  names.foldl (fun fs n => dropFamily fs n (undo n)) fs

section
variable (ans : RollbackAnswers) (t : IndexedTable) (a : IndexAlter Ty)

def prepared : Prepared × Bool := prepareCalls ans.toFamilyAnswers t.cfName a a.indexAddBuffer ⟨t.families, [], []⟩

def fillPrepared (st : Prepared) : Families (Option Nat) :=
  st.families.putAll (st.adds.map fun add => (add.1, ans.filled add.1))

def flushCounters (fs : Families (Option Nat)) : Families (Option Nat) :=
  match ans.flushed with
  | none => fs
  | some v => if fs.HasKey t.cfName then fs.put t.cfName v else fs

def beforeRollback : Families (Option Nat) :=
  match prepared ans t a with
  | (st, failed) =>
    if failed || !ans.staged then st.families
    else flushCounters ans t (fillPrepared ans st)

/-- The table after an ALTER that ends with `commit` false. -/
def rolledBack : IndexedTable :=
  { t with families := undoAdds ans.undo ((prepared ans t a).1.adds.map (·.1)) (beforeRollback ans t a) }

end

structure Undone (t t' : IndexedTable) (created : List Name) : Prop where
  kept : ∀ n v, t.families.Has n v → t'.families.Has n v
  bound : t.Bound → t'.Bound
  gone : ∀ n ∈ created, ¬ t'.families.HasKey n

section
variable (ans : FamilyAnswers)

/- The names that the prepare phase comes to: it gives up at a family that cannot be made or is not found then. -/
def namesReached (fs : Families (Option Nat)) : List Name → List Name
  | [] => []
  | n :: rest => n :: if Made ans fs n ∧ ans.found n = true then namesReached fs rest else []

end

section
variable (ans : RollbackAnswers) (t : IndexedTable) (a : IndexAlter Ty) (cfName : Name) (buffer : List Nat)

def IndexAlter.addedNames : List Name :=
  (a.addedKeys buffer).map fun key => idxCfName cfName key.name

/-- No family that is there is dropped for one to be added, and a family that is made is found and dropped again. -/
def CleanAdds : Prop :=
  ∀ n ∈ namesReached ans.toFamilyAnswers t.families (a.addedNames t.cfName a.indexAddBuffer),
    (t.families.HasKey n → ans.drop n ≠ .success) ∧
      (¬ t.families.HasKey n → ans.create n = .success → ans.found n = true ∧ ans.undo n = .success)
  deriving Decidable

/-- If the prepare phase succeeds, the build does not end so well that it changes the counters in the data family. -/
def CountersKept : Prop :=
  ans.staged = true → (∀ n ∈ namesReached ans.toFamilyAnswers t.families (a.addedNames t.cfName a.indexAddBuffer),
    Made ans.toFamilyAnswers t.families n ∧ ans.found n = true) →
      ∀ v ∈ ans.flushed, t.families.HasKey t.cfName → t.families.Has t.cfName v
  deriving Decidable

end

section Calls

variable {ans : FamilyAnswers} {fs₀ : Families (Option Nat)}

theorem namesReached_subset (names : List Name) : namesReached ans fs₀ names ⊆ names := by
  induction names with
  | nil => simp [namesReached]
  | cons n rest ih =>
    rw [namesReached]
    split
    · exact cons_subset_cons n ih
    · simp

structure PrepareSpec (ans : FamilyAnswers) (fs₀ : Families (Option Nat)) (names : List Name) (st st' : Prepared)
    (gaveUp : Bool) : Prop where
  passed : gaveUp = false ↔ ∀ n ∈ names, Made ans fs₀ n ∧ ans.found n = true
  others : ∀ n v, n ∉ names → (st'.families.Has n v ↔ st.families.Has n v)
  made : ∀ n ∈ names, Made ans fs₀ n → st'.families.HasKey n
  failed : ∀ n ∈ names, ¬ Made ans fs₀ n → ∀ v, st'.families.Has n v ↔ ans.drop n ≠ .success ∧ fs₀.Has n v
  created : ∀ n, n ∈ st'.created ↔ n ∈ st.created ∨ n ∈ names ∧ Made ans fs₀ n
  adds : ∀ n, n ∈ st'.adds.map (·.1) ↔ n ∈ st.adds.map (·.1) ∨ n ∈ names ∧ Made ans fs₀ n ∧ ans.found n = true

theorem PrepareSpec.nothing (st : Prepared) : PrepareSpec ans fs₀ [] st st false :=
  ⟨by simp, fun _ _ _ => Iff.rfl, by simp, by simp, by simp, by simp⟩

variable {st : Prepared} {n : Name}

theorem PrepareSpec.refused (same : ∀ v, st.families.Has n v ↔ fs₀.Has n v) (refused : ¬ Made ans fs₀ n) :
    PrepareSpec ans fs₀ [n] st ⟨dropFamily st.families n (ans.drop n), st.adds, st.created⟩ true where
  passed := by simp [refused]
  others m v other := by simp [has_dropFamily, mem_singleton.not.mp other]
  made m mem made := by
    cases mem_singleton.mp mem
    exact absurd made refused
  failed m mem _ v := by
    cases mem_singleton.mp mem
    simp [has_dropFamily, same]
  created m := by
    constructor
    · exact .inl
    · rintro (before | ⟨mem, made⟩)
      · exact before
      · exact absurd (mem_singleton.mp mem ▸ made) refused
  adds m := by
    constructor
    · exact .inl
    · rintro (before | ⟨mem, made, -⟩)
      · exact before
      · exact absurd (mem_singleton.mp mem ▸ made) refused

theorem PrepareSpec.lost (made : Made ans fs₀ n) (lost : ans.found n = false) :
    PrepareSpec ans fs₀ [n] st ⟨(dropFamily st.families n (ans.drop n)).put n none, st.adds, st.created ++ [n]⟩ true where
  passed := by simp [lost]
  others m v other := by simp [has_dropFamily, mem_singleton.not.mp other]
  made m mem _ := by simp [mem_singleton.mp mem]
  failed m mem refused := absurd (mem_singleton.mp mem ▸ made) refused
  created m := by
    have here : m = n → Made ans fs₀ m := fun same => same ▸ made
    simp [and_iff_left_of_imp here]
  adds m := by
    constructor
    · exact .inl
    · rintro (before | ⟨mem, -, found⟩)
      · exact before
      · rw [mem_singleton.mp mem, lost] at found
        cases found

theorem PrepareSpec.onward {st st' : Prepared} {gaveUp : Bool} {key : KeyDef} (made : Made ans fs₀ n)
    (found : ans.found n = true) (apart : n ∉ names)
    (rest : PrepareSpec ans fs₀ names ⟨(dropFamily st.families n (ans.drop n)).put n none, st.adds ++ [(n, key)], st.created ++ [n]⟩ st' gaveUp) :
    PrepareSpec ans fs₀ (n :: names) st st' gaveUp where
  passed := by simp [rest.passed, made, found]
  others m v other := by
    obtain ⟨elsewhere, later⟩ := not_or.mp (mem_cons.not.mp other)
    simp [rest.others m v later, has_dropFamily, elsewhere]
  made m mem made_m := by
    rcases mem_cons.mp mem with rfl | later
    · exact hasKey_iff.mpr ⟨none, (rest.others m none apart).mpr (by simp)⟩
    · exact rest.made m later made_m
  failed m mem refused := by
    rcases mem_cons.mp mem with rfl | later
    · exact absurd made refused
    · exact rest.failed m later refused
  created m := by
    have here : m = n → Made ans fs₀ m := fun same => same ▸ made
    simp [rest.created, or_and_right, and_iff_left_of_imp here, or_assoc]
  adds m := by
    have here : m = n → Made ans fs₀ m ∧ ans.found m = true := fun same => same ▸ ⟨made, found⟩
    simp only [rest.adds, map_append, map_cons, map_nil, mem_append, mem_cons, not_mem_nil,
      or_false, or_and_right, and_iff_left_of_imp here, or_assoc]

theorem prepareCalls_spec {cfName : Name} {a : IndexAlter Ty} {buffer : List Nat}
    (distinct : (a.addedNames cfName buffer).Nodup)
    (same : ∀ n ∈ a.addedNames cfName buffer, ∀ v, st.families.Has n v ↔ fs₀.Has n v) :
    PrepareSpec ans fs₀ (namesReached ans fs₀ (a.addedNames cfName buffer)) st (prepareCalls ans cfName a buffer st).1
      (prepareCalls ans cfName a buffer st).2 := by
  induction buffer generalizing st with
  | nil => exact .nothing st
  | cons k rest ih =>
    rw [prepareCalls]
    cases added : a.addedKey k with
    | none =>
      have names : a.addedNames cfName (k :: rest) = a.addedNames cfName rest := by
        simp [IndexAlter.addedNames, IndexAlter.addedKeys, added]
      rw [names] at distinct same ⊢
      exact ih distinct same
    | some key =>
      have names : a.addedNames cfName (k :: rest) = idxCfName cfName key.name :: a.addedNames cfName rest := by
        simp [IndexAlter.addedNames, IndexAlter.addedKeys, added]
      rw [names] at distinct same ⊢
      dsimp only
      generalize idxCfName cfName key.name = n at distinct same ⊢
      obtain ⟨apart, distinct_rest⟩ := nodup_cons.mp distinct
      have same_here := same n (mem_cons_self ..)
      rw [namesReached]
      rcases recreate_cases ans st.families n none with ⟨made, call⟩ | ⟨refused, rc, failed, call⟩
      · rw [made_congr same_here] at made
        rw [call]
        cases found : ans.found n with
        | false =>
          rw [if_neg (by simp)]
          exact .lost made found
        | true =>
          rw [if_pos ⟨made, rfl⟩]
          refine .onward made found (fun mem => apart (namesReached_subset _ mem)) (ih distinct_rest ?_)
          intro m mem v
          have elsewhere : m ≠ n := fun here => apart (here ▸ mem)
          simpa [has_dropFamily, elsewhere] using same m (mem_cons_of_mem _ mem) v
      · rw [made_congr same_here] at refused
        rw [call, if_neg fun both => refused both.1]
        cases rc with
        | success => exact absurd rfl failed
        | _ => exact .refused same_here refused

end Calls

theorem has_undoAdds {undo : Name → Rc} {fs : Families (Option Nat)} {n : Name} {v : Option Nat} :
    (undoAdds undo names fs).Has n v ↔ ¬ (n ∈ names ∧ undo n = .success) ∧ fs.Has n v := by
  induction names generalizing fs with
  | nil => simp [undoAdds]
  | cons first rest ih =>
    have step : undoAdds undo (first :: rest) fs = undoAdds undo rest (dropFamily fs first (undo first)) := rfl
    rw [step, ih, has_dropFamily, mem_cons]
    constructor
    · rintro ⟨later, here, has⟩
      refine ⟨?_, has⟩
      rintro ⟨rfl | mem, done⟩
      · exact here ⟨rfl, done⟩
      · exact later ⟨mem, done⟩
    · rintro ⟨kept, has⟩
      refine ⟨fun later => kept ⟨.inr later.1, later.2⟩, fun here => kept ⟨.inl here.1, here.1 ▸ here.2⟩, has⟩

theorem idxCfName_ne_cfName (cfName key : Name) : idxCfName cfName key ≠ cfName := by
  intro same
  have longer := congrArg length same
  simp [idxCfName, cfIndexInfix] at longer

theorem cfName_not_added {a : IndexAlter Ty} {cfName : Name} {buffer : List Nat} : cfName ∉ a.addedNames cfName buffer := by
  intro mem
  obtain ⟨key, -, same⟩ := mem_map.mp mem
  exact idxCfName_ne_cfName cfName key.name same

section Rollback

variable {ans : RollbackAnswers} {t : IndexedTable} {a : IndexAlter Ty}

variable {n : Name} {v : Option Nat}

theorem has_flushCounters {fs : Families (Option Nat)} (other : n ≠ t.cfName) :
    (flushCounters ans t fs).Has n v ↔ fs.Has n v := by
  unfold flushCounters
  split
  · rfl
  · split
    · simp [other]
    · rfl

variable (ans t) in
theorem flushCounters_kept_iff (fs : Families (Option Nat)) :
    (∀ v, fs.Has t.cfName v → (flushCounters ans t fs).Has t.cfName v) ↔
      ∀ v ∈ ans.flushed, fs.HasKey t.cfName → fs.Has t.cfName v := by
  unfold flushCounters
  cases ans.flushed with
  | none => simp
  | some w =>
    dsimp only
    constructor
    · rintro kept v ⟨⟩ there
      rw [if_pos there] at kept
      obtain ⟨v, has⟩ := hasKey_iff.mp there
      have same : v = w := by simpa using kept v has
      exact same ▸ has
    · intro same v has
      have there : fs.HasKey t.cfName := hasKey_iff.mpr ⟨v, has⟩
      rw [if_pos there]
      simpa using has.unique (same w rfl there)

theorem has_fillPrepared {st : Prepared} (other : n ∉ st.adds.map (·.1)) :
    (fillPrepared ans st).Has n v ↔ st.families.Has n v := by
  have names : (st.adds.map fun add => (add.1, ans.filled add.1)).map (·.1) = st.adds.map (·.1) := by simp
  rw [fillPrepared, has_putAll_over, names]
  constructor
  · rintro (put | ⟨-, has⟩)
    · exact absurd (names ▸ key_of_has_putAll put) other
    · exact has
  · exact fun has => .inr ⟨other, has⟩

theorem beforeRollback_others (other : n ∉ (prepared ans t a).1.adds.map (·.1))
    (index : n ≠ t.cfName) : (beforeRollback ans t a).Has n v ↔ (prepared ans t a).1.families.Has n v := by
  unfold beforeRollback
  dsimp only
  split
  · rfl
  · rw [has_flushCounters index, has_fillPrepared other]

theorem beforeRollback_hasKey (has : (prepared ans t a).1.families.HasKey n) (index : n ≠ t.cfName) :
    (beforeRollback ans t a).HasKey n := by
  unfold beforeRollback
  dsimp only
  split
  · exact has
  · simp only [hasKey_iff, has_flushCounters index]
    exact hasKey_iff.mp (hasKey_putAll.mpr (.inr has))

variable (ans t) in
theorem prepared_spec (names : (a.keys.map KeyDef.name).Nodup) (buffer : a.indexAddBuffer.Nodup) :
    PrepareSpec ans.toFamilyAnswers t.families
      (namesReached ans.toFamilyAnswers t.families (a.addedNames t.cfName a.indexAddBuffer)) ⟨t.families, [], []⟩
      (prepared ans t a).1 (prepared ans t a).2 :=
  prepareCalls_spec (addedKeys_names names buffer t.cfName) fun _ _ _ => Iff.rfl

section Names

variable {names : List Name}
  (spec : PrepareSpec ans.toFamilyAnswers t.families names ⟨t.families, [], []⟩ (prepared ans t a).1 (prepared ans t a).2)
  (indexes : t.cfName ∉ names)

variable {n : Name}

include spec in
theorem mem_prepared_adds : n ∈ (prepared ans t a).1.adds.map (·.1) ↔
    n ∈ names ∧ Made ans.toFamilyAnswers t.families n ∧ ans.found n = true := by
  simpa using spec.adds n

include spec in
theorem mem_prepared_created : n ∈ (prepared ans t a).1.created ↔
    n ∈ names ∧ Made ans.toFamilyAnswers t.families n := by
  simpa using spec.created n

include spec in
theorem rolledBack_others (other : n ∉ names) (index : n ≠ t.cfName) (v : Option Nat) :
    (rolledBack ans t a).families.Has n v ↔ t.families.Has n v := by
  have unlisted : n ∉ (prepared ans t a).1.adds.map (·.1) := fun listed => other ((mem_prepared_adds spec).mp listed).1
  rw [rolledBack, has_undoAdds, beforeRollback_others unlisted index, spec.others n v other]
  exact and_iff_right fun listed => unlisted listed.1

include spec indexes in
theorem rolledBack_failed (mem : n ∈ names) (failed : ¬ Made ans.toFamilyAnswers t.families n)
    (v : Option Nat) : (rolledBack ans t a).families.Has n v ↔ ans.drop n ≠ .success ∧ t.families.Has n v := by
  have unlisted : n ∉ (prepared ans t a).1.adds.map (·.1) := fun listed => failed ((mem_prepared_adds spec).mp listed).2.1
  have index : n ≠ t.cfName := fun same => indexes (same ▸ mem)
  rw [rolledBack, has_undoAdds, beforeRollback_others unlisted index, spec.failed n mem failed v]
  exact and_iff_right fun listed => unlisted listed.1

include spec indexes in
theorem rolledBack_made (mem : n ∈ names) (made : Made ans.toFamilyAnswers t.families n) :
    ¬ (rolledBack ans t a).families.HasKey n ↔ ans.found n = true ∧ ans.undo n = .success := by
  have listed : n ∈ (prepared ans t a).1.adds.map (·.1) ↔ ans.found n = true := by
    simp [mem_prepared_adds spec, mem, made]
  have index : n ≠ t.cfName := fun same => indexes (same ▸ mem)
  obtain ⟨v, there⟩ := hasKey_iff.mp (beforeRollback_hasKey (spec.made n mem made) index)
  simp only [rolledBack, hasKey_iff, has_undoAdds, listed]
  constructor
  · intro gone
    by_contra kept
    exact gone ⟨v, kept, there⟩
  · rintro dropped ⟨w, kept, -⟩
    exact kept dropped

include spec indexes in
theorem rolledBack_data : (∀ v, t.families.Has t.cfName v → (rolledBack ans t a).families.Has t.cfName v) ↔
    (ans.staged = true → (prepared ans t a).2 = false →
      ∀ v ∈ ans.flushed, t.families.HasKey t.cfName → t.families.Has t.cfName v) := by
  have unlisted : t.cfName ∉ (prepared ans t a).1.adds.map (·.1) := fun listed => indexes ((mem_prepared_adds spec).mp listed).1
  have undone : ∀ v, (rolledBack ans t a).families.Has t.cfName v ↔ (beforeRollback ans t a).Has t.cfName v := by
    intro v
    rw [rolledBack, has_undoAdds]
    exact and_iff_right fun listed => unlisted listed.1
  have before : ∀ v, (prepared ans t a).1.families.Has t.cfName v ↔ t.families.Has t.cfName v :=
    fun v => spec.others t.cfName v indexes
  simp only [undone]
  unfold beforeRollback
  dsimp only
  cases staged : ans.staged with
  | false => simp [before]
  | true =>
    cases gave_up : (prepared ans t a).2 with
    | true => simp [before]
    | false =>
      have kept := flushCounters_kept_iff ans t (fillPrepared ans (prepared ans t a).1)
      simp only [hasKey_iff, has_fillPrepared unlisted, before] at kept
      simpa [hasKey_iff] using kept

end Names

theorem Undone.of_kept {t' : IndexedTable} {created : List Name} (keys : t'.keys = t.keys) (primary : t'.primaryKey = t.primaryKey)
    (name : t'.cfName = t.cfName) (kept : ∀ n v, t.families.Has n v → t'.families.Has n v)
    (gone : ∀ n ∈ created, ¬ t'.families.HasKey n) : Undone t t' created := by
  refine ⟨kept, ?_, gone⟩
  intro bound i key listed secondary
  rw [keys] at listed
  rw [primary] at secondary
  rw [name]
  exact kept _ _ (bound i key listed secondary)

/-- A rolled back ALTER leaves all as it was, just when no added family was in the way, each one
made is dropped again, and no counter changed. -/
theorem rollback_undoes_iff (names : (a.keys.map KeyDef.name).Nodup) (buffer : a.indexAddBuffer.Nodup) :
    Undone t (rolledBack ans t a) (prepared ans t a).1.created ↔ CleanAdds ans t a ∧ CountersKept ans t a := by
  have spec := prepared_spec ans t names buffer
  have indexes : t.cfName ∉ namesReached ans.toFamilyAnswers t.families (a.addedNames t.cfName a.indexAddBuffer) :=
    fun mem => cfName_not_added (namesReached_subset _ mem)
  have data := rolledBack_data spec indexes
  rw [spec.passed] at data
  constructor
  · intro undone
    refine ⟨?_, data.mp (undone.kept t.cfName)⟩
    intro n mem
    constructor
    · intro there dropped
      obtain ⟨v, has⟩ := hasKey_iff.mp there
      by_cases made : Made ans.toFamilyAnswers t.families n
      · exact undone.gone n ((mem_prepared_created spec).mpr ⟨mem, made⟩) (hasKey_iff.mpr ⟨v, undone.kept n v has⟩)
      · exact ((rolledBack_failed spec indexes mem made v).mp (undone.kept n v has)).1 dropped
    · intro absent create
      have made : Made ans.toFamilyAnswers t.families n := ⟨fun stays => absent stays.1, create⟩
      exact (rolledBack_made spec indexes mem made).mp (undone.gone n ((mem_prepared_created spec).mpr ⟨mem, made⟩))
  · rintro ⟨clean, counters⟩
    refine .of_kept rfl rfl rfl ?_ ?_
    · intro n v has
      by_cases mem : n ∈ namesReached ans.toFamilyAnswers t.families (a.addedNames t.cfName a.indexAddBuffer)
      · have there : t.families.HasKey n := hasKey_iff.mpr ⟨v, has⟩
        have undropped := (clean n mem).1 there
        exact (rolledBack_failed spec indexes mem (fun made => made.1 ⟨there, undropped⟩) v).mpr ⟨undropped, has⟩
      · by_cases index : n = t.cfName
        · subst index
          exact data.mpr counters v has
        · exact (rolledBack_others spec mem index v).mpr has
    · intro n created
      obtain ⟨mem, made⟩ := (mem_prepared_created spec).mp created
      have absent : ¬ t.families.HasKey n := fun there => made.1 ⟨there, (clean n mem).1 there⟩
      exact (rolledBack_made spec indexes mem made).mpr ((clean n mem).2 absent made.2)

end Rollback

/- The indexes `a` and `b` of a table, and an ALTER that drops `a` and adds another index of that name. -/
section

def sameNameAgain : IndexAlter Unit := indexStatement [⟨['a'], false, 3⟩, ⟨['b'], false, 2⟩] [0] [0] [.dropIndex, .addIndex]

def newName : IndexAlter Unit := indexStatement [⟨['a'], false, 1⟩, ⟨['b'], false, 2⟩, ⟨['c'], false, 3⟩] [2] [] [.addIndex]

def engineWell : RollbackAnswers where
  drop _ := .success
  create _ := .success
  found _ := true
  staged := true
  filled _ := none
  flushed := none
  undo _ := .success

theorem dropped_index_lost :
    (checkIfSupportedInplaceAlter false noColumns noColumns sameNameAgain.flags).accepted = true ∧
      ¬ Undone twoIndexes (rolledBack engineWell twoIndexes sameNameAgain)
        (prepared engineWell twoIndexes sameNameAgain).1.created := by
  refine ⟨by decide, ?_⟩
  intro undone
  have kept := undone.kept (idxCfName ['d'] ['a']) (some 1) (by decide)
  revert kept
  decide

theorem new_index_undone : Undone twoIndexes (rolledBack engineWell twoIndexes newName)
    (prepared engineWell twoIndexes newName).1.created :=
  (rollback_undoes_iff (by decide) (by decide)).mpr (by decide)

end

end TidesdbMysql
