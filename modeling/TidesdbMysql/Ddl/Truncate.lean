import TidesdbMysql.Ddl.FamilyCalls
import TidesdbMysql.Table.Consistency

/-! `delete_all_rows`: the families of a table are dropped and created again, with every answer of the engine, and the
writes after that go through the handles of the share. -/
namespace TidesdbMysql
open Base List Function Base.SortedMap

variable {handle : Option Nat} {h : Nat}

namespace Truncate

inductive Stored where
  | row (record : Record)
  | entry (value : Bytes)
  deriving DecidableEq

abbrev Content := SortedMap Bytes Stored

structure Engine where
  families : Families (Nat × Content)
  next : Nat

/-- `share->cf` and `share->idx_cfs` by secondary key, `none` for null. -/
structure Share where
  cfName : Name
  idxCfNames : List Name
  distinct : (cfName :: idxCfNames).Nodup
  cf : Option Nat
  idxCfs : Nat → Option Nat

/- `tidesdb_get_column_family` -/
def getFamily (ans : FamilyAnswers) (fs : Families (Nat × Content)) (n : Name) : Option Nat :=
  if ans.found n then (fs.lookup n).map (·.1) else none

/-- The loop over the secondary indexes from the i-th on. A family that cannot be created costs the index its handle. -/
def recreateIndexes (ans : FamilyAnswers) : Nat → List Name → Engine → (Nat → Option Nat) → Engine × (Nat → Option Nat)
  | _, [], e, idxCfs => (e, idxCfs)
  | i, n :: rest, e, idxCfs =>
    if idxCfs i = none then recreateIndexes ans (i + 1) rest e idxCfs
    else
      match recreate ans e.families n (e.next, .empty) with
      | (fs, .success) =>
        recreateIndexes ans (i + 1) rest ⟨fs, e.next + 1⟩ (Function.update idxCfs i (getFamily ans fs n))
      | (fs, _) => recreateIndexes ans (i + 1) rest ⟨fs, e.next⟩ (Function.update idxCfs i none)

def deleteAllRows (ans : FamilyAnswers) (e : Engine) (s : Share) : HaCode × Engine × Share :=
  let dropped := dropFamily e.families s.cfName (ans.drop s.cfName)
  if ans.drop s.cfName ≠ .success ∧ ans.drop s.cfName ≠ .notFound then
    (tdbRcToHa (ans.drop s.cfName), ⟨dropped, e.next⟩, s)
  else
    -- the drop and the create of `recreate`, with the answer of the drop looked at
    match recreate ans e.families s.cfName (e.next, .empty) with
    | (fs, .success) =>
      match getFamily ans fs s.cfName with
      | none => (.generic, ⟨fs, e.next + 1⟩, { s with cf := none })
      | some h =>
        match recreateIndexes ans 0 s.idxCfNames ⟨fs, e.next + 1⟩ s.idxCfs with
        | (e, idxCfs) => (.ok, e, { s with cf := some h, idxCfs })
    | (fs, rc) => (tdbRcToHa rc, ⟨fs, e.next⟩, s)

def mapOp {V W : Type} (f : V → W) : CfOp V → CfOp W
  | .put k v => .put k (f v)
  | .delete k => .delete k

def Engine.write (e : Engine) (n : Name) (handle : Nat) (op : CfOp Stored) : Engine :=
  match e.families.lookup n with
  | some (h, m) => if h = handle then { e with families := e.families.put n (h, op.apply m) } else e
  | none => e

/-- What `write_row`, `update_row` and `delete_row` do with one of their writes: an index without a handle is passed
over. -/
def Engine.apply (s : Share) (e : Engine) : TableOp → Engine
  | .row op =>
    match s.cf with
    | some h => e.write s.cfName h (mapOp .row op)
    | none => e
  | .entry i op =>
    match s.idxCfNames[i]?, s.idxCfs i with
    | some n, some h => e.write n h (mapOp .entry op)
    | _, _ => e

def Engine.applyAll (s : Share) (e : Engine) (ops : List TableOp) : Engine := ops.foldl (Engine.apply s) e

def Holds (e : Engine) (n : Name) (handle : Option Nat) (P : Content → Prop) : Prop :=
  ∃ h m, handle = some h ∧ e.families.Has n (h, m) ∧ P m

structure Shows (e : Engine) (s : Share) (t : Table) : Prop where
  rows : Holds e s.cfName s.cf fun m => ∀ k v, m.Has k v ↔ ∃ r, v = .row r ∧ t.rows.Has k r
  index : ∀ i n, s.idxCfNames[i]? = some n →
    Holds e n (s.idxCfs i) fun m => ∀ k v, m.Has k v ↔ ∃ b, v = .entry b ∧ (t.index i).Has k b

/-- The table is empty, and whatever is written after that is there, in the rows and in every index, and nothing else. -/
structure Emptied (e : Engine) (s : Share) : Prop where
  data : Holds e s.cfName s.cf (· = .empty)
  indexes : ∀ i n, s.idxCfNames[i]? = some n → Holds e n (s.idxCfs i) (· = .empty)
  maintained : ∀ ops, Shows (e.applyAll s ops) s (Table.empty.applyAll ops)

/-- Every index had a handle, its old family is dropped if there is one, and the new one is created and found. -/
def IndexesRemade (ans : FamilyAnswers) (e : Engine) (s : Share) : Prop :=
  ∀ i < s.idxCfNames.length, ∀ n ∈ s.idxCfNames[i]?,
    s.idxCfs i ≠ none ∧ Made ans e.families n ∧ ans.found n = true

instance (ans : FamilyAnswers) (e : Engine) (s : Share) : Decidable (IndexesRemade ans e s) :=
  inferInstanceAs (Decidable (∀ i < s.idxCfNames.length, ∀ n ∈ s.idxCfNames[i]?, _))

section Writes

variable {e : Engine} {s : Share} {t : Table}

theorem mapOp_apply {V : Type} {f : V → Stored} {m : Content} {rows : SortedMap Bytes V}
    (shown : ∀ k v, m.Has k v ↔ ∃ r, v = f r ∧ rows.Has k r) (op : CfOp V) :
    ∀ k v, ((mapOp f op).apply m).Has k v ↔ ∃ r, v = f r ∧ (op.apply rows).Has k r := by
  intro k v
  cases op with
  | put at_key value =>
    simp only [mapOp, CfOp.apply, has_put, shown]
    constructor
    · rintro (⟨rfl, rfl⟩ | ⟨other, r, rfl, has⟩)
      · exact ⟨value, rfl, .inl ⟨rfl, rfl⟩⟩
      · exact ⟨r, rfl, .inr ⟨other, has⟩⟩
    · rintro ⟨r, rfl, ⟨rfl, rfl⟩ | ⟨other, has⟩⟩
      · exact .inl ⟨rfl, rfl⟩
      · exact .inr ⟨other, r, rfl, has⟩
  | delete at_key =>
    simp only [mapOp, CfOp.apply, has_erase, shown]
    constructor
    · rintro ⟨other, r, rfl, has⟩
      exact ⟨r, rfl, other, has⟩
    · rintro ⟨r, rfl, other, has⟩
      exact ⟨other, r, rfl, has⟩

theorem write_families {n : Name} {m : Content} (has : e.families.Has n (h, m)) (op : CfOp Stored) :
    (e.write n h op).families = e.families.put n (h, op.apply m) := by
  simp [Engine.write, lookup_eq_some.mpr has]

theorem Holds.write {n : Name} {P Q : Content → Prop} (holds : Holds e n handle P) (current : handle = some h)
    {op : CfOp Stored} (after : ∀ m, P m → Q (op.apply m)) : Holds (e.write n h op) n handle Q := by
  obtain ⟨h', m, rfl, has, holds⟩ := holds
  cases current
  refine ⟨h, op.apply m, rfl, ?_, after m holds⟩
  rw [write_families has]
  simp

theorem Holds.write_other {n other : Name} {P : Content → Prop} (holds : Holds e n handle P) (apart : n ≠ other)
    (op : CfOp Stored) : Holds (e.write other h op) n handle P := by
  obtain ⟨h', m, same, has, holds⟩ := holds
  refine ⟨h', m, same, ?_, holds⟩
  unfold Engine.write
  split
  · split
    · simpa [apart] using has
    · exact has
  · exact has

theorem Share.index_ne (s : Share) {i : Nat} {n : Name} (named : s.idxCfNames[i]? = some n) : n ≠ s.cfName := by
  rintro rfl
  exact (nodup_cons.mp s.distinct).1 (mem_of_getElem? named)

theorem Share.index_inj (s : Share) {i j : Nat} {n : Name} (at_i : s.idxCfNames[i]? = some n)
    (at_j : s.idxCfNames[j]? = some n) : i = j := by
  have within : i < s.idxCfNames.length := (List.getElem?_eq_some_iff.mp at_i).1
  exact (getElem?_inj within (nodup_cons.mp s.distinct).2).mp (at_i.trans at_j.symm)

theorem shows_apply (shows : Shows e s t) (op : TableOp) : Shows (e.apply s op) s (t.apply op) := by
  cases op with
  | row op =>
    obtain ⟨h, -, current, -⟩ := shows.rows
    have step : e.apply s (.row op) = e.write s.cfName h (mapOp .row op) := by simp [Engine.apply, current]
    rw [step]
    constructor
    · exact shows.rows.write current fun m shown => mapOp_apply shown op
    · intro i n named
      exact (shows.index i n named).write_other (s.index_ne named) _
  | entry i op =>
    cases named : s.idxCfNames[i]? with
    | none =>
      have step : e.apply s (.entry i op) = e := by simp [Engine.apply, named]
      rw [step]
      refine ⟨shows.rows, ?_⟩
      intro j n named_j
      have other : j ≠ i := by
        rintro rfl
        rw [named] at named_j
        cases named_j
      simpa [Table.apply, update_of_ne other] using shows.index j n named_j
    | some n =>
      obtain ⟨h, -, current, -⟩ := shows.index i n named
      have step : e.apply s (.entry i op) = e.write n h (mapOp .entry op) := by simp [Engine.apply, named, current]
      rw [step]
      refine ⟨shows.rows.write_other (s.index_ne named).symm _, ?_⟩
      intro j other named_j
      by_cases same : j = i
      · subst same
        rw [named] at named_j
        cases named_j
        refine (shows.index j n named).write current fun m shown => ?_
        simpa [Table.apply] using mapOp_apply shown op
      · have apart : other ≠ n := fun same_name => same (s.index_inj named_j (same_name ▸ named))
        simpa [Table.apply, update_of_ne same] using (shows.index j other named_j).write_other apart _

theorem shows_applyAll (shows : Shows e s t) (ops : List TableOp) : Shows (e.applyAll s ops) s (t.applyAll ops) := by
  induction ops generalizing e t with
  | nil => exact shows
  | cons op rest ih => exact ih (shows_apply shows op)

theorem Emptied.of_empty (data : Holds e s.cfName s.cf (· = .empty))
    (indexes : ∀ i n, s.idxCfNames[i]? = some n → Holds e n (s.idxCfs i) (· = .empty)) : Emptied e s := by
  refine ⟨data, indexes, fun ops => shows_applyAll ⟨?_, ?_⟩ ops⟩
  · obtain ⟨h, m, current, has, rfl⟩ := data
    exact ⟨h, .empty, current, has, by simp [Table.empty]⟩
  · intro i n named
    obtain ⟨h, m, current, has, rfl⟩ := indexes i n named
    exact ⟨h, .empty, current, has, by simp [Table.empty]⟩

end Writes

section Loop

variable {ans : FamilyAnswers} {fs₀ : Families (Nat × Content)}

structure LoopSpec (ans : FamilyAnswers) (fs₀ : Families (Nat × Content)) (i : Nat) (names : List Name) (e e' : Engine)
    (idxCfs idxCfs' : Nat → Option Nat) : Prop where
  others : ∀ n, n ∉ names → ∀ v, e'.families.Has n v ↔ e.families.Has n v
  before : ∀ j < i, idxCfs' j = idxCfs j
  each : ∀ k n, names[k]? = some n →
    (Holds e' n (idxCfs' (i + k)) (· = .empty) ↔ idxCfs (i + k) ≠ none ∧ Made ans fs₀ n ∧ ans.found n = true)

theorem LoopSpec.cons {i : Nat} {n : Name} {names : List Name} {e e₁ e' : Engine} {idxCfs idxCfs₁ idxCfs' : Nat → Option Nat}
    (rest : LoopSpec ans fs₀ (i + 1) names e₁ e' idxCfs₁ idxCfs') (apart : n ∉ names)
    (others : ∀ m, m ≠ n → ∀ v, e₁.families.Has m v ↔ e.families.Has m v) (handles : ∀ j, j ≠ i → idxCfs₁ j = idxCfs j)
    (here : Holds e₁ n (idxCfs₁ i) (· = .empty) ↔ idxCfs i ≠ none ∧ Made ans fs₀ n ∧ ans.found n = true) :
    LoopSpec ans fs₀ i (n :: names) e e' idxCfs idxCfs' where
  others m unlisted v := by
    obtain ⟨elsewhere, later⟩ := not_or.mp (mem_cons.not.mp unlisted)
    rw [rest.others m later v, others m elsewhere v]
  before j below := (rest.before j (by omega)).trans (handles j (by omega))
  each k m listed := by
    cases k with
    | zero =>
      cases Option.some.inj listed
      rw [Nat.add_zero, ← here, rest.before i (by omega)]
      simp only [Holds, rest.others n apart]
    | succ k =>
      have shift : i + (k + 1) = i + 1 + k := by omega
      rw [shift, rest.each k m (by simpa using listed), handles (i + 1 + k) (by omega)]

theorem getFamily_put (fs : Families (Nat × Content)) (n : Name) (family : Nat × Content) :
    getFamily ans (fs.put n family) n = if ans.found n then some family.1 else none := by
  have stored : (fs.put n family).lookup n = some family := lookup_eq_some.mpr (by simp)
  simp [getFamily, stored]

theorem recreateIndexes_spec {i : Nat} {names : List Name} {e : Engine} {idxCfs : Nat → Option Nat} (distinct : names.Nodup)
    (same : ∀ n ∈ names, ∀ v, e.families.Has n v ↔ fs₀.Has n v) :
    LoopSpec ans fs₀ i names e (recreateIndexes ans i names e idxCfs).1 idxCfs (recreateIndexes ans i names e idxCfs).2 := by
  induction names generalizing i e idxCfs with
  | nil => exact ⟨fun _ _ _ => Iff.rfl, fun _ _ => rfl, by simp⟩
  | cons n rest ih =>
    obtain ⟨apart, distinct_rest⟩ := nodup_cons.mp distinct
    have same_here := same n (mem_cons_self ..)
    rw [recreateIndexes]
    split
    next null =>
      refine (ih distinct_rest fun m mem => same m (mem_cons_of_mem _ mem)).cons apart (fun _ _ _ => Iff.rfl)
        (fun _ _ => rfl) ?_
      simp [Holds, null]
    next bound =>
      have dropped : ∀ m, m ≠ n → ∀ v, (dropFamily e.families n (ans.drop n)).Has m v ↔ e.families.Has m v := by
        intro m other v
        simp [has_dropFamily, other]
      have later : ∀ m ∈ rest, m ≠ n := fun m mem same_name => apart (same_name ▸ mem)
      have handles : ∀ handle j, j ≠ i → update idxCfs i handle j = idxCfs j :=
        fun handle j other => update_of_ne other handle idxCfs
      rcases recreate_cases ans e.families n (e.next, empty) with ⟨made, call⟩ | ⟨refused, rc, failed, call⟩
      · rw [made_congr same_here] at made
        rw [call]
        have others : ∀ m, m ≠ n → ∀ v,
            ((dropFamily e.families n (ans.drop n)).put n (e.next, empty)).Has m v ↔ e.families.Has m v := by
          intro m other v
          rw [has_put, dropped m other v]
          simp [other]
        refine (ih distinct_rest ?_).cons apart others (handles _) ?_
        · intro m mem v
          exact (others m (later m mem) v).trans (same m (mem_cons_of_mem _ mem) v)
        · rw [update_self, getFamily_put]
          simp [Holds, bound, made]
      · rw [made_congr same_here] at refused
        rw [call]
        have lost : LoopSpec ans fs₀ i (n :: rest) e
            (recreateIndexes ans (i + 1) rest ⟨dropFamily e.families n (ans.drop n), e.next⟩ (update idxCfs i none)).1 idxCfs
            (recreateIndexes ans (i + 1) rest ⟨dropFamily e.families n (ans.drop n), e.next⟩ (update idxCfs i none)).2 := by
          refine (ih distinct_rest ?_).cons apart dropped (handles _) ?_
          · intro m mem v
            exact (dropped m (later m mem) v).trans (same m (mem_cons_of_mem _ mem) v)
          · simp [Holds, refused]
        cases rc with
        | success => exact absurd rfl failed
        | _ => exact lost

end Loop

section

variable {ans : FamilyAnswers} {e : Engine} {s : Share}

theorem deleteAllRows_ok (returned : (deleteAllRows ans e s).1 = .ok) : ∃ fs : Families (Nat × Content),
    (∀ m, m ≠ s.cfName → ∀ v, fs.Has m v ↔ e.families.Has m v) ∧ fs.Has s.cfName (e.next, .empty) ∧
      (deleteAllRows ans e s).2 = ((recreateIndexes ans 0 s.idxCfNames ⟨fs, e.next + 1⟩ s.idxCfs).1,
        { s with cf := some e.next, idxCfs := (recreateIndexes ans 0 s.idxCfNames ⟨fs, e.next + 1⟩ s.idxCfs).2 }) := by
  unfold deleteAllRows at returned ⊢
  by_cases undropped : ans.drop s.cfName ≠ .success ∧ ans.drop s.cfName ≠ .notFound
  · rw [if_pos undropped, tdbRcToHa_eq_ok] at returned
    exact absurd returned undropped.1
  · rw [if_neg undropped] at returned ⊢
    rcases recreate_cases ans e.families s.cfName (e.next, empty) with ⟨-, call⟩ | ⟨-, rc, failed, call⟩
    · rw [call] at returned ⊢
      simp only [getFamily_put] at returned ⊢
      cases found : ans.found s.cfName with
      | false =>
        rw [found] at returned
        cases returned
      | true =>
        refine ⟨(dropFamily e.families s.cfName (ans.drop s.cfName)).put s.cfName (e.next, .empty), ?_, by simp, rfl⟩
        intro m other v
        simp [has_dropFamily, other]
    · rw [call] at returned
      cases rc with
      | success => exact absurd rfl failed
      | _ => cases returned

/-- A successful TRUNCATE has emptied the table and kept every index in use, just when each had a
handle and was made again and found. -/
theorem truncate_empties_iff (returned : (deleteAllRows ans e s).1 = .ok) :
    Emptied (deleteAllRows ans e s).2.1 (deleteAllRows ans e s).2.2 ↔ IndexesRemade ans e s := by
  obtain ⟨fs, others, created, result⟩ := deleteAllRows_ok returned
  have names := nodup_cons.mp s.distinct
  have same : ∀ n ∈ s.idxCfNames, ∀ v, fs.Has n v ↔ e.families.Has n v := by
    intro n mem
    exact others n fun same_name => names.1 (same_name ▸ mem)
  have spec : LoopSpec ans e.families 0 s.idxCfNames ⟨fs, e.next + 1⟩ _ s.idxCfs _ := recreateIndexes_spec names.2 same
  rw [result]
  have each := spec.each
  simp only [Nat.zero_add] at each
  constructor
  · intro emptied i _ n named
    exact (each i n named).mp (emptied.indexes i n named)
  · intro remade
    apply Emptied.of_empty
    · exact ⟨e.next, .empty, rfl, (spec.others s.cfName names.1 _).mpr created, rfl⟩
    · intro i n named
      exact (each i n named).mpr (remade i (List.getElem?_eq_some_iff.mp named).1 n named)

end

/- A table `d` with an index `a`. -/
section

def oneIndex : Share := ⟨['d'], [idxCfName ['d'] ['a']], by decide, some 0, fun _ => some 1⟩

def oneIndexEngine : Engine :=
  ⟨SortedMap.empty.putAll [(['d'], (0, .empty)), (idxCfName ['d'] ['a'], (1, .empty))], 2⟩

def createRefused : FamilyAnswers :=
  ⟨fun _ => .success, fun n => if n = ['d'] then .success else .noSpace, fun _ => true⟩

def wellAnswered : FamilyAnswers := ⟨fun _ => .success, fun _ => .success, fun _ => true⟩

/- The call answers 0, and the index has neither a family nor a handle. -/
theorem truncate_loses_index : (deleteAllRows createRefused oneIndexEngine oneIndex).1 = .ok ∧
    ¬ Emptied (deleteAllRows createRefused oneIndexEngine oneIndex).2.1
      (deleteAllRows createRefused oneIndexEngine oneIndex).2.2 := by
  refine ⟨by decide, ?_⟩
  intro emptied
  obtain ⟨h, m, current, -⟩ := emptied.indexes 0 _ rfl
  have lost : (deleteAllRows createRefused oneIndexEngine oneIndex).2.2.idxCfs 0 = none := by decide
  rw [lost] at current
  cases current

theorem truncate_well : (deleteAllRows wellAnswered oneIndexEngine oneIndex).1 = .ok ∧
    Emptied (deleteAllRows wellAnswered oneIndexEngine oneIndex).2.1
      (deleteAllRows wellAnswered oneIndexEngine oneIndex).2.2 := by
  have returned : (deleteAllRows wellAnswered oneIndexEngine oneIndex).1 = .ok := by decide
  exact ⟨returned, (truncate_empties_iff returned).mpr (by decide)⟩

end

end Truncate

end TidesdbMysql
