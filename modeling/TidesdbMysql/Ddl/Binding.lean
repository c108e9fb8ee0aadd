import TidesdbMysql.Ddl.Frame

/-! The `cf_name` in the `se_private_data` of a table, which `validate_open` compares with the name its path gives.
CREATE, RENAME and ALTER write it; no engine call fails. -/
namespace TidesdbMysql
open Base List Base.SortedMap

structure SePrivateData where
  cfName : Option Name
  atomicDdl : Bool
  deriving DecidableEq

def prepareCreate (cfName : Name) : SePrivateData := ⟨some cfName, true⟩

/- A key is read from the new definition first and then from the old one, and is empty where neither has it. -/
def recomputeSePrivateData (old new : SePrivateData) : SePrivateData :=
  ⟨some ((new.cfName.or old.cfName).getD []), true⟩

def validateOpen (strict : Bool) (p : SePrivateData) (pathInferredCf : Name) : Bool :=
  !strict || p.cfName.isSome && p.atomicDdl && p.cfName = some pathInferredCf

/-- A table with the names of the families there are. -/
structure BoundTable where
  name : TableName
  sePrivateData : SePrivateData
  families : Families Unit

/-- The server may copy the `se_private_data` to the definition of an ALTER, and renames the table when the ALTER is
committed. -/
inductive TableDdl where
  | rename (target : TableName) (listing : Listing)
  | alter (added dropped : List Name) (carried commits : Bool) (renames : Option (TableName × Listing))
  | truncate (keys : List Name)

def remake (fs : Families Unit) (n : Name) : Families Unit := (fs.erase n).put n ()

namespace BoundTable

/-- CREATE TABLE; a family that exists is taken over. -/
def created (fs : Families Unit) (t : TableDef) : BoundTable :=
  ⟨t.name, prepareCreate t.name.cfName,
    (t.owners.map CfOwner.cfName).foldl (fun fs n => if fs.HasKey n then fs else fs.put n ()) fs⟩

def renamed (s : BoundTable) (target : TableName) (listing : Listing) : BoundTable :=
  ⟨target, ⟨some target.cfName, true⟩, (renameTable (granted listing) s.families s.name.path target.path).1⟩

def altered (s : BoundTable) (added dropped : List Name) (carried commits : Bool) : BoundTable :=
  let own := idxCfName s.name.cfName
  let built := (added.map own).foldl remake s.families
  if commits then
    { s with
      families := (dropped.map own).foldl SortedMap.erase built
      sePrivateData := recomputeSePrivateData s.sePrivateData (if carried then s.sePrivateData else ⟨none, false⟩) }
  else { s with families := (added.map own).foldl SortedMap.erase built }

def step (s : BoundTable) : TableDdl → BoundTable
  | .rename target listing => s.renamed target listing
  | .alter added dropped carried commits renames =>
    match commits, renames with
    | true, some (target, listing) => (s.altered added dropped carried commits).renamed target listing
    | _, _ => s.altered added dropped carried commits
  | .truncate keys => { s with families := (s.name.cfName :: keys.map (idxCfName s.name.cfName)).foldl remake s.families }

def InStep (s : BoundTable) : Prop :=
  s.sePrivateData.cfName = some s.name.cfName ∧ s.families.HasKey s.name.cfName ∧
    validateOpen true s.sePrivateData s.name.cfName = true

/- The family of the new name is another than that of the old name, and not one of its indexes'. -/
def FamiliesApart (s : BoundTable) (target : TableName) : Prop :=
  target.cfName ≠ s.name.cfName ∧ ∀ key, target.cfName ≠ idxCfName s.name.cfName key

def NamesApart (s : BoundTable) : TableDdl → Prop
  | .rename target _ | .alter _ _ _ true (some (target, _)) => s.FamiliesApart target
  | _ => True

end BoundTable

section Families

variable {V : Type} {fs : Families V} {k : Name}

theorem hasKey_replaceAll_away {dest : Name → Name} {srcs : List Name} (away : ∀ s ∈ srcs, k ≠ dest s) :
    (fs.replaceAll dest (fun _ => true) (fun _ => true) srcs).HasKey k ↔ k ∉ srcs ∧ fs.HasKey k := by
  induction srcs generalizing fs with
  | nil => simp [replaceAll]
  | cons s rest ih =>
    rw [forall_mem_cons] at away
    have first : (fs.replace true true s (dest s)).HasKey k ↔ k ≠ s ∧ fs.HasKey k := by
      simp [hasKey_iff, has_data, away.1]
    show ((fs.replace true true s (dest s)).replaceAll dest _ _ rest).HasKey k ↔ _
    rw [ih away.2, first, mem_cons, not_or, and_left_comm, and_assoc]

theorem hasKey_foldl {f : Families V → Name → Families V} (each : ∀ fs n, (f fs n).HasKey k ↔ k = n ∨ fs.HasKey k)
    (ns : List Name) : (ns.foldl f fs).HasKey k ↔ k ∈ ns ∨ fs.HasKey k := by
  induction ns generalizing fs with
  | nil => simp
  | cons n rest ih =>
    rw [foldl_cons, ih, each, mem_cons, or_left_comm, or_assoc]

theorem hasKey_foldl_erase (ns : List Name) : (ns.foldl SortedMap.erase fs).HasKey k ↔ k ∉ ns ∧ fs.HasKey k := by
  induction ns generalizing fs with
  | nil => simp
  | cons n rest ih =>
    rw [foldl_cons, ih, hasKey_erase, mem_cons, not_or, and_left_comm, and_assoc]

theorem hasKey_remake (fs : Families Unit) (n k : Name) : (remake fs n).HasKey k ↔ k = n ∨ fs.HasKey k := by
  by_cases same : k = n <;> simp [remake, same]

end Families

namespace BoundTable

theorem hasKey_renamed (s : BoundTable) (target : TableName) (listing : Listing) :
    (s.renamed target listing).families.HasKey target.cfName ↔ s.FamiliesApart target ∧ s.families.HasKey s.name.cfName := by
  have data : (s.families.replace true true s.name.cfName target.cfName).HasKey target.cfName ↔
      s.name.cfName ≠ target.cfName ∧ s.families.HasKey s.name.cfName := by
    simp [hasKey_iff, has_data]
  rw [BoundTable.renamed, renameTable_granted, hasKey_replaceAll_away, mem_renamedNames, data, BoundTable.FamiliesApart]
  · constructor
    · rintro ⟨unlisted, other, there⟩
      exact ⟨⟨other.symm, fun key same => unlisted ⟨⟨other, there⟩, key, same⟩⟩, there⟩
    · rintro ⟨⟨other, plain⟩, there⟩
      refine ⟨?_, other.symm, there⟩
      rintro ⟨-, key, same⟩
      exact plain key same
  · intro n listed
    obtain ⟨-, key, rfl⟩ := mem_renamedNames.mp listed
    rw [movedName_idx]
    exact (idxCfName_ne _ key).symm

theorem hasKey_altered (s : BoundTable) (added dropped : List Name) (carried commits : Bool) :
    (s.altered added dropped carried commits).families.HasKey s.name.cfName ↔ s.families.HasKey s.name.cfName := by
  have other (keys : List Name) : s.name.cfName ∉ keys.map (idxCfName s.name.cfName) := by
    intro listed
    obtain ⟨key, -, same⟩ := mem_map.mp listed
    exact idxCfName_ne _ key same
  have built : ((added.map (idxCfName s.name.cfName)).foldl remake s.families).HasKey s.name.cfName ↔ _ :=
    hasKey_foldl (fun fs n => hasKey_remake fs n _) _
  unfold altered
  split <;> simp only [hasKey_foldl_erase, other, built, not_false_eq_true, true_and, false_or]

/- What every statement writes. -/
def Bound (s : BoundTable) : Prop := s.sePrivateData = ⟨some s.name.cfName, true⟩

theorem Bound.inStep_iff {s : BoundTable} (bound : s.Bound) : s.InStep ↔ s.families.HasKey s.name.cfName := by
  unfold InStep
  rw [bound]
  simp [validateOpen]

theorem Bound.altered {s : BoundTable} (bound : s.Bound) (added dropped : List Name) (carried commits : Bool) :
    (s.altered added dropped carried commits).Bound := by
  cases commits with
  | false => exact bound
  | true =>
    show recomputeSePrivateData s.sePrivateData _ = _
    rw [bound]
    cases carried <;> rfl

theorem Bound.step {s : BoundTable} (bound : s.Bound) (ddl : TableDdl) : (s.step ddl).Bound := by
  cases ddl with
  | rename target listing => rfl
  | truncate keys => exact bound
  | alter added dropped carried commits renames =>
    cases commits with
    | false => exact bound.altered _ _ _ _
    | true =>
      cases renames with
      | none => exact bound.altered _ _ _ _
      | some _ => rfl

theorem hasKey_step {s : BoundTable} (there : s.families.HasKey s.name.cfName) (ddl : TableDdl) :
    (s.step ddl).families.HasKey (s.step ddl).name.cfName ↔ s.NamesApart ddl := by
  cases ddl with
  | rename target listing => exact (hasKey_renamed s target listing).trans (and_iff_left there)
  | truncate keys =>
    refine iff_of_true ?_ trivial
    exact (hasKey_foldl (fun fs n => hasKey_remake fs n _) _).mpr (.inl mem_cons_self)
  | alter added dropped carried commits renames =>
    have kept commits := (hasKey_altered s added dropped carried commits).mpr there
    cases commits with
    | false => exact iff_of_true (kept false) trivial
    | true =>
      cases renames with
      | none => exact iff_of_true (kept true) trivial
      | some r => exact (hasKey_renamed _ r.1 r.2).trans (and_iff_left (kept true))

/-- From CREATE on, after every statement the stored name is that of the path, has a family and is accepted, just when
no rename is to a name whose family is that of the old name or reads as one of its indexes'. -/
theorem binding_in_step_iff (fs : Families Unit) (t : TableDef) (ddl : List TableDdl) :
    (∀ done, done <+: ddl → (Base.run (fun s e => (BoundTable.step s e, ())) (created fs t) done).InStep) ↔
      Along (fun s e => (BoundTable.step s e, ())) NamesApart (created fs t) ddl := by
  have first : (created fs t).InStep := by
    refine Bound.inStep_iff (s := created fs t) rfl |>.mpr ((hasKey_foldl ?_ _).mpr (.inl mem_cons_self))
    intro fs n
    by_cases there : fs.HasKey n
    · rw [if_pos there]
      exact ⟨.inr, fun either => either.elim (fun same => same ▸ there) id⟩
    · rw [if_neg there, hasKey_put]
  have keeps (s : BoundTable) e (bound : s.Bound) (_ : True) now :
      (s.step e).InStep ↔ s.NamesApart e :=
    (bound.step e).inStep_iff.trans (hasKey_step (bound.inStep_iff.mp now) e)
  have knows (s : BoundTable) e (bound : s.Bound) (_ : True) : (s.step e).Bound := bound.step e
  have start : (created fs t).Bound := rfl
  rw [Base.run_invariant_iff (fun s e => (BoundTable.step s e, ())) knows keeps start (Base.along_true _ _ _),
    and_iff_right first]

/- `a.b__c` renamed to `a__b.c`. -/
theorem renamed_family_lost : ¬ ∀ (fs : Families Unit) (t : TableDef) (ddl : List TableDdl) (done : List TableDdl),
    done <+: ddl → (Base.run (fun s e => (BoundTable.step s e, ())) (created fs t) done).InStep := by
  intro claim
  let source : TableName := ⟨['a'], ['b', '_', '_', 'c'], by decide, by decide⟩
  let target : TableName := ⟨['a', '_', '_', 'b'], ['c'], by decide, by decide⟩
  have lost := claim .empty ⟨source, [], none⟩ [.rename target inOrder] _ prefix_rfl
  exact absurd lost.2.1 (by decide)

end BoundTable

end TidesdbMysql
