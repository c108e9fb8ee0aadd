import TidesdbMysql.Base.Run
import TidesdbMysql.Ddl.Names
import Mathlib.Data.Char

/-! `ha_tidesdb::create` over the column families of the engine. Each family carries what it
was made for. -/
namespace TidesdbMysql
open Base List Base.SortedMap

abbrev Families (V : Type) := SortedMap Name V

structure TableDef where
  name : TableName
  keys : List Name
  primaryKey : Option Nat

def TableDef.secondaryKeys (t : TableDef) : List Name :=
  (t.keys.zipIdx.filter fun key => t.primaryKey ≠ some key.2).map (·.1)

def TableDef.owners (t : TableDef) : List CfOwner :=
  .data t.name :: t.secondaryKeys.map (.index t.name)

/-- A family that exists is skipped, "e.g. crash recovery". -/
def ensureFamily (answer : Name → Rc) (fs : Families CfOwner) (o : CfOwner) : Families CfOwner × Rc :=
  match fs.lookup o.cfName with
  | some _ => (fs, .success)
  | none => if answer o.cfName = .success then (fs.put o.cfName o, .success) else (fs, answer o.cfName)

def ensureFamilies (answer : Name → Rc) (fs : Families CfOwner) : List CfOwner → Families CfOwner × Rc
  | [] => (fs, .success)
  | o :: rest =>
    match ensureFamily answer fs o with
    | (fs, .success) => ensureFamilies answer fs rest
    | (fs, rc) => (fs, rc)

inductive CreateResult where
  | done | wrongCreateOption | failed (code : HaCode)
  deriving DecidableEq

/-- `ha_tidesdb::create`; the first two arguments are the checks of ENGINE_ATTRIBUTE and
`prepare_create`. -/
def create (attributesValid staged : Bool) (answer : Name → Rc) (fs : Families CfOwner) (t : TableDef) :
    Families CfOwner × CreateResult :=
  if attributesValid = false then (fs, .wrongCreateOption)
  else
    match ensureFamilies answer fs t.owners with
    | (fs, .success) => if staged then (fs, .done) else (fs, .failed .generic)
    | (fs, rc) => (fs, .failed (tdbRcToHa rc))

def Named (fs : Families CfOwner) : Prop := ∀ n o, fs.Has n o → n = o.cfName

/- What the families of a list of owners may become: the old ones stay, and a new one is
one of the list, under its own name. -/
structure FamiliesGrow (owners : List CfOwner) (fs fs' : Families CfOwner) : Prop where
  kept : ∀ n o, fs.Has n o → fs'.Has n o
  added : ∀ n o, fs'.Has n o → fs.Has n o ∨ o ∈ owners ∧ n = o.cfName

section
variable (attributesValid staged : Bool) (answer : Name → Rc) (owners : List CfOwner) (fs : Families CfOwner)
  (t : TableDef)

theorem familiesGrow_refl : FamiliesGrow owners fs fs :=
  ⟨fun _ _ has => has, fun _ _ has => .inl has⟩

theorem FamiliesGrow.trans {owners : List CfOwner} {fs fs' fs'' : Families CfOwner}
    (first : FamiliesGrow owners fs fs') (second : FamiliesGrow owners fs' fs'') : FamiliesGrow owners fs fs'' := by
  refine ⟨fun n o has => second.kept n o (first.kept n o has), fun n o has => ?_⟩
  cases second.added n o has with
  | inl before => exact first.added n o before
  | inr fresh => exact .inr fresh

theorem ensureFamily_grow {owners : List CfOwner} {o : CfOwner} (listed : o ∈ owners) :
    FamiliesGrow owners fs (ensureFamily answer fs o).1 := by
  unfold ensureFamily
  cases present : fs.lookup o.cfName with
  | some _ => exact familiesGrow_refl owners fs
  | none =>
    dsimp only
    split
    · have unused := lookup_eq_none.mp present
      constructor
      · intro n b has
        refine has_put.mpr (.inr ⟨?_, has⟩)
        rintro rfl
        exact unused has.hasKey
      · intro n b has
        rcases has_put.mp has with ⟨rfl, rfl⟩ | ⟨-, before⟩
        · exact .inr ⟨listed, rfl⟩
        · exact .inl before
    · exact familiesGrow_refl owners fs

theorem ensureFamilies_grow {owners : List CfOwner} {some_owners : List CfOwner}
    (listed : ∀ o ∈ some_owners, o ∈ owners) : FamiliesGrow owners fs (ensureFamilies answer fs some_owners).1 := by
  induction some_owners generalizing fs with
  | nil => exact familiesGrow_refl owners fs
  | cons o rest ih =>
    have first := ensureFamily_grow answer fs (listed o mem_cons_self)
    rw [ensureFamilies]
    split
    · rename_i fs' made
      rw [made] at first
      exact first.trans (ih fs' fun o mem => listed o (mem_cons_of_mem _ mem))
    · rename_i made
      rw [made] at first
      exact first

theorem create_grow : FamiliesGrow t.owners fs (create attributesValid staged answer fs t).1 := by
  have loop : FamiliesGrow t.owners fs (ensureFamilies answer fs t.owners).1 :=
    ensureFamilies_grow answer fs fun _ listed => listed
  unfold create
  split
  · exact familiesGrow_refl _ fs
  · split
    · rename_i made
      rw [made] at loop
      split <;> exact loop
    · rename_i made
      rw [made] at loop
      exact loop

end

theorem owners_tableName {t : TableDef} {o : CfOwner} (listed : o ∈ t.owners) : o.tableName = t.name := by
  rcases mem_cons.mp listed with rfl | index
  · rfl
  · obtain ⟨key, -, rfl⟩ := mem_map.mp index
    rfl

/-- Names are apart exactly where they have one reading; a table adopts no family where no name of
its own reads as another's. -/
theorem cf_names_injective_iff (a b : CfOwner) (attributesValid staged : Bool) (answer : Name → Rc)
    (fs : Families CfOwner) (named : Named fs) (t : TableDef) :
    ((a.cfName = b.cfName → a = b) ↔ (a.Confused b → a = b)) ∧
    ((∀ o ∈ t.owners, ∀ b, (create attributesValid staged answer fs t).1.Has o.cfName b → b = o) ↔
      ∀ o ∈ t.owners, ∀ n b, fs.Has n b → o.Confused b → b = o) := by
  refine ⟨by rw [cfName_eq_iff], ?_⟩
  have made := create_grow attributesValid staged answer fs t
  constructor
  · intro own o listed n b has confused
    refine own o listed b (made.kept _ _ ?_)
    rw [(cfName_eq_iff o b).mpr confused, ← named n b has]
    exact has
  · intro apart o listed b has
    rcases made.added _ _ has with before | ⟨own, same⟩
    · exact apart o listed _ b before ((cfName_eq_iff o b).mp (named _ b before))
    · have table := (owners_tableName own).trans (owners_tableName listed).symm
      exact cfName_injective_of_table table same.symm

def tableT : TableDef := ⟨⟨['d'], ['t'], by decide, by decide⟩, [['i'], ['j']], some 1⟩

/- The first table of an engine adopts nothing. -/
theorem cf_names_injective_iff_first : (create true true (fun _ => .success) .empty tableT).2 = .done ∧
    ∀ o ∈ tableT.owners, ∀ b, (create true true (fun _ => .success) .empty tableT).1.Has o.cfName b → b = o := by
  have named : Named .empty := fun n o has => absurd has (has_empty n o)
  have whole := cf_names_injective_iff (.data tableT.name) (.data tableT.name) true true (fun _ => .success) .empty
    named tableT
  exact ⟨by decide, whole.2.mpr fun _ _ n b has => absurd has (has_empty n b)⟩

/-- `a.b__c` and `a__b.c`, `#q` and `_q`, table `t__idx_i` and index `i` of `t`, index `_idx_i` of
`t` and `i` of `t__idx`; `t__idx_i` adopts that family. -/
theorem distinct_names_collide : let t := tableT.name
    let clash : TableDef := ⟨⟨['d'], ['t', '_', '_', 'i', 'd', 'x', '_', 'i'], by decide, by decide⟩, [], none⟩
    let fs := (create true true (fun _ => .success) .empty tableT).1
    CfOwner.cfName (.data ⟨['a'], ['b', '_', '_', 'c'], by decide, by decide⟩) =
      CfOwner.cfName (.data ⟨['a', '_', '_', 'b'], ['c'], by decide, by decide⟩) ∧
    CfOwner.cfName (.data ⟨['d'], ['#', 'q'], by decide, by decide⟩) =
      CfOwner.cfName (.data ⟨['d'], ['_', 'q'], by decide, by decide⟩) ∧
    CfOwner.cfName (.data clash.name) = CfOwner.cfName (.index t ['i']) ∧
    CfOwner.cfName (.index t ['_', 'i', 'd', 'x', '_', 'i']) =
      CfOwner.cfName (.index ⟨['d'], ['t', '_', '_', 'i', 'd', 'x'], by decide, by decide⟩ ['i']) ∧
    (create true true (fun _ => .success) fs clash).2 = .done ∧
    (create true true (fun _ => .success) fs clash).1.lookup clash.name.cfName = some (.index t ['i']) := by
  decide

end TidesdbMysql
