import TidesdbMysql.Ddl.Create

/-! The calls on column families with the answers of the engine. A family that exists is not created again, and one that
was not dropped is as it was. -/
namespace TidesdbMysql
open Base

/-- The answers by name; `found` is what `tidesdb_get_column_family` answers after a create. -/
structure FamilyAnswers where
  drop : Name → Rc
  create : Name → Rc
  found : Name → Bool

section
variable {V : Type}

section
variable (ans : FamilyAnswers) (fs : Families V) (n : Name) (fresh : V) (rc : Rc)

def dropFamily : Families V := if rc = .success then fs.erase n else fs

def createFamily : Families V × Rc :=
  if fs.HasKey n then (fs, .alreadyExists)
  else if rc = .success then (fs.put n fresh, .success)
  else (fs, rc)

def recreate : Families V × Rc :=
  createFamily (dropFamily fs n (ans.drop n)) n fresh (ans.create n)

def Stays : Prop := fs.HasKey n ∧ ans.drop n ≠ .success
  deriving Decidable

def Made : Prop := ¬ Stays ans fs n ∧ ans.create n = .success
  deriving Decidable

end

variable {ans : FamilyAnswers} {fs : Families V} {n m : Name} {rc : Rc} {fresh v : V}

theorem has_dropFamily : (dropFamily fs n rc).Has m v ↔ ¬ (m = n ∧ rc = .success) ∧ fs.Has m v := by
  unfold dropFamily
  by_cases done : rc = .success <;> simp [done]

theorem hasKey_dropFamily : (dropFamily fs n rc).HasKey m ↔ ¬ (m = n ∧ rc = .success) ∧ fs.HasKey m := by
  unfold dropFamily
  by_cases done : rc = .success <;> simp [done]

theorem made_congr {fs₀ : Families V} (same : ∀ v, fs.Has n v ↔ fs₀.Has n v) : Made ans fs n ↔ Made ans fs₀ n := by
  simp only [Made, Stays, SortedMap.hasKey_iff, same]

theorem recreate_cases (ans : FamilyAnswers) (fs : Families V) (n : Name) (fresh : V) :
    (Made ans fs n ∧ recreate ans fs n fresh = ((dropFamily fs n (ans.drop n)).put n fresh, .success)) ∨
      (¬ Made ans fs n ∧ ∃ rc ≠ .success, recreate ans fs n fresh = (dropFamily fs n (ans.drop n), rc)) := by
  have there : (dropFamily fs n (ans.drop n)).HasKey n ↔ Stays ans fs n := by
    rw [hasKey_dropFamily, Stays]
    simp [and_comm]
  unfold recreate createFamily
  simp only [there]
  by_cases stays : Stays ans fs n
  · exact .inr ⟨fun made => made.1 stays, .alreadyExists, by decide, if_pos stays⟩
  · rw [if_neg stays]
    by_cases made : ans.create n = .success
    · exact .inl ⟨⟨stays, made⟩, if_pos made⟩
    · exact .inr ⟨fun done => made done.2, ans.create n, made, if_neg made⟩

end

end TidesdbMysql
