import TidesdbMysql.Base.SortedMap

/-! A map whose keys are derived from the rows of another: every row stands for
some keys, no key stands for two rows, and the derived map holds exactly the keys
of the rows there are. -/
namespace TidesdbMysql.Base

variable {K V J W : Type} [LinearOrder K] [LinearOrder J]

def Derived (image : K → V → List J) (rows : SortedMap K V) (entries : SortedMap J W) : Prop :=
  ∀ j, entries.HasKey j ↔ ∃ k v, rows.Has k v ∧ j ∈ image k v

def NamesRow (image : K → V → List J) : Prop :=
  ∀ {j k v k' v'}, j ∈ image k v → j ∈ image k' v' → k = k'

variable {image : K → V → List J} {rows rows' : SortedMap K V} {entries entries' : SortedMap J W}

section
variable (derived : Derived image rows entries)
include derived

theorem Derived.of_row {k : K} {v : V} (has : rows.Has k v) {j : J} (mem : j ∈ image k v) : entries.HasKey j :=
  (derived j).mpr ⟨k, v, has, mem⟩

theorem Derived.insert {k : K} {v : V} (rows_put : ∀ k' v', rows'.Has k' v' ↔ (k' = k ∧ v' = v) ∨ rows.Has k' v')
    (entries_put : ∀ j, entries'.HasKey j ↔ j ∈ image k v ∨ entries.HasKey j) : Derived image rows' entries' := by
  intro j
  rw [entries_put, derived j]
  constructor
  · rintro (here | ⟨k', v', has, mem⟩)
    · exact ⟨k, v, (rows_put k v).mpr (Or.inl ⟨rfl, rfl⟩), here⟩
    · exact ⟨k', v', (rows_put k' v').mpr (Or.inr has), mem⟩
  · rintro ⟨k', v', has, mem⟩
    rcases (rows_put k' v').mp has with ⟨rfl, rfl⟩ | has
    · exact Or.inl mem
    · exact Or.inr ⟨k', v', has, mem⟩

theorem Derived.remove (names : NamesRow image) {k : K} {v : V} (has_row : rows.Has k v)
    (rows_erase : ∀ k' v', rows'.Has k' v' ↔ k' ≠ k ∧ rows.Has k' v')
    (entries_erase : ∀ j, entries'.HasKey j ↔ j ∉ image k v ∧ entries.HasKey j) : Derived image rows' entries' := by
  intro j
  rw [entries_erase, derived j]
  constructor
  · rintro ⟨other, k', v', has, mem⟩
    refine ⟨k', v', (rows_erase k' v').mpr ⟨?_, has⟩, mem⟩
    rintro rfl
    exact other (has.unique has_row ▸ mem)
  · rintro ⟨k', v', has, mem⟩
    obtain ⟨apart, has⟩ := (rows_erase k' v').mp has
    exact ⟨fun here => apart (names mem here), k', v', has, mem⟩

theorem Derived.replace (names : NamesRow image) {k k' : K} {old new : V} (has_row : rows.Has k old)
    (rows_move : ∀ x v, rows'.Has x v ↔ (x = k' ∧ v = new) ∨ (x ≠ k' ∧ x ≠ k ∧ rows.Has x v))
    (free : k = k' ∨ ¬ rows.HasKey k') (entries_move : ∀ j, entries'.HasKey j ↔
      j ∈ image k' new ∨ (j ∉ image k old ∧ entries.HasKey j)) : Derived image rows' entries' := by
  intro j
  rw [entries_move, derived j]
  constructor
  · rintro (here | ⟨other, x, v, has, mem⟩)
    · exact ⟨k', new, (rows_move k' new).mpr (Or.inl ⟨rfl, rfl⟩), here⟩
    · have moved : x ≠ k := by
        rintro rfl
        exact other (has.unique has_row ▸ mem)
      have apart : x ≠ k' := by
        rintro rfl
        rcases free with rfl | unused
        · exact moved rfl
        · exact unused has.hasKey
      exact ⟨x, v, (rows_move x v).mpr (Or.inr ⟨apart, moved, has⟩), mem⟩
  · rintro ⟨x, v, has, mem⟩
    rcases (rows_move x v).mp has with ⟨rfl, rfl⟩ | ⟨-, moved, has⟩
    · exact Or.inl mem
    · exact Or.inr ⟨fun here => moved (names mem here), x, v, has, mem⟩

end

end TidesdbMysql.Base
