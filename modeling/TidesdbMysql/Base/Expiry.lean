import TidesdbMysql.Base.SortedMap

/-! Maps whose entries die: every value comes with a deadline. -/
namespace TidesdbMysql.Base
open Option

/- The moment an entry dies at; `none` is never. -/
abbrev Deadline := Option Nat

section
variable (deadline other : Deadline) (t : Nat)

def LiveAt : Prop := ∀ d ∈ deadline, t < d
  deriving Decidable

def Lasts : Prop := ∀ d ∈ deadline, ∃ x ∈ other, x ≤ d
  deriving Decidable

end

theorem LiveAt.of_lasts {deadline other : Deadline} {t : Nat} (live : LiveAt other t) (lasts : Lasts deadline other) :
    LiveAt deadline t := by
  intro d mem
  obtain ⟨x, there, le⟩ := lasts d mem
  exact (live x there).trans_le le

theorem exists_last_moment {other : Deadline} {now : Nat} (live : LiveAt other now) (deadlines : List Deadline) :
    ∃ t, now ≤ t ∧ LiveAt other t ∧ ∀ deadline ∈ deadlines, LiveAt deadline t → Lasts deadline other := by
  cases other with
  | none =>
    -- a moment after every deadline there is
    induction deadlines with
    | nil => exact ⟨now, Nat.le_refl now, live, List.forall_mem_nil _⟩
    | cons deadline rest ih =>
      obtain ⟨t, later, forever, rest_last⟩ := ih
      refine ⟨max t (deadline.getD 0), later.trans (le_max_left _ _), fun d never => absurd never (not_mem_none d), ?_⟩
      rw [List.forall_mem_cons]
      constructor
      · intro alive d here
        have after := alive d here
        rw [mem_def.mp here, getD_some] at after
        exact absurd after (not_lt.mpr (le_max_right _ _))
      · intro deadline mem alive
        exact rest_last deadline mem fun d here => (le_max_left _ _).trans_lt (alive d here)
  | some x =>
    have after : now < x := live x rfl
    refine ⟨x - 1, by omega, fun y same => ?_, fun deadline _ alive d here => ?_⟩
    · cases same
      omega
    · have before := alive d here
      exact ⟨x, rfl, by omega⟩

namespace SortedMap

variable {K V : Type} [LinearOrder K]

def expire (m : SortedMap K (V × Deadline)) (now : Nat) : SortedMap K (V × Deadline) where
  entries := m.entries.filter fun e => decide (LiveAt e.2.2 now)
  sorted := m.sorted.filter _

variable {m : SortedMap K (V × Deadline)} {k : K} {v : V}

@[simp] theorem has_expire {now : Nat} {d : Deadline} :
    (m.expire now).Has k (v, d) ↔ m.Has k (v, d) ∧ LiveAt d now := by
  simp [Has, expire]

def HasUntil (m : SortedMap K (V × Deadline)) (k : K) (d : Deadline) : Prop := ∃ v, m.Has k (v, d)

instance (m : SortedMap K (V × Deadline)) (k : K) (p : Deadline → Prop) [DecidablePred p] : Decidable (∃ d, m.HasUntil k d ∧ p d) :=
  decidable_of_iff (∃ e ∈ m.entries, e.1 = k ∧ p e.2.2)
    ⟨fun ⟨e, mem, same, holds⟩ => ⟨e.2.2, ⟨e.2.1, same ▸ mem⟩, holds⟩,
      fun ⟨d, ⟨v, has⟩, holds⟩ => ⟨(k, (v, d)), has, rfl, holds⟩⟩

theorem hasUntil_expire {now : Nat} {d : Deadline} : (m.expire now).HasUntil k d ↔ m.HasUntil k d ∧ LiveAt d now := by
  simp only [HasUntil, has_expire, exists_and_right]

theorem hasUntil_put {k j : K} {d e : Deadline} :
    (m.put k (v, d)).HasUntil j e ↔ (j = k ∧ e = d) ∨ (j ≠ k ∧ m.HasUntil j e) := by
  simp only [HasUntil, has_put, Prod.mk.injEq]
  constructor
  · rintro ⟨w, ⟨here, -, same⟩ | ⟨apart, has⟩⟩
    · exact Or.inl ⟨here, same⟩
    · exact Or.inr ⟨apart, w, has⟩
  · rintro (⟨here, same⟩ | ⟨apart, w, has⟩)
    · exact ⟨v, Or.inl ⟨here, rfl, same⟩⟩
    · exact ⟨w, Or.inr ⟨apart, has⟩⟩

section
variable (m k v) (d : Deadline)

def values : SortedMap K V where
  entries := m.entries.map fun e => (e.1, e.2.1)
  sorted := List.pairwise_map.mpr m.sorted

end

end SortedMap

end TidesdbMysql.Base
