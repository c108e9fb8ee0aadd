import TidesdbMysql.Base.SortedMap

/-! Entries of a map moved from key to key, each move clearing its destination first. -/
namespace TidesdbMysql.Base.SortedMap
open List

variable {K V : Type} [LinearOrder K] {m : SortedMap K V}
variable {v : V} {within : K → Prop}

theorem ext_has {m m' : SortedMap K V} (same : ∀ k v, m.Has k v ↔ m'.Has k v) : m = m' := by
  have once : ∀ n : SortedMap K V, n.entries.Nodup := fun n => n.sorted.imp fun lt same => by
    rw [same] at lt
    exact lt_irrefl _ lt
  have perm : m.entries.Perm m'.entries :=
    (perm_ext_iff_of_nodup (once m) (once m')).mpr fun e => same e.1 e.2
  have entries := perm.eq_of_pairwise (fun a b _ _ ab ba => absurd (lt_trans ab ba) (lt_irrefl _)) m.sorted m'.sorted
  cases m
  cases m'
  cases entries
  rfl

def move (m : SortedMap K V) (src dst : K) : SortedMap K V :=
  match m.lookup src with
  | none => m
  | some v => (m.erase src).put dst v

theorem has_move {src dst k : K} (free : ¬ m.HasKey dst) :
    (m.move src dst).Has k v ↔ k = dst ∧ m.Has src v ∨ k ≠ src ∧ m.Has k v := by
  unfold move
  cases present : m.lookup src with
  | none =>
    have absent := lookup_eq_none.mp present
    constructor
    · intro has
      refine .inr ⟨?_, has⟩
      rintro rfl
      exact absent has.hasKey
    · rintro (⟨-, has⟩ | ⟨-, has⟩)
      · exact absurd has.hasKey absent
      · exact has
  | some w =>
    have here : m.Has src w := lookup_eq_some.mp present
    simp only [has_put, has_erase]
    constructor
    · rintro (⟨rfl, rfl⟩ | ⟨-, other, has⟩)
      · exact .inl ⟨rfl, here⟩
      · exact .inr ⟨other, has⟩
    · rintro (⟨rfl, has⟩ | ⟨other, has⟩)
      · exact .inl ⟨rfl, has.unique here⟩
      · refine .inr ⟨?_, other, has⟩
        rintro rfl
        exact free has.hasKey

/-- The destination is cleared first, if that succeeds; the move succeeds only onto a free key. -/
def replace (m : SortedMap K V) (clears renames : Bool) (src dst : K) : SortedMap K V :=
  let m := if clears then m.erase dst else m
  if renames = true ∧ ¬ m.HasKey dst then m.move src dst else m

theorem has_replace {clears renames : Bool} {src dst k : K} : (m.replace clears renames src dst).Has k v ↔
      (renames = true ∧ (m.HasKey dst → clears = true)) ∧ src ≠ dst ∧ k = dst ∧ m.Has src v ∨
      ¬ ((renames = true ∧ (m.HasKey dst → clears = true)) ∧ k = src) ∧ ¬ (clears = true ∧ k = dst) ∧ m.Has k v := by
  have cleared : ¬ (m.erase dst).HasKey dst := by
    rw [hasKey_erase]
    exact fun still => still.1 rfl
  have absent : ∀ {w}, ¬ m.HasKey dst → ¬ m.Has dst w := fun free has => free has.hasKey
  unfold replace
  cases clears with
  | true =>
    cases renames with
    | true =>
      simp only [if_true, cleared, not_false_eq_true, and_self, has_move cleared, has_erase]
      tauto
    | false =>
      simp only [if_true, Bool.false_eq_true, false_and, if_false, has_erase]
      tauto
  | false =>
    by_cases free : m.HasKey dst
    · simp [free]
    · cases renames with
      | true =>
        simp only [Bool.false_eq_true, if_false, free, not_false_eq_true, and_self, if_true, has_move free]
        have empty : src = dst → ¬ m.Has src v := by
          rintro rfl
          exact absent free
        tauto
      | false => simp

def replaceAll (m : SortedMap K V) (dest : K → K) (clears renames : K → Bool) (srcs : List K) : SortedMap K V :=
  srcs.foldl (fun m s => m.replace (clears s) (renames s) s (dest s)) m

def Goes (m : SortedMap K V) (dest : K → K) (clears renames : K → Bool) (s : K) : Prop :=
  renames s = true ∧ (m.HasKey (dest s) → clears s = true)

variable {dest : K → K} {clears renames : K → Bool} {srcs : List K}

theorem has_replaceAll (apart : ∀ s ∈ srcs, ∀ s' ∈ srcs, dest s ≠ s')
    (injective : ∀ s ∈ srcs, ∀ s' ∈ srcs, dest s = dest s' → s = s') (distinct : srcs.Nodup) {k : K} :
    (m.replaceAll dest clears renames srcs).Has k v ↔
      (∃ s ∈ srcs, m.Goes dest clears renames s ∧ k = dest s ∧ m.Has s v) ∨
      (∀ s ∈ srcs, ¬ (m.Goes dest clears renames s ∧ k = s) ∧ ¬ (clears s = true ∧ k = dest s)) ∧ m.Has k v := by
  induction srcs generalizing m with
  | nil => simp [replaceAll]
  | cons s rest ih =>
    have fresh := (nodup_cons.mp distinct).1
    have later := @ih (m.replace (clears s) (renames s) s (dest s))
      (fun a a_in b b_in => apart a (mem_cons_of_mem _ a_in) b (mem_cons_of_mem _ b_in))
      (fun a a_in b b_in => injective a (mem_cons_of_mem _ a_in) b (mem_cons_of_mem _ b_in))
      (nodup_cons.mp distinct).2
    have step : m.replaceAll dest clears renames (s :: rest) =
      (m.replace (clears s) (renames s) s (dest s)).replaceAll dest clears renames rest := rfl
    have unmet : ∀ a ∈ rest, dest a ≠ dest s := by
      intro a a_in same
      exact fresh (injective a (mem_cons_of_mem _ a_in) s mem_cons_self same ▸ a_in)
    have moves : s ≠ dest s := (apart s mem_cons_self s mem_cons_self).symm
    have aside : ∀ a ∈ rest, dest s ≠ a := fun a a_in => apart s mem_cons_self a (mem_cons_of_mem _ a_in)
    have ahead : ∀ a ∈ rest, dest a ≠ s := fun a a_in => apart a (mem_cons_of_mem _ a_in) s mem_cons_self
    -- keys other than this source and this destination are as they were
    have kept : ∀ {a}, a ≠ s → a ≠ dest s → ∀ {w},
        ((m.replace (clears s) (renames s) s (dest s)).Has a w ↔ m.Has a w) := by
      intro a other away w
      rw [has_replace]
      tauto
    have goes : ∀ a ∈ rest, ((m.replace (clears s) (renames s) s (dest s)).Goes dest clears renames a ↔
        m.Goes dest clears renames a) := by
      intro a a_in
      simp only [Goes, hasKey_iff, kept (ahead a a_in) (unmet a a_in)]
    have other : ∀ a ∈ rest, a ≠ s := fun a a_in same => fresh (same ▸ a_in)
    rw [step, later, exists_mem_cons_iff, forall_mem_cons, has_replace]
    constructor
    · rintro (⟨a, a_in, gone, rfl, has⟩ | ⟨rest_off, ⟨gone, -, rfl, has⟩ | ⟨off, off_dest, has⟩⟩)
      · exact .inl (.inr ⟨a, a_in, (goes a a_in).mp gone, rfl, (kept (other a a_in) (aside a a_in).symm).mp has⟩)
      · exact .inl (.inl ⟨gone, rfl, has⟩)
      · refine .inr ⟨⟨⟨off, off_dest⟩, fun a a_in => ?_⟩, has⟩
        rw [← goes a a_in]
        exact rest_off a a_in
    · rintro ((⟨gone, rfl, has⟩ | ⟨a, a_in, gone, rfl, has⟩) | ⟨⟨⟨off, off_dest⟩, rest_off⟩, has⟩)
      · exact .inr ⟨fun a a_in => ⟨fun meets => aside a a_in meets.2, fun meets => unmet a a_in meets.2.symm⟩,
          .inl ⟨gone, moves, rfl, has⟩⟩
      · exact .inl ⟨a, a_in, (goes a a_in).mpr gone, rfl, (kept (other a a_in) (aside a a_in).symm).mpr has⟩
      · refine .inr ⟨fun a a_in => ?_, .inr ⟨off, off_dest, has⟩⟩
        rw [goes a a_in]
        exact rest_off a a_in

theorem within_of_replaceAll (closed : ∀ s ∈ srcs, within s → within (dest s)) (start : ∀ k, m.Has k v → within k) :
    ∀ k, (m.replaceAll dest clears renames srcs).Has k v → within k := by
  induction srcs generalizing m with
  | nil => exact start
  | cons s rest ih =>
    refine @ih (m.replace (clears s) (renames s) s (dest s)) (fun a a_in => closed a (mem_cons_of_mem _ a_in))
      fun k has => ?_
    rcases has_replace.mp has with ⟨-, -, rfl, here⟩ | ⟨-, -, here⟩
    · exact closed s mem_cons_self (start s here)
    · exact start k here

/-- What stood alone under a key that is moved or cleared is found afterwards only where its key can
lead. -/
theorem displaced {home : K} (alone : ∀ k, m.Has k v → k = home) (hit : ∃ s ∈ srcs, s = home ∨ dest s = home)
    (leaves : home ∈ srcs → dest home ≠ home → within (dest home)) (closed : ∀ s ∈ srcs, within s → within (dest s)) :
    ∀ k, (m.replaceAll dest (fun _ => true) (fun _ => true) srcs).Has k v → within k := by
  induction srcs generalizing m with
  | nil => exact absurd hit (by simp)
  | cons s rest ih =>
    have closed_rest : ∀ a ∈ rest, within a → within (dest a) := fun a a_in => closed a (mem_cons_of_mem _ a_in)
    have once : ∀ k, (m.replace true true s (dest s)).Has k v → s ≠ dest s ∧ k = dest s ∧ m.Has s v ∨
        k ≠ s ∧ k ≠ dest s ∧ m.Has k v := by
      intro k has
      simpa using has_replace.mp has
    by_cases now : s = home ∨ dest s = home
    · change ∀ k, ((m.replace true true s (dest s)).replaceAll dest _ _ rest).Has k v → within k
      refine within_of_replaceAll closed_rest fun k has => ?_
      rcases once k has with ⟨moves, rfl, here⟩ | ⟨other, away, here⟩
      · obtain rfl := alone s here
        exact leaves mem_cons_self moves.symm
      · obtain rfl := alone k here
        rcases now with same | same
        · exact absurd same.symm other
        · exact absurd same.symm away
    · rw [not_or] at now
      refine @ih (m.replace true true s (dest s)) (fun k has => ?_) ?_
        (fun listed => leaves (mem_cons_of_mem _ listed)) closed_rest
      · rcases once k has with ⟨-, -, here⟩ | ⟨-, -, here⟩
        · exact absurd (alone s here) now.1
        · exact alone k here
      · obtain ⟨a, listed, meets⟩ := hit
        rcases mem_cons.mp listed with rfl | listed
        · exact absurd meets (not_or.mpr now)
        · exact ⟨a, listed, meets⟩

end TidesdbMysql.Base.SortedMap
