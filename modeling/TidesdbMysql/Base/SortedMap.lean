import Mathlib.Tactic.Tauto
import Mathlib.Data.List.Lex
import Mathlib.Data.List.Basic
import Mathlib.Order.Lattice

/-! Maps kept as lists in strict key order, with the seek an ordered store gives:
the entries from a key on. -/
namespace TidesdbMysql.Base
open List Option

structure SortedMap (K V : Type) [LinearOrder K] where
  entries : List (K × V)
  sorted : entries.Pairwise (fun a b => a.1 < b.1)

/-- Where what holds of a later item holds of every earlier one, the items from the front
are all there are. -/
theorem takeWhile_eq_filter {A : Type} {p : A → Bool} {l : List A}
    (closed : l.Pairwise fun a b => p b = true → p a = true) : l.takeWhile p = l.filter p := by
  induction l with
  | nil => rfl
  | cons a rest ih =>
    obtain ⟨later, closed_rest⟩ := pairwise_cons.mp closed
    cases here : p a with
    | true => rw [takeWhile_cons_of_pos here, filter_cons_of_pos here, ih closed_rest]
    | false =>
      have none_left : ∀ b ∈ a :: rest, ¬ p b = true := by
        intro b mem
        rcases mem_cons.mp mem with rfl | behind
        · simp [here]
        · intro holds
          simp [later b behind holds] at here
      rw [takeWhile_cons_of_neg (by simp [here]), filter_eq_nil_iff.mpr none_left]

theorem dropWhile_eq_filter {A : Type} {p : A → Bool} {l : List A}
    (closed : l.Pairwise fun a b => p b = true → p a = true) : l.dropWhile p = l.filter fun a => !p a := by
  induction l with
  | nil => rfl
  | cons a rest ih =>
    obtain ⟨later, closed_rest⟩ := pairwise_cons.mp closed
    cases here : p a with
    | true => simp [here, ih closed_rest]
    | false =>
      have all_rest : rest.filter (fun b => !p b) = rest := by
        refine filter_eq_self.mpr fun b behind => ?_
        cases there : p b with
        | false => rfl
        | true => simp [later b behind there] at here
      simp [here, all_rest]

/-- In a list in strict order, what holds of earlier and later items is what holds of smaller and
greater ones. -/
theorem pairwise_iff_of_sorted {A K : Type} [LinearOrder K] {f : A → K} {l : List A} {r : A → A → Prop}
    (sorted : l.Pairwise fun a b => f a < f b) : l.Pairwise r ↔ ∀ a ∈ l, ∀ b ∈ l, f a < f b → r a b := by
  induction l with
  | nil => simp
  | cons x rest ih =>
    obtain ⟨first, sorted_rest⟩ := pairwise_cons.mp sorted
    rw [pairwise_cons, ih sorted_rest]
    constructor
    · rintro ⟨from_x, later⟩ a ha b hb less
      rcases mem_cons.mp ha with rfl | ha' <;> rcases mem_cons.mp hb with rfl | hb'
      · exact absurd less (lt_irrefl _)
      · exact from_x b hb'
      · exact absurd less (not_lt_of_gt (first a ha'))
      · exact later a ha' b hb' less
    · intro all
      refine ⟨fun b hb => all x mem_cons_self b (mem_cons_of_mem x hb) (first b hb), ?_⟩
      intro a ha b hb less
      exact all a (mem_cons_of_mem x ha) b (mem_cons_of_mem x hb) less

theorem head?_reverse_eq_some_iff {A K : Type} [LinearOrder K] {f : A → K} {l : List A} {a : A}
    (sorted : l.Pairwise fun a b => f a < f b) : l.reverse.head? = some a ↔ a ∈ l ∧ ∀ b ∈ l, f b ≤ f a := by
  have turned : l.reverse.Pairwise fun a b => f b < f a := pairwise_reverse.mpr sorted
  have turned_mem : ∀ b, b ∈ l ↔ b ∈ l.reverse := fun b => mem_reverse.symm
  simp only [turned_mem]
  cases down : l.reverse with
  | nil => simp
  | cons x rest =>
    rw [down] at turned
    have below := (pairwise_cons.mp turned).1
    constructor
    · intro head
      cases head
      refine ⟨mem_cons_self, fun b mem => ?_⟩
      rcases mem_cons.mp mem with rfl | later
      · exact le_rfl
      · exact (below b later).le
    · rintro ⟨mem, greatest⟩
      rcases mem_cons.mp mem with rfl | later
      · rfl
      · exact absurd (below a later) (not_lt.mpr (greatest x mem_cons_self))

namespace SortedMap

variable {K V : Type} [LinearOrder K]

def empty : SortedMap K V := ⟨[], List.Pairwise.nil⟩

section
variable (m : SortedMap K V) (k : K) (v : V)

def Has : Prop := (k, v) ∈ m.entries

def HasKey : Prop := ∃ e ∈ m.entries, e.1 = k
  deriving Decidable

instance [DecidableEq V] : Decidable (m.Has k v) :=
  inferInstanceAs (Decidable ((k, v) ∈ m.entries))

end

instance (m : SortedMap K V) (p : K → Prop) [DecidablePred p] : Decidable (∀ k, m.HasKey k → p k) :=
  decidable_of_iff (∀ e ∈ m.entries, p e.1)
    ⟨fun all _ ⟨e, mem, same⟩ => same ▸ all e mem, fun all e mem => all e.1 ⟨e, mem, rfl⟩⟩

section
variable (m : SortedMap K V) (k : K) (v : V)

def lookup : Option V :=
  (m.entries.find? (fun e => decide (e.1 = k))).map Prod.snd

def put : SortedMap K V where
  entries := m.entries.filter (fun e => decide (e.1 < k)) ++
    (k, v) :: m.entries.filter (fun e => decide (k < e.1))
  sorted := by
    rw [List.pairwise_append, List.pairwise_cons]
    refine ⟨m.sorted.filter _, ⟨?_, m.sorted.filter _⟩, ?_⟩
    · intro e above
      exact of_decide_eq_true (List.mem_filter.mp above).2
    · intro a below b rest
      have low : a.1 < k := of_decide_eq_true (List.mem_filter.mp below).2
      cases List.mem_cons.mp rest with
      | inl here => exact here ▸ low
      | inr above => exact low.trans (of_decide_eq_true (List.mem_filter.mp above).2)

def erase : SortedMap K V where
  entries := m.entries.filter (fun e => decide (e.1 ≠ k))
  sorted := m.sorted.filter _

def seek : List (K × V) :=
  m.entries.dropWhile (fun e => decide (e.1 < k))

end

theorem Has.hasKey {m : SortedMap K V} {k : K} {v : V} (has : m.Has k v) : m.HasKey k :=
  ⟨(k, v), has, rfl⟩

theorem hasKey_iff {m : SortedMap K V} {k : K} : m.HasKey k ↔ ∃ v, m.Has k v := by
  constructor
  · rintro ⟨⟨k', v⟩, mem, rfl⟩
    exact ⟨v, mem⟩
  · rintro ⟨v, has⟩
    exact has.hasKey

theorem entry_unique (m : SortedMap K V) {a b : K × V} (ha : a ∈ m.entries) (hb : b ∈ m.entries)
    (same : a.1 = b.1) : a = b := by
  have apart := m.sorted
  revert ha hb apart
  generalize m.entries = es
  intro ha hb apart
  induction es with
  | nil => cases ha
  | cons e rest ih =>
    rw [pairwise_cons] at apart
    rcases mem_cons.mp ha with rfl | ha' <;> rcases mem_cons.mp hb with rfl | hb'
    · rfl
    · exact absurd same (ne_of_lt (apart.1 b hb'))
    · exact absurd same.symm (ne_of_lt (apart.1 a ha'))
    · exact ih ha' hb' apart.2

theorem Has.unique {m : SortedMap K V} {k : K} {v w : V} (hv : m.Has k v) (hw : m.Has k w) : v = w :=
  congrArg Prod.snd (m.entry_unique hv hw rfl)

theorem lookup_eq_some {m : SortedMap K V} {k : K} {v : V} : m.lookup k = some v ↔ m.Has k v := by
  constructor
  · intro found
    obtain ⟨e, here, rfl⟩ := map_eq_some_iff.mp found
    have key : e.1 = k := by simpa using find?_some here
    exact key ▸ mem_of_find?_eq_some here
  · intro has
    cases found : m.entries.find? (fun e => decide (e.1 = k)) with
    | none =>
      have missing := find?_eq_none.mp found (k, v) has
      simp at missing
    | some e =>
      have key : e.1 = k := by simpa using find?_some found
      have one := m.entry_unique (mem_of_find?_eq_some found) has key
      simp [lookup, found, one]

theorem lookup_eq_none {m : SortedMap K V} {k : K} : m.lookup k = none ↔ ¬ m.HasKey k := by
  rw [hasKey_iff, ← not_isSome_iff_eq_none, isSome_iff_exists]
  simp only [lookup_eq_some]

@[simp] theorem has_empty (k : K) (v : V) : ¬ (empty : SortedMap K V).Has k v := by
  simp [Has, empty]

@[simp] theorem has_put {m : SortedMap K V} {k k' : K} {v v' : V} :
    (m.put k v).Has k' v' ↔ (k' = k ∧ v' = v) ∨ (k' ≠ k ∧ m.Has k' v') := by
  simp only [Has, put, mem_append, mem_cons, mem_filter, Prod.mk.injEq, decide_eq_true_eq]
  constructor
  · rintro (⟨mem, low⟩ | here | ⟨mem, high⟩)
    · exact Or.inr ⟨ne_of_lt low, mem⟩
    · exact Or.inl here
    · exact Or.inr ⟨(ne_of_lt high).symm, mem⟩
  · rintro (here | ⟨other, mem⟩)
    · exact Or.inr (Or.inl here)
    · rcases lt_or_gt_of_ne other with low | high
      · exact Or.inl ⟨mem, low⟩
      · exact Or.inr (Or.inr ⟨mem, high⟩)

@[simp] theorem has_erase {m : SortedMap K V} {k k' : K} {v' : V} : (m.erase k).Has k' v' ↔ k' ≠ k ∧ m.Has k' v' := by
  simp [Has, erase, and_comm]

section
variable (m : SortedMap K V) (ks : List K) (xs ys es : List (K × V))

def putAll : SortedMap K V := es.foldl (fun m e => m.put e.1 e.2) m

theorem has_putAll {m : SortedMap K V} {es : List (K × V)} (distinct : (es.map (·.1)).Nodup) {k : K} {v : V} :
    (m.putAll es).Has k v ↔ (k, v) ∈ es ∨ k ∉ es.map (·.1) ∧ m.Has k v := by
  induction es generalizing m with
  | nil => simp [putAll]
  | cons e rest ih =>
    obtain ⟨fresh, distinct_rest⟩ := nodup_cons.mp distinct
    have step : m.putAll (e :: rest) = (m.put e.1 e.2).putAll rest := rfl
    rw [step, ih distinct_rest, has_put, mem_cons, map_cons, mem_cons, not_or]
    constructor
    · rintro (later | ⟨others, ⟨rfl, rfl⟩ | ⟨other, old⟩⟩)
      · exact .inl (.inr later)
      · exact .inl (.inl rfl)
      · exact .inr ⟨⟨other, others⟩, old⟩
    · rintro ((rfl | later) | ⟨⟨other, others⟩, old⟩)
      · exact .inr ⟨fresh, .inl ⟨rfl, rfl⟩⟩
      · exact .inl later
      · exact .inr ⟨others, .inr ⟨other, old⟩⟩

theorem putAll_append : m.putAll (xs ++ ys) = (m.putAll xs).putAll ys :=
  foldl_append

theorem has_putAll_over {m : SortedMap K V} {es : List (K × V)} {k : K} {v : V} :
    (m.putAll es).Has k v ↔ (empty.putAll es).Has k v ∨ k ∉ es.map (·.1) ∧ m.Has k v := by
  induction es generalizing m with
  | nil => simp [putAll]
  | cons e rest ih =>
    have step : ∀ m : SortedMap K V, m.putAll (e :: rest) = (m.put e.1 e.2).putAll rest := fun _ => rfl
    rw [step, step, ih, @ih (empty.put e.1 e.2), has_put, has_put, map_cons, mem_cons]
    simp only [has_empty]
    tauto

def eraseAll : SortedMap K V := ks.foldl erase m

theorem has_eraseAll {m : SortedMap K V} {ks : List K} {k : K} {v : V} :
    (m.eraseAll ks).Has k v ↔ k ∉ ks ∧ m.Has k v := by
  induction ks generalizing m with
  | nil => simp [eraseAll]
  | cons first rest ih =>
    have step : m.eraseAll (first :: rest) = (m.erase first).eraseAll rest := rfl
    rw [step, ih, has_erase, mem_cons, not_or]
    tauto

@[simp] theorem hasKey_put {m : SortedMap K V} {k k' : K} {v : V} : (m.put k v).HasKey k' ↔ k' = k ∨ m.HasKey k' := by
  simp only [hasKey_iff, has_put]
  constructor
  · rintro ⟨w, ⟨here, -⟩ | ⟨-, has⟩⟩
    · exact Or.inl here
    · exact Or.inr ⟨w, has⟩
  · intro either
    by_cases here : k' = k
    · exact ⟨v, Or.inl ⟨here, rfl⟩⟩
    · obtain ⟨w, has⟩ := either.resolve_left here
      exact ⟨w, Or.inr ⟨here, has⟩⟩

@[simp] theorem hasKey_erase {m : SortedMap K V} {k k' : K} : (m.erase k).HasKey k' ↔ k' ≠ k ∧ m.HasKey k' := by
  simp [hasKey_iff]

theorem hasKey_putAll {m : SortedMap K V} {es : List (K × V)} {k : K} :
    (m.putAll es).HasKey k ↔ k ∈ es.map (·.1) ∨ m.HasKey k := by
  induction es generalizing m with
  | nil => simp [putAll]
  | cons e rest ih =>
    have step : m.putAll (e :: rest) = (m.put e.1 e.2).putAll rest := rfl
    rw [step, ih, hasKey_put, map_cons, mem_cons]
    tauto

theorem mem_of_has_putAll {m : SortedMap K V} {es : List (K × V)} {k : K} {v : V} (has : (m.putAll es).Has k v) :
    (k, v) ∈ es ∨ m.Has k v := by
  induction es generalizing m with
  | nil => exact .inr has
  | cons e rest ih =>
    rcases ih has with later | here
    · exact .inl (mem_cons_of_mem _ later)
    · rcases has_put.mp here with ⟨rfl, rfl⟩ | ⟨-, before⟩
      · exact .inl mem_cons_self
      · exact .inr before

theorem key_of_has_putAll {es : List (K × V)} {k : K} {v : V} (has : (empty.putAll es).Has k v) : k ∈ es.map (·.1) :=
  mem_map.mpr ⟨(k, v), (mem_of_has_putAll has).resolve_right (has_empty k v), rfl⟩

theorem has_putAll_flatMap {A : Type} {xs : List A} {f : A → List (K × V)}
    (apart : xs.Pairwise fun x y => ∀ k ∈ (f x).map (·.1), k ∉ (f y).map (·.1)) {k : K} {v : V} :
    (empty.putAll (xs.flatMap f)).Has k v ↔ ∃ x ∈ xs, (empty.putAll (f x)).Has k v := by
  induction xs with
  | nil => simp [putAll]
  | cons x rest ih =>
    obtain ⟨here, later⟩ := pairwise_cons.mp apart
    rw [flatMap_cons, putAll_append, has_putAll_over, ih later, exists_mem_cons_iff]
    have unmet : (empty.putAll (f x)).Has k v → k ∉ (rest.flatMap f).map (·.1) := by
      intro has
      rw [map_flatMap, mem_flatMap]
      rintro ⟨y, mem, key⟩
      exact here y mem k (key_of_has_putAll has) key
    rw [and_iff_right_of_imp unmet, or_comm]

theorem putAll_flatMap_same_iff {A : Type} {all xs ys : List A} {f g : A → List (K × V)}
    (owned : ∀ x ∈ all, ∀ y ∈ all, ∀ k ∈ (f x ++ g x).map (·.1), k ∈ (f y ++ g y).map (·.1) → x = y)
    (distinct : all.Nodup) (xs_sub : xs.Sublist all) (ys_sub : ys.Sublist all) :
    (∀ k v, (empty.putAll (xs.flatMap f)).Has k v ↔ (empty.putAll (ys.flatMap g)).Has k v) ↔
      ∀ x ∈ all, ∀ k v, (x ∈ xs ∧ (empty.putAll (f x)).Has k v) ↔ (x ∈ ys ∧ (empty.putAll (g x)).Has k v) := by
  have apart : ∀ {h : A → List (K × V)}, (∀ x, ∀ k ∈ (h x).map (·.1), k ∈ (f x ++ g x).map (·.1)) →
      ∀ {zs : List A}, zs.Sublist all → zs.Pairwise fun x y => ∀ k ∈ (h x).map (·.1), k ∉ (h y).map (·.1) := by
    intro h part zs sub
    refine (distinct.sublist sub).imp_of_mem fun {x y} x_mem y_mem other k at_x at_y => other ?_
    exact owned x (sub.subset x_mem) y (sub.subset y_mem) k (part x k at_x) (part y k at_y)
  have left : ∀ x, ∀ k ∈ (f x).map (·.1), k ∈ (f x ++ g x).map (·.1) := by
    intro x k mem
    rw [map_append]
    exact mem_append_left _ mem
  have right : ∀ x, ∀ k ∈ (g x).map (·.1), k ∈ (f x ++ g x).map (·.1) := by
    intro x k mem
    rw [map_append]
    exact mem_append_right _ mem
  simp only [has_putAll_flatMap (apart left xs_sub), has_putAll_flatMap (apart right ys_sub)]
  constructor
  · intro same x x_mem k v
    constructor
    · rintro ⟨x_in, has⟩
      obtain ⟨y, y_in, has_y⟩ := (same k v).mp ⟨x, x_in, has⟩
      obtain rfl := owned x x_mem y (ys_sub.subset y_in) k (left x k (key_of_has_putAll has))
        (right y k (key_of_has_putAll has_y))
      exact ⟨y_in, has_y⟩
    · rintro ⟨x_in, has⟩
      obtain ⟨y, y_in, has_y⟩ := (same k v).mpr ⟨x, x_in, has⟩
      obtain rfl := owned x x_mem y (xs_sub.subset y_in) k (right x k (key_of_has_putAll has))
        (left y k (key_of_has_putAll has_y))
      exact ⟨y_in, has_y⟩
  · intro each k v
    constructor
    · rintro ⟨x, x_in, has⟩
      exact ⟨x, (each x (xs_sub.subset x_in) k v).mp ⟨x_in, has⟩⟩
    · rintro ⟨y, y_in, has⟩
      exact ⟨y, (each y (ys_sub.subset y_in) k v).mpr ⟨y_in, has⟩⟩

def size : Nat := m.entries.length

end

section
variable (m : SortedMap K V) (es : List (K × V)) (k : K) (v : V)

theorem below_above_perm : (es.filter (fun e => decide (e.1 < k)) ++ es.filter fun e => decide (k < e.1)).Perm
      (es.filter fun e => decide (e.1 ≠ k)) := by
  induction es with
  | nil => exact List.Perm.nil
  | cons e rest ih =>
    rcases lt_trichotomy e.1 k with low | here | high
    · rw [filter_cons_of_pos (by simpa using low), filter_cons_of_neg (by simpa using low.le),
        filter_cons_of_pos (by simpa using ne_of_lt low)]
      exact ih.cons e
    · rw [filter_cons_of_neg (by simp [here]), filter_cons_of_neg (by simp [here]), filter_cons_of_neg (by simp [here])]
      exact ih
    · rw [filter_cons_of_neg (by simpa using high.le), filter_cons_of_pos (by simpa using high),
        filter_cons_of_pos (by simpa using (ne_of_lt high).symm)]
      exact perm_middle.trans (ih.cons e)

theorem put_perm : (m.put k v).entries.Perm ((k, v) :: (m.erase k).entries) :=
  perm_middle.trans ((below_above_perm m.entries k).cons (k, v))

theorem size_put : (m.put k v).size = (m.erase k).size + 1 :=
  (m.put_perm k v).length_eq

theorem erase_of_not {m : SortedMap K V} {k : K} (unused : ¬ m.HasKey k) : (m.erase k).entries = m.entries := by
  apply filter_eq_self.mpr
  intro e mem
  have other : e.1 ≠ k := fun here => unused ⟨e, mem, here⟩
  simpa using other

theorem size_erase_of_not {m : SortedMap K V} {k : K} (unused : ¬ m.HasKey k) : (m.erase k).size = m.size :=
  congrArg length (erase_of_not unused)

theorem perm_without {es : List (K × V)} (ordered : es.Pairwise fun a b => a.1 < b.1) {e : K × V}
    (mem : e ∈ es) : (e :: es.filter fun x => decide (x.1 ≠ e.1)).Perm es := by
  induction es with
  | nil => cases mem
  | cons x rest ih =>
    rw [pairwise_cons] at ordered
    rcases mem_cons.mp mem with rfl | later
    · have others : ∀ y ∈ rest, decide (y.1 ≠ e.1) = true := by
        intro y hy
        simpa using (ne_of_lt (ordered.1 y hy)).symm
      rw [filter_cons_of_neg (by simp), filter_eq_self.mpr others]
    · have apart : x.1 ≠ e.1 := ne_of_lt (ordered.1 e later)
      rw [filter_cons_of_pos (by simpa using apart)]
      exact (List.Perm.swap x e _).trans ((ih ordered.2 later).cons x)

theorem erase_perm {m : SortedMap K V} {k : K} {v : V} (has : m.Has k v) :
    ((k, v) :: (m.erase k).entries).Perm m.entries :=
  perm_without m.sorted has

theorem size_erase_of_has {m : SortedMap K V} {k : K} (used : m.HasKey k) : (m.erase k).size + 1 = m.size := by
  obtain ⟨v, has⟩ := hasKey_iff.mp used
  exact (erase_perm has).length_eq

theorem seek_eq_filter : m.seek k = m.entries.filter (fun e => decide (k ≤ e.1)) := by
  have ordered := m.sorted
  revert ordered
  unfold seek
  generalize m.entries = es
  intro ordered
  induction es with
  | nil => rfl
  | cons e rest ih =>
    rw [pairwise_cons] at ordered
    by_cases low : e.1 < k
    · simp [low, not_le.mpr low, ih ordered.2]
    · have from_here : ∀ x ∈ e :: rest, decide (k ≤ x.1) = true := by
        intro x mem
        rcases mem_cons.mp mem with rfl | later
        · simpa using low
        · simpa using (not_lt.mp low).trans (ordered.1 x later).le
      rw [dropWhile_cons_of_neg (by simpa using low), filter_eq_self.mpr from_here]

theorem mem_seek {m : SortedMap K V} {k : K} {e : K × V} : e ∈ m.seek k ↔ e ∈ m.entries ∧ k ≤ e.1 := by
  simp [seek_eq_filter]

theorem seek_sorted : (m.seek k).Pairwise (fun a b => a.1 < b.1) := by
  rw [seek_eq_filter]
  exact m.sorted.filter _

end

theorem last_entry {m : SortedMap K V} {k : K} {v : V} (last : m.entries.getLast? = some (k, v)) :
    m.Has k v ∧ ∀ k', m.HasKey k' → k' ≤ k := by
  obtain ⟨before, parts⟩ := getLast?_eq_some_iff.mp last
  have ordered := m.sorted
  rw [parts, pairwise_append] at ordered
  constructor
  · rw [Has, parts]
    exact mem_append_right _ (mem_singleton.mpr rfl)
  · rintro k' ⟨e, mem, rfl⟩
    rw [parts, mem_append, mem_singleton] at mem
    rcases mem with earlier | rfl
    · exact le_of_lt (ordered.2.2 e earlier (k, v) (mem_singleton.mpr rfl))
    · exact le_rfl

end SortedMap

end TidesdbMysql.Base
