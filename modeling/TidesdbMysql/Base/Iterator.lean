import TidesdbMysql.Base.SortedMap

/-! An iterator over an ordered store that moves both ways, and reading through it until a read
fails. -/
namespace TidesdbMysql.Base
open List

structure Spot (E : Type) where
  behind : List E
  here : E
  ahead : List E

abbrev Iter (E : Type) := Option (Spot E)

namespace Iter

variable {E : Type}

def ofAhead (behind : List E) : List E → Iter E
  | [] => none
  | e :: rest => some ⟨behind, e, rest⟩

def flip (it : Iter E) : Iter E := it.map fun p => ⟨p.ahead, p.here, p.behind⟩

def next (it : Iter E) : Iter E := it.bind fun p => ofAhead (p.here :: p.behind) p.ahead

def prev (it : Iter E) : Iter E := it.flip.next.flip

def skipAhead (p : E → Bool) : List E → List E → Iter E
  | _, [] => none
  | behind, e :: rest => if p e then skipAhead p (e :: behind) rest else some ⟨behind, e, rest⟩

/-- Move on as long as the item satisfies `p`. -/
def nextWhile (p : E → Bool) (it : Iter E) : Iter E := it.bind fun s => skipAhead p s.behind (s.here :: s.ahead)

def prevWhile (p : E → Bool) (it : Iter E) : Iter E := (it.flip.nextWhile p).flip

def item (it : Iter E) : Option E := it.map Spot.here

def forward : Iter E → List E
  | none => []
  | some p => p.here :: p.ahead

def backward (it : Iter E) : List E := it.flip.forward

def On (items : List E) (it : Iter E) : Prop := ∀ p ∈ it, p.behind.reverse ++ p.here :: p.ahead = items

section
variable (p : E → Bool) (behind items : List E) (it : Iter E)

@[simp] theorem flip_flip : it.flip.flip = it := by
  cases it <;> rfl

@[simp] theorem item_flip : it.flip.item = it.item := by
  cases it <;> rfl

theorem item_eq_head : it.item = it.forward.head? := by
  cases it <;> rfl

theorem item_eq_head_backward : it.item = it.backward.head? := by
  rw [backward, ← item_eq_head, item_flip]

@[simp] theorem forward_ofAhead : (ofAhead behind items).forward = items := by
  cases items <;> rfl

@[simp] theorem forward_next : it.next.forward = it.forward.tail := by
  cases it with
  | none => rfl
  | some p => exact forward_ofAhead _ _

@[simp] theorem backward_prev : it.prev.backward = it.backward.tail := by
  simp [prev, backward]

theorem forward_skipAhead : (skipAhead p behind items).forward = items.dropWhile p := by
  induction items generalizing behind with
  | nil => rfl
  | cons e rest ih =>
    rw [skipAhead]
    cases here : p e with
    | true => simp [ih, here]
    | false => simp [forward, here]

@[simp] theorem forward_nextWhile : (it.nextWhile p).forward = it.forward.dropWhile p := by
  cases it with
  | none => rfl
  | some s => exact forward_skipAhead p s.behind (s.here :: s.ahead)

@[simp] theorem backward_prevWhile : (it.prevWhile p).backward = it.backward.dropWhile p := by
  simp [prevWhile, backward]

end

variable {it : Iter E} {p : E → Bool} {items : List E}

theorem forward_eq_nil : it.forward = [] ↔ it = none := by
  cases it <;> simp [forward]

theorem backward_eq_nil : it.backward = [] ↔ it = none := by
  cases it <;> simp [backward, flip, forward]

theorem backward_of_item {e : E} (here : it.item = some e) : it.backward = e :: it.backward.tail := by
  cases it with
  | none => cases here
  | some s =>
    cases here
    rfl

theorem nextWhile_of_item (stop : ∀ e ∈ it.item, p e = false) : it.nextWhile p = it := by
  cases it with
  | none => rfl
  | some s =>
    have here : p s.here = false := stop s.here rfl
    simp [nextWhile, skipAhead, here]

theorem nextWhile_of_pos {s : Spot E} (skipped : p s.here = true) :
    nextWhile p (some s) = nextWhile p (next (some s)) := by
  obtain ⟨behind, here, ahead⟩ := s
  have passed : nextWhile p (some ⟨behind, here, ahead⟩) = skipAhead p (here :: behind) ahead := if_pos skipped
  rw [passed]
  cases ahead with
  | nil | cons => rfl

theorem On.flip (on : it.On items) : it.flip.On items.reverse := by
  intro p mem
  obtain ⟨q, here, rfl⟩ := Option.map_eq_some_iff.mp mem
  have whole := on q here
  simp [← whole]

theorem On.ofAhead (behind items : List E) : (Iter.ofAhead behind items).On (behind.reverse ++ items) := by
  intro p mem
  cases items with
  | nil => simp [Iter.ofAhead] at mem
  | cons e rest =>
    cases mem
    rfl

theorem On.next (on : it.On items) : it.next.On items := by
  cases it with
  | none => exact on
  | some p =>
    have whole := on p rfl
    have moved := On.ofAhead (p.here :: p.behind) p.ahead
    rw [reverse_cons, append_assoc, singleton_append, whole] at moved
    exact moved

theorem On.prev (on : it.On items) : it.prev.On items := by
  have turned := on.flip.next.flip
  rw [reverse_reverse] at turned
  exact turned

theorem On.skipAhead (p : E → Bool) (behind items : List E) : (Iter.skipAhead p behind items).On (behind.reverse ++ items) := by
  induction items generalizing behind with
  | nil => exact fun _ none_there => nomatch none_there
  | cons e rest ih =>
    rw [Iter.skipAhead]
    cases here : p e with
    | true =>
      have moved := ih (e :: behind)
      rw [reverse_cons, append_assoc, singleton_append] at moved
      simpa using moved
    | false =>
      intro s mem
      cases mem
      rfl

theorem On.nextWhile (on : it.On items) (p : E → Bool) : (it.nextWhile p).On items := by
  cases it with
  | none => exact on
  | some s =>
    have moved := On.skipAhead p s.behind (s.here :: s.ahead)
    rw [on s rfl] at moved
    exact moved

theorem On.forward_suffix (on : it.On items) : it.forward <:+ items := by
  cases it with
  | none => exact nil_suffix
  | some s => exact ⟨s.behind.reverse, on s rfl⟩

theorem On.backward_suffix (on : it.On items) : it.backward <:+ items.reverse :=
  on.flip.forward_suffix

theorem On.backward_tail {front back : List E} (on : it.On (front ++ back)) (ahead : it.forward = back)
    (some_back : back ≠ []) : it.backward.tail = front.reverse := by
  cases it with
  | none => exact absurd ahead.symm some_back
  | some s =>
    have whole := on s rfl
    rw [← ahead] at whole
    have behind : s.behind.reverse = front := append_cancel_right whole
    rw [← behind, reverse_reverse]
    rfl

theorem On.dropWhile_forward {front back : List E} (on : it.On (front ++ back)) (skips : ∀ e ∈ front, p e = true)
    (stays : ∀ e ∈ back, p e = false) (inside : ∃ e ∈ it.item, p e = true) : it.forward.dropWhile p = back := by
  obtain ⟨e, here, skipped⟩ := inside
  cases it with
  | none => simp [item] at here
  | some s =>
    cases here
    have whole := on s rfl
    rcases append_eq_append_iff.mp whole with ⟨more, front_eq, rest_eq⟩ | ⟨more, behind_eq, back_eq⟩
    · -- the place lies in the front part
      have front_more : ∀ e ∈ more, p e = true := fun e mem => skips e (by simp [front_eq, mem])
      rw [forward, rest_eq, dropWhile_append_of_pos front_more]
      cases back with
      | nil => rfl
      | cons b rest => simp [stays b mem_cons_self]
    · have late : s.here ∈ back := by simp [back_eq]
      rw [stays _ late] at skipped
      cases skipped

end Iter

namespace SortedMap

variable {K V : Type} [LinearOrder K]

/- Where a seek leaves an iterator: at the first entry from the key on, or at the last one up to it. -/

def upTo (m : SortedMap K V) (k : K) : List (K × V) := m.entries.filter fun e => decide (e.1 ≤ k)

variable {m : SortedMap K V} {k : K} {e : K × V}

theorem mem_upTo : e ∈ m.upTo k ↔ e ∈ m.entries ∧ e.1 ≤ k := by
  simp [upTo]

def after (m : SortedMap K V) (k : K) : List (K × V) := m.entries.filter fun e => decide (k < e.1)

theorem mem_after : e ∈ m.after k ↔ e ∈ m.entries ∧ k < e.1 := by
  simp [after]

theorem passing_eq_filter {l : List (K × V)} (later : l.Pairwise fun _ b => b.1 ≠ k) :
    (if l.head?.map Prod.fst = some k then l.tail else l) = l.filter fun e => decide (e.1 ≠ k) := by
  cases l with
  | nil => rfl
  | cons e rest =>
    have all_rest : rest.filter (fun e => decide (e.1 ≠ k)) = rest :=
      filter_eq_self.mpr fun x mem => decide_eq_true ((pairwise_cons.mp later).1 x mem)
    by_cases same : e.1 = k
    · rw [if_pos (by simp [same]), filter_cons_of_neg (by simp [same]), all_rest, tail_cons]
    · rw [if_neg (by simp [same]), filter_cons_of_pos (by simp [same]), all_rest]

theorem seek_passing (m : SortedMap K V) (k : K) :
    (if (m.seek k).head?.map Prod.fst = some k then (m.seek k).tail else m.seek k) = m.after k := by
  rw [passing_eq_filter, seek_eq_filter, filter_filter, after]
  · refine filter_congr fun e _ => ?_
    rw [← Bool.decide_and, decide_eq_decide, and_comm, ne_comm]
    exact lt_iff_le_and_ne.symm
  · refine (m.seek_sorted k).imp_of_mem fun in_a _ less => ?_
    exact ne_of_gt (lt_of_le_of_lt (mem_seek.mp in_a).2 less)

def before (m : SortedMap K V) (k : K) : List (K × V) := m.entries.filter fun e => decide (e.1 < k)

theorem mem_before : e ∈ m.before k ↔ e ∈ m.entries ∧ e.1 < k := by
  simp [before]

theorem upTo_passing (m : SortedMap K V) (k : K) :
    (if (m.upTo k).reverse.head?.map Prod.fst = some k then (m.upTo k).reverse.tail else (m.upTo k).reverse) =
      (m.before k).reverse := by
  rw [passing_eq_filter, filter_reverse, upTo, filter_filter, before]
  · congr 1
    refine filter_congr fun e _ => ?_
    rw [← Bool.decide_and, decide_eq_decide, and_comm]
    exact lt_iff_le_and_ne.symm
  · have sorted : (m.upTo k).reverse.Pairwise fun a b => b.1 < a.1 := by
      rw [pairwise_reverse]
      exact m.sorted.filter _
    refine sorted.imp_of_mem fun in_a _ less => ?_
    exact ne_of_lt (lt_of_lt_of_le less (mem_upTo.mp (mem_reverse.mp in_a)).2)

theorem filter_eq_head {p : K × V → Bool}
    (first_only : ∀ e ∈ m.entries, p e = true ↔ m.entries.head? = some e) : m.entries.filter p = m.entries.head?.toList := by
  have sorted := m.sorted
  cases entries : m.entries with
  | nil => rfl
  | cons first rest =>
    rw [entries] at sorted first_only
    have none_later : rest.filter p = [] := by
      refine filter_eq_nil_iff.mpr fun e later passed => ?_
      have less := (pairwise_cons.mp sorted).1 e later
      cases (first_only e (mem_cons_of_mem first later)).mp passed
      exact lt_irrefl _ less
    rw [filter_cons_of_pos ((first_only first mem_cons_self).mpr rfl), none_later]
    rfl

theorem seek_tail_of_hasKey (used : m.HasKey k) : (m.seek k).tail = m.after k := by
  obtain ⟨e, mem, rfl⟩ := used
  have here : e ∈ m.seek e.1 := mem_seek.mpr ⟨mem, le_rfl⟩
  have first : (m.seek e.1).head?.map Prod.fst = some e.1 := by
    have sorted := m.seek_sorted e.1
    cases found : m.seek e.1 with
    | nil => simp [found] at here
    | cons x rest =>
      rw [found] at here sorted
      have low : e.1 ≤ x.1 := (mem_seek.mp (found ▸ mem_cons_self)).2
      rcases mem_cons.mp here with rfl | later
      · rfl
      · exact absurd low (not_le.mpr ((pairwise_cons.mp sorted).1 e later))
  rw [← seek_passing, if_pos first]

section
variable (m k)

def iterSeek : Iter (K × V) :=
  .ofAhead (m.entries.takeWhile fun e => decide (e.1 < k)).reverse (m.seek k)

def iterSeekForPrev : Iter (K × V) :=
  (Iter.ofAhead (m.entries.dropWhile fun e => decide (e.1 ≤ k))
    (m.entries.takeWhile fun e => decide (e.1 ≤ k)).reverse).flip

def iterSeekToFirst : Iter (K × V) := .ofAhead [] m.entries

def iterSeekToLast : Iter (K × V) := (Iter.ofAhead [] m.entries.reverse).flip

@[simp] theorem forward_iterSeek : (m.iterSeek k).forward = m.seek k :=
  Iter.forward_ofAhead _ _

@[simp] theorem backward_iterSeekForPrev : (m.iterSeekForPrev k).backward = (m.upTo k).reverse := by
  have group : m.entries.takeWhile (fun e => decide (e.1 ≤ k)) = m.upTo k := by
    refine takeWhile_eq_filter (m.sorted.imp fun before => ?_)
    simp only [decide_eq_true_eq]
    exact before.le.trans
  rw [iterSeekForPrev, group, Iter.backward, Iter.flip_flip, Iter.forward_ofAhead]

@[simp] theorem forward_iterSeekToFirst : m.iterSeekToFirst.forward = m.entries :=
  Iter.forward_ofAhead _ _

@[simp] theorem backward_iterSeekToLast : m.iterSeekToLast.backward = m.entries.reverse := by
  rw [iterSeekToLast, Iter.backward, Iter.flip_flip, Iter.forward_ofAhead]

theorem iterSeek_on : (m.iterSeek k).On m.entries := by
  have placed := Iter.On.ofAhead (m.entries.takeWhile fun e => decide (e.1 < k)).reverse (m.seek k)
  rw [reverse_reverse, seek, takeWhile_append_dropWhile] at placed
  exact placed

end

theorem backward_prev_iterSeek (more : m.seek k ≠ []) : (m.iterSeek k).prev.backward = (m.before k).reverse := by
  have parts : m.entries = m.entries.takeWhile (fun e => decide (e.1 < k)) ++ m.seek k := by
    rw [seek, takeWhile_append_dropWhile]
  have front : m.entries.takeWhile (fun e => decide (e.1 < k)) = m.before k := by
    refine takeWhile_eq_filter (m.sorted.imp fun before => ?_)
    simp only [decide_eq_true_eq]
    exact before.trans
  have on := m.iterSeek_on k
  rw [parts] at on
  rw [Iter.backward_prev, on.backward_tail (forward_iterSeek m k) more, front]

theorem iterSeekToFirst_on (m : SortedMap K V) : m.iterSeekToFirst.On m.entries :=
  Iter.On.ofAhead [] m.entries

theorem iterSeekToLast_on (m : SortedMap K V) : m.iterSeekToLast.On m.entries := by
  have turned := (Iter.On.ofAhead [] m.entries.reverse).flip
  rw [reverse_nil, nil_append, reverse_reverse] at turned
  exact turned

theorem iterSeekForPrev_on (m : SortedMap K V) (k : K) : (m.iterSeekForPrev k).On m.entries := by
  have turned := (Iter.On.ofAhead (m.entries.dropWhile fun e => decide (e.1 ≤ k))
    (m.entries.takeWhile fun e => decide (e.1 ≤ k)).reverse).flip
  rw [← reverse_append, takeWhile_append_dropWhile, reverse_reverse] at turned
  exact turned

end SortedMap

section Sift

variable {E : Type}

def sift (skip stop : E → Bool) (items : List E) : List E :=
  (items.takeWhile fun e => !stop e).filter fun e => !skip e

theorem sift_cons (skip stop : E → Bool) (e : E) (rest : List E) : sift skip stop (e :: rest) =
      if stop e = true then [] else if skip e = true then sift skip stop rest else e :: sift skip stop rest := by
  cases stopped : stop e with
  | true => simp [sift, stopped]
  | false => cases skipped : skip e <;> simp [sift, stopped, skipped]

variable {skip stop : E → Bool} {items : List E}

theorem sift_turn (apart : ∀ e, skip e = true → stop e = false) (items : List E) : sift skip stop items =
      match items.dropWhile skip with
      | [] => [] | e :: rest => if stop e = true then [] else e :: sift skip stop rest := by
  induction items with
  | nil => rfl
  | cons e rest ih =>
    cases skipped : skip e with
    | true =>
      rw [dropWhile_cons_of_pos skipped, ← ih]
      simp [sift, apart e skipped, skipped]
    | false =>
      rw [dropWhile_cons_of_neg (by simp [skipped])]
      cases stopped : stop e with
      | true => simp [sift, stopped]
      | false => simp [sift, stopped, skipped]

theorem sift_subset {e : E} (kept : e ∈ sift skip stop items) : e ∈ items :=
  (takeWhile_sublist _).subset (mem_of_mem_filter kept)

theorem takeWhile_congr {p q : E → Bool} (same : ∀ e ∈ items, p e = q e) : items.takeWhile p = items.takeWhile q := by
  induction items with
  | nil => rfl
  | cons e rest ih =>
    rw [forall_mem_cons] at same
    rw [takeWhile_cons, takeWhile_cons, same.1, ih same.2]

theorem sift_congr {skip stop skip' stop' : E → Bool}
    (same : ∀ e ∈ items, skip e = skip' e ∧ stop e = stop' e) : sift skip stop items = sift skip' stop' items := by
  have stops : items.takeWhile (fun e => !stop e) = items.takeWhile fun e => !stop' e := by
    refine takeWhile_congr fun e mem => ?_
    rw [(same e mem).2]
  rw [sift, sift, stops]
  refine filter_congr fun e mem => ?_
  rw [(same e ((takeWhile_sublist _).subset mem)).1]

theorem sift_eq_filter (closed : items.Pairwise fun a b => stop a = true → stop b = true) :
    sift skip stop items = items.filter fun e => !stop e && !skip e := by
  induction items with
  | nil => rfl
  | cons e rest ih =>
    obtain ⟨first, later⟩ := pairwise_cons.mp closed
    cases stopped : stop e with
    | true =>
      have none_later : rest.filter (fun e => !stop e && !skip e) = [] := by
        refine filter_eq_nil_iff.mpr fun b mem => ?_
        simp [first b mem stopped]
      simp [sift, stopped, none_later]
    | false =>
      have ih := ih later
      unfold sift at ih ⊢
      simp only [stopped, Bool.not_false, takeWhile_cons_of_pos, filter_cons, Bool.true_and]
      rw [ih]

end Sift

section Collect

variable {S A C X : Type}

/-- Call `next` until it fails, at most `calls` times: what it returned, and the code it failed with. -/
def collect (next : S → Except C A × S) : Nat → S → List A × Option C
  | 0, _ => ([], none)
  | calls + 1, s =>
    match next s with
    | (.error code, _) => ([], some code)
    | (.ok a, after) => (a :: (collect next calls after).1, (collect next calls after).2)

def readAll (read : X → Except C A) (stop : C) : List X → List A × C
  | [] => ([], stop)
  | x :: rest =>
    match read x with
    | .error code => ([], code)
    | .ok a => (a :: (readAll read stop rest).1, (readAll read stop rest).2)

/-- `next` reads the items of `todo` one after the other, as long as `inv` holds. -/
structure Reads (next : S → Except C A × S) (inv : S → Prop) (todo : S → List X) (read : X → Except C A)
    (stop : C) : Prop where
  done : ∀ s, inv s → todo s = [] → (next s).1 = .error stop
  more : ∀ s x rest, inv s → todo s = x :: rest → (next s).1 = read x ∧
    ∀ a, read x = .ok a → inv (next s).2 ∧ todo (next s).2 = rest

variable {next : S → Except C A × S} {inv : S → Prop} {todo : S → List X} {read : X → Except C A} {stop : C} {items : List X}

theorem collect_eq_readAll (reads : Reads next inv todo read stop) {calls : Nat} {s : S} (holds : inv s)
    (enough : (todo s).length < calls) :
    collect next calls s = ((readAll read stop (todo s)).1, some (readAll read stop (todo s)).2) := by
  induction calls generalizing s with
  | zero => cases enough
  | succ calls ih =>
    cases items : todo s with
    | nil =>
      have failed := reads.done s holds items
      rw [collect]
      rcases answer : next s with ⟨r, after⟩
      rw [answer] at failed
      cases failed
      rfl
    | cons x rest =>
      obtain ⟨same, later⟩ := reads.more s x rest holds items
      rw [collect]
      rcases answer : next s with ⟨r, after⟩
      rw [answer] at same later
      cases here : read x with
      | error code =>
        rw [here] at same
        cases same
        simp [readAll, here]
      | ok a =>
        rw [here] at same
        cases same
        obtain ⟨kept, left⟩ := later a here
        rw [items, length_cons] at enough
        have again := ih kept (by rw [left]; omega)
        simp [readAll, here, again, left]

/-- A first call, then `next` until it fails. -/
def collectFrom (start : Except C A × S) (next : S → Except C A × S) (calls : Nat) : List A × Option C :=
  match start with
  | (.error code, _) => ([], some code)
  | (.ok a, s) => (a :: (collect next calls s).1, (collect next calls s).2)

def readFrom (first read : X → Except C A) (stop : C) : List X → List A × C
  | [] => ([], stop)
  | x :: rest =>
    match first x with
    | .error code => ([], code)
    | .ok a => (a :: (readAll read stop rest).1, (readAll read stop rest).2)

@[simp] theorem readFrom_self (read : X → Except C A) (stop : C) (items : List X) :
    readFrom read read stop items = readAll read stop items := by
  cases items <;> rfl

/-- The first call reads the first of `items`, if it can be read, and leaves the others to do. -/
structure Opens (start : Except C A × S) (inv : S → Prop) (todo : S → List X) (first : X → Except C A)
    (items : List X) : Prop where
  reads : ∀ a, start.1 = .ok a → ∃ x rest, items = x :: rest ∧ first x = .ok a ∧ inv start.2 ∧ todo start.2 = rest
  fails : ∀ code, start.1 = .error code → ∀ x rest, items = x :: rest → ∃ c, first x = .error c

theorem Reads.opens
    (reads : Reads next inv todo read stop) {s : S} (holds : inv s) : Opens (next s) inv todo read (todo s) := by
  cases items : todo s with
  | nil =>
    have failed := reads.done s holds items
    refine ⟨fun a found => ?_, fun _ _ x rest none_there => ?_⟩
    · rw [failed] at found
      cases found
    · cases none_there
  | cons x rest =>
    obtain ⟨same, later⟩ := reads.more s x rest holds items
    refine ⟨fun a found => ?_, fun code failed y more same_items => ?_⟩
    · have here : read x = .ok a := same.symm.trans found
      exact ⟨x, rest, rfl, here, later a here⟩
    · cases same_items
      exact ⟨code, same.symm.trans failed⟩

theorem Opens.ok_iff {start : Except C A × S} {todo : S → List A} {items : List A}
    (opens : Opens start inv todo (Except.ok (ε := C)) items) {a : A} : start.1 = .ok a ↔ items.head? = some a := by
  cases answer : start.1 with
  | ok b =>
    obtain ⟨x, rest, rfl, same, -⟩ := opens.reads b answer
    cases same
    simp
  | error code =>
    cases items with
    | nil => simp
    | cons x rest =>
      obtain ⟨c, read⟩ := opens.fails code answer x rest rfl
      cases read

theorem collectFrom_eq {start : Except C A × S} {first read : X → Except C A} (reads : Reads next inv todo read stop)
    (opens : Opens start inv todo first items) {calls : Nat} (enough : items.length ≤ calls) :
    (collectFrom start next calls).1 = (readFrom first read stop items).1 ∧
      ((collectFrom start next calls).2 = some (readFrom first read stop items).2 ∨
        ∃ code, start.1 = .error code ∧ (collectFrom start next calls).2 = some code) := by
  rcases start with ⟨answer, s⟩
  cases answer with
  | error code =>
    refine ⟨?_, .inr ⟨code, rfl, rfl⟩⟩
    cases items with
    | nil => rfl
    | cons x rest =>
      obtain ⟨c, failed⟩ := opens.fails code rfl x rest rfl
      simp [collectFrom, readFrom, failed]
  | ok a =>
    obtain ⟨x, rest, rfl, here, holds, left⟩ := opens.reads a rfl
    have left_here : todo s = rest := left
    have bound : (todo s).length < calls := by
      rw [left_here]
      exact enough
    have later := collect_eq_readAll reads holds bound
    rw [left_here] at later
    simp [collectFrom, readFrom, here, later]

theorem readAll_ok {f : X → A} (stop : C)
    (reads : ∀ x ∈ items, read x = .ok (f x)) : readAll read stop items = (items.map f, stop) := by
  induction items with
  | nil => rfl
  | cons x rest ih =>
    rw [forall_mem_cons] at reads
    simp [readAll, reads.1, ih reads.2]

@[simp] theorem readAll_id (stop : C) (items : List A) : readAll (Except.ok (ε := C)) stop items = (items, stop) := by
  induction items with
  | nil => rfl
  | cons x rest ih => simp [readAll, ih]

theorem mem_readAll {a : A} :
    a ∈ (readAll read stop items).1 ↔ ∃ x ∈ items.takeWhile (fun x => (read x).isOk), read x = .ok a := by
  induction items with
  | nil => simp [readAll]
  | cons x rest ih =>
    cases here : read x with
    | error code => simp [readAll, here, Except.isOk, Except.toBool]
    | ok b => simp [readAll, here, ih, Except.isOk, Except.toBool, eq_comm]

/-- No good item is lost behind the first that does not pass exactly when none stands behind any such
item. -/
theorem takeWhile_covers_iff {p : X → Bool} {good : X → Prop} (distinct : items.Nodup)
    (passes : ∀ x ∈ items, good x → p x = true) :
    (∀ x ∈ items, good x → x ∈ items.takeWhile p) ↔ items.Pairwise fun a b => p a = false → ¬ good b := by
  induction items with
  | nil => simp
  | cons a rest ih =>
    obtain ⟨apart, distinct_rest⟩ := nodup_cons.mp distinct
    rw [forall_mem_cons] at passes
    rw [pairwise_cons, ← ih distinct_rest passes.2, forall_mem_cons]
    cases here : p a with
    | true =>
      rw [takeWhile_cons_of_pos here]
      simp only [mem_cons, true_or, implies_true, true_and, reduceCtorEq, false_implies]
      refine forall₂_congr fun x mem => imp_congr_right fun _ => or_iff_right ?_
      rintro rfl
      exact apart mem
    | false =>
      have bad : ¬ good a := by
        intro fine
        rw [passes.1 fine] at here
        cases here
      rw [takeWhile_cons_of_neg (by simp [here])]
      simp only [not_mem_nil, imp_false, bad, not_false_eq_true, true_and, forall_true_left]
      refine ⟨fun none_good => ⟨none_good, fun x mem fine => absurd fine (none_good x mem)⟩, And.left⟩

theorem collect_succ (next : S → Except C A × S) (calls : Nat) (s : S) :
    collect next (calls + 1) s = collectFrom (next s) next calls := rfl

end Collect

end TidesdbMysql.Base
