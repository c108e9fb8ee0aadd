import TidesdbMysql.Table.Counters

/-! Freshness of hidden row ids over whole runs. Nothing checks a hidden key for a duplicate, so
everything rests on the counter staying above the stored ids. -/
namespace TidesdbMysql

open Base (Bytes beBytes beValue SortedMap run Along along_append)
open List Base.SortedMap

theorem beValue_hiddenPk {n : Nat} (small : n < 2 ^ 64) : beValue (hiddenPk n) = n :=
  Base.beValue_beBytes (show n < 256 ^ 8 by omega)

theorem hiddenPk_beValue {k : Bytes} (size : k.length = hiddenPkSize) : hiddenPk (beValue k) = k := by
  have whole := Base.leBytes_leValue k.reverse
  rw [length_reverse, size] at whole
  rw [hiddenPk, beValue]
  exact (congrArg reverse whole).trans k.reverse_reverse

theorem beValue_lt_of_size {k : Bytes} (size : k.length = hiddenPkSize) : beValue k < 2 ^ 64 := by
  have below := Base.beValue_lt k
  rw [size] at below
  exact below

def HiddenRows (s : Table) : Prop := ∀ k, s.rows.HasKey k → k.length = hiddenPkSize
  deriving Decidable

def Ahead (s : Table) : Prop := ∀ k, s.rows.HasKey k → beValue k < s.nextRowId
  deriving Decidable

def NoOverwrite (T : Schema) (s : Table) : CounterEvent → Prop
  | .dml (.write _ req) => req.Served T → ¬ s.rows.HasKey (newPk T s req)
  | _ => True

def RoomForId (s : Table) : CounterEvent → Prop
  | .dml (.write _ _) => s.nextRowId < 2 ^ 64
  | _ => True

/-- A reset stays above the stored ids; a reopen finds the last id in the last key, or no row has
one above 0. -/
def IdsSafe (s : Table) : CounterEvent → Prop
  | .reset value => ∀ k, s.rows.HasKey k → beValue k < max value 1
  | .reopen a =>
    (a.txnBegin = true ∧ a.iterNew = true ∧ a.iterKey = true ∧
      ∀ k, s.rows.HasKey k → beValue k + 1 < 2 ^ 64) ∨
    ∀ k, s.rows.HasKey k → beValue k < 1
  | _ => True

instance (T : Schema) (s : Table) (e : CounterEvent) : Decidable (NoOverwrite T s e) := by
  rcases e with (_ | _ | _) | _ | _ | _ | _ <;> dsimp only [NoOverwrite] <;> infer_instance

instance (s : Table) (e : CounterEvent) : Decidable (RoomForId s e) := by
  rcases e with (_ | _ | _) | _ | _ | _ | _ <;> dsimp only [RoomForId] <;> infer_instance

instance (s : Table) (e : CounterEvent) : Decidable (IdsSafe s e) := by
  apply CounterEvent.casesOn (motive := fun e => Decidable (IdsSafe s e)) e <;>
    intros <;> dsimp only [IdsSafe] <;> exact inferInstance

section
variable {T : Schema} {s : Table}

theorem reopen_nextRowId (hidden : T.pk = none) (ids : HiddenRows s) (a : RecoverAnswers) : (reopen T a s).nextRowId =
      if a.txnBegin = true ∧ a.iterNew = true ∧ a.iterKey = true then
        match s.rows.entries.getLast? with
        | none => 1 | some (key, _) => if beValue key + 1 < 2 ^ 64 then beValue key + 1 else 1
      else 1 := by
  unfold reopen recoverCounters seedCounters
  cases a.txnBegin with
  | false => simp
  | true =>
    cases a.iterNew with
    | false => simp
    | true =>
      cases last : s.rows.entries.getLast? with
      | none => simp
      | some e =>
        obtain ⟨key, record⟩ := e
        cases a.iterKey with
        | false => simp
        | true =>
          have size := ids key (last_entry last).1.hasKey
          have below := beValue_lt_of_size size
          by_cases room : beValue key + 1 < 2 ^ 64
          · simp [-Nat.reducePow, hidden, size, room, Nat.mod_eq_of_lt room]
          · have full : beValue key + 1 = 2 ^ 64 := by omega
            simp [hidden, size, full, hiddenPkFirstRowId]

theorem reopen_ahead_iff (hidden : T.pk = none) (ids : HiddenRows s) (a : RecoverAnswers) :
    Ahead (reopen T a s) ↔ IdsSafe s (.reopen a) := by
  rw [Ahead, reopen_rows, reopen_nextRowId hidden ids a, IdsSafe]
  split
  · rename_i answered
    simp only [answered, true_and]
    cases last : s.rows.entries.getLast? with
    | none =>
      have empty : ∀ k, ¬ s.rows.HasKey k := by
        rintro k ⟨e, mem, -⟩
        rw [getLast?_eq_none_iff.mp last] at mem
        cases mem
      simp [empty]
    | some e =>
      obtain ⟨key, record⟩ := e
      obtain ⟨here, largest⟩ := last_entry last
      have below : ∀ k, s.rows.HasKey k → beValue k ≤ beValue key := by
        intro k there
        by_contra above
        have sizes : key.length = k.length := (ids key here.hasKey).trans (ids k there).symm
        exact absurd (largest k there) (not_le.mpr ((Base.lt_iff_beValue_lt sizes).mpr (not_le.mp above)))
      by_cases room : beValue key + 1 < 2 ^ 64
      · simp only [if_pos room]
        refine ⟨fun _ => .inl fun k there => ?_, fun _ k there => Nat.lt_succ_of_le (below k there)⟩
        exact lt_of_le_of_lt (Nat.succ_le_succ (below k there)) room
      · simp only [if_neg room]
        refine ⟨.inr, fun either => ?_⟩
        rcases either with rooms | first
        · exact absurd (rooms key here.hasKey) room
        · exact first
  · rename_i refused
    refine ⟨.inr, fun either => ?_⟩
    rcases either with ⟨begun, opened, read, -⟩ | first
    · exact absurd ⟨begun, opened, read⟩ refused
    · exact first

theorem dml_keys (hidden : T.pk = none) {call : Dml} (positioned : Positioned s call) {k : Bytes}
    (there : (dmlStep T s call).1.rows.HasKey k) :
    s.rows.HasKey k ∨ ∃ iters req, call = .write iters req ∧ req.Served T ∧ k = hiddenPk s.nextRowId := by
  obtain ⟨record, has⟩ := hasKey_iff.mp there
  cases call with
  | write iters req =>
    rcases (writeRow_rows iters req k record).mp has with ⟨⟨served, -⟩, rfl, -⟩ | ⟨-, before⟩
    · exact .inr ⟨iters, req, rfl, served, by simp only [newPk, hidden]⟩
    · exact .inl before.hasKey
  | update req =>
    rcases (updateRow_has req k record).mp has with ⟨rfl, -⟩ | ⟨-, -, before⟩
    · have same : updatedPk T req = req.current := by simp only [updatedPk, hidden]
      rw [same]
      exact .inl positioned.1.hasKey
    · exact .inl before.hasKey
  | delete req =>
    change (deleteRow T s req).2.rows.Has k record at has
    rw [deleteRow_rows, has_erase] at has
    exact .inl has.2.hasKey

theorem dml_nextRowId (call : Dml) : s.nextRowId ≤ (dmlStep T s call).1.nextRowId ∧
    ∀ iters req, call = .write iters req → req.Served T → T.pk = none →
      (dmlStep T s call).1.nextRowId = s.nextRowId + 1 := by
  cases call with
  | write iters req =>
    have counted := (writeRow_counters (T := T) (s := s) iters req).1
    refine ⟨?_, ?_⟩
    · change _ ≤ (writeRow T s iters req).table.nextRowId
      rw [counted]
      split <;> omega
    · rintro iters req ⟨⟩ served hidden
      exact counted.trans (if_pos ⟨served, hidden⟩)
  | update req =>
    refine ⟨?_, fun iters req impossible => by cases impossible⟩
    exact le_of_eq (applyAll_nextRowId s (updateOps T req)).symm
  | delete req =>
    refine ⟨?_, fun iters req impossible => by cases impossible⟩
    exact le_of_eq (applyAll_nextRowId s _).symm

theorem step_hiddenRows (hidden : T.pk = none) {e : CounterEvent} (called : e.Called s) (ids : HiddenRows s) :
    HiddenRows (counterStep T s e).1 := by
  intro k there
  cases e with
  | dml call =>
    rcases dml_keys hidden called there with before | ⟨-, -, -, -, rfl⟩
    · exact ids k before
    · exact Base.beBytes_length 8 _
  | getAutoIncrement q => exact ids k there
  | truncate => exact absurd there (by simp [counterStep, deleteAllRows, hasKey_iff])
  | reset value => exact ids k there
  | reopen a =>
    have same := reopen_rows (T := T) (s := s) a
    exact ids k (same ▸ there)

theorem step_ahead_iff (hidden : T.pk = none) {e : CounterEvent} (called : e.Called s) (room : RoomForId s e)
    (ids : HiddenRows s) (ahead : Ahead s) : Ahead (counterStep T s e).1 ↔ IdsSafe s e := by
  cases e with
  | dml call =>
    refine iff_of_true (fun k there => ?_) trivial
    rcases dml_keys hidden called there with before | ⟨iters, req, rfl, served, rfl⟩
    · exact lt_of_lt_of_le (ahead k before) (dml_nextRowId call).1
    · rw [beValue_hiddenPk room]
      exact lt_of_lt_of_eq (Nat.lt_succ_self _) ((dml_nextRowId _).2 iters req rfl served hidden).symm
  | getAutoIncrement q => exact iff_of_true ahead trivial
  | truncate =>
    refine iff_of_true (fun k there => absurd there ?_) trivial
    simp [counterStep, deleteAllRows, hasKey_iff]
  | reset value =>
    have stored : (counterStep T s (.reset value)).1.nextRowId = max value 1 := by
      simp only [counterStep, resetAutoIncrement, hiddenPkFirstRowId]
      split <;> omega
    rw [Ahead, stored]
    rfl
  | reopen a => exact reopen_ahead_iff hidden ids a

theorem noOverwrite_of_ahead (hidden : T.pk = none) {e : CounterEvent} (room : RoomForId s e) (ahead : Ahead s) :
    NoOverwrite T s e := by
  cases e with
  | dml call =>
    cases call with
    | write iters req =>
      intro _ taken
      simp only [newPk, hidden] at taken
      have below := ahead _ taken
      rw [beValue_hiddenPk room] at below
      exact lt_irrefl _ below
    | update | delete => trivial
  | getAutoIncrement | truncate | reset | reopen => trivial

theorem noOverwrite_along (hidden : T.pk = none) {es : List CounterEvent} (ids : HiddenRows s) (ahead : Ahead s)
    (called : Along (counterStep T) (fun s e => e.Called s) s es) (room : Along (counterStep T) RoomForId s es)
    (safe : Along (counterStep T) IdsSafe s es) : Along (counterStep T) (NoOverwrite T) s es := by
  induction es generalizing s with
  | nil => trivial
  | cons e rest ih =>
    have ahead' := (step_ahead_iff hidden called.1 room.1 ids ahead).mpr safe.1
    exact ⟨noOverwrite_of_ahead hidden room.1 ahead,
      ih (step_hiddenRows hidden called.1 ids) ahead' called.2 room.2 safe.2⟩

def CounterEvent.IsInsert (e : CounterEvent) : Prop := ∃ iters req, e = .dml (.write iters req)

def plainInsert : CounterEvent := .dml (.write (fun _ => none) ⟨[], false, .ok none, true, false, 0, 0, zeroed⟩)

theorem plainInsert_step (hidden : T.pk = none) : (counterStep T s plainInsert).1.nextRowId = s.nextRowId + 1 ∧
    ∀ k, s.rows.HasKey k → (counterStep T s plainInsert).1.rows.HasKey k := by
  refine ⟨(dml_nextRowId _).2 _ _ rfl (by simp [Insert.Served, Insert.numbered]) hidden, fun k there => ?_⟩
  obtain ⟨record, has⟩ := hasKey_iff.mp there
  by_cases own : k = hiddenPk s.nextRowId
  · refine SortedMap.Has.hasKey ((writeRow_rows _ _ k _).mpr (.inl ⟨⟨?_, ?_⟩, ?_, rfl⟩))
    · simp [Insert.Served, Insert.numbered]
    · simp [Hit, PkHit, Insert.looksUpPk, hidden]
    · simp only [newPk, hidden]
      exact own
  · refine SortedMap.Has.hasKey ((writeRow_rows _ _ k record).mpr (.inr ⟨?_, has⟩))
    simp only [newPk, hidden]
    exact fun both => own both.2

theorem collides (hidden : T.pk = none) (ids : HiddenRows s) {k : Bytes} (there : s.rows.HasKey k)
    (behind : s.nextRowId ≤ beValue k) : ∃ n, Along (counterStep T) RoomForId s (List.replicate n plainInsert) ∧
      ¬ Along (counterStep T) (NoOverwrite T) s (List.replicate n plainInsert) := by
  generalize gap : beValue k - s.nextRowId = d
  have small := beValue_lt_of_size (ids k there)
  induction d generalizing s with
  | zero =>
    refine ⟨1, ⟨show s.nextRowId < 2 ^ 64 by omega, trivial⟩, fun along => ?_⟩
    have fresh := along.1 (by simp [Insert.Served, Insert.numbered])
    have own : hiddenPk s.nextRowId = k := by
      rw [← hiddenPk_beValue (ids k there)]
      congr 1
      omega
    simp only [newPk, hidden, own] at fresh
    exact fresh there
  | succ d ih =>
    obtain ⟨next, kept⟩ := plainInsert_step hidden
    have ids' := step_hiddenRows hidden (e := plainInsert) trivial ids
    obtain ⟨n, room, overwrites⟩ := ih ids' (kept k there) (by omega) (by omega)
    exact ⟨n + 1, ⟨show s.nextRowId < 2 ^ 64 by omega, room⟩, fun along => overwrites along.2⟩

theorem ahead_of_fresh (hidden : T.pk = none) (ids : HiddenRows s)
    (fresh : ∀ more, (∀ e ∈ more, CounterEvent.IsInsert e) → Along (counterStep T) RoomForId s more → Along (counterStep T) (NoOverwrite T) s more) :
    Ahead s := by
  by_contra behind
  simp only [Ahead, not_forall, not_lt] at behind
  obtain ⟨k, there, low⟩ := behind
  obtain ⟨n, room, overwrites⟩ := collides hidden ids there low
  refine overwrites (fresh _ (fun e mem => ?_) room)
  rw [eq_of_mem_replicate mem]
  exact ⟨_, _, rfl⟩

end

def keyless : Schema := ⟨none, [], none⟩

def insertRow (record : Record) : CounterEvent := .dml (.write (fun _ => none) (insertOf record))

end TidesdbMysql
