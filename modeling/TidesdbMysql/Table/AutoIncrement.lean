import TidesdbMysql.Table.Counters

/-! The AUTO_INCREMENT counter against the values stored in the column, over whole runs. -/
namespace TidesdbMysql

open Base (Bytes SortedMap run Along along_append)
open List Base.SortedMap

/-- The column of a number field: `num` is the number in it, which `val_int` reads as an
unsigned one of 64 bits. -/
structure NumberColumn (f : NumberField) where
  unsigned : Bool
  num : Option Bytes → Int
  reads : ∀ v, (f.valInt v : Int) = num v % 2 ^ 64
  low : ∀ v, -2 ^ 63 ≤ num v
  high : ∀ v, num v < if unsigned then 2 ^ 64 else 2 ^ 63
  sign : unsigned = true → ∀ v, 0 ≤ num v

variable {f : NumberField}

def NumberColumn.bound (col : NumberColumn f) : Int := if col.unsigned then 2 ^ 64 else 2 ^ 63

def NumberColumn.value (col : NumberColumn f) (record : Record) : Int := col.num (column record f.field)

def NumberColumn.stored (col : NumberColumn f) (s : Table) : List Int := s.rows.entries.map fun e => col.value e.2

structure Numbering where
  table : Table
  past : List Int

def reservedBy (s : Table) : CounterEvent → List Int
  | .getAutoIncrement q => (q.assigned s.autoIncVal).map fun x : Nat => (x : Int)
  | _ => []

def numberingStep (T : Schema) (col : NumberColumn f) (n : Numbering) (e : CounterEvent) : Numbering × HaCode :=
  (⟨(counterStep T n.table e).1, n.past ++ (reservedBy n.table e ++ col.stored (counterStep T n.table e).1)⟩,
    (counterStep T n.table e).2)

/-- The counter is at least every stored value and at most what was stored or reserved; no
reservation is stored. -/
structure CounterRight (col : NumberColumn f) (n : Numbering) : Prop where
  covers : ∀ v ∈ col.stored n.table, v ≤ n.table.autoIncVal
  reached : n.table.autoIncVal = 0 ∨ ∃ v ∈ n.past, (n.table.autoIncVal : Int) ≤ v
  fresh : ∀ q : Reservation, n.table.autoIncVal + q.nbDesiredValues < 2 ^ 64 →
    ∀ x ∈ q.assigned n.table.autoIncVal, (x : Int) ∉ col.stored n.table

def InColumn (col : NumberColumn f) (n : Numbering) : CounterEvent → Prop
  | .dml (.write _ req) => f.field < req.record.length
  | .dml call => Positioned n.table call
  | .getAutoIncrement q => n.table.autoIncVal + q.nbDesiredValues < 2 ^ 64 ∧
    ∀ x ∈ q.assigned n.table.autoIncVal, (x : Int) < col.bound
  | _ => True

/-- The calls of `recover_counters` succeed and the table has a primary key of its own. -/
def Seeds (T : Schema) (a : RecoverAnswers) : Prop :=
  T.pk.isSome = true ∧ a.txnBegin = true ∧ a.iterNew = true ∧ a.iterKey = true ∧ a.iterValue = true
  deriving Decidable

section
variable (T : Schema) (col : NumberColumn f) (n : Numbering)

/-- A written value is not negative, and no new largest one in a refused row; updates stay below the
counter; a reopen finds the largest value in the last row, or none above 0. -/
def CounterSafe : CounterEvent → Prop
  | .dml (.write iters req) => req.Served T →
    if req.isRecord0 = true then
      0 ≤ col.value (req.stored T) ∧ (Hit T n.table iters req →
        col.value (req.stored T) ≤ 0 ∨ ∃ p ∈ n.past, col.value (req.stored T) ≤ p)
    else ¬ Hit T n.table iters req → col.value (req.stored T) ≤ n.table.autoIncVal
  | .dml (.update req) => col.value req.new ≤ n.table.autoIncVal
  | .dml (.delete _) => True
  | .getAutoIncrement _ => True
  | .truncate => True
  | .reset value => (∀ v ∈ col.stored n.table, v < max value 1) ∧ (value ≤ 1 ∨ ∃ p ∈ n.past, (value : Int) ≤ p + 1)
  | .reopen a =>
    if Seeds T a then
      ∀ last ∈ n.table.rows.entries.getLast?,
        0 ≤ col.value last.2 ∧ ∀ v ∈ col.stored n.table, v ≤ col.value last.2
    else ∀ v ∈ col.stored n.table, v ≤ 0

instance (e : CounterEvent) : Decidable (InColumn col n e) := by
  rcases e with (_ | _ | _) | _ | _ | _ | _ <;> dsimp only [InColumn] <;> infer_instance

instance (e : CounterEvent) : Decidable (CounterSafe T col n e) := by
  rcases e with (_ | _ | _) | _ | _ | _ | _ <;> dsimp only [CounterSafe] <;> infer_instance

end

section
variable {T : Schema} {col : NumberColumn f} {n : Numbering}

variable {s : Table} {e : CounterEvent} {req : Insert}

theorem mem_stored {v : Int} : v ∈ col.stored s ↔ ∃ pk record, s.rows.Has pk record ∧ col.value record = v := by
  rw [NumberColumn.stored, mem_map]
  exact ⟨fun ⟨e, mem, same⟩ => ⟨e.1, e.2, mem, same⟩, fun ⟨pk, record, has, same⟩ => ⟨(pk, record), has, same⟩⟩

theorem lt_of_assigned {q : Reservation} {cur x : Nat} (room : cur + q.nbDesiredValues < 2 ^ 64)
    (taken : x ∈ q.assigned cur) : cur < x := by
  obtain ⟨i, -, rfl⟩ := (mem_assigned room).mp taken
  have rounded := le_roundUp q.offset q.increment (cur + 1)
  omega

theorem counterRight_iff : CounterRight col n ↔ (∀ v ∈ col.stored n.table, v ≤ n.table.autoIncVal) ∧
    (n.table.autoIncVal = 0 ∨ ∃ v ∈ n.past, (n.table.autoIncVal : Int) ≤ v) := by
  refine ⟨fun right => ⟨right.covers, right.reached⟩, fun ⟨covers, reached⟩ => ⟨covers, reached, ?_⟩⟩
  intro q room x taken held
  have above := lt_of_assigned room taken
  have below := covers x held
  omega

structure Recorded (col : NumberColumn f) (n : Numbering) : Prop where
  stored : ∀ v ∈ col.stored n.table, v ∈ n.past
  bounded : ∀ p ∈ n.past, p < col.bound

theorem step_recorded (inside : InColumn col n e) (recorded : Recorded col n) :
    Recorded col (numberingStep T col n e).1 := by
  constructor
  · intro v held
    exact mem_append_right _ (mem_append_right _ held)
  · intro p mem
    rcases mem_append.mp mem with before | now
    · exact recorded.bounded p before
    · rcases mem_append.mp now with reserved | held
      · cases e with
        | getAutoIncrement q =>
          obtain ⟨x, taken, rfl⟩ := mem_map.mp reserved
          exact inside.2 x taken
        | dml | truncate | reset | reopen => cases reserved
      · obtain ⟨pk, record, -, rfl⟩ := mem_stored.mp held
        exact col.high _

theorem step_right_iff_parts (e : CounterEvent) : CounterRight col (numberingStep T col n e).1 ↔
      (∀ v ∈ col.stored (counterStep T n.table e).1, v ≤ (counterStep T n.table e).1.autoIncVal) ∧
      ((counterStep T n.table e).1.autoIncVal = 0 ∨
        ∃ v ∈ n.past ++ (reservedBy n.table e ++ col.stored (counterStep T n.table e).1),
          ((counterStep T n.table e).1.autoIncVal : Int) ≤ v) :=
  counterRight_iff

section
variable (right : CounterRight col n)
include right

theorem right_of_same_counter (counter : (counterStep T n.table e).1.autoIncVal = n.table.autoIncVal) :
    CounterRight col (numberingStep T col n e).1 ↔
      ∀ v ∈ col.stored (counterStep T n.table e).1, v ≤ n.table.autoIncVal := by
  rw [step_right_iff_parts, counter, and_iff_left]
  rcases right.reached with zero | ⟨v, mem, below⟩
  · exact .inl zero
  · exact .inr ⟨v, mem_append_left _ mem, below⟩

theorem delete_right (req : Delete) : CounterRight col (numberingStep T col n (.dml (.delete req))).1 := by
  have counter : (counterStep T n.table (.dml (.delete req))).1.autoIncVal = n.table.autoIncVal := applyAll_autoIncVal _ _
  refine (right_of_same_counter right counter).mpr fun v held => ?_
  obtain ⟨pk, record, has, rfl⟩ := mem_stored.mp held
  change (deleteRow T n.table req).2.rows.Has pk record at has
  rw [deleteRow_rows, has_erase] at has
  exact right.covers _ (mem_stored.mpr ⟨pk, record, has.2, rfl⟩)

theorem update_right_iff (req : Update) :
    CounterRight col (numberingStep T col n (.dml (.update req))).1 ↔ col.value req.new ≤ n.table.autoIncVal := by
  have counter : (counterStep T n.table (.dml (.update req))).1.autoIncVal = n.table.autoIncVal := applyAll_autoIncVal _ _
  rw [right_of_same_counter right counter]
  constructor
  · intro covers
    exact covers _ (mem_stored.mpr ⟨_, req.new, (updateRow_has req _ _).mpr (.inl ⟨rfl, rfl⟩), rfl⟩)
  · intro below v held
    obtain ⟨pk, record, has, rfl⟩ := mem_stored.mp held
    rcases (updateRow_has req pk record).mp has with ⟨-, rfl⟩ | ⟨-, -, before⟩
    · exact below
    · exact right.covers _ (mem_stored.mpr ⟨pk, record, before, rfl⟩)

theorem truncate_right : CounterRight col (numberingStep T col n .truncate).1 := by
  refine (right_of_same_counter right rfl).mpr fun v held => ?_
  cases held

theorem getAutoIncrement_right {q : Reservation} (room : n.table.autoIncVal + q.nbDesiredValues < 2 ^ 64) :
    CounterRight col (numberingStep T col n (.getAutoIncrement q)).1 := by
  have counter : (counterStep T n.table (.getAutoIncrement q)).1.autoIncVal = n.table.autoIncVal + q.nbDesiredValues :=
    Nat.mod_eq_of_lt room
  rcases Nat.eq_zero_or_pos q.nbDesiredValues with none_wanted | wanted
  · rw [none_wanted] at counter
    exact (right_of_same_counter right counter).mpr right.covers
  · rw [step_right_iff_parts, counter]
    refine ⟨fun v held => ?_, .inr ?_⟩
    · have below := right.covers v held
      omega
    · -- the last value of the reservation
      have last : roundUp q.offset q.increment (n.table.autoIncVal + 1) + (q.nbDesiredValues - 1) * q.increment ∈
          q.assigned n.table.autoIncVal := (mem_assigned room).mpr ⟨_, by omega, rfl⟩
      refine ⟨_, mem_append_right _ (mem_append_left _ (mem_map.mpr ⟨_, last, rfl⟩)), ?_⟩
      have rounded := le_roundUp q.offset q.increment (n.table.autoIncVal + 1)
      have steps : (q.nbDesiredValues - 1) * 1 ≤ (q.nbDesiredValues - 1) * q.increment :=
        Nat.mul_le_mul_left _ q.increment_pos
      omega

end

theorem reset_right_iff (recorded : Recorded col n) (value : Nat) :
    CounterRight col (numberingStep T col n (.reset value)).1 ↔ CounterSafe T col n (.reset value) := by
  have counter : (counterStep T n.table (.reset value)).1.autoIncVal = max value 1 - 1 := by
    simp only [counterStep, resetAutoIncrement]
    split <;> omega
  rw [step_right_iff_parts, counter]
  refine and_congr (forall₂_congr fun v _ => ?_) ?_
  · constructor <;> intro below <;> omega
  · constructor
    · rintro (zero | ⟨p, mem, below⟩)
      · exact .inl (by omega)
      · refine .inr ⟨p, ?_, by omega⟩
        rcases mem_append.mp mem with before | held
        · exact before
        · exact recorded.stored p held
    · rintro (small | ⟨p, mem, below⟩)
      · exact .inl (by omega)
      · refine or_iff_not_imp_left.mpr fun positive => ⟨p, mem_append_left _ mem, by omega⟩

theorem seedCounters_autoIncVal (numbers : T.nextNumberField = some f) (a : RecoverAnswers) (s : Table) :
    (seedCounters T a s).autoIncVal = if T.pk.isSome = true ∧ a.iterKey = true ∧ a.iterValue = true then
        match s.rows.entries.getLast? with
        | none => s.autoIncVal | some (_, record) => f.valInt (column record f.field)
      else s.autoIncVal := by
  unfold seedCounters
  cases s.rows.entries.getLast? with
  | none => simp
  | some e =>
    cases key : a.iterKey with
    | false => simp
    | true =>
      cases user : T.pk with
      | none => simp [apply_ite Table.autoIncVal]
      | some pk => cases value : a.iterValue <;> simp [numbers]

theorem reopen_autoIncVal (numbers : T.nextNumberField = some f) (a : RecoverAnswers) (s : Table) :
    (reopen T a s).autoIncVal = if Seeds T a then
        match s.rows.entries.getLast? with
        | none => 0 | some (_, record) => f.valInt (column record f.field)
      else 0 := by
  simp only [reopen, recoverCounters, apply_ite Table.autoIncVal, seedCounters_autoIncVal numbers, ite_self]
  cases begun : a.txnBegin with
  | false => simp [Seeds, begun]
  | true =>
    cases opened : a.iterNew with
    | false => simp [Seeds, opened]
    | true => simp [Seeds, begun, opened]

theorem NumberColumn.bound_pos (col : NumberColumn f) : 0 < col.bound := by
  unfold NumberColumn.bound
  split <;> decide

theorem NumberColumn.valInt_eq (col : NumberColumn f) (v : Option Bytes) :
    (0 ≤ col.num v ∧ (f.valInt v : Int) = col.num v) ∨ (col.num v < 0 ∧ col.bound ≤ (f.valInt v : Int)) := by
  have reads := col.reads v
  have low := col.low v
  have high := col.high v
  rcases lt_or_ge (col.num v) 0 with negative | positive
  · right
    have signed : col.unsigned = false := by
      cases sign : col.unsigned with
      | false => rfl
      | true => exact absurd (col.sign sign v) (not_le.mpr negative)
    rw [signed] at high
    simp only [NumberColumn.bound, signed, Bool.false_eq_true, if_false] at high ⊢
    omega
  · left
    omega

theorem reopen_right_iff (numbers : T.nextNumberField = some f) (recorded : Recorded col n) (a : RecoverAnswers) :
    CounterRight col (numberingStep T col n (.reopen a)).1 ↔ CounterSafe T col n (.reopen a) := by
  have held : col.stored (counterStep T n.table (.reopen a)).1 = col.stored n.table := by
    rw [NumberColumn.stored, NumberColumn.stored]
    exact congrArg (fun m : SortedMap Bytes Record => m.entries.map fun e => col.value e.2) (reopen_rows a)
  have counter : (counterStep T n.table (.reopen a)).1.autoIncVal = _ := reopen_autoIncVal numbers a n.table
  rw [step_right_iff_parts, held, counter, CounterSafe]
  by_cases seeded : Seeds T a
  · simp only [if_pos seeded]
    cases last : n.table.rows.entries.getLast? with
    | none =>
      have empty : col.stored n.table = [] := by
        rw [NumberColumn.stored, getLast?_eq_none_iff.mp last]
        rfl
      simp [empty]
    | some e =>
      obtain ⟨key, record⟩ := e
      have own : col.value record ∈ col.stored n.table :=
        mem_stored.mpr ⟨key, record, (last_entry last).1, rfl⟩
      simp only [Option.mem_some_iff, forall_eq']
      rcases col.valInt_eq (column record f.field) with ⟨positive, same⟩ | ⟨negative, large⟩
      · rw [same]
        refine ⟨fun right => ⟨positive, right.1⟩, fun safe => ⟨safe.2, .inr ⟨_, ?_, le_rfl⟩⟩⟩
        exact mem_append_left _ (recorded.stored _ own)
      · refine iff_of_false (fun right => ?_) fun safe => absurd safe.1 (not_le.mpr negative)
        rcases right.2 with zero | ⟨p, mem, below⟩
        · have positive := col.bound_pos
          omega
        · have small : p < col.bound := by
            rcases mem_append.mp mem with before | now
            · exact recorded.bounded p before
            · exact recorded.bounded p (recorded.stored p now)
          omega
  · simp only [if_neg seeded]
    simp

theorem write_autoIncVal (numbers : T.nextNumberField = some f) (served : req.Served T)
    (inside : f.field < req.record.length) (s : Table) (iters : DupIters) : (writeRow T s iters req).table.autoIncVal =
      if req.isRecord0 = true then max s.autoIncVal (f.valInt (column (req.stored T) f.field)) else s.autoIncVal := by
  rw [(writeRow_counters iters req).2]
  cases first : req.isRecord0 with
  | false =>
    have none_set : req.numbered T = none := by simp [Insert.numbered, first]
    simp [autoIncrement, none_set]
  | true =>
    have set : req.numbered T = some f := by simp [Insert.numbered, first, numbers]
    cases answer : req.updateAutoIncrement with
    | error e => exact absurd (served (by simp [set])) (by simp [answer, Except.toBool])
    | ok value =>
      have held : column (req.stored T) f.field = value := by
        simp [column, Insert.stored, set, answer, inside]
      simp [autoIncrement, set, answer, held]

theorem mem_stored_write {iters : DupIters} {v : Int} (held : v ∈ col.stored (writeRow T s iters req).table) :
    v ∈ col.stored s ∨ ¬ Hit T s iters req ∧ v = col.value (req.stored T) := by
  obtain ⟨pk, record, has, rfl⟩ := mem_stored.mp held
  rcases (writeRow_rows iters req pk record).mp has with ⟨⟨-, missed⟩, -, rfl⟩ | ⟨-, before⟩
  · exact .inr ⟨missed, rfl⟩
  · exact .inl (mem_stored.mpr ⟨pk, record, before, rfl⟩)

theorem stored_of_write (served : req.Served T) {iters : DupIters}
    (missed : ¬ Hit T s iters req) : col.value (req.stored T) ∈ col.stored (writeRow T s iters req).table :=
  mem_stored.mpr ⟨newPk T s req, _, (writeRow_rows iters req _ _).mpr (.inl ⟨⟨served, missed⟩, rfl, rfl⟩), rfl⟩

theorem write_right_iff (numbers : T.nextNumberField = some f) (recorded : Recorded col n) (right : CounterRight col n)
    (iters : DupIters) (inside : f.field < req.record.length) :
    CounterRight col (numberingStep T col n (.dml (.write iters req))).1 ↔
      CounterSafe T col n (.dml (.write iters req)) := by
  by_cases served : req.Served T
  · have counter : (counterStep T n.table (.dml (.write iters req))).1.autoIncVal = _ :=
      write_autoIncVal numbers served inside n.table iters
    have recorded' : Recorded col (numberingStep T col n (.dml (.write iters req))).1 := step_recorded inside recorded
    simp only [CounterSafe, served, true_implies]
    cases first : req.isRecord0 with
    | false =>
      rw [first, if_neg Bool.false_ne_true] at counter
      rw [right_of_same_counter right counter, if_neg Bool.false_ne_true]
      refine ⟨fun covers missed => covers _ (stored_of_write served missed), fun safe v held => ?_⟩
      rcases mem_stored_write held with before | ⟨missed, rfl⟩
      · exact right.covers v before
      · exact safe missed
    | true =>
      rw [first, if_pos rfl] at counter
      rw [if_pos rfl, step_right_iff_parts, counter]
      rcases col.valInt_eq (column (req.stored T) f.field) with ⟨positive, same⟩ | ⟨negative, large⟩
      · have number : (f.valInt (column (req.stored T) f.field)) = col.value (req.stored T) := same
        constructor
        · rintro ⟨-, reached⟩
          refine ⟨positive, fun hit => ?_⟩
          rcases reached with zero | ⟨p, mem, below⟩
          · exact .inl (by omega)
          · refine .inr ⟨p, ?_, by omega⟩
            rcases mem_append.mp mem with before | held
            · exact before
            · rcases mem_stored_write held with before | ⟨missed, -⟩
              · exact recorded.stored p before
              · exact absurd hit missed
        · rintro ⟨-, refused⟩
          refine ⟨fun v held => ?_, ?_⟩
          · rcases mem_stored_write held with before | ⟨-, rfl⟩
            · have below := right.covers v before
              omega
            · omega
          · -- the counter stays, or it is the new value
            by_cases stays : col.value (req.stored T) ≤ n.table.autoIncVal
            · rw [max_eq_left (by omega)]
              rcases right.reached with zero | ⟨p, mem, below⟩
              · exact .inl zero
              · exact .inr ⟨p, mem_append_left _ mem, below⟩
            · rw [max_eq_right (by omega), number]
              by_cases hit : Hit T n.table iters req
              · rcases refused hit with small | ⟨p, mem, below⟩
                · omega
                · exact .inr ⟨p, mem_append_left _ mem, below⟩
              · exact .inr ⟨_, mem_append_right _ (mem_append_right _ (stored_of_write served hit)), le_rfl⟩
      · refine iff_of_false (fun parts => ?_) fun safe => absurd safe.1 (not_le.mpr negative)
        rcases parts.2 with zero | ⟨p, mem, below⟩
        · have positive := col.bound_pos
          omega
        · have small := recorded'.bounded p mem
          omega
  · have same : (writeRow T n.table iters req).table = n.table := by
      rcases writeRow_cases T n.table iters req with ⟨-, -, same⟩ | ⟨-, answered, -⟩
      · exact same
      · exact absurd answered served
    refine iff_of_true ((right_of_same_counter right ?_).mpr ?_) fun answered => absurd answered served
    · exact congrArg Table.autoIncVal same
    · change ∀ v ∈ col.stored (writeRow T n.table iters req).table, _
      rw [same]
      exact right.covers

theorem step_right_iff (numbers : T.nextNumberField = some f) (recorded : Recorded col n) (inside : InColumn col n e)
    (right : CounterRight col n) : CounterRight col (numberingStep T col n e).1 ↔ CounterSafe T col n e := by
  cases e with
  | dml call =>
    cases call with
    | write iters req => exact write_right_iff numbers recorded right iters inside
    | update req => exact update_right_iff right req
    | delete req => exact iff_of_true (delete_right right req) trivial
  | getAutoIncrement q => exact iff_of_true (getAutoIncrement_right right inside.1) trivial
  | truncate => exact iff_of_true (truncate_right right) trivial
  | reset value => exact reset_right_iff recorded value
  | reopen a => exact reopen_right_iff numbers recorded a

end

/-- The counter is right in every state of a run just when it is at the start and every call
meets the condition. -/
theorem counter_right_iff (T : Schema) (col : NumberColumn f) (numbers : T.nextNumberField = some f) (n : Numbering)
    (es : List CounterEvent) (recorded : Recorded col n) (inside : Along (numberingStep T col) (InColumn col) n es) :
    (∀ done, done <+: es → CounterRight col (run (numberingStep T col) n done)) ↔
      CounterRight col n ∧ Along (numberingStep T col) (CounterSafe T col) n es :=
  Base.run_invariant_iff (numberingStep T col) (fun _ _ known here => step_recorded here known)
    (fun _ _ known here right => step_right_iff numbers known here right) recorded inside

/- A TINYINT column, unsigned or signed. -/
def byteOf (v : Option Bytes) : UInt8 := (v.getD []).headD 0

def byteNumber (field : Nat) : NumberField := ⟨field, fun v => (byteOf v).toNat⟩

def byteColumn (field : Nat) : NumberColumn (byteNumber field) where
  unsigned := true
  num v := (byteOf v).toNat
  reads v := by
    have small := (byteOf v).toNat_lt
    change ((byteOf v).toNat : Int) = _
    omega
  low v := by omega
  high v := by
    have small := (byteOf v).toNat_lt
    simp only [if_true]
    omega
  sign _ v := by omega

def signedByte (v : Option Bytes) : Int :=
  if byteOf v < 128 then (byteOf v).toNat else (byteOf v).toNat - 256

theorem signedByte_range (v : Option Bytes) : -128 ≤ signedByte v ∧ signedByte v < 128 := by
  have small := (byteOf v).toNat_lt
  unfold signedByte
  split
  · rename_i low
    have : (byteOf v).toNat < 128 := low
    omega
  · rename_i high
    have : ¬ (byteOf v).toNat < 128 := high
    omega

def signedNumber (field : Nat) : NumberField := ⟨field, fun v => (signedByte v % 2 ^ 64).toNat⟩

def signedColumn (field : Nat) : NumberColumn (signedNumber field) where
  unsigned := false
  num := signedByte
  reads v := by
    change ((signedByte v % 2 ^ 64).toNat : Int) = _
    omega
  low v := by
    have range := signedByte_range v
    omega
  high v := by
    have range := signedByte_range v
    simp only [Bool.false_eq_true, if_false]
    omega
  sign := by simp

/- `id TINYINT UNSIGNED AUTO_INCREMENT PRIMARY KEY`. -/
def numberedRows : Schema := ⟨some (byteKey 0), [], some (byteNumber 0)⟩

def insertFirst (value : UInt8) : CounterEvent :=
  .dml (.write (fun _ => none) ⟨[some [value]], true, .ok (some [value]), false, false, 0, 0, zeroed⟩)

def insertSecond (id value : UInt8) : CounterEvent :=
  .dml (.write (fun _ => none) ⟨[some [id], some [value]], true, .ok (some [value]), false, false, 0, 0, zeroed⟩)

def started : Numbering := ⟨Table.empty, []⟩

theorem counter_right_iff_generated :
    CounterRight (byteColumn 0) (run (numberingStep numberedRows (byteColumn 0)) started
      [.getAutoIncrement oneValue, insertFirst 1, insertFirst 7, .reopen recovered, .getAutoIncrement oneValue]) := by
  have right := (counter_right_iff numberedRows (byteColumn 0) rfl started
    [.getAutoIncrement oneValue, insertFirst 1, insertFirst 7, .reopen recovered, .getAutoIncrement oneValue]
    ⟨by simp [started, NumberColumn.stored, Table.empty, empty], by simp [started]⟩ (by decide)).mpr
    ⟨counterRight_iff.mpr ⟨by decide, by decide⟩, by decide⟩
  exact right _ (prefix_refl _)

/- `id TINYINT UNSIGNED PRIMARY KEY, n TINYINT UNSIGNED AUTO_INCREMENT, KEY (n)`, and
`n TINYINT AUTO_INCREMENT PRIMARY KEY`. -/
def numberedBeside : Schema := ⟨some (byteKey 0), [⟨byteKey 1, .ordinary false⟩], some (byteNumber 1)⟩
def signedRows : Schema := ⟨some (byteKey 0), [], some (signedNumber 0)⟩

/-- A reopen seeds the counter with 3 while 5 is stored; an update to 9 leaves it at 1; an explicit
-1 takes it to the end. -/
theorem counter_not_right :
    let beside := run (numberingStep numberedBeside (byteColumn 1)) started
      [insertSecond 1 5, insertSecond 2 3, .reopen recovered, .getAutoIncrement oneValue]
    let updated := run (numberingStep numberedRows (byteColumn 0)) started
      [insertFirst 1, .dml (.update ⟨[1], [some [1]], [some [9]], [0], zeroed⟩)]
    let negative := run (numberingStep signedRows (signedColumn 0)) started [insertFirst 255]
    (¬ CounterRight (byteColumn 1) beside ∧ beside.table.autoIncVal = 4 ∧ (byteColumn 1).stored beside.table = [5, 3] ∧
      oneValue.assigned beside.table.autoIncVal = [5]) ∧
    (¬ CounterRight (byteColumn 0) updated ∧ updated.table.autoIncVal = 1) ∧
    ¬ CounterRight (signedColumn 0) negative ∧ negative.table.autoIncVal = 2 ^ 64 - 1 ∧ negative.past = [-1] := by
  refine ⟨⟨fun right => ?_, by decide⟩, ⟨fun right => ?_, by decide⟩, fun right => ?_, by decide⟩
  · exact absurd (right.covers 5 (by decide)) (by decide)
  · exact absurd (right.covers 9 (by decide)) (by decide)
  · exact absurd right.reached (by decide)

end TidesdbMysql
