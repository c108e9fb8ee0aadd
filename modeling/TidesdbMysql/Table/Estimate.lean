import TidesdbMysql.Table.Range

/-! `records_in_range`: the byte interval in which the engine counts keys for the optimizer. -/
namespace TidesdbMysql

open Base (Bytes)
open ActiveIndex List

def keyInfLoByte : UInt8 := 0
def dataKeyBufLen : Nat := 1 + maxKeyLength + 1

/-- A bound on the leading parts; `held` is what the unpacked key leaves of the record before. -/
structure KeyRange where
  parts : Nat
  search : Record
  flag : FindFlag
  held : Residue

/- The key under which a family stores the comparable bytes of an index. -/
def ActiveIndex.stored (active : ActiveIndex) (comp : Bytes) : Bytes :=
  match active with
  | .primary _ => buildDataKey comp
  | .secondary _ _ => comp

def KeyRange.comparable (b : KeyRange) (active : ActiveIndex) : Bytes :=
  keyCopyToComparable b.held active b.parts b.search

section
variable (T : Schema) (active : ActiveIndex) (minKey maxKey : Option KeyRange)

def rangeLow : Bytes :=
  match minKey, active with
  | some b, _ => active.stored (b.comparable active)
  | none, .primary _ => [keyNsData]
  | none, .secondary _ _ => [keyInfLoByte]

/- `hi_len` of a missing upper bound, cut to the buffer. -/
def topLength : Nat :=
  min dataKeyBufLen (T.pkKeyLen + match active with
    | .primary _ => 1
    | .secondary _ ix => comparableKeyLength ix.key.parts)

def rangeHigh : Bytes :=
  match maxKey with
  | some b => active.stored (b.comparable active)
  | none => replicate (topLength T active) keyInfHiByte

/-- The interval handed to `tidesdb_range_stats`; for two equal bounds the answer is `rec_per_key`.
The flags of the bounds are not read. -/
def recordsInRange : Option (Bytes × Bytes) :=
  if minKey.isSome ∧ maxKey.isSome ∧ 0 < (rangeLow active minKey).length ∧
      rangeLow active minKey = rangeHigh T active maxKey then none
  else some (rangeLow active minKey, rangeHigh T active maxKey)

variable {A : Nat → Type} [∀ f, LinearOrder (A f)] (rank : (f : Nat) → Bytes → A f)

def UpTo (flag : FindFlag) (parts : List KeyPart) (search record : Record) : Prop :=
  if flag = .beforeKey then TupleLt rank parts record search else ¬ TupleLt rank parts search record

def InKeyRange (record : Record) : Prop :=
  (∀ b ∈ minKey, Wanted rank b.flag (searchParts active b.parts) b.search record) ∧
    ∀ b ∈ maxKey, UpTo rank b.flag (searchParts active b.parts) b.search record

variable (residue : Nat → Bytes → Residue)

/-- The entries that an interval misses: those that extend the upper bound, or the largest key of a
key space that has none, and below a missing lower bound the empty entry. -/
def Missed (row : Row) : Prop :=
  (match maxKey with
    | some b => TupleEq rank (searchParts active b.parts) row.2 b.search ∧
        comparableKeyLength (searchParts active b.parts) < (active.image residue row).length
    | none => replicate (topLength T active) keyInfHiByte <+: active.stored (active.image residue row) ∧
        topLength T active < (active.stored (active.image residue row)).length) ∨
  minKey = none ∧ active.stored (active.image residue row) = []

end

theorem stored_le (active : ActiveIndex) {a b : Bytes} : active.stored a ≤ active.stored b ↔ a ≤ b := by
  cases active with
  | primary key => exact dataKey_le
  | secondary i ix => exact Iff.rfl

variable {T : Schema} {residue : Nat → Bytes → Residue} {s : Table} {active : ActiveIndex}
  {A : Nat → Type} [∀ f, LinearOrder (A f)] {rank : (f : Nat) → Bytes → A f} {values : Nat → Set Bytes}

theorem missing_low_le (active : ActiveIndex) (k : Bytes) :
    rangeLow active none ≤ active.stored k ↔ active.stored k ≠ [] := by
  cases active with
  | primary key =>
    have low : [keyNsData] ≤ buildDataKey k := Base.prefix_le ⟨k, rfl⟩
    exact iff_of_true low (cons_ne_nil _ _)
  | secondary i ix =>
    cases k with
    | nil => exact iff_of_false (not_le.mpr (nil_lt_cons _ _)) (not_not.mpr rfl)
    | cons x rest =>
      have low : [keyInfLoByte] ≤ x :: rest := by
        rcases (UInt8.zero_le).lt_or_eq with less | same
        · exact Base.cons_le_cons_bytes.mpr (.inl less)
        · exact Base.cons_le_cons_bytes.mpr (.inr ⟨same, not_lt.mp (not_lt_nil _)⟩)
      exact iff_of_true low (cons_ne_nil _ _)

section
variable (mirrored : Mirrored T residue s) (of_table : active.Of T)
  (embeds : ∀ kp ∈ active.key.parts, kp.Embeds rank values) {b : KeyRange}
  (holds_bound : Holds values (searchParts active b.parts) b.search) {row : Row} (mem : row ∈ s.rows.entries)
  (holds_row : Holds values active.key.parts row.2)
include mirrored of_table embeds holds_bound mem holds_row

theorem wanted_reached {flag : FindFlag} (wanted : Wanted rank flag (searchParts active b.parts) b.search row.2) :
    b.comparable active ≤ active.image residue row := by
  rw [KeyRange.comparable, (reached_iff mirrored of_table b.held embeds holds_bound mem holds_row).1]
  unfold Wanted at wanted
  split at wanted
  · exact ((tupleLt_iff _ _ _).mp wanted).1
  · exact wanted

/- Of the rows up to a bound, those that go on after its bytes lie above it. -/
theorem upTo_below_iff {flag : FindFlag} (up : UpTo rank flag (searchParts active b.parts) b.search row.2) :
    active.image residue row ≤ b.comparable active ↔
      ¬ (TupleEq rank (searchParts active b.parts) row.2 b.search ∧
        comparableKeyLength (searchParts active b.parts) < (active.image residue row).length) := by
  have width : (b.comparable active).length = comparableKeyLength (searchParts active b.parts) :=
    makeComparableKey_length _ _ _
  obtain ⟨low, group⟩ := reached_iff mirrored of_table b.held embeds holds_bound mem holds_row
  change (b.comparable active ≤ _ ↔ _) at low
  change (b.comparable active <+: _ ↔ _) at group
  rw [← group, ← width]
  constructor
  · rintro below ⟨starts, longer⟩
    rw [le_antisymm (Base.prefix_le starts) below] at longer
    exact lt_irrefl _ longer
  · intro inside
    by_contra above
    have before : ¬ TupleLt rank (searchParts active b.parts) row.2 b.search := low.mp (not_le.mp above).le
    have same : TupleEq rank (searchParts active b.parts) row.2 b.search := by
      by_contra differ
      have after := (tupleLt_iff _ b.search row.2).mpr ⟨before, differ⟩
      unfold UpTo at up
      split at up
      · exact before up
      · exact up after
    have starts := group.mpr same
    refine inside ⟨starts, lt_of_le_of_ne starts.length_le fun equal => above ?_⟩
    rw [starts.eq_of_length equal]

end

end TidesdbMysql
