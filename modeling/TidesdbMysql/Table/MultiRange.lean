import TidesdbMysql.Base.Iterator
import TidesdbMysql.Table.Scan

/-! Multi-range reads: the points are sorted by key and read one by one, where the plain path makes one
`index_read_map` for each range. There is no pushed condition and no key-only read. -/
namespace TidesdbMysql.MultiRange

open Base (Bytes collect)
open List

variable {P X A : Type}

/-- Go on to the next item that is there. -/
def nextFound (read : X → Except HaCode A) : List X → Except HaCode A × List X
  | [] => (.error .endOfFile, [])
  | x :: rest =>
    match read x with
    | .error .keyNotFound => nextFound read rest
    | answer => (answer, rest)

theorem collect_nextFound {read : X → Except HaCode A} (missing : ∀ x code, read x = .error code → code = .keyNotFound)
    {items : List X} {calls : Nat} (enough : items.length < calls) :
    collect (nextFound read) calls items = (items.filterMap (Except.toOption ∘ read), some .endOfFile) := by
  induction items generalizing calls with
  | nil =>
    cases enough <;> rfl
  | cons x rest ih =>
    cases calls with
    | zero => cases enough
    | succ calls =>
      cases answer : read x with
      | ok a => simp [collect, nextFound, answer, Except.toOption, ih (Nat.lt_of_succ_lt_succ enough)]
      | error code =>
        cases missing x code answer
        have skipped : nextFound read (x :: rest) = nextFound read rest := by simp [nextFound, answer]
        rw [collect, skipped, ← collect, ih (Nat.lt_of_succ_lt enough)]
        simp [answer, Except.toOption]

/-- A range of the optimizer; `ptr` comes back with its row. -/
structure MrrRange (P : Type) where
  unique : Bool
  eq : Bool
  null : Bool
  parts : Nat
  search : Record
  ptr : P

def MrrRange.isPoint (r : MrrRange P) : Bool := r.unique && !r.null && r.eq

def mrrAcceptMinRanges : Nat := 2

/-- Whether `multi_range_read_info_const` takes the ranges over from the server. -/
def multiRangeReadInfoConst (partitioned : Bool) (ranges : List (MrrRange P)) : Bool :=
  !partitioned && ranges.all MrrRange.isPoint && decide (mrrAcceptMinRanges ≤ ranges.length)

/- `comp_key` and `ptr` of an entry. A conversion finds in `record[1]` what the one before left. -/
def mrrEntry (held : MrrRange P → Residue) (active : ActiveIndex) (r : MrrRange P) : Bytes × P :=
  (keyCopyToComparable (held r) active r.parts r.search, r.ptr)

/-- `mrr_entries_` after `multi_range_read_init`: `std::sort` says nothing of the order of equal keys. -/
structure MrrEntries (held : MrrRange P → Residue) (active : ActiveIndex) (ranges : List (MrrRange P)) where
  items : List (Bytes × P)
  perm : items.Perm (ranges.map (mrrEntry held active))
  sorted : items.Pairwise fun a b => a.1 ≤ b.1

section
variable (s : Table) (active : ActiveIndex) (noAssoc : Bool)

def mrrPoint (comp : Bytes) : Except HaCode Row :=
  match active with
  | .primary _ => fetchRowByPk s comp
  | .secondary i ix => readEntry s ix.key comp .keyNotFound ((s.index i).seek comp)

/- The row, with the pointer of its range unless `mrr_no_assoc_` is set. -/
def mrrAnswer (ptr : P) (answer : Except HaCode Row) : Except HaCode (Option P × Row) :=
  answer.map fun row => (if noAssoc then none else some ptr, row)

/-- `multi_range_read_next`, from the entries that are left. -/
def multiRangeReadNext : List (Bytes × P) → Except HaCode (Option P × Row) × List (Bytes × P) :=
  nextFound fun e => mrrAnswer noAssoc e.2 (mrrPoint s active e.1)

variable {s active noAssoc}

theorem mrrAnswer_missing {comp : Bytes} {ptr : P} {code : HaCode}
    (failed : mrrAnswer noAssoc ptr (mrrPoint s active comp) = .error code) : code = .keyNotFound := by
  cases active with
  | primary key => grind [mrrAnswer, mrrPoint, fetchRowByPk, Except.map]
  | secondary i ix =>
    cases found : (s.index i).seek comp <;> grind [mrrAnswer, mrrPoint, readEntry, fetchRowByPk, Except.map]

/- The plain path runs no iterator for a whole primary key. -/
theorem indexReadExact_whole {held : Residue} {n : Nat} {search : Record} (whole : active.key.parts.length ≤ n) :
    (indexReadExact s active (keyCopyToComparable held active n search)).1 =
      mrrPoint s active (keyCopyToComparable held active n search) := by
  cases active with
  | primary key =>
    refine congrArg Prod.fst (if_pos ?_)
    rw [keyCopyToComparable, searchParts, take_of_length_le (whole.trans (Nat.le_max_right 1 n)), makeComparableKey_length]
    exact Nat.le_refl _
  | secondary i ix => rfl

end

end TidesdbMysql.MultiRange
