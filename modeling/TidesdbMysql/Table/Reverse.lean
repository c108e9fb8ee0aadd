import Mathlib.Data.List.TakeWhile
import TidesdbMysql.Table.Range

/-! Backward range scans: `index_read_map` with one of the four backward flags, then `index_prev` to
the start. -/
namespace TidesdbMysql

open Base (Bytes SortedMap Starts Iter collect collectFrom readAll Reads Opens)
open SecScan Base.Iter PkScan ActiveIndex
open List Base.SortedMap

namespace PkScan

structure Backward (scan : PkScan) : Prop where
  noExact : scan.exactDone = false
  rows : ∃ (rows : List Row) (metas : List (Bytes × Bytes)),
    scan.iter.backward.tail = rows.map dataEntry ++ metas.map metaEntry

def back (scan : PkScan) : List Row := (scan.iter.backward.tail.filter fun e => isDataKey e.1).map rowOf

theorem data_of_split (rows : List Row) (metas : List (Bytes × Bytes)) :
    ((rows.map dataEntry ++ metas.map metaEntry).filter fun e => isDataKey e.1).map rowOf = rows := by
  have data : ∀ e ∈ rows.map dataEntry, isDataKey e.1 = true := by
    intro e mem
    obtain ⟨row, -, rfl⟩ := mem_map.mp mem
    rfl
  have none_meta : ∀ e ∈ metas.map metaEntry, ¬ isDataKey e.1 = true := by
    intro e mem
    obtain ⟨m, -, rfl⟩ := mem_map.mp mem
    simp
  rw [filter_append, filter_eq_self.mpr data, filter_eq_nil_iff.mpr none_meta, append_nil, map_map]
  exact map_id rows

theorem dropWhile_split (rows : List Row) (metas : List (Bytes × Bytes)) :
    (rows.map dataEntry ++ metas.map metaEntry).dropWhile (fun e => !isDataKey e.1) =
      if rows = [] then [] else rows.map dataEntry ++ metas.map metaEntry := by
  cases rows with
  | nil =>
    rw [if_pos rfl]
    refine dropWhile_eq_nil_iff.mpr fun e mem => ?_
    obtain ⟨m, -, rfl⟩ := mem_map.mp mem
    rfl
  | cons row rest => simp

theorem indexPrev_reads (family : SortedMap Bytes Record) :
    Reads (indexPrev family) Backward back (Except.ok (ε := HaCode)) .endOfFile := by
  have moved : ∀ scan : PkScan, Backward scan → indexPrev family scan =
      { scan with exactDone := false, dir := .backward,
                  iter := scan.iter.prev.prevWhile fun e => !isDataKey e.1 }.iterReadCurrent := by
    intro scan backward
    simp [indexPrev, backward.noExact]
  refine ⟨fun scan backward finished => ?_, fun scan row rest backward items => ?_⟩
  · obtain ⟨rows, metas, behind⟩ := backward.rows
    rw [back, behind, data_of_split] at finished
    have gone : (scan.iter.prev.prevWhile fun e => !isDataKey e.1) = none := by
      rw [← backward_eq_nil, backward_prevWhile, backward_prev, behind, dropWhile_split, if_pos finished]
    rw [moved scan backward]
    refine iterReadCurrent_nil ?_
    rw [gone]
    rfl
  · obtain ⟨rows, metas, behind⟩ := backward.rows
    rw [back, behind, data_of_split] at items
    subst items
    have later : (scan.iter.prev.prevWhile fun e => !isDataKey e.1).backward =
        (row :: rest).map dataEntry ++ metas.map metaEntry := by
      rw [backward_prevWhile, backward_prev, behind, dropWhile_split, if_neg (cons_ne_nil _ _)]
    have here : (scan.iter.prev.prevWhile fun e => !isDataKey e.1).item = some (dataEntry row) := by
      rw [item_eq_head_backward, later]
      rfl
    rw [moved scan backward, iterReadCurrent_row here]
    refine ⟨rfl, fun _ _ => ⟨⟨rfl, rest, metas, ?_⟩, ?_⟩⟩
    · rw [later]
      rfl
    · rw [back, later]
      exact data_of_split rest metas

theorem readTo_opens {scan : PkScan} (noExact : scan.exactDone = false) {rows : List Row} (metas : List (Bytes × Bytes))
    (behind : (scan.iter.nextWhile fun e => !isDataKey e.1).backward = rows.map dataEntry ++ metas.map metaEntry)
    (on_row : rows = [] → metas = []) : Opens (scan.readTo .backward) Backward back (Except.ok (ε := HaCode)) rows := by
  have read : ∀ row, (scan.iter.nextWhile fun e => !isDataKey e.1).item = some (dataEntry row) →
      scan.readTo .backward = (.ok row, { scan with
        iter := scan.iter.nextWhile fun e => !isDataKey e.1, currentPk := row.1, dir := .backward }) := by
    intro row here
    simp [readTo, iterReadCurrent, here, dataEntry, buildDataKey]
  cases rows with
  | nil =>
    rw [on_row rfl] at behind
    have gone : (scan.iter.nextWhile fun e => !isDataKey e.1).item = none := by
      rw [item_eq_head_backward, behind]
      rfl
    have failed : (scan.readTo .backward).1 = .error .endOfFile := by
      simp [readTo_answer, iterReadCurrent, gone]
    refine ⟨fun row found => ?_, fun _ _ x rest items => ?_⟩
    · rw [failed] at found
      cases found
    · cases items
  | cons row rest =>
    have here : (scan.iter.nextWhile fun e => !isDataKey e.1).item = some (dataEntry row) := by
      rw [item_eq_head_backward, behind]
      rfl
    rw [read row here]
    refine ⟨fun a found => ?_, fun _ failed => ?_⟩
    · cases found
      refine ⟨row, rest, rfl, rfl, ⟨noExact, rest, metas, ?_⟩, ?_⟩
      · rw [behind]
        rfl
      · rw [back, behind]
        exact data_of_split rest metas
    · cases failed

section
variable (metas : SortedMap Bytes Bytes) (s : Table)

/- With no row to return and metadata in the family, a backward read runs forward into the first row
of the table. -/
def backRows (rows : List Row) : List Row :=
  if rows = [] ∧ metas.entries ≠ [] then s.rows.entries.head?.toList else rows

theorem readTo_backward_opens {scan : PkScan} (noExact : scan.exactDone = false)
    (on : scan.iter.On (dataFamily metas s.rows).entries) {rows : List Row}
    (behind : scan.iter.backward = rows.map dataEntry ++ metas.entries.reverse.map metaEntry) :
    Opens (scan.readTo .backward) Backward back (Except.ok (ε := HaCode)) (backRows metas s rows) := by
  have skips : ∀ e ∈ metas.entries.map metaEntry, (!isDataKey e.1) = true := by
    intro e mem
    obtain ⟨m, -, rfl⟩ := mem_map.mp mem
    rfl
  have stays : ∀ e ∈ s.rows.entries.map dataEntry, (!isDataKey e.1) = false := by
    intro e mem
    obtain ⟨row, -, rfl⟩ := mem_map.mp mem
    rfl
  unfold backRows
  split
  · next stray =>
    obtain ⟨rfl, some_meta⟩ := stray
    rw [map_nil, nil_append] at behind
    rw [dataFamily_entries] at on
    have on_meta : ∃ e ∈ scan.iter.item, (!isDataKey e.1) = true := by
      rw [item_eq_head_backward, behind]
      cases last : metas.entries.reverse with
      | nil => exact absurd (reverse_eq_nil_iff.mp last) some_meta
      | cons m rest => exact ⟨metaEntry m, rfl, rfl⟩
    have ahead : (scan.iter.nextWhile fun e => !isDataKey e.1).forward = s.rows.entries.map dataEntry := by
      rw [forward_nextWhile]
      exact on.dropWhile_forward skips stays on_meta
    cases first : s.rows.entries with
    | nil =>
      rw [first] at ahead
      refine readTo_opens noExact [] ?_ fun _ => rfl
      rw [forward_eq_nil.mp ahead]
      rfl
    | cons row rest =>
      have here : (scan.iter.nextWhile fun e => !isDataKey e.1).item = some (dataEntry row) := by
        rw [item_eq_head, ahead, first]
        rfl
      refine readTo_opens noExact metas.entries.reverse ?_ nofun
      rw [backward_of_item here, (on.nextWhile _).backward_tail ahead (by simp [first]), ← map_reverse]
      rfl
  · next reached =>
    cases rows with
    | nil =>
      have no_metas : metas.entries = [] := by simpa using reached
      rw [no_metas] at behind
      refine readTo_opens noExact [] ?_ fun _ => rfl
      rw [backward_eq_nil.mp behind]
      rfl
    | cons row rest =>
      have on_row : scan.iter.nextWhile (fun e => !isDataKey e.1) = scan.iter := by
        refine nextWhile_of_item fun e here => ?_
        rw [item_eq_head_backward, behind] at here
        cases here
        rfl
      refine readTo_opens noExact metas.entries.reverse ?_ nofun
      rw [on_row]
      exact behind

variable (key : Key) (comp : Bytes)

def rowsDown (flag : FindFlag) : List Row :=
  if flag = .beforeKey ∧ comparableKeyLength key.parts ≤ comp.length then (s.rows.before comp).reverse
  else (s.rows.upTo (comp ++ List.replicate (comparableKeyLength key.parts - comp.length) keyInfHiByte)).reverse

theorem backward_seek (upper : Bytes) : ((dataFamily metas s.rows).iterSeekForPrev (buildDataKey upper)).backward =
      (s.rows.upTo upper).reverse.map dataEntry ++ metas.entries.reverse.map metaEntry := by
  rw [backward_iterSeekForPrev, upTo_dataFamily, reverse_append, ← map_reverse, ← map_reverse]

theorem backward_before :
    (if ((dataFamily metas s.rows).iterSeekForPrev (buildDataKey comp)).item.map Prod.fst = some (buildDataKey comp)
      then ((dataFamily metas s.rows).iterSeekForPrev (buildDataKey comp)).prev
      else (dataFamily metas s.rows).iterSeekForPrev (buildDataKey comp)).backward =
      (s.rows.before comp).reverse.map dataEntry ++ metas.entries.reverse.map metaEntry := by
  have same_iff : ((dataFamily metas s.rows).iterSeekForPrev (buildDataKey comp)).item.map Prod.fst =
      some (buildDataKey comp) ↔ (s.rows.upTo comp).reverse.head?.map Prod.fst = some comp := by
    rw [item_eq_head_backward, backward_seek]
    cases (s.rows.upTo comp).reverse with
    | cons row rest => simp [dataEntry, buildDataKey]
    | nil =>
      cases metas.entries.reverse with
      | nil => simp
      | cons m rest => simp [metaEntry, buildDataKey, keyNsMeta, keyNsData]
  simp only [same_iff, ← upTo_passing]
  split
  · next here =>
    rw [backward_prev, backward_seek]
    cases found : (s.rows.upTo comp).reverse with
    | nil => simp [found] at here
    | cons row rest => rfl
  · exact backward_seek metas s comp

theorem seek_opens (upper : Bytes) :
    Opens ({ init with searchComp := comp,
                       iter := (dataFamily metas s.rows).iterSeekForPrev (buildDataKey upper) }.readTo .backward)
      Backward back (Except.ok (ε := HaCode)) (backRows metas s (s.rows.upTo upper).reverse) :=
  readTo_backward_opens metas s rfl (iterSeekForPrev_on _ _) (backward_seek metas s upper)

variable {flag : FindFlag}

theorem indexReadMap_backward (backward : flag.isBackward = true) :
    init.indexReadMap (dataFamily metas s.rows) s key flag comp = if comp.length < comparableKeyLength key.parts then
        { init with searchComp := comp }.seekUpper (dataFamily metas s.rows) key flag comp
      else { init with searchComp := comp }.seekExact (dataFamily metas s.rows) flag comp := by
  cases flag with
  | keyOrPrev | beforeKey | prefixLast | prefixLastOrPrev => rfl
  | keyExact | keyOrNext | afterKey | other => cases backward

theorem seekExact_opens (flag : FindFlag) (full : ¬ comp.length < comparableKeyLength key.parts) :
    Opens ({ init with searchComp := comp }.seekExact (dataFamily metas s.rows) flag comp) Backward back
      (Except.ok (ε := HaCode)) (backRows metas s (rowsDown s key comp flag)) := by
  by_cases before : flag = .beforeKey
  · rw [rowsDown, if_pos ⟨before, not_lt.mp full⟩]
    refine readTo_backward_opens metas s rfl ?_ ?_
    · split
      · exact (iterSeekForPrev_on _ _).prev
      · exact iterSeekForPrev_on _ _
    · simp only [before, true_and]
      exact backward_before metas s comp
  · have no_pad : comparableKeyLength key.parts - comp.length = 0 := Nat.sub_eq_zero_of_le (not_lt.mp full)
    rw [rowsDown, if_neg fun both => before both.1, no_pad, replicate_zero, append_nil, seekExact,
      if_neg fun both => before both.1]
    exact seek_opens metas s comp comp

theorem indexReadMap_backward_opens (backward : flag.isBackward = true) (reads_on : flag ≠ .prefixLast) :
    Opens (init.indexReadMap (dataFamily metas s.rows) s key flag comp) Backward back (Except.ok (ε := HaCode))
      (backRows metas s (rowsDown s key comp flag)) := by
  rw [indexReadMap_backward metas s key comp backward]
  split
  · next part =>
    rw [rowsDown, if_neg fun both => absurd both.2 (not_le.mpr part), seekUpper, if_neg fun both => reads_on both.1]
    exact seek_opens metas s comp _
  · next full => exact seekExact_opens metas s key comp flag full

theorem indexReadMap_backward_error (backward : flag.isBackward = true) {code : HaCode}
    (failed : (init.indexReadMap (dataFamily metas s.rows) s key flag comp).1 = .error code) :
    code = .endOfFile ∨ code = .keyNotFound := by
  rw [indexReadMap_backward metas s key comp backward] at failed
  simp only [seekUpper, seekExact] at failed
  split at failed
  · split at failed
    · cases failed
      exact .inr rfl
    · exact .inl (iterReadCurrent_error ((readTo_answer _ _).symm.trans failed))
  · exact .inl (iterReadCurrent_error ((readTo_answer _ _).symm.trans failed))

theorem mem_upTo_padded (widths : ∀ row ∈ s.rows.entries, row.1.length = comparableKeyLength key.parts) (row : Row)
    (mem : row ∈ s.rows.entries) (starts : comp <+: row.1) :
    row ∈ s.rows.upTo (comp ++ List.replicate (comparableKeyLength key.parts - comp.length) keyInfHiByte) := by
  refine mem_upTo.mpr ⟨mem, Base.prefix_le_padded starts ?_⟩
  rw [widths row mem]
  omega

theorem foreign_iff (widths : ∀ row ∈ s.rows.entries, row.1.length = comparableKeyLength key.parts) {row : Row}
    (head : (backRows metas s (s.rows.upTo
      (comp ++ List.replicate (comparableKeyLength key.parts - comp.length) keyInfHiByte)).reverse).head? = some row) :
    ((dataFamily metas s.rows).iterSeekForPrev (buildDataKey
      (comp ++ List.replicate (comparableKeyLength key.parts - comp.length) keyInfHiByte))).item.any
        (fun e => !Starts (buildDataKey comp) e) = true ↔ ¬ comp <+: row.1 := by
  have under := mem_upTo_padded s key comp widths row
  rw [item_eq_head_backward, backward_seek]
  generalize s.rows.upTo _ = rows at head under
  cases down : rows.reverse with
  | cons first rest =>
    rw [down, backRows, if_neg nofun] at head
    cases head
    simp [Starts, dataEntry, buildDataKey]
  | nil =>
    rw [reverse_eq_nil_iff.mp down] at under head
    rw [backRows] at head
    split at head
    · next stray =>
      cases last : metas.entries.reverse with
      | nil => exact absurd (reverse_eq_nil_iff.mp last) stray.2
      | cons m rest =>
        have mem : row ∈ s.rows.entries := by
          cases rows_eq : s.rows.entries with
          | nil => simp [rows_eq] at head
          | cons first more =>
            rw [rows_eq] at head
            cases head
            exact mem_cons_self
        have not_prefix : ¬ comp <+: row.1 := fun starts => not_mem_nil (under mem starts)
        simp [Starts, metaEntry, buildDataKey, keyNsMeta, keyNsData, not_prefix]
    · cases head

/- `HA_READ_PREFIX_LAST` answers the last row of the range, checked against a prefix that is a part
of the key only. -/
theorem prefixLast_ok_iff (widths : ∀ row ∈ s.rows.entries, row.1.length = comparableKeyLength key.parts) {row : Row} :
    (init.indexReadMap (dataFamily metas s.rows) s key .prefixLast comp).1 = .ok row ↔
      (backRows metas s (rowsDown s key comp .prefixLast)).head? = some row ∧
        (comp.length < comparableKeyLength key.parts → comp <+: row.1) := by
  rw [indexReadMap_backward metas s key comp rfl]
  by_cases part : comp.length < comparableKeyLength key.parts
  · have opens := seek_opens metas s comp (comp ++ replicate (comparableKeyLength key.parts - comp.length) keyInfHiByte)
    rw [if_pos part, rowsDown, if_neg nofun]
    simp only [part, true_imp_iff]
    rw [seekUpper]
    split
    · next foreign =>
      refine ⟨nofun, fun both => absurd both.2 ?_⟩
      exact (foreign_iff metas s key comp widths both.1).mp foreign.2
    · next own =>
      refine opens.ok_iff.trans ⟨fun head => ⟨head, ?_⟩, And.left⟩
      by_contra apart
      exact own ⟨rfl, (foreign_iff metas s key comp widths head).mpr apart⟩
  · rw [if_neg part, (seekExact_opens metas s key comp .prefixLast part).ok_iff]
    simp [part]

end

end PkScan

section
variable (T : Schema) (s : Table) (metas : SortedMap Bytes Bytes) (keyRead : Bytes → Option Record)
  (active : ActiveIndex) (flag : FindFlag) (comp : Bytes)

def reverseScan : List Row × Option HaCode :=
  match active with
  | .primary key =>
    collectFrom (PkScan.init.indexReadMap (dataFamily metas s.rows) s key flag comp)
      (PkScan.indexPrev (dataFamily metas s.rows)) (scanBound s active)
  | .secondary i ix =>
    collectFrom (SecScan.init.indexReadMap (s.index i) s ix.key keyRead T flag comp)
      (SecScan.indexPrev s ix.key keyRead) (scanBound s active)

/-- The first answer alone, which is what `HA_READ_PREFIX_LAST` asks for. -/
def readLast : Except HaCode Row :=
  match active with
  | .primary key => (PkScan.init.indexReadMap (dataFamily metas s.rows) s key .prefixLast comp).1
  | .secondary i ix => (SecScan.init.indexReadMap (s.index i) s ix.key keyRead T .prefixLast comp).1

/- The bound a backward read seeks to: the rest of the primary key, or a whole one, is filled up. -/
def upperKey : Bytes :=
  comp ++ List.replicate (match active with
    | .primary key => comparableKeyLength key.parts - comp.length
    | .secondary _ _ => T.pkKeyLen) keyInfHiByte

end

section
variable (T : Schema) (residue : Nat → Bytes → Residue) (s : Table) (metas : SortedMap Bytes Bytes)
  (active : ActiveIndex) (flag : FindFlag) (comp : Bytes) (row : Row)

/-- The rows under that bound; `HA_READ_BEFORE_KEY` leaves out the search key only where it is a
full primary key. -/
def Within : Prop :=
  active.image residue row ≤ upperKey T active comp ∧ (flag = .beforeKey →
    match active with
    | .primary key => comparableKeyLength key.parts ≤ comp.length → row.1 ≠ comp
    | .secondary _ _ => True)

instance : Decidable (Within T residue active flag comp row) :=
  match active with
  | .primary _ => inferInstanceAs (Decidable (_ ∧ (_ → _ → _ ≠ _)))
  | .secondary _ _ => inferInstanceAs (Decidable (_ ∧ (_ → True)))

/-- The first row of the table is returned when no row is under the bound and there is metadata. -/
def StrayFirst : Prop :=
  match active with
  | .primary _ => metas.entries ≠ [] ∧ (∀ other ∈ s.rows.entries, ¬ Within T residue active flag comp other) ∧
    s.rows.entries.head? = some row
  | .secondary _ _ => False

instance : Decidable (StrayFirst T residue s metas active flag comp row) :=
  match active with
  | .primary _ => inferInstanceAs (Decidable (_ ∧ (∀ other ∈ s.rows.entries, _) ∧ _))
  | .secondary _ _ => inferInstanceAs (Decidable False)

def ReachedBack : Prop :=
  Within T residue active flag comp row ∨ StrayFirst T residue s metas active flag comp row

instance : Decidable (ReachedBack T residue s metas active flag comp row) :=
  inferInstanceAs (Decidable (_ ∨ _))

end

def reachedDown (T : Schema) (residue : Nat → Bytes → Residue) (s : Table) (metas : SortedMap Bytes Bytes)
    (active : ActiveIndex) (flag : FindFlag) (comp : Bytes) : List Row :=
  ((inKeyOrder s active).filter fun row => decide (ReachedBack T residue s metas active flag comp row)).reverse

section
variable {T : Schema} {residue : Nat → Bytes → Residue} {s : Table} {metas : SortedMap Bytes Bytes}
  {keyRead : Bytes → Option Record} {flag : FindFlag} {comp : Bytes}

theorem rowsDown_eq (T : Schema) (residue : Nat → Bytes → Residue) (s : Table) (key : Key) (flag : FindFlag)
    (comp : Bytes) : PkScan.rowsDown s key comp flag =
      (s.rows.entries.filter fun row => decide (Within T residue (.primary key) flag comp row)).reverse := by
  unfold rowsDown
  split
  · next before =>
    refine congrArg reverse (filter_congr fun row _ => decide_eq_decide.mpr ?_)
    have no_pad : comparableKeyLength key.parts - comp.length = 0 := Nat.sub_eq_zero_of_le before.2
    simp only [Within, image, upperKey, before, no_pad, replicate_zero, append_nil, true_imp_iff]
    exact lt_iff_le_and_ne
  · next other =>
    refine congrArg reverse (filter_congr fun row _ => decide_eq_decide.mpr ?_)
    refine ⟨fun low => ⟨low, fun before full => absurd ⟨before, full⟩ other⟩, And.left⟩

theorem reachedDown_primary (T : Schema) (residue : Nat → Bytes → Residue) (key : Key) :
    PkScan.backRows metas s (PkScan.rowsDown s key comp flag) =
      reachedDown T residue s metas (.primary key) flag comp := by
  rw [rowsDown_eq T residue, backRows, reachedDown]
  split
  · next stray =>
    have none_within : ∀ other ∈ s.rows.entries, ¬ Within T residue (.primary key) flag comp other := by
      intro other mem within
      have listed := filter_eq_nil_iff.mp (reverse_eq_nil_iff.mp stray.1) other mem
      exact listed (decide_eq_true within)
    rw [inKeyOrder, filter_eq_head]
    · cases s.rows.entries.head? <;> rfl
    · intro row mem
      simp only [decide_eq_true_eq, ReachedBack, none_within row mem, false_or]
      exact ⟨fun all => all.2.2, fun head => ⟨stray.2, none_within, head⟩⟩
  · next plain =>
    refine congrArg reverse (filter_congr fun row mem => decide_eq_decide.mpr ?_)
    refine ⟨.inl, fun reached => reached.resolve_right fun stray => plain ⟨?_, stray.1⟩⟩
    rw [filter_eq_nil_iff.mpr, reverse_nil]
    intro other here within
    exact stray.2.1 other here (of_decide_eq_true within)

theorem reverseScan_primary (residue : Nat → Bytes → Residue) (key : Key) (backward : flag.isBackward = true)
    (reads_on : flag ≠ .prefixLast) :
    (reverseScan T s metas keyRead (.primary key) flag comp).1 = reachedDown T residue s metas (.primary key) flag comp ∧
    ((reverseScan T s metas keyRead (.primary key) flag comp).2 = some .endOfFile ∨
      (reverseScan T s metas keyRead (.primary key) flag comp).2 = some .keyNotFound) := by
  have opens := indexReadMap_backward_opens metas s key comp backward reads_on
  rw [reachedDown_primary T residue] at opens
  have size : (reachedDown T residue s metas (.primary key) flag comp).length ≤ scanBound s (.primary key) := by
    rw [reachedDown, length_reverse]
    exact length_filter_le _ _
  obtain ⟨rows, code⟩ := Base.collectFrom_eq (indexPrev_reads (dataFamily metas s.rows)) opens size
  rw [Base.readFrom_self, Base.readAll_id] at rows code
  refine ⟨rows, ?_⟩
  rcases code with code | ⟨c, failed, code⟩
  · exact .inl code
  · rcases indexReadMap_backward_error metas s key comp backward failed with rfl | rfl
    · exact .inl code
    · exact .inr code

theorem startIter_backward (T : Schema) (comp : Bytes) (m : SortedMap Bytes Bytes) (backward : flag.isBackward = true) :
    (SecScan.startIter m T flag comp).backward = (m.upTo (comp ++ List.replicate T.pkKeyLen keyInfHiByte)).reverse := by
  cases flag with
  | keyOrPrev | beforeKey | prefixLast | prefixLastOrPrev => exact backward_iterSeekForPrev _ _
  | keyExact | keyOrNext | afterKey | other => cases backward

variable {i : Nat} {ix : Index}

section
variable (mirrored : Mirrored T residue s) (of_table : (ActiveIndex.secondary i ix).Of T)
include mirrored of_table

theorem upTo_live (upper : Bytes) : ∀ e ∈ ((s.index i).upTo upper).reverse, LiveEntry s ix.key e := by
  intro e mem
  exact (entry_row mirrored of_table (mem_upTo.mp (mem_reverse.mp mem)).1).1

theorem reachedDown_secondary (metas : SortedMap Bytes Bytes) (flag : FindFlag) (comp : Bytes) :
    reachedDown T residue s metas (.secondary i ix) flag comp =
      (((s.index i).upTo (comp ++ List.replicate T.pkKeyLen keyInfHiByte)).reverse).map (entryRow s ix.key) := by
  rw [reachedDown, inKeyOrder, filter_map, map_reverse, upTo]
  refine congrArg reverse (congrArg (map _) (filter_congr fun e mem => decide_eq_decide.mpr ?_))
  simp only [ReachedBack, StrayFirst, Within, (entry_row mirrored of_table mem).2.2, upperKey, implies_true, and_true,
    or_false]

end

theorem secondary_opens (T : Schema) (s : Table) (keyRead : Bytes → Option Record) (comp : Bytes)
    (m : SortedMap Bytes Bytes) (key : Key) (backward : flag.isBackward = true) :
    Opens (SecScan.init.indexReadMap m s key keyRead T flag comp) (fun _ => True) (fun scan => scan.iter.backward.tail)
      (SecScan.take s key keyRead) (m.upTo (comp ++ List.replicate T.pkKeyLen keyInfHiByte)).reverse := by
  have not_exact : flag ≠ .keyExact := by
    rintro rfl
    cases backward
  rw [← startIter_backward T comp m backward]
  refine indexReadMap_opens ?_ fun dir _ => ⟨trivial, rfl⟩
  rw [if_neg not_exact, ← item_eq_head_backward]
  cases (startIter m T flag comp).item <;> rfl

theorem reverseScan_secondary (mirrored : Mirrored T residue s)
    (of_table : (ActiveIndex.secondary i ix).Of T) (backward : flag.isBackward = true) :
    (reverseScan T s metas keyRead (.secondary i ix) flag comp).1.map Prod.fst =
      (reachedDown T residue s metas (.secondary i ix) flag comp).map Prod.fst ∧
    ((reverseScan T s metas keyRead (.secondary i ix) flag comp).2 = some .endOfFile ∨
      (reverseScan T s metas keyRead (.secondary i ix) flag comp).2 = some .keyNotFound) := by
  have live := upTo_live mirrored of_table (comp ++ replicate T.pkKeyLen keyInfHiByte)
  have size : ((s.index i).upTo (comp ++ replicate T.pkKeyLen keyInfHiByte)).reverse.length ≤
      scanBound s (.secondary i ix) := by
    rw [length_reverse]
    exact length_filter_le _ _
  obtain ⟨rows, code⟩ := Base.collectFrom_eq indexPrev_reads
    (secondary_opens T s keyRead comp (s.index i) ix.key backward) size
  rw [Base.readFrom_self, Base.readAll_ok _ fun e mem =>
    take_live (live e mem)] at rows code
  refine ⟨?_, ?_⟩
  · rw [reverseScan, rows, reachedDown_secondary mirrored of_table metas, map_map, map_map]
    rfl
  · rcases code with code | ⟨c, failed, code⟩
    · exact .inl code
    · rw [indexReadMap_error failed] at code
      exact .inr code

/-- The last row under the bound, checked against a prefix that is a proper part of the primary
key. -/
def LastRow (T : Schema) (residue : Nat → Bytes → Residue) (s : Table) (metas : SortedMap Bytes Bytes)
    (active : ActiveIndex) (comp : Bytes) (row : Row) : Prop :=
  (ReachedBack T residue s metas active .prefixLast comp row ∧
    ∀ other ∈ s.rows.entries, ReachedBack T residue s metas active .prefixLast comp other →
      active.image residue other ≤ active.image residue row) ∧
  match active with
  | .primary key => comp.length < comparableKeyLength key.parts → comp <+: row.1
  | .secondary _ _ => True

theorem reachedDown_head (mirrored : Mirrored T residue s) {active : ActiveIndex} (of_table : active.Of T) {row : Row} :
    (reachedDown T residue s metas active flag comp).head? = some row ↔
      row ∈ s.rows.entries ∧ ReachedBack T residue s metas active flag comp row ∧
        ∀ other ∈ s.rows.entries, ReachedBack T residue s metas active flag comp other →
          active.image residue other ≤ active.image residue row := by
  rw [reachedDown, Base.head?_reverse_eq_some_iff ((inKeyOrder_sorted mirrored of_table).filter _)]
  simp only [mem_filter, mem_inKeyOrder mirrored of_table, decide_eq_true_eq, and_imp, and_assoc]

theorem readLast_answer (keyRead : Bytes → Option Record) (mirrored : Mirrored T residue s) {active : ActiveIndex}
    (of_table : active.Of T) : (∃ row ∈ s.rows.entries, LastRow T residue s metas active comp row ∧
      ∃ record, readLast T s metas keyRead active comp = .ok (row.1, record)) ∨
    ((∀ row ∈ s.rows.entries, ¬ LastRow T residue s metas active comp row) ∧
      ∃ code, readLast T s metas keyRead active comp = .error code ∧ (code = .endOfFile ∨ code = .keyNotFound)) := by
  cases active with
  | primary key =>
    have widths : ∀ row ∈ s.rows.entries, row.1.length = comparableKeyLength key.parts := by
      intro row mem
      obtain ⟨built, eq⟩ := (mirrored.keyed row.1 row.2 mem).user key of_table
      rw [← eq, makeComparableKey_length]
    have ok_iff : ∀ row, readLast T s metas keyRead (.primary key) comp = .ok row ↔
        row ∈ s.rows.entries ∧ LastRow T residue s metas (.primary key) comp row := by
      intro row
      refine (prefixLast_ok_iff metas s key comp widths).trans ?_
      rw [reachedDown_primary T residue, reachedDown_head mirrored of_table, and_assoc]
      rfl
    cases answer : readLast T s metas keyRead (.primary key) comp with
    | ok row =>
      obtain ⟨mem, last⟩ := (ok_iff row).mp answer
      exact .inl ⟨row, mem, last, row.2, rfl⟩
    | error code =>
      refine .inr ⟨fun row mem last => ?_, code, rfl, ?_⟩
      · rw [(ok_iff row).mpr ⟨mem, last⟩] at answer
        cases answer
      · exact indexReadMap_backward_error metas s key comp rfl answer
  | secondary i ix =>
    have opens := secondary_opens T s keyRead comp (s.index i) ix.key (show FindFlag.prefixLast.isBackward = true from rfl)
    have down := reachedDown_secondary mirrored of_table metas .prefixLast comp
    have live := upTo_live mirrored of_table (comp ++ replicate T.pkKeyLen keyInfHiByte)
    cases found : ((s.index i).upTo (comp ++ replicate T.pkKeyLen keyInfHiByte)).reverse with
    | nil =>
      rw [found] at opens down
      refine .inr ⟨fun row mem last => ?_, ?_⟩
      · have head := (reachedDown_head mirrored of_table).mpr ⟨mem, last.1⟩
        rw [down] at head
        cases head
      · cases answer : readLast T s metas keyRead (.secondary i ix) comp with
        | ok row =>
          obtain ⟨x, rest, items, -⟩ := opens.reads row answer
          cases items
        | error code => exact ⟨code, rfl, .inr (indexReadMap_error answer)⟩
    | cons e rest =>
      rw [found] at opens down live
      have read : take s ix.key keyRead e = .ok (shown s ix.key keyRead e) :=
        take_live (live e mem_cons_self)
      have head : (reachedDown T residue s metas (.secondary i ix) .prefixLast comp).head? = some (entryRow s ix.key e) := by
        rw [down]
        rfl
      obtain ⟨mem, last⟩ := (reachedDown_head mirrored of_table).mp head
      refine .inl ⟨_, mem, ⟨last, trivial⟩, ?_⟩
      cases answer : readLast T s metas keyRead (.secondary i ix) comp with
      | ok row =>
        obtain ⟨x, more, items, taken, -⟩ := opens.reads row answer
        cases items
        rw [read] at taken
        cases taken
        exact ⟨_, rfl⟩
      | error code =>
        obtain ⟨c, failed⟩ := opens.fails code answer e rest rfl
        rw [read] at failed
        cases failed

end

section BackwardReference

variable {A : Nat → Type} [∀ f, LinearOrder (A f)] (rank : (f : Nat) → Bytes → A f)

def WantedBack (flag : FindFlag) (parts : List KeyPart) (search record : Record) : Prop :=
  if flag = .beforeKey then TupleLt rank parts record search else ¬ TupleLt rank parts search record

def LastOfGroup (s : Table) (active : ActiveIndex) (n : Nat) (search record : Record) : Prop :=
  TupleEq rank (searchParts active n) record search ∧ ∀ other ∈ s.rows.entries,
    TupleEq rank (searchParts active n) other.2 search → ¬ TupleLt rank active.key.parts record other.2

/-- The answer is a last row of the group, or not-found or end-of-file where the group is empty. -/
def LastExact (s : Table) (active : ActiveIndex) (n : Nat) (search : Record) : Except HaCode Row → Prop
  | .ok row => ∃ record, s.rows.Has row.1 record ∧ LastOfGroup rank s active n search record
  | .error code => (code = .endOfFile ∨ code = .keyNotFound) ∧
    ∀ row ∈ s.rows.entries, ¬ TupleEq rank (searchParts active n) row.2 search

section
variable {T : Schema} {residue : Nat → Bytes → Residue} {s : Table} {metas : SortedMap Bytes Bytes}
  {keyRead : Bytes → Option Record} {active : ActiveIndex} {n : Nat} {search : Record} {comp : Bytes}

section
variable (mirrored : Mirrored T residue s) (of_table : active.Of T)
include mirrored of_table

theorem reverseScan_exact_iff {flag : FindFlag} (backward : flag.isBackward = true) (reads_on : flag ≠ .prefixLast)
    (want : Record → Prop) :
    ScanExact s want (fun a b => TupleLt rank active.key.parts b a) (reverseScan T s metas keyRead active flag comp) ↔
      (∀ row ∈ s.rows.entries, ReachedBack T residue s metas active flag comp row ↔ want row.2) ∧
      ∀ a ∈ s.rows.entries, ∀ b ∈ s.rows.entries, ReachedBack T residue s metas active flag comp a →
        ReachedBack T residue s metas active flag comp b → active.image residue a < active.image residue b →
        ¬ TupleLt rank active.key.parts b.2 a.2 := by
  have scanned : (reverseScan T s metas keyRead active flag comp).1.map Prod.fst =
      (reachedDown T residue s metas active flag comp).map Prod.fst ∧
      ((reverseScan T s metas keyRead active flag comp).2 = some .endOfFile ∨
        (reverseScan T s metas keyRead active flag comp).2 = some .keyNotFound) := by
    cases active with
    | primary key =>
      obtain ⟨rows, code⟩ := reverseScan_primary residue key backward reads_on
      exact ⟨congrArg _ rows, code⟩
    | secondary i ix => exact reverseScan_secondary mirrored of_table backward
  have upwards : (reverseScan T s metas keyRead active flag comp).1.reverse.map Prod.fst = ((inKeyOrder s active).filter
      (decide <| ReachedBack T residue s metas active flag comp ·)).map Prod.fst := by
    rw [map_reverse, scanned.1, reachedDown, map_reverse, reverse_reverse]
  rw [scanExact_reverse]
  exact scanExact_selected mirrored of_table upwards scanned.2

theorem lastRow_unique {a b : Row} (mem_a : a ∈ s.rows.entries) (mem_b : b ∈ s.rows.entries)
    (last_a : LastRow T residue s metas active comp a) (last_b : LastRow T residue s metas active comp b) : a = b := by
  have head_a := (reachedDown_head mirrored of_table).mpr ⟨mem_a, last_a.1⟩
  have head_b := (reachedDown_head mirrored of_table).mpr ⟨mem_b, last_b.1⟩
  rw [head_a] at head_b
  exact Option.some.inj head_b

theorem readLast_exact_iff : LastExact rank s active n search (readLast T s metas keyRead active comp) ↔
      (∀ row ∈ s.rows.entries, LastRow T residue s metas active comp row → LastOfGroup rank s active n search row.2) ∧
      ((∀ row ∈ s.rows.entries, ¬ LastRow T residue s metas active comp row) →
        ∀ row ∈ s.rows.entries, ¬ TupleEq rank (searchParts active n) row.2 search) := by
  rcases readLast_answer keyRead mirrored of_table with
    ⟨row, mem, last, shown, answer⟩ | ⟨none_last, code, answer, ends⟩
  · rw [answer]
    constructor
    · rintro ⟨record, has, owed⟩
      refine ⟨fun other here other_last => ?_, fun none_last => absurd last (none_last row mem)⟩
      rw [lastRow_unique mirrored of_table here mem other_last last, ← has.unique mem]
      exact owed
    · intro agree
      exact ⟨row.2, mem, agree.1 row mem last⟩
  · rw [answer]
    constructor
    · intro exact_error
      exact ⟨fun row mem last => absurd last (none_last row mem), fun _ => exact_error.2⟩
    · intro agree
      exact ⟨ends, agree.2 none_last⟩

end

end

/-- A backward scan is right exactly when the padded key bytes bound and order the rows as the
values do; for `HA_READ_PREFIX_LAST` the last one matters. -/
theorem backward_range_iff (T : Schema) (residue : Nat → Bytes → Residue) (s : Table) (metas : SortedMap Bytes Bytes)
    (keyRead : Bytes → Option Record) (active : ActiveIndex) (n : Nat) (search : Record) (held : Residue)
    (flag : FindFlag) (mirrored : Mirrored T residue s) (of_table : active.Of T) (backward : flag.isBackward = true) :
    (flag ≠ .prefixLast →
      ScanExact s (WantedBack rank flag (searchParts active n) search) (fun a b => TupleLt rank active.key.parts b a)
        (reverseScan T s metas keyRead active flag (keyCopyToComparable held active n search))) ∧
    (flag = .prefixLast → LastExact rank s active n search
        (readLast T s metas keyRead active (keyCopyToComparable held active n search))) ↔
    (flag ≠ .prefixLast → (∀ row ∈ s.rows.entries,
        ReachedBack T residue s metas active flag (keyCopyToComparable held active n search) row ↔
          WantedBack rank flag (searchParts active n) search row.2) ∧
      ∀ a ∈ s.rows.entries, ∀ b ∈ s.rows.entries,
        ReachedBack T residue s metas active flag (keyCopyToComparable held active n search) a →
        ReachedBack T residue s metas active flag (keyCopyToComparable held active n search) b →
        active.image residue a < active.image residue b → ¬ TupleLt rank active.key.parts b.2 a.2) ∧
    (flag = .prefixLast →
      (∀ row ∈ s.rows.entries, LastRow T residue s metas active (keyCopyToComparable held active n search) row →
        LastOfGroup rank s active n search row.2) ∧
      ((∀ row ∈ s.rows.entries, ¬ LastRow T residue s metas active (keyCopyToComparable held active n search) row) →
        ∀ row ∈ s.rows.entries, ¬ TupleEq rank (searchParts active n) row.2 search)) := by
  refine and_congr (imp_congr_right fun reads_on => ?_) (imp_congr_right fun _ => ?_)
  · exact reverseScan_exact_iff rank mirrored of_table backward reads_on _
  · exact readLast_exact_iff rank mirrored of_table

theorem tuple_trichotomy (parts : List KeyPart) (a b : Record) :
    TupleLt rank parts a b ∨ TupleEq rank parts a b ∨ TupleLt rank parts b a := by
  by_cases less : TupleLt rank parts a b
  · exact .inl less
  · by_cases same : TupleEq rank parts a b
    · exact .inr (.inl same)
    · exact .inr (.inr ((tupleLt_iff parts b a).mpr ⟨less, same⟩))

variable {rank} {values : Nat → Set Bytes} {T : Schema} {residue : Nat → Bytes → Residue} {s : Table}
  {active : ActiveIndex}

variable {n : Nat} {search : Record} {row : Row}

theorem above_upper (mirrored : Mirrored T residue s) (of_table : active.Of T) (held : Residue)
    (embeds : ∀ kp ∈ active.key.parts, kp.Embeds rank values) (holds_search : Holds values (searchParts active n) search)
    (mem : row ∈ s.rows.entries) (holds_row : Holds values active.key.parts row.2)
    (behind : TupleLt rank (searchParts active n) search row.2) (pad : Bytes) :
    keyCopyToComparable held active n search ++ pad < active.image residue row := by
  have leading : ∀ kp ∈ searchParts active n, kp ∈ active.key.parts := fun kp member => mem_of_mem_take member
  obtain ⟨r, image⟩ := image_eq mirrored of_table mem
  rw [image, makeComparableKey_take r active.key.parts (max 1 n), append_assoc, keyCopyToComparable]
  refine (Base.append_lt_append (by simp [searchParts])).mpr (.inl ?_)
  exact (makeComparableKey_lt_iff (fun kp member => embeds kp (leading kp member)) holds_search
    (fun kp member => holds_row kp (leading kp member)) held r).mpr behind

theorem group_under_upper (mirrored : Mirrored T residue s) {key : Key} (of_table : (ActiveIndex.primary key).Of T)
    {comp : Bytes} (mem : row ∈ s.rows.entries) (starts : comp <+: row.1) :
    (ActiveIndex.primary key).image residue row ≤ upperKey T (.primary key) comp := by
  obtain ⟨built, eq⟩ := (mirrored.keyed row.1 row.2 mem).user key of_table
  have width : row.1.length = comparableKeyLength key.parts := by rw [← eq, makeComparableKey_length]
  refine Base.prefix_le_padded starts ?_
  change row.1.length ≤ comp.length + (comparableKeyLength key.parts - comp.length)
  omega

section
variable (mirrored : Mirrored T residue s) (of_table : active.Of T) (held : Residue)
  (embeds : ∀ kp ∈ active.key.parts, kp.Embeds rank values)
  (holds_search : Holds values (searchParts active n) search) (mem : row ∈ s.rows.entries)
  (holds_row : Holds values active.key.parts row.2) (flag : FindFlag)
include mirrored of_table embeds holds_search mem holds_row

theorem within_of_lt (less : TupleLt rank (searchParts active n) row.2 search) :
    Within T residue active flag (keyCopyToComparable held active n search) row := by
  have low := (reached_iff mirrored of_table held embeds holds_search mem holds_row).1
  have under : active.image residue row < keyCopyToComparable held active n search :=
    not_le.mp fun reached => low.mp reached less
  refine ⟨(under.trans_le (Base.prefix_le (prefix_append _ _))).le, fun _ => ?_⟩
  cases active with
  | primary key => exact fun _ => ne_of_lt under
  | secondary i ix => trivial

theorem within_wanted_iff : (Within T residue active flag (keyCopyToComparable held active n search) row ↔
      WantedBack rank flag (searchParts active n) search row.2) ↔
    (TupleEq rank (searchParts active n) row.2 search →
      (Within T residue active flag (keyCopyToComparable held active n search) row ↔ flag ≠ .beforeKey)) := by
  unfold WantedBack
  rcases tuple_trichotomy rank (searchParts active n) row.2 search with less | same | behind
  · have within := within_of_lt mirrored of_table held embeds holds_search mem holds_row flag less
    have apart := mt tupleEq_not_lt (not_not.mpr less)
    simp [within, less, apart, ((tupleLt_iff _ _ _).mp less).1]
  · have not_less := tupleEq_not_lt same
    have not_behind : ¬ TupleLt rank (searchParts active n) search row.2 := fun behind => ((tupleLt_iff _ _ _).mp behind).2 same
    simp [same, not_less, not_behind]
  · have outside : ¬ Within T residue active flag (keyCopyToComparable held active n search) row :=
      fun within => not_le.mpr (above_upper mirrored of_table held embeds holds_search mem holds_row behind _) within.1
    obtain ⟨not_less, apart⟩ := (tupleLt_iff _ _ _).mp behind
    simp [outside, behind, not_less, apart]

end

/-- A backward scan is right unless it strays into the first row or the bound does not separate the
rows of the search key. -/
theorem embedded_backward_iff (mirrored : Mirrored T residue s) (of_table : active.Of T)
    (held : Residue) (metas : SortedMap Bytes Bytes) (embeds : ∀ kp ∈ active.key.parts, kp.Embeds rank values)
    (holds_search : Holds values (searchParts active n) search)
    (holds_rows : ∀ row ∈ s.rows.entries, Holds values active.key.parts row.2) (flag : FindFlag) :
    (∀ row ∈ s.rows.entries, ReachedBack T residue s metas active flag (keyCopyToComparable held active n search) row ↔
      WantedBack rank flag (searchParts active n) search row.2) ↔
    (∀ row ∈ s.rows.entries, ¬ StrayFirst T residue s metas active flag (keyCopyToComparable held active n search) row) ∧
    ∀ row ∈ s.rows.entries, TupleEq rank (searchParts active n) row.2 search →
      (Within T residue active flag (keyCopyToComparable held active n search) row ↔ flag ≠ .beforeKey) := by
  have row_iff := fun (row : Row) mem =>
    within_wanted_iff mirrored of_table held embeds holds_search mem (holds_rows row mem) flag
  constructor
  · intro agree
    have no_stray : ∀ row ∈ s.rows.entries,
        ¬ StrayFirst T residue s metas active flag (keyCopyToComparable held active n search) row := by
      intro row mem stray
      have wanted := (agree row mem).mp (.inr stray)
      cases active with
      | secondary i ix => exact stray
      | primary key =>
        have outside := stray.2.1 row mem
        unfold WantedBack at wanted
        rcases tuple_trichotomy rank (searchParts (.primary key) n) row.2 search with less | same | behind
        · exact outside (within_of_lt mirrored of_table held embeds holds_search mem (holds_rows row mem) flag less)
        · by_cases before : flag = .beforeKey
          · rw [if_pos before] at wanted
            exact tupleEq_not_lt same wanted
          · have starts := (reached_iff mirrored of_table held embeds holds_search mem (holds_rows row mem)).2.mpr same
            exact outside ⟨group_under_upper mirrored of_table mem starts, fun bad => absurd bad before⟩
        · by_cases before : flag = .beforeKey
          · rw [if_pos before] at wanted
            exact ((tupleLt_iff _ _ _).mp behind).1 wanted
          · rw [if_neg before] at wanted
            exact wanted behind
    refine ⟨no_stray, fun row mem => (row_iff row mem).mp ?_⟩
    rw [← agree row mem, ReachedBack, or_iff_left (no_stray row mem)]
  · rintro ⟨no_stray, separated⟩ row mem
    rw [ReachedBack, or_iff_left (no_stray row mem)]
    exact (row_iff row mem).mpr (separated row mem)

end BackwardReference

theorem onePair_within : ∀ row ∈ onePair.rows.entries, Within pairs (fun _ _ _ => 0) (.primary pairKey) .keyOrPrev
    (keyCopyToComparable (fun _ => 0) (.primary pairKey) 1 [some [2]]) row := by decide

theorem backward_range_to : (FindFlag.keyOrPrev ≠ .prefixLast → ScanExact onePair
        (WantedBack (A := fun _ => Bytes) (fun _ v => v) .keyOrPrev (searchParts (.primary pairKey) 1) [some [2]])
        (fun a b => TupleLt (fun _ v => v) pairKey.parts b a)
        (reverseScan pairs onePair empty (fun _ => none) (.primary pairKey) .keyOrPrev
          (keyCopyToComparable (fun _ => 0) (.primary pairKey) 1 [some [2]]))) ∧
    (FindFlag.keyOrPrev = .prefixLast →
      LastExact (A := fun _ => Bytes) (fun _ v => v) onePair (.primary pairKey) 1 [some [2]]
        (readLast pairs onePair empty (fun _ => none) (.primary pairKey)
          (keyCopyToComparable (fun _ => 0) (.primary pairKey) 1 [some [2]]))) :=
  (backward_range_iff (fun _ v => v) pairs (fun _ _ _ => 0) onePair empty
    (fun _ => none) (.primary pairKey) 1 [some [2]] (fun _ => 0) .keyOrPrev (onePair_mirrored _) rfl rfl).mpr
    ⟨fun _ => ⟨(embedded_backward_iff (onePair_mirrored _) pairKey_of _ _ pairKey_embeds (search_holds 2) onePair_holds
        _).mpr ⟨by decide, fun row mem _ => iff_of_true (onePair_within row mem) nofun⟩,
      image_ordered (onePair_mirrored _) pairKey_of pairKey_embeds onePair_holds _⟩, nofun⟩

/-- `WHERE a < 2` on the primary key (a, b), read backwards, returns the row (2, 1). -/
theorem before_key_returns_group :
    ¬ ∀ (values : Nat → Set Bytes) (T : Schema) (residue : Nat → Bytes → Residue) (s : Table)
      (metas : SortedMap Bytes Bytes) (keyRead : Bytes → Option Record) (active : ActiveIndex) (n : Nat)
      (search : Record) (held : Residue) (flag : FindFlag), Mirrored T residue s → active.Of T →
      (∀ kp ∈ active.key.parts, kp.Embeds (A := fun _ => Bytes) (fun _ v => v) values) →
      Holds values (searchParts active n) search → (∀ row ∈ s.rows.entries, Holds values active.key.parts row.2) →
      1 ≤ n → n ≤ active.key.parts.length → flag.isBackward = true →
      (flag ≠ .prefixLast →
        ScanExact s (WantedBack (A := fun _ => Bytes) (fun _ v => v) flag (searchParts active n) search)
          (fun a b => TupleLt (fun _ v => v) active.key.parts b a)
          (reverseScan T s metas keyRead active flag (keyCopyToComparable held active n search))) ∧
      (flag = .prefixLast → LastExact (A := fun _ => Bytes) (fun _ v => v) s active n search
          (readLast T s metas keyRead active (keyCopyToComparable held active n search))) := by
  intro claim
  have holds := (claim byteValues pairs (fun _ _ _ => 0) onePair empty (fun _ => none) (.primary pairKey) 1
    [some [2]] (fun _ => 0) .beforeKey (onePair_mirrored _) rfl pairKey_embeds (search_holds 2) onePair_holds
    (by decide) (by decide) rfl).1 nofun
  obtain ⟨record, has, wanted⟩ := (holds.rows [2, 1]).mp (by decide)
  obtain rfl : record = [some [2], some [1]] := has.unique (by decide)
  have under := (tupleLt_iff _ _ _).mp wanted
  exact under.2 (by simp [TupleEq, searchParts, key, pairKey, bytePart, sqlValue, column])

end TidesdbMysql
