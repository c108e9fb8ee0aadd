import TidesdbMysql.Base.Iterator
import TidesdbMysql.Table.Scan

/-! Moving along an index: `index_read_map` with every flag, then `index_next`, `index_prev` and the
others. There is no pushed condition, the statement is not killed, and the engine answers every read. -/
namespace TidesdbMysql

open Base (Bytes SortedMap Starts Iter Spot collect collectFrom readAll Reads Opens)
open Base.Iter
open List Function Option Base.SortedMap

variable {flag : FindFlag} {code : HaCode} {T : Schema}

/-- `ha_rkey_function`; the flags that are not listed are handled alike. -/
inductive FindFlag where
  | keyExact | keyOrNext | afterKey | keyOrPrev | beforeKey | prefixLast | prefixLastOrPrev | other
  deriving DecidableEq

def FindFlag.isBackward : FindFlag → Bool
  | .keyOrPrev | .beforeKey | .prefixLast | .prefixLastOrPrev => true
  | _ => false

inductive ScanDir where
  | none | forward | backward
  deriving DecidableEq

def keyNsMeta : UInt8 := 0
def keyNsData : UInt8 := 1
def keyInfHiByte : UInt8 := 255

def buildDataKey (pk : Bytes) : Bytes := keyNsData :: pk

def isDataKey : Bytes → Bool
  | [] => false
  | b :: _ => b == keyNsData

def Schema.pkKeyLen (T : Schema) : Nat :=
  match T.pk with
  | some key => comparableKeyLength key.parts
  | none => hiddenPkSize

/-- The data column family: the rows, and before them the metadata the full-text keys keep there. -/
def dataFamily (metas : SortedMap Bytes Bytes) (rows : SortedMap Bytes Record) : SortedMap Bytes Record where
  entries := metas.entries.map (fun e => (keyNsMeta :: e.1, [])) ++ rows.entries.map fun e => (buildDataKey e.1, e.2)
  sorted := by
    refine List.pairwise_append.mpr ⟨?_, ?_, ?_⟩
    · exact List.pairwise_map.mpr (metas.sorted.imp fun before => List.cons_lt_cons_iff.mpr (.inr ⟨rfl, before⟩))
    · exact List.pairwise_map.mpr (rows.sorted.imp fun before => List.cons_lt_cons_iff.mpr (.inr ⟨rfl, before⟩))
    · intro a in_metas b in_rows
      obtain ⟨m, -, rfl⟩ := List.mem_map.mp in_metas
      obtain ⟨r, -, rfl⟩ := List.mem_map.mp in_rows
      exact List.cons_lt_cons_iff.mpr (.inl (by decide))

structure PkScan where
  searchComp : Bytes
  exactDone : Bool
  currentPk : Bytes
  dir : ScanDir
  iter : Iter (Bytes × Record)

namespace PkScan

/- After `index_init`. -/
def init : PkScan := ⟨[], false, [], .none, none⟩

/-- `iter_read_current`: keys that are not data keys are passed forwards, whatever the direction. -/
def iterReadCurrent (scan : PkScan) : Except HaCode Row × PkScan :=
  let iter := scan.iter.nextWhile fun e => !isDataKey e.1
  match iter.item with
  | none => (.error .endOfFile, { scan with iter := iter })
  | some e => (.ok (e.1.drop 1, e.2), { scan with iter := iter, currentPk := e.1.drop 1 })

def readTo (dir : ScanDir) (scan : PkScan) : Except HaCode Row × PkScan :=
  match scan.iterReadCurrent with
  | (.error code, scan) => (.error code, scan)
  | (.ok row, scan) => (.ok row, { scan with dir := dir })

variable (family : SortedMap Bytes Record) (s : Table) (key : Key)

/- The two ways to look for the last key up to the search key. -/

section
variable (flag : FindFlag) (comp : Bytes) (scan : PkScan)

def seekUpper : Except HaCode Row × PkScan :=
  let pad := comparableKeyLength key.parts - comp.length
  let iter := family.iterSeekForPrev (buildDataKey comp ++ List.replicate pad keyInfHiByte)
  let scan := { scan with iter := iter }
  if flag = .prefixLast ∧ iter.item.any (fun e => !Starts (buildDataKey comp) e) = true then (.error .keyNotFound, scan)
  else scan.readTo .backward

def seekExact : Except HaCode Row × PkScan :=
  let iter := family.iterSeekForPrev (buildDataKey comp)
  let iter := if flag = .beforeKey ∧ iter.item.map Prod.fst = some (buildDataKey comp) then iter.prev else iter
  { scan with iter := iter }.readTo .backward

def indexReadMap : Except HaCode Row × PkScan :=
  let scan := { scan with searchComp := comp }
  let iter := family.iterSeek (buildDataKey comp)
  match flag with
  | .keyExact =>
    if comparableKeyLength key.parts ≤ comp.length then
      match fetchRowByPk s comp with
      | .error code => (.error code, scan)
      | .ok row => (.ok row, { scan with exactDone := true, currentPk := comp })
    else { scan with iter := iter }.readTo .forward
  | .keyOrNext => { scan with iter := iter }.readTo .forward
  | .afterKey =>
    -- only an entry that is the search key is passed
    let iter := if iter.item.map Prod.fst = some (buildDataKey comp) then iter.next else iter
    { scan with iter := iter }.readTo .forward
  | .keyOrPrev | .beforeKey | .prefixLast | .prefixLastOrPrev =>
    if comp.length < comparableKeyLength key.parts then scan.seekUpper family key flag comp
    else scan.seekExact family flag comp
  | .other => { scan with iter := iter }.readTo .forward

def indexNext : Except HaCode Row × PkScan :=
  let iter :=
    if scan.exactDone then (family.iterSeek (buildDataKey scan.currentPk)).next
    else if scan.dir = .none then scan.iter
    else scan.iter.next
  match { scan with exactDone := false, iter := iter }.iterReadCurrent with
  | (r, scan) => (r, { scan with dir := .forward })

def indexPrev : Except HaCode Row × PkScan :=
  let iter := if scan.exactDone then family.iterSeek (buildDataKey scan.currentPk) else scan.iter
  let iter := iter.prev.prevWhile fun e => !isDataKey e.1
  { scan with exactDone := false, dir := .backward, iter := iter }.iterReadCurrent

end

end PkScan

structure SecScan where
  searchComp : Bytes
  dir : ScanDir
  iter : Iter (Bytes × Bytes)

namespace SecScan

def init : SecScan := ⟨[], .none, none⟩

variable (m : SortedMap Bytes Bytes) (s : Table) (key : Key) (keyRead : Bytes → Option Record)

/- `keyRead` is what `try_keyread_from_index` decodes of the entry, `none` where it fails or is
off. -/
def readEntry (e : Bytes × Bytes) : Except HaCode Row :=
  match keyRead e.1 with
  | some record => .ok (e.1.drop (comparableKeyLength key.parts), record)
  | none => fetchRowByPk s (e.1.drop (comparableKeyLength key.parts))

/- The entry under the iterator, if it has the prefix that is asked for and more than the key columns. -/
def entry (comp : Option Bytes) (iter : Iter (Bytes × Bytes)) : Option (Bytes × Bytes) :=
  iter.item.filter fun e => comp.all (Starts · e) && decide (comparableKeyLength key.parts < e.1.length)

section
variable (T : Schema) (flag : FindFlag) (comp : Bytes) (scan : SecScan)

def startIter : Iter (Bytes × Bytes) :=
  match flag with
  | .keyExact | .keyOrNext | .other => m.iterSeek comp
  | .afterKey => (m.iterSeek comp).nextWhile (Starts comp)
  | .keyOrPrev | .beforeKey | .prefixLast | .prefixLastOrPrev =>
    m.iterSeekForPrev (comp ++ List.replicate T.pkKeyLen keyInfHiByte)

def indexReadMap : Except HaCode Row × SecScan :=
  let scan := { scan with searchComp := comp, iter := startIter m T flag comp }
  match entry key (if flag = .keyExact then some comp else none) scan.iter with
  | none => (.error .keyNotFound, scan)
  | some e =>
    match readEntry s key keyRead e with
    | .error code => (.error code, scan)
    | .ok row => (.ok row, { scan with dir := if flag.isBackward then .backward else .forward })

def indexNext : Except HaCode Row × SecScan :=
  let scan := { scan with iter := if scan.dir = .none then scan.iter else scan.iter.next }
  match entry key none scan.iter with
  | none => (.error .endOfFile, scan)
  | some e => (readEntry s key keyRead e, { scan with dir := .forward })

def indexPrev : Except HaCode Row × SecScan :=
  let scan := { scan with iter := scan.iter.prev }
  match entry key none scan.iter with
  | none => (.error .endOfFile, scan)
  | some e => (readEntry s key keyRead e, { scan with dir := .backward })

def indexFirst : Except HaCode Row × SecScan :=
  { scan with dir := .none, iter := m.iterSeekToFirst }.indexNext s key keyRead

def indexLast : Except HaCode Row × SecScan :=
  let scan := { scan with iter := m.iterSeekToLast }
  match entry key none scan.iter with
  | none => (.error .endOfFile, scan)
  | some e => (fetchRowByPk s (e.1.drop (comparableKeyLength key.parts)), { scan with dir := .backward })

def indexNextSame : Except HaCode Row × SecScan :=
  let scan := { scan with iter := scan.iter.next }
  match entry key (some scan.searchComp) scan.iter with
  | none => (.error .endOfFile, scan)
  | some e => (readEntry s key keyRead e, scan)

end

end SecScan

/- The entries of the data family. -/

def metaEntry (e : Bytes × Bytes) : Bytes × Record := (keyNsMeta :: e.1, [])

def dataEntry (row : Row) : Bytes × Record := (buildDataKey row.1, row.2)

def rowOf (e : Bytes × Record) : Row := (e.1.drop 1, e.2)

@[simp] theorem rowOf_dataEntry (row : Row) : rowOf (dataEntry row) = row := rfl

@[simp] theorem isDataKey_dataEntry (row : Row) : isDataKey (dataEntry row).1 = true := rfl

@[simp] theorem isDataKey_metaEntry (e : Bytes × Bytes) : isDataKey (metaEntry e).1 = false := rfl

section Family
variable {metas : SortedMap Bytes Bytes} {rows : SortedMap Bytes Record}

theorem dataFamily_entries :
    (dataFamily metas rows).entries = metas.entries.map metaEntry ++ rows.entries.map dataEntry := rfl

theorem dataKey_lt {a b : Bytes} : buildDataKey a < buildDataKey b ↔ a < b := by
  simp [buildDataKey]

theorem dataKey_le {a b : Bytes} : buildDataKey a ≤ buildDataKey b ↔ a ≤ b := by
  rw [← not_lt, ← not_lt, dataKey_lt]

theorem meta_lt_data (e : Bytes × Bytes) (pk : Bytes) : (metaEntry e).1 < buildDataKey pk :=
  cons_lt_cons_iff.mpr (.inl (by decide))

theorem seek_dataFamily (comp : Bytes) :
    (dataFamily metas rows).seek (buildDataKey comp) = (rows.seek comp).map dataEntry := by
  rw [SortedMap.seek_eq_filter, SortedMap.seek_eq_filter, dataFamily_entries, List.filter_append, List.filter_map,
    List.filter_map, List.filter_eq_nil_iff.mpr, List.map_nil, List.nil_append]
  · congr 1
    refine List.filter_congr fun e _ => ?_
    exact decide_eq_decide.mpr dataKey_le
  · intro m _
    simp [meta_lt_data m comp]

theorem upTo_dataFamily (upper : Bytes) : (dataFamily metas rows).upTo (buildDataKey upper) =
      metas.entries.map metaEntry ++ (rows.upTo upper).map dataEntry := by
  rw [SortedMap.upTo, SortedMap.upTo, dataFamily_entries, List.filter_append, List.filter_map, List.filter_map,
    List.filter_eq_self.mpr]
  · congr 2
    refine List.filter_congr fun e _ => ?_
    exact decide_eq_decide.mpr dataKey_le
  · intro m _
    exact decide_eq_true (meta_lt_data m upper).le

end Family

namespace PkScan

variable {scan : PkScan}

theorem iterReadCurrent_nil (finished : scan.iter.forward = []) : scan.iterReadCurrent.1 = .error .endOfFile := by
  have none_left : (scan.iter.nextWhile fun e => !isDataKey e.1).item = none := by
    rw [item_eq_head, forward_nextWhile, finished]
    rfl
  simp [iterReadCurrent, none_left]

theorem iterReadCurrent_row {row : Row} (here : scan.iter.item = some (dataEntry row)) :
    scan.iterReadCurrent = (.ok row, { scan with currentPk := row.1 }) := by
  have stays : scan.iter.nextWhile (fun e => !isDataKey e.1) = scan.iter := by
    refine nextWhile_of_item fun e mem => ?_
    rw [here] at mem
    cases mem
    rfl
  simp [iterReadCurrent, stays, here, dataEntry, buildDataKey]

theorem iterReadCurrent_error (failed : scan.iterReadCurrent.1 = .error code) : code = .endOfFile := by
  unfold iterReadCurrent at failed
  cases item : (scan.iter.nextWhile fun e => !isDataKey e.1).item with
  | none =>
    simp only [item] at failed
    cases failed
    rfl
  | some e =>
    simp only [item] at failed
    cases failed

structure Forward (scan : PkScan) : Prop where
  noExact : scan.exactDone = false
  moving : scan.dir ≠ .none
  rows : ∃ rows : List Row, scan.iter.forward = rows.map dataEntry

def ahead (scan : PkScan) : List Row := scan.iter.forward.tail.map rowOf

theorem indexNext_reads (family : SortedMap Bytes Record) :
    Reads (indexNext family) Forward ahead (Except.ok (ε := HaCode)) .endOfFile := by
  have moved : ∀ scan : PkScan, Forward scan →
      indexNext family scan = ({ scan with iter := scan.iter.next }.iterReadCurrent.1,
        { { scan with iter := scan.iter.next }.iterReadCurrent.2 with dir := .forward }) := by
    intro scan forward
    simp [indexNext, forward.noExact, forward.moving]
  refine ⟨fun scan forward finished => ?_, fun scan row rest forward items => ?_⟩
  · rw [moved scan forward]
    refine iterReadCurrent_nil ?_
    rw [forward_next]
    exact map_eq_nil_iff.mp finished
  · obtain ⟨rows, at_rows⟩ := forward.rows
    have later : scan.iter.next.forward = (row :: rest).map dataEntry := by
      cases rows with
      | nil => simp [ahead, at_rows] at items
      | cons first more =>
        have same : more = row :: rest := by simpa [ahead, at_rows, comp_def] using items
        simp [at_rows, same]
    have here : scan.iter.next.item = some (dataEntry row) := by
      rw [item_eq_head, later]
      rfl
    rw [moved scan forward, iterReadCurrent_row here]
    refine ⟨rfl, fun _ _ => ⟨⟨forward.noExact, by simp, row :: rest, later⟩, ?_⟩⟩
    simp [ahead, later, comp_def]

theorem readTo_answer (dir : ScanDir) (scan : PkScan) : (scan.readTo dir).1 = scan.iterReadCurrent.1 := by
  unfold readTo
  rcases scan.iterReadCurrent with ⟨_ | row, after⟩ <;> rfl

theorem readTo_after {dir : ScanDir} {row : Row} (found : (scan.readTo dir).1 = .ok row) :
    (scan.readTo dir).2 = { scan.iterReadCurrent.2 with dir := dir } := by
  revert found
  unfold readTo
  rcases scan.iterReadCurrent with ⟨_ | row, after⟩
  · intro found
    cases found
  · intro _
    rfl

theorem forward_opens (noExact : scan.exactDone = false) {rows : List Row}
    (here : scan.iter.forward = rows.map dataEntry) {start : Except HaCode Row × PkScan}
    (answer : start.1 = scan.iterReadCurrent.1)
    (after : ∀ row, start.1 = .ok row → start.2 = { scan.iterReadCurrent.2 with dir := .forward }) :
    Opens start Forward ahead (Except.ok (ε := HaCode)) rows := by
  cases rows with
  | nil =>
    rw [iterReadCurrent_nil here] at answer
    exact ⟨fun row found => by simp [answer] at found, fun _ _ x rest items => nomatch items⟩
  | cons row rest =>
    have item : scan.iter.item = some (dataEntry row) := by
      rw [item_eq_head, here]
      rfl
    rw [iterReadCurrent_row item] at answer after
    refine ⟨fun a found => ?_, fun _ failed => by simp [answer] at failed⟩
    rw [after a found]
    rw [answer] at found
    cases found
    refine ⟨row, rest, rfl, rfl, ⟨noExact, by simp, row :: rest, here⟩, ?_⟩
    simp [ahead, here, comp_def]

section
variable (metas : SortedMap Bytes Bytes) (s : Table) (key : Key) (comp : Bytes)

def forwardRows (s : Table) (flag : FindFlag) (comp : Bytes) : List Row :=
  if flag = .afterKey then s.rows.after comp else s.rows.seek comp

theorem indexReadMap_forward_error (forward : flag = .keyOrNext ∨ flag = .afterKey)
    (failed : (init.indexReadMap (dataFamily metas s.rows) s key flag comp).1 = .error code) : code = .endOfFile := by
  rcases forward with rfl | rfl <;> exact iterReadCurrent_error ((readTo_answer _ _).symm.trans failed)

theorem indexReadMap_forward_opens (forward : flag = .keyOrNext ∨ flag = .afterKey) :
    Opens (init.indexReadMap (dataFamily metas s.rows) s key flag comp) Forward ahead (Except.ok (ε := HaCode))
      (forwardRows s flag comp) := by
  have found : ((dataFamily metas s.rows).iterSeek (buildDataKey comp)).forward = (s.rows.seek comp).map dataEntry := by
    rw [forward_iterSeek, seek_dataFamily]
  rcases forward with rfl | rfl
  · exact forward_opens rfl found (readTo_answer _ _) fun _ => readTo_after
  · refine forward_opens rfl ?_ (readTo_answer _ _) fun _ => readTo_after
    have here : ((dataFamily metas s.rows).iterSeek (buildDataKey comp)).item.map Prod.fst = some (buildDataKey comp) ↔
        (s.rows.seek comp).head?.map Prod.fst = some comp := by
      rw [item_eq_head, found]
      cases (s.rows.seek comp) <;> simp [dataEntry, buildDataKey]
    simp only [forwardRows, if_true, here, ← seek_passing]
    split
    · rw [forward_next, found, map_tail]
    · exact found

theorem indexNext_exact_opens (scan : PkScan) (exact_done : scan.exactDone = true) (current : scan.currentPk = comp) :
    Opens (scan.indexNext (dataFamily metas s.rows)) Forward ahead (Except.ok (ε := HaCode)) (s.rows.seek comp).tail := by
  have found : ((dataFamily metas s.rows).iterSeek (buildDataKey comp)).next.forward =
      (s.rows.seek comp).tail.map dataEntry := by
    rw [forward_next, forward_iterSeek, seek_dataFamily, map_tail]
  have moved : scan.indexNext (dataFamily metas s.rows) =
      ({ scan with exactDone := false, iter := ((dataFamily metas s.rows).iterSeek (buildDataKey comp)).next }.iterReadCurrent.1,
        { ({ scan with exactDone := false, iter := ((dataFamily metas s.rows).iterSeek (buildDataKey comp)).next } :
          PkScan).iterReadCurrent.2 with dir := .forward }) := by
    simp [indexNext, exact_done, current]
  rw [moved]
  exact forward_opens rfl found rfl fun _ _ => rfl

end

end PkScan

namespace SecScan

variable {s : Table} {key : Key} {keyRead : Bytes → Option Record}

/- Reading an entry on the way: one without a primary key behind its columns ends the scan. -/
def take (s : Table) (key : Key) (keyRead : Bytes → Option Record) (e : Bytes × Bytes) : Except HaCode Row :=
  if comparableKeyLength key.parts < e.1.length then readEntry s key keyRead e else .error .endOfFile

variable {items : List (Bytes × Bytes)} {inv : SecScan → Prop} {todo : SecScan → List (Bytes × Bytes)}

theorem entry_eq {comp : Option Bytes} {iter : Iter (Bytes × Bytes)}
    (head : items.head? = iter.item.filter fun e => comp.all (Starts · e)) :
    entry key comp iter = items.head?.filter fun e => decide (comparableKeyLength key.parts < e.1.length) := by
  rw [head, entry]
  cases iter.item with
  | none => rfl
  | some e => cases comp.all (Starts · e) <;> simp

theorem step_reads {next : SecScan → Except HaCode Row × SecScan} (dir : SecScan → ScanDir)
    (place : SecScan → Iter (Bytes × Bytes))
    (step : ∀ scan, inv scan → next scan = match (todo scan).head?.filter fun e => decide (comparableKeyLength key.parts < e.1.length) with | none => (.error .endOfFile, { scan with iter := place scan }) | some e => (readEntry s key keyRead e, { scan with dir := dir scan, iter := place scan }))
    (kept : ∀ scan, inv scan → todo scan ≠ [] → inv { scan with dir := dir scan, iter := place scan } ∧
      todo { scan with dir := dir scan, iter := place scan } = (todo scan).tail) :
    Reads next inv todo (take s key keyRead) .endOfFile := by
  refine ⟨fun scan holds finished => ?_, fun scan e rest holds items => ?_⟩
  · simp [step scan holds, finished]
  · have more := kept scan holds (by simp [items])
    rw [step scan holds, items, take]
    by_cases long : comparableKeyLength key.parts < e.1.length
    · rw [head?_cons, filter_some, if_pos (decide_eq_true long), if_pos long]
      refine ⟨rfl, fun row found => ⟨more.1, ?_⟩⟩
      rw [more.2, items]
      rfl
    · rw [head?_cons, filter_some, if_neg (mt of_decide_eq_true long), if_neg long]
      exact ⟨rfl, nofun⟩

theorem indexNext_reads :
    Reads (indexNext s key keyRead) (fun scan => scan.dir ≠ .none) (fun scan => scan.iter.forward.tail)
      (take s key keyRead) .endOfFile := by
  refine step_reads (fun _ => .forward) (fun scan => scan.iter.next) ?_ fun scan _ _ => ⟨nofun, ?_⟩
  · intro scan moving
    have head : scan.iter.forward.tail.head? = scan.iter.next.item.filter fun e => none.all (Starts · e) := by
      rw [← forward_next, ← item_eq_head]
      cases scan.iter.next.item <;> rfl
    simp only [indexNext, if_neg moving, entry_eq head]
  · exact congrArg tail (forward_next _)

theorem indexPrev_reads :
    Reads (indexPrev s key keyRead) (fun _ => True) (fun scan => scan.iter.backward.tail) (take s key keyRead)
      .endOfFile := by
  refine step_reads (fun _ => .backward) (fun scan => scan.iter.prev) ?_ fun scan _ _ => ⟨trivial, ?_⟩
  · intro scan _
    have head : scan.iter.backward.tail.head? = scan.iter.prev.item.filter fun e => none.all (Starts · e) := by
      rw [← backward_prev, ← item_eq_head_backward]
      cases scan.iter.prev.item <;> rfl
    simp only [indexPrev, entry_eq head]
  · exact congrArg tail (backward_prev _)

theorem indexNextSame_reads (comp : Bytes) : Reads (indexNextSame s key keyRead) (fun scan => scan.searchComp = comp)
      (fun scan => scan.iter.forward.tail.takeWhile (Starts comp)) (take s key keyRead) .endOfFile := by
  refine step_reads SecScan.dir (fun scan => scan.iter.next) ?_ fun scan same more => ⟨same, ?_⟩
  · intro scan same
    have head : (scan.iter.forward.tail.takeWhile (Starts comp)).head? =
        scan.iter.next.item.filter fun e => (some scan.searchComp).all (Starts · e) := by
      rw [← forward_next, item_eq_head, same]
      cases scan.iter.next.forward with
      | nil => rfl
      | cons e rest => cases here : Starts comp e <;> simp [Option.filter, here]
    simp only [indexNextSame, entry_eq head]
  · rw [forward_next]
    cases ahead : scan.iter.forward.tail with
    | nil => rfl
    | cons e rest =>
      cases here : Starts comp e with
      | false => simp [ahead, here] at more
      | true => simp [here]

theorem entry_opens (stop : HaCode) {first : Bytes × Bytes → Except HaCode Row} {start : Except HaCode Row × SecScan}
    (answer : start.1 = match items.head?.filter fun e => decide (comparableKeyLength key.parts < e.1.length) with
      | none => .error stop | some e => first e)
    (after : ∀ row, start.1 = .ok row → inv start.2 ∧ todo start.2 = items.tail) :
    Opens start inv todo (fun e => if comparableKeyLength key.parts < e.1.length then first e else .error .endOfFile)
      items := by
  cases items with
  | nil => exact ⟨fun row found => by simp [answer] at found, fun _ _ x rest none_there => nomatch none_there⟩
  | cons e rest =>
    by_cases long : comparableKeyLength key.parts < e.1.length
    · rw [head?_cons, filter_some, if_pos (decide_eq_true long)] at answer
      refine ⟨fun row found => ⟨e, rest, rfl, ?_, after row found⟩, fun code failed x more same => ?_⟩
      · exact (if_pos long).trans (answer.symm.trans found)
      · cases same
        exact ⟨code, (if_pos long).trans (answer.symm.trans failed)⟩
    · rw [head?_cons, filter_some, if_neg (mt of_decide_eq_true long)] at answer
      refine ⟨fun row found => by simp [answer] at found, fun code failed x more same => ?_⟩
      cases same
      exact ⟨.endOfFile, if_neg long⟩

theorem indexReadMap_opens {m : SortedMap Bytes Bytes} {comp : Bytes}
    (head : items.head? = (startIter m T flag comp).item.filter fun e => (if flag = .keyExact then some comp else none).all (Starts · e))
    (arrives : ∀ dir, dir ≠ .none → inv ⟨comp, dir, startIter m T flag comp⟩ ∧ todo ⟨comp, dir, startIter m T flag comp⟩ = items.tail) :
    Opens (init.indexReadMap m s key keyRead T flag comp) inv todo (take s key keyRead) items := by
  have moving : (if flag.isBackward then ScanDir.backward else ScanDir.forward) ≠ .none := by
    split <;> simp
  refine entry_opens .keyNotFound ?_ ?_
  · simp only [indexReadMap, entry_eq head]
    split
    · rfl
    · split <;> simp_all
  · intro row
    simp only [indexReadMap]
    split
    · intro found
      cases found
    · split
      · intro found
        cases found
      · intro _
        exact arrives _ moving

theorem fetchRowByPk_error {pk : Bytes} (failed : fetchRowByPk s pk = .error code) : code = .keyNotFound := by
  unfold fetchRowByPk at failed
  cases found : s.rows.lookup pk with
  | none =>
    rw [found] at failed
    cases failed
    rfl
  | some record =>
    rw [found] at failed
    cases failed

theorem indexReadMap_error {m : SortedMap Bytes Bytes} {comp : Bytes}
    (failed : (init.indexReadMap m s key keyRead T flag comp).1 = .error code) : code = .keyNotFound := by
  revert failed
  simp only [indexReadMap]
  split
  · intro failed
    cases failed
    rfl
  · next e _ =>
    unfold readEntry
    cases keyRead e.1 with
    | some record =>
      intro failed
      cases failed
    | none =>
      split
      · next stopped =>
        intro failed
        cases failed
        exact fetchRowByPk_error stopped
      · intro failed
        cases failed

/- The row of a live entry, with the columns `keyRead` has decoded where it is used. -/
def shown (s : Table) (key : Key) (keyRead : Bytes → Option Record) (e : Bytes × Bytes) : Row :=
  ((entryRow s key e).1, (keyRead e.1).getD (entryRow s key e).2)

theorem take_live {e : Bytes × Bytes} (live : LiveEntry s key e) : take s key keyRead e = .ok (shown s key keyRead e) := by
  obtain ⟨record, has⟩ := hasKey_iff.mp live.2
  have found := lookup_eq_some.mpr has
  rw [take, if_pos live.1, readEntry]
  cases decoded : keyRead e.1 with
  | some columns => simp [shown, entryRow, decoded]
  | none => simp [shown, entryRow, decoded, fetchRowByPk, found]

end SecScan

end TidesdbMysql
