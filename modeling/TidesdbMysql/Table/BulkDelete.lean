import TidesdbMysql.Table.Navigate
import TidesdbMysql.Txn.Session

/-! A `DELETE` of every row in bulk mode: one handler reads and deletes in turn, and its transaction is committed
whenever enough writes are buffered. No engine call fails. -/
namespace TidesdbMysql

open Base (Bytes SortedMap Iter beBytes beBytes_lt_iff)
open Base.SortedMap SecScan Base.Iter PkScan ActiveIndex

variable {residue : Nat → Bytes → Residue} {T : Schema} {ix : Index} {ops : Nat}

namespace PkScan

/- After `rnd_init`. -/
def rndInit (family : SortedMap Bytes Record) : PkScan := { init with iter := family.iterSeek [keyNsData] }

def rndNext (scan : PkScan) : Except HaCode Row × PkScan :=
  let iter := if scan.dir = .none then scan.iter else scan.iter.next
  { scan with iter := iter }.readTo .forward

def indexFirst (family : SortedMap Bytes Record) (scan : PkScan) : Except HaCode Row × PkScan :=
  { scan with exactDone := false, iter := family.iterSeek [keyNsData] }.readTo .forward

end PkScan

section Loop

structure DeleteScan (S : Type) where
  next : Table → S → Except HaCode Row × S
  freed : S → S

structure BulkDelete (S : Type) where
  table : Table
  scan : S
  bulkInsertOps : Nat

variable {S : Type} (T : Schema) (D : DeleteScan S) (scratch : Bytes → Scratch)

/- The tail of `delete_row`. What `maybe_bulk_commit` commits is what the transaction sees before and after. -/
def bulkDeleteTail (st : BulkDelete S) : BulkDelete S :=
  let ops := st.bulkInsertOps + 1 + T.indexes.length
  if ops ≥ tidesdbBulkInsertBatchOps then { st with scan := D.freed st.scan, bulkInsertOps := 0 }
  else { st with bulkInsertOps := ops }

def deleteNext (st : BulkDelete S) : Except HaCode Row × BulkDelete S :=
  match D.next st.table st.scan with
  | (.error code, scan) => (.error code, { st with scan := scan })
  | (.ok row, scan) =>
    match deleteRow T st.table ⟨row.1, row.2, scratch row.1⟩ with
    | (.ok, table) => (.ok row, bulkDeleteTail T D { st with table := table, scan := scan })
    | (code, table) => (.error code, { st with table := table, scan := scan })

def deleteLoop : Nat → BulkDelete S → (List Row × Option HaCode) × BulkDelete S
  | 0, st => (([], none), st)
  | calls + 1, st =>
    match deleteNext T D scratch st with
    | (.error code, after) => (([], some code), after)
    | (.ok row, after) =>
      ((row :: (deleteLoop calls after).1.1, (deleteLoop calls after).1.2), (deleteLoop calls after).2)

def deletesLeft (ops : Nat) : Nat := (tidesdbBulkInsertBatchOps - ops + T.indexes.length) / (1 + T.indexes.length)

def deletesPerBatch : Nat := deletesLeft T 0

/-- The scan reads these rows and then the end; without its iterator the end at once. -/
def Yields : S → List Row → Prop
  | scan, [] => ∀ s, (D.next s scan).1 = .error .endOfFile
  | scan, row :: rest => ∀ s, s.rows.Has row.1 row.2 → (D.next s scan).1 = .ok row ∧
      (∀ s', (D.next s' (D.freed (D.next s scan).2)).1 = .error .endOfFile) ∧ Yields (D.next s scan).2 rest

variable {T D scratch}

theorem deletesLeft_full (room : ops < tidesdbBulkInsertBatchOps)
    (full : ops + 1 + T.indexes.length ≥ tidesdbBulkInsertBatchOps) : deletesLeft T ops = 1 := by
  apply Nat.div_eq_of_lt_le
  all_goals omega

theorem deletesLeft_more (more : ¬ ops + 1 + T.indexes.length ≥ tidesdbBulkInsertBatchOps) :
    deletesLeft T ops = deletesLeft T (ops + 1 + T.indexes.length) + 1 := by
  unfold deletesLeft
  have split : tidesdbBulkInsertBatchOps - ops + T.indexes.length =
      tidesdbBulkInsertBatchOps - (ops + 1 + T.indexes.length) + T.indexes.length + (1 + T.indexes.length) := by
    omega
  rw [split, Nat.add_div_right _ (by omega)]

theorem deleteNext_row {st : BulkDelete S} {row : Row} (read : (D.next st.table st.scan).1 = .ok row) :
    ∃ table, table.rows = st.table.rows.erase row.1 ∧ deleteNext T D scratch st =
      (.ok row, bulkDeleteTail T D { st with table := table, scan := (D.next st.table st.scan).2 }) := by
  refine ⟨(deleteRow T st.table ⟨row.1, row.2, scratch row.1⟩).2, deleteRow_rows _, ?_⟩
  unfold deleteNext
  rcases answer : D.next st.table st.scan with ⟨r, scan⟩
  rw [answer] at read
  cases read
  rfl

theorem deleteNext_end {st : BulkDelete S} {code : HaCode} (ended : (D.next st.table st.scan).1 = .error code) :
    deleteNext T D scratch st = (.error code, { st with scan := (D.next st.table st.scan).2 }) := by
  unfold deleteNext
  rcases answer : D.next st.table st.scan with ⟨r, scan⟩
  rw [answer] at ended
  cases ended
  rfl

theorem deleteLoop_spec {rows : List Row} (st : BulkDelete S) (yields : Yields D st.scan rows)
    (there : ∀ row ∈ rows, st.table.rows.Has row.1 row.2) (distinct : (rows.map Prod.fst).Nodup)
    (room : st.bulkInsertOps < tidesdbBulkInsertBatchOps) {calls : Nat} (enough : rows.length < calls) :
    (deleteLoop T D scratch calls st).1 = (rows.take (deletesLeft T st.bulkInsertOps), some .endOfFile) ∧
      (deleteLoop T D scratch calls st).2.table.rows =
        st.table.rows.eraseAll ((rows.take (deletesLeft T st.bulkInsertOps)).map Prod.fst) := by
  induction rows generalizing st calls with
  | nil =>
    obtain ⟨calls, rfl⟩ := Nat.exists_eq_succ_of_ne_zero (Nat.ne_of_gt enough)
    rw [deleteLoop, deleteNext_end (yields st.table), List.take_nil]
    exact ⟨rfl, rfl⟩
  | cons row rest ih =>
    obtain ⟨calls, rfl⟩ := Nat.exists_eq_succ_of_ne_zero (Nat.ne_of_gt (Nat.zero_lt_of_lt enough))
    rw [List.forall_mem_cons] at there
    rw [List.map_cons, List.nodup_cons] at distinct
    obtain ⟨read, lost, yields⟩ := yields st.table there.1
    obtain ⟨table, erased, step⟩ := deleteNext_row read
    rw [deleteLoop, step]
    dsimp only
    unfold bulkDeleteTail
    by_cases full : st.bulkInsertOps + 1 + T.indexes.length ≥ tidesdbBulkInsertBatchOps
    · obtain ⟨calls, rfl⟩ := Nat.exists_eq_succ_of_ne_zero (Nat.ne_of_gt (Nat.zero_lt_of_lt (Nat.lt_of_succ_lt_succ enough)))
      rw [if_pos full, deletesLeft_full room full, List.take_succ_cons, List.take_zero, deleteLoop,
        deleteNext_end (lost _)]
      exact ⟨rfl, erased⟩
    · have still_there : ∀ other ∈ rest, table.rows.Has other.1 other.2 := by
        intro other mem
        rw [erased, has_erase]
        refine ⟨?_, there.2 other mem⟩
        intro same
        exact distinct.1 (same ▸ List.mem_map_of_mem mem)
      have later := ih ⟨table, (D.next st.table st.scan).2, st.bulkInsertOps + 1 + T.indexes.length⟩ yields
        still_there distinct.2 (Nat.lt_of_not_ge full) (Nat.lt_of_succ_lt_succ enough)
      rw [if_neg full, deletesLeft_more full, List.take_succ_cons, List.map_cons, later.1, later.2, erased]
      exact ⟨rfl, rfl⟩

end Loop

namespace PkScan

def stands (scan : PkScan) : Iter (Bytes × Record) := if scan.dir = .none then scan.iter else scan.iter.next

structure Steps (next : PkScan → Except HaCode Row × PkScan) : Prop where
  row : ∀ scan row rest, scan.exactDone = false → scan.stands.forward = (row :: rest).map dataEntry →
    next scan = (.ok row, { scan with currentPk := row.1, dir := .forward, iter := scan.stands })
  ended : ∀ scan, scan.exactDone = false → scan.stands.forward = [] → (next scan).1 = .error .endOfFile

theorem item_of_forward {it : Iter (Bytes × Record)} {row : Row} {rest : List Row}
    (ahead : it.forward = (row :: rest).map dataEntry) : it.item = some (dataEntry row) := by
  rw [item_eq_head, ahead]
  rfl

theorem rndNext_steps : Steps rndNext where
  row scan row rest _ ahead := by
    have read : { scan with iter := scan.stands }.iterReadCurrent = _ := iterReadCurrent_row (item_of_forward ahead)
    change { scan with iter := scan.stands }.readTo .forward = _
    rw [readTo, read]
  ended scan _ finished := by
    change ({ scan with iter := scan.stands }.readTo .forward).1 = _
    rw [readTo_answer]
    exact iterReadCurrent_nil finished

theorem indexNext_steps (family : SortedMap Bytes Record) : Steps (indexNext family) where
  row scan row rest noExact ahead := by
    have read : { scan with exactDone := false, iter := scan.stands }.iterReadCurrent = _ :=
      iterReadCurrent_row (item_of_forward ahead)
    have moved : indexNext family scan =
        ({ scan with exactDone := false, iter := scan.stands }.iterReadCurrent.1,
          { { scan with exactDone := false, iter := scan.stands }.iterReadCurrent.2 with dir := .forward }) := by
      simp only [indexNext, noExact, stands]
      rfl
    rw [moved, read]
    simp only [noExact]
  ended scan noExact finished := by
    have read : { scan with exactDone := false, iter := scan.stands }.iterReadCurrent.1 = _ :=
      iterReadCurrent_nil finished
    simp only [indexNext, noExact]
    exact read

end PkScan

/- The scans. A freed iterator is NULL: `rnd_next` does without it, `index_next` opens one that stands nowhere. -/

def PkScan.freed (scan : PkScan) : PkScan := { scan with iter := none }

def SecScan.freed (scan : SecScan) : SecScan := { scan with iter := none }

def tableDelete : DeleteScan PkScan := ⟨fun _ scan => scan.rndNext, PkScan.freed⟩

/- `none` is the scan before `index_first`. -/
def primaryDelete (family : SortedMap Bytes Record) : DeleteScan (Option PkScan) where
  next _ scan :=
    let out := match scan with
      | none => PkScan.init.indexFirst family
      | some scan => scan.indexNext family
    (out.1, some out.2)
  freed scan := scan.map PkScan.freed

def secondaryDelete (m : SortedMap Bytes Bytes) (key : Key) : DeleteScan (Option SecScan) where
  next s scan :=
    let out := match scan with
      | none => SecScan.init.indexFirst m s key fun _ => none
      | some scan => scan.indexNext s key fun _ => none
    (out.1, some out.2)
  freed scan := scan.map SecScan.freed

section Data

variable {S : Type} {D : DeleteScan S} (wrap : PkScan → S) {next : PkScan → Except HaCode Row × PkScan}

theorem data_yields (steps : PkScan.Steps next) (same : ∀ s scan, D.next s (wrap scan) = ((next scan).1, wrap (next scan).2))
    (freed : ∀ scan, D.freed (wrap scan) = wrap scan.freed) {rows : List Row} {scan : PkScan}
    (noExact : scan.exactDone = false) (ahead : scan.stands.forward = rows.map dataEntry) : Yields D (wrap scan) rows := by
  induction rows generalizing scan with
  | nil =>
    intro s
    rw [same]
    exact steps.ended scan noExact ahead
  | cons row rest ih =>
    intro s _
    have moved := steps.row scan row rest noExact ahead
    rw [same, moved]
    refine ⟨rfl, fun s' => ?_, ih noExact ?_⟩
    · rw [freed, same]
      exact steps.ended _ noExact rfl
    · change scan.stands.next.forward = _
      rw [forward_next, ahead]
      rfl

section
variable (metas : SortedMap Bytes Bytes) (rows : SortedMap Bytes Record)

theorem rows_ahead : ((dataFamily metas rows).iterSeek [keyNsData]).forward = rows.entries.map dataEntry := by
  have all : rows.seek [] = rows.entries := by
    rw [seek_eq_filter, List.filter_eq_self]
    intro e _
    exact decide_eq_true (not_lt.mp (List.not_lt_nil e.1))
  rw [forward_iterSeek, ← all]
  exact seek_dataFamily []

theorem data_yields_first {start : PkScan → Except HaCode Row × PkScan} (begins : PkScan.Steps start)
    (steps : PkScan.Steps next) (same : ∀ s scan, D.next s (wrap scan) = ((next scan).1, wrap (next scan).2))
    (freed : ∀ scan, D.freed (wrap scan) = wrap scan.freed) {rows : List Row} {st : S} (scan : PkScan)
    (first : ∀ s, D.next s st = ((start scan).1, wrap (start scan).2)) (noExact : scan.exactDone = false)
    (ahead : scan.stands.forward = rows.map dataEntry) : Yields D st rows := by
  cases rows with
  | nil =>
    intro s
    rw [first]
    exact begins.ended scan noExact ahead
  | cons row rest =>
    intro s _
    rw [first, begins.row scan row rest noExact ahead]
    refine ⟨rfl, fun s' => ?_, data_yields wrap steps same freed noExact ?_⟩
    · rw [freed, same]
      exact steps.ended _ noExact rfl
    · change scan.stands.next.forward = _
      rw [forward_next, ahead]
      rfl

theorem tableDelete_yields : Yields tableDelete (PkScan.rndInit (dataFamily metas rows)) rows.entries :=
  data_yields id rndNext_steps (fun _ _ => rfl) (fun _ => rfl) rfl (rows_ahead metas rows)

theorem primaryDelete_yields : Yields (primaryDelete (dataFamily metas rows)) none rows.entries :=
  data_yields_first some rndNext_steps (indexNext_steps _) (fun _ _ => rfl) (fun _ => rfl)
    (rndInit (dataFamily metas rows)) (fun _ => rfl) rfl (rows_ahead metas rows)

end

end Data

section Entries

variable {s : Table} {key : Key}

def SecScan.stands (scan : SecScan) : Iter (Bytes × Bytes) := if scan.dir = .none then scan.iter else scan.iter.next

theorem SecScan.indexNext_end {scan : SecScan} (finished : scan.stands.forward = []) :
    (scan.indexNext s key fun _ => none).1 = .error .endOfFile := by
  have nothing : entry key none (if scan.dir = .none then scan.iter else scan.iter.next) = none := by
    rw [entry, item_eq_head]
    exact congrArg (fun items => Option.filter _ (List.head? items)) finished
  simp only [indexNext, nothing]

theorem SecScan.indexNext_row {scan : SecScan} {e : Bytes × Bytes} {rest : List (Bytes × Bytes)}
    (ahead : scan.stands.forward = e :: rest) (long : comparableKeyLength key.parts < e.1.length) {row : Row}
    (named : e.1.drop (comparableKeyLength key.parts) = row.1) (there : s.rows.Has row.1 row.2) :
    scan.indexNext s key (fun _ => none) = (.ok row, { scan with dir := .forward, iter := scan.stands }) := by
  have here : entry key none (if scan.dir = .none then scan.iter else scan.iter.next) = some e := by
    change entry key none scan.stands = some e
    rw [entry, item_eq_head, ahead]
    simp [Option.filter, long]
  have read : readEntry s key (fun _ => none) e = .ok row := by
    rw [readEntry]
    rw [fetchRowByPk, named, lookup_eq_some.mpr there]
  simp only [indexNext, here, read, stands]

def Names (key : Key) (e : Bytes × Bytes) (row : Row) : Prop :=
  comparableKeyLength key.parts < e.1.length ∧ e.1.drop (comparableKeyLength key.parts) = row.1

theorem secondary_yields (m : SortedMap Bytes Bytes) {f : Bytes × Bytes → Row} {items : List (Bytes × Bytes)}
    (names : ∀ e ∈ items, Names key e (f e)) {scan : SecScan} (ahead : scan.stands.forward = items) :
    Yields (secondaryDelete m key) (some scan) (items.map f) := by
  induction items generalizing scan with
  | nil => exact fun s => indexNext_end ahead
  | cons e rest ih =>
    rw [List.forall_mem_cons] at names
    intro s there
    have moved := indexNext_row ahead names.1.1 names.1.2 there
    have step : (secondaryDelete m key).next s (some scan) =
        (.ok (f e), some { scan with dir := .forward, iter := scan.stands }) := by
      change ((scan.indexNext s key fun _ => none).1, some (scan.indexNext s key fun _ => none).2) = _
      rw [moved]
    rw [step]
    refine ⟨rfl, fun s' => ?_, ih names.2 ?_⟩
    · have lost : (freed { scan with dir := .forward, iter := scan.stands }).stands.forward = [] := rfl
      exact indexNext_end lost
    · change scan.stands.next.forward = _
      rw [forward_next, ahead]
      rfl

theorem secondaryDelete_yields (mirrored : Mirrored T residue s) {i : Nat} (own : (ActiveIndex.secondary i ix).Of T) :
    Yields (secondaryDelete (s.index i) ix.key) none ((s.index i).entries.map (entryRow s ix.key)) := by
  have names : ∀ e ∈ (s.index i).entries, Names ix.key e (entryRow s ix.key e) := by
    intro e mem
    exact ⟨(entry_row mirrored own mem).1.1, rfl⟩
  have ahead : { SecScan.init with iter := (s.index i).iterSeekToFirst }.stands.forward = (s.index i).entries :=
    forward_iterSeekToFirst _
  have positioned := secondary_yields (s.index i) names ahead
  cases listed : (s.index i).entries with
  | nil | cons =>
    rw [listed] at positioned
    exact positioned

theorem entryRows_perm (mirrored : Mirrored T residue s) {i : Nat} (own : (ActiveIndex.secondary i ix).Of T) :
    ((s.index i).entries.map (entryRow s ix.key)).Perm s.rows.entries := by
  have entries_distinct : (s.index i).entries.Nodup :=
    (s.index i).sorted.imp fun less same => ne_of_lt less (congrArg Prod.fst same)
  have rows_distinct : s.rows.entries.Nodup :=
    s.rows.sorted.imp fun less same => ne_of_lt less (congrArg Prod.fst same)
  have mapped : ((s.index i).entries.map (entryRow s ix.key)).Nodup := by
    refine entries_distinct.map_on fun e there e' there' same => ?_
    apply (s.index i).entry_unique there there'
    rw [← (entry_row mirrored own there).2.2, ← (entry_row mirrored own there').2.2, same]
  rw [List.perm_ext_iff_of_nodup mapped rows_distinct]
  intro row
  rw [List.mem_map]
  constructor
  · rintro ⟨e, there, rfl⟩
    exact (entry_row mirrored own there).2.1
  · intro mem
    obtain ⟨e, there, -, named⟩ := entry_of_row mirrored own mem
    exact ⟨e, there, named⟩

end Entries

/-- A scan of the whole table: of the table itself, along its primary key or along a secondary one. -/
inductive FullScan (T : Schema) (s : Table) where
  | table (metas : SortedMap Bytes Bytes)
  | primary (metas : SortedMap Bytes Bytes) (key : Key) (own : (ActiveIndex.primary key).Of T)
  | secondary (i : Nat) (ix : Index) (own : (ActiveIndex.secondary i ix).Of T) (residue : Nat → Bytes → Residue)
    (mirrored : Mirrored T residue s)

namespace FullScan

variable {T : Schema} {s : Table} (scratch : Bytes → Scratch)

def order : FullScan T s → List Row
  | .table _ => s.rows.entries
  | .primary .. => s.rows.entries
  | .secondary i ix .. => (s.index i).entries.map (entryRow s ix.key)

/-- From `start_bulk_delete` to `end_bulk_delete`: rows are read and deleted until a read or a delete fails. -/
def deleteAll : FullScan T s → (List Row × Option HaCode) × Table
  | .table metas => (deleteLoop T tableDelete scratch (s.rows.size + 1)
      ⟨s, PkScan.rndInit (dataFamily metas s.rows), 0⟩).map id BulkDelete.table
  | .primary metas .. => (deleteLoop T (primaryDelete (dataFamily metas s.rows)) scratch (s.rows.size + 1)
      ⟨s, none, 0⟩).map id BulkDelete.table
  | .secondary i ix .. => (deleteLoop T (secondaryDelete (s.index i) ix.key) scratch (s.rows.size + 1)
      ⟨s, none, 0⟩).map id BulkDelete.table

theorem order_perm (scan : FullScan T s) : scan.order.Perm s.rows.entries := by
  cases scan with
  | table | primary => exact .refl _
  | secondary i ix own residue mirrored => exact entryRows_perm mirrored own

theorem loop_spec {S : Type} {D : DeleteScan S} {first : S} {rows : List Row} (yields : Yields D first rows)
    (all : rows.Perm s.rows.entries) :
    ((deleteLoop T D scratch (s.rows.size + 1) ⟨s, first, 0⟩).map id BulkDelete.table).1 =
        (rows.take (deletesPerBatch T), some .endOfFile) ∧
      ((deleteLoop T D scratch (s.rows.size + 1) ⟨s, first, 0⟩).map id BulkDelete.table).2.rows =
        s.rows.eraseAll ((rows.take (deletesPerBatch T)).map Prod.fst) := by
  have distinct : (s.rows.entries.map Prod.fst).Nodup :=
    List.pairwise_map.mpr (s.rows.sorted.imp fun less same => ne_of_lt less same)
  have room : 0 < tidesdbBulkInsertBatchOps := by decide
  exact deleteLoop_spec ⟨s, first, 0⟩ yields (fun row mem => all.subset mem)
    ((all.map Prod.fst).nodup_iff.mpr distinct) room (Nat.lt_succ_of_le (le_of_eq all.length_eq))

theorem deleteAll_spec (scan : FullScan T s) :
    (scan.deleteAll scratch).1 = (scan.order.take (deletesPerBatch T), some .endOfFile) ∧
      (scan.deleteAll scratch).2.rows = s.rows.eraseAll ((scan.order.take (deletesPerBatch T)).map Prod.fst) := by
  cases scan with
  | table metas => exact loop_spec scratch (tableDelete_yields metas s.rows) (.refl _)
  | primary metas key own => exact loop_spec scratch (primaryDelete_yields metas s.rows) (.refl _)
  | secondary i ix own residue mirrored =>
    exact loop_spec scratch (secondaryDelete_yields mirrored own) (entryRows_perm mirrored own)

end FullScan

def DeletesAll (s : Table) (out : (List Row × Option HaCode) × Table) : Prop :=
  out.1.1.Perm s.rows.entries ∧ out.1.2 = some .endOfFile ∧ out.2.rows.entries = []

theorem deletesAll_few {s : Table} {scratch : Bytes → Scratch} {scan : FullScan T s}
    (all : DeletesAll s (scan.deleteAll scratch)) : s.rows.size ≤ deletesPerBatch T := by
  have same := all.1.length_eq
  rw [(scan.deleteAll_spec scratch).1, List.length_take] at same
  change _ = s.rows.size at same
  omega

/-- The commit of a full batch ends the scan. -/
theorem bulk_delete_all_iff {T : Schema} {s : Table} (scratch : Bytes → Scratch) (scan : FullScan T s) :
    DeletesAll s (scan.deleteAll scratch) ↔ s.rows.size ≤ deletesPerBatch T := by
  refine ⟨deletesAll_few, fun few => ?_⟩
  obtain ⟨visited, left⟩ := scan.deleteAll_spec scratch
  have count : scan.order.length = s.rows.size := scan.order_perm.length_eq
  unfold DeletesAll
  rw [visited, left, List.take_of_length_le (count ▸ few)]
  refine ⟨scan.order_perm, rfl, ?_⟩
  apply List.eq_nil_iff_forall_not_mem.mpr
  intro row mem
  have kept : row.1 ∉ scan.order.map Prod.fst ∧ s.rows.Has row.1 row.2 := has_eraseAll.mp mem
  exact kept.1 (List.mem_map_of_mem (scan.order_perm.symm.subset kept.2))

/- One row more than a batch holds, in a table without secondary keys. -/
section OneTooMany

def plainTable : Schema := ⟨none, [], none⟩

def countedRows (n : Nat) : List Row := (List.range n).map fun i => (beBytes 2 i, [])

theorem length_countedRows (n : Nat) : (countedRows n).length = n := by
  rw [countedRows, List.length_map, List.length_range]

theorem countedRows_sorted : (countedRows 501).Pairwise fun row row' => row.1 < row'.1 := by
  rw [countedRows, List.pairwise_map]
  refine List.pairwise_lt_range.imp_of_mem fun here there less => ?_
  rw [List.mem_range] at here there
  exact (beBytes_lt_iff (by omega) (by omega)).mpr less

def fullTable : Table := ⟨⟨countedRows 501, countedRows_sorted⟩, fun _ => .empty, 502, 0⟩

theorem last_row_stays : ¬ ∃ scratch,
    DeletesAll fullTable ((FullScan.table .empty : FullScan plainTable fullTable).deleteAll scratch) := by
  rintro ⟨scratch, all⟩
  have few := deletesAll_few all
  have listed : fullTable.rows.entries = countedRows 501 := by
    unfold fullTable
    dsimp only
  have size : fullTable.rows.size = 501 := by
    rw [size, listed, length_countedRows]
  have batch : deletesPerBatch plainTable = 500 := by decide +kernel
  rw [size, batch] at few
  omega

end OneTooMany

end TidesdbMysql
