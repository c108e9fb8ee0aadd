import Mathlib.Data.List.TakeWhile
import TidesdbMysql.Table.Navigate

/-! Index entries that outlive their row. The scans of a secondary key stop at the first entry whose row
is gone, so such an entry can hide the rows behind it. -/
namespace TidesdbMysql

open Base (Bytes SortedMap Starts Iter collect collectFrom readAll readFrom Reads Opens)
open SecScan ActiveIndex
open List Option

variable {items : List (Bytes × Bytes)}

inductive ScanStart where
  | readMap (flag : FindFlag) (comp : Bytes)
  | first
  | last
  deriving DecidableEq

inductive ScanMove where
  | next | prev | nextSame
  deriving DecidableEq

namespace ScanStart

section
variable (T : Schema) (m : SortedMap Bytes Bytes) (s : Table) (key : Key) (keyRead : Bytes → Option Record)

def call : ScanStart → Except HaCode Row × SecScan
  | .readMap flag comp => SecScan.init.indexReadMap m s key keyRead T flag comp
  | .first => SecScan.init.indexFirst m s key keyRead
  | .last => SecScan.init.indexLast m s key

def iter : ScanStart → Iter (Bytes × Bytes)
  | .readMap flag comp => SecScan.startIter m T flag comp
  | .first => m.iterSeekToFirst
  | .last => m.iterSeekToLast

def comp : ScanStart → Bytes
  | .readMap _ comp => comp
  | .first | .last => []

/- `HA_READ_KEY_EXACT` alone looks at the prefix of the first entry. -/
def wanted : ScanStart → Option Bytes
  | .readMap .keyExact comp => some comp
  | _ => none

/- How the first entry is read: `index_last` goes to the row even where the entry would do. -/
def read : ScanStart → Bytes × Bytes → Except HaCode Row
  | .last, e =>
    if comparableKeyLength key.parts < e.1.length then fetchRowByPk s (e.1.drop (comparableKeyLength key.parts))
    else .error .endOfFile
  | _, e => SecScan.take s key keyRead e

end

end ScanStart

namespace ScanMove

def call (s : Table) (key : Key) (keyRead : Bytes → Option Record) : ScanMove → SecScan → Except HaCode Row × SecScan
  | .next => SecScan.indexNext s key keyRead
  | .prev => SecScan.indexPrev s key keyRead
  | .nextSame => SecScan.indexNextSame s key keyRead

def way (comp : Bytes) (iter : Iter (Bytes × Bytes)) : ScanMove → List (Bytes × Bytes)
  | .next => iter.forward
  | .prev => iter.backward
  | .nextSame => iter.item.toList ++ iter.forward.tail.takeWhile (Starts comp)

def todo (comp : Bytes) : ScanMove → SecScan → List (Bytes × Bytes)
  | .next, scan => scan.iter.forward.tail
  | .prev, scan => scan.iter.backward.tail
  | .nextSame, scan => scan.iter.forward.tail.takeWhile (Starts comp)

def Under (comp : Bytes) : ScanMove → SecScan → Prop
  | .next, scan => scan.dir ≠ .none
  | .prev, _ => True
  | .nextSame, scan => scan.searchComp = comp

end ScanMove

def scanWay (T : Schema) (m : SortedMap Bytes Bytes) (start : ScanStart) (move : ScanMove) : List (Bytes × Bytes) :=
  if (start.iter T m).item.all (fun e => start.wanted.all (Starts · e)) then move.way start.comp (start.iter T m) else []

def secondaryScan (T : Schema) (s : Table) (i : Nat) (ix : Index) (keyRead : Bytes → Option Record)
    (start : ScanStart) (move : ScanMove) : List Row × Option HaCode :=
  collectFrom (start.call T (s.index i) s ix.key keyRead) (move.call s ix.key keyRead) (s.index i).size

section
variable {T : Schema} {m : SortedMap Bytes Bytes} {s : Table} {key : Key} {keyRead : Bytes → Option Record}

section
variable (s key keyRead) (start : ScanStart)

theorem start_opens {inv : SecScan → Prop} {todo : SecScan → List (Bytes × Bytes)}
    (head : items.head? = (start.iter T m).item.filter fun e => start.wanted.all (Starts · e))
    (arrives : ∀ dir, dir ≠ .none → inv ⟨start.comp, dir, start.iter T m⟩ ∧ todo ⟨start.comp, dir, start.iter T m⟩ = items.tail) :
    Opens (start.call T m s key keyRead) inv todo (start.read s key keyRead) items := by
  cases start with
  | readMap flag comp =>
    refine indexReadMap_opens ?_ arrives
    rw [head]
    cases flag <;> rfl
  | first =>
    have entry : entry key none m.iterSeekToFirst =
        items.head?.filter fun e => decide (comparableKeyLength key.parts < e.1.length) := entry_eq head
    apply entry_opens .endOfFile
    · simp only [ScanStart.call, indexFirst, indexNext, if_true, entry]
      cases items.head?.filter fun e => decide (comparableKeyLength key.parts < e.1.length) <;> rfl
    · intro row
      simp only [ScanStart.call, indexFirst, indexNext, if_true]
      split
      · intro found
        cases found
      · intro _
        exact arrives .forward (by decide)
  | last =>
    have entry : entry key none m.iterSeekToLast =
        items.head?.filter fun e => decide (comparableKeyLength key.parts < e.1.length) := entry_eq head
    apply entry_opens .endOfFile
    · simp only [ScanStart.call, indexLast, entry]
      cases items.head?.filter fun e => decide (comparableKeyLength key.parts < e.1.length) <;> rfl
    · intro row
      simp only [ScanStart.call, indexLast]
      split
      · intro found
        cases found
      · intro _
        exact arrives .backward (by decide)

theorem not_refused {start : ScanStart} (unchecked : start.wanted = none) :
    (start.iter T m).item.all (fun e => start.wanted.all (Starts · e)) = true := by
  rw [unchecked]
  cases (start.iter T m).item <;> rfl

theorem start_refused (refused : ¬ (start.iter T m).item.all (fun e => start.wanted.all (Starts · e)) = true) :
    (start.call T m s key keyRead).1 = .error .keyNotFound := by
  cases start with
  | first | last => exact absurd (not_refused rfl) refused
  | readMap flag comp =>
    cases flag with
    | keyOrNext | afterKey | keyOrPrev | beforeKey | prefixLast | prefixLastOrPrev | other =>
      exact absurd (not_refused rfl) refused
    | keyExact =>
      change ¬ (startIter m T .keyExact comp).item.all (fun e => Starts comp e) = true at refused
      have none_there : entry key (some comp) (startIter m T .keyExact comp) = none := by
        unfold entry
        cases here : (startIter m T .keyExact comp).item with
        | none => rfl
        | some e =>
          have apart : Starts comp e = false := by simpa [here] using refused
          simp [apart]
      simp only [ScanStart.call, indexReadMap, if_true, none_there]

end

section
variable (T m) (start : ScanStart) (comp : Bytes) (iter : Iter (Bytes × Bytes)) (move : ScanMove) (dir : ScanDir)

theorem move_reads :
    Reads (move.call s key keyRead) (move.Under comp) (move.todo comp) (SecScan.take s key keyRead) .endOfFile := by
  cases move with
  | next => exact indexNext_reads
  | prev => exact indexPrev_reads
  | nextSame => exact indexNextSame_reads comp

theorem way_head : (move.way comp iter).head? = iter.item := by
  cases move with
  | next => exact iter.item_eq_head.symm
  | prev => exact iter.item_eq_head_backward.symm
  | nextSame => cases iter <;> rfl

theorem way_tail : move.todo comp ⟨comp, dir, iter⟩ = (move.way comp iter).tail := by
  cases move with
  | next | prev => rfl
  | nextSame => cases iter <;> rfl

theorem under_start {dir : ScanDir} (moving : dir ≠ .none) : move.Under comp ⟨comp, dir, iter⟩ := by
  cases move with
  | next => exact moving
  | prev => trivial
  | nextSame => rfl

theorem start_on : (start.iter T m).On m.entries := by
  cases start with
  | first => exact m.iterSeekToFirst_on
  | last => exact m.iterSeekToLast_on
  | readMap flag comp =>
    cases flag with
    | keyExact | keyOrNext | other => exact m.iterSeek_on comp
    | afterKey => exact (m.iterSeek_on comp).nextWhile _
    | keyOrPrev | beforeKey | prefixLast | prefixLastOrPrev => exact m.iterSeekForPrev_on _

end

theorem way_sublist {iter : Iter (Bytes × Bytes)} (comp : Bytes) (on : iter.On m.entries) (move : ScanMove) :
    (move.way comp iter).Sublist m.entries ∨ (move.way comp iter).Sublist m.entries.reverse := by
  cases move with
  | next => exact .inl on.forward_suffix.sublist
  | prev => exact .inr on.backward_suffix.sublist
  | nextSame =>
    refine .inl (List.Sublist.trans ?_ on.forward_suffix.sublist)
    cases iter with
    | none => exact List.Sublist.refl _
    | some p => exact (takeWhile_sublist _).cons_cons p.here

section
variable (T m) (start : ScanStart) (move : ScanMove)

theorem scanWay_sublist :
    (scanWay T m start move).Sublist m.entries ∨ (scanWay T m start move).Sublist m.entries.reverse := by
  unfold scanWay
  split
  · exact way_sublist _ (start_on T m start) move
  · exact .inl (nil_sublist _)

theorem scanWay_length : (scanWay T m start move).length ≤ m.size := by
  rcases scanWay_sublist T m start move with along | along
  · exact along.length_le
  · exact along.length_le.trans_eq length_reverse

end

theorem mem_of_scanWay {start : ScanStart} {move : ScanMove} {e : Bytes × Bytes} (met : e ∈ scanWay T m start move) :
    e ∈ m.entries := by
  rcases scanWay_sublist T m start move with along | along
  · exact along.subset met
  · exact mem_reverse.mp (along.subset met)

theorem scanWay_distinct (T : Schema) (m : SortedMap Bytes Bytes) (start : ScanStart) (move : ScanMove) :
    (scanWay T m start move).Nodup := by
  have distinct : m.entries.Nodup := m.sorted.imp fun less same => ne_of_lt less (congrArg Prod.fst same)
  rcases scanWay_sublist T m start move with along | along
  · exact distinct.sublist along
  · exact (nodup_reverse.mpr distinct).sublist along

theorem secondaryScan_eq (T : Schema) (s : Table) (i : Nat) (ix : Index) (keyRead : Bytes → Option Record)
    (start : ScanStart) (move : ScanMove) : (secondaryScan T s i ix keyRead start move).1 =
      (readFrom (start.read s ix.key keyRead) (SecScan.take s ix.key keyRead) .endOfFile
        (scanWay T (s.index i) start move)).1 ∧
      ∃ code, (secondaryScan T s i ix keyRead start move).2 = some code := by
  have size := scanWay_length T (s.index i) start move
  by_cases met : (start.iter T (s.index i)).item.all (fun e => start.wanted.all (Starts · e)) = true
  · rw [scanWay, if_pos met] at size ⊢
    have head : (move.way start.comp (start.iter T (s.index i))).head? =
        (start.iter T (s.index i)).item.filter fun e => start.wanted.all (Starts · e) := by
      rw [way_head]
      cases here : (start.iter T (s.index i)).item with
      | none => rfl
      | some e =>
        rw [here] at met
        simp [Option.filter, show start.wanted.all (Starts · e) = true from met]
    have opens := start_opens s ix.key keyRead start head fun dir moving =>
      ⟨under_start start.comp (start.iter T (s.index i)) move moving, way_tail _ _ move dir⟩
    obtain ⟨rows, code⟩ := Base.collectFrom_eq (move_reads start.comp move) opens size
    refine ⟨rows, ?_⟩
    rcases code with code | ⟨c, -, code⟩
    · exact ⟨_, code⟩
    · exact ⟨c, code⟩
  · have failed := start_refused s ix.key keyRead start met
    rw [scanWay, if_neg met, secondaryScan]
    rcases answer : start.call T (s.index i) s ix.key keyRead with ⟨r, after⟩
    rw [answer] at failed
    cases failed
    exact ⟨rfl, .keyNotFound, rfl⟩

end

def entryPk (key : Key) (e : Bytes × Bytes) : Bytes := e.1.drop (comparableKeyLength key.parts)

def OrphanEntry (s : Table) (key : Key) (e : Bytes × Bytes) : Prop :=
  comparableKeyLength key.parts < e.1.length ∧ ¬ s.rows.HasKey (entryPk key e)

structure Orphaned (T : Schema) (residue : Nat → Bytes → Residue) (s : Table) (i : Nat) (ix : Index) : Prop where
  keyed : ∀ pk record, s.rows.Has pk record → KeyOf T pk record
  kept : ∀ row ∈ s.rows.entries, (s.index i).HasKey ((ActiveIndex.secondary i ix).image residue row)
  others : ∀ e ∈ (s.index i).entries,
    (∃ row ∈ s.rows.entries, e.1 = (ActiveIndex.secondary i ix).image residue row) ∨ OrphanEntry s ix.key e

def LiveYielded (T : Schema) (residue : Nat → Bytes → Residue) (s : Table) (i : Nat) (ix : Index)
    (keyRead : Bytes → Option Record) (start : ScanStart) (move : ScanMove) : Prop :=
  (∃ code, (secondaryScan T s i ix keyRead start move).2 = some code) ∧
  ∀ row ∈ s.rows.entries,
    (ActiveIndex.secondary i ix).image residue row ∈ (scanWay T (s.index i) start move).map Prod.fst →
      row.1 ∈ (secondaryScan T s i ix keyRead start move).1.map Prod.fst

def Unreadable (s : Table) (key : Key) (keyRead : Bytes → Option Record) (e : Bytes × Bytes) : Prop :=
  ¬ s.rows.HasKey (entryPk key e) ∧ keyRead e.1 = none
  deriving Decidable

def Unhidden (T : Schema) (s : Table) (i : Nat) (ix : Index) (keyRead : Bytes → Option Record) (start : ScanStart)
    (move : ScanMove) : Prop :=
  (scanWay T (s.index i) start move).Pairwise (fun a b => Unreadable s ix.key keyRead a → ¬ LiveEntry s ix.key b) ∧
  (start = .last → ∀ e ∈ (scanWay T (s.index i) start move).head?, ¬ s.rows.HasKey (entryPk ix.key e) →
    ∀ b ∈ (scanWay T (s.index i) start move).tail, ¬ LiveEntry s ix.key b)

section
variable {T : Schema} {residue : Nat → Bytes → Residue} {s : Table} {i : Nat} {ix : Index}
  {keyRead : Bytes → Option Record}

theorem entryPk_image (residue : Nat → Bytes → Residue) (i : Nat) (ix : Index) (row : Row) {e : Bytes × Bytes}
    (image : e.1 = (ActiveIndex.secondary i ix).image residue row) : entryPk ix.key e = row.1 := by
  rw [entryPk, image]
  exact drop_left' (by simp)

section
variable (state : Orphaned T residue s i ix) (start : ScanStart) (move : ScanMove) (pks : List Bytes)
include state

theorem Orphaned.live_iff {e : Bytes × Bytes} (mem : e ∈ (s.index i).entries) :
    comparableKeyLength ix.key.parts < e.1.length ∧ (LiveEntry s ix.key e ↔ s.rows.HasKey (entryPk ix.key e)) := by
  have long : comparableKeyLength ix.key.parts < e.1.length := by
    rcases state.others e mem with ⟨row, here, image⟩ | orphan
    · have some_pk := (state.keyed row.1 row.2 here).nonempty
      rw [image, ActiveIndex.image, length_append, makeComparableKey_length]
      omega
    · exact orphan.1
  exact ⟨long, and_iff_right long⟩

theorem Orphaned.image_of_live {e : Bytes × Bytes} (mem : e ∈ (s.index i).entries) {row : Row}
    (here : row ∈ s.rows.entries) (names : entryPk ix.key e = row.1) :
    e.1 = (ActiveIndex.secondary i ix).image residue row := by
  rcases state.others e mem with ⟨other, there, image⟩ | orphan
  · have same : other.1 = row.1 := by
      rw [← names, entryPk_image residue i ix other image]
    rwa [s.rows.entry_unique there here same] at image
  · refine absurd ?_ orphan.2
    rw [names]
    exact ⟨row, here, rfl⟩

theorem Orphaned.entry_unique {a b : Bytes × Bytes} (mem_a : a ∈ (s.index i).entries) (mem_b : b ∈ (s.index i).entries)
    (used : s.rows.HasKey (entryPk ix.key a)) (same : entryPk ix.key a = entryPk ix.key b) : a = b := by
  obtain ⟨row, here, names⟩ := used
  apply (s.index i).entry_unique mem_a mem_b
  rw [state.image_of_live mem_a here names.symm, state.image_of_live mem_b here (same ▸ names.symm)]

theorem Orphaned.yields_iff : (∀ row ∈ s.rows.entries,
      (ActiveIndex.secondary i ix).image residue row ∈ (scanWay T (s.index i) start move).map Prod.fst → row.1 ∈ pks) ↔
    ∀ e ∈ scanWay T (s.index i) start move, LiveEntry s ix.key e → entryPk ix.key e ∈ pks := by
  constructor
  · intro all e met live
    obtain ⟨row, here, names⟩ := live.2
    have image := state.image_of_live (mem_of_scanWay met) here names.symm
    rw [show entryPk ix.key e = row.1 from names.symm]
    apply all row here
    rw [← image]
    exact mem_map_of_mem met
  · intro all row here met
    obtain ⟨e, on_way, image⟩ := mem_map.mp met
    rw [← entryPk_image residue i ix row image]
    apply all e on_way
    apply (state.live_iff (mem_of_scanWay on_way)).2.mpr
    rw [entryPk_image residue i ix row image]
    exact ⟨row, here, rfl⟩

end

section
variable (s keyRead) (start : ScanStart) (pk : Bytes)

theorem fetch_cases : (s.rows.HasKey pk ∧ ∃ record, fetchRowByPk s pk = .ok (pk, record)) ∨
      (¬ s.rows.HasKey pk ∧ fetchRowByPk s pk = .error .keyNotFound) := by
  unfold fetchRowByPk
  cases found : s.rows.lookup pk with
  | none => exact .inr ⟨SortedMap.lookup_eq_none.mp found, rfl⟩
  | some record => exact .inl ⟨(SortedMap.lookup_eq_some.mp found).hasKey, record, rfl⟩

theorem take_cases {e : Bytes × Bytes} (long : comparableKeyLength ix.key.parts < e.1.length) :
    (¬ Unreadable s ix.key keyRead e ∧ ∃ record, SecScan.take s ix.key keyRead e = .ok (entryPk ix.key e, record)) ∨
      (Unreadable s ix.key keyRead e ∧ ∃ code, SecScan.take s ix.key keyRead e = .error code) := by
  rw [SecScan.take, if_pos long, SecScan.readEntry]
  cases decoded : keyRead e.1 with
  | some record =>
    refine .inl ⟨fun stuck => ?_, record, rfl⟩
    cases decoded.symm.trans stuck.2
  | none =>
    rcases fetch_cases s (entryPk ix.key e) with ⟨used, record, found⟩ | ⟨unused, failed⟩
    · exact .inl ⟨fun stuck => stuck.1 used, record, found⟩
    · exact .inr ⟨⟨unused, decoded⟩, _, failed⟩

theorem first_cases {e : Bytes × Bytes} (long : comparableKeyLength ix.key.parts < e.1.length) :
    (¬ Unreadable s ix.key keyRead e ∧ (start = .last → s.rows.HasKey (entryPk ix.key e)) ∧
        ∃ record, start.read s ix.key keyRead e = .ok (entryPk ix.key e, record)) ∨
      ((Unreadable s ix.key keyRead e ∨ start = .last) ∧ ¬ s.rows.HasKey (entryPk ix.key e) ∧
        ∃ code, start.read s ix.key keyRead e = .error code) := by
  cases start with
  | first | readMap =>
    rcases take_cases s keyRead long with ⟨clear, read⟩ | ⟨stuck, failed⟩
    · exact .inl ⟨clear, nofun, read⟩
    · exact .inr ⟨.inl stuck, stuck.1, failed⟩
  | last =>
    rw [ScanStart.read, if_pos long]
    rcases fetch_cases s (entryPk ix.key e) with ⟨used, read⟩ | ⟨unused, failed⟩
    · exact .inl ⟨fun stuck => stuck.1 used, fun _ => used, read⟩
    · exact .inr ⟨.inr rfl, unused, _, failed⟩

end

theorem mem_pks_readAll (long : ∀ e ∈ items, comparableKeyLength ix.key.parts < e.1.length) {pk : Bytes} :
    pk ∈ (readAll (SecScan.take s ix.key keyRead) .endOfFile items).1.map Prod.fst ↔
      ∃ e ∈ items.takeWhile (fun e => (SecScan.take s ix.key keyRead e).isOk), entryPk ix.key e = pk := by
  rw [List.mem_map]
  constructor
  · rintro ⟨row, read, rfl⟩
    obtain ⟨e, kept, taken⟩ := Base.mem_readAll.mp read
    refine ⟨e, kept, ?_⟩
    rcases take_cases s keyRead (long e ((List.takeWhile_sublist _).subset kept)) with ⟨-, record, found⟩ | ⟨-, code, failed⟩
    · rw [found] at taken
      cases taken
      rfl
    · rw [failed] at taken
      cases taken
  · rintro ⟨e, kept, rfl⟩
    rcases take_cases s keyRead (long e ((List.takeWhile_sublist _).subset kept)) with ⟨-, record, found⟩ | ⟨-, code, failed⟩
    · exact ⟨_, Base.mem_readAll.mpr ⟨e, kept, found⟩, rfl⟩
    · have passed := List.mem_takeWhile_imp kept
      rw [failed] at passed
      cases passed

/- Behind a first entry that was read, the live entries are returned unless one of them is hidden. -/
theorem Orphaned.rest_yielded_iff (state : Orphaned T residue s i ix) (keyRead : Bytes → Option Record)
    (members : ∀ e ∈ items, e ∈ (s.index i).entries) (distinct : items.Nodup) : (∀ e ∈ items, LiveEntry s ix.key e →
      entryPk ix.key e ∈ (readAll (SecScan.take s ix.key keyRead) .endOfFile items).1.map Prod.fst) ↔
    items.Pairwise fun a b => Unreadable s ix.key keyRead a → ¬ LiveEntry s ix.key b := by
  have long : ∀ e ∈ items, comparableKeyLength ix.key.parts < e.1.length := fun e mem => (state.live_iff (members e mem)).1
  have passes : ∀ e ∈ items, LiveEntry s ix.key e → (take s ix.key keyRead e).isOk = true := by
    intro e mem live
    rw [take_live live]
    rfl
  have stuck_iff : ∀ e ∈ items, Unreadable s ix.key keyRead e ↔ (take s ix.key keyRead e).isOk = false := by
    intro e mem
    rcases take_cases s keyRead (long e mem) with ⟨clear, record, found⟩ | ⟨stuck, code, failed⟩
    · simp [clear, found, Except.isOk, Except.toBool]
    · simp [stuck, failed, Except.isOk, Except.toBool]
  have pairs : (items.Pairwise fun a b => Unreadable s ix.key keyRead a → ¬ LiveEntry s ix.key b) ↔
      items.Pairwise fun a b => (take s ix.key keyRead a).isOk = false → ¬ LiveEntry s ix.key b :=
    List.Pairwise.iff_of_mem fun in_a _ => by rw [stuck_iff _ in_a]
  rw [pairs, ← Base.takeWhile_covers_iff distinct passes]
  refine forall₂_congr fun e mem => imp_congr_right fun live => ?_
  rw [mem_pks_readAll long]
  constructor
  · rintro ⟨other, kept, same⟩
    rwa [state.entry_unique (members e mem) (members other ((takeWhile_sublist _).subset kept)) live.2 same.symm]
  · exact fun kept => ⟨e, kept, rfl⟩

/-- A scan of a secondary key returns every live row of its range exactly when no orphan on its way
stops it before one. -/
theorem live_rows_yielded_iff (T : Schema) (residue : Nat → Bytes → Residue) (s : Table) (i : Nat) (ix : Index)
    (keyRead : Bytes → Option Record) (start : ScanStart) (move : ScanMove) (state : Orphaned T residue s i ix) :
    LiveYielded T residue s i ix keyRead start move ↔ Unhidden T s i ix keyRead start move := by
  obtain ⟨rows, ends⟩ := secondaryScan_eq T s i ix keyRead start move
  have members : ∀ e ∈ scanWay T (s.index i) start move, e ∈ (s.index i).entries := fun e met => mem_of_scanWay met
  have distinct := scanWay_distinct T (s.index i) start move
  rw [LiveYielded, and_iff_right ends, state.yields_iff, rows, Unhidden]
  generalize scanWay T (s.index i) start move = items at members distinct
  cases items with
  | nil => simp
  | cons e rest =>
    obtain ⟨apart, distinct_rest⟩ := nodup_cons.mp distinct
    rw [forall_mem_cons] at members
    have rest_iff := state.rest_yielded_iff keyRead members.2 distinct_rest
    obtain ⟨long, live_iff⟩ := state.live_iff members.1
    simp only [pairwise_cons, head?_cons, tail_cons, mem_def, some.injEq, forall_eq']
    rcases first_cases s keyRead start long with ⟨clear, of_last, record, read⟩ | ⟨stuck, unused, code, failed⟩
    · have later_iff : (∀ x ∈ rest, LiveEntry s ix.key x → entryPk ix.key x ∈
          (readFrom (start.read s ix.key keyRead) (take s ix.key keyRead) .endOfFile (e :: rest)).1.map Prod.fst) ↔
          ∀ x ∈ rest, LiveEntry s ix.key x → entryPk ix.key x ∈
            (readAll (take s ix.key keyRead) .endOfFile rest).1.map Prod.fst := by
        refine forall₂_congr fun x mem => imp_congr_right fun live => ?_
        simp only [readFrom, read, map_cons, mem_cons]
        apply or_iff_right
        intro same
        rw [state.entry_unique (members.2 x mem) members.1 live.2 same] at mem
        exact apart mem
      rw [forall_mem_cons, later_iff, rest_iff]
      simp only [clear, false_implies, implies_true, true_and]
      have first_read : entryPk ix.key e ∈ (readFrom (start.read s ix.key keyRead) (take s ix.key keyRead)
          .endOfFile (e :: rest)).1.map Prod.fst := by
        simp [readFrom, read]
      constructor
      · exact fun both => ⟨both.2, fun last unused => absurd (of_last last) unused⟩
      · exact fun both => ⟨fun _ => first_read, both.1⟩
    · have nothing : (readFrom (start.read s ix.key keyRead) (take s ix.key keyRead) .endOfFile
          (e :: rest)).1 = [] := by
        simp [readFrom, failed]
      rw [nothing]
      simp only [map_nil, not_mem_nil, imp_false]
      constructor
      · intro none_live
        have none_later : ∀ x ∈ rest, ¬ LiveEntry s ix.key x := fun x mem => none_live x (mem_cons_of_mem e mem)
        refine ⟨⟨fun b mem _ => none_later b mem, ?_⟩, fun _ _ => none_later⟩
        exact pairwise_of_forall_mem_list fun a _ b mem _ => none_later b mem
      · rintro ⟨⟨behind, -⟩, of_last⟩ x mem live
        rcases mem_cons.mp mem with rfl | later
        · exact unused (live_iff.mp live)
        · rcases stuck with stuck | last
          · exact behind x later stuck live
          · exact of_last last unused x later live

end

theorem Mirrored.orphaned {T : Schema} {residue : Nat → Bytes → Residue} {s : Table} {i : Nat} {ix : Index}
    (mirrored : Mirrored T residue s) (of_table : (ActiveIndex.secondary i ix).Of T) {rows : SortedMap Bytes Record}
    (left : ∀ row ∈ rows.entries, row ∈ s.rows.entries) : Orphaned T residue { s with rows := rows } i ix where
  keyed pk record has := mirrored.keyed pk record (left _ has)
  kept row here := by
    obtain ⟨e, mem, image, -⟩ := entry_of_row mirrored of_table (left row here)
    exact ⟨e, mem, image⟩
  others e mem := by
    obtain ⟨live, was_there, image⟩ := entry_row mirrored of_table mem
    by_cases used : rows.HasKey (entryPk ix.key e)
    · obtain ⟨row, here, names⟩ := used
      refine .inl ⟨row, here, ?_⟩
      rw [← image, s.rows.entry_unique (left row here) was_there names]
    · exact .inr ⟨live.1, used⟩

instance (s : Table) (key : Key) (e : Bytes × Bytes) : Decidable (LiveEntry s key e) :=
  inferInstanceAs (Decidable (_ ∧ _))

instance (T : Schema) (s : Table) (i : Nat) (ix : Index) (keyRead : Bytes → Option Record) (start : ScanStart)
    (move : ScanMove) : Decidable (Unhidden T s i ix keyRead start move) :=
  inferInstanceAs (Decidable (_ ∧ _))

/- `id TINYINT UNSIGNED PRIMARY KEY, size TINYINT UNSIGNED, KEY (size)` with the rows (1, 5) and (2, 6). -/
def bySize : Index := ⟨byteKey 1, .ordinary false⟩

def sized : Schema := ⟨some (byteKey 0), [bySize], none⟩

def twoSizes : Table :=
  Base.run (dmlStep sized) Table.empty
    [.write (fun _ => none) (insertOf [some [1], some [5]]), .write (fun _ => none) (insertOf [some [2], some [6]])]

theorem twoSizes_mirrored : Mirrored sized (fun _ _ _ => 0) twoSizes :=
  (write_consistent (write_consistent (empty_consistent _ _) _ _ (by decide)) _ _ (by decide)).toMirrored

def expired : Table := { twoSizes with rows := twoSizes.rows.erase [1] }

theorem live_rows_yielded_whole : LiveYielded sized (fun _ _ _ => 0) twoSizes 0 bySize (fun _ => none) .first .next :=
  (live_rows_yielded_iff sized (fun _ _ _ => 0) twoSizes 0 bySize (fun _ => none) .first .next
    (twoSizes_mirrored.orphaned ⟨rfl, false, rfl⟩ fun _ mem => mem)).mpr (by decide)

/-- The entry of the expired row ends the scan before the row (2, 6). -/
theorem orphan_hides_row : ¬ ∀ (T : Schema) (residue : Nat → Bytes → Residue) (s : Table) (i : Nat) (ix : Index)
      (keyRead : Bytes → Option Record) (start : ScanStart) (move : ScanMove),
      (ActiveIndex.secondary i ix).Of T → Orphaned T residue s i ix → LiveYielded T residue s i ix keyRead start move := by
  intro claim
  have yields := (claim sized (fun _ _ _ => 0) expired 0 bySize (fun _ => none) .first .next ⟨rfl, false, rfl⟩
    (twoSizes_mirrored.orphaned ⟨rfl, false, rfl⟩ (by decide))).2
  have lost : [2] ∉ (secondaryScan sized expired 0 bySize (fun _ => none) .first .next).1.map Prod.fst := by decide
  exact lost (yields ([2], [some [2], some [6]]) (by decide) (by decide))

end TidesdbMysql
