import TidesdbMysql.Table.KeyRead
import TidesdbMysql.Table.Orphans

/-! A condition pushed to a secondary key. The server does not look at it again, so what the navigation
calls return has to satisfy it, and they may pass nothing that does. -/
namespace TidesdbMysql

open Base (Bytes SortedMap Starts Iter sift collect collectFrom readAll readFrom Reads Opens)
open SecScan Base.Iter
open List Option Base.SortedMap

variable {place : Iter (Bytes × Bytes)} {items : List (Bytes × Bytes)}

namespace SecScan

variable (m : SortedMap Bytes Bytes) (s : Table) (key : Key) (keyRead : Bytes → Option Record)
  (check : Bytes → CheckResult)

/- The entries the loops pass: those that would be read, and that the condition refuses. -/
def refused (comp : Option Bytes) (e : Bytes × Bytes) : Bool :=
  comp.all (Starts · e) && decide (comparableKeyLength key.parts < e.1.length) && decide (check e.1 = .neg)

section
variable (T : Schema) (flag : FindFlag) (comp : Bytes) (scan : SecScan)

/-- `index_read_map` with a pushed condition. -/
def icpReadMap : Except HaCode Row × SecScan :=
  let wanted := if flag = .keyExact then some comp else none
  let iter := startIter m T flag comp
  let iter := if flag.isBackward then iter.prevWhile (refused key check wanted)
    else iter.nextWhile (refused key check wanted)
  let scan := { scan with searchComp := comp, iter := iter }
  match entry key wanted iter with
  | none => (.error .keyNotFound, scan)
  | some e =>
    if check e.1 = .outOfRange then (.error .endOfFile, scan)
    else
      match readEntry s key keyRead e with
      | .error code => (.error code, scan)
      | .ok row => (.ok row, { scan with dir := if flag.isBackward then .backward else .forward })

def icpNext : Except HaCode Row × SecScan :=
  let iter := if scan.dir = .none then scan.iter else scan.iter.next
  let scan := { scan with iter := iter.nextWhile (refused key check none) }
  match entry key none scan.iter with
  | none => (.error .endOfFile, scan)
  | some e =>
    if check e.1 = .outOfRange then (.error .endOfFile, scan)
    else (readEntry s key keyRead e, { scan with dir := .forward })

def icpPrev : Except HaCode Row × SecScan :=
  let scan := { scan with iter := scan.iter.prev.prevWhile (refused key check none) }
  match entry key none scan.iter with
  | none => (.error .endOfFile, scan)
  | some e =>
    if check e.1 = .outOfRange then (.error .endOfFile, scan)
    else (readEntry s key keyRead e, { scan with dir := .backward })

def icpFirst : Except HaCode Row × SecScan :=
  { scan with dir := .none, iter := m.iterSeekToFirst }.icpNext s key keyRead check

def icpNextSame : Except HaCode Row × SecScan :=
  let scan := { scan with iter := scan.iter.next.nextWhile (refused key check (some scan.searchComp)) }
  match entry key (some scan.searchComp) scan.iter with
  | none => (.error .endOfFile, scan)
  | some e =>
    if check e.1 = .outOfRange then (.error .endOfFile, scan)
    else (readEntry s key keyRead e, scan)

end

/- Without a condition these are the plain calls. `index_last` is the plain call always. -/

/- The entries the loops end at: outside the prefix, without a primary key, or out of range. -/
def ends (comp : Option Bytes) (e : Bytes × Bytes) : Bool :=
  !(comp.all (Starts · e) && decide (comparableKeyLength key.parts < e.1.length)) || decide (check e.1 = .outOfRange)

variable {s key keyRead check}

theorem refused_not_ends (comp : Option Bytes) (e : Bytes × Bytes) (skipped : refused key check comp e = true) :
    ends key check comp e = false := by
  obtain ⟨fits, neg⟩ := Bool.and_eq_true_iff.mp skipped
  simp [ends, fits, of_decide_eq_true neg]

def turn (s : Table) (key : Key) (keyRead : Bytes → Option Record) (check : Bytes → CheckResult) (comp : Option Bytes)
    (stop : HaCode) (stuck arrived : SecScan) (iter : Iter (Bytes × Bytes)) : Except HaCode Row × SecScan :=
  match entry key comp iter with
  | none => (.error stop, stuck)
  | some e => if check e.1 = .outOfRange then (.error .endOfFile, stuck) else (readEntry s key keyRead e, arrived)

variable {comp : Option Bytes} {stop : HaCode} {stuck arrived : SecScan} {iter : Iter (Bytes × Bytes)}

theorem turn_nil
    (past : iter.item = none) : turn s key keyRead check comp stop stuck arrived iter = (.error stop, stuck) := by
  simp [turn, entry, past]

theorem turn_read {e : Bytes × Bytes} (here : iter.item = some e) (inside : ends key check comp e = false) :
    turn s key keyRead check comp stop stuck arrived iter = (readEntry s key keyRead e, arrived) := by
  obtain ⟨fits, in_range⟩ : (comp.all (Starts · e) && decide (comparableKeyLength key.parts < e.1.length)) = true ∧
      ¬ check e.1 = .outOfRange := by
    simpa [ends] using inside
  have found : entry key comp iter = some e := by
    rw [entry, here, filter_some, if_pos fits]
  simp only [turn, found, if_neg in_range]

theorem turn_end {e : Bytes × Bytes}
    (here : iter.item = some e) (outside : ends key check comp e = true) (stop : HaCode) :
    (turn s key keyRead check comp stop stuck arrived iter).1 = .error stop ∨
      (turn s key keyRead check comp stop stuck arrived iter).1 = .error .endOfFile := by
  unfold turn
  cases fits : comp.all (Starts · e) && decide (comparableKeyLength key.parts < e.1.length) with
  | false =>
    have missing : entry key comp iter = none := by
      rw [entry, here, filter_some, fits]
      rfl
    rw [missing]
    exact .inl rfl
  | true =>
    have found : entry key comp iter = some e := by
      rw [entry, here, filter_some, if_pos fits]
    have beyond : check e.1 = .outOfRange := by simpa [ends, fits] using outside
    rw [found]
    exact .inr (congrArg Prod.fst (if_pos beyond))

theorem turn_reads {next : SecScan → Except HaCode Row × SecScan} (comp : SecScan → Option Bytes)
    (ahead : SecScan → List (Bytes × Bytes)) (place : SecScan → Iter (Bytes × Bytes)) (dir : SecScan → ScanDir)
    (step : ∀ scan, next scan = turn s key keyRead check (comp scan) .endOfFile { scan with iter := place scan }
      { scan with dir := dir scan, iter := place scan } (place scan))
    (head : ∀ scan, (place scan).item = ((ahead scan).dropWhile (refused key check (comp scan))).head?)
    (same : ∀ scan, comp { scan with dir := dir scan, iter := place scan } = comp scan)
    (later : ∀ scan, ahead { scan with dir := dir scan, iter := place scan } =
      ((ahead scan).dropWhile (refused key check (comp scan))).tail) :
    Reads next (fun _ => True)
      (fun scan => sift (refused key check (comp scan)) (ends key check (comp scan)) (ahead scan))
      (readEntry s key keyRead) .endOfFile := by
  refine ⟨fun scan _ finished => ?_, fun scan e rest _ items => ?_⟩
  · rw [Base.sift_turn (refused_not_ends (comp scan))] at finished
    have here := head scan
    rw [step scan]
    cases left : (ahead scan).dropWhile (refused key check (comp scan)) with
    | nil =>
      rw [left] at here
      rw [turn_nil here]
    | cons e rest =>
      rw [left] at here finished
      by_cases outside : ends key check (comp scan) e = true
      · rcases turn_end here outside .endOfFile with stopped | stopped <;> exact stopped
      · simp [outside] at finished
  · rw [Base.sift_turn (refused_not_ends (comp scan))] at items
    have here := head scan
    have after := later scan
    rw [step scan]
    cases left : (ahead scan).dropWhile (refused key check (comp scan)) with
    | nil =>
      rw [left] at items
      cases items
    | cons first more =>
      rw [left] at here after items
      by_cases outside : ends key check (comp scan) first = true
      · simp [outside] at items
      · simp only [outside, if_false, cons.injEq, Bool.false_eq_true] at items
        obtain ⟨rfl, rfl⟩ := items
        rw [turn_read here (Bool.eq_false_iff.mpr outside)]
        refine ⟨rfl, fun _ _ => ⟨trivial, ?_⟩⟩
        rw [same scan, after, tail_cons]

def aheadNext (scan : SecScan) : List (Bytes × Bytes) := (if scan.dir = .none then scan.iter else scan.iter.next).forward

theorem icpNext_reads : Reads (icpNext s key keyRead check) (fun _ => True)
      (fun scan => sift (refused key check none) (ends key check none) scan.aheadNext) (readEntry s key keyRead)
      .endOfFile := by
  apply turn_reads (fun _ => none) aheadNext
    (fun scan => (if scan.dir = .none then scan.iter else scan.iter.next).nextWhile (refused key check none))
    fun _ => .forward
  · exact fun _ => rfl
  · intro scan
    rw [item_eq_head, forward_nextWhile]
    rfl
  · exact fun _ => rfl
  · intro scan
    simp [aheadNext]

theorem icpPrev_reads : Reads (icpPrev s key keyRead check) (fun _ => True)
      (fun scan => sift (refused key check none) (ends key check none) scan.iter.backward.tail)
      (readEntry s key keyRead) .endOfFile := by
  apply turn_reads (fun _ => none) (fun scan => scan.iter.backward.tail)
    (fun scan => scan.iter.prev.prevWhile (refused key check none)) fun _ => .backward
  · exact fun _ => rfl
  · intro scan
    rw [item_eq_head_backward, backward_prevWhile, backward_prev]
  · exact fun _ => rfl
  · intro scan
    simp

theorem icpNextSame_reads : Reads (icpNextSame s key keyRead check) (fun _ => True)
      (fun scan => sift (refused key check (some scan.searchComp)) (ends key check (some scan.searchComp))
        scan.iter.forward.tail) (readEntry s key keyRead) .endOfFile := by
  apply turn_reads (fun scan => some scan.searchComp) (fun scan => scan.iter.forward.tail)
    (fun scan => scan.iter.next.nextWhile (refused key check (some scan.searchComp))) SecScan.dir
  · exact fun _ => rfl
  · intro scan
    rw [item_eq_head, forward_nextWhile, forward_next]
  · exact fun _ => rfl
  · intro scan
    simp

theorem turn_opens {start : Except HaCode Row × SecScan} {range : List (Bytes × Bytes)}
    {todo : SecScan → List (Bytes × Bytes)}
    (answer : start.1 = (turn s key keyRead check comp stop stuck arrived place).1)
    (head : place.item = (range.dropWhile (refused key check comp)).head?)
    (after : ∀ row, start.1 = .ok row → todo start.2 =
      sift (refused key check comp) (ends key check comp) (range.dropWhile (refused key check comp)).tail) :
    Opens start (fun _ => True) todo (readEntry s key keyRead)
      (sift (refused key check comp) (ends key check comp) range) := by
  rw [Base.sift_turn (refused_not_ends comp)]
  cases left : range.dropWhile (refused key check comp) with
  | nil =>
    rw [left] at head
    rw [turn_nil head] at answer
    refine ⟨fun row found => ?_, fun _ _ x rest items => ?_⟩
    · rw [answer] at found
      cases found
    · cases items
  | cons e rest =>
    rw [left] at head after
    by_cases outside : ends key check comp e = true
    · have stopped : ∃ code, start.1 = .error code := by
        rcases turn_end head outside stop with stopped | stopped <;> exact ⟨_, answer.trans stopped⟩
      obtain ⟨code, stopped⟩ := stopped
      simp only [outside, if_true]
      refine ⟨fun row found => ?_, fun _ _ x rest items => ?_⟩
      · rw [stopped] at found
        cases found
      · cases items
    · rw [turn_read head (Bool.eq_false_iff.mpr outside)] at answer
      simp only [outside, if_false, Bool.false_eq_true]
      refine ⟨fun row found => ⟨e, _, rfl, answer.symm.trans found, trivial, after row found⟩, fun code failed x more items => ?_⟩
      cases items
      exact ⟨code, answer.symm.trans failed⟩

theorem icpReadMap_turn (s : Table) (key : Key) (keyRead : Bytes → Option Record) (check : Bytes → CheckResult)
    (m : SortedMap Bytes Bytes) (T : Schema) (flag : FindFlag) (comp : Bytes) (at_place : place = if flag.isBackward
      then (startIter m T flag comp).prevWhile (refused key check (if flag = .keyExact then some comp else none))
      else (startIter m T flag comp).nextWhile (refused key check (if flag = .keyExact then some comp else none))) :
    (init.icpReadMap m s key keyRead check T flag comp).1 =
      (turn s key keyRead check (if flag = .keyExact then some comp else none) .keyNotFound init init place).1 ∧
    ∀ row, (init.icpReadMap m s key keyRead check T flag comp).1 = .ok row →
      (init.icpReadMap m s key keyRead check T flag comp).2 =
        ⟨comp, if flag.isBackward then .backward else .forward, place⟩ := by
  unfold icpReadMap turn
  dsimp only
  rw [← at_place]
  cases entry key (if flag = .keyExact then some comp else none) place with
  | none => exact ⟨rfl, fun _ found => by cases found⟩
  | some e =>
    dsimp only
    split
    · exact ⟨rfl, fun _ found => by cases found⟩
    · cases readEntry s key keyRead e with
      | error code => exact ⟨rfl, fun _ found => by cases found⟩
      | ok row => exact ⟨rfl, fun _ _ => rfl⟩

end SecScan

/-- A scan under a pushed condition: started by one of three calls, or continued from any place. -/
inductive IcpScan where
  | readMap (flag : FindFlag) (comp : Bytes)
  | first
  | last
  | resume (move : ScanMove) (scan : SecScan)

namespace IcpScan

def move : IcpScan → ScanMove
  | .readMap flag _ => if flag = .keyExact then .nextSame else if flag.isBackward then .prev else .next
  | .first => .next
  | .last => .prev
  | .resume move _ => move

def guard : IcpScan → Option Bytes
  | .readMap flag comp => if flag = .keyExact then some comp else none
  | .resume .nextSame scan => some scan.searchComp
  | _ => none

def ahead (T : Schema) (m : SortedMap Bytes Bytes) : IcpScan → List (Bytes × Bytes)
  | .readMap flag comp =>
    if flag.isBackward then (SecScan.startIter m T flag comp).backward else (SecScan.startIter m T flag comp).forward
  | .first => m.entries
  | .last => m.entries.reverse
  | .resume .next scan => scan.aheadNext
  | .resume .prev scan => scan.iter.backward.tail
  | .resume .nextSame scan => scan.iter.forward.tail

def range (T : Schema) (m : SortedMap Bytes Bytes) (scan : IcpScan) : List (Bytes × Bytes) :=
  (scan.ahead T m).takeWhile fun e => scan.guard.all (Starts · e)

section
variable (T : Schema) (s : Table) (i : Nat) (ix : Index) (key : Key) (keyRead : Bytes → Option Record)
  (check : Bytes → CheckResult) (scan : IcpScan)

def moveCall : ScanMove → SecScan → Except HaCode Row × SecScan
  | .next => SecScan.icpNext s key keyRead check
  | .prev => SecScan.icpPrev s key keyRead check
  | .nextSame => SecScan.icpNextSame s key keyRead check

def run : List Row × Option HaCode :=
  let m := s.index i
  match scan with
  | .readMap flag comp =>
    collectFrom (SecScan.init.icpReadMap m s ix.key keyRead check T flag comp)
      (moveCall s ix.key keyRead check (IcpScan.readMap flag comp).move) m.size
  | .first => collectFrom (SecScan.init.icpFirst m s ix.key keyRead check) (moveCall s ix.key keyRead check .next) m.size
  | .last => collectFrom (SecScan.init.indexLast m s ix.key) (moveCall s ix.key keyRead check .prev) m.size
  | .resume move place => collect (moveCall s ix.key keyRead check move) (m.size + 1) place

end

def todo (key : Key) (check : Bytes → CheckResult) : ScanMove → SecScan → List (Bytes × Bytes)
  | .next, scan => sift (SecScan.refused key check none) (SecScan.ends key check none) scan.aheadNext
  | .prev, scan => sift (SecScan.refused key check none) (SecScan.ends key check none) scan.iter.backward.tail
  | .nextSame, scan =>
    sift (SecScan.refused key check (some scan.searchComp)) (SecScan.ends key check (some scan.searchComp))
      scan.iter.forward.tail

/-- The entries a scan reads: `index_last` reads the last one whatever the condition says. -/
def kept (key : Key) (check : Bytes → CheckResult) (T : Schema) (m : SortedMap Bytes Bytes) (scan : IcpScan) :
    List (Bytes × Bytes) :=
  match scan with
  | .last =>
    m.entries.reverse.head?.toList ++
      sift (SecScan.refused key check none) (SecScan.ends key check none) m.entries.reverse.tail
  | scan => sift (SecScan.refused key check scan.guard) (SecScan.ends key check scan.guard) (scan.ahead T m)

section
variable {T : Schema} {s : Table} {key : Key} {keyRead : Bytes → Option Record} {check : Bytes → CheckResult}

theorem move_reads (move : ScanMove) :
    Reads (moveCall s key keyRead check move) (fun _ => True) (todo key check move) (SecScan.readEntry s key keyRead)
      .endOfFile := by
  cases move with
  | next => exact icpNext_reads
  | prev => exact icpPrev_reads
  | nextSame => exact icpNextSame_reads

theorem readMap_opens (m : SortedMap Bytes Bytes) (T : Schema) (s : Table) (key : Key) (keyRead : Bytes → Option Record)
    (check : Bytes → CheckResult) (flag : FindFlag) (comp : Bytes) :
    Opens (SecScan.init.icpReadMap m s key keyRead check T flag comp) (fun _ => True)
      (todo key check (IcpScan.readMap flag comp).move) (SecScan.readEntry s key keyRead)
      ((IcpScan.readMap flag comp).kept key check T m) := by
  obtain ⟨answer, after⟩ := icpReadMap_turn s key keyRead check m T flag comp rfl
  by_cases backward : flag.isBackward = true
  · have inexact : flag ≠ .keyExact := by
      rintro rfl
      cases backward
    have prev : (IcpScan.readMap flag comp).move = .prev := by simp [move, inexact, backward]
    simp only [if_pos backward] at answer after
    rw [prev]
    simp only [kept, guard, ahead, if_pos backward]
    refine turn_opens answer ?_ fun row found => ?_
    · rw [item_eq_head_backward, backward_prevWhile]
    · rw [after row found]
      simp only [todo, if_neg inexact, backward_prevWhile]
  · simp only [if_neg backward] at answer after
    simp only [kept, guard, ahead, if_neg backward]
    refine turn_opens answer ?_ fun row found => ?_
    · rw [item_eq_head, forward_nextWhile]
    · rw [after row found]
      by_cases exact_key : flag = .keyExact
      · have same : (IcpScan.readMap flag comp).move = .nextSame := by simp [move, exact_key]
        rw [same]
        simp only [todo, if_pos exact_key, forward_nextWhile]
      · have next : (IcpScan.readMap flag comp).move = .next := by simp [move, exact_key, backward]
        rw [next]
        simp [todo, exact_key, aheadNext]

theorem first_opens (m : SortedMap Bytes Bytes) (T : Schema) (s : Table) (key : Key) (keyRead : Bytes → Option Record)
    (check : Bytes → CheckResult) :
    Opens (SecScan.init.icpFirst m s key keyRead check) (fun _ => True) (todo key check .next)
      (SecScan.readEntry s key keyRead) (IcpScan.first.kept key check T m) := by
  have items : IcpScan.first.kept key check T m =
      todo key check .next { init with dir := .none, iter := m.iterSeekToFirst } := by
    simp [todo, aheadNext, kept, guard, ahead]
  rw [items]
  exact icpNext_reads.opens trivial

theorem last_opens (m : SortedMap Bytes Bytes) (T : Schema) (s : Table) (key : Key) (keyRead : Bytes → Option Record)
    (check : Bytes → CheckResult) : Opens (SecScan.init.indexLast m s key) (fun _ => True) (todo key check .prev)
      (ScanStart.last.read s key keyRead) (IcpScan.last.kept key check T m) := by
  refine start_opens (T := T) s key keyRead .last ?_ fun dir _ => ⟨trivial, ?_⟩
  · have item : (ScanStart.last.iter T m).item = m.entries.reverse.head? := by
      rw [item_eq_head_backward]
      exact congrArg head? m.backward_iterSeekToLast
    rw [item, kept]
    cases m.entries.reverse <;> rfl
  · simp only [todo, kept, ScanStart.iter, backward_iterSeekToLast]
    cases m.entries.reverse <;> rfl

def Placed (m : SortedMap Bytes Bytes) : IcpScan → Prop
  | .resume _ scan => scan.iter.On m.entries
  | _ => True

variable {scan : IcpScan}

theorem ahead_sublist {m : SortedMap Bytes Bytes} (placed : scan.Placed m) (T : Schema) :
    (scan.ahead T m).Sublist m.entries ∨ (scan.ahead T m).Sublist m.entries.reverse := by
  cases scan with
  | readMap flag comp =>
    have on : (startIter m T flag comp).On m.entries := start_on T m (.readMap flag comp)
    rw [ahead]
    by_cases backward : flag.isBackward = true
    · rw [if_pos backward]
      exact .inr on.backward_suffix.sublist
    · rw [if_neg backward]
      exact .inl on.forward_suffix.sublist
  | first => exact .inl (List.Sublist.refl _)
  | last => exact .inr (List.Sublist.refl _)
  | resume move scan =>
    have on : scan.iter.On m.entries := placed
    cases move with
    | next =>
      refine .inl (Iter.On.forward_suffix ?_).sublist
      split
      · exact on
      · exact on.next
    | prev => exact .inr ((tail_sublist _).trans on.backward_suffix.sublist)
    | nextSame => exact .inl ((tail_sublist _).trans on.forward_suffix.sublist)

theorem mem_of_ahead {m : SortedMap Bytes Bytes} (placed : scan.Placed m) {e : Bytes × Bytes}
    (met : e ∈ scan.ahead T m) : e ∈ m.entries := by
  rcases ahead_sublist placed T with along | along
  · exact along.subset met
  · exact mem_reverse.mp (along.subset met)

theorem mem_of_range {m : SortedMap Bytes Bytes} (placed : scan.Placed m) {e : Bytes × Bytes}
    (met : e ∈ scan.range T m) : e ∈ m.entries :=
  mem_of_ahead placed ((takeWhile_sublist _).subset met)

theorem kept_sublist (key : Key) (check : Bytes → CheckResult) (T : Schema) (m : SortedMap Bytes Bytes) (scan : IcpScan) :
    (scan.kept key check T m).Sublist (scan.ahead T m) := by
  have sifted : ∀ comp l, (sift (refused key check comp) (ends key check comp) l).Sublist l :=
    fun _ _ => filter_sublist.trans (takeWhile_sublist _)
  cases scan with
  | readMap | first | resume => exact sifted _ _
  | last =>
    rw [kept, ahead]
    cases m.entries.reverse with
    | nil => exact List.Sublist.refl _
    | cons e rest => exact (sifted none rest).cons_cons e

theorem kept_length {m : SortedMap Bytes Bytes} (placed : scan.Placed m) (key : Key)
    (check : Bytes → CheckResult) (T : Schema) : (scan.kept key check T m).length ≤ m.size := by
  have short := (kept_sublist key check T m scan).length_le
  rcases ahead_sublist placed T with along | along
  · exact short.trans along.length_le
  · exact short.trans (along.length_le.trans_eq length_reverse)

end

section
variable {T : Schema} {residue : Nat → Bytes → Residue} {s : Table} {i : Nat} {ix : Index}

section
variable (keyRead : Bytes → Option Record)

theorem readEntry_of_live {key : Key} {e : Bytes × Bytes} (live : LiveEntry s key e) :
    SecScan.readEntry s key keyRead e = .ok (SecScan.shown s key keyRead e) := by
  have taken : SecScan.take s key keyRead e = .ok (SecScan.shown s key keyRead e) := SecScan.take_live live
  rwa [SecScan.take, if_pos live.1] at taken

theorem readAll_live {key : Key} (live : ∀ e ∈ items, LiveEntry s key e) :
    (readAll (SecScan.readEntry s key keyRead) .endOfFile items).1.map Prod.fst = items.map (entryPk key) := by
  rw [Base.readAll_ok HaCode.endOfFile fun e mem =>
    readEntry_of_live keyRead (live e mem), List.map_map]
  rfl

theorem readLast_live {key : Key} (live : ∀ e ∈ items, LiveEntry s key e) :
    (readFrom (ScanStart.last.read s key keyRead) (SecScan.readEntry s key keyRead) .endOfFile items).1.map Prod.fst =
      items.map (entryPk key) := by
  cases items with
  | nil => rfl
  | cons e rest =>
    rw [forall_mem_cons] at live
    obtain ⟨record, has⟩ := hasKey_iff.mp live.1.2
    have first : ScanStart.last.read s key keyRead e = .ok (entryPk key e, record) := by
      rw [ScanStart.read, if_pos live.1.1, fetchRowByPk, lookup_eq_some.mpr has]
      rfl
    simp only [readFrom, first, map_cons, readAll_live keyRead live.2]

end

theorem ended {start : Except HaCode Row × SecScan} {a : List Row × Option HaCode} {c : HaCode}
    (code : a.2 = some c ∨ ∃ code, start.1 = .error code ∧ a.2 = some code) : ∃ code, a.2 = some code := by
  rcases code with code | ⟨other, -, code⟩
  · exact ⟨c, code⟩
  · exact ⟨other, code⟩

theorem run_eq (mirrored : Mirrored T residue s) (of_table : (ActiveIndex.secondary i ix).Of T)
    (keyRead : Bytes → Option Record) (check : Bytes → CheckResult) {scan : IcpScan} (placed : scan.Placed (s.index i)) :
    (scan.run T s i ix keyRead check).1.map Prod.fst = (scan.kept ix.key check T (s.index i)).map (entryPk ix.key) ∧
    ∃ code, (scan.run T s i ix keyRead check).2 = some code := by
  have live : ∀ e ∈ scan.kept ix.key check T (s.index i), LiveEntry s ix.key e := by
    intro e mem
    have met := (kept_sublist ix.key check T (s.index i) scan).subset mem
    exact (entry_row mirrored of_table (mem_of_ahead placed met)).1
  have size := kept_length placed ix.key check T
  cases scan with
  | readMap flag comp =>
    obtain ⟨rows, code⟩ := Base.collectFrom_eq (move_reads _)
      (readMap_opens (s.index i) T s ix.key keyRead check flag comp) size
    rw [Base.readFrom_self] at rows
    exact ⟨(congrArg _ rows).trans (readAll_live keyRead live), ended code⟩
  | first =>
    obtain ⟨rows, code⟩ := Base.collectFrom_eq (move_reads .next)
      (first_opens (s.index i) T s ix.key keyRead check) size
    rw [Base.readFrom_self] at rows
    exact ⟨(congrArg _ rows).trans (readAll_live keyRead live), ended code⟩
  | last =>
    obtain ⟨rows, code⟩ := Base.collectFrom_eq (move_reads .prev) (last_opens (s.index i) T s ix.key keyRead check) size
    exact ⟨(congrArg _ rows).trans (readLast_live keyRead live), ended code⟩
  | resume move place =>
    have items : todo ix.key check move place = (IcpScan.resume move place).kept ix.key check T (s.index i) := by
      cases move <;> rfl
    have rows : collect (moveCall s ix.key keyRead check move) ((s.index i).size + 1) place =
        ((readAll (SecScan.readEntry s ix.key keyRead) .endOfFile (todo ix.key check move place)).1,
          some (readAll (SecScan.readEntry s ix.key keyRead) .endOfFile (todo ix.key check move place)).2) := by
      refine Base.collect_eq_readAll (move_reads move) trivial ?_
      rw [items]
      omega
    rw [items] at rows
    rw [run, rows]
    exact ⟨readAll_live keyRead live, _, rfl⟩

end

theorem kept_eq {T : Schema} {m : SortedMap Bytes Bytes} {key : Key} (check : Bytes → CheckResult) {scan : IcpScan}
    (not_last : scan ≠ .last) (long : ∀ e ∈ scan.ahead T m, comparableKeyLength key.parts < e.1.length) :
    scan.kept key check T m =
      sift (fun e => decide (check e.1 = .neg)) (fun e => decide (check e.1 = .outOfRange)) (scan.range T m) := by
  have unfolded : scan.kept key check T m =
      sift (refused key check scan.guard) (ends key check scan.guard) (scan.ahead T m) := by
    cases scan with
    | last => exact absurd rfl not_last
    | readMap | first | resume => rfl
  have stops : (scan.ahead T m).takeWhile (fun e => !ends key check scan.guard e) =
      (scan.range T m).takeWhile fun e => !decide (check e.1 = .outOfRange) := by
    rw [range, takeWhile_takeWhile]
    refine Base.takeWhile_congr fun e mem => ?_
    simp [ends, long e mem, Bool.and_comm]
  rw [unfolded, sift, sift, stops]
  refine filter_congr fun e mem => ?_
  have in_range := (takeWhile_sublist _).subset mem
  have fits : scan.guard.all (Starts · e) = true :=
    mem_takeWhile_imp (p := fun e => scan.guard.all (Starts · e)) in_range
  have met := (takeWhile_sublist _).subset in_range
  simp [refused, fits, long e met]

end IcpScan

structure PushedCond where
  cond : (Nat → Option Bytes) → Bool
  beyond : (Nat → Option Bytes) → Bool

def icpColumns (T : Schema) (ix : Index) : List Nat := (ix.key.parts ++ T.pkKeyParts).map KeyPart.field

def LooksAt (columns : List Nat) (f : (Nat → Option Bytes) → Bool) : Prop :=
  ∀ g h, (∀ c ∈ columns, g c = h c) → f g = f h

structure PushedCond.Over (columns : List Nat) (push : PushedCond) : Prop where
  cond : LooksAt columns push.cond
  beyond : LooksAt columns push.beyond

/-- `idx_cond_push`: what the engine takes over. On the primary key it refuses, and the server keeps the
condition. -/
def idxCondPush : ActiveIndex → PushedCond → Option PushedCond
  | .primary _, _ => none
  | .secondary _ _, push => some push

section
variable (decode : Nat → Bytes → Option Bytes) (nullable : Nat → Bool) (T : Schema) (s : Table) (ix : Index)
  (record : Record) (push : PushedCond) (bufAt : Bytes → ColumnBuf) (ik : Bytes) (columns : Nat → Option Bytes)

def PushedCond.verdict : CheckResult :=
  if push.beyond columns then .outOfRange else if push.cond columns then .pos else .neg

def PushedCond.holds : Bool := !push.beyond columns && push.cond columns

/- The buffer after `deserialize_row`. -/
def recordBuf : ColumnBuf := ⟨fun c => (column record c).isNone, fun c => (column record c).getD []⟩

/-- `icp_check_secondary` on the entries of one table; `bufAt` is what the buffer holds before each check. -/
def icpVerdict : CheckResult :=
  icpCheckSecondary decode T ix (fun pk => (s.rows.lookup pk).map recordBuf) false
    (fun buf => push.beyond (buf.column nullable)) (fun buf => push.cond (buf.column nullable)) ik (bufAt ik)

end

section
variable {decode : Nat → Bytes → Option Bytes} {nullable : Nat → Bool} {T : Schema} {s : Table} {ix : Index}
  {push : PushedCond}

theorem verdict_congr (limited : push.Over (icpColumns T ix)) {g h : Nat → Option Bytes}
    (same : ∀ c ∈ icpColumns T ix, g c = h c) : push.verdict g = push.verdict h := by
  rw [PushedCond.verdict, PushedCond.verdict, limited.beyond g h same, limited.cond g h same]

variable {bufAt : Bytes → ColumnBuf}

theorem icpVerdict_decoded (push : PushedCond) {ik : Bytes} {buf : ColumnBuf}
    (decoded : icpDecode decode T ix ik (bufAt ik) = some buf) :
    icpVerdict decode nullable T s ix push bufAt ik = push.verdict (buf.column nullable) := by
  simp [icpVerdict, icpCheckSecondary, decoded, PushedCond.verdict]

theorem icpVerdict_fetched (push : PushedCond) {e : Bytes × Bytes}
    (live : LiveEntry s ix.key e) (failed : icpDecode decode T ix e.1 (bufAt e.1) = none) :
    icpVerdict decode nullable T s ix push bufAt e.1 =
      push.verdict ((recordBuf (entryRow s ix.key e).2).column nullable) := by
  obtain ⟨record, has⟩ := hasKey_iff.mp live.2
  have found := lookup_eq_some.mpr has
  simp [icpVerdict, icpCheckSecondary, failed, live.1, found, entryRow, PushedCond.verdict]

theorem icpVerdict_right (limited : push.Over (icpColumns T ix)) {e : Bytes × Bytes} (live : LiveEntry s ix.key e)
    (null_fits : ∀ c ∈ icpColumns T ix, column (entryRow s ix.key e).2 c = none → nullable c = true)
    (shown : ∀ buf, icpDecode decode T ix e.1 (bufAt e.1) = some buf → ∀ c ∈ icpColumns T ix, buf.column nullable c = column (entryRow s ix.key e).2 c) :
    icpVerdict decode nullable T s ix push bufAt e.1 = push.verdict (column (entryRow s ix.key e).2) := by
  cases decoded : icpDecode decode T ix e.1 (bufAt e.1) with
  | some buf =>
    rw [icpVerdict_decoded push decoded]
    exact verdict_congr limited (shown buf decoded)
  | none =>
    rw [icpVerdict_fetched push live decoded]
    apply verdict_congr limited
    intro c listed
    have fits := null_fits c listed
    unfold ColumnBuf.column recordBuf
    cases value : column (entryRow s ix.key e).2 c with
    | none => simp [value, fits value]
    | some v => simp [value]

end

/-- The scan returns the rows of its range that satisfy the condition and the end range, in their order and
each once. -/
def FilterExact (T : Schema) (s : Table) (i : Nat) (ix : Index) (push : PushedCond) (scan : IcpScan)
    (result : List Row × Option HaCode) : Prop :=
  result.1.map Prod.fst =
    ((scan.range T (s.index i)).filter fun e => push.holds (column (entryRow s ix.key e).2)).map (entryPk ix.key) ∧
  ∃ code, result.2 = some code

def PushedCond.Closes (push : PushedCond) (s : Table) (ix : Index) (range : List (Bytes × Bytes)) : Prop :=
  range.Pairwise fun a b => push.beyond (column (entryRow s ix.key a).2) = true →
    push.beyond (column (entryRow s ix.key b).2) = true

def PushedCond.plain (cond : (Nat → Option Bytes) → Bool) : PushedCond := ⟨cond, fun _ => false⟩

/-- Every condition that `idx_cond_push` takes is honoured by the scan. -/
def CondHonoured (decode : Nat → Bytes → Option Bytes) (nullable : Nat → Bool) (T : Schema) (s : Table) (i : Nat)
    (ix : Index) (scan : IcpScan) : Prop :=
  ∀ push kept bufAt keyRead, idxCondPush (.secondary i ix) push = some kept → push.Over (icpColumns T ix) →
    push.Closes s ix (scan.range T (s.index i)) →
    FilterExact T s i ix push scan (scan.run T s i ix keyRead (icpVerdict decode nullable T s ix kept bufAt))

section
variable {decode : Nat → Bytes → Option Bytes} {values : Nat → Set Bytes} {fullLength : Nat → Nat}
  {nullable : Nat → Bool} {T : Schema} {residue : Nat → Bytes → Residue} {s : Table} {i : Nat} {ix : Index}
  {scan : IcpScan}

theorem filter_of_verdicts {push : PushedCond} {check : Bytes → CheckResult}
    (right : ∀ e ∈ scan.range T (s.index i), check e.1 = push.verdict (column (entryRow s ix.key e).2))
    (closes : push.Closes s ix (scan.range T (s.index i))) :
    sift (fun e => decide (check e.1 = .neg)) (fun e => decide (check e.1 = .outOfRange)) (scan.range T (s.index i)) =
      (scan.range T (s.index i)).filter fun e => push.holds (column (entryRow s ix.key e).2) := by
  have same : ∀ e ∈ scan.range T (s.index i),
      decide (check e.1 = .neg) =
        (!push.beyond (column (entryRow s ix.key e).2) && !push.cond (column (entryRow s ix.key e).2)) ∧
      decide (check e.1 = .outOfRange) = push.beyond (column (entryRow s ix.key e).2) := by
    intro e mem
    rw [right e mem, PushedCond.verdict]
    cases push.beyond (column (entryRow s ix.key e).2) <;> cases push.cond (column (entryRow s ix.key e).2) <;> decide
  rw [Base.sift_congr same, Base.sift_eq_filter closes]
  refine filter_congr fun e _ => ?_
  rw [PushedCond.holds]
  cases push.beyond (column (entryRow s ix.key e).2) <;> simp

section
variable (mirrored : Mirrored T residue s) (of_table : (ActiveIndex.secondary i ix).Of T)
include mirrored of_table

theorem run_rows (placed : scan.Placed (s.index i)) (not_last : scan ≠ .last) (keyRead : Bytes → Option Record)
    (check : Bytes → CheckResult) : (scan.run T s i ix keyRead check).1.map Prod.fst =
      (sift (fun e => decide (check e.1 = .neg)) (fun e => decide (check e.1 = .outOfRange))
        (scan.range T (s.index i))).map (entryPk ix.key) := by
  rw [(IcpScan.run_eq mirrored of_table keyRead check placed).1, IcpScan.kept_eq check not_last]
  intro e met
  exact (entry_row mirrored of_table (IcpScan.mem_of_ahead placed met)).1.1

theorem honoured_shows (placed : scan.Placed (s.index i)) (not_last : scan ≠ .last)
    (honoured : CondHonoured decode nullable T s i ix scan) {e : Bytes × Bytes} (met : e ∈ scan.range T (s.index i))
    {buf buf' : ColumnBuf} (decoded : icpDecode decode T ix e.1 buf = some buf') :
    ∀ c ∈ icpColumns T ix, buf'.column nullable c = column (entryRow s ix.key e).2 c := by
  by_contra differ
  have state : Orphaned T residue s i ix := mirrored.orphaned of_table fun _ mem => mem
  have live := (entry_row mirrored of_table (IcpScan.mem_of_range placed met)).1
  have limited : (PushedCond.plain fun g => decide (∀ c ∈ icpColumns T ix, g c = column (entryRow s ix.key e).2 c)).Over
      (icpColumns T ix) := by
    refine ⟨fun g h same => decide_eq_decide.mpr ?_, fun _ _ _ => rfl⟩
    exact forall₂_congr fun c listed => by rw [same c listed]
  have closes : (PushedCond.plain fun g => decide (∀ c ∈ icpColumns T ix, g c = column (entryRow s ix.key e).2 c)).Closes
      s ix (scan.range T (s.index i)) := pairwise_of_forall fun _ _ beyond => beyond
  obtain ⟨rows, -⟩ := honoured _ _ (fun _ => buf) (fun _ => none) rfl limited closes
  rw [run_rows mirrored of_table placed not_last] at rows
  have owed : entryPk ix.key e ∈ ((scan.range T (s.index i)).filter fun x =>
      (PushedCond.plain fun g => decide (∀ c ∈ icpColumns T ix, g c = column (entryRow s ix.key e).2 c)).holds
        (column (entryRow s ix.key x).2)).map (entryPk ix.key) := by
    refine mem_map_of_mem (mem_filter.mpr ⟨met, ?_⟩)
    simp [PushedCond.holds, PushedCond.plain]
  rw [← rows] at owed
  obtain ⟨other, kept, same⟩ := mem_map.mp owed
  have other_here := IcpScan.mem_of_range placed (Base.sift_subset kept)
  obtain rfl := state.entry_unique (IcpScan.mem_of_range placed met) other_here live.2 same.symm
  have passed := of_mem_filter kept
  dsimp only at passed
  rw [icpVerdict_decoded _ decoded] at passed
  simp [PushedCond.verdict, PushedCond.plain, differ] at passed

/- `index_last` returns the last row whatever the condition. -/
theorem last_not_honoured (honoured : CondHonoured decode nullable T s i ix .last) : (s.index i).entries = [] := by
  obtain ⟨rows, -⟩ := honoured (PushedCond.plain fun _ => false) _ (fun _ => blankBuf) (fun _ => none) rfl
    ⟨fun _ _ _ => rfl, fun _ _ _ => rfl⟩ (pairwise_of_forall fun _ _ beyond => beyond)
  rw [(IcpScan.run_eq mirrored of_table _ _ (show IcpScan.last.Placed (s.index i) from trivial)).1] at rows
  have none_owed : (IcpScan.last.range T (s.index i)).filter (fun e =>
      (PushedCond.plain fun _ => false).holds (column (entryRow s ix.key e).2)) = [] := by
    simp [PushedCond.holds, PushedCond.plain]
  rw [none_owed, map_nil, map_eq_nil_iff] at rows
  cases entries : (s.index i).entries.reverse with
  | nil => exact reverse_eq_nil_iff.mp entries
  | cons e rest =>
    rw [IcpScan.kept, entries] at rows
    cases rows

end

/-- A pushed condition is honoured unless the scan starts with `index_last` or an entry is decoded
whose parts the walk misses. -/
theorem pushed_condition_iff (decode : Nat → Bytes → Option Bytes) (values : Nat → Set Bytes) (fullLength : Nat → Nat)
    (nullable : Nat → Bool) (T : Schema) (residue : Nat → Bytes → Residue) (s : Table) (i : Nat) (ix : Index)
    (scan : IcpScan) (inverts : Inverts decode values fullLength (ix.key.parts ++ T.pkKeyParts))
    (stored : ∀ row ∈ s.rows.entries, StoredFor values nullable (ix.key.parts ++ T.pkKeyParts) row.2)
    (null_fits : ∀ row ∈ s.rows.entries, ∀ c ∈ icpColumns T ix, column row.2 c = none → nullable c = true)
    (mirrored : Mirrored T residue s) (of_table : (ActiveIndex.secondary i ix).Of T) (placed : scan.Placed (s.index i)) :
    CondHonoured decode nullable T s i ix scan ↔ (scan = .last → (s.index i).entries = []) ∧
      ∀ e ∈ scan.range T (s.index i), ∀ buf buf', icpDecode decode T ix e.1 buf = some buf' →
        DecodesRight decode fullLength T ix e.1 (entryRow s ix.key e).2 (icpColumns T ix) := by
  have shown_iff : ∀ e ∈ scan.range T (s.index i), ∀ buf buf', icpDecode decode T ix e.1 buf = some buf' →
      ((∀ c ∈ icpColumns T ix, buf'.column nullable c = column (entryRow s ix.key e).2 c) ↔
        DecodesRight decode fullLength T ix e.1 (entryRow s ix.key e).2 (icpColumns T ix)) := by
    intro e met buf buf' decoded
    rw [icpDecode_eq] at decoded
    have row := (entry_row mirrored of_table (IcpScan.mem_of_range placed met)).2.1
    exact applied_faithful_iff inverts (stored _ row) (fun c listed => mem_map.mp listed) (fun _ _ => rfl) decoded
  constructor
  · intro honoured
    by_cases last : scan = .last
    · subst last
      have empty := last_not_honoured mirrored of_table honoured
      refine ⟨fun _ => empty, fun e met => ?_⟩
      have here := IcpScan.mem_of_range placed met
      rw [empty] at here
      cases here
    · refine ⟨fun bad => absurd bad last, fun e met buf buf' decoded => ?_⟩
      exact (shown_iff e met buf buf' decoded).mp (honoured_shows mirrored of_table placed last honoured met decoded)
  · rintro ⟨not_last, right⟩ push kept bufAt keyRead taken limited closes
    cases taken
    obtain ⟨-, ends⟩ := IcpScan.run_eq mirrored of_table keyRead (icpVerdict decode nullable T s ix push bufAt) placed
    refine ⟨?_, ends⟩
    by_cases last : scan = .last
    · subst last
      rw [(IcpScan.run_eq mirrored of_table keyRead _ placed).1]
      simp [IcpScan.kept, IcpScan.range, IcpScan.ahead, not_last rfl, sift]
    · have verdicts : ∀ e ∈ scan.range T (s.index i), icpVerdict decode nullable T s ix push bufAt e.1 =
          push.verdict (column (entryRow s ix.key e).2) := by
        intro e met
        obtain ⟨live, row, -⟩ := entry_row mirrored of_table (IcpScan.mem_of_range placed met)
        refine icpVerdict_right limited live (null_fits _ row) fun buf decoded => ?_
        exact (shown_iff e met _ _ decoded).mpr (right e met _ _ decoded)
      rw [run_rows mirrored of_table placed last, filter_of_verdicts verdicts closes]

end

theorem none_inverts (parts : List KeyPart) : Inverts (fun _ _ => none) (fun _ => Set.univ) (fun _ => 1) parts := by
  intro kp _ _ v _ src w _ decoded
  cases decoded

theorem twoSizes_stored : ∀ row ∈ twoSizes.rows.entries,
    StoredFor (fun _ => Set.univ) (fun _ => false) (bySize.key.parts ++ sized.pkKeyParts) row.2 :=
  fun _ _ => ⟨by decide, fun _ _ _ _ => trivial⟩

theorem bySize_undecoded (ik : Bytes) (buf : ColumnBuf) : icpDecode (fun _ _ => none) sized bySize ik buf = none := by
  cases ik with
  | nil | cons => rfl

theorem pushed_condition_forward : CondHonoured (fun _ _ => none) (fun _ => false) sized twoSizes 0 bySize .first := by
  refine (pushed_condition_iff (fun _ _ => none) (fun _ => Set.univ) (fun _ => 1) (fun _ => false) sized (fun _ _ _ => 0)
    twoSizes 0 bySize .first (none_inverts _) twoSizes_stored (by decide) twoSizes_mirrored ⟨rfl, false, rfl⟩ trivial).mpr
    ⟨?_, fun e _ buf buf' decoded => ?_⟩
  · intro last
    cases last
  · rw [bySize_undecoded] at decoded
    cases decoded

/-- `index_last` returns the row (2, 6) although no row satisfies the condition. -/
theorem index_last_ignores_condition :
    ¬ ∀ (decode : Nat → Bytes → Option Bytes) (values : Nat → Set Bytes) (fullLength : Nat → Nat) (nullable : Nat → Bool)
      (T : Schema) (residue : Nat → Bytes → Residue) (s : Table) (i : Nat) (ix : Index) (scan : IcpScan),
      Inverts decode values fullLength (ix.key.parts ++ T.pkKeyParts) →
      (∀ row ∈ s.rows.entries, StoredFor values nullable (ix.key.parts ++ T.pkKeyParts) row.2) →
      (∀ row ∈ s.rows.entries, ∀ c ∈ icpColumns T ix, column row.2 c = none → nullable c = true) →
      Mirrored T residue s → (ActiveIndex.secondary i ix).Of T → scan.Placed (s.index i) →
      CondHonoured decode nullable T s i ix scan := by
  intro claim
  have honoured := claim (fun _ _ => none) (fun _ => Set.univ) (fun _ => 1) (fun _ => false) sized (fun _ _ _ => 0) twoSizes
    0 bySize .last (none_inverts _) twoSizes_stored (by decide) twoSizes_mirrored ⟨rfl, false, rfl⟩ trivial
  have empty := last_not_honoured twoSizes_mirrored ⟨rfl, false, rfl⟩ honoured
  have some_entry : (twoSizes.index 0).entries ≠ [] := by decide
  exact some_entry empty

end TidesdbMysql
