import TidesdbMysql.Table.Reader
import TidesdbMysql.Table.Reverse

/-! When the end of a scan is reported, while any engine call may fail. -/
namespace TidesdbMysql

open Base (Bytes SortedMap Starts Iter Prog Service sift)
open SecScan Reader Base.Iter PkScan
open List Option Base.SortedMap

variable {rest : List (Bytes × Bytes)} {it : Iter (Bytes × Bytes)} {flag : FindFlag} {current upper : Bytes}
  {T : Schema} {D : Type}

namespace Reader

variable {V R : Type} {m : SortedMap Bytes V} {rows : SortedMap Bytes Record}
variable {p : Reader V Record (Answer Row)}

theorem quiet_fetch (s : Table) (pk : Bytes) (m : SortedMap Bytes V) (it : Iter (Bytes × V)) :
    ((fetchRowByPk pk).quiet (readService m s.rows) it).1 = some (TidesdbMysql.fetchRowByPk s pk) := by
  unfold fetchRowByPk TidesdbMysql.fetchRowByPk
  rw [quiet_get]
  cases s.rows.lookup pk with
  | none | some => rfl

def Finds (m : SortedMap Bytes V) (rows : SortedMap Bytes Record) (p : Reader V Record (Answer Row)) (it : Iter (Bytes × V)) :
    Prop :=
  ∃ row, (p.quiet (readService m rows) it).1 = some (.ok row)

theorem finds_ensure (opened : Bool) {it : Iter (Bytes × V)} (found : Finds m rows p (if opened then it else none)) :
    Finds m rows (ensureScanIter opened p) it := by
  cases opened with
  | true | false => exact found

section Data

variable {m : SortedMap Bytes Record}

variable {it : Iter (Bytes × Record)}

theorem iterReadCurrent_finds {turns : Nat} (enough : it.forward.length < turns)
    (ahead : ∃ e ∈ it.forward, isDataKey e.1 = true) : Finds m rows (iterReadCurrent turns) it := by
  induction turns generalizing it with
  | zero => cases enough
  | succ turns ih =>
    cases it with
    | none =>
      obtain ⟨e, none_there, -⟩ := ahead
      cases none_there
    | some p =>
      have unfolded : (iterReadCurrent (turns + 1)).quiet (readService m rows) (some p) =
          (if isDataKey p.here.1 = true then pure (some (.ok (rowOf p.here)))
            else move .next >>= fun _ => iterReadCurrent turns).quiet
              (readService m rows) (some p) := rfl
      rw [Finds, unfolded]
      by_cases here : isDataKey p.here.1 = true
      · rw [if_pos here]
        exact ⟨rowOf p.here, rfl⟩
      · rw [if_neg here]
        have later : Finds m rows (iterReadCurrent turns) (next (some p)) := by
          obtain ⟨e, mem, data⟩ := ahead
          refine ih ?_ ⟨e, ?_, data⟩
          · rw [forward_next, length_tail]
            have bound : 0 < (forward (some p)).length := Nat.succ_pos _
            omega
          · rw [forward_next]
            rcases mem_cons.mp mem with rfl | rest
            · exact absurd data here
            · exact rest
        exact later

theorem iterReadCurrent_here {turns : Nat} {e : Bytes × Record} (here : it.item = some e)
    (data : isDataKey e.1 = true) (enough : it.forward.length < turns) : Finds m rows (iterReadCurrent turns) it := by
  refine iterReadCurrent_finds enough ⟨e, ?_, data⟩
  rw [item_eq_head] at here
  exact mem_of_mem_head? here

theorem iterReadBack_finds {reads turns : Nat} (on : it.On m.entries) (room : m.size < reads)
    (enough : it.backward.length < turns) (behind : ∃ e ∈ it.backward, isDataKey e.1 = true) :
    Finds m rows (iterReadBack reads turns) it := by
  induction turns generalizing it with
  | zero => cases enough
  | succ turns ih =>
    cases it with
    | none =>
      obtain ⟨e, none_there, -⟩ := behind
      cases none_there
    | some p =>
      have unfolded : (iterReadBack reads (turns + 1)).quiet (readService m rows) (some p) =
          (if isDataKey p.here.1 = true then iterReadCurrent reads
            else move .prev >>= fun _ => iterReadBack reads turns).quiet
              (readService m rows) (some p) := rfl
      rw [Finds, unfolded]
      by_cases here : isDataKey p.here.1 = true
      · rw [if_pos here]
        refine iterReadCurrent_here (e := p.here) rfl here ?_
        exact lt_of_le_of_lt on.forward_suffix.length_le room
      · rw [if_neg here]
        have later : Finds m rows (iterReadBack reads turns) (prev (some p)) := by
          obtain ⟨e, mem, data⟩ := behind
          refine ih on.prev ?_ ⟨e, ?_, data⟩
          · rw [backward_prev, length_tail]
            have bound : 0 < (backward (some p)).length := Nat.succ_pos _
            omega
          · rw [backward_prev]
            rcases mem_cons.mp mem with rfl | rest
            · exact absurd data here
            · exact rest
        exact later

end Data

theorem finds_passKey {k : Bytes} {step : IterMove} {it : Iter (Bytes × V)}
    (found : Finds m rows p (if it.item.map Prod.fst = some k then step.apply m it else it)) :
    Finds m rows (passKey k step p) it := by
  cases it with
  | none => exact found
  | some spot =>
    have unfolded : (passKey k step p).quiet (readService m rows) (some spot) =
        (if spot.here.1 = k then move step >>= fun _ => p else p).quiet (readService m rows) (some spot) := rfl
    have key_here : (item (some spot)).map Prod.fst = some k ↔ spot.here.1 = k := by
      rw [item, map_some, map_some, some.injEq]
    rw [Finds, unfolded]
    by_cases same : spot.here.1 = k
    · rw [if_pos same]
      rw [if_pos (key_here.mpr same)] at found
      exact found
    · rw [if_neg same]
      rw [if_neg fun here => same (key_here.mp here)] at found
      exact found

theorem finds_guardGroup {k : Bytes} {it : Iter (Bytes × V)} {e : Bytes × V} (here : it.item = some e)
    (inside : k <+: e.1) (found : Finds m rows p it) : Finds m rows (guardGroup k p) it := by
  cases it with
  | none => cases here
  | some spot =>
    cases here
    have unfolded : (guardGroup k p).quiet (readService m rows) (some spot) =
        (if k <+: spot.here.1 then p else fail .keyNotFound).quiet (readService m rows) (some spot) := rfl
    rw [Finds, unfolded, if_pos inside]
    exact found

end Reader

section Primary

def padded (width : Nat) (comp : Bytes) : Bytes := comp ++ List.replicate (width - comp.length) keyInfHiByte

def FindFlag.Seeks (width : Nat) (flag : FindFlag) (comp k : Bytes) : Prop :=
  match flag with
  | .keyExact => if width ≤ comp.length then k = comp else comp <+: k
  | .keyOrNext | .other => comp ≤ k
  | .afterKey => comp < k
  | .keyOrPrev | .prefixLastOrPrev => k ≤ padded width comp
  | .beforeKey => k < comp
  | .prefixLast => comp <+: k ∧ k ≤ padded width comp

structure PkState {D : Type} (family rows : SortedMap Bytes D) where
  opened : Bool
  place : Iter (Bytes × D)
  on : place.On family.entries
  dir : ScanDir
  exactDone : Bool
  currentPk : Bytes
  there : exactDone = true → rows.HasKey currentPk
  searchComp : Bytes

inductive PkCall where
  | rndNext
  | readMap (flag : FindFlag) (comp : Bytes)
  | next
  | prev
  | first
  | last
  | nextSame

namespace PkCall

variable {D : Type} (width : Nat) {family rows : SortedMap Bytes D} (st : PkState family rows)

def prog : PkCall → Reader D D (Answer (Bytes × D))
  | .rndNext => Reader.rndNext st.dir (family.size + 1)
  | .readMap flag comp => Reader.pkReadMap width st.opened flag comp (family.size + 1)
  | .next => Reader.pkNext st.opened st.exactDone st.currentPk st.dir (family.size + 1)
  | .prev => Reader.pkPrev st.opened st.exactDone st.currentPk (family.size + 1)
  | .first => Reader.pkFirst st.opened (family.size + 1)
  | .last => Reader.pkLast st.opened (family.size + 1)
  | .nextSame => Reader.pkNextSame width st.opened st.searchComp (family.size + 1)

def Further : PkCall → Prop
  | .rndNext => ∃ e ∈ (if st.dir = .none then st.place else st.place.next).forward, isDataKey e.1 = true
  | .readMap flag comp => ∃ row ∈ rows.entries, flag.Seeks width comp row.1
  | .next =>
    if st.exactDone then ∃ row ∈ rows.entries, st.currentPk < row.1
    else st.opened = true ∧ ∃ e ∈ (if st.dir = .none then st.place else st.place.next).forward, isDataKey e.1 = true
  | .prev =>
    if st.exactDone then ∃ row ∈ rows.entries, row.1 < st.currentPk
    else st.opened = true ∧ ∃ e ∈ st.place.prev.backward, isDataKey e.1 = true
  | .first | .last => ∃ row, row ∈ rows.entries
  | .nextSame => st.searchComp.length < width ∧ st.opened = true ∧
      ∃ e ∈ st.place.next.item, isDataKey e.1 = true ∧ st.searchComp <+: e.1.drop 1

end PkCall

namespace Reader

variable (metas : SortedMap Bytes Bytes) {s : Table}

variable {it : Iter (Bytes × Record)} {comp : Bytes} {row : Row}

variable (s) in
abbrev ReadsRow (it : Iter (Bytes × Record)) : Prop :=
  Finds (dataFamily metas s.rows) s.rows (iterReadCurrent ((dataFamily metas s.rows).size + 1)) it

variable {metas} in
theorem read_finds (on : it.On (dataFamily metas s.rows).entries) (ahead : ∃ e ∈ it.forward, isDataKey e.1 = true) :
    ReadsRow metas s it :=
  iterReadCurrent_finds (Nat.lt_succ_of_le on.forward_suffix.length_le) ahead

variable {metas} in
theorem back_finds (on : it.On (dataFamily metas s.rows).entries) (behind : ∃ e ∈ it.backward, isDataKey e.1 = true) :
    Finds (dataFamily metas s.rows) s.rows
      (iterReadBack ((dataFamily metas s.rows).size + 1) ((dataFamily metas s.rows).size + 1)) it := by
  refine iterReadBack_finds on (Nat.lt_succ_self _) (Nat.lt_succ_of_le ?_) behind
  have short := on.backward_suffix.length_le
  rw [length_reverse] at short
  exact short

variable {metas} in
theorem read_row_behind (on : it.On (dataFamily metas s.rows).entries) {down : List Row}
    {rest : List (Bytes × Record)} (behind : it.backward = down.map dataEntry ++ rest) (some_row : ∃ row, row ∈ down) :
    ReadsRow metas s it := by
  cases down with
  | nil =>
    obtain ⟨row, none_there⟩ := some_row
    cases none_there
  | cons row more =>
    have here : it.item = some (dataEntry row) := by
      rw [item_eq_head_backward, behind]
      rfl
    exact iterReadCurrent_here here rfl (Nat.lt_succ_of_le on.forward_suffix.length_le)

section
variable (mem : row ∈ s.rows.entries)
include mem

theorem seek_ahead (above : comp ≤ row.1) :
    dataEntry row ∈ ((dataFamily metas s.rows).iterSeek (buildDataKey comp)).forward := by
  rw [forward_iterSeek, seek_dataFamily]
  exact mem_map_of_mem (mem_seek.mpr ⟨mem, above⟩)

theorem seek_finds (above : comp ≤ row.1) :
    ReadsRow metas s ((dataFamily metas s.rows).iterSeek (buildDataKey comp)) :=
  read_finds (iterSeek_on _ _) ⟨_, seek_ahead metas mem above, rfl⟩

theorem seekForPrev_finds (below : row.1 ≤ upper) :
    ReadsRow metas s ((dataFamily metas s.rows).iterSeekForPrev (buildDataKey upper)) := by
  refine read_row_behind (iterSeekForPrev_on _ _) (backward_seek metas s upper) ⟨row, ?_⟩
  exact mem_reverse.mpr (mem_upTo.mpr ⟨mem, below⟩)

theorem seekForPrev_lands (below : row.1 ≤ upper) :
    ∃ last : Row, ((dataFamily metas s.rows).iterSeekForPrev (buildDataKey upper)).item = some (dataEntry last) ∧
      row.1 ≤ last.1 ∧ last.1 ≤ upper := by
  have there : row ∈ s.rows.upTo upper := mem_upTo.mpr ⟨mem, below⟩
  cases down : (s.rows.upTo upper).reverse with
  | nil =>
    rw [reverse_eq_nil_iff] at down
    rw [down] at there
    cases there
  | cons last rest =>
    have head : (s.rows.upTo upper).reverse.head? = some last := by
      rw [down]
      rfl
    obtain ⟨in_range, greatest⟩ := (Base.head?_reverse_eq_some_iff (s.rows.sorted.filter _)).mp head
    refine ⟨last, ?_, greatest row there, (mem_upTo.mp in_range).2⟩
    rw [item_eq_head_backward, backward_seek, down]
    rfl

end

theorem seekBack_finds {width : Nat} (backward : flag.isBackward = true) (mem : row ∈ s.rows.entries)
    (sought : flag.Seeks width comp row.1) (it : Iter (Bytes × Record)) :
    Finds (dataFamily metas s.rows) s.rows (pkSeekBack width flag comp ((dataFamily metas s.rows).size + 1)) it := by
  have no_pad : ¬ comp.length < width → padded width comp = comp := by
    intro full
    rw [padded, Nat.sub_eq_zero_of_le (not_lt.mp full), replicate_zero, append_nil]
  have below : row.1 ≤ padded width comp := by
    cases flag with
    | keyOrPrev | prefixLastOrPrev => exact sought
    | prefixLast => exact sought.2
    | beforeKey => exact sought.le.trans (Base.prefix_le (prefix_append comp _))
    | keyExact | keyOrNext | afterKey | other => cases backward
  unfold pkSeekBack
  by_cases part : comp.length < width
  · have landed := seekForPrev_finds metas mem below
    rw [if_pos part]
    by_cases last : flag = .prefixLast
    · subst last
      obtain ⟨found, here, low, high⟩ := seekForPrev_lands metas mem below
      have inside : comp <+: found.1 :=
        Base.prefix_of_between ((Base.prefix_le sought.1).trans low) high (prefix_append comp _)
      exact finds_guardGroup here ((prefix_cons_inj keyNsData).mpr inside) landed
    · rw [if_neg last]
      exact landed
  · rw [if_neg part]
    rw [no_pad part] at below
    by_cases before : flag = .beforeKey
    · subst before
      have on : (if ((dataFamily metas s.rows).iterSeekForPrev (buildDataKey comp)).item.map Prod.fst =
          some (buildDataKey comp) then ((dataFamily metas s.rows).iterSeekForPrev (buildDataKey comp)).prev
          else (dataFamily metas s.rows).iterSeekForPrev (buildDataKey comp)).On (dataFamily metas s.rows).entries := by
        split
        · exact (iterSeekForPrev_on _ _).prev
        · exact iterSeekForPrev_on _ _
      have found := read_row_behind on (backward_before metas s comp)
        ⟨row, mem_reverse.mpr (mem_before.mpr ⟨mem, sought⟩)⟩
      have passed : Finds (dataFamily metas s.rows) s.rows
          (passKey (buildDataKey comp) .prev (iterReadCurrent ((dataFamily metas s.rows).size + 1)))
          ((dataFamily metas s.rows).iterSeekForPrev (buildDataKey comp)) := finds_passKey found
      exact passed
    · rw [if_neg before]
      exact seekForPrev_finds metas mem below

theorem readMap_finds {width : Nat} (mem : row ∈ s.rows.entries) (sought : flag.Seeks width comp row.1)
    (opened : Bool) (it : Iter (Bytes × Record)) :
    Finds (dataFamily metas s.rows) s.rows (pkReadMap width opened flag comp ((dataFamily metas s.rows).size + 1)) it := by
  have forward : comp ≤ row.1 → ReadsRow metas s ((dataFamily metas s.rows).iterSeek (buildDataKey comp)) :=
    seek_finds metas mem
  unfold pkReadMap
  by_cases whole : flag = .keyExact ∧ width ≤ comp.length
  · rw [if_pos whole]
    obtain ⟨rfl, full⟩ := whole
    have same : row.1 = comp := (if_pos full).mp sought
    refine ⟨row, (quiet_fetch s comp _ it).trans (congrArg some ?_)⟩
    have found : s.rows.lookup comp = some row.2 := lookup_eq_some.mpr (same ▸ mem)
    rw [TidesdbMysql.fetchRowByPk, found, ← same]
  · rw [if_neg whole]
    apply finds_ensure
    cases flag with
    | keyExact =>
      have part : ¬ width ≤ comp.length := fun full => whole ⟨rfl, full⟩
      exact forward (Base.prefix_le ((if_neg part).mp sought))
    | keyOrNext | other => exact forward sought
    | afterKey =>
      -- only an entry with the search key is passed, and the row has another one
      have passed : Finds (dataFamily metas s.rows) s.rows
          (passKey (buildDataKey comp) .next (iterReadCurrent ((dataFamily metas s.rows).size + 1)))
          ((dataFamily metas s.rows).iterSeek (buildDataKey comp)) := by
        apply finds_passKey
        split
        · next here =>
          refine read_finds (iterSeek_on _ _).next ⟨dataEntry row, ?_, rfl⟩
          have there := seek_ahead metas mem sought.le
          change dataEntry row ∈ Iter.forward (Iter.next _)
          rw [forward_next]
          rw [item_eq_head] at here
          cases ahead : ((dataFamily metas s.rows).iterSeek (buildDataKey comp)).forward with
          | nil =>
            rw [ahead] at there
            cases there
          | cons e rest =>
            rw [ahead] at there here
            rcases mem_cons.mp there with rfl | later
            · have same : row.1 = comp := by simpa [dataEntry, buildDataKey] using here
              exact absurd sought (same ▸ lt_irrefl _)
            · exact later
        · exact forward sought.le
      exact passed
    | keyOrPrev | beforeKey | prefixLast | prefixLastOrPrev => exact seekBack_finds metas rfl mem sought _

theorem rndNext_finds {dir : ScanDir} (on : it.On (dataFamily metas s.rows).entries)
    (ahead : ∃ e ∈ (if dir = .none then it else it.next).forward, isDataKey e.1 = true) :
    Finds (dataFamily metas s.rows) s.rows (rndNext dir ((dataFamily metas s.rows).size + 1)) it := by
  unfold rndNext
  by_cases still : dir = .none
  · rw [if_pos still] at ahead ⊢
    exact read_finds on ahead
  · rw [if_neg still] at ahead ⊢
    exact read_finds on.next ahead

/- Going on from a row that was read by its key. -/

theorem seek_next_finds (there : s.rows.HasKey current) (mem : row ∈ s.rows.entries) (above : current < row.1) :
    ∃ spot, (dataFamily metas s.rows).iterSeek (buildDataKey current) = some spot ∧
      ReadsRow metas s (Iter.next (some spot)) := by
  have ahead := seek_ahead metas mem above.le
  cases place : (dataFamily metas s.rows).iterSeek (buildDataKey current) with
  | none =>
    rw [place] at ahead
    cases ahead
  | some spot =>
    have tail : (next (some spot)).forward = (s.rows.after current).map dataEntry := by
      rw [← place, forward_next, forward_iterSeek, seek_dataFamily, ← map_tail, seek_tail_of_hasKey there]
    refine ⟨spot, rfl, read_finds (place ▸ iterSeek_on _ _).next ⟨dataEntry row, ?_, rfl⟩⟩
    rw [tail]
    exact mem_map_of_mem (mem_after.mpr ⟨mem, above⟩)

theorem seek_prev_behind (there : s.rows.HasKey current) (mem : row ∈ s.rows.entries) (below : row.1 < current) :
    dataEntry row ∈ ((dataFamily metas s.rows).iterSeek (buildDataKey current)).prev.backward := by
  obtain ⟨now, now_member, rfl⟩ := there
  have ahead := seek_ahead metas now_member le_rfl
  rw [forward_iterSeek] at ahead
  rw [backward_prev_iterSeek (ne_nil_of_mem ahead), mem_reverse]
  refine mem_before.mpr ⟨?_, dataKey_lt.mpr below⟩
  exact mem_append_right _ (mem_map_of_mem mem)

end Reader

theorem PkCall.finds {metas : SortedMap Bytes Bytes} {s : Table} (width : Nat)
    (st : PkState (dataFamily metas s.rows) s.rows) {call : PkCall} (further : call.Further width st) :
    Reader.Finds (dataFamily metas s.rows) s.rows (call.prog width st) st.place := by
  cases call with
  | rndNext => exact rndNext_finds metas st.on further
  | readMap flag comp =>
    obtain ⟨row, mem, sought⟩ := further
    exact readMap_finds metas mem sought st.opened st.place
  | next =>
    unfold PkCall.Further at further
    unfold PkCall.prog
    apply finds_ensure
    cases exactly : st.exactDone with
    | true =>
      rw [exactly] at further
      obtain ⟨row, mem, above⟩ := further
      obtain ⟨spot, place, found⟩ := seek_next_finds metas (st.there exactly) mem above
      obtain ⟨r, found⟩ := found
      refine ⟨r, ?_⟩
      rw [if_pos rfl, quiet_move, IterMove.apply, place]
      exact found
    | false =>
      rw [exactly] at further
      obtain ⟨is_open, ahead⟩ := further
      rw [if_pos is_open]
      exact rndNext_finds metas st.on ahead
  | prev =>
    unfold PkCall.Further at further
    unfold PkCall.prog
    apply finds_ensure
    cases exactly : st.exactDone with
    | true =>
      rw [exactly] at further
      obtain ⟨row, mem, below⟩ := further
      exact back_finds (iterSeek_on _ _).prev ⟨_, seek_prev_behind metas (st.there exactly) mem below, rfl⟩
    | false =>
      rw [exactly] at further
      obtain ⟨is_open, behind⟩ := further
      rw [if_pos is_open]
      exact back_finds st.on.prev behind
  | first =>
    obtain ⟨row, mem⟩ := further
    apply finds_ensure
    exact seek_finds metas mem (Base.prefix_le nil_prefix)
  | last =>
    obtain ⟨row, mem⟩ := further
    have behind : dataEntry row ∈ (dataFamily metas s.rows).iterSeekToLast.backward := by
      rw [backward_iterSeekToLast, mem_reverse]
      exact mem_append_right _ (mem_map_of_mem mem)
    apply finds_ensure
    exact back_finds (iterSeekToLast_on _) ⟨_, behind, rfl⟩
  | nextSame =>
    obtain ⟨part, is_open, e, here, data, inside⟩ := further
    unfold PkCall.prog pkNextSame
    rw [if_neg (not_le.mpr part), is_open, if_pos rfl]
    have found := read_finds st.on.next ⟨e, mem_of_mem_head? (item_eq_head _ ▸ here), data⟩
    rw [Reader.Finds, quiet_move, IterMove.apply]
    cases place : st.place.next with
    | none =>
      rw [place] at here
      cases here
    | some spot =>
      rw [place] at here found
      cases here
      rw [quiet_valid, isSome_some, if_pos rfl, quiet_key]
      dsimp only
      rw [if_pos inside]
      exact found

theorem PkCall.shaped {family rows : SortedMap Bytes D} (width : Nat) (st : PkState family rows) (call : PkCall) :
    Reader.Shaped (call.prog width st) := by
  have read : Reader.Shaped (Reader.iterReadCurrent (D := D) (family.size + 1)) := Reader.iterReadCurrent_shaped _
  cases call with
  | rndNext => exact Reader.rndNext_shaped _ _
  | readMap flag comp => exact Reader.pkReadMap_shaped _ _ _ _ _
  | next => exact Reader.pkNext_shaped _ _ _ _ _
  | prev => exact Reader.pkPrev_shaped _ _ _ _
  | first =>
    apply Reader.shaped_ensure
    exact Reader.shaped_move fun _ => read
  | last =>
    apply Reader.shaped_ensure
    exact Reader.shaped_move fun _ => Reader.iterReadBack_shaped _ _
  | nextSame => exact Reader.pkNextSame_shaped _ _ _ _

end Primary

section Secondary

def Reader.Icp.check (s : Table) (width : Nat) (icp : Bytes → Reader.Icp Record) (ik : Bytes) : CheckResult :=
  match icp ik with
  | .decided result => result
  | .byRow verdict =>
    match s.rows.lookup (ik.drop width) with
    | some record => verdict record
    | none => .pos

namespace Reader

variable {s : Table} {m : SortedMap Bytes Bytes} {key : Key} {icp : Bytes → Icp Record} {keyRead : Bytes → Option Record}

theorem quiet_icpCheck {V R : Type} {m : SortedMap Bytes V} (width : Nat) (ik : Bytes)
    (next : CheckResult → Reader V Record (Answer R)) (it : Iter (Bytes × V)) :
    (icpCheck width icp ik next).quiet (readService m s.rows) it =
      (next (Icp.check s width icp ik)).quiet (readService m s.rows) it := by
  unfold icpCheck Icp.check
  cases icp ik with
  | decided result => rfl
  | byRow verdict =>
    rw [quiet_sideGet]
    cases s.rows.lookup (ik.drop width) with
    | none | some => rfl

theorem quiet_readEntry (e : Bytes × Bytes) (it : Iter (Bytes × Bytes)) :
    ((readEntry (comparableKeyLength key.parts) keyRead e.1).quiet (readService m s.rows) it).1 =
      some (SecScan.readEntry s key keyRead e) := by
  unfold readEntry SecScan.readEntry
  cases keyRead e.1 with
  | some record => rfl
  | none => exact quiet_fetch s _ m it

theorem quiet_passPrefix {comp : Bytes} {p : Reader Bytes Record (Answer Row)} {turns : Nat}
    (enough : it.forward.length < turns) : (passPrefix comp p turns).quiet (readService m s.rows) it =
      p.quiet (readService m s.rows) (it.nextWhile (Starts comp)) := by
  induction turns generalizing it with
  | zero => cases enough
  | succ turns ih =>
    cases it with
    | none => rfl
    | some spot =>
      have unfolded : (passPrefix comp p (turns + 1)).quiet (readService m s.rows) (some spot) =
          (if comp <+: spot.here.1 then move .next >>= fun _ => passPrefix comp p turns else p :
            Reader Bytes Record (Answer Row)).quiet (readService m s.rows) (some spot) := rfl
      rw [unfolded]
      by_cases starts : comp <+: spot.here.1
      · have shorter : (next (some spot)).forward.length < turns := by
          rw [forward_next, length_tail]
          have bound : 0 < (forward (some spot)).length := Nat.succ_pos _
          omega
        have here : Starts comp spot.here = true := decide_eq_true starts
        rw [if_pos starts, nextWhile_of_pos here]
        exact ih shorter
      · have stays : nextWhile (Starts comp) (some spot) = some spot := by
          refine nextWhile_of_item fun e here => ?_
          cases here
          exact decide_eq_false starts
        rw [if_neg starts, stays]

theorem quiet_secLoop (way : IterMove) {items : Iter (Bytes × Bytes) → List (Bytes × Bytes)}
    (head : ∀ it, it.item = (items it).head?) (step : ∀ it, items (way.apply m it) = (items it).tail)
    (guard : Option Bytes) (stop : HaCode) {turns : Nat} (enough : (items it).length < turns) {e : Bytes × Bytes}
    (todo : sift (SecScan.refused key (Icp.check s (comparableKeyLength key.parts) icp) guard)
      (SecScan.ends key (Icp.check s (comparableKeyLength key.parts) icp) guard) (items it) = e :: rest) :
    ((secLoop (comparableKeyLength key.parts) icp keyRead guard stop way turns).quiet (readService m s.rows) it).1 =
      some (SecScan.readEntry s key keyRead e) := by
  induction turns generalizing it with
  | zero => cases enough
  | succ turns ih =>
    cases it with
    | none =>
      have nothing : items none = [] := head?_eq_none_iff.mp (head none).symm
      rw [nothing] at todo
      cases todo
    | some spot =>
      obtain ⟨later, whole⟩ : ∃ later, items (some spot) = spot.here :: later := by
        have first := head (some spot)
        cases found : items (some spot) with
        | nil =>
          rw [found] at first
          cases first
        | cons x later =>
          rw [found] at first
          cases first
          exact ⟨later, rfl⟩
      have moved : items (way.apply m (some spot)) = later := by
        rw [step, whole, tail_cons]
      rw [whole, Base.sift_cons] at todo
      rw [whole, length_cons] at enough
      rw [secLoop, quiet_valid, isSome_some, if_pos rfl, quiet_key]
      dsimp only
      by_cases fits : (guard.all fun p => decide (p <+: spot.here.1)) = true ∧
          comparableKeyLength key.parts < spot.here.1.length
      · have inside : (guard.all (Starts · spot.here) && decide (comparableKeyLength key.parts < spot.here.1.length)) = true := by
          rw [Bool.and_eq_true, decide_eq_true_eq]
          exact fits
        rw [if_pos fits, quiet_icpCheck]
        cases verdict : Icp.check s (comparableKeyLength key.parts) icp spot.here.1 with
        | neg =>
          have refused : refused key (Icp.check s (comparableKeyLength key.parts) icp) guard spot.here = true := by
            simp [refused, inside, verdict]
          rw [refused_not_ends guard spot.here refused, if_neg Bool.false_ne_true, if_pos refused] at todo
          refine ih ?_ ?_
          · change (items (way.apply m (some spot))).length < turns
            rw [moved]
            omega
          · change sift _ _ (items (way.apply m (some spot))) = _
            rw [moved]
            exact todo
        | outOfRange =>
          have ended : ends key (Icp.check s (comparableKeyLength key.parts) icp) guard spot.here = true := by
            simp [ends, verdict]
          rw [if_pos ended] at todo
          cases todo
        | pos =>
          have open_end : ends key (Icp.check s (comparableKeyLength key.parts) icp) guard spot.here = false := by
            simp [ends, inside, verdict]
          have kept : refused key (Icp.check s (comparableKeyLength key.parts) icp) guard spot.here = false := by
            simp [refused, verdict]
          rw [open_end, kept, if_neg Bool.false_ne_true, if_neg Bool.false_ne_true] at todo
          cases todo
          exact quiet_readEntry spot.here (some spot)
      · have ended : ends key (Icp.check s (comparableKeyLength key.parts) icp) guard spot.here = true := by
          have outside : (guard.all (Starts · spot.here) &&
              decide (comparableKeyLength key.parts < spot.here.1.length)) = false := by
            rw [Bool.eq_false_iff, ne_eq, Bool.and_eq_true, decide_eq_true_eq]
            exact fits
          simp [ends, outside]
        rw [if_pos ended] at todo
        cases todo

end Reader

structure SecState (m : SortedMap Bytes Bytes) where
  opened : Bool
  place : Iter (Bytes × Bytes)
  on : place.On m.entries
  dir : ScanDir
  searchComp : Bytes

inductive SecCall where
  | readMap (flag : FindFlag) (comp : Bytes)
  | next
  | prev
  | first
  | last
  | nextSame

namespace SecCall

variable {D : Type} (T : Schema) (s : Table) (key : Key) {m : SortedMap Bytes Bytes} (st : SecState m)

def prog (icp : Bytes → Reader.Icp D) (keyRead : Bytes → Option D) (st : SecState m) :
    SecCall → Reader Bytes D (Answer (Bytes × D))
  | .readMap flag comp =>
    Reader.secReadMap (comparableKeyLength key.parts) icp keyRead st.opened (m.size + 1) T.pkKeyLen flag comp
  | .next => Reader.secNext (comparableKeyLength key.parts) icp keyRead st.opened (m.size + 1) st.dir
  | .prev => Reader.secPrev (comparableKeyLength key.parts) icp keyRead st.opened (m.size + 1)
  | .first => Reader.secFirst (comparableKeyLength key.parts) icp keyRead st.opened (m.size + 1)
  | .last => Reader.secLast (comparableKeyLength key.parts) st.opened
  | .nextSame => Reader.secNextSame (comparableKeyLength key.parts) icp keyRead st.opened (m.size + 1) st.searchComp

variable (icp : Bytes → Reader.Icp Record) (keyRead : Bytes → Option Record)

def accepted (guard : Option Bytes) (way : List (Bytes × Bytes)) : List (Bytes × Bytes) :=
  sift (SecScan.refused key (Reader.Icp.check s (comparableKeyLength key.parts) icp) guard)
    (SecScan.ends key (Reader.Icp.check s (comparableKeyLength key.parts) icp) guard) way

/-- The further entries. `index_last` has no regard for the condition. -/
def further (st : SecState m) : SecCall → List (Bytes × Bytes)
  | .readMap flag comp => accepted s key icp (if flag = .keyExact then some comp else none)
      (if flag.isBackward then (SecScan.startIter m T flag comp).backward else (SecScan.startIter m T flag comp).forward)
  | .next => if st.opened then accepted s key icp none (if st.dir = .none then st.place else st.place.next).forward else []
  | .prev => if st.opened then accepted s key icp none st.place.prev.backward else []
  | .first => accepted s key icp none m.entries
  | .last => m.entries.reverse
  | .nextSame => if st.opened then accepted s key icp (some st.searchComp) st.place.next.forward else []

def read (e : Bytes × Bytes) : SecCall → Except HaCode Row
  | .last =>
    if comparableKeyLength key.parts < e.1.length then fetchRowByPk s (e.1.drop (comparableKeyLength key.parts))
    else .error .endOfFile
  | _ => SecScan.readEntry s key keyRead e

end SecCall

namespace Reader

variable {s : Table} {m : SortedMap Bytes Bytes} {key : Key} {icp : Bytes → Icp Record} {keyRead : Bytes → Option Record}

theorem quiet_loop_next (on : it.On m.entries) (guard : Option Bytes) (stop : HaCode) {e : Bytes × Bytes}
    (todo : SecCall.accepted s key icp guard it.forward = e :: rest) :
    ((secLoop (comparableKeyLength key.parts) icp keyRead guard stop .next (m.size + 1)).quiet (readService m s.rows)
      it).1 = some (SecScan.readEntry s key keyRead e) :=
  quiet_secLoop .next item_eq_head forward_next guard stop (Nat.lt_succ_of_le on.forward_suffix.length_le) todo

theorem quiet_loop_prev (on : it.On m.entries) (guard : Option Bytes) (stop : HaCode) {e : Bytes × Bytes}
    (todo : SecCall.accepted s key icp guard it.backward = e :: rest) :
    ((secLoop (comparableKeyLength key.parts) icp keyRead guard stop .prev (m.size + 1)).quiet (readService m s.rows)
      it).1 = some (SecScan.readEntry s key keyRead e) := by
  have short := on.backward_suffix.length_le
  rw [length_reverse] at short
  exact quiet_secLoop .prev item_eq_head_backward backward_prev guard stop (Nat.lt_succ_of_le short) todo

theorem quiet_ensure {V R : Type} {m : SortedMap Bytes V} (rows : SortedMap Bytes Record) (opened : Bool)
    (p : Reader V Record (Answer R)) (it : Iter (Bytes × V)) : (ensureScanIter opened p).quiet (readService m rows) it =
      p.quiet (readService m rows) (if opened then it else none) := by
  cases opened with
  | true | false => rfl

end Reader

theorem SecCall.quiet_read {s : Table} {key : Key} {icp : Bytes → Reader.Icp Record} {keyRead : Bytes → Option Record}
    {m : SortedMap Bytes Bytes} (st : SecState m) {call : SecCall} {e : Bytes × Bytes}
    (more : call.further T s key icp st = e :: rest) :
    ((call.prog T key icp keyRead st).quiet (readService m s.rows) st.place).1 = some (call.read s key keyRead e) := by
  cases call with
  | readMap flag comp =>
    have on_seek := iterSeek_on m comp
    unfold prog secReadMap
    rw [quiet_ensure]
    cases flag with
    | keyExact | keyOrNext | other => exact quiet_loop_next on_seek _ _ more
    | afterKey =>
      have passed : (passPrefix comp (secLoop (comparableKeyLength key.parts) icp keyRead none .keyNotFound
          .next (m.size + 1)) (m.size + 1)).quiet (readService m s.rows) (m.iterSeek comp) = _ :=
        quiet_passPrefix (Nat.lt_succ_of_le on_seek.forward_suffix.length_le)
      exact (congrArg Prod.fst passed).trans (quiet_loop_next (on_seek.nextWhile _) _ _ more)
    | keyOrPrev | beforeKey | prefixLast | prefixLastOrPrev => exact quiet_loop_prev (iterSeekForPrev_on _ _) _ _ more
  | next =>
    unfold further at more
    unfold prog secNext
    rw [quiet_ensure]
    cases is_open : st.opened with
    | false =>
      rw [is_open] at more
      cases more
    | true =>
      rw [is_open, if_pos rfl] at more
      rw [if_pos rfl]
      by_cases still : st.dir = .none
      · rw [if_pos still] at more ⊢
        exact quiet_loop_next st.on _ _ more
      · rw [if_neg still] at more ⊢
        exact quiet_loop_next st.on.next _ _ more
  | prev =>
    unfold further at more
    unfold prog secPrev
    rw [quiet_ensure]
    cases is_open : st.opened with
    | false =>
      rw [is_open] at more
      cases more
    | true =>
      rw [is_open, if_pos rfl] at more
      exact quiet_loop_prev st.on.prev _ _ more
  | first =>
    unfold prog secFirst
    rw [quiet_ensure]
    have whole : accepted s key icp none m.iterSeekToFirst.forward = e :: rest := by
      rw [forward_iterSeekToFirst]
      exact more
    exact quiet_loop_next (iterSeekToFirst_on m) _ _ whole
  | last =>
    unfold prog secLast
    rw [quiet_ensure, quiet_move, IterMove.apply]
    have here : m.iterSeekToLast.item = some e := by
      rw [item_eq_head_backward, backward_iterSeekToLast]
      exact congrArg head? more
    cases place : m.iterSeekToLast with
    | none =>
      rw [place] at here
      cases here
    | some spot =>
      rw [place] at here
      cases here
      rw [quiet_valid, isSome_some, if_pos rfl, quiet_key]
      dsimp only [read]
      split
      · exact quiet_fetch s _ m (some spot)
      · rfl
  | nextSame =>
    unfold further at more
    unfold prog
    cases is_open : st.opened with
    | false =>
      rw [is_open] at more
      cases more
    | true =>
      rw [is_open, if_pos rfl] at more
      exact quiet_loop_next st.on.next _ _ more

theorem SecCall.shaped {key : Key} {icp : Bytes → Reader.Icp D} {keyRead : Bytes → Option D} {m : SortedMap Bytes Bytes}
    (st : SecState m) (call : SecCall) : Reader.Shaped (call.prog T key icp keyRead st) := by
  have loop : ∀ guard way, Reader.Shaped
      (secLoop (comparableKeyLength key.parts) icp keyRead guard .endOfFile way (m.size + 1)) :=
    fun guard way => secLoop_shaped _ _ _ guard (.inl rfl) way _
  cases call with
  | readMap flag comp =>
    have found : ∀ guard way, Reader.Shaped
        (secLoop (comparableKeyLength key.parts) icp keyRead guard .keyNotFound way (m.size + 1)) :=
      fun guard way => secLoop_shaped _ _ _ guard (.inr rfl) way _
    apply shaped_ensure
    cases flag with
    | keyExact | keyOrNext | other => exact shaped_move fun _ => found _ _
    | afterKey => exact shaped_move fun _ => passPrefix_shaped (found _ _) _
    | keyOrPrev | beforeKey | prefixLast | prefixLastOrPrev => exact shaped_move fun _ => found _ _
  | next =>
    apply shaped_ensure
    split
    · exact loop none .next
    · exact shaped_move fun _ => loop none .next
  | prev =>
    apply shaped_ensure
    exact shaped_move fun _ => loop none .prev
  | first =>
    apply shaped_ensure
    exact shaped_move fun _ => loop none .next
  | last =>
    apply shaped_ensure
    apply shaped_move
    intro _
    apply Reader.Shaped.valid
    intro here
    cases here with
    | false => exact shaped_end
    | true =>
      apply shaped_key
      intro answer
      cases answer with
      | error rc => exact shaped_end
      | ok ik =>
        dsimp only
        split
        · exact shaped_fetch _
        · exact shaped_end
  | nextSame => exact secNextSame_shaped _ _ _ _ _ _

end Secondary

end TidesdbMysql
