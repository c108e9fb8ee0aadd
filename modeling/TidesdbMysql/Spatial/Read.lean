import TidesdbMysql.Spatial.Search
import TidesdbMysql.Table.ReadErrors

/-! The reads of a spatial search as programs over the engine's calls. -/
namespace TidesdbMysql

open Base (Bytes SortedMap Iter Prog beBytes)
open Reader Base.Iter SpatialSearch

variable {A : Type} [LinearOrder A]

variable {D : Type}
variable {spot : Base.Spot (Bytes × Mbr A)} {it : Iter (Bytes × Mbr A)}

namespace Reader

def spatialTry (mode : MbrMode) (query : Mbr A) (pk : Bytes) (pass : Reader (Mbr A) D (Answer (Bytes × D))) :
    Reader (Mbr A) D (Answer (Bytes × D)) := do
  match ← iterValue with
  | .error _ => pass
  | .ok mbr =>
    if spatialMbrPredicate mode query mbr then
      match ← txnGet pk with
      | .ok record => pure (some (.ok (pk, record)))
      | .error rc => if rc = .notFound then pass else fail (tdbRcToHa rc)
    else pass

/- The inner loop of `spatial_scan_next`; `after` is what comes behind the range. -/
def spatialRange (mode : MbrMode) (query : Mbr A) (hi : Nat) (after : Reader (Mbr A) D (Answer (Bytes × D))) :
    Nat → Reader (Mbr A) D (Answer (Bytes × D))
  | 0 => pure none
  | turns + 1 => do
    if ← valid then
      match ← iterKey with
      | .error _ => after
      | .ok ik =>
        if ik.length ≤ spatialHilbertKeyLen then do
          let _ ← move .next
          spatialRange mode query hi after turns
        else if hi < decodeHilbertBe ik then after
        else spatialTry mode query (ik.drop spatialHilbertKeyLen) do
          let _ ← move .next
          spatialRange mode query hi after turns
    else after

def spatialScanNext (mode : MbrMode) (query : Mbr A) (turns : Nat) : List (Nat × Nat) → Reader (Mbr A) D (Answer (Bytes × D))
  | [] => fail .endOfFile
  | r :: more => spatialRange mode query r.2
      (match more with
      | [] => fail .endOfFile
      | next :: _ => do
        let _ ← move (.seek (beBytes 8 next.1))
        spatialScanNext mode query turns more) turns

section
variable (mode : MbrMode) (query : Mbr A) (opened : Bool) (dir : ScanDir) (turns : Nat) (ranges : List (Nat × Nat))

def spatialReadMap : Reader (Mbr A) D (Answer (Bytes × D)) :=
  ensureScanIter opened
    (match ranges with
    | [] => spatialScanNext mode query turns []
    | r :: more => do
      let _ ← move (.seek (beBytes 8 r.1))
      spatialScanNext mode query turns (r :: more))

def spatialNext : Reader (Mbr A) D (Answer (Bytes × D)) :=
  ensureScanIter opened
    (if dir = .none then spatialScanNext mode query turns ranges
    else do
      let _ ← move .next
      spatialScanNext mode query turns ranges)

def spatialNextSame : Reader (Mbr A) D (Answer (Bytes × D)) :=
  if opened then do
    let _ ← move .next
    spatialScanNext mode query turns ranges
  else fail .endOfFile

end

variable {mode : MbrMode} {query : Mbr A}

theorem spatialTry_shaped {pk : Bytes} {pass : Reader (Mbr A) D (Answer (Bytes × D))} (rest : Shaped pass) :
    Shaped (spatialTry mode query pk pass) := by
  apply Shaped.minor (c := .value) (fun important => important) (fun same => by cases same)
  intro value
  cases value with
  | error rc => exact rest
  | ok mbr =>
    dsimp only
    split
    · apply Shaped.get
      · intro record
        exact ⟨(pk, record), rfl⟩
      · exact rest
      · intro rc other
        exact if_neg other
    · exact rest

theorem spatialRange_shaped (hi : Nat) {after : Reader (Mbr A) D (Answer (Bytes × D))} (rest : Shaped after) (turns : Nat) :
    Shaped (spatialRange mode query hi after turns) := by
  induction turns with
  | zero => exact Shaped.turnsOut
  | succ turns ih =>
    apply Shaped.valid
    intro here
    cases here with
    | false => exact rest
    | true =>
      apply shaped_key
      intro answer
      cases answer with
      | error rc => exact rest
      | ok ik =>
        dsimp only
        split
        · exact shaped_move fun _ => ih
        · split
          · exact rest
          · exact spatialTry_shaped (shaped_move fun _ => ih)

theorem spatialScanNext_shaped (turns : Nat) (ranges : List (Nat × Nat)) :
    Shaped (spatialScanNext (D := D) mode query turns ranges) := by
  induction ranges with
  | nil => exact shaped_end
  | cons r more ih =>
    apply spatialRange_shaped
    cases more with
    | nil => exact shaped_end
    | cons next later => exact shaped_move fun _ => ih

/- What the search comes to when no call fails. -/

variable {m : SortedMap Bytes (Mbr A)} {rows : SortedMap Bytes Record}

theorem quiet_value (g : Except Rc (Mbr A) → Reader (Mbr A) Record (Answer Row)) (spot : Base.Spot (Bytes × Mbr A)) :
    (iterValue >>= g).quiet (readService m rows) (some spot) =
      (g (.ok spot.here.2)).quiet (readService m rows) (some spot) := rfl

theorem spatialTry_hit {pk : Bytes} {pass : Reader (Mbr A) Record (Answer Row)} {record : Record}
    (fits : spatialMbrPredicate mode query spot.here.2 = true) (there : rows.lookup pk = some record) :
    Finds m rows (spatialTry mode query pk pass) (some spot) := by
  refine ⟨(pk, record), ?_⟩
  rw [spatialTry, quiet_value]
  dsimp only
  rw [if_pos fits, quiet_get, there]
  rfl

theorem spatialTry_miss {pk : Bytes} {pass : Reader (Mbr A) Record (Answer Row)}
    (miss : ¬ (spatialMbrPredicate mode query spot.here.2 = true ∧ (rows.lookup pk).isSome = true))
    (found : Finds m rows pass (some spot)) : Finds m rows (spatialTry mode query pk pass) (some spot) := by
  rw [Finds, spatialTry, quiet_value]
  dsimp only
  by_cases fits : spatialMbrPredicate mode query spot.here.2 = true
  · rw [if_pos fits, quiet_get]
    cases there : rows.lookup pk with
    | some record =>
      rw [there] at miss
      exact absurd ⟨fits, rfl⟩ miss
    | none => exact found
  · rw [if_neg fits]
    exact found

end Reader

/- The search over these contents, as `spatialSearch` has it. -/
def searchOf (m : SortedMap Bytes (Mbr A)) (rows : SortedMap Bytes Record) (mode : MbrMode) (query : Mbr A) :
    SpatialSearch A :=
  ⟨m, fun pk => (rows.lookup pk).isSome, mode, query⟩

namespace Reader

variable {m : SortedMap Bytes (Mbr A)} {rows : SortedMap Bytes Record} {mode : MbrMode} {query : Mbr A}

theorem spatialRange_finds (hi : Nat) {after : Reader (Mbr A) Record (Answer Row)} {turns : Nat}
    (enough : it.forward.length < turns)
    (comes : ((searchOf m rows mode query).scanRange hi it.forward).1 = none → ∀ it', Finds m rows after it') :
    Finds m rows (spatialRange mode query hi after turns) it := by
  induction turns generalizing it with
  | zero => cases enough
  | succ turns ih =>
    cases it with
    | none => exact comes rfl none
    | some spot =>
      have whole : forward (some spot) = spot.here :: spot.ahead := rfl
      have tail : (next (some spot)).forward = spot.ahead := by
        rw [forward_next, whole, List.tail_cons]
      rw [whole, scanRange] at comes
      rw [whole, List.length_cons] at enough
      have later : (((searchOf m rows mode query).scanRange hi spot.ahead).1 = none → ∀ it', Finds m rows after it') →
          Finds m rows (move .next >>= fun _ => spatialRange mode query hi after turns) (some spot) := by
        intro comes
        rw [← tail] at comes
        have shorter : (next (some spot)).forward.length < turns := by
          rw [tail]
          omega
        exact ih shorter comes
      have unfolded : (spatialRange mode query hi after (turns + 1)).quiet (readService m rows) (some spot) =
          (if spot.here.1.length ≤ spatialHilbertKeyLen then
            move .next >>= fun _ => spatialRange mode query hi after turns
          else if hi < decodeHilbertBe spot.here.1 then after
          else spatialTry mode query (spot.here.1.drop spatialHilbertKeyLen)
            (move .next >>= fun _ => spatialRange mode query hi after turns)).quiet
              (readService m rows) (some spot) := rfl
      rw [Finds, unfolded]
      by_cases short : spot.here.1.length ≤ spatialHilbertKeyLen
      · rw [if_pos short] at comes ⊢
        exact later comes
      · rw [if_neg short] at comes ⊢
        by_cases past : hi < decodeHilbertBe spot.here.1
        · rw [if_pos past] at comes ⊢
          exact comes rfl (some spot)
        · rw [if_neg past] at comes ⊢
          by_cases hit : (searchOf m rows mode query).matches spot.here = true
          · obtain ⟨fits, live⟩ := Bool.and_eq_true_iff.mp hit
            obtain ⟨record, there⟩ := Option.isSome_iff_exists.mp live
            exact spatialTry_hit fits there
          · rw [if_neg hit] at comes
            exact spatialTry_miss (fun both => hit (Bool.and_eq_true_iff.mpr both)) (later comes)

theorem spatialScanNext_finds {ranges : List (Nat × Nat)} (on : it.On m.entries)
    (more : (searchOf m rows mode query).ahead ranges it.forward ≠ []) :
    Finds m rows (spatialScanNext mode query (m.size + 1) ranges) it := by
  induction ranges generalizing it with
  | nil => exact absurd rfl more
  | cons r later ih =>
    apply spatialRange_finds r.2 (Nat.lt_succ_of_le on.forward_suffix.length_le)
    intro passed it'
    have no_hits : (searchOf m rows mode query).hits r.2 it.forward = [] := by
      have inner := scanRange_hits (searchOf m rows mode query) r.2 it.forward
      cases scan : (searchOf m rows mode query).scanRange r.2 it.forward with
      | mk found stopped =>
        rw [scan] at inner passed
        cases passed
        exact inner
    cases later with
    | nil => exact absurd no_hits more
    | cons next rest =>
      rw [ahead, no_hits, List.nil_append] at more
      have seek : (m.iterSeek (beBytes 8 next.1)).forward = m.seek (beBytes 8 next.1) := m.forward_iterSeek _
      exact ih (m.iterSeek_on (beBytes 8 next.1)) (seek ▸ more)

end Reader

structure SpatialState (m : SortedMap Bytes (Mbr A)) where
  opened : Bool
  place : Iter (Bytes × Mbr A)
  on : place.On m.entries
  dir : ScanDir
  ranges : List (Nat × Nat)

inductive SpatialCall where
  | readMap (ranges : List (Nat × Nat))
  | next
  | nextSame

namespace SpatialCall

variable {D : Type} (mode : MbrMode) (query : Mbr A) {m : SortedMap Bytes (Mbr A)} (rows : SortedMap Bytes Record)
  (st : SpatialState m)

def prog : SpatialCall → Reader (Mbr A) D (Answer (Bytes × D))
  | .readMap ranges => Reader.spatialReadMap mode query st.opened (m.size + 1) ranges
  | .next => Reader.spatialNext mode query st.opened st.dir (m.size + 1) st.ranges
  | .nextSame => Reader.spatialNextSame mode query st.opened (m.size + 1) st.ranges

def further : SpatialCall → List Bytes
  | .readMap ranges => (searchOf m rows mode query).found ranges
  | .next =>
    if st.opened then
      (searchOf m rows mode query).ahead st.ranges (if st.dir = .none then st.place else st.place.next).forward
    else []
  | .nextSame => if st.opened then (searchOf m rows mode query).ahead st.ranges st.place.next.forward else []

variable {mode query rows st}

theorem finds {call : SpatialCall} (more : call.further mode query rows st ≠ []) :
    Reader.Finds m rows (call.prog mode query st) st.place := by
  cases call with
  | readMap ranges =>
    apply finds_ensure
    cases ranges with
    | nil => exact absurd rfl more
    | cons r later =>
      rw [further, ← ahead_seek, ← SortedMap.forward_iterSeek] at more
      exact spatialScanNext_finds (m.iterSeek_on (beBytes 8 r.1)) more
  | next =>
    rw [further] at more
    apply finds_ensure
    cases is_open : st.opened with
    | false =>
      rw [is_open] at more
      exact absurd rfl more
    | true =>
      rw [is_open, if_pos rfl] at more
      rw [if_pos rfl]
      by_cases still : st.dir = .none
      · rw [if_pos still] at more ⊢
        exact spatialScanNext_finds st.on more
      · rw [if_neg still] at more ⊢
        exact spatialScanNext_finds st.on.next more
  | nextSame =>
    rw [further] at more
    rw [prog, spatialNextSame]
    cases is_open : st.opened with
    | false =>
      rw [is_open] at more
      exact absurd rfl more
    | true =>
      rw [is_open, if_pos rfl] at more
      rw [if_pos rfl]
      have found := spatialScanNext_finds st.on.next more
      exact found

theorem shaped (call : SpatialCall) : Reader.Shaped (call.prog (D := D) mode query st) := by
  have scan : ∀ ranges, Reader.Shaped (Reader.spatialScanNext (D := D) mode query (m.size + 1) ranges) :=
    Reader.spatialScanNext_shaped _
  cases call with
  | readMap ranges =>
    apply Reader.shaped_ensure
    cases ranges with
    | nil => exact scan []
    | cons r later => exact Reader.shaped_move fun _ => scan _
  | next =>
    apply Reader.shaped_ensure
    split
    · exact scan _
    · exact Reader.shaped_move fun _ => scan _
  | nextSame =>
    rw [prog, Reader.spatialNextSame]
    split
    · exact Reader.shaped_move fun _ => scan _
    · exact Reader.shaped_end

end SpatialCall

end TidesdbMysql
