import TidesdbMysql.Base.Cursor
import TidesdbMysql.Spatial.Ranges
import TidesdbMysql.Table.Schema

/-! The search of a spatial index: `index_read_map` with one of the MBR modes, then
`index_next` until it stops. Entries are filed under the Hilbert value of a centroid and
hold the whole box. -/
namespace TidesdbMysql
open Base List Base.SortedMap

variable {A : Type} [LinearOrder A]

/-- `tdb_mbr_t`. The parser and the server only make boxes whose corners are in order. -/
structure Mbr (A : Type) [LinearOrder A] where
  xmin : A
  ymin : A
  xmax : A
  ymax : A
  x_le : xmin ≤ xmax
  y_le : ymin ≤ ymax

inductive MbrMode where
  | contain | intersect | within | disjoint | equal
  deriving DecidableEq, Repr

def mbrIntersects (a b : Mbr A) : Bool :=
  !(a.xmax < b.xmin || a.xmin > b.xmax || a.ymax < b.ymin || a.ymin > b.ymax)

def mbrWithin (a b : Mbr A) : Bool :=
  a.xmin ≥ b.xmin && a.xmax ≤ b.xmax && a.ymin ≥ b.ymin && a.ymax ≤ b.ymax

def mbrEquals (a b : Mbr A) : Bool :=
  a.xmin = b.xmin && a.xmax = b.xmax && a.ymin = b.ymin && a.ymax = b.ymax

def mbrDisjoint (a b : Mbr A) : Bool := !mbrIntersects a b

def spatialMbrPredicate (mode : MbrMode) (query entry : Mbr A) : Bool :=
  match mode with
  | .intersect => mbrIntersects entry query
  | .contain => mbrWithin entry query
  | .within => mbrWithin entry query
  | .equal => mbrEquals entry query
  | .disjoint => mbrDisjoint entry query

/-- The arithmetic of coordinates: `double_to_lex_uint32` and the mean of two bounds. -/
structure Grid (A : Type) [LinearOrder A] where
  lex : A → Nat
  mid : A → A → A
  lex_mono : Monotone lex
  lex_lt : ∀ a, lex a < 2 ^ 32

def Grid.centroidValue (G : Grid A) (mbr : Mbr A) : Nat :=
  hilbertXy2d64 (G.lex (G.mid mbr.xmin mbr.xmax)) (G.lex (G.mid mbr.ymin mbr.ymax))

/- A row as `write_row` files it: its primary key and the box of its geometry. -/
abbrev Filed (A : Type) [LinearOrder A] := Bytes × Mbr A

def Grid.entryKey (G : Grid A) (row : Filed A) : Bytes := spatialBuildKey (G.centroidValue row.2) row.1

def Grid.fileRows (G : Grid A) (cf : SortedMap Bytes (Mbr A)) (rows : List (Filed A)) : SortedMap Bytes (Mbr A) :=
  rows.foldl (fun cf row => cf.put (G.entryKey row) row.2) cf

def spatialHilbertKeyLen : Nat := 8

def decodeHilbertBe (key : Bytes) : Nat := beValue (key.take spatialHilbertKeyLen)

/- The column family, the query, and whether `fetch_row_by_pk` finds a row. -/
structure SpatialSearch (A : Type) [LinearOrder A] where
  cf : SortedMap Bytes (Mbr A)
  live : Bytes → Bool
  mode : MbrMode
  query : Mbr A

/-- `spatial_ranges_` from the current one on, and the entries from the iterator on. -/
structure SpatialScan (A : Type) [LinearOrder A] where
  ranges : List (Nat × Nat)
  rest : List (Bytes × Mbr A)

def SpatialSearch.matches (s : SpatialSearch A) (e : Bytes × Mbr A) : Bool :=
  spatialMbrPredicate s.mode s.query e.2 && s.live (e.1.drop spatialHilbertKeyLen)

def SpatialSearch.scanRange (s : SpatialSearch A) (hi : Nat) :
    List (Bytes × Mbr A) → Option Bytes × List (Bytes × Mbr A)
  | [] => (none, [])
  | e :: rest =>
    if e.1.length ≤ spatialHilbertKeyLen then s.scanRange hi rest
    else if decodeHilbertBe e.1 > hi then (none, e :: rest)
    else if s.matches e then (some (e.1.drop spatialHilbertKeyLen), e :: rest)
    else s.scanRange hi rest

def spatialScanNext (s : SpatialSearch A) : List (Nat × Nat) → List (Bytes × Mbr A) → Option (Bytes × SpatialScan A)
  | [], _ => none
  | r :: more, rest =>
    match s.scanRange r.2 rest with
    | (some pk, stopped) => some (pk, ⟨r :: more, stopped⟩)
    | (none, stopped) =>
      match more with
      | [] => spatialScanNext s [] stopped
      | next :: later => spatialScanNext s (next :: later) (s.cf.seek (beBytes 8 next.1))

def Grid.box (G : Grid A) (query : Mbr A) : QueryBox :=
  ⟨G.lex query.xmin, G.lex query.ymin, G.lex query.xmax, G.lex query.ymax, G.lex_mono query.x_le,
    G.lex_mono query.y_le, G.lex_lt _, G.lex_lt _⟩

def Grid.scannedRanges (G : Grid A) (mode : MbrMode) (query : Mbr A) : List (Nat × Nat) :=
  if mode = .disjoint then [(0, 2 ^ 64 - 1)]
  else spatialDecomposeRanges (G.lex query.xmin) (G.lex query.ymin) (G.lex query.xmax) (G.lex query.ymax)

/-- The MBR branch of `index_read_map`. -/
def spatialReadMap (G : Grid A) (s : SpatialSearch A) : Option (Bytes × SpatialScan A) :=
  match G.scannedRanges s.mode s.query with
  | [] => none
  | r :: more => spatialScanNext s (r :: more) (s.cf.seek (beBytes 8 r.1))

/- `index_next`: the iterator still stands on the row returned last. -/
def spatialIndexNext (s : SpatialSearch A) (scan : SpatialScan A) : Option (Bytes × SpatialScan A) :=
  spatialScanNext s scan.ranges scan.rest.tail

def spatialSearch (G : Grid A) (s : SpatialSearch A) (fuel : Nat) : Option (List Bytes) :=
  match spatialReadMap G s with
  | none => some []
  | some (pk, scan) => (drain (spatialIndexNext s) fuel scan).map (pk :: ·)

/- What a scan still has to give: the matches up to the end of its range, then those of
the later ranges, each from its own seek on. -/

def SpatialSearch.before (hi : Nat) (e : Bytes × Mbr A) : Bool :=
  e.1.length ≤ spatialHilbertKeyLen || decodeHilbertBe e.1 ≤ hi

def SpatialSearch.hits (s : SpatialSearch A) (hi : Nat) (rest : List (Bytes × Mbr A)) : List Bytes :=
  ((rest.takeWhile (SpatialSearch.before hi)).filter fun e =>
    decide (spatialHilbertKeyLen < e.1.length) && s.matches e).map fun e => e.1.drop spatialHilbertKeyLen

def SpatialSearch.ahead (s : SpatialSearch A) : List (Nat × Nat) → List (Bytes × Mbr A) → List Bytes
  | [], _ => []
  | [r], rest => s.hits r.2 rest
  | r :: next :: later, rest =>
    s.hits r.2 rest ++ s.ahead (next :: later) (s.cf.seek (beBytes 8 next.1))

section
variable (s : SpatialSearch A) (ranges : List (Nat × Nat)) (hi : Nat) (rest : List (Bytes × Mbr A))

theorem scanRange_hits : match s.scanRange hi rest with
    | (none, _) => s.hits hi rest = [] | (some pk, stopped) => s.hits hi rest = pk :: s.hits hi stopped.tail := by
  induction rest with
  | nil => rfl
  | cons e rest ih =>
    rw [SpatialSearch.scanRange]
    by_cases short : e.1.length ≤ spatialHilbertKeyLen
    · have skipped : s.hits hi (e :: rest) = s.hits hi rest := by
        simp [SpatialSearch.hits, SpatialSearch.before, short, Nat.not_lt.mpr short]
      rw [if_pos short, skipped]
      exact ih
    · rw [if_neg short]
      by_cases past : decodeHilbertBe e.1 > hi
      · rw [if_pos past]
        simp [SpatialSearch.hits, SpatialSearch.before, short, Nat.not_le.mpr past]
      · rw [if_neg past]
        have inside : SpatialSearch.before hi e = true := by
          simp [SpatialSearch.before, Nat.le_of_not_lt past]
        by_cases found : s.matches e = true
        · rw [if_pos found]
          simp [SpatialSearch.hits, inside, found, Nat.lt_of_not_le short]
        · have skipped : s.hits hi (e :: rest) = s.hits hi rest := by
            simp [SpatialSearch.hits, inside, found]
          rw [if_neg found, skipped]
          exact ih

theorem spatialScanNext_ahead : match spatialScanNext s ranges rest with
    | none => s.ahead ranges rest = []
    | some (pk, scan) => s.ahead ranges rest = pk :: s.ahead scan.ranges scan.rest.tail := by
  induction ranges generalizing rest with
  | nil => rfl
  | cons r more ih =>
    have inner := scanRange_hits s r.2 rest
    rw [spatialScanNext.eq_def]
    dsimp only
    cases result : s.scanRange r.2 rest with
    | mk found stopped =>
      rw [result] at inner
      cases found with
      | some pk =>
        cases more with
        | nil => exact inner
        | cons next later => simp only [SpatialSearch.ahead, inner, cons_append]
      | none =>
        dsimp only at inner ⊢
        cases more with
        | nil =>
          rw [spatialScanNext]
          exact inner
        | cons next later =>
          simp only [SpatialSearch.ahead, inner, nil_append]
          exact ih _

theorem spatialIndexNext_accounts : Accounts (spatialIndexNext s) fun scan => s.ahead scan.ranges scan.rest.tail := by
  intro scan
  have step := spatialScanNext_ahead s scan.ranges scan.rest.tail
  unfold spatialIndexNext
  cases result : spatialScanNext s scan.ranges scan.rest.tail with
  | none | some =>
    rw [result] at step
    exact step

def SpatialSearch.found : List Bytes :=
  ranges.flatMap fun r => s.hits r.2 (s.cf.seek (beBytes 8 r.1))

end

theorem ahead_seek (s : SpatialSearch A) (r : Nat × Nat) (more : List (Nat × Nat)) :
    s.ahead (r :: more) (s.cf.seek (beBytes 8 r.1)) = s.found (r :: more) := by
  induction more generalizing r with
  | nil => simp [SpatialSearch.ahead, SpatialSearch.found]
  | cons next later ih =>
    rw [SpatialSearch.ahead, ih next]
    rfl

theorem spatialSearch_eq (G : Grid A) (s : SpatialSearch A) {fuel : Nat}
    (enough : (s.found (G.scannedRanges s.mode s.query)).length ≤ fuel) :
    spatialSearch G s fuel = some (s.found (G.scannedRanges s.mode s.query)) := by
  unfold spatialSearch spatialReadMap
  cases ranges : G.scannedRanges s.mode s.query with
  | nil => rfl
  | cons r more =>
    rw [ranges, ← ahead_seek] at enough
    rw [← ahead_seek]
    have first := spatialScanNext_ahead s (r :: more) (s.cf.seek (beBytes 8 r.1))
    dsimp only
    cases next : spatialScanNext s (r :: more) (s.cf.seek (beBytes 8 r.1)) with
    | none =>
      rw [next] at first
      rw [first]
    | some pair =>
      obtain ⟨pk, scan⟩ := pair
      rw [next] at first
      dsimp only at first ⊢
      rw [first, length_cons] at enough
      rw [first, drain_eq_ahead (spatialIndexNext_accounts s) enough]
      rfl

/- The column family is ordered by the Hilbert values of its keys. -/

def LongKeys (cf : SortedMap Bytes (Mbr A)) : Prop := ∀ e ∈ cf.entries, spatialHilbertKeyLen < e.1.length

theorem hits_seek {s : SpatialSearch A} (long : LongKeys s.cf) {r : Nat × Nat} (bounded : r.1 < 2 ^ 64) :
    s.hits r.2 (s.cf.seek (beBytes 8 r.1)) =
      (s.cf.entries.filter fun e => decide (InRange (decodeHilbertBe e.1) r) && s.matches e).map
        fun e => e.1.drop spatialHilbertKeyLen := by
  have closed : (s.cf.seek (beBytes 8 r.1)).Pairwise fun a b =>
      SpatialSearch.before r.2 b = true → SpatialSearch.before r.2 a = true := by
    refine (s.cf.seek_sorted _).imp_of_mem fun {a b} member_a member_b less inside => ?_
    have long_a := long a (mem_seek.mp member_a).1
    have long_b := long b (mem_seek.mp member_b).1
    have order : decodeHilbertBe a.1 ≤ decodeHilbertBe b.1 := beValue_take_mono long_a.le long_b.le less.le
    simp only [SpatialSearch.before, Bool.or_eq_true, decide_eq_true_eq] at inside ⊢
    omega
  rw [SpatialSearch.hits, takeWhile_eq_filter closed, s.cf.seek_eq_filter, filter_filter, filter_filter]
  refine congrArg _ (filter_congr fun e mem => ?_)
  have long_e := long e mem
  have from_low : beBytes 8 r.1 ≤ e.1 ↔ r.1 ≤ decodeHilbertBe e.1 := beBytes_le_iff bounded long_e.le
  have not_short : ¬ e.1.length ≤ spatialHilbertKeyLen := Nat.not_le.mpr long_e
  rw [Bool.eq_iff_iff]
  simp only [SpatialSearch.before, Bool.and_eq_true, Bool.or_eq_true, decide_eq_true_eq, from_low, not_short, false_or]
  unfold InRange
  tauto

structure FiledRows (A : Type) [LinearOrder A] where
  rows : List (Filed A)
  distinct : (rows.map (·.1)).Nodup
  keyed : ∀ row ∈ rows, row.1 ≠ []

def FiledRows.cf (R : FiledRows A) (G : Grid A) : SortedMap Bytes (Mbr A) := G.fileRows .empty R.rows

theorem centroidValue_lt (G : Grid A) (mbr : Mbr A) : G.centroidValue mbr < 2 ^ 64 := by
  rw [Grid.centroidValue, hilbertXy2d64_eq (G.lex_lt _) (G.lex_lt _)]
  exact hilbert_lt 32 _

theorem entryKey_parts (G : Grid A) (row : Filed A) :
    decodeHilbertBe (G.entryKey row) = G.centroidValue row.2 ∧ (G.entryKey row).drop spatialHilbertKeyLen = row.1 := by
  have width : spatialHilbertKeyLen = (beBytes 8 (G.centroidValue row.2)).length := (beBytes_length 8 _).symm
  have key : G.entryKey row = beBytes 8 (G.centroidValue row.2) ++ row.1 := rfl
  constructor
  · rw [decodeHilbertBe, key, width, take_left]
    exact beValue_beBytes (centroidValue_lt G row.2)
  · rw [key, width, drop_left]

section
variable (R : FiledRows A) (G : Grid A) (e : Bytes × Mbr A)

theorem FiledRows.keys_nodup : (R.rows.map G.entryKey).Nodup := by
  refine List.Nodup.of_map (drop spatialHilbertKeyLen) ?_
  rw [map_map]
  have pks : (drop spatialHilbertKeyLen ∘ G.entryKey) = fun row : Filed A => row.1 :=
    funext fun row => (entryKey_parts G row).2
  rw [pks]
  exact R.distinct

theorem FiledRows.mem_cf : e ∈ (R.cf G).entries ↔ ∃ row ∈ R.rows, (G.entryKey row, row.2) = e := by
  have filed : R.cf G = empty.putAll (R.rows.map fun row => (G.entryKey row, row.2)) := by
    rw [putAll, foldl_map]
    rfl
  have distinct : ((R.rows.map fun row => (G.entryKey row, row.2)).map (·.1)).Nodup := by
    rw [map_map]
    exact R.keys_nodup G
  have entry := has_putAll (m := empty) distinct (k := e.1) (v := e.2)
  rw [← filed] at entry
  simp only [has_empty, and_false, or_false] at entry
  exact entry.trans mem_map

theorem FiledRows.longKeys : LongKeys (R.cf G) := by
  intro e mem
  obtain ⟨row, listed, rfl⟩ := (R.mem_cf G e).mp mem
  have size : (G.entryKey row).length = 8 + row.1.length := by
    show (beBytes 8 (G.centroidValue row.2) ++ row.1).length = _
    rw [length_append, beBytes_length]
  have pk := length_pos_iff.mpr (R.keyed row listed)
  show 8 < (G.entryKey row).length
  omega

theorem FiledRows.row_of_pk {a b : Filed A} (member_a : a ∈ R.rows) (member_b : b ∈ R.rows) (same : a.1 = b.1) :
    a = b :=
  inj_on_of_nodup_map R.distinct member_a member_b same

end

/- What a run over disjoint ranges returns. -/

section
variable {s : SpatialSearch A} {G : Grid A} {R : FiledRows A}

def SpatialSearch.Answers (s : SpatialSearch A) (row : Filed A) : Prop :=
  s.live row.1 = true ∧ spatialMbrPredicate s.mode s.query row.2 = true

theorem mem_hits (filed : s.cf = R.cf G) {r : Nat × Nat} (bounded : r.1 < 2 ^ 64) (pk : Bytes) :
    pk ∈ s.hits r.2 (s.cf.seek (beBytes 8 r.1)) ↔
      ∃ row ∈ R.rows, row.1 = pk ∧ s.Answers row ∧ InRange (G.centroidValue row.2) r := by
  rw [hits_seek (filed ▸ R.longKeys G) bounded, mem_map]
  simp only [mem_filter, filed, R.mem_cf G, SpatialSearch.matches, Bool.and_eq_true, decide_eq_true_eq]
  constructor
  · rintro ⟨_, ⟨⟨row, mem, rfl⟩, inside, holds, live⟩, rfl⟩
    simp only [entryKey_parts] at inside live ⊢
    exact ⟨row, mem, rfl, ⟨live, holds⟩, inside⟩
  · rintro ⟨row, mem, rfl, ⟨live, holds⟩, inside⟩
    refine ⟨_, ⟨⟨row, mem, rfl⟩, ?_⟩, (entryKey_parts G row).2⟩
    simp only [entryKey_parts]
    exact ⟨inside, holds, live⟩

theorem mem_found (filed : s.cf = R.cf G) {ranges : List (Nat × Nat)} (bounded : ∀ r ∈ ranges, r.1 < 2 ^ 64)
    (pk : Bytes) : pk ∈ s.found ranges ↔
      ∃ row ∈ R.rows, row.1 = pk ∧ s.Answers row ∧ ∃ r ∈ ranges, InRange (G.centroidValue row.2) r := by
  rw [SpatialSearch.found, mem_flatMap]
  constructor
  · rintro ⟨r, listed, hit⟩
    obtain ⟨row, mem, same, answers, inside⟩ := (mem_hits filed (bounded r listed) pk).mp hit
    exact ⟨row, mem, same, answers, r, listed, inside⟩
  · rintro ⟨row, mem, same, answers, r, listed, inside⟩
    exact ⟨r, listed, (mem_hits filed (bounded r listed) pk).mpr ⟨row, mem, same, answers, inside⟩⟩

theorem hits_nodup (filed : s.cf = R.cf G) {r : Nat × Nat} (bounded : r.1 < 2 ^ 64) :
    (s.hits r.2 (s.cf.seek (beBytes 8 r.1))).Nodup := by
  rw [hits_seek (filed ▸ R.longKeys G) bounded]
  have entries : s.cf.entries.Nodup := s.cf.sorted.imp fun less same => less.ne (congrArg Prod.fst same)
  refine List.Nodup.map_on (fun e mem e' member' same => ?_) (entries.filter _)
  have listed := (mem_filter.mp mem).1
  have listed' := (mem_filter.mp member').1
  rw [filed, R.mem_cf G] at listed listed'
  obtain ⟨row, known, rfl⟩ := listed
  obtain ⟨row', known', rfl⟩ := listed'
  rw [(entryKey_parts G row).2, (entryKey_parts G row').2] at same
  rw [R.row_of_pk known known' same]

theorem found_nodup (filed : s.cf = R.cf G) {ranges : List (Nat × Nat)} (bounded : ∀ r ∈ ranges, r.1 < 2 ^ 64)
    (apart : ranges.Pairwise fun r r' => r.2 < r'.1) : (s.found ranges).Nodup := by
  rw [SpatialSearch.found, nodup_flatMap]
  refine ⟨fun r listed => hits_nodup filed (bounded r listed), ?_⟩
  refine apart.imp_of_mem fun {r r'} listed listed' gap pk hit hit' => ?_
  obtain ⟨row, mem, same, -, inside⟩ := (mem_hits filed (bounded r listed) pk).mp hit
  obtain ⟨row', member', same', -, inside'⟩ := (mem_hits filed (bounded r' listed') pk).mp hit'
  obtain rfl := R.row_of_pk mem member' (same.trans same'.symm)
  unfold InRange at inside inside'
  omega

end

section
variable (G : Grid A) (R : FiledRows A) (live : Bytes → Bool) (mode : MbrMode) (query : Mbr A)

theorem scannedRanges_spec : (∀ r ∈ G.scannedRanges mode query, r.1 < 2 ^ 64) ∧
    (G.scannedRanges mode query).Pairwise (fun r r' => r.2 < r'.1) ∧
    ∀ v < 2 ^ 64, (∃ r ∈ G.scannedRanges mode query, InRange v r) ↔
      mode = .disjoint ∨ ∃ g ∈ (G.box query).cells, InRange v (cellValue g, cellValue g + cellSpan - 1) := by
  unfold Grid.scannedRanges
  by_cases full : mode = .disjoint
  · rw [if_pos full]
    refine ⟨by simp, pairwise_singleton _ _, fun v small => ?_⟩
    refine iff_of_true ⟨_, mem_singleton_self _, Nat.zero_le v, ?_⟩ (.inl full)
    omega
  · rw [if_neg full]
    obtain ⟨formed, apart, covers⟩ := (G.box query).ranges_spec
    refine ⟨fun r listed => ?_, apart.imp fun gap => by omega, fun v _ => ?_⟩
    · have shape := formed r listed
      omega
    · rw [or_iff_right full]
      exact covers v

def SearchExact : Prop :=
  ∃ returned : List Bytes, (∀ fuel ≥ R.rows.length, spatialSearch G ⟨R.cf G, live, mode, query⟩ fuel = some returned) ∧
    returned.Nodup ∧
    ∀ pk, pk ∈ returned ↔
      ∃ row ∈ R.rows, row.1 = pk ∧ live row.1 = true ∧ spatialMbrPredicate mode query row.2 = true

theorem spatialSearch_found {fuel : Nat} (enough : R.rows.length ≤ fuel) :
    spatialSearch G ⟨R.cf G, live, mode, query⟩ fuel =
      some (SpatialSearch.found ⟨R.cf G, live, mode, query⟩ (G.scannedRanges mode query)) := by
  obtain ⟨bounded, apart, -⟩ := scannedRanges_spec G mode query
  let s : SpatialSearch A := ⟨R.cf G, live, mode, query⟩
  have filed : s.cf = R.cf G := rfl
  have known : s.found (G.scannedRanges mode query) ⊆ R.rows.map (·.1) := by
    intro pk hit
    obtain ⟨row, mem, same, -⟩ := (mem_found filed bounded pk).mp hit
    exact mem_map.mpr ⟨row, mem, same⟩
  have few := (subperm_of_subset (found_nodup filed bounded apart) known).length_le
  rw [length_map] at few
  exact spatialSearch_eq G s (few.trans enough)

end

theorem spatial_search_exact_iff (G : Grid A) (R : FiledRows A) (live : Bytes → Bool) (mode : MbrMode) (query : Mbr A) :
    SearchExact G R live mode query ↔ mode = .disjoint ∨
      ∀ row ∈ R.rows, live row.1 = true → spatialMbrPredicate mode query row.2 = true →
        ∃ g ∈ (G.box query).cells, InRange (G.centroidValue row.2) (cellValue g, cellValue g + cellSpan - 1) := by
  obtain ⟨bounded, apart, covers⟩ := scannedRanges_spec G mode query
  let s : SpatialSearch A := ⟨R.cf G, live, mode, query⟩
  have filed : s.cf = R.cf G := rfl
  have returns := spatialSearch_found G R live mode query (Nat.le_refl _)
  constructor
  · rintro ⟨returned, runs, -, complete⟩
    rw [runs _ (Nat.le_refl _), Option.some.injEq] at returns
    subst returns
    by_cases full : mode = .disjoint
    · exact .inl full
    · refine .inr fun row mem alive holds => ?_
      obtain ⟨row', member', same, -, inside⟩ :=
        (mem_found filed bounded row.1).mp ((complete row.1).mpr ⟨row, mem, rfl, alive, holds⟩)
      obtain rfl := R.row_of_pk member' mem same
      exact ((covers _ (centroidValue_lt G row'.2)).mp inside).resolve_left full
  · intro condition
    refine ⟨_, fun fuel enough => spatialSearch_found G R live mode query enough,
      found_nodup filed bounded apart, fun pk => ?_⟩
    rw [mem_found filed bounded pk]
    constructor
    · rintro ⟨row, mem, same, answers, -⟩
      exact ⟨row, mem, same, answers⟩
    · rintro ⟨row, mem, same, alive, holds⟩
      refine ⟨row, mem, same, ⟨alive, holds⟩, (covers _ (centroidValue_lt G row.2)).mpr ?_⟩
      exact condition.imp_right fun all => all row mem alive holds

/- Coordinates in halves, from 0.5 up to 4.0 and beyond as far as the example needs them. -/
def halves : Grid Nat where
  lex n := if n < 4 then 0xbfe00000 else if n < 8 then 0xc0080000 else 0xc0100000
  mid a b := (a + b) / 2
  lex_mono := by
    intro a b le
    dsimp only
    split <;> split <;> (try split) <;> (try split) <;> omega
  lex_lt a := by
    split
    · decide
    · split <;> decide

def pointMbr (x y : Nat) : Mbr Nat := ⟨x, y, x, y, Nat.le_refl x, Nat.le_refl y⟩

def squareMbr (low high : Nat) (le : low ≤ high) : Mbr Nat := ⟨low, low, high, high, le, le⟩

def oneRow (mbr : Mbr Nat) : FiledRows Nat := ⟨[([1], mbr)], by simp, by simp⟩

/-- (3, 0.5) is not found under its own box but by a full scan, nor a square around (0.5, 0.5) with
centre (4, 4) by that point. -/
theorem matching_row_not_found : (∀ mode ≠ .disjoint, spatialMbrPredicate mode (pointMbr 6 1) (pointMbr 6 1) = true ∧
      spatialSearch halves ⟨(oneRow (pointMbr 6 1)).cf halves, fun _ => true, mode, pointMbr 6 1⟩ 1 = some []) ∧
    spatialMbrPredicate .intersect (pointMbr 1 1) (squareMbr 1 15 (by decide)) = true ∧
    spatialSearch halves ⟨(oneRow (squareMbr 1 15 (by decide))).cf halves, fun _ => true, .intersect, pointMbr 1 1⟩ 1 = some [] ∧
    ¬ SearchExact halves (oneRow (pointMbr 6 1)) (fun _ => true) .equal (pointMbr 6 1) := by
  refine ⟨?_, by decide, by decide, ?_⟩
  · intro mode not_full
    cases mode with
    | disjoint => exact absurd rfl not_full
    | contain | intersect | within | equal => decide
  · rintro ⟨returned, runs, -, complete⟩
    have empty : spatialSearch halves ⟨(oneRow (pointMbr 6 1)).cf halves, fun _ => true, .equal, pointMbr 6 1⟩ 1 =
        some [] := by decide
    rw [runs 1 (Nat.le_refl 1), Option.some.injEq] at empty
    subst empty
    exact absurd ((complete [1]).mpr ⟨_, mem_singleton_self _, rfl, rfl, by decide⟩) not_mem_nil

end TidesdbMysql
