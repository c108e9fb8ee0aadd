import TidesdbMysql.Table.Navigate

/-! Forward range scans: `index_read_map` with `HA_READ_KEY_OR_NEXT` or `HA_READ_AFTER_KEY`, then
`index_next` to the end. The reference compares the leading values of a row with the search key. -/
namespace TidesdbMysql

open Base (Bytes SortedMap Starts Iter collect collectFrom readAll Reads Opens)
open SecScan PkScan ActiveIndex
open List Base.SortedMap

/-- A scan returns the wanted rows, each once and in order, and ends with not-found or
end-of-file. -/
@[mk_iff scanExact_fields]
structure ScanExact (s : Table) (want : Record → Prop) (first : Record → Record → Prop)
    (result : List Row × Option HaCode) : Prop where
  ends : result.2 = some .endOfFile ∨ result.2 = some .keyNotFound
  rows : ∀ pk, pk ∈ result.1.map Prod.fst ↔ ∃ record, s.rows.Has pk record ∧ want record
  once : (result.1.map Prod.fst).Nodup
  ordered : (result.1.map Prod.fst).Pairwise fun a b => ∀ ra rb, s.rows.Has a ra → s.rows.Has b rb → ¬ first rb ra

theorem scanExact_iff {s : Table} {want : Record → Prop} {first : Record → Record → Prop}
    {result : List Row × Option HaCode} {rows : List Row} (pks : result.1.map Prod.fst = rows.map Prod.fst)
    (of_table : ∀ row ∈ rows, row ∈ s.rows.entries) (distinct : (rows.map Prod.fst).Nodup)
    (ends : result.2 = some .endOfFile ∨ result.2 = some .keyNotFound) :
    ScanExact s want first result ↔
      (∀ row ∈ s.rows.entries, row ∈ rows ↔ want row.2) ∧ rows.Pairwise fun a b => ¬ first b.2 a.2 := by
  have mem : ∀ row ∈ s.rows.entries, row.1 ∈ rows.map Prod.fst ↔ row ∈ rows := by
    intro row here
    constructor
    · intro listed
      obtain ⟨other, in_rows, same⟩ := mem_map.mp listed
      rwa [s.rows.entry_unique (of_table other in_rows) here same] at in_rows
    · exact fun in_rows => mem_map_of_mem in_rows
  have pairs : ((rows.map Prod.fst).Pairwise fun a b => ∀ ra rb, s.rows.Has a ra → s.rows.Has b rb → ¬ first rb ra) ↔
      rows.Pairwise fun a b => ¬ first b.2 a.2 := by
    rw [pairwise_map]
    refine List.Pairwise.iff_of_mem fun {a b} in_a in_b => ⟨fun all => ?_, fun apart ra rb has_a has_b => ?_⟩
    · exact all a.2 b.2 (of_table a in_a) (of_table b in_b)
    · rw [has_a.unique (of_table a in_a), has_b.unique (of_table b in_b)]
      exact apart
  constructor
  · intro scan
    refine ⟨fun row here => ?_, pairs.mp (pks ▸ scan.ordered)⟩
    rw [← mem row here, ← pks, scan.rows]
    constructor
    · rintro ⟨record, has, wanted⟩
      rwa [has.unique here] at wanted
    · exact fun wanted => ⟨row.2, here, wanted⟩
  · rintro ⟨agree, ordered⟩
    refine ⟨ends, fun pk => ?_, pks ▸ distinct, pks ▸ pairs.mpr ordered⟩
    rw [pks]
    constructor
    · intro listed
      obtain ⟨row, in_rows, rfl⟩ := mem_map.mp listed
      exact ⟨row.2, of_table row in_rows, (agree row (of_table row in_rows)).mp in_rows⟩
    · rintro ⟨record, has, wanted⟩
      exact mem_map_of_mem ((agree (pk, record) has).mpr wanted)

theorem scanExact_reverse {s : Table} {want : Record → Prop} {first : Record → Record → Prop}
    {result : List Row × Option HaCode} :
    ScanExact s want (fun a b => first b a) result ↔ ScanExact s want first (result.1.reverse, result.2) := by
  simp only [scanExact_fields, map_reverse, mem_reverse, nodup_reverse, pairwise_reverse]
  refine and_congr_right' (and_congr_right' (and_congr_right' (Pairwise.iff fun a b => ?_)))
  exact ⟨fun all ra rb has_b has_a => all rb ra has_a has_b, fun all ra rb has_a has_b => all rb ra has_b has_a⟩

def inKeyOrder (s : Table) : ActiveIndex → List Row
  | .primary _ => s.rows.entries
  | .secondary i ix => (s.index i).entries.map (entryRow s ix.key)

section
variable {T : Schema} {residue : Nat → Bytes → Residue} {s : Table} {active : ActiveIndex}

section
variable (mirrored : Mirrored T residue s) (of_table : active.Of T) (p : Row → Bool)
include mirrored of_table

theorem mem_inKeyOrder {row : Row} : row ∈ inKeyOrder s active ↔ row ∈ s.rows.entries := by
  cases active with
  | primary key => exact Iff.rfl
  | secondary i ix =>
    constructor
    · intro listed
      obtain ⟨e, mem, rfl⟩ := mem_map.mp listed
      exact (entry_row mirrored of_table mem).2.1
    · intro mem
      obtain ⟨e, there, -, rfl⟩ := entry_of_row mirrored of_table mem
      exact mem_map_of_mem there

theorem inKeyOrder_sorted :
    (inKeyOrder s active).Pairwise fun a b => active.image residue a < active.image residue b := by
  cases active with
  | primary key => exact s.rows.sorted
  | secondary i ix =>
    refine pairwise_map.mpr ((s.index i).sorted.imp_of_mem fun in_a in_b before => ?_)
    rw [(entry_row mirrored of_table in_a).2.2, (entry_row mirrored of_table in_b).2.2]
    exact before

theorem selected_distinct : (((inKeyOrder s active).filter p).map Prod.fst).Nodup := by
  rw [List.Nodup, pairwise_map]
  refine ((inKeyOrder_sorted mirrored of_table).filter p).imp_of_mem fun {a b} in_a in_b before same => ?_
  have here := (mem_inKeyOrder mirrored of_table).mp (mem_of_mem_filter in_a)
  have there := (mem_inKeyOrder mirrored of_table).mp (mem_of_mem_filter in_b)
  rw [s.rows.entry_unique here there same] at before
  exact lt_irrefl _ before

theorem scanExact_selected {reached : Row → Prop} [DecidablePred reached] {want : Record → Prop}
    {first : Record → Record → Prop} {result : List Row × Option HaCode}
    (pks : result.1.map Prod.fst = ((inKeyOrder s active).filter (decide <| reached ·)).map Prod.fst)
    (ends : result.2 = some .endOfFile ∨ result.2 = some .keyNotFound) : ScanExact s want first result ↔
      (∀ row ∈ s.rows.entries, reached row ↔ want row.2) ∧
      ∀ a ∈ s.rows.entries, ∀ b ∈ s.rows.entries, reached a → reached b →
        active.image residue a < active.image residue b → ¬ first b.2 a.2 := by
  have listed : ∀ row, row ∈ (inKeyOrder s active).filter (decide <| reached ·) ↔ row ∈ s.rows.entries ∧ reached row := by
    intro row
    rw [mem_filter, mem_inKeyOrder mirrored of_table, decide_eq_true_eq]
  rw [scanExact_iff pks (fun row mem => ((listed row).mp mem).1) (selected_distinct mirrored of_table _) ends,
    Base.pairwise_iff_of_sorted ((inKeyOrder_sorted mirrored of_table).filter _)]
  refine and_congr (forall₂_congr fun row here => ?_) ?_
  · rw [listed, and_iff_right here]
  · simp only [listed, and_imp]
    exact ⟨fun all a ha b hb ra rb => all a ha ra b hb rb, fun all a ha ra b hb rb => all a ha b hb ra rb⟩

end

end

def rangeScan (T : Schema) (s : Table) (metas : SortedMap Bytes Bytes) (keyRead : Bytes → Option Record)
    (active : ActiveIndex) (flag : FindFlag) (comp : Bytes) : List Row × Option HaCode :=
  match active with
  | .primary key =>
    collectFrom (PkScan.init.indexReadMap (dataFamily metas s.rows) s key flag comp)
      (PkScan.indexNext (dataFamily metas s.rows)) (scanBound s active)
  | .secondary i ix =>
    collectFrom (SecScan.init.indexReadMap (s.index i) s ix.key keyRead T flag comp)
      (SecScan.indexNext s ix.key keyRead) (scanBound s active)

section
variable (residue : Nat → Bytes → Residue) (active : ActiveIndex) (flag : FindFlag) (comp : Bytes) (row : Row)

/-- The rows a forward scan reaches; on the primary key `HA_READ_AFTER_KEY` passes nothing but the
search key itself. -/
def Reached : Prop :=
  comp ≤ active.image residue row ∧ (flag = .afterKey →
    match active with
    | .primary _ => row.1 ≠ comp
    | .secondary _ _ => ¬ comp <+: active.image residue row)

instance : Decidable (Reached residue active flag comp row) :=
  match active with
  | .primary _ => inferInstanceAs (Decidable (_ ∧ (_ → _ ≠ _)))
  | .secondary _ _ => inferInstanceAs (Decidable (_ ∧ (_ → ¬ _)))

end

section
variable {T : Schema} {residue : Nat → Bytes → Residue} {s : Table} {metas : SortedMap Bytes Bytes}
  {keyRead : Bytes → Option Record} {flag : FindFlag} {comp : Bytes}

theorem forwardRows_eq (residue : Nat → Bytes → Residue) (key : Key) : PkScan.forwardRows s flag comp =
      (inKeyOrder s (.primary key)).filter fun row => decide (Reached residue (.primary key) flag comp row) := by
  unfold forwardRows
  split
  · next after =>
    refine filter_congr fun row _ => decide_eq_decide.mpr ?_
    simp only [Reached, image, after, true_imp_iff]
    rw [lt_iff_le_and_ne, ne_comm]
  · next other =>
    rw [seek_eq_filter]
    refine filter_congr fun row _ => decide_eq_decide.mpr ?_
    simp [Reached, image, other]

theorem rangeScan_primary (residue : Nat → Bytes → Residue) {key : Key} (forward : flag = .keyOrNext ∨ flag = .afterKey) :
    (rangeScan T s metas keyRead (.primary key) flag comp).1 =
      ((inKeyOrder s (.primary key)).filter fun row => decide (Reached residue (.primary key) flag comp row)) ∧
    (rangeScan T s metas keyRead (.primary key) flag comp).2 = some .endOfFile := by
  have size : (forwardRows s flag comp).length ≤ scanBound s (.primary key) := by
    rw [forwardRows_eq residue key]
    exact length_filter_le _ _
  obtain ⟨rows, code⟩ := Base.collectFrom_eq (indexNext_reads (dataFamily metas s.rows))
    (indexReadMap_forward_opens metas s key comp forward) size
  rw [Base.readFrom_self, Base.readAll_id] at rows code
  refine ⟨rows.trans (forwardRows_eq residue key), ?_⟩
  rcases code with code | ⟨c, failed, code⟩
  · exact code
  · rw [indexReadMap_forward_error metas s key comp forward failed] at code
    exact code

theorem startIter_forward (T : Schema) (comp : Bytes) (m : SortedMap Bytes Bytes) (forward : flag = .keyOrNext ∨ flag = .afterKey) :
    (SecScan.startIter m T flag comp).forward =
      m.entries.filter fun e => decide (comp ≤ e.1 ∧ (flag = .afterKey → ¬ comp <+: e.1)) := by
  rcases forward with rfl | rfl
  · rw [startIter, forward_iterSeek, seek_eq_filter]
    refine filter_congr fun e _ => decide_eq_decide.mpr ?_
    simp
  · rw [startIter, Iter.forward_nextWhile, forward_iterSeek, Base.seek_dropWhile_starts]
    refine filter_congr fun e _ => ?_
    simp [Starts, Bool.decide_and]

theorem rangeScan_secondary (mirrored : Mirrored T residue s) {i : Nat} {ix : Index}
    (of_table : (ActiveIndex.secondary i ix).Of T) (forward : flag = .keyOrNext ∨ flag = .afterKey) :
    (rangeScan T s metas keyRead (.secondary i ix) flag comp).1.map Prod.fst =
      ((inKeyOrder s (.secondary i ix)).filter fun row =>
        decide (Reached residue (.secondary i ix) flag comp row)).map Prod.fst ∧
    ((rangeScan T s metas keyRead (.secondary i ix) flag comp).2 = some .endOfFile ∨
      (rangeScan T s metas keyRead (.secondary i ix) flag comp).2 = some .keyNotFound) := by
  have not_exact : flag ≠ .keyExact := by
    rcases forward with rfl | rfl <;> simp
  have met := startIter_forward T comp (s.index i) forward
  have live : ∀ e ∈ (startIter (s.index i) T flag comp).forward, LiveEntry s ix.key e := by
    intro e mem
    rw [met] at mem
    exact (entry_row mirrored of_table (mem_of_mem_filter mem)).1
  have size : (startIter (s.index i) T flag comp).forward.length ≤ scanBound s (.secondary i ix) := by
    rw [met]
    exact length_filter_le _ _
  have opens : Opens (init.indexReadMap (s.index i) s ix.key keyRead T flag comp) (fun scan => scan.dir ≠ .none)
      (fun scan => scan.iter.forward.tail) (take s ix.key keyRead)
      (startIter (s.index i) T flag comp).forward := by
    refine indexReadMap_opens ?_ fun dir moving => ⟨moving, rfl⟩
    rw [if_neg not_exact, ← Iter.item_eq_head]
    cases (startIter (s.index i) T flag comp).item <;> rfl
  obtain ⟨rows, code⟩ := Base.collectFrom_eq indexNext_reads opens size
  rw [Base.readFrom_self, Base.readAll_ok _ fun e mem =>
    take_live (live e mem)] at rows code
  refine ⟨?_, ?_⟩
  · have reached : ((inKeyOrder s (.secondary i ix)).filter fun row =>
        decide (Reached residue (.secondary i ix) flag comp row)) =
        ((s.index i).entries.filter fun e => decide (comp ≤ e.1 ∧ (flag = .afterKey → ¬ comp <+: e.1))).map
          (entryRow s ix.key) := by
      rw [inKeyOrder, filter_map]
      congr 1
      refine filter_congr fun e mem => decide_eq_decide.mpr ?_
      simp only [Reached, (entry_row mirrored of_table mem).2.2]
    rw [rangeScan, rows, met, reached, map_map, map_map]
    rfl
  · rcases code with code | ⟨c, failed, code⟩
    · exact .inl code
    · rw [indexReadMap_error failed] at code
      exact .inr code

/-- After a point read of the full primary key, `index_next` goes on with the next larger key. -/
def PointNext (T : Schema) (s : Table) (metas : SortedMap Bytes Bytes) (keyRead : Bytes → Option Record)
    (active : ActiveIndex) (comp : Bytes) : Prop :=
  ∀ key, active = .primary key → comparableKeyLength key.parts ≤ comp.length → ∀ record, s.rows.Has comp record →
    rangeScan T s metas keyRead active .keyExact comp = ((comp, record) :: s.rows.after comp, some .endOfFile)

theorem pointNext (active : ActiveIndex) : PointNext T s metas keyRead active comp := by
  rintro key rfl full record has
  have found : fetchRowByPk s comp = .ok (comp, record) := by
    rw [fetchRowByPk, lookup_eq_some.mpr has]
  have start : PkScan.init.indexReadMap (dataFamily metas s.rows) s key .keyExact comp =
      (.ok (comp, record), { PkScan.init with searchComp := comp, exactDone := true, currentPk := comp }) := by
    simp only [PkScan.indexReadMap, full, if_true, found]
  have some_row : 0 < s.rows.size := length_pos_of_mem has
  obtain ⟨calls, bound⟩ := Nat.exists_eq_succ_of_ne_zero (Nat.ne_of_gt some_row)
  have size : (s.rows.seek comp).tail.length ≤ calls := by
    have whole := seek_length_le s.rows comp
    rw [length_tail]
    omega
  have opens := PkScan.indexNext_exact_opens metas s comp
    { PkScan.init with searchComp := comp, exactDone := true, currentPk := comp } rfl rfl
  obtain ⟨rows, code⟩ := Base.collectFrom_eq (PkScan.indexNext_reads (dataFamily metas s.rows)) opens size
  rw [Base.readFrom_self, Base.readAll_id, seek_tail_of_hasKey has.hasKey] at rows code
  have ends : (collectFrom (PkScan.indexNext (dataFamily metas s.rows)
      { PkScan.init with searchComp := comp, exactDone := true, currentPk := comp })
      (PkScan.indexNext (dataFamily metas s.rows)) calls).2 = some .endOfFile := by
    rcases code with code | ⟨c, failed, code⟩
    · exact code
    · rw [PkScan.iterReadCurrent_error failed] at code
      exact code
  rw [rangeScan, start, collectFrom, scanBound, bound, Base.collect_succ, rows, ends]

end

section Reference

variable {A : Nat → Type} [∀ f, LinearOrder (A f)] (rank : (f : Nat) → Bytes → A f)

def Wanted (flag : FindFlag) (parts : List KeyPart) (search record : Record) : Prop :=
  if flag = .afterKey then TupleLt rank parts search record else ¬ TupleLt rank parts record search

/-- A forward scan returns what it owes exactly when the key bytes reach the rows that the values do,
and order them alike. -/
theorem forward_range_iff (T : Schema) (residue : Nat → Bytes → Residue) (s : Table) (metas : SortedMap Bytes Bytes)
    (keyRead : Bytes → Option Record) (active : ActiveIndex) (n : Nat) (search : Record) (held : Residue)
    (flag : FindFlag) (mirrored : Mirrored T residue s) (of_table : active.Of T)
    (forward : flag = .keyOrNext ∨ flag = .afterKey) :
    ScanExact s (Wanted rank flag (searchParts active n) search) (TupleLt rank active.key.parts)
        (rangeScan T s metas keyRead active flag (keyCopyToComparable held active n search)) ∧
      PointNext T s metas keyRead active (keyCopyToComparable held active n search) ↔
    (∀ row ∈ s.rows.entries, Reached residue active flag (keyCopyToComparable held active n search) row ↔
      Wanted rank flag (searchParts active n) search row.2) ∧
    ∀ a ∈ s.rows.entries, ∀ b ∈ s.rows.entries,
      Reached residue active flag (keyCopyToComparable held active n search) a →
      Reached residue active flag (keyCopyToComparable held active n search) b →
      active.image residue a < active.image residue b → ¬ TupleLt rank active.key.parts b.2 a.2 := by
  rw [and_iff_left (pointNext active)]
  generalize keyCopyToComparable held active n search = comp
  have scanned : (rangeScan T s metas keyRead active flag comp).1.map Prod.fst =
      ((inKeyOrder s active).filter fun row => decide (Reached residue active flag comp row)).map Prod.fst ∧
      ((rangeScan T s metas keyRead active flag comp).2 = some .endOfFile ∨
        (rangeScan T s metas keyRead active flag comp).2 = some .keyNotFound) := by
    cases active with
    | primary key =>
      obtain ⟨rows, code⟩ := rangeScan_primary residue forward
      exact ⟨congrArg _ rows, .inl code⟩
    | secondary i ix => exact rangeScan_secondary mirrored of_table forward
  exact scanExact_selected mirrored of_table scanned.1 scanned.2

variable {rank} {values : Nat → Set Bytes} {T : Schema} {residue : Nat → Bytes → Residue} {s : Table}
  {active : ActiveIndex}

section
variable (mirrored : Mirrored T residue s) (of_table : active.Of T) (held : Residue)
include mirrored of_table

theorem image_eq {row : Row} (mem : row ∈ s.rows.entries) :
    ∃ r, active.image residue row = makeComparableKey r active.key.parts row.2 ++ match active with
      | .primary _ => [] | .secondary _ _ => row.1 := by
  cases active with
  | primary key =>
    obtain ⟨built, eq⟩ := (mirrored.keyed row.1 row.2 mem).user key of_table
    exact ⟨built, by rw [append_nil]; exact eq.symm⟩
  | secondary i ix => exact ⟨residue i row.1, rfl⟩

theorem image_ordered (embeds : ∀ kp ∈ active.key.parts, kp.Embeds rank values)
    (holds_rows : ∀ row ∈ s.rows.entries, Holds values active.key.parts row.2) (reached : Row → Prop) :
    ∀ a ∈ s.rows.entries, ∀ b ∈ s.rows.entries, reached a → reached b →
      active.image residue a < active.image residue b → ¬ TupleLt rank active.key.parts b.2 a.2 := by
  intro a mem_a b mem_b _ _ before less
  obtain ⟨ra, image_a⟩ := image_eq mirrored of_table mem_a
  obtain ⟨rb, image_b⟩ := image_eq mirrored of_table mem_b
  rw [← makeComparableKey_lt_iff embeds (holds_rows b mem_b) (holds_rows a mem_a) rb ra] at less
  have turned : active.image residue b < active.image residue a := by
    rw [image_a, image_b]
    exact (Base.append_lt_append (by simp)).mpr (.inl less)
  exact lt_asymm before turned

theorem reached_iff {n : Nat} {search : Record} (embeds : ∀ kp ∈ active.key.parts, kp.Embeds rank values)
    (holds_search : Holds values (searchParts active n) search) {row : Row} (mem : row ∈ s.rows.entries)
    (holds_row : Holds values active.key.parts row.2) :
    (keyCopyToComparable held active n search ≤ active.image residue row ↔
      ¬ TupleLt rank (searchParts active n) row.2 search) ∧
    (keyCopyToComparable held active n search <+: active.image residue row ↔
      TupleEq rank (searchParts active n) row.2 search) := by
  have leading : ∀ kp ∈ searchParts active n, kp ∈ active.key.parts := fun kp member => mem_of_mem_take member
  have embeds_leading : ∀ kp ∈ searchParts active n, kp.Embeds rank values :=
    fun kp member => embeds kp (leading kp member)
  have holds_leading : Holds values (searchParts active n) row.2 := fun kp member => holds_row kp (leading kp member)
  obtain ⟨r, image⟩ := image_eq mirrored of_table mem
  rw [image, makeComparableKey_take r active.key.parts (max 1 n), append_assoc, keyCopyToComparable]
  constructor
  · rw [Base.le_append_iff (by simp [searchParts]), ← not_lt]
    exact not_congr (makeComparableKey_lt_iff embeds_leading holds_leading holds_search r held)
  · rw [Base.prefix_append_iff (by simp [searchParts]), eq_comm]
    exact makeComparableKey_eq_iff_tuple embeds_leading holds_leading holds_search r held

end

theorem tupleLt_iff (parts : List KeyPart) (a b : Record) :
    TupleLt rank parts a b ↔ ¬ TupleLt rank parts b a ∧ ¬ TupleEq rank parts b a := by
  induction parts with
  | nil => simp [TupleLt, TupleEq]
  | cons kp rest ih =>
    have split_eq : TupleEq rank (kp :: rest) b a ↔
        sqlValue rank b kp.field = sqlValue rank a kp.field ∧ TupleEq rank rest b a := forall_mem_cons
    rw [split_eq, TupleLt, TupleLt]
    rcases lt_trichotomy (sqlValue rank a kp.field) (sqlValue rank b kp.field) with less | same | greater
    · simp [less, not_lt_of_gt less, (ne_of_lt less).symm]
    · simp [same, ih]
    · simp [greater, not_lt_of_gt greater, (ne_of_lt greater).symm]

theorem tupleEq_not_lt {parts : List KeyPart} {a b : Record} (same : TupleEq rank parts a b) : ¬ TupleLt rank parts a b := by
  intro less
  exact ((tupleLt_iff parts a b).mp less).2 fun kp mem => (same kp mem).symm

section
variable (mirrored : Mirrored T residue s) (of_table : active.Of T) (held : Residue)
  (embeds : ∀ kp ∈ active.key.parts, kp.Embeds rank values)
include mirrored of_table embeds

/- One row: `HA_READ_AFTER_KEY` does not pass the group of a partial primary key. -/
theorem reached_wanted_iff {n : Nat} {search : Record} (holds_search : Holds values (searchParts active n) search)
    {row : Row} (mem : row ∈ s.rows.entries) (holds_row : Holds values active.key.parts row.2) (flag : FindFlag) :
    (Reached residue active flag (keyCopyToComparable held active n search) row ↔
      Wanted rank flag (searchParts active n) search row.2) ↔
    (flag = .afterKey → ∀ key, active = .primary key →
      (keyCopyToComparable held active n search).length < comparableKeyLength key.parts →
      ¬ TupleEq rank (searchParts active n) row.2 search) := by
  obtain ⟨low, group⟩ := reached_iff mirrored of_table held embeds holds_search mem holds_row
  unfold Reached Wanted
  rw [low]
  by_cases after : flag = .afterKey
  · simp only [after, if_true, true_imp_iff, tupleLt_iff _ search]
    cases active with
    | secondary i ix => simp [group]
    | primary key =>
      obtain ⟨built, eq⟩ := (mirrored.keyed row.1 row.2 mem).user key of_table
      have width : row.1.length = comparableKeyLength key.parts := by rw [← eq, makeComparableKey_length]
      simp only [primary.injEq, forall_eq']
      by_cases part : (keyCopyToComparable held (.primary key) n search).length < comparableKeyLength key.parts
      · have apart : row.1 ≠ keyCopyToComparable held (.primary key) n search := by
          rintro same
          rw [← same, width] at part
          exact lt_irrefl _ part
        simp only [part, true_imp_iff, ne_eq, apart, not_false_eq_true, and_true]
        constructor
        · intro both same
          exact (both.mp (tupleEq_not_lt same)).2 same
        · intro differ
          simp [differ]
      · have same_iff : row.1 = keyCopyToComparable held (.primary key) n search ↔
            TupleEq rank (searchParts (.primary key) n) row.2 search := by
          rw [← group]
          constructor
          · intro same
            exact ⟨[], (append_nil _).trans same.symm⟩
          · intro starts
            exact (starts.eq_of_length_le (by rw [image, width]; omega)).symm
        simp [part, same_iff]
  · simp [after]

/-- What goes wrong is `HA_READ_AFTER_KEY` on a part of the primary key that some row has. -/
theorem embedded_forward_iff {n : Nat} {search : Record} (holds_search : Holds values (searchParts active n) search)
    (holds_rows : ∀ row ∈ s.rows.entries, Holds values active.key.parts row.2) (flag : FindFlag) :
    (∀ row ∈ s.rows.entries, Reached residue active flag (keyCopyToComparable held active n search) row ↔
      Wanted rank flag (searchParts active n) search row.2) ↔
    ∀ row ∈ s.rows.entries, flag = .afterKey → ∀ key, active = .primary key →
      (keyCopyToComparable held active n search).length < comparableKeyLength key.parts →
      ¬ TupleEq rank (searchParts active n) row.2 search :=
  forall₂_congr fun row mem =>
    reached_wanted_iff mirrored of_table held embeds holds_search mem (holds_rows row mem) flag

end

end Reference

def byteValues : Nat → Set Bytes := fun _ => {v | v.length = 1}

theorem bytePart_embeds (f : Nat) : (bytePart f).Embeds (A := fun _ => Bytes) (fun _ v => v) byteValues := by
  intro v one_v w one_w r r'
  have padded : ∀ x : Bytes, x.length = 1 → zeroPad 1 x = x := by
    intro x one
    rw [zeroPad_long one.ge, take_of_length_le one.le]
  change zeroPad 1 v < zeroPad 1 w ↔ v < w
  rw [padded v one_v, padded w one_w]

theorem pairKey_of : (primary pairKey).Of pairs := rfl

theorem pairKey_embeds : ∀ kp ∈ pairKey.parts, kp.Embeds (A := fun _ => Bytes) (fun _ v => v) byteValues := by
  intro kp mem
  rcases mem_cons.mp mem with rfl | last
  · exact bytePart_embeds 0
  · rw [mem_singleton] at last
    subst last
    exact bytePart_embeds 1

theorem onePair_holds : ∀ row ∈ onePair.rows.entries, Holds byteValues pairKey.parts row.2 := by
  have rows : onePair.rows.entries = [([2, 1], [some [2], some [1]])] := by decide
  rw [rows]
  simp [Holds, pairKey, bytePart, column, byteValues]

theorem search_holds (b : UInt8) : Holds byteValues (searchParts (.primary pairKey) 1) [some [b]] := by
  simp [Holds, searchParts, key, pairKey, bytePart, column, byteValues]

theorem forward_range_from :
    ScanExact onePair (Wanted (A := fun _ => Bytes) (fun _ v => v) .keyOrNext (searchParts (.primary pairKey) 1) [some [1]])
        (TupleLt (fun _ v => v) pairKey.parts)
        (rangeScan pairs onePair empty (fun _ => none) (.primary pairKey) .keyOrNext
          (keyCopyToComparable (fun _ => 0) (.primary pairKey) 1 [some [1]])) ∧
      PointNext pairs onePair empty (fun _ => none) (.primary pairKey)
        (keyCopyToComparable (fun _ => 0) (.primary pairKey) 1 [some [1]]) :=
  (forward_range_iff (fun _ v => v) pairs (fun _ _ _ => 0) onePair empty (fun _ => none)
    (.primary pairKey) 1 [some [1]] (fun _ => 0) .keyOrNext (onePair_mirrored _) rfl (.inl rfl)).mpr
    ⟨(embedded_forward_iff (onePair_mirrored _) pairKey_of _ pairKey_embeds (search_holds 1) onePair_holds _).mpr nofun,
      image_ordered (onePair_mirrored _) pairKey_of pairKey_embeds onePair_holds _⟩

/-- `WHERE a > 2` on the primary key (a, b) returns the row (2, 1). -/
theorem after_key_returns_group :
    ¬ ∀ (values : Nat → Set Bytes) (T : Schema) (residue : Nat → Bytes → Residue) (s : Table)
      (metas : SortedMap Bytes Bytes) (keyRead : Bytes → Option Record) (active : ActiveIndex) (n : Nat)
      (search : Record) (held : Residue) (flag : FindFlag), Mirrored T residue s → active.Of T →
      (∀ kp ∈ active.key.parts, kp.Embeds (A := fun _ => Bytes) (fun _ v => v) values) →
      Holds values (searchParts active n) search → (∀ row ∈ s.rows.entries, Holds values active.key.parts row.2) →
      1 ≤ n → n ≤ active.key.parts.length → flag = .keyOrNext ∨ flag = .afterKey →
      ScanExact s (Wanted (A := fun _ => Bytes) (fun _ v => v) flag (searchParts active n) search)
          (TupleLt (fun _ v => v) active.key.parts)
          (rangeScan T s metas keyRead active flag (keyCopyToComparable held active n search)) ∧
        PointNext T s metas keyRead active (keyCopyToComparable held active n search) := by
  intro claim
  have holds := claim byteValues pairs (fun _ _ _ => 0) onePair empty (fun _ => none) (.primary pairKey) 1
    [some [2]] (fun _ => 0) .afterKey (onePair_mirrored _) rfl pairKey_embeds (search_holds 2) onePair_holds
    (by decide) (by decide) (.inr rfl)
  obtain ⟨record, has, wanted⟩ := (holds.1.rows [2, 1]).mp (by decide)
  obtain rfl : record = [some [2], some [1]] := has.unique (by decide)
  have behind := (tupleLt_iff _ _ _).mp wanted
  exact behind.2 (by simp [TupleEq, searchParts, key, pairKey, bytePart, sqlValue, column])

end TidesdbMysql
