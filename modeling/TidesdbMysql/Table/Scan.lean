import TidesdbMysql.Key.Order
import TidesdbMysql.Table.Consistency

/-! Exact lookups: `index_read_map` with `HA_READ_KEY_EXACT`, then `index_next_same`
until it stops. A full primary key is a point get, a partial one and a secondary
key run an iterator. -/
namespace TidesdbMysql

open Base (Bytes SortedMap Starts)
open List Base.SortedMap

abbrev Row := Bytes × Record

inductive ActiveIndex where
  | primary (key : Key)
  | secondary (i : Nat) (ix : Index)

def ActiveIndex.key : ActiveIndex → Key
  | .primary key => key
  | .secondary _ ix => ix.key

def ActiveIndex.Of (T : Schema) : ActiveIndex → Prop
  | .primary key => T.pk = some key
  | .secondary i ix => T.indexes[i]? = some ix ∧ ∃ unique, ix.kind = .ordinary unique

/-- `scan_iter` with the entries from its position on. -/
inductive ScanIter where
  | closed
  | rows (rest : List Row)
  | entries (rest : List (Bytes × Bytes))

structure Scan where
  searchComp : Bytes
  iter : ScanIter

/- `key_copy_to_comparable`: at least one part is taken. -/
def searchParts (active : ActiveIndex) (n : Nat) : List KeyPart := active.key.parts.take (max 1 n)

def keyCopyToComparable (residue : Residue) (active : ActiveIndex) (n : Nat) (search : Record) : Bytes :=
  makeComparableKey residue (searchParts active n) search

def fetchRowByPk (s : Table) (pk : Bytes) : Except HaCode Row :=
  match s.rows.lookup pk with
  | none => .error .keyNotFound
  | some record => .ok (pk, record)

def iterReadCurrent : List Row → Except HaCode Row
  | [] => .error .endOfFile
  | row :: _ => .ok row

/- The entry under a secondary iterator: out of the group, or the row its suffix names.
There is no pushed condition. -/
def readEntry (s : Table) (key : Key) (comp : Bytes) (stop : HaCode) : List (Bytes × Bytes) → Except HaCode Row
  | [] => .error stop
  | e :: _ =>
    if Starts comp e = false then .error stop
    else if e.1.length ≤ comparableKeyLength key.parts then .error stop
    else fetchRowByPk s (e.1.drop (comparableKeyLength key.parts))

/-- `index_read_map` with `HA_READ_KEY_EXACT`. -/
def indexReadExact (s : Table) (active : ActiveIndex) (comp : Bytes) : Except HaCode Row × Scan :=
  match active with
  | .primary key =>
    if comparableKeyLength key.parts ≤ comp.length then (fetchRowByPk s comp, ⟨comp, .closed⟩)
    else
      -- the first row from the prefix on, whether it starts with the prefix or not
      (iterReadCurrent (s.rows.seek comp), ⟨comp, .rows (s.rows.seek comp)⟩)
  | .secondary i ix =>
    (readEntry s ix.key comp .keyNotFound ((s.index i).seek comp),
      ⟨comp, .entries ((s.index i).seek comp)⟩)

def indexNextSame (s : Table) (active : ActiveIndex) (scan : Scan) : Except HaCode Row × Scan :=
  match active, scan.iter with
  | .primary key, .rows rest =>
    if comparableKeyLength key.parts ≤ scan.searchComp.length then (.error .endOfFile, scan)
    else
      match rest.tail with
      | [] => (.error .endOfFile, ⟨scan.searchComp, .rows []⟩)
      | row :: more =>
        if Starts scan.searchComp row then
          (iterReadCurrent (row :: more), ⟨scan.searchComp, .rows (row :: more)⟩)
        else (.error .endOfFile, ⟨scan.searchComp, .rows (row :: more)⟩)
  | .secondary _ ix, .entries rest =>
    (readEntry s ix.key scan.searchComp .endOfFile rest.tail, ⟨scan.searchComp, .entries rest.tail⟩)
  | _, _ => (.error .endOfFile, scan)

/- `index_next_same` at most `calls` times: the rows and the code it stopped with, if it did. -/
def readSame (s : Table) (active : ActiveIndex) : Nat → Scan → List Row × Option HaCode
  | 0, _ => ([], none)
  | calls + 1, scan =>
    match indexNextSame s active scan with
    | (.error code, _) => ([], some code)
    | (.ok row, scan) =>
      (row :: (readSame s active calls scan).1, (readSame s active calls scan).2)

def exactRead (s : Table) (active : ActiveIndex) (comp : Bytes) (calls : Nat) : List Row × Option HaCode :=
  match indexReadExact s active comp with
  | (.error code, _) => ([], some code)
  | (.ok row, scan) => (row :: (readSame s active calls scan).1, (readSame s active calls scan).2)

def ActiveIndex.image (residue : Nat → Bytes → Residue) : ActiveIndex → Row → Bytes
  | .primary _, row => row.1
  | .secondary i ix, row => makeComparableKey (residue i row.1) ix.key.parts row.2 ++ row.1

variable {s : Table} {key : Key} {comp : Bytes}

theorem readSame_rows (part : comp.length < comparableKeyLength key.parts) (row : Row) (rest : List Row) (calls : Nat)
    (enough : rest.length < calls) :
    readSame s (.primary key) calls ⟨comp, .rows (row :: rest)⟩ = (rest.takeWhile (Starts comp), some .endOfFile) := by
  have not_full := not_le.mpr part
  induction rest generalizing row calls with
  | nil =>
    cases calls with
    | zero => simp at enough
    | succ calls => simp [readSame, indexNextSame, not_full]
  | cons next more ih =>
    cases calls with
    | zero => simp at enough
    | succ calls =>
      have again := ih next calls (by simpa using enough)
      cases here : Starts comp next with
      | true => simp [readSame, indexNextSame, not_full, here, iterReadCurrent, again]
      | false => simp [readSame, indexNextSame, not_full, here]

def entryRow (s : Table) (key : Key) (e : Bytes × Bytes) : Row :=
  (e.1.drop (comparableKeyLength key.parts),
    (s.rows.lookup (e.1.drop (comparableKeyLength key.parts))).getD [])

def LiveEntry (s : Table) (key : Key) (e : Bytes × Bytes) : Prop :=
  comparableKeyLength key.parts < e.1.length ∧
    s.rows.HasKey (e.1.drop (comparableKeyLength key.parts))

theorem readEntry_live {e : Bytes × Bytes} (live : LiveEntry s key e) (comp : Bytes) (stop : HaCode)
    (rest : List (Bytes × Bytes)) :
    readEntry s key comp stop (e :: rest) = if Starts comp e then .ok (entryRow s key e) else .error stop := by
  obtain ⟨record, has⟩ := hasKey_iff.mp live.2
  have found := lookup_eq_some.mpr has
  cases here : Starts comp e with
  | false => simp [readEntry, here]
  | true => simp [readEntry, here, not_le.mpr live.1, fetchRowByPk, entryRow, found]

theorem readSame_entries (s : Table) (i : Nat) (ix : Index) (comp : Bytes) (e : Bytes × Bytes)
    (rest : List (Bytes × Bytes)) (live : ∀ x ∈ rest, LiveEntry s ix.key x) (calls : Nat)
    (enough : rest.length < calls) : readSame s (.secondary i ix) calls ⟨comp, .entries (e :: rest)⟩ =
      ((rest.takeWhile (Starts comp)).map (entryRow s ix.key), some .endOfFile) := by
  induction rest generalizing e calls with
  | nil =>
    cases calls with
    | zero => simp at enough
    | succ calls => simp [readSame, indexNextSame, readEntry]
  | cons next more ih =>
    cases calls with
    | zero => simp at enough
    | succ calls =>
      have again := ih next (fun x mem => live x (mem_cons_of_mem _ mem)) calls (by simpa using enough)
      have read := readEntry_live (live next mem_cons_self) comp .endOfFile more
      cases here : Starts comp next with
      | true => simp [readSame, indexNextSame, read, here, again]
      | false => simp [readSame, indexNextSame, read, here]

/-- Enough calls of `index_next_same` for any group of the index. -/
def scanBound (s : Table) : ActiveIndex → Nat
  | .primary _ => s.rows.size
  | .secondary i _ => (s.index i).size

def exactLookup (s : Table) (active : ActiveIndex) (comp : Bytes) : List Row × Option HaCode :=
  exactRead s active comp (scanBound s active)

theorem seek_length_le {V : Type} (m : SortedMap Bytes V) (k : Bytes) : (m.seek k).length ≤ m.size := by
  rw [m.seek_eq_filter]
  exact length_filter_le _ _

/- A partial primary key returns its group, or, when the group is empty, the row after
the place where it would be. -/
theorem exactLookup_group (part : comp.length < comparableKeyLength key.parts) : exactLookup s (.primary key) comp =
      (if s.rows.entries.filter (Starts comp) = [] then (s.rows.seek comp).head?.toList
        else s.rows.entries.filter (Starts comp), some .endOfFile) := by
  have group := Base.seek_takeWhile_starts s.rows comp
  have bound := seek_length_le s.rows comp
  rw [← group]
  unfold exactLookup exactRead
  simp only [indexReadExact, not_le.mpr part, if_false]
  cases found : s.rows.seek comp with
  | nil => simp [iterReadCurrent]
  | cons row rest =>
    rw [found] at bound group
    have follow := readSame_rows (s := s) part row rest (scanBound s (.primary key)) bound
    simp only [iterReadCurrent, follow]
    cases here : Starts comp row with
    | true => simp [here]
    | false =>
      have none_later : rest.takeWhile (Starts comp) = [] := by
        have empty : (row :: rest).takeWhile (Starts comp) = [] := by simp [here]
        rw [empty] at group
        cases rest with
        | nil => rfl
        | cons next more =>
          have mem : next ∈ s.rows.seek comp := by simp [found]
          have foreign := filter_eq_nil_iff.mp group.symm next (mem_seek.mp mem).1
          exact takeWhile_cons_of_neg foreign
      simp [here, none_later]

theorem exactLookup_full (full : comparableKeyLength key.parts ≤ comp.length) : exactLookup s (.primary key) comp =
      match s.rows.lookup comp with
      | none => ([], some .keyNotFound) | some record => ([(comp, record)], some .endOfFile) := by
  simp only [exactLookup, exactRead, indexReadExact, full, if_true, fetchRowByPk]
  cases found : s.rows.lookup comp with
  | none => rfl
  | some record =>
    -- the table has a row, so at least one further call is made
    have some_row : 0 < s.rows.size :=
      length_pos_of_mem (lookup_eq_some.mp found)
    obtain ⟨calls, bound⟩ := Nat.exists_eq_succ_of_ne_zero (Nat.ne_of_gt some_row)
    simp [scanBound, bound, readSame, indexNextSame]

theorem exactLookup_secondary {i : Nat} {ix : Index} (live : ∀ e ∈ (s.index i).entries, LiveEntry s ix.key e) :
    exactLookup s (.secondary i ix) comp = (((s.index i).entries.filter (Starts comp)).map (entryRow s ix.key),
        some (if (s.index i).entries.filter (Starts comp) = [] then .keyNotFound else .endOfFile)) := by
  have bound := seek_length_le (s.index i) comp
  have from_index : ∀ e ∈ (s.index i).seek comp, LiveEntry s ix.key e :=
    fun e mem => live e (mem_seek.mp mem).1
  rw [← Base.seek_takeWhile_starts (s.index i) comp]
  unfold exactLookup exactRead
  simp only [indexReadExact]
  cases found : (s.index i).seek comp with
  | nil => simp [readEntry]
  | cons e rest =>
    rw [found] at bound from_index
    have follow := readSame_entries s i ix comp e rest
      (fun x mem => from_index x (mem_cons_of_mem _ mem)) (scanBound s (.secondary i ix)) bound
    rw [readEntry_live (from_index e mem_cons_self)]
    cases here : Starts comp e with
    | true => simp [here, follow]
    | false => simp [here]

section Exact

variable {T : Schema} {residue : Nat → Bytes → Residue} {s : Table}

variable {i : Nat} {ix : Index} {active : ActiveIndex}

theorem entry_row (mirrored : Mirrored T residue s) (of_table : (ActiveIndex.secondary i ix).Of T) {e : Bytes × Bytes}
    (mem : e ∈ (s.index i).entries) : LiveEntry s ix.key e ∧ entryRow s ix.key e ∈ s.rows.entries ∧
      (ActiveIndex.secondary i ix).image residue (entryRow s ix.key e) = e.1 := by
  obtain ⟨at_i, unique, kind⟩ := of_table
  obtain ⟨pk, record, has, image⟩ := (mirrored.entries i ix at_i e.1).mp ⟨e, mem, rfl⟩
  simp only [Index.entryKeys, kind, mem_singleton] at image
  have suffix : e.1.drop (comparableKeyLength ix.key.parts) = pk := by
    rw [image]
    exact drop_left' (by simp)
  have row : entryRow s ix.key e = (pk, record) := by
    simp [entryRow, suffix, lookup_eq_some.mpr has]
  refine ⟨⟨?_, ?_⟩, ?_, ?_⟩
  · have := (mirrored.keyed pk record has).nonempty
    rw [image, length_append, makeComparableKey_length]
    omega
  · rw [suffix]
    exact has.hasKey
  · rw [row]
    exact has
  · rw [row]
    exact image.symm

theorem entry_of_row (mirrored : Mirrored T residue s) (of_table : (ActiveIndex.secondary i ix).Of T) {row : Row}
    (mem : row ∈ s.rows.entries) :
    ∃ e ∈ (s.index i).entries, e.1 = (ActiveIndex.secondary i ix).image residue row ∧ entryRow s ix.key e = row := by
  obtain ⟨at_i, unique, kind⟩ := of_table
  obtain ⟨e, there, image⟩ := (mirrored.entries i ix at_i).of_row mem
    (j := makeComparableKey (residue i row.1) ix.key.parts row.2 ++ row.1)
    (by simp [Index.entryKeys, kind])
  refine ⟨e, there, image, ?_⟩
  have suffix : e.1.drop (comparableKeyLength ix.key.parts) = row.1 := by
    rw [image]
    exact drop_left' (by simp)
  simp [entryRow, suffix, lookup_eq_some.mpr mem]

def Stray (s : Table) (comp : Bytes) (row : Row) : ActiveIndex → Prop
  | .primary key =>
    comp.length < comparableKeyLength key.parts ∧ s.rows.entries.filter (Starts comp) = [] ∧
      (s.rows.seek comp).head? = some row
  | .secondary _ _ => False

instance (s : Table) (comp : Bytes) (row : Row) (active : ActiveIndex) : Decidable (Stray s comp row active) := by
  cases active <;> dsimp only [Stray] <;> infer_instance

theorem group_mem (part : comp.length < comparableKeyLength key.parts) (row : Row) :
    row ∈ (exactLookup s (.primary key) comp).1 ↔ row ∈ s.rows.entries ∧
      (comp <+: row.1 ∨ Stray s comp row (.primary key)) := by
  simp only [exactLookup_group part, Stray, part, true_and]
  by_cases empty : s.rows.entries.filter (Starts comp) = []
  · simp only [empty, if_true, true_and, Option.mem_toList]
    have none_starts := filter_eq_nil_iff.mp empty
    constructor
    · intro first
      exact ⟨(mem_seek.mp (mem_of_mem_head? first)).1, Or.inr first⟩
    · rintro ⟨mem, starts | first⟩
      · exact absurd (decide_eq_true starts) (none_starts row mem)
      · exact first
  · simp only [empty, if_false, false_and, or_false, mem_filter, Starts, decide_eq_true_eq]

theorem full_mem (mirrored : Mirrored T residue s) (user : T.pk = some key)
    (full : comparableKeyLength key.parts ≤ comp.length) (row : Row) :
    row ∈ (exactLookup s (.primary key) comp).1 ↔ row ∈ s.rows.entries ∧ comp <+: row.1 := by
  rw [exactLookup_full full]
  constructor
  · intro returned
    cases found : s.rows.lookup comp with
    | none => simp [found] at returned
    | some record =>
      obtain rfl : row = (comp, record) := by simpa [found] using returned
      exact ⟨lookup_eq_some.mp found, prefix_refl _⟩
  · rintro ⟨mem, starts⟩
    obtain ⟨built, eq⟩ := (mirrored.keyed row.1 row.2 mem).user key user
    have width : row.1.length = comparableKeyLength key.parts := by
      rw [← eq, makeComparableKey_length]
    have same : comp = row.1 := starts.eq_of_length_le (width ▸ full)
    have found : s.rows.lookup comp = some row.2 := lookup_eq_some.mpr (same ▸ mem)
    rw [found, same]
    exact mem_cons_self

theorem secondary_mem (mirrored : Mirrored T residue s)
    (of_table : (ActiveIndex.secondary i ix).Of T) (comp : Bytes) (row : Row) :
    row ∈ (exactLookup s (.secondary i ix) comp).1 ↔ row ∈ s.rows.entries ∧
      comp <+: (ActiveIndex.secondary i ix).image residue row := by
  rw [exactLookup_secondary fun e mem => (entry_row mirrored of_table mem).1]
  simp only [mem_map, mem_filter]
  constructor
  · rintro ⟨e, ⟨mem, starts⟩, rfl⟩
    obtain ⟨-, there, image⟩ := entry_row mirrored of_table mem
    exact ⟨there, image ▸ of_decide_eq_true starts⟩
  · rintro ⟨mem, starts⟩
    obtain ⟨e, there, image, back⟩ := entry_of_row mirrored of_table mem
    exact ⟨e, ⟨there, decide_eq_true (image ▸ starts)⟩, back⟩

theorem exactLookup_mem (mirrored : Mirrored T residue s) (of_table : active.Of T) (comp : Bytes) (row : Row) :
    row ∈ (exactLookup s active comp).1 ↔ row ∈ s.rows.entries ∧
      (comp <+: active.image residue row ∨ Stray s comp row active) := by
  cases active with
  | primary key =>
    by_cases part : comp.length < comparableKeyLength key.parts
    · exact group_mem part row
    · rw [full_mem mirrored of_table (not_lt.mp part)]
      simp only [ActiveIndex.image, Stray, part, false_and, or_false]
  | secondary i ix =>
    rw [secondary_mem mirrored of_table]
    simp only [Stray, or_false]

theorem exactLookup_ordered (mirrored : Mirrored T residue s) (of_table : active.Of T) (comp : Bytes) :
    (exactLookup s active comp).1.Pairwise (fun a b => active.image residue a < active.image residue b) := by
  cases active with
  | primary key =>
    by_cases part : comp.length < comparableKeyLength key.parts
    · rw [exactLookup_group part]
      split
      · cases (s.rows.seek comp).head? <;> simp
      · exact s.rows.sorted.filter _
    · rw [exactLookup_full (not_lt.mp part)]
      cases s.rows.lookup comp <;> simp
  | secondary i ix =>
    rw [exactLookup_secondary fun e mem => (entry_row mirrored of_table mem).1]
    apply pairwise_map.mpr
    apply List.Pairwise.imp_of_mem _ ((s.index i).sorted.filter (Starts comp))
    intro a b ha hb before
    rw [(entry_row mirrored of_table (mem_filter.mp ha).1).2.2, (entry_row mirrored of_table (mem_filter.mp hb).1).2.2]
    exact before

theorem exactLookup_ends (mirrored : Mirrored T residue s) (of_table : active.Of T) (comp : Bytes) :
    (exactLookup s active comp).2 = some .endOfFile ∨ (exactLookup s active comp).2 = some .keyNotFound := by
  cases active with
  | primary key =>
    by_cases part : comp.length < comparableKeyLength key.parts
    · rw [exactLookup_group part]
      exact Or.inl rfl
    · rw [exactLookup_full (not_lt.mp part)]
      cases s.rows.lookup comp <;> simp
  | secondary i ix =>
    rw [exactLookup_secondary fun e mem => (entry_row mirrored of_table mem).1]
    split
    · exact Or.inr rfl
    · exact Or.inl rfl

/-- The lookup stops with not-found or end-of-file after exactly the rows that agree, each once, in
byte order. -/
structure LookupExact (residue : Nat → Bytes → Residue) (s : Table) (active : ActiveIndex) (n : Nat)
    (search : Record) (comp : Bytes) : Prop where
  ends : (exactLookup s active comp).2 = some .endOfFile ∨
    (exactLookup s active comp).2 = some .keyNotFound
  rows : ∀ row, row ∈ (exactLookup s active comp).1 ↔
    row ∈ s.rows.entries ∧ SameKey (searchParts active n) search row.2
  ordered : (exactLookup s active comp).1.Pairwise
    (fun a b => active.image residue a < active.image residue b)

/-- An exact lookup is sound and complete exactly when a row's key starts with the search bytes, or
it is the one strayed to, just where its values agree. -/
theorem lookup_exact_iff (T : Schema) (residue : Nat → Bytes → Residue) (s : Table)
    (active : ActiveIndex) (n : Nat) (search : Record) (held : Residue)
    (mirrored : Mirrored T residue s) (of_table : active.Of T) :
    LookupExact residue s active n search (keyCopyToComparable held active n search) ↔
      ∀ row ∈ s.rows.entries, (keyCopyToComparable held active n search <+: active.image residue row ∨
          Stray s (keyCopyToComparable held active n search) row active) ↔
        SameKey (searchParts active n) search row.2 := by
  have returned := exactLookup_mem mirrored of_table (keyCopyToComparable held active n search)
  constructor
  · intro exact_lookup row mem
    have both := (returned row).symm.trans (exact_lookup.rows row)
    simpa only [mem, true_and] using both
  · intro agree
    refine ⟨exactLookup_ends mirrored of_table _, ?_, exactLookup_ordered mirrored of_table _⟩
    intro row
    rw [returned row]
    exact and_congr_right fun mem => agree row mem

end Exact

/- `PRIMARY KEY (a, b)` over two one-byte columns. -/
def pairKey : Key := ⟨[bytePart 0, bytePart 1], List.cons_ne_nil _ _⟩

def pairs : Schema := ⟨some pairKey, [], none⟩

def onePair : Table :=
  (writeRow pairs Table.empty (fun _ => none) (insertOf [some [2], some [1]])).table

theorem onePair_mirrored (residue : Nat → Bytes → Residue) : Mirrored pairs residue onePair :=
  (write_consistent (empty_consistent _ _) _ _ (by decide)).toMirrored

theorem lookup_exact_group : LookupExact (fun _ _ _ => 0) onePair (.primary pairKey) 1 [some [2]]
      (keyCopyToComparable (fun _ => 0) (.primary pairKey) 1 [some [2]]) :=
  (lookup_exact_iff pairs _ onePair (.primary pairKey) 1 [some [2]] (fun _ => 0)
    (onePair_mirrored _) rfl).mpr (by decide)

/-- `WHERE a = 1` on the table with the one row (2, 1) returns that row. -/
theorem lookup_returns_foreign_row :
    ¬ ∀ (T : Schema) (residue : Nat → Bytes → Residue) (s : Table) (active : ActiveIndex) (n : Nat)
      (search : Record) (held : Residue), Mirrored T residue s → active.Of T → 1 ≤ n → n ≤ active.key.parts.length →
      LookupExact residue s active n search (keyCopyToComparable held active n search) := by
  intro claim
  have holds := claim pairs (fun _ _ _ => 0) onePair (.primary pairKey) 1 [some [1]] (fun _ => 0)
    (onePair_mirrored _) rfl (by decide) (by decide)
  have returned := (holds.rows ([2, 1], [some [2], some [1]])).mp (by decide)
  exact absurd returned.2 (by decide)

end TidesdbMysql
