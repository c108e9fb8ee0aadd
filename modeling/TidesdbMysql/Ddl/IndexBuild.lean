import TidesdbMysql.Row.Alter
import TidesdbMysql.Table.Consistency

/-! The build of added indexes, `inplace_alter_table`: one scan of the data family in batches,
against what `write_row` would have stored for the rows. -/
namespace TidesdbMysql

open Base (Bytes SortedMap)
open List Base.SortedMap

variable {st st' built : List (AddedIndex × IndexBuild)} {adds : List AddedIndex} {v : Bytes × Option Nat}
  {L : AlterLayout}

structure BuildRow where
  pk : Bytes
  old : Record
  expires : Option Nat
  deriving DecidableEq

def BuildRow.liveAt (row : BuildRow) (t : Nat) : Bool :=
  match row.expires with
  | none => true
  | some e => decide (t < e)

structure BuildRows where
  rows : List BuildRow
  distinct : (rows.map (·.pk)).Nodup

/-- When the iterator comes to the i-th row, when it would seek back to it, and when the build is
over. -/
structure BuildClock where
  pass : Nat → Nat
  reseek : Nat → Nat
  finish : Nat
  pass_le : ∀ i, pass i ≤ reseek i
  reseek_le : ∀ i, reseek i ≤ pass (i + 1)
  finish_le : ∀ i, pass i ≤ finish

/-- Where the columns lie in the two record buffers, which old column an altered one is, what an
added one holds, and what is read where no old column begins. -/
structure AlterLayout where
  columns : Nat
  oldPlace : Nat → Nat
  places_apart : Function.Injective oldPlace
  alteredPlace : Nat → Nat
  origin : Nat → Option Nat
  added : Nat → Option Bytes
  between : Record → Nat → Option Bytes

/- `table->record[0]` after `deserialize_row`, read at a place. -/
def AlterLayout.bufferAt (L : AlterLayout) (old : Record) (place : Nat) : Option Bytes :=
  match (List.range old.length).find? fun j => L.oldPlace j = place with
  | some j => column old j
  | none => L.between old place

/-- The row as the key parts of the altered table see it, with their field pointers moved to the old
record. -/
def AlterLayout.rebased (L : AlterLayout) (old : Record) : Record :=
  (List.range L.columns).map fun c => L.bufferAt old (L.alteredPlace c)

def AlterLayout.altered (L : AlterLayout) (old : Record) : Record :=
  (List.range L.columns).map fun c =>
    match L.origin c with
    | some j => column old j
    | none => L.added c

structure AddedIndex where
  number : Nat
  index : Index

/-- A new family: values with their lifetime, and `idx_seen`. -/
structure IndexBuild where
  cf : SortedMap Bytes (Bytes × Option Nat)
  seen : List Bytes

def timed (expires : Option Nat) (ops : List (CfOp Bytes)) : List (Bytes × (Bytes × Option Nat)) :=
  ops.filterMap fun op =>
    match op with
    | .put k v => some (k, (v, expires))
    | .delete _ => none

/-- What the build puts for one row; a SPATIAL key is passed over. The key columns are
encoded by `make_comparable_key`. -/
def buildPuts (residue : Nat → Bytes → Residue) (add : AddedIndex) (pk : Bytes) (record : Record) :
    List (CfOp Bytes) :=
  match add.index.kind with
  | .fulltext tokenize =>
    (ftsTerms tokenize add.index.key record).map
      (ftsPut (ftsExtractAndTokenize tokenize add.index.key record) pk)
  | .spatial _ => []
  | .ordinary _ =>
    [.put (makeComparableKey (residue add.number pk) add.index.key.parts record ++ pk) emptyVal]

section
variable (batch : Nat) (killed : Nat → Bool) (residue : Nat → Bytes → Residue) (L : AlterLayout)
  (clock : BuildClock)

/- The puts of the build carry `TIDESDB_TTL_NONE`. -/
def buildImage (add : AddedIndex) (row : BuildRow) : List (Bytes × (Bytes × Option Nat)) :=
  timed none (buildPuts residue add row.pk (L.rebased row.old))

/- `none` when a UNIQUE key meets its columns again. -/
def buildEntry (row : BuildRow) (add : AddedIndex) (b : IndexBuild) : Option IndexBuild :=
  let cf := b.cf.putAll (buildImage residue L add row)
  if add.index.isUnique then
    let columns := makeComparableKey (residue add.number row.pk) add.index.key.parts (L.rebased row.old)
    if b.seen.contains columns then none else some ⟨cf, columns :: b.seen⟩
  else some ⟨cf, b.seen⟩

def buildRow (row : BuildRow) : List (AddedIndex × IndexBuild) → Option (List (AddedIndex × IndexBuild))
  | [] => some []
  | (add, b) :: rest =>
    match buildEntry residue L row add b with
    | none => none
    | some b => (buildRow row rest).map ((add, b) :: ·)

/-- The scan from the i-th row on. After a batch the iterator seeks the last key and moves past what
it finds; `past` if that has expired. -/
def buildLoop : Bool → Nat → Nat → List BuildRow → List (AddedIndex × IndexBuild) →
    Option (List (AddedIndex × IndexBuild))
  | _, _, _, [], st => some st
  | past, i, n, row :: rest, st =>
    if row.liveAt (clock.pass i) = false then buildLoop past (i + 1) n rest st
    else if past then buildLoop false (i + 1) n rest st
    else
      match buildRow residue L row st with
      | none => none
      | some st =>
        if (n + 1) % batch = 0 then
          if killed (n + 1) then none
          else buildLoop (!row.liveAt (clock.reseek i)) (i + 1) (n + 1) rest st
        else buildLoop false (i + 1) (n + 1) rest st

def scannedRows : Bool → Nat → Nat → List BuildRow → List BuildRow
  | _, _, _, [] => []
  | past, i, n, row :: rest =>
    if row.liveAt (clock.pass i) = false then scannedRows past (i + 1) n rest
    else if past then scannedRows false (i + 1) n rest
    else row :: scannedRows (decide ((n + 1) % batch = 0) && !row.liveAt (clock.reseek i)) (i + 1) (n + 1) rest

end

def tidesdbIndexBuildBatch : Nat := 100

/-- `inplace_alter_table` without engine failures; `none` when it reports an error. -/
def inplaceAlterTable (killed : Nat → Bool) (residue : Nat → Bytes → Residue) (L : AlterLayout) (clock : BuildClock)
    (R : BuildRows) (adds : List AddedIndex) : Option (List (AddedIndex × IndexBuild)) :=
  buildLoop tidesdbIndexBuildBatch killed residue L clock false 0 0 R.rows
    (adds.map fun add => (add, ⟨.empty, []⟩))

section
variable (f g image : AddedIndex → List (Bytes × (Bytes × Option Nat)))
  (cfs : List (AddedIndex × SortedMap Bytes (Bytes × Option Nat))) (st : List (AddedIndex × IndexBuild))
  (R : BuildRows) (clock : BuildClock)

def BuildRows.scanned : List BuildRow :=
  scannedRows tidesdbIndexBuildBatch clock false 0 0 R.rows

def BuildRows.live : List BuildRow :=
  R.rows.filter (·.liveAt clock.finish)

def families : List (AddedIndex × SortedMap Bytes (Bytes × Option Nat)) :=
  st.map fun p => (p.1, p.2.cf)

def putFamilies : List (AddedIndex × SortedMap Bytes (Bytes × Option Nat)) :=
  cfs.map fun p => (p.1, p.2.putAll (image p.1))

theorem putFamilies_append : putFamilies g (putFamilies f cfs) = putFamilies (fun add => f add ++ g add) cfs := by
  simp only [putFamilies, map_map, Function.comp_def, putAll_append]

end

theorem adds_of_putFamilies {f : AddedIndex → List (Bytes × (Bytes × Option Nat))}
    (same : families st' = putFamilies f (families st)) : st'.map (·.1) = st.map (·.1) := by
  have firsts := congrArg (map (·.1)) same
  simpa [families, putFamilies, Function.comp_def] using firsts

section
variable {batch : Nat} {killed : Nat → Bool} {residue : Nat → Bytes → Residue} {L : AlterLayout}
  {clock : BuildClock}

theorem buildEntry_cf {row : BuildRow} {add : AddedIndex} {b b' : IndexBuild}
    (entered : buildEntry residue L row add b = some b') : b'.cf = b.cf.putAll (buildImage residue L add row) := by
  simp only [buildEntry] at entered
  split at entered
  · split at entered
    · cases entered
    · cases entered
      rfl
  · cases entered
    rfl

theorem buildRow_families {row : BuildRow} (done : buildRow residue L row st = some st') :
    families st' = putFamilies (fun add => buildImage residue L add row) (families st) := by
  induction st generalizing st' with
  | nil =>
    cases done
    rfl
  | cons p rest ih =>
    obtain ⟨add, b⟩ := p
    simp only [buildRow] at done
    split at done
    · cases done
    · rename_i b' entered
      obtain ⟨rest', rest_done, rfl⟩ := Option.map_eq_some_iff.mp done
      have tail := ih rest_done
      simp only [families, putFamilies] at tail
      simp only [families, putFamilies, map_cons, buildEntry_cf entered, tail]

theorem buildLoop_families {past : Bool} {i n : Nat} {rows : List BuildRow}
    (done : buildLoop batch killed residue L clock past i n rows st = some built) : families built =
      putFamilies (fun add => (scannedRows batch clock past i n rows).flatMap (buildImage residue L add)) (families st) := by
  induction rows generalizing past i n st with
  | nil =>
    cases done
    simp [scannedRows, putFamilies, putAll]
  | cons row rest ih =>
    simp only [buildLoop] at done
    simp only [scannedRows]
    split at done
    · rename_i expired
      rw [if_pos expired]
      exact ih done
    · rename_i alive
      rw [if_neg alive]
      split at done
      · rename_i skipped
        rw [if_pos skipped]
        exact ih done
      · rename_i reached
        rw [if_neg reached]
        split at done
        · cases done
        · rename_i st' row_done
          have entered := buildRow_families row_done
          -- whether or not a batch ends here, the rest starts with the flag of the scan
          have rest_done : ∃ past', past' = (decide ((n + 1) % batch = 0) && !row.liveAt (clock.reseek i)) ∧
              buildLoop batch killed residue L clock past' (i + 1) (n + 1) rest st' = some built := by
            split at done
            · rename_i ends
              split at done
              · cases done
              · exact ⟨_, by simp [ends], done⟩
            · rename_i inside
              exact ⟨_, by simp [inside], done⟩
          obtain ⟨past', rfl, rest_done⟩ := rest_done
          rw [ih rest_done, entered, putFamilies_append]
          simp only [flatMap_cons]

theorem scannedRows_sublist (past : Bool) (i n : Nat) (rows : List BuildRow) :
    (scannedRows batch clock past i n rows).Sublist rows := by
  induction rows generalizing past i n with
  | nil => exact .slnil
  | cons row rest ih =>
    simp only [scannedRows]
    split
    · exact (ih _ _ _).cons row
    · split
      · exact (ih _ _ _).cons row
      · exact (ih _ _ _).cons_cons row

variable (batch residue L clock)

theorem buildRow_some (row : BuildRow) (plain : ∀ p ∈ st, p.1.index.isUnique = false) :
    ∃ st', buildRow residue L row st = some st' := by
  induction st with
  | nil => exact ⟨[], rfl⟩
  | cons p rest ih =>
    obtain ⟨st', rest_done⟩ := ih fun q mem => plain q (mem_cons_of_mem _ mem)
    have entered : p.1.index.isUnique = false := plain p mem_cons_self
    simp [buildRow, buildEntry, entered, rest_done]

theorem buildLoop_some (alive : ∀ n, killed n = false) (past : Bool) (i n : Nat) (rows : List BuildRow)
    (plain : ∀ p ∈ st, p.1.index.isUnique = false) :
    ∃ built, buildLoop batch killed residue L clock past i n rows st = some built := by
  induction rows generalizing past i n st with
  | nil => exact ⟨st, rfl⟩
  | cons row rest ih =>
    obtain ⟨st', row_done⟩ := buildRow_some residue L row plain
    have plain' : ∀ p ∈ st', p.1.index.isUnique = false := by
      have same := adds_of_putFamilies (buildRow_families row_done)
      intro p mem
      obtain ⟨q, listed, first⟩ := mem_map.mp (same ▸ mem_map_of_mem mem)
      rw [← first]
      exact plain q listed
    simp only [buildLoop, row_done, alive, Bool.false_eq_true, if_false]
    split
    · exact ih _ _ _ plain
    · split
      · exact ih _ _ _ plain
      · split <;> exact ih _ _ _ plain'

end

section
variable (killed : Nat → Bool) (residue : Nat → Bytes → Residue) (L : AlterLayout) (clock : BuildClock)
  (R : BuildRows)

theorem build_succeeds (alive : ∀ n, killed n = false) (plain : ∀ add ∈ adds, add.index.isUnique = false) :
    ∃ built, inplaceAlterTable killed residue L clock R adds = some built ∧ built.map (·.1) = adds := by
  have fresh : ∀ p ∈ adds.map fun add => (add, (⟨.empty, []⟩ : IndexBuild)), p.1.index.isUnique = false := by
    simpa using plain
  obtain ⟨built, done⟩ := buildLoop_some tidesdbIndexBuildBatch residue L clock alive false 0 0 R.rows fresh
  refine ⟨built, done, ?_⟩
  rw [adds_of_putFamilies (buildLoop_families done), map_map]
  exact map_id adds

theorem build_of_one {add : AddedIndex} (plain : add.index.isUnique = false) :
    ∃ built b, inplaceAlterTable (fun _ => false) residue L clock R [add] = some built ∧ (add, b) ∈ built := by
  obtain ⟨built, done, adds⟩ := build_succeeds (fun _ => false) residue L clock R (fun _ => rfl)
    (forall_mem_singleton.mpr plain)
  have listed : add ∈ built.map (·.1) := adds ▸ mem_singleton_self add
  obtain ⟨⟨_, b⟩, mem, rfl⟩ := mem_map.mp listed
  exact ⟨built, b, done, mem⟩

end

theorem built_family {killed : Nat → Bool} {residue : Nat → Bytes → Residue} {clock : BuildClock} {R : BuildRows}
    (done : inplaceAlterTable killed residue L clock R adds = some built) {add : AddedIndex} {b : IndexBuild}
    (mem : (add, b) ∈ built) :
    b.cf = SortedMap.empty.putAll ((R.scanned clock).flatMap (buildImage residue L add)) := by
  have filed := buildLoop_families done
  have listed : (add, b.cf) ∈ families built := mem_map.mpr ⟨_, mem, rfl⟩
  rw [filed] at listed
  obtain ⟨p, start, same⟩ := mem_map.mp listed
  simp only [families, map_map] at start
  obtain ⟨first, -, rfl⟩ := mem_map.mp start
  obtain ⟨rfl, same_cf⟩ := Prod.mk.inj same
  exact same_cf.symm

section
variable (T : Schema) (scratch : Bytes → Scratch) (L : AlterLayout) (clock : BuildClock) (R : BuildRows)
  (add : AddedIndex)

def loopResidue (i : Nat) (pk : Bytes) : Residue := (scratch pk).entry i

/- What `write_row` puts for a row of the altered table. -/
def rowEntries (row : BuildRow) : List (CfOp Bytes) :=
  writeEntries T (scratch row.pk) row.pk (L.altered row.old) add.number add.index

def builtEntries (row : BuildRow) : List (CfOp Bytes) :=
  buildPuts (loopResidue scratch) add row.pk (L.rebased row.old)

/-- The family holds what `write_row` would have stored for the rows still live, with their
lifetimes. -/
def BuildExact (cf : SortedMap Bytes (Bytes × Option Nat)) : Prop :=
  ∀ k v, cf.Has k v ↔
    (SortedMap.empty.putAll ((R.live clock).flatMap fun row => timed row.expires (rowEntries T scratch L add row))).Has k v

def SameEntries (row : BuildRow) : Prop :=
  ∀ k v, (SortedMap.empty.putAll (timed none (builtEntries scratch L add row))).Has k v ↔
    (SortedMap.empty.putAll (timed none (rowEntries T scratch L add row))).Has k v

/-- A row with entries put has no lifetime and reads the same under both definitions; a live row
without has none. -/
def BuildsRight : Prop :=
  (∀ row ∈ R.scanned clock, builtEntries scratch L add row ≠ [] →
    row.expires = none ∧ SameEntries T scratch L add row) ∧
  ∀ row ∈ R.live clock, row ∉ R.scanned clock ∨ builtEntries scratch L add row = [] →
    rowEntries T scratch L add row = []

/- Each row is stored under the key `sec_idx_key` finds in it. -/
def RowsKeyed : Prop :=
  ∀ row ∈ R.rows, pkFromRecord T ((scratch row.pk).entryPk add.number) row.pk (L.altered row.old) = row.pk

end

section
variable {T : Schema} {scratch : Bytes → Scratch} {L : AlterLayout} {clock : BuildClock} {R : BuildRows}
  {add : AddedIndex}

variable {expires : Option Nat} {ops : List (CfOp Bytes)} {k : Bytes} {op : CfOp Bytes} {row : BuildRow}

theorem key_of_mem_timed : k ∈ (timed expires ops).map (·.1) ↔ ∃ v, CfOp.put k v ∈ ops := by
  simp only [timed, mem_map, mem_filterMap]
  constructor
  · rintro ⟨e, ⟨op, mem, found⟩, rfl⟩
    cases op with
    | put k v =>
      cases found
      exact ⟨v, mem⟩
    | delete k => cases found
  · rintro ⟨v, mem⟩
    exact ⟨(k, (v, expires)), ⟨.put k v, mem, rfl⟩, rfl⟩

theorem put_of_mem {A : Type} {xs : List A} {key value : A → Bytes}
    (mem : op ∈ xs.map fun x => .put (key x) (value x)) : ∃ k ∈ xs.map key, ∃ v, op = .put k v := by
  obtain ⟨x, listed, rfl⟩ := mem_map.mp mem
  exact ⟨key x, mem_map_of_mem listed, value x, rfl⟩

theorem builtEntries_put (mem : op ∈ builtEntries scratch L add row) :
    ∃ k ∈ add.index.entryKeys (loopResidue scratch add.number row.pk) row.pk (L.rebased row.old),
      ∃ v, op = .put k v := by
  simp only [builtEntries, buildPuts] at mem
  simp only [Index.entryKeys]
  cases kind : add.index.kind with
  | ordinary unique =>
    simp only [kind, mem_singleton] at mem
    exact ⟨_, mem_singleton.mpr rfl, _, mem⟩
  | fulltext tokenize =>
    simp only [kind] at mem
    exact put_of_mem mem
  | spatial mbr =>
    simp only [kind, not_mem_nil] at mem

theorem rowEntries_put (keyed : pkFromRecord T ((scratch row.pk).entryPk add.number) row.pk (L.altered row.old) = row.pk)
    (mem : op ∈ rowEntries T scratch L add row) :
    ∃ k ∈ add.index.entryKeys (loopResidue scratch add.number row.pk) row.pk (L.altered row.old),
      ∃ v, op = .put k v := by
  simp only [rowEntries, writeEntries] at mem
  simp only [Index.entryKeys]
  cases kind : add.index.kind with
  | ordinary unique =>
    simp only [kind, mem_singleton, secIdxKey, keyed] at mem
    exact ⟨_, mem_singleton.mpr rfl, _, mem⟩
  | fulltext | spatial =>
    simp only [kind] at mem
    exact put_of_mem mem

theorem entries_owned (keyed : RowsKeyed T scratch L R add) {x y : BuildRow} (x_mem : x ∈ R.rows) (y_mem : y ∈ R.rows)
    (at_x : k ∈ (buildImage (loopResidue scratch) L add x ++ timed x.expires (rowEntries T scratch L add x)).map (·.1))
    (at_y : k ∈ (buildImage (loopResidue scratch) L add y ++ timed y.expires (rowEntries T scratch L add y)).map (·.1)) :
    x = y := by
  have named : ∀ row ∈ R.rows, k ∈ (buildImage (loopResidue scratch) L add row ++
      timed row.expires (rowEntries T scratch L add row)).map (·.1) →
      ∃ record, k ∈ add.index.entryKeys (loopResidue scratch add.number row.pk) row.pk record := by
    intro row row_mem listed
    rw [map_append, mem_append] at listed
    rcases listed with built | written
    · obtain ⟨v, mem⟩ := key_of_mem_timed.mp built
      obtain ⟨_, owned, _, same⟩ := builtEntries_put mem
      cases same
      exact ⟨_, owned⟩
    · obtain ⟨v, mem⟩ := key_of_mem_timed.mp written
      obtain ⟨_, owned, _, same⟩ := rowEntries_put (keyed row row_mem) mem
      cases same
      exact ⟨_, owned⟩
  obtain ⟨a, in_x⟩ := named x x_mem at_x
  obtain ⟨b, in_y⟩ := named y y_mem at_y
  exact inj_on_of_nodup_map R.distinct x_mem y_mem
    (entryKeys_names add.index (loopResidue scratch add.number) in_x in_y)

theorem expires_of_has_timed (has : (SortedMap.empty.putAll (timed expires ops)).Has k v) : v.2 = expires := by
  have listed := (mem_of_has_putAll has).resolve_right (has_empty k v)
  obtain ⟨op, -, found⟩ := mem_filterMap.mp listed
  cases op with
  | put k v =>
    cases found
    rfl
  | delete k => cases found

theorem ne_nil_of_has_timed (has : (SortedMap.empty.putAll (timed expires ops)).Has k v) : ops ≠ [] := by
  rintro rfl
  exact has_empty k v has

theorem exists_has_timed {keys : List Bytes} (expires : Option Nat)
    (puts : ∀ {op}, op ∈ ops → ∃ k ∈ keys, ∃ v, op = .put k v) (some_op : ops ≠ []) :
    ∃ k v, (SortedMap.empty.putAll (timed expires ops)).Has k v := by
  obtain ⟨op, mem⟩ := exists_mem_of_ne_nil ops some_op
  obtain ⟨k, -, v, rfl⟩ := puts mem
  have used : k ∈ (timed expires ops).map (·.1) := key_of_mem_timed.mpr ⟨v, mem⟩
  exact ⟨k, hasKey_iff.mp (hasKey_putAll.mpr (.inl used))⟩

theorem mem_live_of_lasting (mem : row ∈ R.rows) (lasting : row.expires = none) : row ∈ R.live clock :=
  mem_filter.mpr ⟨mem, by rw [BuildRow.liveAt, lasting]⟩

theorem buildExact_iff (keyed : RowsKeyed T scratch L R add) :
    BuildExact T scratch L clock R add
        (SortedMap.empty.putAll ((R.scanned clock).flatMap (buildImage (loopResidue scratch) L add))) ↔
      BuildsRight T scratch L clock R add := by
  have scanned_sub : (R.scanned clock).Sublist R.rows := scannedRows_sublist false 0 0 R.rows
  have live_sub : (R.live clock).Sublist R.rows := filter_sublist
  have rowwise := putAll_flatMap_same_iff
    (fun x x_mem y y_mem k at_x at_y => entries_owned keyed x_mem y_mem at_x at_y)
    (List.Nodup.of_map _ R.distinct) scanned_sub live_sub
  refine Iff.trans rowwise ⟨fun each => ⟨?_, ?_⟩, ?_⟩
  · intro row scanned built
    have row_mem := scanned_sub.subset scanned
    obtain ⟨k, v, has⟩ := exists_has_timed none builtEntries_put built
    obtain ⟨live, written⟩ := (each row row_mem k v).mp ⟨scanned, has⟩
    have lasting : row.expires = none := (expires_of_has_timed written).symm.trans (expires_of_has_timed has)
    refine ⟨lasting, fun k v => ?_⟩
    have same := each row row_mem k v
    rw [lasting] at same
    exact ⟨fun has => (same.mp ⟨scanned, has⟩).2, fun has => (same.mpr ⟨live, has⟩).2⟩
  · intro row live missing
    by_contra written
    have row_mem := live_sub.subset live
    obtain ⟨k, v, has⟩ := exists_has_timed row.expires (rowEntries_put (keyed row row_mem)) written
    obtain ⟨scanned, built⟩ := (each row row_mem k v).mpr ⟨live, has⟩
    rcases missing with unscanned | nothing
    · exact unscanned scanned
    · exact ne_nil_of_has_timed built nothing
  · rintro ⟨right, covered⟩ row row_mem k v
    constructor
    · rintro ⟨scanned, has⟩
      obtain ⟨lasting, same⟩ := right row scanned (ne_nil_of_has_timed has)
      rw [lasting]
      exact ⟨mem_live_of_lasting row_mem lasting, (same k v).mp has⟩
    · rintro ⟨live, has⟩
      have reached : row ∈ R.scanned clock ∧ builtEntries scratch L add row ≠ [] := by
        by_contra missing
        exact ne_nil_of_has_timed has (covered row live (by tauto))
      obtain ⟨lasting, same⟩ := right row reached.1 reached.2
      rw [lasting] at has
      exact ⟨reached.1, (same k v).mpr has⟩

theorem build_inexact (plain : add.index.isUnique = false) (keyed : RowsKeyed T scratch L R add)
    (wrong : ¬ BuildsRight T scratch L clock R add) :
    ∃ built b, inplaceAlterTable (fun _ => false) (loopResidue scratch) L clock R [add] = some built ∧
      (add, b) ∈ built ∧ ¬ BuildExact T scratch L clock R add b.cf := by
  obtain ⟨built, b, done, mem⟩ := build_of_one (loopResidue scratch) L clock R plain
  refine ⟨built, b, done, mem, fun exact_family => wrong ?_⟩
  rw [built_family done mem] at exact_family
  exact (buildExact_iff keyed).mp exact_family

end

/- A table without a primary key of its own, `a TINYINT UNSIGNED`. -/
def bareTable : Schema := ⟨none, [], none⟩

def sameLayout : AlterLayout := ⟨1, id, Function.injective_id, id, some, fun _ => none, fun _ _ => none⟩

/- ADD COLUMN b DEFAULT 7 FIRST. -/
def firstLayout : AlterLayout :=
  ⟨2, id, Function.injective_id, id, fun c => if c = 0 then none else some (c - 1), fun _ => some [7], fun _ _ => none⟩

def noTime : BuildClock := ⟨fun _ => 0, fun _ => 0, 0, fun _ => le_rfl, fun _ => le_rfl, fun _ => le_rfl⟩

def storedRow (expires : Option Nat) : BuildRows := ⟨[⟨hiddenPk 1, [some [5]], expires⟩], List.nodup_singleton _⟩

def plainAdd : AddedIndex := ⟨0, byteKey 0, .ordinary false⟩

def spatialAdd : AddedIndex := ⟨0, byteKey 0, .spatial fun value => some (0, value)⟩

def batchRows : BuildRows where
  rows := (List.range 101).map fun i => ⟨hiddenPk i, [some [5]], if i = 99 then some 5 else none⟩
  distinct := by
    rw [List.map_map]
    refine List.Nodup.map_on (fun i i_mem j j_mem same => ?_) List.nodup_range
    have small : ∀ i ∈ List.range 101, i < 256 ^ 8 := fun i mem => by
      have := List.mem_range.mp mem
      omega
    exact Base.leBytes_injective (small i i_mem) (small j j_mem) (List.reverse_injective same)

def batchClock : BuildClock :=
  ⟨fun i => if i ≤ 99 then 0 else 5, fun i => if i < 99 then 0 else 5, 5,
    fun i => by split <;> split <;> omega, fun i => by split <;> split <;> omega, fun i => by split <;> omega⟩

def BuildDiverges (L : AlterLayout) (clock : BuildClock) (R : BuildRows) (add : AddedIndex) : Prop :=
  ∃ built b, inplaceAlterTable (fun _ => false) (loopResidue fun _ => zeroed) L clock R [add] = some built ∧
    (add, b) ∈ built ∧ ¬ BuildExact bareTable (fun _ => zeroed) L clock R add b.cf

end TidesdbMysql
