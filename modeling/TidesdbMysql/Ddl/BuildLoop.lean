import TidesdbMysql.Ddl.BuildKeys
import TidesdbMysql.Ddl.IndexBuild

/-! The loop of `inplace_alter_table` with every answer of the engine as an input, and with its own encoder. An iterator
that fails to move is invalid afterwards. -/
namespace TidesdbMysql

open Base (Bytes)
open List

variable {items : List BuildItem} {t : FiledEntry} {place : Nat}

deriving instance DecidableEq for CfOp

abbrev BuildItem := Option BuildRow

def BuildItem.liveAt (item : BuildItem) (t : Nat) : Bool := item.all (·.liveAt t)

/-- What the engine answers at a key: `commit`, `reset`, `iterNew`, `reseek` where a batch ends,
`begin` where the reset fails, `put` by added index and entry. -/
structure ItemAnswers where
  key : Rc
  value : Rc
  put : Nat → Nat → Rc
  commit : Rc
  reset : Rc
  begin : Rc
  iterNew : Rc
  reseek : Rc
  next : Rc

structure BuildAnswers where
  begin : Rc
  iterNew : Rc
  seekToFirst : Rc
  item : Nat → ItemAnswers
  finalCommit : Rc

inductive BuildError where
  | dupEntry (keyNum : Nat) | queryInterrupted | internalError
  deriving DecidableEq

/-- An entry with the place of its row in the scan, of its index among the added ones, and its own
there. -/
structure FiledEntry where
  place : Nat
  add : Nat
  entry : Nat
  op : CfOp Bytes
  deriving DecidableEq

structure BuildScan where
  seen : Nat → List Bytes
  pending : List FiledEntry
  committed : List FiledEntry

def ItemAnswers.reads (A : ItemAnswers) : Bool := A.key = .success && A.value = .success

def AddedIndex.isSpatial (add : AddedIndex) : Bool :=
  match add.index.kind with
  | .spatial _ => true
  | _ => false

namespace BuildLoop

section
variable (sortString : SortString) (L : AlterLayout)

section
variable (A : ItemAnswers) (place : Nat) (row : BuildRow) (a : Nat) (add : AddedIndex) (pk : Bytes) (record : Record)

def entries : List (CfOp Bytes) :=
  match add.index.kind with
  | .fulltext tokenize =>
    (ftsTerms tokenize add.index.key record).map (ftsPut (ftsExtractAndTokenize tokenize add.index.key record) pk)
  | .spatial mbr => spatialPuts mbr add.index.key pk record
  | .ordinary _ => [.put (buildKey sortString add.index.key.parts record pk) emptyVal]

def entryTags : List FiledEntry :=
  (entries sortString add row.pk (L.rebased row.old)).zipIdx.map fun p => ⟨place, a, p.2, p.1⟩

/- What is put for a row in one index. A put that fails is passed over, and so is a SPATIAL key. -/
def filedIn : List FiledEntry :=
  if add.isSpatial then []
  else (entryTags sortString L place row a add).filter fun t => A.put t.add t.entry = .success

/- The prefix that a row has in `idx_seen`. -/
def seenColumns (row : BuildRow) : Bytes :=
  buildColumns sortString add.index.key.parts (L.rebased row.old)

end

def fileRow (A : ItemAnswers) (place : Nat) (row : BuildRow) :
    Nat → List AddedIndex → BuildScan → Except BuildError BuildScan
  | _, [], st => .ok st
  | a, add :: rest, st =>
    if add.index.isUnique && (st.seen a).contains (seenColumns sortString L add row) then .error (.dupEntry add.number)
    else fileRow A place row (a + 1) rest { st with
      seen := if add.index.isUnique then Function.update st.seen a (seenColumns sortString L add row :: st.seen a) else st.seen
      pending := st.pending ++ filedIn sortString L A place row a add }

end

def commitBatch (st : BuildScan) (rc : Rc) : BuildScan :=
  if rc = .success then { st with committed := st.committed ++ st.pending, pending := [] } else { st with pending := [] }

/- `n` counts the rows before the one that has been filed. -/
def endsBatch (n : Nat) : Bool := (n + 1) % tidesdbIndexBuildBatch = 0

def batchEnd (killed : Nat → Bool) (A : ItemAnswers) (n : Nat) (st : BuildScan) : Except BuildError BuildScan :=
  if endsBatch n = false then .ok st
  else if killed (n + 1) then .error .queryInterrupted
  else if A.reset ≠ .success ∧ A.begin ≠ .success then .error .internalError
  else if A.iterNew ≠ .success then .error .internalError
  else .ok (commitBatch st A.commit)

/- `tdb_iter_next_r`; the loop goes on while the iterator is valid. -/
def afterNext (A : ItemAnswers) : Option Bool := if A.next = .success then some false else none

/-- Where the loop goes from a row: nowhere, or on; `some true` where the seek after a batch steps
over the next row. -/
def afterRow (clock : BuildClock) (A : ItemAnswers) (i n : Nat) (row : BuildRow) : Option Bool :=
  if endsBatch n = false then afterNext A
  else if A.reseek ≠ .success then none
  else if row.liveAt (clock.reseek i) then afterNext A
  else some true

section
variable (sortString : SortString) (L : AlterLayout) (clock : BuildClock) (killed : Nat → Bool) (adds : List AddedIndex)
  (A : Nat → ItemAnswers)

def rowAt (past : Bool) (i : Nat) (item : BuildItem) : Option BuildRow := if past || !(A i).reads then none else item

/-- The scan from the i-th key on, with `rows_processed` so far. -/
def scan : Bool → Nat → Nat → List BuildItem → BuildScan → Except BuildError BuildScan
  | _, _, _, [], st => .ok st
  | past, i, n, item :: rest, st =>
    if item.liveAt (clock.pass i) = false then scan past (i + 1) n rest st
    else
      match rowAt A past i item with
      | none =>
        match afterNext (A i) with
        | none => .ok st
        | some past => scan past (i + 1) n rest st
      | some row =>
        match fileRow sortString L (A i) i row 0 adds st with
        | .error e => .error e
        | .ok filed =>
          match batchEnd killed (A i) n filed with
          | .error e => .error e
          | .ok st =>
            match afterRow clock (A i) i n row with
            | none => .ok st
            | some past => scan past (i + 1) (n + 1) rest st

end

/-- `inplace_alter_table`, with the entries committed where it answers success. -/
def inplaceAlterTable (sortString : SortString) (L : AlterLayout) (clock : BuildClock) (killed : Nat → Bool)
    (adds : List AddedIndex) (B : BuildAnswers) (items : List BuildItem) : Except BuildError (List FiledEntry) :=
  if adds.isEmpty then .ok []
  else if B.begin ≠ .success then .error .internalError
  else if B.iterNew ≠ .success then .error .internalError
  else
    match scan sortString L clock killed adds B.item false 0 0 (if B.seekToFirst = .success then items else [])
        ⟨fun _ => [], [], []⟩ with
    | .error e => .error e
    | .ok st => if B.finalCommit = .success then .ok (st.committed ++ st.pending) else .error .internalError

section
variable (sortString : SortString) (L : AlterLayout) (clock : BuildClock) (adds : List AddedIndex) (A : Nat → ItemAnswers)

structure Met where
  place : Nat
  number : Nat
  row : BuildRow
  deriving DecidableEq

def met : Bool → Nat → Nat → List BuildItem → List Met
  | _, _, _, [] => []
  | past, i, n, item :: rest =>
    if item.liveAt (clock.pass i) = false then met past (i + 1) n rest
    else
      match rowAt A past i item with
      | none =>
        match afterNext (A i) with
        | none => []
        | some past => met past (i + 1) n rest
      | some row => ⟨i, n, row⟩ ::
        match afterRow clock (A i) i n row with
        | none => []
        | some past => met past (i + 1) (n + 1) rest

/- The commit that ends the batch of the n-th row, if one does, is answered with success. -/
def BatchCommits (n : Nat) (rows : List Met) : Prop :=
  ∀ m ∈ rows, endsBatch m.number = true → m.number / tidesdbIndexBuildBatch = n / tidesdbIndexBuildBatch →
    (A m.place).commit = .success
  deriving Decidable

def rowTags (place : Nat) (row : BuildRow) : List FiledEntry :=
  adds.zipIdx.flatMap fun p => entryTags sortString L place row p.2 p.1

def rowFiled (place : Nat) (row : BuildRow) : List FiledEntry :=
  adds.zipIdx.flatMap fun p => filedIn sortString L (A place) place row p.2 p.1

end

section Scan

variable {sortString : SortString} {L : AlterLayout} {clock : BuildClock} {killed : Nat → Bool} {adds : List AddedIndex}
  {A : Nat → ItemAnswers}

theorem fileRow_filed {row : BuildRow} {a : Nat} {st st' : BuildScan}
    (done : fileRow sortString L (A place) place row a adds st = .ok st') :
    st'.committed = st.committed ∧ st'.pending = st.pending ++
      (adds.zipIdx a).flatMap fun p => filedIn sortString L (A place) place row p.2 p.1 := by
  induction adds generalizing a st with
  | nil =>
    cases done
    simp
  | cons add rest ih =>
    rw [fileRow] at done
    split at done
    · cases done
    · obtain ⟨committed, pending⟩ := ih done
      exact ⟨committed, by simpa using pending⟩

theorem batchEnd_eq {n : Nat} {B : ItemAnswers} {st st' : BuildScan} (done : batchEnd killed B n st = .ok st') :
    st' = if endsBatch n then commitBatch st B.commit else st := by
  unfold batchEnd at done
  split at done
  next open_batch => simpa [open_batch] using (Except.ok.inj done).symm
  next full =>
    split at done
    · cases done
    · split at done
      · cases done
      · split at done
        · cases done
        · simpa [full] using (Except.ok.inj done).symm

theorem rowAt_some {past : Bool} {i : Nat} {item : BuildItem} {row : BuildRow} (at_row : rowAt A past i item = some row) :
    item = some row := by
  unfold rowAt at at_row
  split at at_row
  · cases at_row
  · exact at_row

theorem met_cases {past : Bool} {i n : Nat} {item : BuildItem} {rest : List BuildItem} {m : Met}
    (mem : m ∈ met clock A past i n (item :: rest)) :
    (m.place = i ∧ m.number = n ∧ item = some m.row ∧ m.row.liveAt (clock.pass i) = true) ∨
      ∃ past n', n ≤ n' ∧ m ∈ met clock A past (i + 1) n' rest := by
  rw [met] at mem
  split at mem
  · exact .inr ⟨past, n, le_rfl, mem⟩
  · rename_i live
    split at mem
    · split at mem
      · cases mem
      · exact .inr ⟨_, n, le_rfl, mem⟩
    · rename_i row at_row
      rcases mem_cons.mp mem with here | later
      · subst here
        rw [rowAt_some at_row] at live
        exact .inl ⟨rfl, rfl, rowAt_some at_row, by simpa [BuildItem.liveAt] using live⟩
      · split at later
        · cases later
        · exact .inr ⟨_, n + 1, Nat.le_succ n, later⟩

theorem le_of_met {past : Bool} {i n : Nat} {m : Met} (mem : m ∈ met clock A past i n items) : n ≤ m.number := by
  induction items generalizing past i n with
  | nil => cases mem
  | cons item rest ih =>
    rcases met_cases mem with ⟨-, number, -, -⟩ | ⟨past, n', ahead, later⟩
    · exact number.ge
    · exact ahead.trans (ih later)

theorem met_at {past : Bool} {i n : Nat} {m : Met} (mem : m ∈ met clock A past i n items) :
    ∃ k, m.place = i + k ∧ items[k]? = some (some m.row) ∧ m.row.liveAt (clock.pass m.place) = true := by
  induction items generalizing past i n with
  | nil => cases mem
  | cons item rest ih =>
    rcases met_cases mem with ⟨place, -, stored, live⟩ | ⟨past, n', ahead, later⟩
    · exact ⟨0, place, by simp [stored], place ▸ live⟩
    · obtain ⟨k, place, stored, live⟩ := ih later
      exact ⟨k + 1, by omega, by simpa using stored, live⟩

theorem met_places_nodup (past : Bool) (i n : Nat) (items : List BuildItem) :
    ((met clock A past i n items).map (·.place)).Nodup := by
  have ahead : ∀ past i n rest, i ∉ (met clock A past (i + 1) n rest).map (·.place) := by
    intro past i n rest mem
    obtain ⟨m, later, same⟩ := mem_map.mp mem
    obtain ⟨k, place, -⟩ := met_at later
    omega
  induction items generalizing past i n with
  | nil => exact nodup_nil
  | cons item rest ih =>
    rw [met]
    split
    · exact ih past (i + 1) n
    · split
      · split
        · exact nodup_nil
        · exact ih _ (i + 1) n
      · split
        · exact nodup_singleton i
        · exact nodup_cons.mpr ⟨ahead _ i (n + 1) rest, ih _ (i + 1) (n + 1)⟩

variable (sortString L adds A) in
/-- What is committed in the end: what is already, what is pending if its batch is, and what is put
ahead in committed batches. -/
def Landed (st : BuildScan) (n : Nat) (rows : List Met) (t : FiledEntry) : Prop :=
  t ∈ st.committed ∨ (t ∈ st.pending ∧ BatchCommits A n rows) ∨
    ∃ m ∈ rows, t ∈ rowFiled sortString L adds A m.place m.row ∧ BatchCommits A m.number rows

theorem batchCommits_cons {n : Nat} {m : Met} {rows : List Met} : BatchCommits A n (m :: rows) ↔
    (endsBatch m.number = true → m.number / tidesdbIndexBuildBatch = n / tidesdbIndexBuildBatch →
      (A m.place).commit = .success) ∧ BatchCommits A n rows := forall_mem_cons

theorem div_ne_of_endsBatch {n k : Nat} (full : endsBatch n = true) (beyond : n + 1 ≤ k) :
    n / tidesdbIndexBuildBatch ≠ k / tidesdbIndexBuildBatch := by
  have rest : (n + 1) % tidesdbIndexBuildBatch = 0 := of_decide_eq_true full
  unfold tidesdbIndexBuildBatch at rest ⊢
  omega

theorem div_succ_of_open {n : Nat} (open_batch : endsBatch n = false) :
    (n + 1) / tidesdbIndexBuildBatch = n / tidesdbIndexBuildBatch := by
  have rest : (n + 1) % tidesdbIndexBuildBatch ≠ 0 := of_decide_eq_false open_batch
  unfold tidesdbIndexBuildBatch at rest ⊢
  omega

theorem batchCommits_behind {i n k : Nat} {row : BuildRow} {rows : List Met} (behind : n + 1 ≤ k) :
    BatchCommits A k (⟨i, n, row⟩ :: rows) ↔ BatchCommits A k rows := by
  rw [batchCommits_cons]
  exact and_iff_right fun full same => absurd same (div_ne_of_endsBatch full behind)

theorem batchCommits_open {i n : Nat} {row : BuildRow} {rows : List Met} (open_batch : endsBatch n = false) :
    BatchCommits A n (⟨i, n, row⟩ :: rows) ↔ BatchCommits A (n + 1) rows := by
  simp [open_batch, BatchCommits, div_succ_of_open open_batch]

theorem batchCommits_full {i n : Nat} {row : BuildRow} {rows : List Met} (full : endsBatch n = true)
    (behind : ∀ m ∈ rows, n + 1 ≤ m.number) : BatchCommits A n (⟨i, n, row⟩ :: rows) ↔ (A i).commit = .success := by
  rw [batchCommits_cons]
  constructor
  · exact fun commits => commits.1 full rfl
  · intro committed
    exact ⟨fun _ _ => committed, fun m mem _ same => absurd same.symm (div_ne_of_endsBatch full (behind m mem))⟩

theorem landed_step {i n : Nat} {row : BuildRow} {st filed : BuildScan} {rows : List Met}
    (committed : filed.committed = st.committed)
    (pending : filed.pending = st.pending ++ rowFiled sortString L adds A i row) (behind : ∀ m ∈ rows, n + 1 ≤ m.number) :
    Landed sortString L adds A (if endsBatch n then commitBatch filed (A i).commit else filed) (n + 1) rows t ↔
      Landed sortString L adds A st n (⟨i, n, row⟩ :: rows) t := by
  have ahead : (∃ m ∈ rows, t ∈ rowFiled sortString L adds A m.place m.row ∧ BatchCommits A m.number rows) ↔
      ∃ m ∈ rows, t ∈ rowFiled sortString L adds A m.place m.row ∧ BatchCommits A m.number (⟨i, n, row⟩ :: rows) := by
    apply exists_congr
    intro m
    apply and_congr_right
    intro mem
    rw [batchCommits_behind (behind m mem)]
  unfold Landed
  simp only [mem_cons, or_and_right, exists_or, exists_eq_left, ← ahead]
  cases full : endsBatch n with
  | false =>
    simp only [batchCommits_open full, Bool.false_eq_true, if_false, committed, pending, mem_append, or_and_right, or_assoc]
  | true =>
    rw [batchCommits_full full behind]
    by_cases success : (A i).commit = .success
    · simp [commitBatch, success, committed, pending, or_assoc]
    · simp [commitBatch, success, committed]

theorem scan_landed {past : Bool} {i n : Nat} {st st' : BuildScan}
    (done : scan sortString L clock killed adds A past i n items st = .ok st') (t : FiledEntry) :
    t ∈ st'.committed ++ st'.pending ↔ Landed sortString L adds A st n (met clock A past i n items) t := by
  have ended : ∀ {st : BuildScan} {n : Nat}, t ∈ st.committed ++ st.pending ↔ Landed sortString L adds A st n [] t := by
    simp [Landed, BatchCommits]
  induction items generalizing past i n st with
  | nil =>
    cases done
    exact ended
  | cons item rest ih =>
    rw [scan] at done
    rw [met]
    split at done
    next expired =>
      rw [if_pos expired]
      exact ih done
    next live =>
      rw [if_neg live]
      cases at_row : rowAt A past i item with
      | none =>
        rw [at_row] at done
        cases onward : afterNext (A i) with
        | none =>
          rw [onward] at done
          cases done
          exact ended
        | some past =>
          rw [onward] at done
          exact ih done
      | some row =>
        rw [at_row] at done
        dsimp only at done ⊢
        split at done
        · cases done
        · rename_i filed put
          obtain ⟨committed, pending⟩ := fileRow_filed put
          split at done
          · cases done
          · rename_i ended_batch
            cases batchEnd_eq ended_batch
            cases onward : afterRow clock (A i) i n row with
            | none =>
              rw [onward] at done
              cases done
              rw [← landed_step committed pending (by simp)]
              exact ended
            | some past =>
              rw [onward] at done
              rw [← landed_step committed pending fun m mem => le_of_met mem]
              exact ih done

theorem mem_rowTags {row : BuildRow} : t ∈ rowTags sortString L adds place row ↔
    t.place = place ∧ ∃ add, adds[t.add]? = some add ∧
      (entries sortString add row.pk (L.rebased row.old))[t.entry]? = some t.op := by
  simp only [rowTags, entryTags, mem_flatMap, mem_map, Prod.exists, mk_mem_zipIdx_iff_getElem?]
  constructor
  · rintro ⟨add, a, added, op, e, stored, rfl⟩
    exact ⟨rfl, add, added, stored⟩
  · rintro ⟨rfl, add, added, stored⟩
    exact ⟨add, t.add, added, t.op, t.entry, stored, rfl⟩

variable (adds A) in
/-- The put of an entry is made, which it is not for a SPATIAL key, and answered with success. -/
def PutSucceeds (t : FiledEntry) : Prop :=
  adds[t.add]?.any (!·.isSpatial) = true ∧ (A t.place).put t.add t.entry = .success
  deriving Decidable

theorem mem_rowFiled {row : BuildRow} : t ∈ rowFiled sortString L adds A place row ↔
    t ∈ rowTags sortString L adds place row ∧ PutSucceeds adds A t := by
  have tagged : ∀ {a add}, t ∈ entryTags sortString L place row a add → t.place = place ∧ t.add = a := by
    intro a add mem
    obtain ⟨p, -, rfl⟩ := mem_map.mp mem
    exact ⟨rfl, rfl⟩
  simp only [rowFiled, rowTags, filedIn, mem_flatMap, Prod.exists, mk_mem_zipIdx_iff_getElem?]
  constructor
  · rintro ⟨add, a, added, mem⟩
    split at mem
    · cases mem
    · rename_i plain
      obtain ⟨mem, put⟩ := mem_filter.mp mem
      obtain ⟨rfl, rfl⟩ := tagged mem
      exact ⟨⟨add, t.add, added, mem⟩, by simp [added, plain], of_decide_eq_true put⟩
  · rintro ⟨⟨add, a, added, mem⟩, made, put⟩
    obtain ⟨rfl, rfl⟩ := tagged mem
    have plain : add.isSpatial = false := by simpa [added] using made
    exact ⟨add, t.add, added, by simp [plain, mem, put]⟩

end Scan

section

variable (sortString : SortString) (L : AlterLayout) (clock : BuildClock) (adds : List AddedIndex) (B : BuildAnswers)
  (items : List BuildItem)

def reached : List Met := met clock B.item false 0 0 (if B.seekToFirst = .success then items else [])

def Covered (filed : List FiledEntry) : Prop :=
  ∀ place row, items[place]? = some (some row) → row.liveAt (clock.pass place) = true →
    ∀ t ∈ rowTags sortString L adds place row, t ∈ filed

/-- No row with entries is left out of the scan, has a put that fails or is not made, or is in a batch whose commit
fails. -/
def Untroubled : Prop :=
  ∀ place row, items[place]? = some (some row) → row.liveAt (clock.pass place) = true →
    rowTags sortString L adds place row ≠ [] →
      (∃ m ∈ reached clock B items, m.place = place ∧ BatchCommits B.item m.number (reached clock B items)) ∧
        ∀ t ∈ rowTags sortString L adds place row, PutSucceeds adds B.item t

end

section Built

variable {sortString : SortString} {L : AlterLayout} {clock : BuildClock} {killed : Nat → Bool} {adds : List AddedIndex}
  {B : BuildAnswers} {items : List BuildItem} {filed : List FiledEntry}

theorem reached_at {m : Met} (mem : m ∈ reached clock B items) :
    items[m.place]? = some (some m.row) ∧ m.row.liveAt (clock.pass m.place) = true := by
  obtain ⟨k, place, stored, live⟩ := met_at mem
  split at stored
  · rw [Nat.zero_add] at place
    exact ⟨place ▸ stored, live⟩
  · cases stored

theorem inplaceAlterTable_filed (done : inplaceAlterTable sortString L clock killed adds B items = .ok filed) (t : FiledEntry) :
    t ∈ filed ↔ ∃ m ∈ reached clock B items, t ∈ rowFiled sortString L adds B.item m.place m.row ∧
      BatchCommits B.item m.number (reached clock B items) := by
  unfold inplaceAlterTable at done
  split at done
  next nothing =>
    cases done
    simp [rowFiled, isEmpty_iff.mp nothing]
  next =>
    split at done
    · cases done
    · split at done
      · cases done
      · split at done
        · cases done
        · rename_i st scanned
          split at done
          · cases done
            simpa [Landed, reached] using scan_landed scanned t
          · cases done

end Built

def quietItem : ItemAnswers :=
  ⟨.success, .success, fun _ _ => .success, .success, .success, .success, .success, .success, .success⟩

def quiet : BuildAnswers := ⟨.success, .success, .success, fun _ => quietItem, .success⟩

section Quiet

variable {sortString : SortString} {L : AlterLayout} {clock : BuildClock} {adds : List AddedIndex}

@[simp] theorem afterNext_quiet : afterNext quietItem = some false := rfl

@[simp] theorem afterRow_quiet (i n : Nat) (row : BuildRow) :
    afterRow clock quietItem i n row = some (endsBatch n && !row.liveAt (clock.reseek i)) := by
  unfold afterRow
  cases endsBatch n with
  | false => rfl
  | true => cases live : row.liveAt (clock.reseek i) <;> simp [quietItem, afterNext]

end Quiet

section

def putRefused : BuildAnswers := { quiet with item := fun _ => { quietItem with put := fun _ _ => .memoryLimit } }

def valueRefused : BuildAnswers := { quiet with item := fun _ => { quietItem with value := .io } }

def oneRow : BuildRow := ⟨hiddenPk 1, [some [5]], none⟩

end

end BuildLoop

end TidesdbMysql
