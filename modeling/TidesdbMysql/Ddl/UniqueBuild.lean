import TidesdbMysql.Ddl.BuildLoop
import TidesdbMysql.Table.Unique

/-! What the build of a UNIQUE key reports, against the rows of the table. The build compares encoded columns, NULL or not. -/
namespace TidesdbMysql

open Base (Bytes)
open List

namespace BuildLoop

section
variable (sortString : SortString) (L : AlterLayout)

def Fresh (add : AddedIndex) (seen : List Bytes) (rows : List Met) : Prop :=
  (rows.map fun m => seenColumns sortString L add m.row).Nodup ∧ ∀ m ∈ rows, seenColumns sortString L add m.row ∉ seen

end

section Scan

variable {sortString : SortString} {L : AlterLayout} {clock : BuildClock} {adds : List AddedIndex}

theorem fresh_cons {add : AddedIndex} {seen : List Bytes} {m : Met} {rows : List Met} :
    Fresh sortString L add seen (m :: rows) ↔ seenColumns sortString L add m.row ∉ seen ∧
      Fresh sortString L add (seenColumns sortString L add m.row :: seen) rows := by
  simp only [Fresh, map_cons, nodup_cons, mem_map, mem_cons, not_or, not_exists, not_and, forall_and, forall_eq_or_imp]
  constructor
  · rintro ⟨⟨once, nodup⟩, unseen, later⟩
    exact ⟨unseen, nodup, once, later⟩
  · rintro ⟨unseen, nodup, once, later⟩
    exact ⟨⟨once, nodup⟩, unseen, later⟩

/- What a UNIQUE key has seen after a row. -/
def seenAfter (sortString : SortString) (L : AlterLayout) (add : AddedIndex) (row : BuildRow) (seen : List Bytes) : List Bytes :=
  if add.index.isUnique then seenColumns sortString L add row :: seen else seen

variable (sortString L adds) in
/-- The loop over the indexes takes a row whose columns no UNIQUE key has seen, and reports a key that has. -/
theorem fileRow_cases (A : ItemAnswers) (place : Nat) (row : BuildRow) (a : Nat) (st : BuildScan) :
    (∃ st', fileRow sortString L A place row a adds st = .ok st' ∧ (∀ b < a, st'.seen b = st.seen b) ∧
      ∀ k add, adds[k]? = some add → st'.seen (a + k) = seenAfter sortString L add row (st.seen (a + k)) ∧
        (add.index.isUnique = true → seenColumns sortString L add row ∉ st.seen (a + k))) ∨
    ∃ k add, adds[k]? = some add ∧ add.index.isUnique = true ∧ seenColumns sortString L add row ∈ st.seen (a + k) ∧
      fileRow sortString L A place row a adds st = .error (.dupEntry add.number) := by
  induction adds generalizing a st with
  | nil => exact .inl ⟨st, rfl, by simp, by simp⟩
  | cons first rest ih =>
    rw [fileRow]
    by_cases clash : (first.index.isUnique && (st.seen a).contains (seenColumns sortString L first row)) = true
    · obtain ⟨unique, seen⟩ := Bool.and_eq_true_iff.mp clash
      exact .inr ⟨0, first, rfl, unique, contains_iff_mem.mp seen, if_pos clash⟩
    · rw [if_neg clash]
      have fresh : first.index.isUnique = true → seenColumns sortString L first row ∉ st.seen a := by
        simpa using clash
      have kept : ∀ b, b ≠ a → (if first.index.isUnique then
          Function.update st.seen a (seenColumns sortString L first row :: st.seen a) else st.seen) b = st.seen b := by
        intro b apart
        split
        · exact Function.update_of_ne apart _ _
        · rfl
      have shift : ∀ k, a + (k + 1) = a + 1 + k := by omega
      rcases ih (a + 1) _ with ⟨st', done, before, later⟩ | ⟨k, add, added, unique, met_again, done⟩
      · refine .inl ⟨st', done, fun b below => (before b (by omega)).trans (kept b (by omega)), ?_⟩
        intro k add added
        cases k with
        | zero =>
          cases Option.some.inj added
          refine ⟨(before a (by omega)).trans ?_, fresh⟩
          cases unique : first.index.isUnique <;> simp [seenAfter, seenColumns, unique]
        | succ k =>
          have here := later k add (by simpa using added)
          rw [shift, ← kept (a + 1 + k) (by omega)]
          exact here
      · refine .inr ⟨k + 1, add, by simpa using added, unique, ?_, done⟩
        rw [shift, ← kept (a + 1 + k) (by omega)]
        exact met_again

@[simp] theorem commitBatch_seen (st : BuildScan) (rc : Rc) : (commitBatch st rc).seen = st.seen := by
  unfold commitBatch
  split <;> rfl

theorem batchEnd_quiet (n : Nat) (st : BuildScan) : ∃ st', batchEnd (fun _ => false) quietItem n st = .ok st' ∧ st'.seen = st.seen := by
  unfold batchEnd
  cases endsBatch n with
  | false => exact ⟨st, rfl, rfl⟩
  | true => exact ⟨commitBatch st .success, rfl, commitBatch_seen st _⟩

variable (sortString L clock adds) in
/-- Without failures the scan ends well when every UNIQUE key is fresh in the rows it comes to, and reports one that is
not. -/
theorem scan_cases (past : Bool) (i n : Nat) (items : List BuildItem) (st : BuildScan) :
    (∃ st', scan sortString L clock (fun _ => false) adds (fun _ => quietItem) past i n items st = .ok st' ∧
      ∀ a add, adds[a]? = some add → add.index.isUnique = true →
        Fresh sortString L add (st.seen a) (met clock (fun _ => quietItem) past i n items)) ∨
    ∃ a add, adds[a]? = some add ∧ add.index.isUnique = true ∧
      ¬ Fresh sortString L add (st.seen a) (met clock (fun _ => quietItem) past i n items) ∧
        scan sortString L clock (fun _ => false) adds (fun _ => quietItem) past i n items st = .error (.dupEntry add.number) := by
  induction items generalizing past i n st with
  | nil => exact .inl ⟨st, rfl, fun a add _ _ => ⟨nodup_nil, by simp [met]⟩⟩
  | cons item rest ih =>
    rw [scan, met]
    split
    · exact ih past (i + 1) n st
    · cases rowAt (fun _ => quietItem) past i item with
      | none => exact ih false (i + 1) n st
      | some row =>
        simp only [afterRow_quiet]
        rcases fileRow_cases sortString L adds quietItem i row 0 st with
          ⟨filed, put, -, each⟩ | ⟨k, add, added, unique, again, refused⟩
        · obtain ⟨st', ended, seen⟩ := batchEnd_quiet n filed
          simp only [put, ended]
          have after : ∀ a add, adds[a]? = some add → add.index.isUnique = true →
              st'.seen a = seenColumns sortString L add row :: st.seen a := by
            intro a add added unique
            have here := (each a add added).1
            rw [Nat.zero_add] at here
            rw [seen, here, seenAfter, if_pos unique]
          rcases ih (endsBatch n && !row.liveAt (clock.reseek i)) (i + 1) (n + 1) st' with
            ⟨last, done, fresh⟩ | ⟨a, add, added, unique, stale, done⟩
          · refine .inl ⟨last, done, fun a add added unique => fresh_cons.mpr ⟨?_, ?_⟩⟩
            · simpa using (each a add added).2 unique
            · rw [← after a add added unique]
              exact fresh a add added unique
          · refine .inr ⟨a, add, added, unique, fun fresh => stale ?_, done⟩
            rw [after a add added unique]
            exact (fresh_cons.mp fresh).2
        · rw [Nat.zero_add] at again
          refine .inr ⟨k, add, added, unique, fun fresh => (fresh_cons.mp fresh).1 again, ?_⟩
          simp only [refused]

end Scan

section

variable (sortString : SortString) (L : AlterLayout) (clock : BuildClock) (adds : List AddedIndex) (items : List BuildItem)

def ReportsDuplicate : Prop :=
  ∃ keyNum, inplaceAlterTable sortString L clock (fun _ => false) adds quiet items = .error (.dupEntry keyNum)

/- Two rows that may not stand under a UNIQUE key. -/
def Agree (add : AddedIndex) (x y : BuildRow) : Prop :=
  NoNull add.index.key.parts (L.altered x.old) ∧ SameKey add.index.key.parts (L.altered x.old) (L.altered y.old)
  deriving Decidable

/-- Two rows of the table agree on the columns of an added UNIQUE key, with no NULL among them. -/
def HasDuplicate : Prop :=
  ∃ add ∈ adds, add.index.isUnique = true ∧ ∃ i j x y, i ≠ j ∧
    (items[i]? = some (some x) ∧ x.liveAt (clock.pass i) = true) ∧
    (items[j]? = some (some y) ∧ y.liveAt (clock.pass j) = true) ∧ Agree L add x y

/- Two rows that the scan comes to and that are one to a UNIQUE key. -/
def MetAlike (P : AddedIndex → BuildRow → BuildRow → Prop) : Prop :=
  ∃ add ∈ adds, add.index.isUnique = true ∧ ∃ x ∈ reached clock quiet items, ∃ y ∈ reached clock quiet items,
    x.place ≠ y.place ∧ seenColumns sortString L add x.row = seenColumns sortString L add y.row ∧ P add x.row y.row

/-- One row to the build and not to SQL: NULL in the same columns, VARBINARY values cut alike,
columns read where they do not lie. -/
def FalseAlarm : Prop := MetAlike sortString L clock adds items fun add x y => ¬ Agree L add x y

def DuplicateMet : Prop := MetAlike sortString L clock adds items (Agree L)

end

section Verdict

variable {sortString : SortString} {L : AlterLayout} {clock : BuildClock} {adds : List AddedIndex} {items : List BuildItem}

theorem MetAlike.imp {P Q : AddedIndex → BuildRow → BuildRow → Prop} (alike : MetAlike sortString L clock adds items P)
    (weaker : ∀ add x y, P add x y → Q add x y) : MetAlike sortString L clock adds items Q := by
  obtain ⟨add, mem, unique, x, x_met, y, y_met, apart, same, holds⟩ := alike
  exact ⟨add, mem, unique, x, x_met, y, y_met, apart, same, weaker _ _ _ holds⟩

theorem not_fresh_iff {add : AddedIndex} : ¬ Fresh sortString L add [] (reached clock quiet items) ↔
    ∃ x ∈ reached clock quiet items, ∃ y ∈ reached clock quiet items, x.place ≠ y.place ∧
      seenColumns sortString L add x.row = seenColumns sortString L add y.row := by
  have places : ((reached clock quiet items).map (·.place)).Nodup := met_places_nodup false 0 0 _
  have same_place : ∀ {x y : Met}, x ∈ reached clock quiet items → y ∈ reached clock quiet items →
      (x = y ↔ x.place = y.place) := by
    intro x y x_met y_met
    exact ⟨congrArg _, inj_on_of_nodup_map places x_met y_met⟩
  simp only [Fresh, not_mem_nil, not_false_eq_true, implies_true, and_true, nodup_map_iff_inj_on places.of_map]
  push Not
  constructor
  · rintro ⟨x, x_met, y, y_met, alike, apart⟩
    exact ⟨x, x_met, y, y_met, fun same => apart ((same_place x_met y_met).mpr same), alike⟩
  · rintro ⟨x, x_met, y, y_met, apart, alike⟩
    exact ⟨x, x_met, y, y_met, alike, fun same => apart ((same_place x_met y_met).mp same)⟩

theorem inplaceAlterTable_quiet (some_add : adds ≠ []) :
    inplaceAlterTable sortString L clock (fun _ => false) adds quiet items =
      (scan sortString L clock (fun _ => false) adds (fun _ => quietItem) false 0 0 items ⟨fun _ => [], [], []⟩).map
        fun st => st.committed ++ st.pending := by
  have asked : adds.isEmpty = false := by simpa using some_add
  simp only [inplaceAlterTable, quiet, asked, Bool.false_eq_true, if_false, ne_eq, not_true_eq_false, if_true]
  cases scan sortString L clock (fun _ => false) adds (fun _ => quietItem) false 0 0 items ⟨fun _ => [], [], []⟩ <;> rfl

theorem reportsDuplicate_iff : ReportsDuplicate sortString L clock adds items ↔
    MetAlike sortString L clock adds items fun _ _ _ => True := by
  have stale : MetAlike sortString L clock adds items (fun _ _ _ => True) ↔
      ∃ add ∈ adds, add.index.isUnique = true ∧ ¬ Fresh sortString L add [] (reached clock quiet items) := by
    simp only [MetAlike, and_true, not_fresh_iff]
  rw [stale, ReportsDuplicate]
  by_cases some_add : adds = []
  · subst some_add
    simp [inplaceAlterTable]
  · rw [inplaceAlterTable_quiet some_add]
    rcases scan_cases sortString L clock adds false 0 0 items ⟨fun _ => [], [], []⟩ with
      ⟨st, done, fresh⟩ | ⟨a, add, added, unique, again, done⟩
    · rw [done]
      constructor
      · rintro ⟨keyNum, report⟩
        cases report
      · rintro ⟨add, mem, unique, again⟩
        obtain ⟨a, added⟩ := getElem?_of_mem mem
        exact absurd (fresh a add added unique) again
    · rw [done]
      exact ⟨fun _ => ⟨add, mem_of_getElem? added, unique, again⟩, fun _ => ⟨add.number, rfl⟩⟩

end Verdict

/- Two rows with NULL in a column that gets a UNIQUE key, and the values `abc` and `abd` in a VARBINARY(3) that gets one. -/
section Alarms

def nullableAdd : AddedIndex :=
  ⟨0, ⟨[{ bytePart 0 with nullable := true }], List.cons_ne_nil _ _⟩, .ordinary true⟩

def varbinaryAdd : AddedIndex := ⟨0, abcIndex.key, .ordinary true⟩

def twoRows (a b : Option Bytes) : List BuildItem := [some ⟨hiddenPk 1, [a], none⟩, some ⟨hiddenPk 2, [b], none⟩]

theorem agree_of_two {L : AlterLayout} {clock : BuildClock} {add : AddedIndex} {x y : BuildRow}
    (duplicate : HasDuplicate L clock [add] [some x, some y]) : Agree L add x y ∨ Agree L add y x := by
  obtain ⟨other, mem, -, i, j, v, w, apart, ⟨v_stored, -⟩, ⟨w_stored, -⟩, agree⟩ := duplicate
  cases List.mem_singleton.mp mem
  have inside : i < 2 ∧ j < 2 := ⟨(List.getElem?_eq_some_iff.mp v_stored).1, (List.getElem?_eq_some_iff.mp w_stored).1⟩
  obtain ⟨rfl, rfl⟩ | ⟨rfl, rfl⟩ : (i = 0 ∧ j = 1) ∨ (i = 1 ∧ j = 0) := by omega
  · cases v_stored
    cases w_stored
    exact .inl agree
  · cases v_stored
    cases w_stored
    exact .inr agree

end Alarms

end BuildLoop

end TidesdbMysql
