import TidesdbMysql.Fts.Search
import TidesdbMysql.Spatial.Read

/-! Whether the functions that read a table tell a failed engine call from the end of what they read. -/
namespace TidesdbMysql

open Base (Bytes SortedMap Iter Prog)
open Reader

variable {A : Type} [LinearOrder A]

namespace Reader

variable {V R : Type} {m : SortedMap Bytes V} {rows : SortedMap Bytes Record}

theorem told_not_ends (a : Answer R) (told : a.Told) : ¬ a.Ends := by
  obtain ⟨code, rfl, not_end, not_missing⟩ := told
  rintro (same | same)
  · cases same
    exact not_end rfl
  · cases same
    exact not_missing rfl

theorem found_not_ends (r : R) : ¬ Answer.Ends (some (.ok r) : Answer R) := by
  rintro (same | same) <;> cases same

theorem rndInit_shaped {D : Type} (opened : Bool) : Shaped (rndInit (D := D) opened) := by
  apply shaped_ensure
  exact shaped_move fun _ => Shaped.found ()

/-- A program that comes to something, if there is something, is honest but for the calls it does not report. -/
theorem honest_iff_reported {p : Reader V Record (Answer R)} {it : Iter (Bytes × V)} {further : Prop} (shaped : Shaped p)
    (finds : further → ∃ r, (p.quiet (readService m rows) it).1 = some (.ok r)) (first : Option (Nat × Failure)) :
    p.Honest (readService m rows) Answer.Ends Answer.Told further first it ↔
      (further → ∀ c, p.struck (readService m rows) first it = some c → c.Reported) := by
  rw [(Prog.Tells.confesses shaped.plainly).honest_iff told_not_ends]
  refine imp_congr_right fun more => ?_
  obtain ⟨r, found⟩ := finds more
  cases p.struck (readService m rows) first it with
  | none =>
    rw [found]
    refine iff_of_true (found_not_ends r) fun c none_struck => ?_
    cases none_struck
  | some c =>
    constructor
    · intro reported c' same
      cases same
      exact reported
    · intro all
      exact all c rfl

end Reader

section
variable (s : Table) (pk : Bytes) (key : Key) (keyRead : Bytes → Option Record) (e : Bytes × Bytes) (call : SecCall)

def SecCall.Readable : SecCall → Prop
  | .last => comparableKeyLength key.parts < e.1.length ∧ s.rows.HasKey (e.1.drop (comparableKeyLength key.parts))
  | _ => keyRead e.1 ≠ none ∨ s.rows.HasKey (e.1.drop (comparableKeyLength key.parts))

theorem fetchRowByPk_ends_iff : Answer.Ends (some (fetchRowByPk s pk)) ↔ ¬ s.rows.HasKey pk := by
  unfold fetchRowByPk
  cases found : s.rows.lookup pk with
  | none => exact iff_of_true (.inr rfl) (SortedMap.lookup_eq_none.mp found)
  | some record =>
    refine iff_of_false (found_not_ends _) fun missing => missing ?_
    exact ⟨(pk, record), SortedMap.lookup_eq_some.mp found, rfl⟩

theorem SecCall.read_ends_iff : Answer.Ends (some (call.read s key keyRead e)) ↔ ¬ call.Readable s key keyRead e := by
  by_cases last : call = .last
  · subst last
    unfold read Readable
    by_cases long : comparableKeyLength key.parts < e.1.length
    · rw [if_pos long, fetchRowByPk_ends_iff, and_iff_right long]
    · rw [if_neg long]
      exact iff_of_true (.inl rfl) fun readable => long readable.1
  · have plain : call.read s key keyRead e = SecScan.readEntry s key keyRead e := by
      cases call with
      | last => exact absurd rfl last
      | _ => rfl
    have meaning : call.Readable s key keyRead e ↔
        (keyRead e.1 ≠ none ∨ s.rows.HasKey (e.1.drop (comparableKeyLength key.parts))) := by
      cases call with
      | last => exact absurd rfl last
      | _ => exact Iff.rfl
    rw [plain, meaning, SecScan.readEntry]
    cases decoded : keyRead e.1 with
    | some record => exact iff_of_false (found_not_ends _) fun neither => neither (.inl (Option.some_ne_none _))
    | none =>
      have undecoded : ¬ (none : Option Record) ≠ none := fun different => different rfl
      rw [fetchRowByPk_ends_iff, or_iff_right undecoded]

end

inductive Reading (metas : SortedMap Bytes Bytes) (s : Table) (A : Type) [LinearOrder A] where
  | rndInit (opened : Bool) (place : Iter (Bytes × Record))
  | primary (width : Nat) (st : PkState (dataFamily metas s.rows) s.rows) (call : PkCall)
  | secondary (T : Schema) (key : Key) (icp : Bytes → Reader.Icp Record) (keyRead : Bytes → Option Record)
      (m : SortedMap Bytes Bytes) (st : SecState m) (call : SecCall)
  | spatial (mode : MbrMode) (query : Mbr A) (m : SortedMap Bytes (Mbr A)) (st : SpatialState m) (call : SpatialCall)
  | ftInitExt (maxWordLen : Nat) (phraseIn : List Bytes → Record → Bool) (m : SortedMap Bytes Bytes)
      (place : Iter (Bytes × Bytes)) (terms : List QueryTerm)
  | ftRead (m : SortedMap Bytes Bytes) (place : Iter (Bytes × Bytes)) (results : List Bytes)

namespace Reading

variable {metas : SortedMap Bytes Bytes} {s : Table}

/-- The end, or nothing found, is answered only when nothing further is there; otherwise a failure
is an error of its own. -/
def Honest (first : Option (Nat × Failure)) : Reading metas s A → Prop
  | .rndInit opened place => (Reader.rndInit opened).Honest (readService (dataFamily metas s.rows) s.rows) Answer.Ends
      Answer.Told (∃ row, row ∈ s.rows.entries) first place
  | .primary width st call => (call.prog width st).Honest (readService (dataFamily metas s.rows) s.rows) Answer.Ends
      Answer.Told (call.Further width st) first st.place
  | .secondary T key icp keyRead m st call => (call.prog T key icp keyRead st).Honest (readService m s.rows) Answer.Ends
      Answer.Told (call.further T s key icp st ≠ []) first st.place
  | .spatial mode query m st call => (call.prog mode query st).Honest (readService m s.rows) Answer.Ends
      Answer.Told (call.further mode query s.rows st ≠ []) first st.place
  | .ftInitExt maxWordLen phraseIn m place terms => (Reader.ftInitExt maxWordLen phraseIn (m.size + 1) terms).Honest
      (readService m s.rows) (fun documents => documents = []) (fun _ => False)
      (ftMatches maxWordLen phraseIn m s.rows terms ≠ []) first place
  | .ftRead m place results => (Reader.ftRead results).Honest (readService m s.rows) Answer.Ends Answer.Told
      (∃ pk ∈ results, s.rows.HasKey pk) first place

/-- The first failure is that of a call which is reported, or there is nothing to read. -/
def Sheltered (first : Option (Nat × Failure)) : Reading metas s A → Prop
  | .rndInit opened place => (∃ row, row ∈ s.rows.entries) →
      ∀ c, (Reader.rndInit opened).struck (readService (dataFamily metas s.rows) s.rows) first place = some c → c.Reported
  | .primary width st call => call.Further width st →
      ∀ c, (call.prog width st).struck (readService (dataFamily metas s.rows) s.rows) first st.place = some c → c.Reported
  | .secondary T key icp keyRead m st call => ∀ e ∈ (call.further T s key icp st).head?,
      match (call.prog T key icp keyRead st).struck (readService m s.rows) first st.place with
      | none => call.Readable s key keyRead e
      | some c => c.Reported
  | .spatial mode query m st call => call.further mode query s.rows st ≠ [] →
      ∀ c, (call.prog mode query st).struck (readService m s.rows) first st.place = some c → c.Reported
  | .ftInitExt maxWordLen phraseIn m place terms => ftMatches maxWordLen phraseIn m s.rows terms ≠ [] →
      (Reader.ftInitExt maxWordLen phraseIn (m.size + 1) terms).struck (readService m s.rows) first place = none
  | .ftRead m place results => (∃ pk ∈ results, s.rows.HasKey pk) →
      ∀ c, (Reader.ftRead results).struck (readService m s.rows) first place = some c → c.Reported

end Reading

theorem SecCall.honest_iff {T : Schema} {s : Table} {key : Key} {icp : Bytes → Reader.Icp Record}
    {keyRead : Bytes → Option Record} {m : SortedMap Bytes Bytes} (st : SecState m) (call : SecCall)
    (first : Option (Nat × Failure)) :
    (call.prog T key icp keyRead st).Honest (readService m s.rows) Answer.Ends Answer.Told
        (call.further T s key icp st ≠ []) first st.place ↔
      ∀ e ∈ (call.further T s key icp st).head?,
        match (call.prog T key icp keyRead st).struck (readService m s.rows) first st.place with
        | none => call.Readable s key keyRead e | some c => c.Reported := by
  rw [(Prog.Tells.confesses (SecCall.shaped st call).plainly).honest_iff told_not_ends]
  cases more : call.further T s key icp st with
  | nil => exact iff_of_true (fun some_entry => absurd rfl some_entry) fun e none_there => by cases none_there
  | cons e rest =>
    have read : ((call.prog T key icp keyRead st).quiet (readService m s.rows) st.place).1 =
        some (call.read s key keyRead e) := SecCall.quiet_read st more
    have at_head : ∀ P : Bytes × Bytes → Prop, (∀ x ∈ (e :: rest).head?, P x) ↔ P e := by
      intro P
      simp
    rw [at_head, read, SecCall.read_ends_iff, not_not, forall_prop_of_true (List.cons_ne_nil e rest)]
    cases (call.prog T key icp keyRead st).struck (readService m s.rows) first st.place with
    | none | some => exact Iff.rfl

theorem Reader.ftInitExt_honest_iff (maxWordLen : Nat) (phraseIn : List Bytes → Record → Bool)
    (m : SortedMap Bytes Bytes) (rows : SortedMap Bytes Record) (terms : List QueryTerm) (place : Iter (Bytes × Bytes))
    (first : Option (Nat × Failure)) :
    (Reader.ftInitExt maxWordLen phraseIn (m.size + 1) terms).Honest (readService m rows)
        (fun documents => documents = []) (fun _ => False) (ftMatches maxWordLen phraseIn m rows terms ≠ []) first place ↔
      (ftMatches maxWordLen phraseIn m rows terms ≠ [] →
        (Reader.ftInitExt maxWordLen phraseIn (m.size + 1) terms).struck (readService m rows) first place = none) := by
  rw [(Prog.Tells.confesses (Prog.tells_silent _)).honest_iff fun _ told => told.elim, quiet_ftInitExt]
  refine imp_congr_right fun more => ?_
  cases (ftInitExt maxWordLen phraseIn (m.size + 1) terms).struck (readService m rows) first place with
  | none => exact iff_of_true more rfl
  | some c => exact iff_of_false not_false (Option.some_ne_none c)

def loneRow : Table := ⟨⟨[([1], [])], List.pairwise_singleton _ _⟩, fun _ => .empty, 2, 0⟩

def onLoneRow : PkState (dataFamily .empty loneRow.rows) loneRow.rows where
  opened := true
  place := (dataFamily .empty loneRow.rows).iterSeek [keyNsData]
  on := SortedMap.iterSeek_on _ _
  dir := .none
  exactDone := false
  currentPk := []
  there exactly := by cases exactly
  searchComp := []

def ioFailure : Failure := ⟨.io, by decide⟩

end TidesdbMysql
