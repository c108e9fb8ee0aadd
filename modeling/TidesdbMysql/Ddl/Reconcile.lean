import TidesdbMysql.Ddl.Names

/-! The sweep of `DdSyncReconciler` between the data dictionary and the column families: `compute_delta`, which
makes names of its own for the tables, and `apply_delta`. -/
namespace TidesdbMysql
open List

namespace Reconcile

/-- A table of the dictionary, with its secondary keys and its partitions. -/
structure DdTable where
  name : Name
  isTidesdb : Bool
  keys : List Name
  partitions : List Name

structure DdSchema where
  name : Name
  tables : List DdTable

/- Which of the enumerating calls fail. -/
structure Failures where
  schemas : Bool
  tables : Name → Bool
  families : Bool

def Failures.none : Failures := ⟨false, fun _ => false, false⟩

inductive OrphanAction where
  | drop | quarantine | logOnly
  deriving DecidableEq

inductive SweepCall where
  | drop (cf : Name)
  | rename (cf target : Name)
  deriving DecidableEq

def SweepCall.cf : SweepCall → Name
  | .drop cf | .rename cf _ => cf

def kReconcilerSkipPrefix : Name := ['_', '_']

section

variable (dd : List DdSchema) (failures : Failures) (action : OrphanAction) (stamp : Name → Name) (names : List Name)

/- The name the sweep expects for a table. -/
def DdSchema.cf (sch : DdSchema) (t : DdTable) : Name := sch.name ++ ['_', '_'] ++ t.name

def DdSchema.expected (sch : DdSchema) : List Name := (sch.tables.filter (·.isTidesdb)).map sch.cf

def expected : List Name :=
  if failures.schemas then [] else dd.flatMap fun sch => if failures.tables sch.name then [] else sch.expected

def computeDeltaPure (expectedCfs actualCfs : List Name) : List Name × List Name :=
  (actualCfs.filter fun a => !kReconcilerSkipPrefix.isPrefixOf a && !expectedCfs.contains a,
    expectedCfs.filter fun e => !actualCfs.contains e)

def computeDelta : List Name × List Name :=
  computeDeltaPure (expected dd failures) (if failures.families then [] else names)

/- `"__orphan_%lld_%.200s"`, with the time of the call. -/
def quarantineName (cf : Name) : Name :=
  ['_', '_', 'o', 'r', 'p', 'h', 'a', 'n', '_'] ++ stamp cf ++ '_' :: cf.take 200

/-- `apply_delta`; tables without a family are only logged. -/
def applyDelta (orphanCfs : List Name) : List SweepCall :=
  match action with
  | .drop => orphanCfs.map .drop
  | .quarantine => orphanCfs.map fun cf => .rename cf (quarantineName stamp cf)
  | .logOnly => []

def sweep : List SweepCall := applyDelta action stamp (computeDelta dd failures names).1

def SweepCall.apply (names : List Name) : SweepCall → List Name
  | .drop cf => names.filter (· ≠ cf)
  | .rename cf target => target :: names.filter (· ≠ cf)

/- The families after a sweep in which every call succeeds. -/
def swept : List Name := (sweep dd failures action stamp names).foldl SweepCall.apply names

theorem mem_orphans {cf : Name} : cf ∈ (computeDelta dd failures names).1 ↔
    failures.families = false ∧ cf ∈ names ∧ ¬ kReconcilerSkipPrefix <+: cf ∧ cf ∉ expected dd failures := by
  have skips : kReconcilerSkipPrefix.isPrefixOf cf = false ↔ ¬ kReconcilerSkipPrefix <+: cf := by
    rw [← isPrefixOf_iff_prefix, Bool.not_eq_true]
  cases lost : failures.families <;> simp [computeDelta, computeDeltaPure, lost, skips]

theorem mem_sweep {cf : Name} : (∃ call ∈ sweep dd failures action stamp names, call.cf = cf) ↔
    action ≠ .logOnly ∧ cf ∈ (computeDelta dd failures names).1 := by
  cases action <;> simp [sweep, applyDelta, SweepCall.cf]

/- A table that is in the dictionary, and not in the listing because that failed. -/
def Unlisted (sch : DdSchema) (t : DdTable) : Prop :=
  sch ∈ dd ∧ t ∈ sch.tables ∧ t.isTidesdb = true ∧ (failures.schemas = true ∨ failures.tables sch.name = true)

end

/-- A sweep after failed listings spares the tables that are missing for that, just when it is not to act or cannot
list the families, or none of theirs is there but under a name with the prefix or of a table that was listed. -/
theorem unlisted_spared_iff (dd : List DdSchema) (failures : Failures) (action : OrphanAction) (stamp : Name → Name)
    (names : List Name) :
    (∀ sch t, Unlisted dd failures sch t → ¬ ∃ call ∈ sweep dd failures action stamp names, call.cf = sch.cf t) ↔
      action = .logOnly ∨ failures.families = true ∨ ∀ sch t, Unlisted dd failures sch t → sch.cf t ∈ names →
        kReconcilerSkipPrefix <+: sch.cf t ∨ sch.cf t ∈ expected dd failures := by
  simp only [mem_sweep, mem_orphans]
  constructor
  · intro spared
    by_cases acts : action = .logOnly ∨ failures.families = true
    · exact acts.imp_right .inl
    · rw [not_or, Bool.not_eq_true] at acts
      refine .inr (.inr fun sch t unlisted present => ?_)
      by_contra orphan
      rw [not_or] at orphan
      exact spared sch t unlisted ⟨acts.1, acts.2, present, orphan⟩
  · rintro (quiet | lost | kept) sch t unlisted ⟨acts, listed, present, skipped, orphan⟩
    · exact acts quiet
    · rw [lost] at listed
      cases listed
    · exact (kept sch t unlisted present).elim skipped orphan

def tableT : DdTable := ⟨['t'], true, [['i']], []⟩

/- The list of the tables of `d` fails, and `d.t` goes for an orphan. -/
theorem unlisted_table_dropped : ¬ ∀ (dd : List DdSchema) (failures : Failures) (action : OrphanAction)
    (stamp : Name → Name) (names : List Name) (sch : DdSchema) (t : DdTable), Unlisted dd failures sch t →
      ¬ ∃ call ∈ sweep dd failures action stamp names, call.cf = sch.cf t := by
  intro claim
  refine claim [⟨['d'], [tableT]⟩] ⟨false, fun _ => true, false⟩ .drop id [['d', '_', '_', 't']] ⟨['d'], [tableT]⟩ tableT
    ⟨mem_singleton_self _, mem_singleton_self _, rfl, .inr rfl⟩ ⟨.drop ['d', '_', '_', 't'], by decide, rfl⟩

section Live

variable (filename : Name → Name) (dd : List DdSchema)

/- The files of a table: `filename` is how the server writes an identifier in a path. -/
def DdTable.files (t : DdTable) : List Name :=
  if t.partitions = [] then [filename t.name]
  else t.partitions.map fun p => filename t.name ++ ['#', 'p', '#'] ++ filename p

/-- The families `create` has made for the tables of the dictionary. -/
def liveCfs : List Name :=
  dd.flatMap fun sch => (sch.tables.filter (·.isTidesdb)).flatMap fun t => (t.files filename).flatMap fun file =>
    let cf := pathToCfName (mariadbRelPathPrefix ++ filename sch.name ++ ['/'] ++ file)
    cf :: t.keys.map (idxCfName cf)

/-- A sweep acts on what is left beside the live families and those with the prefix, and one after a quarantine
finds nothing. -/
def SweepsOrphans (stamp : Name → Name) (names : List Name) : Prop :=
  (∀ action ≠ OrphanAction.logOnly, ∀ cf, (∃ call ∈ sweep dd .none action stamp names, call.cf = cf) ↔
    cf ∈ names ∧ ¬ kReconcilerSkipPrefix <+: cf ∧ cf ∉ liveCfs filename dd) ∧
  (computeDelta dd .none (swept dd .none .quarantine stamp names)).1 = []

end Live

theorem mem_foldl_rename {orphans names : List Name} {target : Name → Name} {n : Name}
    (present : n ∈ (orphans.map fun cf => SweepCall.rename cf (target cf)).foldl SweepCall.apply names) :
    n ∈ names ∧ n ∉ orphans ∨ ∃ cf, n = target cf := by
  induction orphans generalizing names with
  | nil => exact .inl ⟨present, not_mem_nil⟩
  | cons cf rest ih =>
    rcases ih present with ⟨before, other⟩ | renamed
    · rcases mem_cons.mp before with renamed | before
      · exact .inr ⟨cf, renamed⟩
      · rw [mem_filter, decide_eq_true_eq] at before
        exact .inl ⟨before.1, not_mem_cons_of_ne_of_not_mem before.2 other⟩
    · exact .inr renamed

theorem second_sweep_clean (dd : List DdSchema) (stamp : Name → Name) (names : List Name) :
    (computeDelta dd .none (swept dd .none .quarantine stamp names)).1 = [] := by
  rw [eq_nil_iff_forall_not_mem]
  intro cf orphan
  rw [mem_orphans] at orphan
  obtain ⟨-, present, unmarked, unexpected⟩ := orphan
  rcases mem_foldl_rename present with ⟨before, kept⟩ | ⟨old, rfl⟩
  · exact kept ((mem_orphans _ _ _).mpr ⟨rfl, before, unmarked, unexpected⟩)
  · exact unmarked ⟨_, rfl⟩

/-- The sweep is right just when, of the families without the prefix, those of live tables are those that are called
after a table of the dictionary. -/
theorem sweep_exact_iff (filename : Name → Name) (dd : List DdSchema) (stamp : Name → Name) (names : List Name) :
    SweepsOrphans filename dd stamp names ↔
      ∀ cf ∈ names, ¬ kReconcilerSkipPrefix <+: cf → (cf ∈ liveCfs filename dd ↔ cf ∈ expected dd .none) := by
  rw [SweepsOrphans, and_iff_left (second_sweep_clean dd stamp names)]
  simp only [mem_sweep, mem_orphans]
  constructor
  · intro same cf present unmarked
    have both := same .drop (by decide) cf
    constructor
    · intro live
      by_contra orphan
      exact (both.mp ⟨by decide, rfl, present, unmarked, orphan⟩).2.2 live
    · intro named
      by_contra dead
      exact (both.mpr ⟨present, unmarked, dead⟩).2.2.2.2 named
  · intro same action acts cf
    constructor
    · rintro ⟨-, -, present, unmarked, orphan⟩
      exact ⟨present, unmarked, fun live => orphan ((same cf present unmarked).mp live)⟩
    · rintro ⟨present, unmarked, dead⟩
      exact ⟨acts, rfl, present, unmarked, fun named => dead ((same cf present unmarked).mpr named)⟩

/- The family of an index goes for an orphan. -/
theorem index_family_swept : ¬ ∀ (filename : Name → Name) (dd : List DdSchema) (stamp : Name → Name) (names : List Name),
    (∀ cf ∈ liveCfs filename dd, cf ∈ names) → SweepsOrphans filename dd stamp names := by
  intro claim
  have swept := claim id [⟨['d'], [tableT]⟩] id (liveCfs id [⟨['d'], [tableT]⟩]) fun _ live => live
  have acted := (swept.1 .quarantine (by decide) (idxCfName ['d', '_', '_', 't'] ['i'])).mp
    ⟨.rename (idxCfName ['d', '_', '_', 't'] ['i']) (quarantineName id (idxCfName ['d', '_', '_', 't'] ['i'])), by decide, rfl⟩
  exact acted.2.2 (by decide)

end Reconcile

end TidesdbMysql
