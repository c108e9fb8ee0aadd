import TidesdbMysql.Fts.Statistics

/-! The totals when the engine fails. `fts_load_meta` hides a failed read from `fts_update_meta`, and only
`end_bulk_insert` looks at what `fts_update_meta` returns. -/
namespace TidesdbMysql

open Base (Bytes)
open Option

/-- The engine's answers to one `fts_update_meta`: the code of a read that fails, and the code of the put. -/
structure MetaAnswer where
  readFails : Option Rc
  put : Rc
  deriving DecidableEq

def MetaAnswer.good : MetaAnswer := ⟨none, .success⟩

def MetaAnswer.read (answer : MetaAnswer) (stored : Option Totals) : Except Rc Totals :=
  match answer.readFails, stored with
  | some rc, _ => .error rc
  | none, some totals => .ok totals
  | none, none => .error .notFound

/-- The totals `fts_update_meta` puts, if the put succeeds. -/
def MetaAnswer.puts (answer : MetaAnswer) (stored : Option Totals) (delta : Delta) : Option Totals :=
  if answer.put = .success then some (ftsUpdateMeta (ftsLoadMeta (answer.read stored)) delta.1 delta.2) else none

namespace FtsSession

variable (T : Schema)

/-- The calls of `fts_update_meta` in one event. -/
def metaCalls (s : FtsSession) : FtsEvent → Nat → Index → Option Delta
  | .call (.write iters req) => fun _ ix =>
    if s.inBulkInsert ∨ (writeRow T s.view.table iters req).ops.isEmpty then none else writeDelta ix (req.stored T)
  | .call (.update req) => fun _ ix => updateDelta ix req
  | .call (.delete req) => fun _ ix => deleteDelta ix req.record
  | .endBulkInsert => s.owed
  | .startBulkInsert | .startBulkDelete | .endBulkDelete | .commit | .rollback => fun _ _ => none

def metaPuts (answers : Nat → MetaAnswer) (s : FtsSession) (event : FtsEvent) (i : Nat) : Option Totals :=
  ((T.indexes[i]?).bind (s.metaCalls T event i)).bind ((answers i).puts (s.view.stats i))

/- The first put that fails, over the keys numbered from `i` on. -/
def stickyRc (answers : Nat → MetaAnswer) (s : FtsSession) : Nat → List Index → Rc
  | _, [] => .success
  | i, ix :: rest =>
    if (s.owed i ix).isSome ∧ (answers i).put ≠ .success then (answers i).put else stickyRc answers s (i + 1) rest

/-- What the server is told. The row functions drop the code of `fts_update_meta`. -/
def toldServer (answers : Nat → MetaAnswer) (s : FtsSession) : FtsEvent → HaCode
  | .endBulkInsert => tdbRcToHa (s.stickyRc answers 0 T.indexes)
  | event => (s.step T event).2

variable {T}

theorem stickyRc_fails {answers : Nat → MetaAnswer} {s : FtsSession} {i n : Nat} {ixs : List Index} {ix : Index}
    (at_n : ixs[n]? = some ix) (owes : (s.owed (i + n) ix).isSome = true) (fails : (answers (i + n)).put ≠ .success) :
    s.stickyRc answers i ixs ≠ .success := by
  induction ixs generalizing i n with
  | nil => cases at_n
  | cons first rest ih =>
    rw [stickyRc]
    split
    · rename_i here
      exact here.2
    · rename_i passed
      cases n with
      | zero =>
        obtain rfl : first = ix := by simpa using at_n
        exact absurd ⟨owes, fails⟩ passed
      | succ n =>
        have shift : i + (n + 1) = i + 1 + n := by omega
        rw [shift] at owes fails
        exact ih (by simpa using at_n) owes fails

variable (T) in
def ReadGuarded (answers : Nat → MetaAnswer) (s : FtsSession) (event : FtsEvent) (i : Nat) : Prop :=
  ∀ rc, (answers i).readFails = some rc → rc ≠ .notFound →
    s.metaPuts T answers event i = none ∧ s.toldServer T answers event ≠ .ok

variable {answers : Nat → MetaAnswer} {s : FtsSession} {event : FtsEvent} {i : Nat} {ix : Index} {delta : Delta}

theorem metaPuts_eq_none (at_i : T.indexes[i]? = some ix) (calls : s.metaCalls T event i ix = some delta) :
    s.metaPuts T answers event i = none ↔ (answers i).put ≠ .success := by
  rw [metaPuts, at_i, bind_some, calls, bind_some, MetaAnswer.puts]
  split
  · rename_i put
    exact iff_of_false (some_ne_none _) (not_not_intro put)
  · rename_i put
    exact iff_of_true rfl put

theorem toldServer_call (dml : Dml) (calls : s.metaCalls T (.call dml) i ix = some delta) :
    s.toldServer T answers (.call dml) = .ok := by
  cases dml with
  | update | delete => rfl
  | write iters req =>
    show (s.call T (.write iters req)).2 = .ok
    rcases writeRow_cases T s.view.table iters req with ⟨-, nothing, -⟩ | ⟨counter, -, ⟨-, -, nothing, -⟩ | ⟨-, code, -, -⟩⟩
    · simp [metaCalls, nothing] at calls
    · simp [metaCalls, nothing] at calls
    · unfold call
      dsimp only
      split <;> exact code

/-- A failed read is guarded against only by a put that fails too, at the end of a bulk insert. -/
theorem failed_read_guarded_iff (T : Schema) (answers : Nat → MetaAnswer) (s : FtsSession) (event : FtsEvent)
    {i : Nat} {ix : Index} (at_i : T.indexes[i]? = some ix) {delta : Delta}
    (calls : s.metaCalls T event i ix = some delta) :
    s.ReadGuarded T answers event i ↔ (answers i).readFails = none ∨ (answers i).readFails = some .notFound ∨
      (event = .endBulkInsert ∧ (answers i).put ≠ .success) := by
  constructor
  · intro guarded
    cases read : (answers i).readFails with
    | none => exact .inl rfl
    | some rc =>
      by_cases missing : rc = .notFound
      · exact .inr (.inl (congrArg some missing))
      · obtain ⟨unput, told⟩ := guarded rc read missing
        refine .inr (.inr ⟨?_, (metaPuts_eq_none at_i calls).mp unput⟩)
        cases event with
        | endBulkInsert => rfl
        | call dml => exact absurd (toldServer_call dml calls) told
        | startBulkInsert | startBulkDelete | endBulkDelete | commit | rollback => cases calls
  · rintro (succeeds | missing | ⟨rfl, fails⟩) rc read other
    · cases succeeds.symm.trans read
    · exact absurd (some.inj (read.symm.trans missing)) other
    · refine ⟨(metaPuts_eq_none at_i calls).mpr fails, ?_⟩
      have owes : (s.owed (0 + i) ix).isSome = true := by
        rw [Nat.zero_add]
        exact isSome_of_mem calls
      rw [toldServer, ne_eq, tdbRcToHa_eq_ok]
      exact stickyRc_fails at_i owes (by rwa [Nat.zero_add])

def twoStored : FtsSession :=
  Base.run (step articles) fresh [.startBulkInsert, insertCall 1 cat, insertCall 2 cat, .endBulkInsert, .commit]

theorem good_read_guarded : twoStored.ReadGuarded articles (fun _ => .good) (insertCall 3 cat) 0 :=
  (failed_read_guarded_iff articles (fun _ => .good) twoStored (insertCall 3 cat) rfl rfl).mpr (.inl rfl)

/-- An INSERT succeeds though the read fails with an I/O error, and leaves one document of one word. -/
theorem failed_read_resets_totals :
    ¬ ∀ (T : Schema) (answers : Nat → MetaAnswer) (s : FtsSession) (event : FtsEvent) (i : Nat) (ix : Index) (delta : Delta),
      T.indexes[i]? = some ix → s.metaCalls T event i ix = some delta → s.ReadGuarded T answers event i := by
  intro claim
  have guarded := claim articles (fun _ => ⟨some .io, .success⟩) twoStored (insertCall 3 cat) 0 articleBody (1, 1) rfl rfl
  have stored : twoStored.metaPuts articles (fun _ => ⟨some .io, .success⟩) (insertCall 3 cat) 0 = some ⟨1, 1⟩ := by
    decide
  cases stored.symm.trans (guarded .io rfl (by decide)).1

end FtsSession

end TidesdbMysql
