import TidesdbMysql.Table.Unique
import TidesdbMysql.Table.Writer

/-! Which failures of the engine `write_row`, `update_row` and `delete_row` answer with an error. -/
namespace TidesdbMysql

open Base (Bytes SortedMap Iter Prog run)

/-- The calls whose failure is answered; not those of UNIQUE probes, full-text and spatial deletes
and counters. -/
def DmlCall.Reported (T : Schema) : DmlCall → Prop
  | .get _ | .iterNew _ | .op (.row _) | .commit | .restart => True
  | .op (.entry i o) => ∀ ix ∈ T.indexes[i]?, ix.ignores o = false
  | .seek _ _ | .key _ | .metaGet _ | .metaPut _ _ _ => False

namespace Writer

variable (v : DmlView) (T : Schema)

/-- A failure that is reported is answered with an error, behind any other failure the call can still succeed. -/
def Confesses (p : Writer) : Prop := Prog.Confesses (dmlService v) (DmlCall.Reported T) (· ≠ .ok) p

/- It confesses, and whatever it finds it can succeed, the engine failing where that takes a failure. -/
structure Frank (p : Writer) : Prop where
  confesses : Confesses v T p
  succeeds : ∀ places, p.Reaches (dmlService v) (fun code => ¬ code ≠ .ok) places

variable {v T}

theorem refused_ne_ok (f : Failure) : tdbRcToHa f.rc ≠ .ok := by
  rw [ne_eq, tdbRcToHa_eq_ok]
  exact f.bad.1

theorem frank_ok : Frank v T (pure .ok) := ⟨trivial, fun _ => not_not.mpr rfl⟩

theorem frank_reported {c : DmlCall} (important : c.Reported T) {g : DmlAns c → Writer}
    (served : ∀ places, Frank v T (g ((dmlService v).serve c places).1))
    (refused : ∀ f, (g ((dmlService v).refuse c f)).Every (· ≠ .ok)) : Frank v T (Prog.ask c >>= g) where
  confesses := ⟨fun places => (served places).confesses, fun _ => refused, fun minor => absurd important minor⟩
  succeeds places := .inl ((served places).succeeds _)

theorem frank_minor {c : DmlCall} (minor : ¬ c.Reported T) {g : DmlAns c → Writer} (each : ∀ answer, Frank v T (g answer)) :
    Frank v T (Prog.ask c >>= g) where
  confesses := ⟨fun _ => (each _).confesses, fun important => absurd important minor,
    fun _ _ => ⟨fun _ => none, (each _).succeeds _⟩⟩
  succeeds _ := .inl ((each _).succeeds _)

variable {next : Writer}

theorem frank_issueRow (o : CfOp Record) (rest : Frank v T next) : Frank v T (issueRow o next) := by
  apply frank_reported (c := .op (.row o)) trivial
  · exact fun _ => rest
  · intro f
    change Prog.Every (· ≠ .ok) (if f.rc = .success then next else pure (tdbRcToHa f.rc))
    rw [if_neg f.bad.1]
    exact refused_ne_ok f

theorem frank_issueEntries {ix : Index} {i : Nat} (here : T.indexes[i]? = some ix) (os : List (CfOp Bytes))
    (rest : Frank v T next) : Frank v T (issueEntries ix i os next) := by
  induction os with
  | nil => exact rest
  | cons o os ih =>
    by_cases ignored : ix.ignores o = true
    · apply frank_minor
      · intro reported
        exact absurd ((reported ix here).symm.trans ignored) Bool.false_ne_true
      · intro rc
        rw [if_pos (.inr ignored)]
        exact ih
    · apply frank_reported
      · intro found there
        rw [here] at there
        cases there
        exact Bool.eq_false_iff.mpr ignored
      · intro _
        rw [if_pos (.inl rfl)]
        exact ih
      · intro f
        change Prog.Every (· ≠ .ok) (if f.rc = .success ∨ ix.ignores o = true then issueEntries ix i os next
          else pure (tdbRcToHa f.rc))
        rw [if_neg (not_or.mpr ⟨f.bad.1, ignored⟩)]
        exact refused_ne_ok f

section
variable (pk : Bytes) (s : Table) (iters : DupIters) (req : Insert) (ctx : RowContext)
  (entries : Nat → Index → List (CfOp Bytes)) (moved : Index → Option (Int × Int)) (i : Nat) (ixs : List Index)
  (key : Bytes) (docs words : Int)

theorem frank_ftsUpdateMeta (rest : Frank v T next) : Frank v T (ftsUpdateMeta i docs words next) := by
  apply frank_minor (c := .metaGet i) fun reported => reported
  intro loaded
  exact frank_minor (c := .metaPut i _ _) (fun reported => reported) fun _ => rest

theorem frank_overIndexes {i : Nat} {ixs : List Index} (at_i : ∀ n, T.indexes[i + n]? = ixs[n]?) (rest : Frank v T next) :
    Frank v T (overIndexes entries moved i ixs next) := by
  induction ixs generalizing i with
  | nil => exact rest
  | cons ix ixs ih =>
    have later : Frank v T (overIndexes entries moved (i + 1) ixs next) := by
      apply ih
      intro n
      rw [Nat.add_assoc, Nat.add_comm 1 n, at_i (n + 1), List.getElem?_cons_succ]
    apply frank_issueEntries (at_i 0)
    cases moved ix with
    | none => exact later
    | some delta => exact frank_ftsUpdateMeta i delta.1 delta.2 later

theorem frank_bulkTail : Frank v T (bulkTail ctx) := by
  have answered : ∀ (f : Failure) (p : Writer),
      Prog.Every (· ≠ .ok) (if f.rc = .success then p else pure (tdbRcToHa f.rc)) := by
    intro f p
    rw [if_neg f.bad.1]
    exact refused_ne_ok f
  unfold bulkTail
  split
  · apply frank_reported (c := .commit) trivial
    · intro _
      exact frank_reported (c := .restart) trivial (fun _ => frank_ok) fun f => answered f _
    · exact fun f => answered f _
  · exact frank_ok

/- A seek that fails may leave the iterator anywhere; where it is not valid there is no duplicate. -/
theorem frank_probe (rest : Frank v T next) : Frank v T (probe i key next) := by
  have passed : (look i key next).Reaches (dmlService v) (fun code => ¬ code ≠ .ok) (fun _ => none) := rest.succeeds _
  constructor
  · refine ⟨fun _ places => ?_, fun important => important.elim, fun _ _ => ⟨fun _ => none, passed⟩⟩
    change Confesses v T (if (places i).isSome then Prog.ask (DmlCall.key i) >>= compareKey key next else next)
    split
    · refine ⟨fun at_key => ?_, fun important => important.elim, fun _ _ => ⟨fun _ => none, rest.succeeds _⟩⟩
      cases (dmlService v).serve (.key i) at_key |>.1 with
      | error rc => exact rest.confesses
      | ok fk =>
        change Confesses v T (if key <+: fk then pure .foundDuppKey else next)
        split
        · trivial
        · exact rest.confesses
    · exact rest.confesses
  · intro places
    exact .inr ⟨⟨.io, by decide⟩, fun _ => none, passed⟩

theorem frank_dupChecks (rest : Frank v T next) : Frank v T (dupChecks T iters req i ixs next) := by
  induction ixs generalizing i with
  | nil => exact rest
  | cons ix ixs ih =>
    have probed := frank_probe i (probeKey T req i ix) (ih (i + 1))
    unfold dupChecks
    split
    · split
      · exact probed
      · apply frank_reported (c := .iterNew i) trivial
        · exact fun _ => probed
        · intro f
          change Prog.Every (· ≠ .ok) (if f.rc = .success then
            probe i (probeKey T req i ix) (dupChecks T iters req (i + 1) ixs next) else pure (tdbRcToHa f.rc))
          rw [if_neg f.bad.1]
          exact refused_ne_ok f
    · exact ih (i + 1)

theorem frank_writeChecks : Frank v T (writeChecks T s iters req ctx) := by
  have puts : Frank v T (writePuts T s req ctx) :=
    frank_issueRow _ (frank_overIndexes _ _ (fun n => by rw [Nat.zero_add]) (frank_bulkTail ctx))
  unfold writeChecks
  split
  · exact puts
  · exact frank_dupChecks iters req 0 T.indexes puts

theorem confesses_pkCheck (rest : Frank v T next) : Confesses v T (pkCheck pk next) := by
  refine ⟨fun places => ?_, fun _ f => ?_, fun minor => absurd trivial minor⟩
  · change Confesses v T (compareRow next (foundOr (v.rows.lookup pk)))
    cases v.rows.lookup pk with
    | none => exact rest.confesses
    | some record => trivial
  · change Prog.Every (· ≠ .ok) (if f.rc = .notFound then next else pure (tdbRcToHa f.rc))
    rw [if_neg f.bad.2]
    exact refused_ne_ok f

theorem confesses_writeRow : Confesses v T (writeRow T s iters req ctx) := by
  have checks : Frank v T (writeChecks T s iters req ctx) := frank_writeChecks s iters req ctx
  unfold writeRow
  split
  · trivial
  · trivial
  · split
    · exact confesses_pkCheck _ checks
    · exact checks.confesses

end

theorem confesses_updateRow (req : Update) (ctx : RowContext) : Confesses v T (updateRow T req ctx) := by
  have put : Frank v T (issueRow (.put (updatedPk T req) req.new)
      (overIndexes (updateEntries T req (updatedPk T req)) (updateMoved req) 0 T.indexes (pure .ok))) :=
    frank_issueRow _ (frank_overIndexes _ _ (fun n => by rw [Nat.zero_add]) frank_ok)
  unfold updateRow
  split
  · trivial
  · split
    · exact (frank_issueRow _ put).confesses
    · exact put.confesses

theorem confesses_deleteRow (req : Delete) (ctx : RowContext) : Confesses v T (deleteRow T req ctx) := by
  have deletes : Frank v T (issueRow (.delete req.current)
      (overIndexes (deleteEntries T req) (deleteMoved req) 0 T.indexes (bulkTail ctx))) :=
    frank_issueRow _ (frank_overIndexes _ _ (fun n => by rw [Nat.zero_add]) (frank_bulkTail ctx))
  unfold deleteRow
  split
  · trivial
  · exact deletes.confesses

end Writer

inductive DmlRequest where
  | write (iters : DupIters) (req : Insert)
  | update (req : Update)
  | delete (req : Delete)

namespace DmlRequest

variable (T : Schema) (s : Table) (counters : Nat → Option (Int × Int)) (ctx : RowContext)

def prog : DmlRequest → Writer
  | .write iters req => Writer.writeRow T s iters req ctx
  | .update req => Writer.updateRow T req ctx
  | .delete req => Writer.deleteRow T req ctx

/- Only the duplicate check of `write_row` reads entries, through its iterators. -/
def view : DmlRequest → DmlView
  | .write iters req => ⟨s.rows, fun i => (dupIter s req iters i).seen, counters⟩
  | .update _ | .delete _ => ⟨s.rows, s.index, counters⟩

/-- Whatever the engine does after its first failure: if the call answers 0, no engine call it made has failed. -/
def HidesNothing (places : Places) (first : Option (Nat × Failure)) (call : DmlRequest) : Prop :=
  ∀ faults, Prog.Begins first faults →
    ((call.prog T s ctx).run (dmlService (call.view s counters)) faults 0 places).1 = .ok →
      ∀ n < ((call.prog T s ctx).run (dmlService (call.view s counters)) faults 0 places).2.1, faults n = none

variable {T s counters ctx}

theorem confesses (v : DmlView) (call : DmlRequest) : Writer.Confesses v T (call.prog T s ctx) := by
  cases call with
  | write iters req => exact Writer.confesses_writeRow s iters req ctx
  | update req => exact Writer.confesses_updateRow req ctx
  | delete req => exact Writer.confesses_deleteRow req ctx

theorem hidesNothing_iff_honest (places : Places) (first : Option (Nat × Failure)) (call : DmlRequest) :
    call.HidesNothing T s counters ctx places first ↔
      (call.prog T s ctx).Honest (dmlService (call.view s counters)) (fun _ => False) (· ≠ .ok) True first places := by
  refine forall_congr' fun faults => imp_congr_right fun _ => ?_
  constructor
  · rintro nothing
    refine ⟨False.elim, fun _ failed success => ?_⟩
    obtain ⟨n, small, refused⟩ := failed
    exact refused (nothing success n small)
  · rintro ⟨-, tells⟩ success n small
    refine Classical.byContradiction fun refused => ?_
    exact tells trivial ⟨n, small, refused⟩ success

end DmlRequest

theorem dml_hides_nothing_iff (T : Schema) (s : Table) (counters : Nat → Option (Int × Int)) (ctx : RowContext)
    (call : DmlRequest) (places : Places) (first : Option (Nat × Failure)) :
    call.HidesNothing T s counters ctx places first ↔
      ∀ c, (call.prog T s ctx).struck (dmlService (call.view s counters)) first places = some c → c.Reported T := by
  rw [DmlRequest.hidesNothing_iff_honest,
    (DmlRequest.confesses (call.view s counters) call).honest_iff fun _ _ never => never, forall_prop_of_true trivial]
  cases (call.prog T s ctx).struck (dmlService (call.view s counters)) first places with
  | none => exact iff_of_true not_false fun c none_struck => by cases none_struck
  | some c =>
    constructor
    · intro reported c' same
      cases same
      exact reported
    · intro all
      exact all c rfl

/- `u TINYINT UNSIGNED UNIQUE` under a primary key, with the row (1, 7). -/
def oneUnique : Table := run (dmlStep uniqueIds) Table.empty [.write (fun _ => none) (insertOf [some [1], some [7]])]

/-- `INSERT INTO t VALUES (2, 7)` answers 0 when the seek under the UNIQUE key fails. -/
theorem failed_seek_admits_duplicate :
    ¬ ∀ (T : Schema) (s : Table) (counters : Nat → Option (Int × Int)) (ctx : RowContext) (call : DmlRequest)
      (places : Places) (first : Option (Nat × Failure)), call.HidesNothing T s counters ctx places first := by
  intro claim
  let faults : Base.Faults Failure Places := fun n => if n = 2 then some (⟨.io, by decide⟩, fun _ => none) else none
  have begins : Prog.Begins (some (2, ⟨.io, by decide⟩)) faults := by
    refine ⟨fun i small => if_neg (Nat.ne_of_lt small), fun _ => none, rfl⟩
  let call : DmlRequest := .write (fun _ => none) (insertOf [some [2], some [7]])
  have success : ((call.prog uniqueIds oneUnique ⟨none, false, false⟩).run
      (dmlService (call.view oneUnique fun _ => none)) faults 0 fun _ => none).1 = .ok := by decide
  have made : 2 < ((call.prog uniqueIds oneUnique ⟨none, false, false⟩).run
      (dmlService (call.view oneUnique fun _ => none)) faults 0 fun _ => none).2.1 := by decide
  have hidden := claim uniqueIds oneUnique (fun _ => none) ⟨none, false, false⟩ call (fun _ => none)
    (some (2, ⟨.io, by decide⟩)) faults begins success 2 made
  cases hidden

end TidesdbMysql
