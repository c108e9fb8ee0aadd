import TidesdbMysql.Base.Cursor
import TidesdbMysql.Base.Run
import TidesdbMysql.Txn.Engine
import TidesdbMysql.Xid.Wire
import Mathlib.Data.List.Nodup

/-! Crash recovery: the list of in-doubt transactions, the cursor of the server's
recover loop, and the resolution of one entry by its transaction id. -/
namespace TidesdbMysql
open Base List Option

variable {H : Type}

/-- `tidesdb_prepared_txn_t` as the library lists it at startup. -/
structure PreparedTxn (H : Type) where
  txn : Option H
  xid : Option Bytes

/-- `TdbInDoubtTxn`: the encoded id and the prepared handle. -/
structure InDoubt (H : Type) where
  xid : Bytes
  txn : H
  deriving DecidableEq

/-- `g_indoubt` with `g_indoubt_cursor`. -/
abbrev Recovery (H : Type) := Cursor (InDoubt H)

def PreparedTxn.entry (found : PreparedTxn H) : Option (InDoubt H) :=
  match found.txn, found.xid with
  | some txn, some xid => if xid.length = 0 then none else some ⟨xid, txn⟩
  | _, _ => none

def tidesdbCollectPrepared (found : List (PreparedTxn H)) : Recovery H :=
  Cursor.start (found.filterMap PreparedTxn.entry)

def InDoubt.decodable (e : InDoubt H) : Bool := (tdbXidDeserialize e.xid).isSome

/-- The loop of `tidesdb_xa_recover`: what it writes, the entry of each id, and how far the cursor
moves. -/
def recoverLoop : List (InDoubt H) → Nat → List (InDoubt H × Xid) × Nat
  | [], _ => ([], 0)
  | _ :: _, 0 => ([], 0)
  | e :: rest, room + 1 =>
    match tdbXidDeserialize e.xid with
    -- an id this build cannot decode cannot be named to the server
    | none => ((recoverLoop rest (room + 1)).1, (recoverLoop rest (room + 1)).2 + 1)
    | some x => ((e, x) :: (recoverLoop rest room).1, (recoverLoop rest room).2 + 1)

theorem recoverLoop_consumed_le (entries : List (InDoubt H)) (room : Nat) :
    (recoverLoop entries room).2 ≤ entries.length := by
  fun_induction recoverLoop entries room <;> simp_all

def tidesdbXaRecover (r : Recovery H) (len : Nat) : Recovery H × List (InDoubt H × Xid) :=
  (r.advance (recoverLoop r.ahead len).2 (recoverLoop_consumed_le _ _), (recoverLoop r.ahead len).1)

inductive XaStatus where
  | ok | rmErr | nota
  deriving DecidableEq, Repr

section
variable (entries : List (InDoubt H)) (room : Nat) (r : Recovery H) (len : Nat) (xid : Option Xid)
  (rollbackPrepared commitPrepared fn : H → Rc)

def findIndoubt : Option (Fin r.items.length) :=
  (xid.bind fun x => tdbXidSerialize x tdbXidMaxSerialized).bind fun key =>
    r.items.findFinIdx? fun e => e.xid == key

def tidesdbResolveByXid : Recovery H × XaStatus × Option H :=
  match findIndoubt r xid with
  | none => (r, .nota, none)
  | some i =>
    if fn (r.items.get i).txn ≠ .success then (r, .rmErr, some (r.items.get i).txn)
    else (r.eraseAt i, .ok, some (r.items.get i).txn)

def tidesdbCommitByXid :=
  tidesdbResolveByXid r xid commitPrepared

def tidesdbRollbackByXid :=
  tidesdbResolveByXid r xid rollbackPrepared

/- The recover loop. -/

theorem recoverLoop_entries : (recoverLoop entries room).1.map Prod.fst =
      (entries.take (recoverLoop entries room).2).filter InDoubt.decodable := by
  fun_induction recoverLoop entries room <;> simp_all [InDoubt.decodable]

theorem recoverLoop_decodes : ∀ p ∈ (recoverLoop entries room).1, tdbXidDeserialize p.1.xid = some p.2 := by
  fun_induction recoverLoop entries room with
  | case1 | case2 => simp
  | case3 e rest room undecodable ih => exact ih
  | case4 e rest room x decoded ih =>
    intro p mem
    rcases mem_cons.mp mem with rfl | later
    · exact decoded
    · exact ih p later

theorem recoverLoop_short (short : (recoverLoop entries room).1.length < room) :
    (recoverLoop entries room).2 = entries.length := by
  fun_induction recoverLoop entries room <;> simp_all

theorem xaRecover_ahead : r.ahead.filter InDoubt.decodable = (tidesdbXaRecover r len).2.map Prod.fst ++
        (tidesdbXaRecover r len).1.ahead.filter InDoubt.decodable := by
  simp only [tidesdbXaRecover, Cursor.ahead_advance, recoverLoop_entries, ← filter_append, take_append_drop]

theorem xaRecover_short (short : (tidesdbXaRecover r len).2.length < len) : (tidesdbXaRecover r len).1.ahead = [] := by
  have consumed := recoverLoop_short r.ahead len short
  simp [tidesdbXaRecover, Cursor.ahead_advance, consumed]

theorem xaRecover_names_entry :
    ∀ p ∈ (tidesdbXaRecover r len).2, tdbXidSerialize p.2 tdbXidMaxSerialized = some p.1.xid := by
  intro p mem
  have decoded := recoverLoop_decodes r.ahead len p mem
  exact serialize_of_deserialize decoded (deserialize_length_le decoded)

/- Resolving one entry. -/

theorem findIndoubt_some {r : Recovery H} {x : Xid} {i : Fin r.items.length} (found : findIndoubt r (some x) = some i) :
    tdbXidSerialize x tdbXidMaxSerialized = some (r.items.get i).xid := by
  obtain ⟨key, encoded, located⟩ := bind_eq_some_iff.mp found
  have same := (findFinIdx?_eq_some_iff.mp located).1
  rw [bind_some] at encoded
  rw [encoded, ← eq_of_beq same, get_eq_getElem]
  rfl

theorem findIndoubt_none {r : Recovery H} {x : Xid} (missing : findIndoubt r (some x) = none) :
    ∀ e ∈ r.items, tdbXidSerialize x tdbXidMaxSerialized ≠ some e.xid := by
  intro e mem encoded
  simp only [findIndoubt, bind_some, encoded] at missing
  exact findFinIdx?_eq_none_iff.mp missing e mem (by simp)

theorem resolveByXid_missing {r : Recovery H} {xid : Option Xid} (missing : findIndoubt r xid = none) :
    tidesdbResolveByXid r xid fn = (r, .nota, none) := by
  simp [tidesdbResolveByXid, missing]

end

theorem resolveByXid_refused {r : Recovery H} {xid : Option Xid} {fn : H → Rc} {i : Fin r.items.length}
    (located : findIndoubt r xid = some i) (refused : fn (r.items.get i).txn ≠ .success) :
    tidesdbResolveByXid r xid fn = (r, .rmErr, some (r.items.get i).txn) := by
  simp only [tidesdbResolveByXid, located, if_pos refused]

theorem resolveByXid_accepted {r : Recovery H} {xid : Option Xid} {fn : H → Rc} {i : Fin r.items.length}
    (located : findIndoubt r xid = some i) (accepted : fn (r.items.get i).txn = .success) :
    tidesdbResolveByXid r xid fn = (r.eraseAt i, .ok, some (r.items.get i).txn) := by
  simp only [tidesdbResolveByXid, located, ne_eq, accepted, not_true_eq_false, if_false]

theorem entry_unique {entries : List (InDoubt H)} (distinct : (entries.map InDoubt.xid).Nodup) {e other : InDoubt H}
    (he : e ∈ entries) (ho : other ∈ entries) (same : other.xid = e.xid) : other = e :=
  inj_on_of_nodup_map distinct ho he same

theorem mem_eraseIdx_iff {entries : List (InDoubt H)} (distinct : (entries.map InDoubt.xid).Nodup)
    (i : Fin entries.length) (other : InDoubt H) :
    other ∈ entries.eraseIdx i ↔ other ∈ entries ∧ other ≠ entries.get i := by
  have perm := getElem_cons_eraseIdx_perm i.isLt
  grind

/-- A call by id acts on its one entry, removed exactly when the engine accepts; an unknown id
changes nothing. -/
def ResolvesExactly (r : Recovery H) (x : Xid) (fn : H → Rc) (answer : Recovery H × XaStatus × Option H) : Prop :=
  (∀ e ∈ r.items, tdbXidSerialize x tdbXidMaxSerialized = some e.xid →
    (∀ other ∈ r.items, other.xid = e.xid → other = e) ∧ answer.2.2 = some e.txn ∧
    (fn e.txn = .success → answer.2.1 = .ok ∧
      ∀ other, other ∈ answer.1.items ↔ other ∈ r.items ∧ other ≠ e) ∧
    (fn e.txn ≠ .success → answer.2.1 = .rmErr ∧ answer.1 = r)) ∧
  ((∀ e ∈ r.items, tdbXidSerialize x tdbXidMaxSerialized ≠ some e.xid) →
    answer = (r, .nota, none))

theorem resolveByXid_exact (r : Recovery H) (distinct : (r.items.map InDoubt.xid).Nodup)
    (x : Xid) (fn : H → Rc) : ResolvesExactly r x fn (tidesdbResolveByXid r (some x) fn) := by
  cases located : findIndoubt r (some x) with
  | none =>
    rw [resolveByXid_missing fn located]
    refine ⟨fun e mem encoded => ?_, fun _ => rfl⟩
    exact absurd encoded (findIndoubt_none located e mem)
  | some i =>
    have encoded := findIndoubt_some located
    refine ⟨fun e mem named => ?_, fun absent => ?_⟩
    · have here : e = r.items.get i :=
        entry_unique distinct (get_mem _ i) mem (by simpa [named] using encoded)
      subst here
      have unique : ∀ other ∈ r.items, other.xid = (r.items.get i).xid → other = r.items.get i :=
        fun _ inside same => entry_unique distinct mem inside same
      by_cases accepted : fn (r.items.get i).txn = .success
      · rw [resolveByXid_accepted located accepted]
        exact ⟨unique, rfl, fun _ => ⟨rfl, mem_eraseIdx_iff distinct i⟩, fun refused => absurd accepted refused⟩
      · rw [resolveByXid_refused located accepted]
        exact ⟨unique, rfl, fun accepts => absurd accepts accepted, fun _ => ⟨rfl, rfl⟩⟩
    · exact absurd encoded (absent _ (get_mem _ i))

inductive RecoverOp where
  | recover (len : Nat)
  | commitByXid (xid : Option Xid) (rc : Rc)
  | rollbackByXid (xid : Option Xid) (rc : Rc)

/-- The list, the entries handed out so far, and those resolved before the cursor
reached them. -/
structure RecoverLog (H : Type) where
  recovery : Recovery H
  delivered : List (InDoubt H)
  resolvedAhead : List (InDoubt H)

def aheadAt (r : Recovery H) (xid : Option Xid) (rc : Rc) : List (InDoubt H) :=
  match findIndoubt r xid with
  | some i => if rc = .success ∧ r.pos ≤ i then [r.items.get i] else []
  | none => []

inductive RecoverAnswer where
  | handed (xids : List Xid)
  | status (status : XaStatus)

def RecoverLog.step (l : RecoverLog H) : RecoverOp → RecoverLog H × RecoverAnswer
  | .recover len =>
    let (r, handed) := tidesdbXaRecover l.recovery len
    ({ l with recovery := r, delivered := l.delivered ++ handed.map Prod.fst },
      .handed (handed.map Prod.snd))
  | .commitByXid xid rc =>
    let (r, status, _) := tidesdbCommitByXid l.recovery xid fun _ => rc
    (⟨r, l.delivered, l.resolvedAhead ++ aheadAt l.recovery xid rc⟩, .status status)
  | .rollbackByXid xid rc =>
    let (r, status, _) := tidesdbRollbackByXid l.recovery xid fun _ => rc
    (⟨r, l.delivered, l.resolvedAhead ++ aheadAt l.recovery xid rc⟩, .status status)

/-- Every decodable entry is handed out, resolved ahead of the cursor or still
ahead of it: one of the three, once. -/
structure Accounted (start : List (InDoubt H)) (l : RecoverLog H) : Prop where
  entries : (l.delivered ++ l.resolvedAhead.filter InDoubt.decodable ++
    l.recovery.ahead.filter InDoubt.decodable).Perm (start.filter InDoubt.decodable)
  remains : l.recovery.items.Sublist start

theorem resolve_ahead (r : Recovery H) (xid : Option Xid) (rc : Rc) :
    (aheadAt r xid rc ++ (tidesdbResolveByXid r xid fun _ => rc).1.ahead).Perm r.ahead := by
  cases located : findIndoubt r xid with
  | none => simp [aheadAt, located, resolveByXid_missing _ located]
  | some i =>
    by_cases accepted : rc = .success
    · rw [resolveByXid_accepted located accepted]
      by_cases pending : r.pos ≤ i
      · simpa [aheadAt, located, accepted, pending] using r.ahead_eraseAt_after i pending
      · simp [aheadAt, located, pending, r.ahead_eraseAt_before i (Nat.lt_of_not_le pending)]
    · rw [resolveByXid_refused located accepted]
      simp [aheadAt, located, accepted]

theorem resolve_sublist (r : Recovery H) (xid : Option Xid) (rc : Rc) :
    (tidesdbResolveByXid r xid fun _ => rc).1.items.Sublist r.items := by
  cases located : findIndoubt r xid with
  | none => simp [resolveByXid_missing _ located]
  | some i =>
    by_cases accepted : rc = .success
    · rw [resolveByXid_accepted located accepted]
      exact r.eraseAt_sublist i
    · rw [resolveByXid_refused located accepted]

theorem accounted_resolve {start : List (InDoubt H)} {l : RecoverLog H} (accounted : Accounted start l)
    (xid : Option Xid) (rc : Rc) : Accounted start ⟨(tidesdbResolveByXid l.recovery xid fun _ => rc).1, l.delivered,
      l.resolvedAhead ++ aheadAt l.recovery xid rc⟩ := by
  refine ⟨?_, (resolve_sublist l.recovery xid rc).trans accounted.remains⟩
  have moved := (resolve_ahead l.recovery xid rc).filter InDoubt.decodable
  rw [filter_append] at moved
  have same := (moved.append_left (l.delivered ++ l.resolvedAhead.filter InDoubt.decodable))
  simpa [append_assoc] using same.trans accounted.entries

theorem accounted_step {start : List (InDoubt H)} (l : RecoverLog H) (op : RecoverOp)
    (accounted : Accounted start l) : Accounted start (l.step op).1 := by
  cases op with
  | recover len =>
    refine ⟨?_, accounted.remains⟩
    have handed := xaRecover_ahead l.recovery len
    have entries := accounted.entries
    rw [handed] at entries
    refine List.Perm.trans ?_ entries
    simp only [RecoverLog.step, append_assoc]
    exact List.Perm.append_left _ (perm_append_comm_assoc _ _ _)
  | commitByXid xid rc => exact accounted_resolve accounted xid rc
  | rollbackByXid xid rc => exact accounted_resolve accounted xid rc

theorem accounted_run (start : Recovery H) (fresh : start.pos = 0) (ops : List RecoverOp) :
    Accounted start.items (run RecoverLog.step ⟨start, [], []⟩ ops) := by
  have initial : Accounted start.items ⟨start, [], []⟩ := by
    refine ⟨?_, List.Sublist.refl _⟩
    simp [Cursor.ahead, fresh]
  exact run_invariant RecoverLog.step (Accounted start.items) (fun l op inv _ => accounted_step l op inv) initial
    (along_true _ _ _)

theorem Accounted.distinct {start : List (InDoubt H)} {l : RecoverLog H} (accounted : Accounted start l)
    (distinct : (start.map InDoubt.xid).Nodup) : (l.recovery.items.map InDoubt.xid).Nodup :=
  (accounted.remains.map InDoubt.xid).nodup distinct

theorem Accounted.delivered_nodup {start : List (InDoubt H)} {l : RecoverLog H}
    (accounted : Accounted start l) (distinct : (start.map InDoubt.xid).Nodup) : l.delivered.Nodup := by
  have nodup := (List.Nodup.of_map _ distinct).filter InDoubt.decodable
  rw [← accounted.entries.nodup_iff, append_assoc] at nodup
  exact nodup.of_append_left

/-- Recovery hands out and resolves every in-doubt transaction correctly. -/
theorem recovery_exact (found : List (PreparedTxn H)) (ops : List RecoverOp)
    (distinct : ((tidesdbCollectPrepared found).items.map InDoubt.xid).Nodup) :
    let start := tidesdbCollectPrepared found
    let l := run RecoverLog.step ⟨start, [], []⟩ ops
    (l.delivered ++ l.resolvedAhead.filter InDoubt.decodable ++
      l.recovery.ahead.filter InDoubt.decodable).Perm (start.items.filter InDoubt.decodable) ∧
    l.delivered.Nodup ∧
    (∀ len, (tidesdbXaRecover l.recovery len).2.length < len → (tidesdbXaRecover l.recovery len).1.ahead = []) ∧
    (∀ len, ∀ p ∈ (tidesdbXaRecover l.recovery len).2, tdbXidSerialize p.2 tdbXidMaxSerialized = some p.1.xid) ∧
    (∀ x fn, ResolvesExactly l.recovery x fn (tidesdbCommitByXid l.recovery (some x) fn)) ∧
    (∀ x fn, ResolvesExactly l.recovery x fn (tidesdbRollbackByXid l.recovery (some x) fn)) := by
  intro start l
  have accounted : Accounted start.items l := accounted_run start rfl ops
  have unique := accounted.distinct distinct
  exact ⟨accounted.entries, accounted.delivered_nodup distinct, xaRecover_short l.recovery,
    xaRecover_names_entry l.recovery, resolveByXid_exact l.recovery unique,
    resolveByXid_exact l.recovery unique⟩

def twoFound : List (PreparedTxn Nat) :=
  [⟨some 10, some ([1, 0, 0, 0, 0, 0, 0, 0] ++ [1, 0, 0, 0] ++ [0, 0, 0, 0] ++ [7])⟩,
    ⟨some 11, some [1, 2, 3]⟩]

theorem recovery_exact_two_found :
    (run RecoverLog.step ⟨tidesdbCollectPrepared twoFound, [], []⟩ [.recover 5]).delivered.Nodup :=
  (recovery_exact twoFound [.recover 5] (by decide)).2.1

end TidesdbMysql
