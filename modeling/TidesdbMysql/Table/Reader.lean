import TidesdbMysql.Base.Prog
import TidesdbMysql.Table.IndexCondition

/-! The reading functions as programs over the engine's calls, any of which may fail. What they leave in the
handler for the next call is in `Navigate`; here it is an input. -/
namespace TidesdbMysql

open Base (Bytes SortedMap Starts Iter Prog Service)

inductive IterMove where
  | seek (k : Bytes) | seekForPrev (k : Bytes) | seekToFirst | seekToLast | next | prev

def IterMove.apply {V : Type} (m : SortedMap Bytes V) : IterMove → Iter (Bytes × V) → Iter (Bytes × V)
  | .seek k, _ => m.iterSeek k
  | .seekForPrev k, _ => m.iterSeekForPrev k
  | .seekToFirst, _ => m.iterSeekToFirst
  | .seekToLast, _ => m.iterSeekToLast
  | .next, it => it.next
  | .prev, it => it.prev

/-- The engine's calls behind their retrying wrappers: `sideGet` reads a row that only helps to
decide, `metaGet` counters. -/
inductive ReadCall where
  | iterNew | move (m : IterMove) | key | value | keyValue | get (pk : Bytes) | sideGet (pk : Bytes) | metaGet

abbrev ReadAns (V D : Type) : ReadCall → Type
  | .iterNew | .move _ | .metaGet => Rc
  | .key => Except Rc Bytes
  | .value => Except Rc V
  | .keyValue => Except Rc (Bytes × V)
  | .get _ | .sideGet _ => Except Rc D

structure Failure where
  rc : Rc
  bad : rc ≠ .success ∧ rc ≠ .notFound

def foundOr {A : Type} : Option A → Except Rc A
  | some a => .ok a
  | none => .error .notFound

/-- One column family behind an iterator, and the rows of the table, stored or decoded. -/
def readService {V D : Type} (m : SortedMap Bytes V) (rows : SortedMap Bytes D) :
    Service (Iter (Bytes × V)) ReadCall (ReadAns V D) Failure where
  serve
    | .iterNew, _ => (.success, none)
    | .move mv, it => (.success, mv.apply m it)
    | .key, it => (foundOr (it.item.map Prod.fst), it)
    | .value, it => (foundOr (it.item.map Prod.snd), it)
    | .keyValue, it => (foundOr it.item, it)
    | .get pk, it => (foundOr (rows.lookup pk), it)
    | .sideGet pk, it => (foundOr (rows.lookup pk), it)
    | .metaGet, it => (.success, it)
  refuse
    | .iterNew, f => f.rc
    | .move _, f => f.rc
    | .key, f => .error f.rc
    | .value, f => .error f.rc
    | .keyValue, f => .error f.rc
    | .get _, f => .error f.rc
    | .sideGet _, f => .error f.rc
    | .metaGet, f => f.rc

def ReadCall.Reported : ReadCall → Prop
  | .iterNew | .get _ => True
  | _ => False

abbrev Reader (V D A : Type) := Prog (Iter (Bytes × V)) ReadCall (ReadAns V D) A

/-- What a function answers; `none` where it is still in a loop after the turns it is given. -/
abbrev Answer (R : Type) := Option (Except HaCode R)

def Answer.Ends {R : Type} (a : Answer R) : Prop := a = some (.error .endOfFile) ∨ a = some (.error .keyNotFound)

def Answer.Told {R : Type} (a : Answer R) : Prop :=
  ∃ code, a = some (.error code) ∧ code ≠ .endOfFile ∧ code ≠ .keyNotFound

namespace Reader

variable {V D R : Type}
variable {p : Reader V D (Answer R)}

def valid : Reader V D Bool := .see fun it => .ret it.isSome
def move (mv : IterMove) : Reader V D Rc := Prog.ask (ReadCall.move mv)
def iterKey : Reader V D (Except Rc Bytes) := Prog.ask ReadCall.key
def iterValue : Reader V D (Except Rc V) := Prog.ask ReadCall.value
def iterKeyValue : Reader V D (Except Rc (Bytes × V)) := Prog.ask ReadCall.keyValue
def txnGet (pk : Bytes) : Reader V D (Except Rc D) := Prog.ask (ReadCall.get pk)
def sideGet (pk : Bytes) : Reader V D (Except Rc D) := Prog.ask (ReadCall.sideGet pk)

def fail (code : HaCode) : Reader V D (Answer R) := pure (some (.error code))

def fetchRowByPk (pk : Bytes) : Reader V D (Answer (Bytes × D)) := do
  match ← txnGet pk with
  | .ok record => pure (some (.ok (pk, record)))
  | .error rc => if rc = .notFound then fail .keyNotFound else fail (tdbRcToHa rc)

/-- `ensure_scan_iter`, and the function if there is an iterator. -/
def ensureScanIter (opened : Bool) (p : Reader V D (Answer R)) : Reader V D (Answer R) :=
  if opened then p
  else do
    let rc ← Prog.ask ReadCall.iterNew
    if rc = Rc.success then p else fail (tdbRcToHa rc)

def iterReadCurrent : Nat → Reader D D (Answer (Bytes × D))
  | 0 => pure none
  | turns + 1 => do
    if ← valid then
      match ← iterKeyValue with
      | .error _ => fail .endOfFile
      | .ok e =>
        if isDataKey e.1 then pure (some (.ok (e.1.drop 1, e.2)))
        else do
          let _ ← move .next
          iterReadCurrent turns
    else fail .endOfFile

/- The table scan. -/

def rndInit (opened : Bool) : Reader D D (Answer Unit) :=
  ensureScanIter opened do
    let _ ← move (.seek [keyNsData])
    pure (some (.ok ()))

section
variable (width : Nat) (opened exactDone : Bool) (currentPk : Bytes) (flag : FindFlag) (comp k : Bytes)
  (step : IterMove) (p : Reader V D (Answer R)) (dir : ScanDir) (turns : Nat)

def rndNext : Reader D D (Answer (Bytes × D)) :=
  if dir = .none then iterReadCurrent turns
  else do
    let _ ← move .next
    iterReadCurrent turns

/- Scans on the primary key. -/

def passKey : Reader V D (Answer R) := do
  if ← valid then
    match ← iterKey with
    | .ok ik =>
      if ik = k then do
        let _ ← move step
        p
      else p
    | .error _ => p
  else p

/- `HA_READ_PREFIX_LAST` looks whether it has landed in the group. -/
def guardGroup : Reader V D (Answer R) := do
  if ← valid then
    match ← iterKey with
    | .ok ik => if k <+: ik then p else fail .keyNotFound
    | .error _ => fail .keyNotFound
  else p

def pkSeekBack : Reader D D (Answer (Bytes × D)) :=
  if comp.length < width then do
    let _ ← move (.seekForPrev (buildDataKey comp ++ List.replicate (width - comp.length) keyInfHiByte))
    if flag = .prefixLast then guardGroup (buildDataKey comp) (iterReadCurrent turns) else iterReadCurrent turns
  else do
    let _ ← move (.seekForPrev (buildDataKey comp))
    if flag = .beforeKey then passKey (buildDataKey comp) .prev (iterReadCurrent turns) else iterReadCurrent turns

def pkSeekRead : Reader D D (Answer (Bytes × D)) :=
  match flag with
  | .keyExact | .keyOrNext | .other => do
    let _ ← move (.seek (buildDataKey comp))
    iterReadCurrent turns
  | .afterKey => do
    let _ ← move (.seek (buildDataKey comp))
    passKey (buildDataKey comp) .next (iterReadCurrent turns)
  | .keyOrPrev | .beforeKey | .prefixLast | .prefixLastOrPrev => pkSeekBack width flag comp turns

def pkReadMap : Reader D D (Answer (Bytes × D)) :=
  if flag = .keyExact ∧ width ≤ comp.length then fetchRowByPk comp
  else ensureScanIter opened (pkSeekRead width flag comp turns)

def pkNext : Reader D D (Answer (Bytes × D)) :=
  ensureScanIter opened
    (if exactDone then do
      let _ ← move (.seek (buildDataKey currentPk))
      if ← valid then do
        let _ ← move .next
        iterReadCurrent turns
      else iterReadCurrent turns
    else if dir = .none then iterReadCurrent turns
    else do
      let _ ← move .next
      iterReadCurrent turns)

end

def iterReadBack (reads : Nat) : Nat → Reader D D (Answer (Bytes × D))
  | 0 => pure none
  | turns + 1 => do
    if ← valid then
      match ← iterKey with
      | .error _ => fail .endOfFile
      | .ok ik =>
        if isDataKey ik then iterReadCurrent reads
        else do
          let _ ← move .prev
          iterReadBack reads turns
    else iterReadCurrent reads

section
variable (width : Nat) (opened : Bool) (searchComp : Bytes) (exactDone : Bool) (currentPk : Bytes) (turns : Nat)

def pkPrev : Reader D D (Answer (Bytes × D)) :=
  ensureScanIter opened
    (if exactDone then do
      let _ ← move (.seek (buildDataKey currentPk))
      let _ ← move .prev
      iterReadBack turns turns
    else do
      let _ ← move .prev
      iterReadBack turns turns)

def pkFirst : Reader D D (Answer (Bytes × D)) :=
  ensureScanIter opened do
    let _ ← move (.seek [keyNsData])
    iterReadCurrent turns

def pkLast : Reader D D (Answer (Bytes × D)) :=
  ensureScanIter opened do
    let _ ← move .seekToLast
    iterReadBack turns turns

def pkNextSame : Reader D D (Answer (Bytes × D)) :=
  if width ≤ searchComp.length then fail .endOfFile
  else if opened then do
    let _ ← move .next
    if ← valid then
      match ← iterKey with
      | .error _ => fail .endOfFile
      | .ok ik => if searchComp <+: ik.drop 1 then iterReadCurrent turns else fail .endOfFile
    else fail .endOfFile
  else fail .endOfFile

end

/- Scans on a secondary key. -/

/-- What evaluating the pushed condition on an entry needs: its columns, or the row where they cannot be decoded. -/
inductive Icp (D : Type) where
  | decided (result : CheckResult)
  | byRow (verdict : D → CheckResult)

/-- `icp_check_secondary`: a row that cannot be read is let through. -/
def icpCheck (width : Nat) (icp : Bytes → Icp D) (ik : Bytes) (next : CheckResult → Reader V D (Answer R)) :
    Reader V D (Answer R) :=
  match icp ik with
  | .decided result => next result
  | .byRow verdict => do
    match ← sideGet (ik.drop width) with
    | .ok record => next (verdict record)
    | .error _ => next .pos

def readEntry (width : Nat) (keyRead : Bytes → Option D) (ik : Bytes) : Reader V D (Answer (Bytes × D)) :=
  match keyRead ik with
  | some record => pure (some (.ok (ik.drop width, record)))
  | none => fetchRowByPk (ik.drop width)

def secLoop (width : Nat) (icp : Bytes → Icp D) (keyRead : Bytes → Option D) (guard : Option Bytes) (stop : HaCode)
    (way : IterMove) : Nat → Reader Bytes D (Answer (Bytes × D))
  | 0 => pure none
  | turns + 1 => do
    if ← valid then
      match ← iterKey with
      | .error _ => fail stop
      | .ok ik =>
        if (guard.all fun p => decide (p <+: ik)) = true ∧ width < ik.length then
          icpCheck width icp ik fun
            | .neg => do
              let _ ← move way
              secLoop width icp keyRead guard stop way turns
            | .outOfRange => fail .endOfFile
            | .pos => readEntry width keyRead ik
        else fail stop
    else fail stop

/- `HA_READ_AFTER_KEY` passes what starts with the search key. -/
def passPrefix (comp : Bytes) (p : Reader V D (Answer R)) : Nat → Reader V D (Answer R)
  | 0 => p
  | turns + 1 => do
    if ← valid then
      match ← iterKey with
      | .error _ => p
      | .ok ik =>
        if comp <+: ik then do
          let _ ← move .next
          passPrefix comp p turns
        else p
    else p

section Secondary

variable (width : Nat) (icp : Bytes → Icp D) (keyRead : Bytes → Option D) (opened : Bool) (turns : Nat)

def secReadMap (pkKeyLen : Nat) (flag : FindFlag) (comp : Bytes) : Reader Bytes D (Answer (Bytes × D)) :=
  let loop := secLoop width icp keyRead (if flag = .keyExact then some comp else none) .keyNotFound
    (if flag.isBackward then .prev else .next) turns
  ensureScanIter opened
    (match flag with
    | .keyExact | .keyOrNext | .other => do
      let _ ← move (.seek comp)
      loop
    | .afterKey => do
      let _ ← move (.seek comp)
      passPrefix comp loop turns
    | .keyOrPrev | .beforeKey | .prefixLast | .prefixLastOrPrev => do
      let _ ← move (.seekForPrev (comp ++ List.replicate pkKeyLen keyInfHiByte))
      loop)

def secNext (dir : ScanDir) : Reader Bytes D (Answer (Bytes × D)) :=
  ensureScanIter opened
    (if dir = .none then secLoop width icp keyRead none .endOfFile .next turns
    else do
      let _ ← move .next
      secLoop width icp keyRead none .endOfFile .next turns)

def secPrev : Reader Bytes D (Answer (Bytes × D)) :=
  ensureScanIter opened do
    let _ ← move .prev
    secLoop width icp keyRead none .endOfFile .prev turns

def secFirst : Reader Bytes D (Answer (Bytes × D)) :=
  ensureScanIter opened do
    let _ ← move .seekToFirst
    secNext width icp keyRead true turns .none

/- Neither the condition nor `keyread_only_` is looked at. -/
def secLast : Reader Bytes D (Answer (Bytes × D)) :=
  ensureScanIter opened do
    let _ ← move .seekToLast
    if ← valid then
      match ← iterKey with
      | .error _ => fail .endOfFile
      | .ok ik => if width < ik.length then fetchRowByPk (ik.drop width) else fail .endOfFile
    else fail .endOfFile

def secNextSame (searchComp : Bytes) : Reader Bytes D (Answer (Bytes × D)) :=
  if opened then do
    let _ ← move .next
    secLoop width icp keyRead (some searchComp) .endOfFile .next turns
  else fail .endOfFile

end Secondary

section Shape

/-- How the reading functions are put together: a row read is handed out, a failure to read or to
open the iterator is told. -/
inductive Shaped : Reader V D (Answer R) → Prop where
  | turnsOut : Shaped (pure none)
  | found (r : R) : Shaped (pure (some (.ok r)))
  | ended {code : HaCode} (plain : code = .endOfFile ∨ code = .keyNotFound) : Shaped (fail code)
  | valid {g : Bool → Reader V D (Answer R)} (each : ∀ b, Shaped (g b)) : Shaped (valid >>= g)
  | minor {c : ReadCall} {g : ReadAns V D c → Reader V D (Answer R)} (minor : ¬ c.Reported) (other : c ≠ .keyValue)
      (each : ∀ answer, Shaped (g answer)) : Shaped (Prog.ask c >>= g)
  | keyValue {g : Except Rc (Bytes × V) → Reader V D (Answer R)} (each : ∀ answer, Shaped (g answer))
      (hands : ∀ e, isDataKey e.1 = true → ∃ r, g (.ok e) = pure (some (.ok r))) : Shaped (iterKeyValue >>= g)
  | get {pk : Bytes} {g : Except Rc D → Reader V D (Answer R)} (hands : ∀ d, ∃ r, g (.ok d) = pure (some (.ok r)))
      (missing : Shaped (g (.error .notFound))) (tells : ∀ rc, rc ≠ .notFound → g (.error rc) = fail (tdbRcToHa rc)) :
      Shaped (txnGet pk >>= g)
  | iterNew {g : Rc → Reader V D (Answer R)} (served : Shaped (g .success))
      (tells : ∀ rc, rc ≠ .success → g rc = fail (tdbRcToHa rc)) : Shaped (Prog.ask ReadCall.iterNew >>= g)

theorem shaped_end : Shaped (fail .endOfFile : Reader V D (Answer R)) := .ended (.inl rfl)

theorem shaped_missing : Shaped (fail .keyNotFound : Reader V D (Answer R)) := .ended (.inr rfl)

theorem shaped_move {mv : IterMove} {g : Rc → Reader V D (Answer R)} (each : ∀ rc, Shaped (g rc)) :
    Shaped (move mv >>= g) :=
  .minor (fun important => important) (fun same => by cases same) each

theorem shaped_key {g : Except Rc Bytes → Reader V D (Answer R)} (each : ∀ answer, Shaped (g answer)) :
    Shaped (iterKey >>= g) :=
  .minor (fun important => important) (fun same => by cases same) each

theorem shaped_sideGet {pk : Bytes} {g : Except Rc D → Reader V D (Answer R)} (each : ∀ answer, Shaped (g answer)) :
    Shaped (sideGet pk >>= g) :=
  .minor (fun important => important) (fun same => by cases same) each

theorem shaped_fetch (pk : Bytes) : Shaped (fetchRowByPk pk : Reader V D (Answer (Bytes × D))) := by
  apply Shaped.get
  · intro record
    exact ⟨(pk, record), rfl⟩
  · exact shaped_missing
  · intro rc other
    exact if_neg other

theorem shaped_ensure (opened : Bool) (rest : Shaped p) : Shaped (ensureScanIter opened p) := by
  cases opened with
  | true => exact rest
  | false =>
    apply Shaped.iterNew
    · exact rest
    · intro rc other
      exact if_neg other

section
variable (width : Nat) (icp : Bytes → Icp D) (keyRead : Bytes → Option D) (guard : Option Bytes) (ik : Bytes)
  (opened exactDone : Bool) (currentPk : Bytes) (flag : FindFlag) (comp : Bytes) (dir : ScanDir) (reads turns : Nat)
  (searchComp : Bytes)

theorem iterReadCurrent_shaped : Shaped (iterReadCurrent (D := D) turns) := by
  induction turns with
  | zero => exact Shaped.turnsOut
  | succ turns ih =>
    apply Shaped.valid
    intro here
    cases here with
    | false => exact shaped_end
    | true =>
      apply Shaped.keyValue
      · intro answer
        cases answer with
        | error rc => exact shaped_end
        | ok e =>
          dsimp only
          split
          · exact Shaped.found _
          · apply shaped_move
            exact fun _ => ih
      · intro e data_key
        exact ⟨(e.1.drop 1, e.2), if_pos data_key⟩

theorem iterReadBack_shaped : Shaped (iterReadBack (D := D) reads turns) := by
  induction turns with
  | zero => exact Shaped.turnsOut
  | succ turns ih =>
    apply Shaped.valid
    intro here
    cases here with
    | false => exact iterReadCurrent_shaped reads
    | true =>
      apply shaped_key
      intro answer
      cases answer with
      | error rc => exact shaped_end
      | ok ik =>
        dsimp only
        split
        · exact iterReadCurrent_shaped reads
        · apply shaped_move
          exact fun _ => ih

theorem rndNext_shaped : Shaped (rndNext (D := D) dir turns) := by
  unfold rndNext
  split
  · exact iterReadCurrent_shaped turns
  · exact shaped_move fun _ => iterReadCurrent_shaped turns

theorem passKey_shaped {k : Bytes} {step : IterMove} (rest : Shaped p) : Shaped (passKey k step p) := by
  apply Shaped.valid
  intro here
  cases here with
  | false => exact rest
  | true =>
    apply shaped_key
    intro answer
    cases answer with
    | error rc => exact rest
    | ok ik =>
      dsimp only
      split
      · exact shaped_move fun _ => rest
      · exact rest

theorem guardGroup_shaped {k : Bytes} (rest : Shaped p) : Shaped (guardGroup k p) := by
  apply Shaped.valid
  intro here
  cases here with
  | false => exact rest
  | true =>
    apply shaped_key
    intro answer
    cases answer with
    | error rc => exact shaped_missing
    | ok ik =>
      dsimp only
      split
      · exact rest
      · exact shaped_missing

theorem pkSeekBack_shaped : Shaped (pkSeekBack (D := D) width flag comp turns) := by
  have read : Shaped (iterReadCurrent (D := D) turns) := iterReadCurrent_shaped turns
  unfold pkSeekBack
  split
  · apply shaped_move
    intro _
    split
    · exact guardGroup_shaped read
    · exact read
  · apply shaped_move
    intro _
    split
    · exact passKey_shaped read
    · exact read

theorem pkReadMap_shaped : Shaped (pkReadMap (D := D) width opened flag comp turns) := by
  have read : Shaped (iterReadCurrent (D := D) turns) := iterReadCurrent_shaped turns
  unfold pkReadMap
  split
  · exact shaped_fetch comp
  · apply shaped_ensure
    cases flag with
    | keyExact | keyOrNext | other => exact shaped_move fun _ => read
    | afterKey => exact shaped_move fun _ => passKey_shaped read
    | keyOrPrev | beforeKey | prefixLast | prefixLastOrPrev => exact pkSeekBack_shaped width _ comp turns

theorem pkNext_shaped : Shaped (pkNext (D := D) opened exactDone currentPk dir turns) := by
  have read : Shaped (iterReadCurrent (D := D) turns) := iterReadCurrent_shaped turns
  apply shaped_ensure
  split
  · apply shaped_move
    intro _
    apply Shaped.valid
    intro here
    cases here with
    | false => exact read
    | true => exact shaped_move fun _ => read
  · split
    · exact read
    · exact shaped_move fun _ => read

theorem pkPrev_shaped : Shaped (pkPrev (D := D) opened exactDone currentPk turns) := by
  have back : Shaped (move .prev >>= fun _ => iterReadBack (D := D) turns turns) :=
    shaped_move fun _ => iterReadBack_shaped turns turns
  apply shaped_ensure
  split
  · exact shaped_move fun _ => back
  · exact back

theorem pkNextSame_shaped : Shaped (pkNextSame (D := D) width opened comp turns) := by
  unfold pkNextSame
  split
  · exact shaped_end
  · cases opened with
    | false => exact shaped_end
    | true =>
      apply shaped_move
      intro _
      apply Shaped.valid
      intro here
      cases here with
      | false => exact shaped_end
      | true =>
        apply shaped_key
        intro answer
        cases answer with
        | error rc => exact shaped_end
        | ok ik =>
          dsimp only
          split
          · exact iterReadCurrent_shaped turns
          · exact shaped_end

theorem icpCheck_shaped {width : Nat} {icp : Bytes → Icp D} {ik : Bytes} {g : CheckResult → Reader V D (Answer R)}
    (each : ∀ result, Shaped (g result)) : Shaped (icpCheck width icp ik g) := by
  unfold icpCheck
  split
  · exact each _
  · apply shaped_sideGet
    intro answer
    cases answer with
    | ok record => exact each _
    | error rc => exact each .pos

theorem readEntry_shaped : Shaped (readEntry (V := V) width keyRead ik) := by
  unfold readEntry
  split
  · exact Shaped.found _
  · exact shaped_fetch _

theorem secLoop_shaped {stop : HaCode} (quiet_stop : stop = .endOfFile ∨ stop = .keyNotFound) (way : IterMove)
    (turns : Nat) : Shaped (secLoop width icp keyRead guard stop way turns) := by
  have stopped : Shaped (fail stop : Reader Bytes D (Answer (Bytes × D))) := by
    rcases quiet_stop with rfl | rfl
    · exact shaped_end
    · exact shaped_missing
  induction turns with
  | zero => exact Shaped.turnsOut
  | succ turns ih =>
    apply Shaped.valid
    intro here
    cases here with
    | false => exact stopped
    | true =>
      apply shaped_key
      intro answer
      cases answer with
      | error rc => exact stopped
      | ok ik =>
        dsimp only
        split
        · apply icpCheck_shaped
          intro result
          cases result with
          | neg => exact shaped_move fun _ => ih
          | outOfRange => exact shaped_end
          | pos => exact readEntry_shaped width keyRead ik
        · exact stopped

theorem secNextSame_shaped : Shaped (secNextSame width icp keyRead opened turns searchComp) := by
  unfold secNextSame
  split
  · exact shaped_move fun _ => secLoop_shaped _ _ _ _ (.inl rfl) _ _
  · exact shaped_end

end

theorem passPrefix_shaped {comp : Bytes} (rest : Shaped p) (turns : Nat) : Shaped (passPrefix comp p turns) := by
  induction turns with
  | zero => exact rest
  | succ turns ih =>
    apply Shaped.valid
    intro here
    cases here with
    | false => exact rest
    | true =>
      apply shaped_key
      intro answer
      cases answer with
      | error rc => exact rest
      | ok ik =>
        dsimp only
        split
        · exact shaped_move fun _ => ih
        · exact rest

end Shape

section Plainly

variable {m : SortedMap Bytes V} {rows : SortedMap Bytes D}

def Plainly (m : SortedMap Bytes V) (rows : SortedMap Bytes D) (p : Reader V D (Answer R)) : Prop :=
  p.Tells (readService m rows) ReadCall.Reported (fun a => ¬ a.Told) Answer.Told

theorem told_of_failure (f : Failure) : Answer.Told (R := R) (some (.error (tdbRcToHa f.rc))) := by
  refine ⟨_, rfl, tdbRcToHa_ne_endOfFile f.rc, ?_⟩
  rw [ne_eq, tdbRcToHa_eq_keyNotFound]
  exact f.bad.2

theorem found_plainly (r : R) : Plainly m rows (pure (some (.ok r)) : Reader V D (Answer R)) := by
  rintro ⟨code, is_error, -⟩
  cases is_error

theorem Shaped.plainly (shaped : Shaped p) : Plainly m rows p := by
  induction shaped with
  | turnsOut =>
    rintro ⟨code, is_error, -⟩
    cases is_error
  | found r => exact found_plainly r
  | ended plain =>
    rintro ⟨code, is_error, not_end, not_missing⟩
    cases is_error
    rcases plain with same | same
    · exact not_end same
    · exact not_missing same
  | valid each ih => exact fun it => ih it.isSome
  | minor minor _ each ih => exact ⟨fun _ => ih _, fun important => absurd important minor, fun _ _ => ih _⟩
  | keyValue each _ ih => exact ⟨fun _ => ih _, fun important => important.elim, fun _ _ => ih _⟩
  | @get pk g hands missing tells ih =>
    refine ⟨fun it => ?_, fun _ f => ?_, fun minor => absurd trivial minor⟩
    · dsimp only [readService]
      cases rows.lookup pk with
      | none => exact ih
      | some d =>
        obtain ⟨r, handed⟩ := hands d
        change Plainly m rows (g (.ok d))
        rw [handed]
        exact found_plainly r
    · change Prog.Every Answer.Told (g (.error f.rc))
      rw [tells f.rc f.bad.2]
      exact told_of_failure f
  | @iterNew g served tells ih =>
    refine ⟨fun _ => ih, fun _ f => ?_, fun minor => absurd trivial minor⟩
    change Prog.Every Answer.Told (g f.rc)
    rw [tells f.rc f.bad.1]
    exact told_of_failure f

end Plainly

section Quiet

variable {m : SortedMap Bytes V} {rows : SortedMap Bytes D}

/- What the calls do when they are served. -/

theorem quiet_valid (g : Bool → Reader V D R) (it : Iter (Bytes × V)) :
    (valid >>= g).quiet (readService m rows) it = (g it.isSome).quiet (readService m rows) it := rfl

theorem quiet_move (mv : IterMove) (g : Rc → Reader V D R) (it : Iter (Bytes × V)) :
    (move mv >>= g).quiet (readService m rows) it = (g .success).quiet (readService m rows) (mv.apply m it) := rfl

theorem quiet_key (g : Except Rc Bytes → Reader V D R) (p : Base.Spot (Bytes × V)) :
    (iterKey >>= g).quiet (readService m rows) (some p) = (g (.ok p.here.1)).quiet (readService m rows) (some p) := rfl

section
variable (pk : Bytes) (g : Except Rc D → Reader V D R) (it : Iter (Bytes × V))

theorem quiet_get : (txnGet pk >>= g).quiet (readService m rows) it =
      (g (foundOr (rows.lookup pk))).quiet (readService m rows) it := rfl

theorem quiet_sideGet : (sideGet pk >>= g).quiet (readService m rows) it =
      (g (foundOr (rows.lookup pk))).quiet (readService m rows) it := rfl

end

end Quiet

end Reader

end TidesdbMysql
