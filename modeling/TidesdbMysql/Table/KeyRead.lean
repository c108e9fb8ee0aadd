import TidesdbMysql.Table.Images

/-! Reading columns out of an index entry: `try_keyread_from_index` and the decoding in
`icp_check_secondary`. Both walk the parts of the index from the start of the entry and
those of the primary key from its computed place. -/
namespace TidesdbMysql

open Base (Bytes)
open List
open Function

variable {nullable : Nat → Bool} {parts : List KeyPart} {ik pos v : Bytes}

structure ColumnBuf where
  null : Nat → Bool
  value : Nat → Bytes

section
variable (buf : ColumnBuf) (nullable : Nat → Bool) (f : Nat) (v : Bytes)

def ColumnBuf.setNull : ColumnBuf := { buf with null := Function.update buf.null f true }

def ColumnBuf.setNotnull : ColumnBuf :=
  { buf with null := Function.update buf.null f false }

def ColumnBuf.store : ColumnBuf :=
  { buf with value := Function.update buf.value f v }

def ColumnBuf.column : Option Bytes :=
  if nullable f && buf.null f then none else some (buf.value f)

end

/- The types `decode_sort_key_part` tells apart. -/
inductive DecodedType where
  | integer (isUnsigned : Bool) | year | date | datetime | string (packLength : Nat) | other

def intSortSignFlipMask : UInt8 := 0x80
def datePackLen : Nat := 3
def datetimeMaxPackLen : Nat := 8

def flipLast : Bytes → Bytes
  | [] => []
  | [b] => [b ^^^ intSortSignFlipMask]
  | b :: rest => b :: flipLast rest

def decodeIntSortKey (src : Bytes) (isSigned : Bool) : Option Bytes :=
  if src.length = 0 ∨ src.length > 4 ∧ src.length ≠ 8 then none
  else some (if isSigned then flipLast src.reverse else src.reverse)

/-- `decode_sort_key_part`; a CHAR or BINARY column of another charset is `other`. -/
def decodeSortKeyPart (type : DecodedType) (src : Bytes) : Option Bytes :=
  match type with
  | .integer isUnsigned => decodeIntSortKey src !isUnsigned
  | .year => some (src.take 1)
  | .date => if src.length = datePackLen then some src.reverse else none
  | .datetime => if src.length ≤ datetimeMaxPackLen then some src.reverse else none
  | .string packLength => some (src.take packLength ++ List.replicate (packLength - src.length) 32)
  | .other => none

/- What the walk sees of a part, NULL or some bytes, and where it goes on: a NULL is passed with its
flag alone. -/
def seePart (kp : KeyPart) (pos : Bytes) : Option (Option Bytes × Bytes) :=
  if kp.nullable then
    match pos with
    | [] => none
    | flag :: tail =>
      if flag = sortKeyNull then some (none, tail)
      else if tail.length < kp.length then none
      else some (some (tail.take kp.length), tail.drop kp.length)
  else if pos.length < kp.length then none
  else some (some (pos.take kp.length), pos.drop kp.length)

variable (decode : Nat → Bytes → Option Bytes)

/-- The loop over the parts of a key; `none` when it returns false. -/
def decodeParts (wanted : Nat → Bool) : List KeyPart → Bytes → ColumnBuf → Option ColumnBuf
  | [], _, buf => some buf
  | kp :: rest, pos, buf =>
    match seePart kp pos with
    | none => none
    | some (none, next) => decodeParts wanted rest next (buf.setNull kp.field)
    | some (some src, next) =>
      let buf := if kp.nullable then buf.setNotnull kp.field else buf
      if wanted kp.field then
        match decode kp.field src with
        | none => none
        | some v => decodeParts wanted rest next (buf.store kp.field v)
      else decodeParts wanted rest next buf

section
variable (T : Schema) (ix : Index) (readSet : List Nat) (ik : Bytes) (buf : ColumnBuf) (c : Nat)

/- `share->idx_cover`, as `open` fills it. -/
def idxCover : Bool :=
  ix.key.parts.any (·.field = c) || (T.pk.any fun pk => pk.parts.any (·.field = c))

/-- `try_keyread_from_index`, with the primary key it leaves in `current_pk_buf_`. -/
def tryKeyreadFromIndex : Option (ColumnBuf × Bytes) :=
  match T.pk with
  | none => none
  | some pk =>
    let idxColLen := comparableKeyLength ix.key.parts
    if readSet.all (idxCover T ix) = false then none
    else
      match decodeParts decode (· ∈ readSet) ix.key.parts ik buf with
      | none => none
      | some buf =>
        match decodeParts decode (· ∈ readSet) pk.parts (ik.drop idxColLen) buf with
        | none => none
        | some buf => some (buf, ik.drop idxColLen)

/- The decoding in `icp_check_secondary`; `none` when `decode_ok` is false. -/
def icpDecode : Option ColumnBuf :=
  match decodeParts decode (fun _ => true) ix.key.parts ik buf with
  | none => none
  | some buf =>
    match T.pk with
    | none => some buf
    | some pk => decodeParts decode (fun _ => true) pk.parts (ik.drop (comparableKeyLength ix.key.parts)) buf

end

inductive CheckResult where
  | neg | pos | outOfRange
  deriving DecidableEq

/-- `icp_check_secondary`; the record buffer is the decoded one, or the fetched row where decoding
fails. -/
def icpCheckSecondary (T : Schema) (ix : Index) (fetchRowByPk : Bytes → Option ColumnBuf) (killed : Bool)
    (beyondEndRange pushedCond : ColumnBuf → Bool) (ik : Bytes) (buf : ColumnBuf) : CheckResult :=
  let idxColLen := comparableKeyLength ix.key.parts
  let evaluate (buf : ColumnBuf) : CheckResult :=
    if killed then .neg
    else if beyondEndRange buf then .outOfRange
    else if pushedCond buf then .pos else .neg
  match icpDecode decode T ix ik buf with
  | some buf => evaluate buf
  | none =>
    if ik.length > idxColLen then
      match fetchRowByPk (ik.drop idxColLen) with
      | some buf => evaluate buf
      | none => .pos
    else .pos

def walkParts : List KeyPart → Bytes → Option (List (KeyPart × Option Bytes))
  | [], _ => some []
  | kp :: rest, pos =>
    match seePart kp pos with
    | none => none
    | some (seen, next) => (walkParts rest next).map ((kp, seen) :: ·)

def applySeen (wanted : Nat → Bool) : List (KeyPart × Option Bytes) → ColumnBuf → Option ColumnBuf
  | [], buf => some buf
  | (kp, none) :: rest, buf => applySeen wanted rest (buf.setNull kp.field)
  | (kp, some src) :: rest, buf =>
    let buf := if kp.nullable then buf.setNotnull kp.field else buf
    if wanted kp.field then
      match decode kp.field src with
      | none => none
      | some v => applySeen wanted rest (buf.store kp.field v)
    else applySeen wanted rest buf

theorem decodeParts_eq (wanted : Nat → Bool) (parts : List KeyPart) (pos : Bytes) (buf : ColumnBuf) :
    decodeParts decode wanted parts pos buf =
      (walkParts parts pos).bind fun seen => applySeen decode wanted seen buf := by
  induction parts generalizing pos buf with
  | nil => rfl
  | cons kp rest ih =>
    rw [decodeParts, walkParts]
    cases seePart kp pos with
    | none => rfl
    | some pair =>
      obtain ⟨seen, next⟩ := pair
      cases seen with
      | none =>
        dsimp only
        rw [ih, Option.bind_map]
        rfl
      | some src =>
        rw [Option.bind_map]
        cases walked : walkParts rest next with
        | none =>
          simp only [ih, walked, Option.bind_none]
          cases decode kp.field src <;> simp
        | some later =>
          simp only [ih, walked, Option.bind_some, comp_apply, applySeen]

def lastSeen (c : Nat) : List (KeyPart × Option Bytes) → Option (KeyPart × Option Bytes)
  | [] => none
  | e :: rest =>
    match lastSeen c rest with
    | some later => some later
    | none => if e.1.field = c then some e else none

variable {c : Nat} {seen : List (KeyPart × Option Bytes)} {wanted : Nat → Bool} {kp : KeyPart} {buf buf' : ColumnBuf}
  {T : Schema} {ix : Index}

theorem lastSeen_mem {e : KeyPart × Option Bytes} (last : lastSeen c seen = some e) : e ∈ seen ∧ e.1.field = c := by
  induction seen with
  | nil => cases last
  | cons first rest ih =>
    rw [lastSeen] at last
    cases later : lastSeen c rest with
    | some found =>
      rw [later] at last ih
      obtain ⟨mem, field⟩ := ih last
      exact ⟨mem_cons_of_mem first mem, field⟩
    | none =>
      rw [later] at last
      dsimp only at last
      split at last
      · cases last
        exact ⟨mem_cons_self, ‹_›⟩
      · cases last

theorem lastSeen_eq_none : lastSeen c seen = none ↔ ∀ e ∈ seen, e.1.field ≠ c := by
  induction seen with
  | nil => simp [lastSeen]
  | cons first rest ih =>
    rw [lastSeen, forall_mem_cons, ← ih]
    cases lastSeen c rest with
    | some | none => simp

variable {decode}

theorem applySeen_cons {s : Option Bytes} {rest : List (KeyPart × Option Bytes)}
    (applied : applySeen decode wanted ((kp, s) :: rest) buf = some buf') :
    ∃ middle, applySeen decode wanted rest middle = some buf' ∧
      (∀ f ≠ kp.field, middle.null f = buf.null f ∧ middle.value f = buf.value f) ∧
      (wanted kp.field = true → (s = none ∧ middle.null kp.field = true) ∨
          ∃ src v, s = some src ∧ decode kp.field src = some v ∧ middle.value kp.field = v ∧
            (kp.nullable = true → middle.null kp.field = false)) := by
  cases s with
  | none =>
    refine ⟨_, applied, fun f other => ⟨update_of_ne other _ _, rfl⟩, fun _ => .inl ⟨rfl, ?_⟩⟩
    exact update_self _ _ _
  | some src =>
    have flagged : ∀ f ≠ kp.field, (if kp.nullable then buf.setNotnull kp.field else buf).null f = buf.null f ∧
        (if kp.nullable then buf.setNotnull kp.field else buf).value f = buf.value f := by
      intro f other
      split
      · exact ⟨update_of_ne other _ _, rfl⟩
      · exact ⟨rfl, rfl⟩
    have cleared : kp.nullable = true → (if kp.nullable then buf.setNotnull kp.field else buf).null kp.field = false := by
      intro nullable
      rw [if_pos nullable]
      exact update_self _ _ _
    rw [applySeen] at applied
    by_cases want : wanted kp.field = true
    · rw [if_pos want] at applied
      cases decoded : decode kp.field src with
      | none =>
        rw [decoded] at applied
        cases applied
      | some v =>
        rw [decoded] at applied
        refine ⟨_, applied, fun f other => ⟨(flagged f other).1, ?_⟩, fun _ => .inr ⟨src, v, rfl, decoded, ?_, cleared⟩⟩
        · exact (update_of_ne other _ _).trans (flagged f other).2
        · exact update_self _ _ _
    · rw [if_neg want] at applied
      exact ⟨_, applied, flagged, fun wants => absurd wants want⟩

theorem applySeen_frame (applied : applySeen decode wanted seen buf = some buf') (untouched : lastSeen c seen = none) :
    buf'.null c = buf.null c ∧ buf'.value c = buf.value c := by
  induction seen generalizing buf with
  | nil =>
    cases applied
    exact ⟨rfl, rfl⟩
  | cons e rest ih =>
    rw [lastSeen_eq_none, forall_mem_cons] at untouched
    obtain ⟨middle, later, frame, -⟩ := applySeen_cons applied
    obtain ⟨null, value⟩ := ih later (lastSeen_eq_none.mpr untouched.2)
    obtain ⟨null_before, value_before⟩ := frame c (Ne.symm untouched.1)
    exact ⟨null.trans null_before, value.trans value_before⟩

theorem applySeen_last {s : Option Bytes} (typed : ∀ e ∈ seen, e.1.nullable = nullable e.1.field)
    (flagged : ∀ e ∈ seen, e.2 = none → e.1.nullable = true) (applied : applySeen decode wanted seen buf = some buf')
    (last : lastSeen c seen = some (kp, s)) (want : wanted c = true) : (s = none ∧ buf'.column nullable c = none) ∨
      ∃ src v, s = some src ∧ decode c src = some v ∧ buf'.column nullable c = some v := by
  induction seen generalizing buf with
  | nil => cases last
  | cons e rest ih =>
    obtain ⟨typed_first, typed_rest⟩ := forall_mem_cons.mp typed
    obtain ⟨flagged_first, flagged_rest⟩ := forall_mem_cons.mp flagged
    obtain ⟨middle, later, -, own⟩ := applySeen_cons applied
    rw [lastSeen] at last
    cases found : lastSeen c rest with
    | some e' =>
      rw [found] at last
      exact ih typed_rest flagged_rest later (found.trans last)
    | none =>
      rw [found] at last
      dsimp only at last
      split at last
      · rename_i field
        cases last
        obtain rfl : kp.field = c := field
        obtain ⟨null, value⟩ := applySeen_frame later found
        unfold ColumnBuf.column
        rw [null, value, ← typed_first]
        rcases own want with ⟨rfl, flag⟩ | ⟨src, v, rfl, decoded, stored, cleared⟩
        · have nullable_kp : kp.nullable = true := flagged_first rfl
          exact .inl ⟨rfl, by simp [nullable_kp, flag]⟩
        · refine .inr ⟨src, v, rfl, decoded, ?_⟩
          cases nullable_kp : kp.nullable with
          | false => simp [stored]
          | true => simp [cleared nullable_kp, stored]
      · cases last

/- The walk sees every part, and NULL only where a column is nullable. -/

theorem seePart_none {pos next : Bytes} (seen : seePart kp pos = some (none, next)) : kp.nullable = true := by
  unfold seePart at seen
  split at seen
  · assumption
  · split at seen <;> cases seen

theorem seePart_length {pos next src : Bytes} (seen : seePart kp pos = some (some src, next)) :
    src.length = kp.length := by
  have bytes : ∀ tail : Bytes, ¬ tail.length < kp.length → (tail.take kp.length).length = kp.length :=
    fun tail room => length_take_of_le (Nat.le_of_not_lt room)
  unfold seePart at seen
  split at seen
  · cases pos with
    | nil => cases seen
    | cons flag tail =>
      dsimp only at seen
      split at seen
      · cases seen
      · split at seen
        · cases seen
        · cases seen
          exact bytes tail ‹_›
  · split at seen
    · cases seen
    · cases seen
      exact bytes pos ‹_›

theorem walkParts_spec (walked : walkParts parts pos = some seen) : seen.map (·.1) = parts ∧
      ∀ e ∈ seen, (e.2 = none → e.1.nullable = true) ∧ ∀ src, e.2 = some src → src.length = e.1.length := by
  induction parts generalizing pos seen with
  | nil =>
    cases walked
    simp
  | cons kp rest ih =>
    rw [walkParts] at walked
    cases step : seePart kp pos with
    | none =>
      rw [step] at walked
      cases walked
    | some pair =>
      obtain ⟨s, next⟩ := pair
      rw [step] at walked
      obtain ⟨later, walked_later, rfl⟩ := Option.map_eq_some_iff.mp walked
      obtain ⟨parts, each⟩ := ih walked_later
      refine ⟨congrArg (kp :: ·) parts, forall_mem_cons.mpr ⟨⟨?_, ?_⟩, each⟩⟩
      · rintro rfl
        exact seePart_none step
      · rintro src rfl
        exact seePart_length step

/- Both loops: the parts of the index, then those of the primary key from its place. -/

section
variable (wanted) (xs ys : List (KeyPart × Option Bytes)) (buf T ix) (ik : Bytes)

def seenEntry : Option (List (KeyPart × Option Bytes)) :=
  (walkParts ix.key.parts ik).bind fun head =>
    (walkParts T.pkKeyParts (ik.drop (comparableKeyLength ix.key.parts))).map (head ++ ·)

theorem applySeen_append :
    applySeen decode wanted (xs ++ ys) buf = (applySeen decode wanted xs buf).bind (applySeen decode wanted ys) := by
  induction xs generalizing buf with
  | nil => rfl
  | cons e rest ih =>
    obtain ⟨kp, s⟩ := e
    cases s with
    | none => exact ih _
    | some src =>
      simp only [cons_append, applySeen, ih]
      split
      · cases decode kp.field src <;> rfl
      · rfl

theorem decode_both (buf : ColumnBuf) : ((decodeParts decode wanted ix.key.parts ik buf).bind fun buf =>
        decodeParts decode wanted T.pkKeyParts (ik.drop (comparableKeyLength ix.key.parts)) buf) =
      (seenEntry T ix ik).bind fun seen => applySeen decode wanted seen buf := by
  simp only [decodeParts_eq, seenEntry]
  cases walkParts ix.key.parts ik with
  | none => rfl
  | some head =>
    cases walkParts T.pkKeyParts (ik.drop (comparableKeyLength ix.key.parts)) with
    | none => simp
    | some tail =>
      simp only [Option.bind_some, Option.map_some, applySeen_append]

theorem icpDecode_eq (buf : ColumnBuf) : icpDecode decode T ix ik buf =
      (seenEntry T ix ik).bind fun seen => applySeen decode (fun _ => true) seen buf := by
  rw [← decode_both, icpDecode, Schema.pkKeyParts]
  cases decodeParts decode (fun _ => true) ix.key.parts ik buf with
  | none => rfl
  | some middle =>
    cases T.pk with
    | none | some => rfl

end

theorem tryKeyread_some {readSet : List Nat} {ik current : Bytes}
    (read : tryKeyreadFromIndex decode T ix readSet ik buf = some (buf', current)) :
    (∀ c ∈ readSet, idxCover T ix c = true) ∧
      ((seenEntry T ix ik).bind fun seen => applySeen decode (· ∈ readSet) seen buf) = some buf' := by
  unfold tryKeyreadFromIndex at read
  rw [← decode_both, Schema.pkKeyParts]
  cases pk : T.pk with
  | none =>
    rw [pk] at read
    cases read
  | some key =>
    rw [pk] at read
    dsimp only at read ⊢
    split at read
    · cases read
    · rename_i covered
      rw [Bool.not_eq_false, all_eq_true] at covered
      refine ⟨covered, ?_⟩
      cases head : decodeParts decode (· ∈ readSet) ix.key.parts ik buf with
      | none =>
        rw [head] at read
        cases read
      | some middle =>
        rw [head] at read
        dsimp only at read
        rw [Option.bind_some]
        cases tail : decodeParts decode (· ∈ readSet) key.parts (ik.drop (comparableKeyLength ix.key.parts)) middle with
        | none =>
          rw [tail] at read
          cases read
        | some final =>
          rw [tail] at read
          cases read
          rfl

theorem seenEntry_spec (walked : seenEntry T ix ik = some seen) : seen.map (·.1) = ix.key.parts ++ T.pkKeyParts ∧
      ∀ e ∈ seen, (e.2 = none → e.1.nullable = true) ∧ ∀ src, e.2 = some src → src.length = e.1.length := by
  obtain ⟨head, walked_head, rest⟩ := Option.bind_eq_some_iff.mp walked
  obtain ⟨tail, walked_tail, rfl⟩ := Option.map_eq_some_iff.mp rest
  obtain ⟨parts_head, each_head⟩ := walkParts_spec walked_head
  obtain ⟨parts_tail, each_tail⟩ := walkParts_spec walked_tail
  refine ⟨by rw [map_append, parts_head, parts_tail], fun e mem => ?_⟩
  cases mem_append.mp mem with
  | inl inside => exact each_head e inside
  | inr inside => exact each_tail e inside

theorem covered_seen (parts : seen.map (·.1) = ix.key.parts ++ T.pkKeyParts)
    (part : ∃ kp ∈ ix.key.parts ++ T.pkKeyParts, kp.field = c) : ∃ e, lastSeen c seen = some e := by
  cases last : lastSeen c seen with
  | some e => exact ⟨e, rfl⟩
  | none =>
    obtain ⟨kp, mem, field⟩ := part
    rw [← parts, mem_map] at mem
    obtain ⟨e, listed, rfl⟩ := mem
    exact absurd field (lastSeen_eq_none.mp last e listed)

theorem idxCover_iff (T : Schema) (ix : Index) (c : Nat) :
    idxCover T ix c = true ↔ ∃ kp ∈ ix.key.parts ++ T.pkKeyParts, kp.field = c := by
  unfold idxCover Schema.pkKeyParts
  cases T.pk with
  | none => simp
  | some pk => simp [or_and_right, exists_or]

section
variable (decode) (values : Nat → Set Bytes) (fullLength : Nat → Nat)

/-- The decoder, where it accepts the bytes of a whole-column part, inverts its encoding. -/
def Inverts (parts : List KeyPart) : Prop :=
  ∀ kp ∈ parts, kp.length = fullLength kp.field → ∀ v ∈ values kp.field, ∀ src w, src.length = kp.length →
    decode kp.field src = some w → (w = v ↔ src = encodeValue 0 kp v)

/-- What is seen of a part is its own: NULL for NULL, the bytes of a value; a prefix has to give the
whole value back. -/
def SeenRight (record : Record) (e : KeyPart × Option Bytes) : Prop :=
  match column record e.1.field, e.2 with
  | none, seen => seen = none
  | some _, none => False
  | some v, some src =>
    if e.1.length = fullLength e.1.field then src = encodeValue 0 e.1 v else decode e.1.field src = some v

variable {decode values fullLength}

variable {record : Record} {T : Schema} {ix : Index}

theorem column_shown_iff (inverts : Inverts decode values fullLength (seen.map (·.1))) {e : KeyPart × Option Bytes}
    (typed : ∀ e ∈ seen, e.1.nullable = nullable e.1.field)
    (each : ∀ e ∈ seen, (e.2 = none → e.1.nullable = true) ∧ ∀ src, e.2 = some src → src.length = e.1.length)
    (valid : ∀ v, column record c = some v → v ∈ values c) (applied : applySeen decode wanted seen buf = some buf')
    (last : lastSeen c seen = some e) (want : wanted c = true) :
    buf'.column nullable c = column record c ↔ SeenRight decode fullLength record e := by
  obtain ⟨kp, s⟩ := e
  obtain ⟨mem, rfl⟩ := lastSeen_mem last
  have shown := applySeen_last typed (fun e mem => (each e mem).1) applied last want
  have length := (each _ mem).2
  unfold SeenRight
  cases value : column record kp.field with
  | none =>
    rcases shown with ⟨rfl, shown⟩ | ⟨src, w, rfl, -, shown⟩ <;> simp [shown]
  | some v =>
    rcases shown with ⟨rfl, shown⟩ | ⟨src, w, rfl, decoded, shown⟩
    · simp [shown]
    · rw [shown, Option.some.injEq]
      dsimp only
      split
      · rename_i whole
        exact inverts kp (mem_map.mpr ⟨_, mem, rfl⟩) whole v (valid v value) src w (length src rfl) decoded
      · rw [decoded, Option.some.injEq]

def DecodesRight (decode : Nat → Bytes → Option Bytes) (fullLength : Nat → Nat) (T : Schema) (ix : Index) (ik : Bytes)
    (record : Record) (claimed : List Nat) : Prop :=
  ∀ c ∈ claimed, ∃ seen e, seenEntry T ix ik = some seen ∧ lastSeen c seen = some e ∧
    SeenRight decode fullLength record e

/-- The server's part: nullability is the column's, and values are of the column's type. -/
structure StoredFor (values : Nat → Set Bytes) (nullable : Nat → Bool) (parts : List KeyPart) (record : Record) : Prop where
  typed : ∀ kp ∈ parts, kp.nullable = nullable kp.field
  valid : ∀ kp ∈ parts, ∀ v, column record kp.field = some v → v ∈ values kp.field

theorem applied_faithful_iff {claimed : List Nat}
    (inverts : Inverts decode values fullLength (ix.key.parts ++ T.pkKeyParts))
    (stored : StoredFor values nullable (ix.key.parts ++ T.pkKeyParts) record)
    (covered : ∀ c ∈ claimed, ∃ kp ∈ ix.key.parts ++ T.pkKeyParts, kp.field = c) (want : ∀ c ∈ claimed, wanted c = true)
    (read : ((seenEntry T ix ik).bind fun seen => applySeen decode wanted seen buf) = some buf') :
    (∀ c ∈ claimed, buf'.column nullable c = column record c) ↔
      DecodesRight decode fullLength T ix ik record claimed := by
  obtain ⟨seen, walked, applied⟩ := Option.bind_eq_some_iff.mp read
  obtain ⟨parts, each⟩ := seenEntry_spec walked
  have typed : ∀ e ∈ seen, e.1.nullable = nullable e.1.field := fun e mem =>
    stored.typed e.1 (parts ▸ mem_map.mpr ⟨e, mem, rfl⟩)
  refine forall₂_congr fun c claims => ?_
  obtain ⟨e, last⟩ := covered_seen parts (covered c claims)
  have valid : ∀ v, column record c = some v → v ∈ values c := by
    obtain ⟨kp, mem, rfl⟩ := covered c claims
    exact stored.valid kp mem
  rw [column_shown_iff (parts.symm ▸ inverts) typed each valid applied last (want c claims)]
  constructor
  · exact fun right => ⟨seen, e, walked, last, right⟩
  · rintro ⟨seen', e', walked', last', right⟩
    cases walked.symm.trans walked'
    cases last.symm.trans last'
    exact right

end

/- Columns 0 to 2 are INT, the first of them nullable and the third the primary key; column 3
is BINARY(4). -/

def intSortKey (v : Bytes) : Bytes :=
  match v.reverse with
  | [] => []
  | high :: rest => (high ^^^ intSortSignFlipMask) :: rest

def intPart (field : Nat) (nullable : Bool) : KeyPart :=
  ⟨field, nullable, 4, .sortable intSortKey id, by decide, by decide⟩

def binaryPrefix (field length : Nat) (positive : 0 < length) : KeyPart :=
  ⟨field, false, length, .sortable id id, positive, Nat.zero_le _⟩

def smallTable : Schema := ⟨some ⟨[intPart 2 false], by simp⟩, [], none⟩

def pairIndex : Index := ⟨⟨[intPart 0 true, intPart 1 false], by simp⟩, .ordinary false⟩

def prefixIndex : Index := ⟨⟨[binaryPrefix 3 2 (Nat.succ_pos 1)], by simp⟩, .ordinary false⟩

def smallDecode (c : Nat) : Bytes → Option Bytes :=
  decodeSortKeyPart (if c = 3 then .string 4 else .integer false)

def smallValues (_ : Nat) : Set Bytes := {v | v.length = 4}

theorem int_inverts {src v w : Bytes} (src_length : src.length = 4) (v_length : v.length = 4)
    (decoded : decodeIntSortKey src true = some w) : w = v ↔ src = zeroPad 4 (intSortKey v) := by
  obtain ⟨a, b, c, d, rfl⟩ : ∃ a b c d, src = [a, b, c, d] := by
    match src, src_length with
    | [a, b, c, d], _ => exact ⟨a, b, c, d, rfl⟩
  obtain ⟨p, q, r, s, rfl⟩ : ∃ p q r s, v = [p, q, r, s] := by
    match v, v_length with
    | [p, q, r, s], _ => exact ⟨p, q, r, s, rfl⟩
  have flips : a ^^^ intSortSignFlipMask = s ↔ a = s ^^^ intSortSignFlipMask := by
    constructor
    · rintro rfl
      rw [UInt8.xor_assoc, UInt8.xor_self, UInt8.xor_zero]
    · rintro rfl
      rw [UInt8.xor_assoc, UInt8.xor_self, UInt8.xor_zero]
  simp only [decodeIntSortKey, length_cons, length_nil, Nat.reduceAdd, OfNat.ofNat_ne_zero, Nat.lt_irrefl,
    gt_iff_lt, false_and, or_self, if_false, if_true, Option.some.injEq] at decoded
  subst decoded
  simp only [reverse_cons, reverse_nil, nil_append, cons_append, flipLast, cons.injEq,
    flips, and_true, zeroPad, intSortKey, take_succ_cons, take_nil, length_cons, length_nil,
    zero_add, Nat.reduceAdd, Nat.sub_self, replicate_zero, append_nil]
  tauto

theorem smallTable_inverts (ix : Index) (small : ix = pairIndex ∨ ix = prefixIndex) :
    Inverts smallDecode smallValues (fun _ => 4) (ix.key.parts ++ smallTable.pkKeyParts) := by
  have int : ∀ (c : Nat) nullable, c ≠ 3 → ∀ v ∈ smallValues c, ∀ src w, src.length = 4 →
      smallDecode c src = some w → (w = v ↔ src = encodeValue 0 (intPart c nullable) v) := by
    intro c nullable other v typed src w length decoded
    rw [smallDecode, if_neg other] at decoded
    exact int_inverts length typed decoded
  rcases small with rfl | rfl
  · intro kp mem
    simp only [pairIndex, smallTable, Schema.pkKeyParts, cons_append, nil_append, mem_cons,
      not_mem_nil, or_false] at mem
    rcases mem with rfl | rfl | rfl
    · exact fun _ => int 0 true (by decide)
    · exact fun _ => int 1 false (by decide)
    · exact fun _ => int 2 false (by decide)
  · intro kp mem
    simp only [prefixIndex, smallTable, Schema.pkKeyParts, cons_append, nil_append, mem_cons,
      not_mem_nil, or_false] at mem
    rcases mem with rfl | rfl
    · exact fun whole => absurd whole (by decide)
    · exact fun _ => int 2 false (by decide)

def smallNullable (c : Nat) : Bool := c = 0

def blankBuf : ColumnBuf := ⟨fun _ => false, fun _ => []⟩

def smallEntry (ix : Index) (record : Record) : Bytes := secIdxKey smallTable ix (fun _ => 0) (fun _ => 0) [] record

def fullRecord : Record := [some [7, 0, 0, 0], some [5, 0, 0, 0], some [1, 0, 0, 0], some [97, 98, 99, 100]]

def nullRecord : Record := [none, some [5, 0, 0, 0], some [1, 0, 0, 0], some [97, 98, 99, 100]]

theorem fullRecord_stored :
    StoredFor smallValues smallNullable (pairIndex.key.parts ++ smallTable.pkKeyParts) fullRecord := by
  constructor
  · decide
  · intro kp mem v value
    simp only [pairIndex, smallTable, Schema.pkKeyParts, cons_append, nil_append, mem_cons,
      not_mem_nil, or_false] at mem
    rcases mem with rfl | rfl | rfl <;> cases value <;> rfl

end TidesdbMysql
