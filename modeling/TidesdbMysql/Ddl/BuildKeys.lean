import TidesdbMysql.Table.Dml

/-! The keys an online index build computes, against those of `sec_idx_key`. The loop of `inplace_alter_table` has an
encoder of its own, which leaves every column to `Field::make_sort_key`. -/
namespace TidesdbMysql

open Base (Bytes leBytes)
open List

variable {v : Bytes}

/- What `Field::make_sort_key` writes for a VARBINARY column, into zeroed bytes. -/
abbrev SortString := KeyPart → Bytes → Bytes

def PartKind.isVarbinary : PartKind → Bool
  | .varbinary _ => true
  | .sortable _ _ => false

section
variable (sortString : SortString)

def buildValue (kp : KeyPart) (value : Bytes) : Bytes :=
  match kp.kind with
  | .varbinary _ => zeroPad kp.length (sortString kp value)
  | .sortable makeSortKey _ => zeroPad kp.length (makeSortKey value)

def buildPart (kp : KeyPart) (value : Option Bytes) : Bytes :=
  if kp.nullable then
    match value with
    | none => sortKeyNull :: List.replicate kp.length 0
    | some v => sortKeyNotNull :: buildValue sortString kp v
  else buildValue sortString kp (value.getD [])

/- The prefix the UNIQUE check looks at. -/
def buildColumns (parts : List KeyPart) (record : Record) : Bytes :=
  parts.flatMap fun kp => buildPart sortString kp (column record kp.field)

def buildKey (parts : List KeyPart) (record : Record) (pk : Bytes) : Bytes := buildColumns sortString parts record ++ pk

end

/-- `sort_string` on a VARBINARY: the length takes the last bytes, the data is cut to what is
left. -/
def StoresLength (sortString : SortString) : Prop :=
  ∀ kp v, kp.kind.isVarbinary = true → zeroPad kp.length (sortString kp v) =
    zeroPad (kp.length - kp.kind.lenBytes) v ++ (leBytes kp.kind.lenBytes v.length).reverse

def storedLength : SortString := fun kp v =>
  zeroPad (kp.length - kp.kind.lenBytes) v ++ (leBytes kp.kind.lenBytes v.length).reverse

theorem zeroPad_self {width : Nat} {bs : Bytes} (exact_width : bs.length = width) : zeroPad width bs = bs := by
  subst exact_width
  simp [zeroPad]

theorem storedLength_stores : StoresLength storedLength := by
  intro kp v _
  apply zeroPad_self
  have fits := kp.fits
  simp only [storedLength, length_append, zeroPad_length, length_reverse, Base.leBytes_length]
  omega

/- The value that is encoded; NOT NULL columns have one. -/
def KeyPart.held (kp : KeyPart) (value : Option Bytes) : Option Bytes :=
  if kp.nullable then value else some (value.getD [])

section Agree

variable {sortString : SortString} {residue : Residue} {parts : List KeyPart} {record : Record}

@[simp] theorem buildValue_length (kp : KeyPart) (value : Bytes) : (buildValue sortString kp value).length = kp.length := by
  unfold buildValue
  cases kp.kind <;> simp

@[simp] theorem buildPart_length (kp : KeyPart) (value : Option Bytes) : (buildPart sortString kp value).length = kp.width := by
  unfold buildPart KeyPart.width
  cases kp.nullable with
  | false => simp
  | true => cases value <;> simp [Nat.add_comm]

theorem buildValue_eq_iff {r : UInt8} {kp : KeyPart} :
    buildValue sortString kp v = encodeValue r kp v ↔ (kp.kind.isVarbinary = true →
      zeroPad kp.length (sortString kp v) = encodeVarbinary kp.length kp.kind.lenBytes r v) := by
  unfold buildValue encodeValue
  cases kp.kind with
  | varbinary | sortable => simp [PartKind.isVarbinary]

theorem buildPart_eq_iff {r : UInt8} {kp : KeyPart} {value : Option Bytes} :
    buildPart sortString kp value = encodePart r kp value ↔
      ∀ v ∈ kp.held value, buildValue sortString kp v = encodeValue r kp v := by
  unfold buildPart encodePart KeyPart.held
  cases kp.nullable with
  | false => simp
  | true => cases value <;> simp

theorem buildColumns_eq_iff : buildColumns sortString parts record = makeComparableKey residue parts record ↔
      ∀ kp ∈ parts, buildPart sortString kp (column record kp.field) =
        encodePart (residue kp.field) kp (column record kp.field) := by
  induction parts with
  | nil => simp [buildColumns, makeComparableKey]
  | cons kp rest ih =>
    simp only [buildColumns, makeComparableKey, flatMap_cons, forall_mem_cons] at ih ⊢
    constructor
    · intro same
      obtain ⟨here, later⟩ := append_inj same (by simp)
      exact ⟨here, ih.mp later⟩
    · rintro ⟨here, later⟩
      rw [here, ih.mpr later]

end Agree

/- The bytes behind the data area spell the length of the value: it fits the data area, or what overflows happens to. -/
def SpellsLength (r : UInt8) (kp : KeyPart) (v : Bytes) : Prop :=
  lengthArea kp.kind.lenBytes (kp.length - kp.kind.lenBytes) r v = (leBytes kp.kind.lenBytes v.length).reverse
  deriving Decidable

section
variable (T : Schema) (stored residue : Residue) (parts : List KeyPart) (record : Record)

/-- No VARBINARY value of the key reaches into the length bytes with others than those of its length. -/
def VarbinaryFits : Prop :=
  ∀ kp ∈ parts, kp.kind.isVarbinary = true → ∀ v ∈ kp.held (column record kp.field), SpellsLength (residue kp.field) kp v
  deriving Decidable

/-- Where the primary key leaves a byte of its buffer unwritten, the buffer held the same as when the row was stored. -/
def SameGaps : Prop :=
  ∀ key ∈ T.pk, ∀ kp ∈ key.parts, leavesGap kp (column record kp.field) = true → stored kp.field = residue kp.field
  deriving Decidable

end

theorem encodeValue_gap {ra rb : UInt8} {kp : KeyPart} (gap : leavesGap kp (some v) = true)
    (same : encodeValue ra kp v = encodeValue rb kp v) : ra = rb := by
  have fits := kp.fits
  unfold leavesGap at gap
  unfold encodeValue at same
  cases kind : kp.kind with
  | sortable f w => simp [kind] at gap
  | varbinary n =>
    simp only [kind, decide_eq_true_eq] at gap same fits
    obtain ⟨above, below⟩ := gap
    simp only [encodeVarbinary, lengthArea, if_pos above, append_cancel_left_eq] at same
    obtain ⟨k, left⟩ : ∃ k, (PartKind.varbinary n).lenBytes - (v.length - (kp.length - (PartKind.varbinary n).lenBytes)) =
        k + 1 := ⟨_, (Nat.sub_add_cancel (by omega)).symm⟩
    rw [left, replicate_succ, replicate_succ] at same
    exact (cons.inj same).1

/-- The byte of the buffer that a key may take in is the only thing two encodings of one value differ in. -/
theorem encodePart_residue_iff {ra rb : UInt8} {kp : KeyPart} {value : Option Bytes} :
    encodePart ra kp value = encodePart rb kp value ↔ (leavesGap kp value = true → ra = rb) := by
  constructor
  · intro same gap
    cases value with
    | none => simp [leavesGap] at gap
    | some v =>
      refine encodeValue_gap gap ?_
      unfold encodePart at same
      cases nullable : kp.nullable with
      | false | true => simpa [nullable] using same
  · intro buffer
    cases gap : leavesGap kp value with
    | false => exact encodePart_settled gap ra rb
    | true => rw [buffer gap]

theorem pkFromRecord_eq_iff {T : Schema} {stored residue : Residue} {pk : Bytes} {record : Record} :
    pkFromRecord T stored pk record = pkFromRecord T residue pk record ↔ SameGaps T stored residue record := by
  unfold pkFromRecord SameGaps
  cases T.pk with
  | none => simp
  | some key => simp [makeComparableKey_eq_iff, encodePart_residue_iff]

section Keys

variable {sortString : SortString} {T : Schema} {ix : Index} {residue pkResidue : Residue} {pk : Bytes}
  {record : Record}

/-- Whatever `make_sort_key` writes: the build and `sec_idx_key` agree when they do on every column, and on the primary key. -/
theorem buildKey_eq_iff (stored : Residue) (filed : pkFromRecord T stored pk record = pk) :
    buildKey sortString ix.key.parts record pk = secIdxKey T ix residue pkResidue pk record ↔
      buildColumns sortString ix.key.parts record = makeComparableKey residue ix.key.parts record ∧
        SameGaps T stored pkResidue record := by
  have lengths : (buildColumns sortString ix.key.parts record).length = (makeComparableKey residue ix.key.parts record).length := by
    rw [makeComparableKey_length]
    simp [buildColumns, comparableKeyLength, length_flatMap]
  have suffix : pkFromRecord T stored pk record = pkFromRecord T pkResidue pk record ↔ SameGaps T stored pkResidue record :=
    pkFromRecord_eq_iff
  rw [filed] at suffix
  rw [← suffix]
  constructor
  · exact fun same => append_inj same lengths
  · rintro ⟨columns, primary⟩
    rw [buildKey, secIdxKey, columns, ← primary]

theorem buildValue_stored_iff (stores : StoresLength sortString) {r : UInt8} {kp : KeyPart} :
    buildValue sortString kp v = encodeValue r kp v ↔ (kp.kind.isVarbinary = true → SpellsLength r kp v) := by
  rw [buildValue_eq_iff]
  refine forall_congr' fun varbinary => ?_
  rw [stores kp v varbinary, encodeVarbinary, append_cancel_left_eq, SpellsLength]
  exact eq_comm

theorem buildColumns_stored_iff (stores : StoresLength sortString) {parts : List KeyPart} :
    buildColumns sortString parts record = makeComparableKey residue parts record ↔ VarbinaryFits residue parts record := by
  rw [buildColumns_eq_iff]
  refine forall₂_congr fun kp _ => ?_
  simp only [buildPart_eq_iff, buildValue_stored_iff stores]
  exact ⟨fun each varbinary v held => each v held varbinary, fun each v held varbinary => each varbinary v held⟩

end Keys

/- A column VARBINARY(3) with the value `abc`, in a table without a primary key. -/
section Abc

theorem abc_fits : (PartKind.varbinary 3).lenBytes ≤ 3 := by decide

def abcIndex : Index :=
  ⟨⟨[⟨0, false, 3, .varbinary 3, Nat.zero_lt_succ 2, abc_fits⟩], List.cons_ne_nil _ _⟩, .ordinary false⟩

def noKeys : Schema := ⟨none, [], none⟩

end Abc

end TidesdbMysql
