import TidesdbMysql.Row.Record

/-! A record that is stored, encrypted or not, and read back. -/
namespace TidesdbMysql

open Base (Bytes leBytes leValue leBytes_length leValue_leBytes slice patch Apart)
open List Option

section Whole

variable {W C : RowSchema ColumnType} {buf : RowBuf}

section
variable (W buf)

theorem storedNullBytes_serialize : storedNullBytes (serializeRow ColumnType.codec W buf) = W.nullBytes :=
  (leValue_leBytes 2 _).trans (Nat.mod_eq_of_lt W.nulls_small)

theorem storedFields_serialize : storedFields (serializeRow ColumnType.codec W buf) = W.fields.length :=
  (leValue_leBytes 2 _).trans (Nat.mod_eq_of_lt W.fields_small)

end

theorem rowNulls_serialize (formed : buf.WellFormed ColumnType.codec W) :
    rowNulls C (serializeRow ColumnType.codec W buf) = mergedNulls W C buf := by
  have body : (serializeRow ColumnType.codec W buf).drop rowHeaderSize =
      buf.nulls ++ packFields ColumnType.codec buf.nulls W.fields buf.cells := rfl
  have shared : min W.nullBytes C.nullBytes ≤ buf.nulls.length := by
    rw [formed.nulls]
    exact Nat.min_le_left _ _
  rw [rowNulls, storedNullBytes_serialize, storedFields_serialize, body, take_append_of_le_length shared, mergedNulls]

theorem decodes_packFields {nulls nulls' : Bytes} {fs gs : List (FieldDef ColumnType)} {cs : List Bytes}
    (fits : FitsAll ColumnType.codec nulls fs cs) (fewer : gs.length ≤ fs.length)
    (same : ∀ (i : Nat) (f g : FieldDef ColumnType), fs[i]? = some f → gs[i]? = some g → f.type = g.type ∧ g.isNull nulls' = f.isNull nulls) :
    Decodes ColumnType.Fits nulls' gs (packFields ColumnType.codec nulls fs cs) := by
  induction gs generalizing fs cs with
  | nil => trivial
  | cons g gs ih =>
    cases fs with
    | nil => cases fewer
    | cons f fs =>
      cases cs with
      | nil => exact fits.elim
      | cons c cs =>
        obtain ⟨type_eq, null_eq⟩ := same 0 f g rfl rfl
        have later := ih fits.2 (Nat.le_of_succ_le_succ fewer) fun i => same (i + 1)
        rw [Decodes, packFields, null_eq]
        cases null : f.isNull nulls with
        | true => exact later
        | false =>
          have fit := fits.1 null
          have some_bytes : f.type.codec.pack c ++ packFields ColumnType.codec nulls fs cs ≠ [] :=
            append_ne_nil_of_left_ne_nil (f.type.codec.nonempty c fit) _
          have read := f.type.codec.inverts c (packFields ColumnType.codec nulls fs cs) fit
          rw [if_neg Bool.false_ne_true, if_neg Bool.false_ne_true, ← type_eq]
          exact ⟨some_bytes, c, _, read, fit, later⟩

/-- What `serialize_row` writes is a whole row, for every schema that keeps the leading columns in place. -/
theorem wholeRow_serialize (formed : buf.WellFormed ColumnType.codec W) (in_place : InPlace W C) :
    WholeRow ColumnType.Fits C (serializeRow ColumnType.codec W buf) := by
  have body : (serializeRow ColumnType.codec W buf).drop rowHeaderSize =
      buf.nulls ++ packFields ColumnType.codec buf.nulls W.fields buf.cells := rfl
  constructor
  · have size : rowHeaderSize ≤ (serializeRow ColumnType.codec W buf).length := by
      simp only [serializeRow, length_cons, length_append, leBytes_length, rowHeaderSize]
      omega
    rintro (short | other)
    · omega
    · exact other rfl
  · rw [body, storedNullBytes_serialize, length_append, formed.nulls]
    omega
  · rw [body, storedNullBytes_serialize, storedFields_serialize, rowNulls_serialize formed, drop_left' formed.nulls]
    apply decodes_packFields formed.fits
    · rw [length_take]
      exact Nat.min_le_left _ _
    · intro i f g at_w at_take
      have small : i < W.fields.length := (List.getElem?_eq_some_iff.mp at_w).1
      rw [getElem?_take_of_lt small] at at_take
      obtain ⟨type_eq, null_eq⟩ := in_place i f g at_w at_take
      exact ⟨type_eq, merged_kept formed at_w at_take null_eq⟩

end Whole

section Encrypted

def tidesdbEncIvLen : Nat := 16
def tidesdbAesBlockLen : Nat := 16
def tidesdbEncryptMaxPlain : Nat := 0xEFFFFFFF

/-- `my_aes_encrypt` and `my_aes_decrypt` with AES-256-CBC: key, IV and input. -/
structure Aes where
  encrypt : Bytes → Bytes → Bytes → Option Bytes
  decrypt : Bytes → Bytes → Bytes → Option Bytes
  padded : ∀ key iv plain out, encrypt key iv plain = some out →
    out.length = (plain.length / tidesdbAesBlockLen + 1) * tidesdbAesBlockLen
  inverts : ∀ key iv plain out, encrypt key iv plain = some out → decrypt key iv out = some plain

/- The length is an `unsigned int`. -/
def encryptionEncryptedLength (srcLen : Nat) : Nat :=
  ((srcLen / tidesdbAesBlockLen) + 1) * tidesdbAesBlockLen % 4294967296

/-- What `my_random_bytes` fills. -/
structure Iv where
  bytes : Bytes
  size : bytes.length = tidesdbEncIvLen

variable (aes : Aes) (masterKey : Option Bytes)

def tidesdbEncryptRowInto (iv : Option Iv) (plain : Bytes) : Option Bytes :=
  match masterKey, iv with
  | some key, some iv =>
    if tidesdbEncryptMaxPlain < plain.length then none else (aes.encrypt key iv.bytes plain).map fun out => iv.bytes ++ out
  | _, _ => none

def tidesdbDecryptRow (data : Bytes) : Bytes :=
  if data.length ≤ tidesdbEncIvLen then []
  else
    match masterKey with
    | none => []
    | some key =>
      (aes.decrypt key (data.take tidesdbEncIvLen)
        ((data.drop tidesdbEncIvLen).take ((data.length - tidesdbEncIvLen) % 4294967296))).getD []

variable (L : RecordLayout) (encrypted : Bool)

/-- `serialize_row`; empty when the row cannot be encrypted. -/
def HaTidesdb.serializeRow (iv : Option Iv) (rec : RecordBuf) : Bytes :=
  if encrypted then (tidesdbEncryptRowInto aes masterKey iv (serializeRecord L rec)).getD [] else serializeRecord L rec

def plainOf (stored : Bytes) : Bytes := if encrypted then tidesdbDecryptRow aes masterKey stored else stored

/-- `deserialize_row` of a stored row, with what lies behind the unpacked string in memory. -/
def HaTidesdb.deserializeRow (beyond stored : Bytes) (prior : RecordBuf) : RecordBuf × Nat :=
  if encrypted then
    if tidesdbDecryptRow aes masterKey stored = [] then (⟨List.replicate L.reclength 0, fun _ => []⟩, 0)
    else deserializeRecord L beyond (tidesdbDecryptRow aes masterKey stored) prior
  else deserializeRecord L beyond stored prior

theorem decrypt_encrypt {iv : Option Iv} {plain out : Bytes} (done : tidesdbEncryptRowInto aes masterKey iv plain = some out) :
    out.length ≤ tidesdbEncIvLen + encryptionEncryptedLength plain.length ∧ tidesdbDecryptRow aes masterKey out = plain := by
  cases masterKey with
  | none => cases done
  | some key =>
    cases iv with
    | none => cases done
    | some iv =>
      unfold tidesdbEncryptRowInto at done
      dsimp only at done
      by_cases large : tidesdbEncryptMaxPlain < plain.length
      · rw [if_pos large] at done
        cases done
      · rw [if_neg large, map_eq_some_iff] at done
        obtain ⟨cipher, ran, rfl⟩ := done
        have iv_size := iv.size
        have size := aes.padded _ _ _ _ ran
        unfold tidesdbAesBlockLen at size
        unfold tidesdbEncryptMaxPlain at large
        have total : (iv.bytes ++ cipher).length = tidesdbEncIvLen + cipher.length := by
          rw [length_append, iv_size]
        have long : ¬ (iv.bytes ++ cipher).length ≤ tidesdbEncIvLen := by omega
        have narrow : ((iv.bytes ++ cipher).length - tidesdbEncIvLen) % 4294967296 = cipher.length := by
          rw [total, Nat.add_sub_cancel_left]
          exact Nat.mod_eq_of_lt (by omega)
        constructor
        · rw [total, encryptionEncryptedLength, tidesdbAesBlockLen, Nat.mod_eq_of_lt (by omega), ← size]
        · rw [tidesdbDecryptRow, if_neg long, narrow, take_left' iv_size, drop_left' iv_size, take_length]
          exact congrArg (fun read => getD read []) (aes.inverts _ _ _ _ ran)

theorem deserializeRow_eq (beyond stored : Bytes) (prior : RecordBuf) (readable : plainOf aes masterKey encrypted stored ≠ []) :
    HaTidesdb.deserializeRow aes masterKey L encrypted beyond stored prior =
      deserializeRecord L beyond (plainOf aes masterKey encrypted stored) prior := by
  cases encrypted with
  | false => rfl
  | true =>
    change tidesdbDecryptRow aes masterKey stored ≠ [] at readable
    unfold HaTidesdb.deserializeRow plainOf
    rw [if_pos rfl, if_pos rfl, if_neg readable]

theorem plainOf_serializeRow {rec : RecordBuf} {iv : Option Iv}
    (encrypts : encrypted = true → tidesdbEncryptRowInto aes masterKey iv (serializeRecord L rec) ≠ none) :
    plainOf aes masterKey encrypted (HaTidesdb.serializeRow aes masterKey L encrypted iv rec) = serializeRecord L rec ∧
      (encrypted = true → (HaTidesdb.serializeRow aes masterKey L encrypted iv rec).length ≤
        tidesdbEncIvLen + encryptionEncryptedLength (serializeRecord L rec).length) := by
  cases encrypted with
  | false => exact ⟨rfl, fun on => absurd on Bool.false_ne_true⟩
  | true =>
    obtain ⟨out, done⟩ := ne_none_iff_exists'.mp (encrypts rfl)
    obtain ⟨size, read⟩ := decrypt_encrypt aes masterKey done
    have stored : HaTidesdb.serializeRow aes masterKey L true iv rec = out := by
      rw [HaTidesdb.serializeRow, if_pos rfl, done, getD_some]
    rw [stored]
    exact ⟨read, fun _ => size⟩

theorem image_deserializeRow {W : RowSchema ColumnType} {buf : RowBuf} (formed : buf.WellFormed ColumnType.codec W)
    (in_place : InPlace W L.schema) {stored : Bytes}
    (plain : plainOf aes masterKey encrypted stored = serializeRow ColumnType.codec W buf) (beyond : Bytes)
    {prior : RecordBuf} (sized : prior.bytes.length = L.reclength) :
    L.image (HaTidesdb.deserializeRow aes masterKey L encrypted beyond stored prior).1 =
      deserializeRow ColumnType.codec L.schema (serializeRow ColumnType.codec W buf) (L.image prior) := by
  have readable : plainOf aes masterKey encrypted stored ≠ [] := by
    rw [plain]
    exact cons_ne_nil _ _
  rw [deserializeRow_eq aes masterKey L encrypted beyond stored prior readable, plain]
  exact (deserializeRecord_eq (wholeRow_serialize formed in_place) beyond sized).1

/-- Every column of a stored record is read back as it was, and no buffer is too short. -/
theorem serialize_row_round_trip (rec prior : RecordBuf) (legal : rec.Legal L) (sized : prior.bytes.length = L.reclength)
    {cached : Nat} (cached_sound : cached = 0 ∨ cached = baseEst L) (iv : Option Iv)
    (encrypts : encrypted = true → tidesdbEncryptRowInto aes masterKey iv (serializeRecord L rec) ≠ none) (beyond : Bytes) :
    (∀ (i : Nat) (f : FieldDef ColumnType), L.schema.fields[i]? = some f →
      (L.image (HaTidesdb.deserializeRow aes masterKey L encrypted beyond
        (HaTidesdb.serializeRow aes masterKey L encrypted iv rec) prior).1).value f i = (L.image rec).value f i) ∧
    (serializeRecord L rec).length ≤ (rowEst L rec cached).1 ∧
    ((rowEst L rec cached).2 = 0 ∨ (rowEst L rec cached).2 = baseEst L) ∧
    (encrypted = true → (HaTidesdb.serializeRow aes masterKey L encrypted iv rec).length ≤
      tidesdbEncIvLen + encryptionEncryptedLength (serializeRecord L rec).length) := by
  obtain ⟨plain, enc_buf⟩ := plainOf_serializeRow aes masterKey L encrypted encrypts
  obtain ⟨row_buf, cache⟩ := serializeRecord_le_est legal cached_sound
  refine ⟨?_, row_buf, cache, enc_buf⟩
  intro i f here
  have same_schema : InPlace L.schema L.schema := by
    intro j f g at_w at_c
    obtain rfl : f = g := some.inj (at_w.symm.trans at_c)
    exact ⟨rfl, rfl⟩
  have formed := wellFormed_image legal
  rw [image_deserializeRow aes masterKey L encrypted formed same_schema (plain.trans (serializeRecord_eq L rec)) beyond sized,
    decode_in_place formed same_schema (cellsOf_length _ _ _ _) here, here]

end Encrypted

section ColumnTypes

def lengthPrefixed (max : Nat) (small : max < 256) : Codec where
  Fits v := v.length ≤ max
  pack v := UInt8.ofNat v.length :: v
  unpack d := if 1 + (d.headD 0).toNat ≤ d.length then some ((d.take (1 + (d.headD 0).toNat)).drop 1, d.drop (1 + (d.headD 0).toNat)) else none
  nonempty v _ := List.cons_ne_nil _ _
  inverts v rest fits := by
    have len : (UInt8.ofNat v.length).toNat = v.length := Nat.mod_eq_of_lt (Nat.lt_of_le_of_lt fits small)
    rw [List.cons_append, List.headD_cons, len, List.length_cons, List.length_append, if_pos (by omega), Nat.add_comm 1,
      List.take_succ_cons, List.drop_succ_cons, List.drop_succ_cons, List.drop_zero, List.take_left, List.drop_left]

/- `Field_varstring` with one length byte. -/
def varstringOps (max : Nat) (small : max < 256) : FieldOps where
  codec := lengthPrefixed max small
  lenBytes := 1
  bodyLen l := (l.headD 0).toNat
  decode d := d.drop 1
  value x := (x.bytes.drop 1).take (x.bytes.headD 0).toNat
  store v x := ⟨UInt8.ofNat v.length :: (v ++ x.bytes.drop (1 + v.length)), x.blob⟩
  unpack_eq d := by
    cases d <;> rfl
  value_store v x fits := by
    have len : (UInt8.ofNat v.length).toNat = v.length := Nat.mod_eq_of_lt (Nat.lt_of_le_of_lt fits small)
    dsimp only
    rw [List.headD_cons, len, List.drop_succ_cons, List.drop_zero, List.take_left]

/- `Field_blob` with one length byte in front of the pointer. -/
def blobOps : FieldOps where
  codec := lengthPrefixed 255 (by decide)
  lenBytes := 1
  bodyLen l := (l.headD 0).toNat
  decode d := d.drop 1
  value x := x.blob
  store v x := ⟨UInt8.ofNat v.length :: x.bytes.drop 1, v⟩
  unpack_eq d := by
    cases d <;> rfl
  value_store v x _ := rfl

def fixedOps (n : Nat) (pos : 0 < n) : FieldOps where
  codec := rawCodec n pos
  lenBytes := n
  bodyLen _ := 0
  decode d := d
  value x := x.bytes
  store v x := ⟨v, x.blob⟩
  unpack_eq d := by
    rw [rawCodec_unpack, Nat.add_zero]
    by_cases short : d.length < n
    · rw [if_pos short, if_neg (by omega)]
    · rw [if_neg short, if_pos (by omega)]
  value_store v x _ := rfl

theorem int_length_pos : 0 < 4 := by decide

def intType : ColumnType where
  realType := .long
  packLength := 4
  isBlob := false
  ops := fixedOps 4 int_length_pos
  fixed_pos _ := int_length_pos
  store_length v _ fits _ := fits
  pack_le x size _ := by
    have packed : ((fixedOps 4 int_length_pos).codec.pack ((fixedOps 4 int_length_pos).value x)).length = x.bytes.length := rfl
    omega

def varcharType (max : Nat) (small : max < 256) : ColumnType where
  realType := .varchar
  packLength := 1 + max
  isBlob := false
  ops := varstringOps max small
  fixed_pos generic := by cases generic
  store_length v x fits size := by
    have fits : v.length ≤ max := fits
    dsimp only [varstringOps]
    rw [List.length_cons, List.length_append, List.length_drop]
    omega
  pack_le x _ fits := by
    have fits : ((varstringOps max small).value x).length ≤ max := fits
    have packed : ((varstringOps max small).codec.pack ((varstringOps max small).value x)).length =
      ((varstringOps max small).value x).length + 1 := rfl
    omega

def tinyBlobType : ColumnType where
  realType := .tinyBlob
  packLength := 9
  isBlob := true
  ops := blobOps
  fixed_pos generic := by cases generic
  store_length v x _ size := by
    dsimp only [blobOps]
    rw [List.length_cons, List.length_drop, size]
  pack_le x _ _ := by
    have packed : (blobOps.codec.pack (blobOps.value x)).length = x.blob.length + 1 := rfl
    rw [if_pos rfl]
    omega

end ColumnTypes

section Notes

/- A cipher that only pads its input, as PKCS#7 says. -/
def paddingOnly : Aes where
  encrypt _ _ plain := some (plain ++ List.replicate (16 - plain.length % 16) (UInt8.ofNat (16 - plain.length % 16)))
  decrypt _ _ data := some (data.take (data.length - (data.getLastD 0).toNat))
  padded _ _ plain out done := by
    cases done
    rw [List.length_append, List.length_replicate, tidesdbAesBlockLen]
    omega
  inverts _ _ plain out done := by
    cases done
    obtain ⟨n, pad⟩ : ∃ n, 16 - plain.length % 16 = n + 1 := ⟨15 - plain.length % 16, by omega⟩
    have len : (UInt8.ofNat (n + 1)).toNat = n + 1 := Nat.mod_eq_of_lt (by omega)
    rw [pad, List.replicate_succ', ← List.append_assoc, List.getLastD_concat, len, List.append_assoc, List.length_append,
      List.length_append, List.length_replicate, List.length_singleton, Nat.add_sub_cancel, List.take_left]

/- `CREATE TABLE notes (id INT NOT NULL, name VARCHAR(3), note TINYBLOB)`. -/
def noteFields : List (FieldDef ColumnType) :=
  [⟨0, "id", none, intType, none⟩, ⟨1, "name", some 0, varcharType 3 (by decide), none⟩, ⟨2, "note", some 1, tinyBlobType, none⟩]

def noteOffset : Nat → Nat
  | 0 => 1
  | 1 => 5
  | _ => 9

def noteDefaults : RecordBuf := ⟨3 :: List.replicate 17 0, fun _ => []⟩

theorem noteNulls_small : 1 < 65536 := by decide

def noteSchema : RowSchema ColumnType where
  fields := noteFields
  nullBytes := 1
  defaults := ⟨noteDefaults.bytes.take 1, cellsOf noteOffset noteDefaults 0 noteFields⟩
  null_inside := by simp [noteFields]
  null_apart := by simp [noteFields]
  ids_apart := by simp [noteFields]
  fields_small := by decide
  nulls_small := noteNulls_small
  default_nulls := rfl
  default_cells := rfl

theorem noteFields_cases {P : Nat → FieldDef ColumnType → Prop} (id : P 0 ⟨0, "id", none, intType, none⟩)
    (name : P 1 ⟨1, "name", some 0, varcharType 3 (by decide), none⟩) (note : P 2 ⟨2, "note", some 1, tinyBlobType, none⟩)
    (i : Nat) (f : FieldDef ColumnType) (here : noteFields[i]? = some f) : P i f := by
  match i, here with
  | 0, rfl => exact id
  | 1, rfl => exact name
  | 2, rfl => exact note

def noteLayout : RecordLayout where
  schema := noteSchema
  offset := noteOffset
  reclength := 18
  defaultValues := noteDefaults
  inside := noteFields_cases (by decide) (by decide) (by decide)
  apart i j f g at_i at_j other := by
    revert other
    refine noteFields_cases (P := fun i f => i ≠ j → Apart (noteOffset i) f.type.packLength _ _) ?_ ?_ ?_ i f at_i
    all_goals refine noteFields_cases (P := fun j g => _ ≠ j → Apart _ _ (noteOffset j) g.type.packLength) ?_ ?_ ?_ j g at_j
    all_goals decide
  null_room := by decide
  small := by decide
  default_length := rfl
  defaults_eq := rfl

/- `(7, 'ab', x'010203')` -/
def someNote : RecordBuf :=
  ⟨[0, 7, 0, 0, 0, 2, 97, 98, 0, 3, 0, 0, 0, 0, 0, 0, 0, 0], fun i => if i = 2 then [1, 2, 3] else []⟩

theorem someNote_legal : someNote.Legal noteLayout := by
  refine ⟨rfl, noteFields_cases ?_ ?_ ?_⟩
  · intro _
    rfl
  · intro _
    exact (by decide : 2 ≤ 3)
  · intro _
    exact (by decide : 3 ≤ 255)

def zeroIv : Iv := ⟨List.replicate 16 0, rfl⟩

theorem someNote_round_trip : (∀ (i : Nat) (f : FieldDef ColumnType), noteFields[i]? = some f →
      (noteLayout.image (HaTidesdb.deserializeRow paddingOnly (some []) noteLayout true []
        (HaTidesdb.serializeRow paddingOnly (some []) noteLayout true (some zeroIv) someNote) noteDefaults).1).value f i =
        (noteLayout.image someNote).value f i) ∧
    (serializeRecord noteLayout someNote).length ≤ (rowEst noteLayout someNote 0).1 := by
  have round := serialize_row_round_trip paddingOnly (some []) noteLayout true someNote noteDefaults
    someNote_legal rfl (.inl rfl) (some zeroIv) (fun _ => by decide) []
  exact ⟨round.1, round.2.1⟩

end Notes

end TidesdbMysql
