import TidesdbMysql.Base.Run
import TidesdbMysql.Row.Format

/-! Schema changes without a rebuild: which ALTER statements the plugin accepts as
INSTANT or INPLACE, and what the rows written before them then read as. -/
namespace TidesdbMysql

open Base (Bytes run Along)
open List

/-- The bits of `HA_ALTER_FLAGS` the classifier names; `other` is any further one. -/
inductive AlterFlag where
  | alterColumnName | alterColumnDefault | changeCreateOption | dropCheckConstraint
  | alterVirtualGcolExpr | alterRename | renameIndex | changeIndexOption | addColumn | dropColumn
  | alterStoredColumnOrder | alterVirtualColumnOrder
  | addIndex | dropIndex | addUniqueIndex | dropUniqueIndex | addSpatialIndex
  | addPkIndex | dropPkIndex | other
  deriving DecidableEq

def tidesdbInstant : List AlterFlag :=
  [.alterColumnName, .alterColumnDefault, .changeCreateOption, .dropCheckConstraint,
    .alterVirtualGcolExpr, .alterRename, .renameIndex, .changeIndexOption, .addColumn, .dropColumn,
    .alterStoredColumnOrder, .alterVirtualColumnOrder]

def tidesdbInplaceIndex : List AlterFlag :=
  [.addIndex, .dropIndex, .addUniqueIndex, .dropUniqueIndex, .addSpatialIndex]

/- `enum_alter_inplace_result`, with the `unsupported_reason` set along with it. -/
inductive AlterResult where
  | error | notSupported (reason : Option String) | instant | sharedLock
  deriving DecidableEq

def AlterResult.accepted : AlterResult → Bool
  | .instant | .sharedLock => true
  | .error | .notSupported _ => false

def trailingDropsOnly : String :=
  "TidesDB INSTANT DROP COLUMN supports trailing columns only; " ++
    "use ALGORITHM=COPY for non-trailing drops"

variable {Ty : Type}

/-- `check_if_supported_inplace_alter`. Column names are compared only on the INSTANT path when a
column is dropped. -/
def checkIfSupportedInplaceAlter (legacyAttribute : Bool) (table altered : RowSchema Ty)
    (flags : List AlterFlag) : AlterResult :=
  if legacyAttribute then .error
  else if flags.all (· ∈ tidesdbInstant) then
    if AlterFlag.dropColumn ∈ flags ∧
        (altered.fields.map FieldDef.name).isPrefixOf (table.fields.map FieldDef.name) = false then
      .notSupported (some trailingDropsOnly)
    else .instant
  else if flags.all (· ∈ tidesdbInstant ++ tidesdbInplaceIndex) then
    if AlterFlag.addPkIndex ∈ flags ∨ AlterFlag.dropPkIndex ∈ flags then
      .notSupported (some "TidesDB cannot change PRIMARY KEY inplace")
    else .sharedLock
  else .notSupported none

structure Crypt where
  encrypt : Nat × Nat → Bytes → Bytes → Bytes
  decrypt : Nat × Nat → Bytes → Bytes
  opens : ∀ key iv data, decrypt key (encrypt key iv data) = data

structure StoredRow (Ty : Type) where
  schema : RowSchema Ty
  buf : RowBuf
  data : Bytes

structure AlteredTable (Ty : Type) where
  schema : RowSchema Ty
  cipher : Option (Nat × Nat)
  rows : List (StoredRow Ty)

/-- A row written under the current key version, or an ALTER with the options it leaves and the
version found at reopen. -/
inductive AlterEvent (Ty : Type) where
  | write (buf : RowBuf) (latest : Nat) (iv : Bytes)
  | alter (altered : RowSchema Ty) (flags : List AlterFlag) (legacyAttribute : Bool)
      (encryptionKeyId : Option Nat) (latest : Nat)

variable (codec : Ty → Codec) (crypt : Crypt)

def sealRow (cipher : Option (Nat × Nat)) (iv data : Bytes) : Bytes :=
  match cipher with
  | none => data
  | some key => crypt.encrypt key iv data

def alterStep (t : AlteredTable Ty) : AlterEvent Ty → AlteredTable Ty × Option AlterResult
  | .write buf latest iv =>
    let cipher := t.cipher.map fun key => (key.1, latest)
    (⟨t.schema, cipher,
      t.rows ++ [⟨t.schema, buf, sealRow crypt cipher iv (serializeRow codec t.schema buf)⟩]⟩, none)
  | .alter altered flags legacyAttribute encryptionKeyId latest =>
    let result := checkIfSupportedInplaceAlter legacyAttribute t.schema altered flags
    -- a statement that is not accepted is refused or rebuilds the table by copying it
    if result.accepted then
      (⟨altered, encryptionKeyId.map fun id => (id, latest), t.rows⟩, some result)
    else (t, some result)

/-- `deserialize_row` of a stored row under the schema the table has now. -/
def AlteredTable.read (t : AlteredTable Ty) (row : StoredRow Ty) (prior : RowBuf) : RowBuf :=
  match t.cipher with
  | none => deserializeRow codec t.schema row.data prior
  | some key =>
    if crypt.decrypt key row.data = [] then zeroedRow t.schema prior
    else deserializeRow codec t.schema (crypt.decrypt key row.data) prior

/-- Every row still reads as written, with the defaults of the columns added since. -/
def RowsKept (t : AlteredTable Ty) : Prop :=
  ∀ row ∈ t.rows, ∀ prior : RowBuf, prior.cells.length = t.schema.fields.length →
    ∀ (i : Nat) (g : FieldDef Ty), t.schema.fields[i]? = some g →
      (∀ (j : Nat) (f : FieldDef Ty), row.schema.fields[j]? = some f → f.id = g.id →
        (t.read codec crypt row prior).value g i = row.buf.value f j) ∧
      ((∀ f ∈ row.schema.fields, f.id ≠ g.id) → (t.read codec crypt row prior).value g i = g.born)

/-- The server's flags describe the change of columns and of table options. -/
def FlagsFor (t : AlteredTable Ty) (altered : RowSchema Ty) (flags : List AlterFlag)
    (encryptionKeyId : Option Nat) : Prop :=
  ((∃ g ∈ altered.fields, ∀ f ∈ t.schema.fields, f.id ≠ g.id) → AlterFlag.addColumn ∈ flags) ∧
  ((∃ f ∈ t.schema.fields, ∀ g ∈ altered.fields, f.id ≠ g.id) → AlterFlag.dropColumn ∈ flags) ∧
  (∀ f ∈ t.schema.fields, ∀ g ∈ altered.fields, f.id = g.id →
    (f.name ≠ g.name → AlterFlag.alterColumnName ∈ flags) ∧
    (f.type ≠ g.type ∨ f.nullPos.isSome ≠ g.nullPos.isSome → AlterFlag.other ∈ flags)) ∧
  ((t.schema.fields.map FieldDef.id).filter (· ∈ altered.fields.map FieldDef.id) ≠
      (altered.fields.map FieldDef.id).filter (· ∈ t.schema.fields.map FieldDef.id) →
    AlterFlag.alterStoredColumnOrder ∈ flags) ∧
  (t.cipher.map Prod.fst ≠ encryptionKeyId → AlterFlag.changeCreateOption ∈ flags)

/-- The server's part: a record of the current schema, flags that describe the ALTER, and a new
identity for an added column. -/
def AlterContract (t : AlteredTable Ty) : AlterEvent Ty → Prop
  | .write buf _ _ => buf.WellFormed codec t.schema
  | .alter altered flags _ encryptionKeyId _ =>
    FlagsFor t altered flags encryptionKeyId ∧
      ∀ g ∈ altered.fields, (∀ f ∈ t.schema.fields, f.id ≠ g.id) →
        ∀ row ∈ t.rows, ∀ f ∈ row.schema.fields, f.id ≠ g.id

/-- The accepted changes that keep rows readable: columns stay at their ordinals and null bits, no
dropped ordinal is used again, the defaults older rows rely on stay, and so does their key. -/
def Readable (t : AlteredTable Ty) : AlterEvent Ty → Prop
  | .write _ latest _ => t.rows ≠ [] → (t.cipher.map fun key => (key.1, latest)) = t.cipher
  | .alter altered flags legacyAttribute encryptionKeyId latest =>
    (checkIfSupportedInplaceAlter legacyAttribute t.schema altered flags).accepted = true →
    (∀ p ∈ t.schema.fields.zip altered.fields, p.1.id = p.2.id ∧ p.1.nullPos = p.2.nullPos) ∧
    (t.schema.fields.length < altered.fields.length →
      ∀ row ∈ t.rows, row.schema.fields.length ≤ t.schema.fields.length) ∧
    (∀ p ∈ altered.fields.zipIdx, (∃ row ∈ t.rows, row.schema.fields.length ≤ p.2) →
      altered.defaults.value p.1 p.2 = p.1.born) ∧
    (t.rows ≠ [] → (encryptionKeyId.map fun id => (id, latest)) = t.cipher)

structure Legible (t : AlteredTable Ty) (row : StoredRow Ty) : Prop where
  formed : row.buf.WellFormed codec row.schema
  sealed : ∃ iv, row.data = sealRow crypt t.cipher iv (serializeRow codec row.schema row.buf)
  kept : ∀ (i : Nat) (f g : FieldDef Ty), row.schema.fields[i]? = some f →
    t.schema.fields[i]? = some g → f.id = g.id ∧ f.type = g.type ∧ f.nullPos = g.nullPos
  added : ∀ (i : Nat) (g : FieldDef Ty), t.schema.fields[i]? = some g →
    row.schema.fields.length ≤ i →
    (∀ f ∈ row.schema.fields, f.id ≠ g.id) ∧ t.schema.defaults.value g i = g.born

variable {codec crypt} {t : AlteredTable Ty}

theorem serializeRow_ne_nil (S : RowSchema Ty) (buf : RowBuf) : serializeRow codec S buf ≠ [] :=
  cons_ne_nil _ _

theorem Legible.read_eq {row : StoredRow Ty} (legible : Legible codec crypt t row) (prior : RowBuf) :
    t.read codec crypt row prior = deserializeRow codec t.schema (serializeRow codec row.schema row.buf) prior := by
  obtain ⟨iv, data⟩ := legible.sealed
  unfold AlteredTable.read
  rw [data]
  cases t.cipher with
  | none => rfl
  | some key => simp only [sealRow, crypt.opens, serializeRow_ne_nil, if_false]

theorem ordinal_unique (S : RowSchema Ty) {i j : Nat} {f h : FieldDef Ty}
    (at_i : S.fields[i]? = some f) (at_j : S.fields[j]? = some h) (same : f.id = h.id) : i = j := by
  obtain ⟨hi, rfl⟩ := List.getElem?_eq_some_iff.mp at_i
  obtain ⟨hj, rfl⟩ := List.getElem?_eq_some_iff.mp at_j
  have apart := List.pairwise_iff_getElem.mp S.ids_apart
  rcases Nat.lt_trichotomy i j with before | here | after
  · exact absurd same (apart i j hi hj before)
  · exact here
  · exact absurd same.symm (apart j i hj hi after)

theorem rowsKept_of_legible (legible : ∀ row ∈ t.rows, Legible codec crypt t row) : RowsKept codec crypt t := by
  intro row mem prior sized i g at_i
  have row_legible := legible row mem
  have in_place : InPlace row.schema t.schema := fun i f g hf hg => (row_legible.kept i f g hf hg).2
  have read := decode_in_place row_legible.formed in_place sized at_i
  rw [← row_legible.read_eq prior] at read
  constructor
  · intro j f at_j same
    cases at_w : row.schema.fields[i]? with
    | none =>
      have foreign := (row_legible.added i g at_i (getElem?_eq_none_iff.mp at_w)).1
      exact absurd same (foreign f (mem_of_getElem? at_j))
    | some h =>
      have own := (row_legible.kept i h g at_w at_i).1
      obtain rfl := ordinal_unique row.schema at_w at_j (own.trans same.symm)
      obtain rfl : h = f := Option.some.inj (at_w.symm.trans at_j)
      rw [read, at_w]
  · intro foreign
    cases at_w : row.schema.fields[i]? with
    | some h => exact absurd (row_legible.kept i h g at_w at_i).1 (foreign h (mem_of_getElem? at_w))
    | none =>
      rw [read, at_w]
      exact (row_legible.added i g at_i (getElem?_eq_none_iff.mp at_w)).2

theorem accepted_not_other {legacyAttribute : Bool} {table altered : RowSchema Ty} {flags : List AlterFlag}
    (accepted : (checkIfSupportedInplaceAlter legacyAttribute table altered flags).accepted = true) :
    AlterFlag.other ∉ flags := by
  intro mem
  have not_instant : flags.all (· ∈ tidesdbInstant) = false := by
    rw [all_eq_false]
    exact ⟨_, mem, by decide⟩
  have not_index : flags.all (· ∈ tidesdbInstant ++ tidesdbInplaceIndex) = false := by
    rw [all_eq_false]
    exact ⟨_, mem, by decide⟩
  simp only [checkIfSupportedInplaceAlter, not_instant, not_index, Bool.false_eq_true, if_false] at accepted
  cases legacyAttribute <;> simp [AlterResult.accepted] at accepted

theorem write_legible {buf : RowBuf} {latest : Nat} {iv : Bytes} (legible : ∀ row ∈ t.rows, Legible codec crypt t row)
    (contract : AlterContract codec t (.write buf latest iv)) (readable : Readable t (.write buf latest iv)) :
    ∀ row ∈ (alterStep codec crypt t (.write buf latest iv)).1.rows,
      Legible codec crypt (alterStep codec crypt t (.write buf latest iv)).1 row := by
  intro row mem
  rcases mem_append.mp mem with old | new
  · have before := legible row old
    have same_cipher := readable (ne_nil_of_mem old)
    refine ⟨before.formed, ?_, before.kept, before.added⟩
    obtain ⟨iv', data⟩ := before.sealed
    refine ⟨iv', ?_⟩
    simp only [alterStep, same_cipher]
    exact data
  · obtain rfl := mem_singleton.mp new
    refine ⟨contract, ⟨iv, rfl⟩, ?_, ?_⟩
    · intro i f g at_f at_g
      obtain rfl : f = g := Option.some.inj (at_f.symm.trans at_g)
      exact ⟨rfl, rfl, rfl⟩
    · intro i g at_g beyond
      have inside : i < t.schema.fields.length := (List.getElem?_eq_some_iff.mp at_g).1
      exact absurd inside (Nat.not_lt.mpr beyond)

theorem zip_mem {table altered : RowSchema Ty} {i : Nat} {h g : FieldDef Ty} (at_h : table.fields[i]? = some h)
    (at_g : altered.fields[i]? = some g) : (h, g) ∈ table.fields.zip altered.fields :=
  mem_of_getElem? (getElem?_zip_eq_some.mpr ⟨at_h, at_g⟩)

theorem appended_fresh {table altered : RowSchema Ty}
    (in_place : ∀ p ∈ table.fields.zip altered.fields, p.1.id = p.2.id ∧ p.1.nullPos = p.2.nullPos)
    {i : Nat} {g : FieldDef Ty} (at_i : altered.fields[i]? = some g) (behind : table.fields.length ≤ i) :
    ∀ f ∈ table.fields, f.id ≠ g.id := by
  intro f mem same
  obtain ⟨k, at_k⟩ := getElem?_of_mem mem
  have small : k < table.fields.length := (List.getElem?_eq_some_iff.mp at_k).1
  have inside : i < altered.fields.length := (List.getElem?_eq_some_iff.mp at_i).1
  have there : altered.fields[k]? = some altered.fields[k] := getElem?_eq_getElem (by omega)
  have moved := ordinal_unique altered there at_i ((in_place _ (zip_mem at_k there)).1.symm.trans same)
  omega

section Accepted

variable {altered : RowSchema Ty} {flags : List AlterFlag} {legacyAttribute : Bool}
  {encryptionKeyId : Option Nat} {latest : Nat} {row : StoredRow Ty} {i : Nat} {g : FieldDef Ty}

section
variable (before : Legible codec crypt t row) (mem : row ∈ t.rows)
  (accepted : (checkIfSupportedInplaceAlter legacyAttribute t.schema altered flags).accepted = true)
include before mem accepted

theorem alter_kept (described : FlagsFor t altered flags encryptionKeyId)
    (readable : Readable t (.alter altered flags legacyAttribute encryptionKeyId latest)) {f : FieldDef Ty}
    (at_f : row.schema.fields[i]? = some f) (at_g : altered.fields[i]? = some g) :
    f.id = g.id ∧ f.type = g.type ∧ f.nullPos = g.nullPos := by
  obtain ⟨in_place, not_reused, -, -⟩ := readable accepted
  cases at_h : t.schema.fields[i]? with
  | some h =>
    obtain ⟨same_id, same_null⟩ := in_place _ (zip_mem at_h at_g)
    have same_type : h.type = g.type := by
      by_contra retyped
      exact accepted_not_other accepted ((described.2.2.1 h (mem_of_getElem? at_h) g
        (mem_of_getElem? at_g) same_id).2 (Or.inl retyped))
    obtain ⟨id_eq, type_eq, null_eq⟩ := before.kept i f h at_f at_h
    exact ⟨id_eq.trans same_id, type_eq.trans same_type, null_eq.trans same_null⟩
  | none =>
    have beyond := getElem?_eq_none_iff.mp at_h
    have small : i < row.schema.fields.length := (List.getElem?_eq_some_iff.mp at_f).1
    have inside : i < altered.fields.length := (List.getElem?_eq_some_iff.mp at_g).1
    have fewer := not_reused (by omega) row mem
    omega

theorem alter_added (contract : AlterContract codec t (.alter altered flags legacyAttribute encryptionKeyId latest))
    (readable : Readable t (.alter altered flags legacyAttribute encryptionKeyId latest))
    (at_g : altered.fields[i]? = some g) (missing : row.schema.fields.length ≤ i) :
    (∀ f ∈ row.schema.fields, f.id ≠ g.id) ∧ altered.defaults.value g i = g.born := by
  obtain ⟨in_place, -, defaults, -⟩ := readable accepted
  refine ⟨?_, defaults (g, i) (mem_zipIdx_iff_getElem?.mpr at_g) ⟨row, mem, missing⟩⟩
  cases at_h : t.schema.fields[i]? with
  | some h =>
    have same_id : h.id = g.id := (in_place _ (zip_mem at_h at_g)).1
    intro f mem_f same
    exact (before.added i h at_h missing).1 f mem_f (same.trans same_id.symm)
  | none =>
    have new := appended_fresh in_place at_g (getElem?_eq_none_iff.mp at_h)
    exact contract.2 g (mem_of_getElem? at_g) new row mem

end

theorem alter_legible (legible : ∀ row ∈ t.rows, Legible codec crypt t row)
    (contract : AlterContract codec t (.alter altered flags legacyAttribute encryptionKeyId latest))
    (readable : Readable t (.alter altered flags legacyAttribute encryptionKeyId latest)) :
    ∀ row ∈ (alterStep codec crypt t (.alter altered flags legacyAttribute encryptionKeyId latest)).1.rows,
      Legible codec crypt
        (alterStep codec crypt t (.alter altered flags legacyAttribute encryptionKeyId latest)).1 row := by
  by_cases accepted : (checkIfSupportedInplaceAlter legacyAttribute t.schema altered flags).accepted = true
  · have same_cipher := (readable accepted).2.2.2
    simp only [alterStep, accepted, if_true]
    intro row mem
    have before := legible row mem
    refine ⟨before.formed, ?_, fun _ _ _ at_f at_g => ?_, fun _ _ at_g missing => ?_⟩
    · obtain ⟨iv, data⟩ := before.sealed
      refine ⟨iv, ?_⟩
      simp only [same_cipher (ne_nil_of_mem mem)]
      exact data
    · exact alter_kept before mem accepted contract.1 readable at_f at_g
    · exact alter_added before mem accepted contract readable at_g missing
  · simp only [alterStep, accepted, Bool.false_eq_true, if_false]
    exact legible

end Accepted

theorem alterStep_legible (event : AlterEvent Ty) (legible : ∀ row ∈ t.rows, Legible codec crypt t row)
    (ok : AlterContract codec t event ∧ Readable t event) :
    ∀ row ∈ (alterStep codec crypt t event).1.rows, Legible codec crypt (alterStep codec crypt t event).1 row := by
  cases event with
  | write buf latest iv => exact write_legible legible ok.1 ok.2
  | alter altered flags legacyAttribute encryptionKeyId latest => exact alter_legible legible ok.1 ok.2

/-- In every run whose events meet the condition, all rows read as they were written in each
state. -/
theorem rows_kept_along (codec : Ty → Codec) (crypt : Crypt) (S : RowSchema Ty) (cipher : Option (Nat × Nat))
    (events : List (AlterEvent Ty))
    (along : Along (alterStep codec crypt) (fun t event => AlterContract codec t event ∧ Readable t event) ⟨S, cipher, []⟩ events)
    (done : List (AlterEvent Ty)) (reached : done <+: events) :
    RowsKept codec crypt (run (alterStep codec crypt) ⟨S, cipher, []⟩ done) := by
  obtain ⟨rest, rfl⟩ := reached
  rw [Base.along_append] at along
  apply rowsKept_of_legible
  exact Base.run_invariant (alterStep codec crypt) (fun t => ∀ row ∈ t.rows, Legible codec crypt t row)
    (fun _ event holds ok => alterStep_legible event holds ok) (by simp) along.1

def byteCodec : Codec where
  Fits v := v.length = 1
  pack := id
  unpack
    | b :: rest => some ([b], rest)
    | [] => none
  nonempty v fits := by
    rintro rfl
    simp at fits
  inverts v rest fits := by
    obtain ⟨b, rfl⟩ := List.length_eq_one_iff.mp fits
    rfl

def plainCrypt : Crypt := ⟨fun _ _ data => data, fun _ data => data, fun _ _ _ => rfl⟩

def columnA : FieldDef Unit := ⟨0, "a", none, (), none⟩

def columnB : FieldDef Unit := ⟨1, "b", none, (), some [7]⟩

def schemaA : RowSchema Unit :=
  ⟨[columnA], 1, ⟨[255], [[0]]⟩, by decide, by simp, by simp, by decide, by decide, rfl, rfl⟩

def schemaAB : RowSchema Unit :=
  ⟨[columnA, columnB], 1, ⟨[255], [[0], [7]]⟩, by decide, by simp [columnA, columnB], by decide, by decide,
    by decide, rfl, rfl⟩

def schemaBA : RowSchema Unit :=
  ⟨[columnB, columnA], 1, ⟨[255], [[7], [0]]⟩, by decide, by simp [columnA, columnB], by decide, by decide,
    by decide, rfl, rfl⟩

/- INSERT (5), then ALTER TABLE ... ADD COLUMN b DEFAULT 7 at the end or FIRST. -/
def addLast : List (AlterEvent Unit) :=
  [.write ⟨[255], [[5]]⟩ 0 [], .alter schemaAB [.addColumn] false none 0]

def addFirst : List (AlterEvent Unit) :=
  [.write ⟨[255], [[5]]⟩ 0 [], .alter schemaBA [.addColumn, .alterStoredColumnOrder] false none 0]

theorem insert_formed : (⟨[255], [[5]]⟩ : RowBuf).WellFormed (fun _ => byteCodec) schemaA :=
  ⟨rfl, fun _ => rfl, trivial⟩

theorem rows_kept_add_last : RowsKept (fun _ => byteCodec) plainCrypt
      (run (alterStep (fun _ => byteCodec) plainCrypt) ⟨schemaA, none, []⟩ addLast) := by
  refine rows_kept_along (fun _ => byteCodec) plainCrypt schemaA none addLast ?_ addLast (prefix_refl _)
  refine ⟨⟨insert_formed, fun _ => rfl⟩, ⟨⟨?_, ?_⟩, fun _ => ⟨?_, ?_, ?_, fun _ => rfl⟩⟩, trivial⟩
  · unfold FlagsFor
    decide
  all_goals decide

/-- `ADD COLUMN b ... FIRST` is INSTANT, and the row (5) then reads as b = 5 with a at its
default. -/
theorem added_first_takes_value :
    ¬ ∀ (Ty : Type) (codec : Ty → Codec) (crypt : Crypt) (S : RowSchema Ty) (cipher : Option (Nat × Nat))
      (events : List (AlterEvent Ty)), Along (alterStep codec crypt) (AlterContract codec) ⟨S, cipher, []⟩ events →
      RowsKept codec crypt (run (alterStep codec crypt) ⟨S, cipher, []⟩ events) := by
  intro claim
  have kept := claim Unit (fun _ => byteCodec) plainCrypt schemaA none addFirst
    ⟨insert_formed, ⟨by unfold FlagsFor; decide, by decide⟩, trivial⟩
  have read := (kept _ mem_cons_self ⟨[0], [[0], [0]]⟩ rfl 1 columnA rfl).1 0 columnA rfl rfl
  exact absurd read (by decide)

end TidesdbMysql
