import Mathlib.Order.Lattice
import TidesdbMysql.Base.Bytes

/-! The stored form of a row. A row carries the size of its null bitmap and its
number of fields, and nothing else about the schema it was written under. -/
namespace TidesdbMysql

open Base (Bytes leBytes leValue leBytes_length leValue_leBytes)
open List

/-- `Field::pack` and `Field::unpack` of a column type: inverse on its values, of at least one
byte. -/
structure Codec where
  Fits : Bytes → Prop
  pack : Bytes → Bytes
  unpack : Bytes → Option (Bytes × Bytes)
  nonempty : ∀ v, Fits v → pack v ≠ []
  inverts : ∀ v rest, Fits v → unpack (pack v ++ rest) = some (v, rest)

/-- A column. `id` is the column itself through renames and moves, `born` its first default; neither
is in the source. -/
structure FieldDef (Ty : Type) where
  id : Nat
  name : String
  nullPos : Option Nat
  type : Ty
  born : Option Bytes
  deriving DecidableEq

def nullBitSet (nulls : Bytes) (pos : Nat) : Bool :=
  (nulls.getD (pos / 8) 0).toBitVec.getLsbD (pos % 8)

def putNullBit (nulls : Bytes) (pos : Nat) (on : Bool) : Bytes :=
  nulls.modify (pos / 8) fun b =>
    if on then ⟨b.toBitVec ||| BitVec.twoPow 8 (pos % 8)⟩
    else ⟨b.toBitVec &&& ~~~ BitVec.twoPow 8 (pos % 8)⟩

@[simp] theorem putNullBit_length (nulls : Bytes) (pos : Nat) (on : Bool) :
    (putNullBit nulls pos on).length = nulls.length := length_modify ..

theorem nullBitSet_put {nulls : Bytes} {pos : Nat} (inside : pos / 8 < nulls.length) (on : Bool)
    (q : Nat) : nullBitSet (putNullBit nulls pos on) q = if q = pos then on else nullBitSet nulls q := by
  simp only [nullBitSet, putNullBit, getD_eq_getElem?_getD, getElem?_modify]
  have low : pos % 8 < 8 := Nat.mod_lt _ (by decide)
  have low' : q % 8 < 8 := Nat.mod_lt _ (by decide)
  by_cases byte : pos / 8 = q / 8
  · have there : nulls[q / 8]? = some nulls[pos / 8] := by
      rw [← byte]
      exact getElem?_eq_getElem inside
    have same_iff : q = pos ↔ q % 8 = pos % 8 := by
      constructor
      · rintro rfl
        rfl
      · intro bit
        omega
    by_cases bit : q % 8 = pos % 8
    · cases on <;> simp [there, byte, same_iff, bit, low]
    · cases on <;> simp [there, byte, same_iff, bit, low']
  · have other : q ≠ pos := by
      rintro rfl
      exact byte rfl
    simp [byte, other]

structure RowBuf where
  nulls : Bytes
  cells : List Bytes
  deriving DecidableEq

variable {Ty : Type}

/- `is_real_null` -/
def FieldDef.isNull (f : FieldDef Ty) (nulls : Bytes) : Bool :=
  match f.nullPos with
  | none => false
  | some pos => nullBitSet nulls pos

/-- The value of the column at ordinal `i`. -/
def RowBuf.value (buf : RowBuf) (f : FieldDef Ty) (i : Nat) : Option Bytes :=
  if f.isNull buf.nulls then none else some (buf.cells.getD i [])

structure RowSchema (Ty : Type) where
  fields : List (FieldDef Ty)
  nullBytes : Nat
  defaults : RowBuf
  null_inside : ∀ f ∈ fields, ∀ pos, f.nullPos = some pos → pos / 8 < nullBytes
  null_apart : fields.Pairwise fun f g => ∀ pos, f.nullPos = some pos → g.nullPos ≠ some pos
  ids_apart : fields.Pairwise fun f g => f.id ≠ g.id
  fields_small : fields.length < 65536
  nulls_small : nullBytes < 65536
  default_nulls : defaults.nulls.length = nullBytes
  default_cells : defaults.cells.length = fields.length

variable (codec : Ty → Codec)

def rowHeaderMagic : UInt8 := 0xFE
def rowHeaderSize : Nat := 5

def packFields (nulls : Bytes) : List (FieldDef Ty) → List Bytes → Bytes
  | f :: fs, c :: cs =>
    (if f.isNull nulls then [] else (codec f.type).pack c) ++ packFields nulls fs cs
  | _, _ => []

def serializeRow (S : RowSchema Ty) (buf : RowBuf) : Bytes :=
  rowHeaderMagic :: (leBytes 2 S.nullBytes ++ (leBytes 2 S.fields.length ++
    (buf.nulls ++ packFields codec buf.nulls S.fields buf.cells)))

/- The unpack loop; a `break` leaves the remaining columns as the buffer had them. -/
def unpackFields (nulls : Bytes) : List (FieldDef Ty) → List Bytes → Bytes → List Bytes
  | f :: fs, c :: cs, data =>
    if f.isNull nulls then c :: unpackFields nulls fs cs data
    else if data = [] then c :: cs
    else
      match (codec f.type).unpack data with
      | none => c :: cs
      | some (v, rest) => v :: unpackFields nulls fs cs rest
  | _, cells, _ => cells

def fillNulls (S : RowSchema Ty) (nulls : Bytes) (fields : List (FieldDef Ty)) : Bytes :=
  fields.foldl (fun nulls f =>
    match f.nullPos with
    | none => nulls
    | some pos => putNullBit nulls pos (f.isNull S.defaults.nulls)) nulls

def zeroedRow (S : RowSchema Ty) (prior : RowBuf) : RowBuf :=
  ⟨List.replicate S.nullBytes 0, prior.cells.map fun c => List.replicate c.length 0⟩

/-- `deserialize_row` into a buffer that held `prior`. -/
def deserializeRow (S : RowSchema Ty) (data : Bytes) (prior : RowBuf) : RowBuf :=
  if data.length < rowHeaderSize ∨ data.head? ≠ some rowHeaderMagic then zeroedRow S prior
  else
    let storedNullBytes := leValue ((data.drop 1).take 2)
    let storedFields := leValue ((data.drop 3).take 2)
    let body := data.drop rowHeaderSize
    if body.length < storedNullBytes then prior
    else
      let copied := body.take (min storedNullBytes S.nullBytes) ++
        S.defaults.nulls.drop (min storedNullBytes S.nullBytes)
      let nulls := fillNulls S copied (S.fields.drop storedFields)
      ⟨nulls, unpackFields codec nulls (S.fields.take storedFields)
        (prior.cells.take storedFields ++ S.defaults.cells.drop storedFields)
        (body.drop storedNullBytes)⟩

section Nulls

variable {S : RowSchema Ty} {fields : List (FieldDef Ty)} {nulls : Bytes} {q : Nat}

theorem fillNulls_other (foreign : ∀ f ∈ fields, f.nullPos ≠ some q)
    (inside : ∀ f ∈ fields, ∀ pos, f.nullPos = some pos → pos / 8 < nulls.length) :
    nullBitSet (fillNulls S nulls fields) q = nullBitSet nulls q := by
  induction fields generalizing nulls with
  | nil => rfl
  | cons f rest ih =>
    rw [forall_mem_cons] at foreign inside
    rw [fillNulls, foldl_cons, ← fillNulls]
    cases pos : f.nullPos with
    | none => exact ih foreign.2 inside.2
    | some p =>
      have apart : q ≠ p := by
        rintro rfl
        exact foreign.1 pos
      rw [ih foreign.2 (by simpa using inside.2), nullBitSet_put (inside.1 p pos), if_neg apart]

theorem fillNulls_own (apart : fields.Pairwise fun f g => ∀ pos, f.nullPos = some pos → g.nullPos ≠ some pos)
    (inside : ∀ f ∈ fields, ∀ pos, f.nullPos = some pos → pos / 8 < nulls.length) {f : FieldDef Ty} (mem : f ∈ fields)
    (at_q : f.nullPos = some q) : nullBitSet (fillNulls S nulls fields) q = f.isNull S.defaults.nulls := by
  induction fields generalizing nulls with
  | nil => cases mem
  | cons g rest ih =>
    rw [forall_mem_cons] at inside
    rw [pairwise_cons] at apart
    rw [fillNulls, foldl_cons, ← fillNulls]
    rcases mem_cons.mp mem with rfl | later
    · rw [at_q]
      have foreign : ∀ g ∈ rest, g.nullPos ≠ some q := fun g hg => apart.1 g hg q at_q
      rw [fillNulls_other foreign (by simpa using inside.2), nullBitSet_put (inside.1 q at_q), if_pos rfl]
    · cases pos : g.nullPos with
      | none => exact ih apart.2 inside.2 later
      | some p => exact ih apart.2 (by simpa using inside.2) later

end Nulls

def FitsAll (nulls : Bytes) : List (FieldDef Ty) → List Bytes → Prop
  | f :: fs, c :: cs => (f.isNull nulls = false → (codec f.type).Fits c) ∧ FitsAll nulls fs cs
  | [], [] => True
  | _, _ => False

theorem unpack_pack {nulls nulls' : Bytes} {fs gs : List (FieldDef Ty)} {cs ps : List Bytes}
    (fits : FitsAll codec nulls fs cs) (fewer : gs.length ≤ fs.length) (room : gs.length ≤ ps.length)
    (same : ∀ (i : Nat) (f g : FieldDef Ty), fs[i]? = some f → gs[i]? = some g →
      f.type = g.type ∧ g.isNull nulls' = f.isNull nulls) (i : Nat) :
    (unpackFields codec nulls' gs ps (packFields codec nulls fs cs))[i]? = match gs[i]? with
      | none => ps[i]? | some g => if g.isNull nulls' then ps[i]? else cs[i]? := by
  induction gs generalizing fs cs ps i with
  | nil => simp [unpackFields]
  | cons g gs ih =>
    cases fs with
    | nil => simp at fewer
    | cons f fs =>
      cases ps with
      | nil => simp at room
      | cons p ps =>
        cases cs with
        | nil => simp [FitsAll] at fits
        | cons c cs =>
          obtain ⟨type_eq, null_eq⟩ := same 0 f g rfl rfl
          have later := fun i => ih fits.2 (by simpa using fewer) (by simpa using room)
            (fun i f g hf hg => same (i + 1) f g (by simpa using hf) (by simpa using hg)) i
          cases null : f.isNull nulls with
          | true =>
            rw [null] at null_eq
            cases i with
            | zero => simp [unpackFields, packFields, null, null_eq]
            | succ i => simp [unpackFields, packFields, null, null_eq, later]
          | false =>
            rw [null] at null_eq
            have fit := fits.1 null
            have some_bytes : (codec f.type).pack c ++ packFields codec nulls fs cs ≠ [] := by
              simp [(codec f.type).nonempty c fit]
            have read := (codec f.type).inverts c (packFields codec nulls fs cs) fit
            cases i with
            | zero => simp [unpackFields, packFields, null, null_eq, some_bytes, ← type_eq, read]
            | succ i => simp [unpackFields, packFields, null, null_eq, some_bytes, ← type_eq, read, later]

structure RowBuf.WellFormed (S : RowSchema Ty) (buf : RowBuf) : Prop where
  nulls : buf.nulls.length = S.nullBytes
  fits : FitsAll codec buf.nulls S.fields buf.cells

/-- The leading columns of two schemas have the same type and null bit, column by column. -/
def InPlace (W C : RowSchema Ty) : Prop :=
  ∀ (i : Nat) (f g : FieldDef Ty), W.fields[i]? = some f → C.fields[i]? = some g →
    f.type = g.type ∧ f.nullPos = g.nullPos

variable {codec} {W C : RowSchema Ty} {buf prior : RowBuf}

/- The null bytes of the reader: the writer's as far as both have them, the default
record's behind. -/
def mergedNulls (W C : RowSchema Ty) (buf : RowBuf) : Bytes :=
  fillNulls C (buf.nulls.take (min W.nullBytes C.nullBytes) ++
    C.defaults.nulls.drop (min W.nullBytes C.nullBytes)) (C.fields.drop W.fields.length)

section
variable (formed : buf.WellFormed codec W)
include formed

theorem deserialize_serialize : deserializeRow codec C (serializeRow codec W buf) prior = ⟨mergedNulls W C buf,
        unpackFields codec (mergedNulls W C buf) (C.fields.take W.fields.length)
          (prior.cells.take W.fields.length ++ C.defaults.cells.drop W.fields.length)
          (packFields codec buf.nulls W.fields buf.cells)⟩ := by
  have header : serializeRow codec W buf = rowHeaderMagic :: (leBytes 2 W.nullBytes ++
      (leBytes 2 W.fields.length ++ (buf.nulls ++ packFields codec buf.nulls W.fields buf.cells))) := rfl
  have null_bytes : leValue (leBytes 2 W.nullBytes) = W.nullBytes :=
    (leValue_leBytes 2 _).trans (Nat.mod_eq_of_lt W.nulls_small)
  have field_count : leValue (leBytes 2 W.fields.length) = W.fields.length :=
    (leValue_leBytes 2 _).trans (Nat.mod_eq_of_lt W.fields_small)
  have size : ¬ (serializeRow codec W buf).length < rowHeaderSize := by
    simp only [header, length_cons, length_append, leBytes_length, rowHeaderSize]
    omega
  have first : (serializeRow codec W buf).head? = some rowHeaderMagic := rfl
  have stored_nulls : ((serializeRow codec W buf).drop 1).take 2 = leBytes 2 W.nullBytes := rfl
  have stored_fields : ((serializeRow codec W buf).drop 3).take 2 = leBytes 2 W.fields.length := rfl
  have body : (serializeRow codec W buf).drop rowHeaderSize =
      buf.nulls ++ packFields codec buf.nulls W.fields buf.cells := rfl
  have enough : ¬ (buf.nulls ++ packFields codec buf.nulls W.fields buf.cells).length < W.nullBytes := by
    rw [length_append, formed.nulls]
    omega
  have shared : min W.nullBytes C.nullBytes ≤ buf.nulls.length := by
    rw [formed.nulls]
    exact Nat.min_le_left _ _
  simp only [deserializeRow, size, first, ne_eq, not_true_eq_false, or_self, if_false, stored_nulls,
    null_bytes, stored_fields, field_count, body, enough, take_append_of_le_length shared,
    mergedNulls, drop_left' formed.nulls]

theorem copied_length : (buf.nulls.take (min W.nullBytes C.nullBytes) ++
      C.defaults.nulls.drop (min W.nullBytes C.nullBytes)).length = C.nullBytes := by
  have own := formed.nulls
  have default_own := C.default_nulls
  simp only [length_append, length_take, length_drop]
  omega

theorem new_fields_inside : ∀ f ∈ C.fields.drop W.fields.length, ∀ pos, f.nullPos = some pos →
      pos / 8 < (buf.nulls.take (min W.nullBytes C.nullBytes) ++
        C.defaults.nulls.drop (min W.nullBytes C.nullBytes)).length := by
  intro f mem pos at_pos
  rw [copied_length formed]
  exact C.null_inside f (mem_of_mem_drop mem) pos at_pos

theorem merged_kept {i : Nat} {f g : FieldDef Ty} (at_w : W.fields[i]? = some f) (at_c : C.fields[i]? = some g)
    (same : f.nullPos = g.nullPos) : g.isNull (mergedNulls W C buf) = f.isNull buf.nulls := by
  have small : i < W.fields.length := (List.getElem?_eq_some_iff.mp at_w).1
  unfold FieldDef.isNull
  rw [same]
  cases pos : g.nullPos with
  | none => rfl
  | some p =>
    have in_w : p / 8 < W.nullBytes := W.null_inside f (mem_of_getElem? at_w) p (same.trans pos)
    have in_c : p / 8 < C.nullBytes := C.null_inside g (mem_of_getElem? at_c) p pos
    have kept : g ∈ C.fields.take W.fields.length := by
      apply mem_of_getElem?
      rw [getElem?_take_of_lt small, at_c]
    have apart := C.null_apart
    rw [← take_append_drop W.fields.length C.fields, pairwise_append] at apart
    have foreign : ∀ h ∈ C.fields.drop W.fields.length, h.nullPos ≠ some p :=
      fun h mem => apart.2.2 g kept h mem p pos
    have within : p / 8 < (buf.nulls.take (min W.nullBytes C.nullBytes)).length := by
      rw [length_take, formed.nulls]
      omega
    simp only
    rw [mergedNulls, fillNulls_other foreign (new_fields_inside formed)]
    simp only [nullBitSet, getD_eq_getElem?_getD]
    rw [getElem?_append_left within, getElem?_take_of_lt (by omega)]

theorem merged_added {i : Nat} {g : FieldDef Ty} (at_c : C.fields[i]? = some g) (added : W.fields.length ≤ i) :
    g.isNull (mergedNulls W C buf) = g.isNull C.defaults.nulls := by
  have mem : g ∈ C.fields.drop W.fields.length := by
    apply mem_of_getElem?
    rw [getElem?_drop, Nat.add_sub_cancel' added, at_c]
  cases pos : g.nullPos with
  | none => simp only [FieldDef.isNull, pos]
  | some p =>
    have own := fillNulls_own (S := C) (C.null_apart.sublist (drop_sublist _ _)) (new_fields_inside formed) mem pos
    rw [← own]
    simp only [FieldDef.isNull, pos, mergedNulls]

end

/-- Read with the leading columns in place, a row shows the values written and then the reader's
defaults. -/
theorem decode_in_place (formed : buf.WellFormed codec W) (in_place : InPlace W C)
    (sized : prior.cells.length = C.fields.length) {i : Nat} {g : FieldDef Ty} (at_c : C.fields[i]? = some g) :
    (deserializeRow codec C (serializeRow codec W buf) prior).value g i = match W.fields[i]? with
      | some f => buf.value f i | none => C.defaults.value g i := by
  have bound : i < C.fields.length := (List.getElem?_eq_some_iff.mp at_c).1
  have same : ∀ (j : Nat) (f h), W.fields[j]? = some f → (C.fields.take W.fields.length)[j]? = some h →
      f.type = h.type ∧ h.isNull (mergedNulls W C buf) = f.isNull buf.nulls := by
    intro j f h at_w at_take
    have small : j < W.fields.length := (List.getElem?_eq_some_iff.mp at_w).1
    rw [getElem?_take_of_lt small] at at_take
    obtain ⟨type_eq, null_eq⟩ := in_place j f h at_w at_take
    exact ⟨type_eq, merged_kept formed at_w at_take null_eq⟩
  have room : (C.fields.take W.fields.length).length ≤
      (prior.cells.take W.fields.length ++ C.defaults.cells.drop W.fields.length).length := by
    simp only [length_append, length_take, length_drop]
    omega
  have cell := unpack_pack codec formed.fits (by simp) room same i
  rw [deserialize_serialize formed]
  simp only [RowBuf.value, getD_eq_getElem?_getD, cell]
  cases at_w : W.fields[i]? with
  | some f =>
    have small : i < W.fields.length := (List.getElem?_eq_some_iff.mp at_w).1
    have null_eq := merged_kept formed at_w at_c (in_place i f g at_w at_c).2
    rw [getElem?_take_of_lt small, at_c]
    cases null : f.isNull buf.nulls <;> simp [null_eq, null]
  | none =>
    have added : W.fields.length ≤ i := getElem?_eq_none_iff.mp at_w
    have skipped : (prior.cells.take W.fields.length).length = W.fields.length := by
      rw [length_take]
      omega
    have beyond : (C.fields.take W.fields.length)[i]? = none :=
      getElem?_eq_none_iff.mpr ((length_take_le _ _).trans added)
    rw [beyond, merged_added formed at_c added,
      getElem?_append_right (by omega), skipped, getElem?_drop, Nat.add_sub_cancel' added]

end TidesdbMysql
