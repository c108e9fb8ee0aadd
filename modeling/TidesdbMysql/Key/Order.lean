import TidesdbMysql.Base.ByteOrder
import TidesdbMysql.Key.Encode
import Mathlib.Order.WithBot

/-! What the bytes of a key say about the order of the columns: one VARBINARY part by
itself, then a key of several parts over sort keys that embed their order. -/
namespace TidesdbMysql
open Base List

variable {w : Bytes}

/- The data area of a VARBINARY part. -/

theorem zeroPad_cons (width : Nat) (x : UInt8) (v : Bytes) : zeroPad (width + 1) (x :: v) = x :: zeroPad width v := by
  simp [zeroPad, Nat.add_sub_add_right]

theorem zeroPad_nil (width : Nat) : zeroPad (width + 1) [] = 0 :: zeroPad width [] := by
  simp [zeroPad, replicate_succ]

variable {width : Nat} {v : Bytes}

theorem zeroPad_short (short : v.length ≤ width) : zeroPad width v = v ++ List.replicate (width - v.length) 0 := by
  rw [zeroPad, take_of_length_le short]

theorem zeroPad_long (long : width ≤ v.length) : zeroPad width v = v.take width := by
  rw [zeroPad, Nat.sub_eq_zero_of_le long, replicate_zero, append_nil]

theorem lt_of_zeroPad_lt (less : zeroPad width v < zeroPad width w) : v < w := by
  induction width generalizing v w with
  | zero => simp [zeroPad] at less
  | succ width ih =>
    cases v with
    | nil =>
      cases w with
      | nil => exact absurd less (lt_irrefl _)
      | cons y w => exact nil_lt_cons y w
    | cons x v =>
      cases w with
      | nil =>
        rw [zeroPad_cons, zeroPad_nil, cons_lt_cons_iff] at less
        rcases less with below | ⟨-, later⟩
        · exact absurd below (not_lt.mpr (UInt8.le_iff_toNat_le.mpr (Nat.zero_le _)))
        · exact absurd (ih later) (not_lt_nil _)
      | cons y w =>
        rw [zeroPad_cons, zeroPad_cons, cons_lt_cons_iff] at less
        rcases less with below | ⟨rfl, later⟩
        · exact cons_lt_cons_iff.mpr (.inl below)
        · exact cons_lt_cons_iff.mpr (.inr ⟨rfl, ih later⟩)

theorem lt_iff_length_lt (short_v : v.length ≤ width) (short_w : w.length ≤ width)
    (alike : zeroPad width v = zeroPad width w) : v < w ↔ v.length < w.length := by
  rw [zeroPad_short short_v, zeroPad_short short_w] at alike
  rcases Nat.lt_trichotomy v.length w.length with less | equal | greater
  · have starts : v <+: w := prefix_of_prefix_length_le ⟨_, alike⟩ ⟨_, rfl⟩ less.le
    obtain ⟨rest, rfl⟩ := starts
    have more : rest ≠ [] := by
      rintro rfl
      simp at less
    simp only [less, iff_true]
    exact lt_append_of_ne_nil more
  · have same : v = w := (append_inj alike equal).1
    simp [same]
  · have starts : w <+: v := prefix_of_prefix_length_le ⟨_, alike.symm⟩ ⟨_, rfl⟩ greater.le
    have below : w ≤ v := prefix_le starts
    simp [not_lt.mpr below, not_lt.mpr greater.le]

theorem lt_of_alike (short : v.length ≤ width) (long : width < w.length) (alike : zeroPad width v = zeroPad width w) :
    v < w := by
  rw [zeroPad_short short, zeroPad_long long.le] at alike
  have starts : v <+: w := List.IsPrefix.trans ⟨_, alike⟩ ( take_prefix width w)
  obtain ⟨rest, rfl⟩ := starts
  refine lt_append_of_ne_nil ?_
  rintro rfl
  rw [append_nil] at long
  omega

/- The whole of a VARBINARY part: a value that fits the data area ends in its length, and
one that fills the column in its own last bytes. -/

theorem encodeVarbinary_short {length lenBytes : Nat} {r : UInt8} (short : v.length ≤ length - lenBytes) :
    encodeVarbinary length lenBytes r v = zeroPad (length - lenBytes) v ++ beBytes lenBytes v.length := by
  rw [encodeVarbinary, lengthArea, if_neg (Nat.not_lt.mpr short), beBytes]

theorem encodeVarbinary_full {length lenBytes : Nat} {r : UInt8}
    (full : v.length = length) (fits : lenBytes ≤ length) (positive : 0 < lenBytes) :
    encodeVarbinary length lenBytes r v = zeroPad (length - lenBytes) v ++ v.drop (length - lenBytes) := by
  have long : length - lenBytes < v.length := by omega
  have rest : lenBytes - (v.length - (length - lenBytes)) = 0 := by omega
  rw [encodeVarbinary, lengthArea, if_pos long, rest, replicate_zero, append_nil,
    take_of_length_le (by rw [length_drop]; omega)]

theorem padded_lt_iff {v w behind_v behind_w : Bytes}
    (tied : zeroPad width v = zeroPad width w → (behind_v < behind_w ↔ v < w)) :
    zeroPad width v ++ behind_v < zeroPad width w ++ behind_w ↔ v < w := by
  rw [append_lt_append (by simp)]
  constructor
  · rintro (less | ⟨alike, less⟩)
    · exact lt_of_zeroPad_lt less
    · exact (tied alike).mp less
  · intro less
    rcases lt_trichotomy (zeroPad width v) (zeroPad width w) with below | alike | above
    · exact .inl below
    · exact .inr ⟨alike, (tied alike).mpr less⟩
    · exact absurd (lt_of_zeroPad_lt above) (not_lt_of_gt less)

/-- The shorter value ends in its length, the longer one in bytes of its own, and these
do not stand behind that length. -/
def Confused (length lenBytes : Nat) (v w : Bytes) : Prop :=
  v.length ≤ length - lenBytes ∧ w.length = length ∧
    zeroPad (length - lenBytes) v = w.take (length - lenBytes) ∧
    beValue (w.drop (length - lenBytes)) ≤ v.length
  deriving Decidable

section Varbinary

variable {length lenBytes : Nat}

variable {v w : Bytes}

theorem length_lt_behind_iff (fits : lenBytes ≤ length) (room : length < 256 ^ lenBytes)
    (short : v.length ≤ length - lenBytes) (full : w.length = length) :
    (beBytes lenBytes v.length < w.drop (length - lenBytes) ↔ v.length < beValue (w.drop (length - lenBytes))) ∧
    (w.drop (length - lenBytes) < beBytes lenBytes v.length ↔ beValue (w.drop (length - lenBytes)) < v.length) := by
  have size : (beBytes lenBytes v.length).length = (w.drop (length - lenBytes)).length := by
    rw [beBytes_length, length_drop]
    omega
  have number : beValue (beBytes lenBytes v.length) = v.length := beValue_beBytes (by omega)
  constructor
  · rw [lt_iff_beValue_lt size, number]
  · rw [lt_iff_beValue_lt size.symm, number]

theorem encodeVarbinary_lt_iff (fits : lenBytes ≤ length) (positive : 0 < lenBytes)
    (room : length < 256 ^ lenBytes) (shape_v : v.length ≤ length - lenBytes ∨ v.length = length)
    (shape_w : w.length ≤ length - lenBytes ∨ w.length = length)
    (clear_vw : ¬ Confused length lenBytes v w) (clear_wv : ¬ Confused length lenBytes w v) (r r' : UInt8) :
    encodeVarbinary length lenBytes r v < encodeVarbinary length lenBytes r' w ↔ v < w := by
  rcases shape_v with short_v | full_v
  · rcases shape_w with short_w | full_w
    · rw [encodeVarbinary_short short_v, encodeVarbinary_short short_w]
      refine padded_lt_iff fun alike => ?_
      rw [lt_iff_length_lt short_v short_w alike, beBytes_lt_iff (by omega) (by omega)]
    · rw [encodeVarbinary_short short_v, encodeVarbinary_full full_w fits positive]
      refine padded_lt_iff fun alike => ?_
      have less := lt_of_alike short_v (by omega) alike
      rw [zeroPad_long (v := w) (by omega)] at alike
      have above : v.length < beValue (w.drop (length - lenBytes)) :=
        Nat.lt_of_not_le fun low => clear_vw ⟨short_v, full_w, alike, low⟩
      simp only [less, iff_true]
      exact (length_lt_behind_iff fits room short_v full_w).1.mpr above
  · rcases shape_w with short_w | full_w
    · rw [encodeVarbinary_full full_v fits positive, encodeVarbinary_short short_w]
      refine padded_lt_iff fun alike => ?_
      have less := lt_of_alike short_w (by omega) alike.symm
      rw [zeroPad_long (by omega)] at alike
      simp only [not_lt_of_gt less, iff_false]
      intro below
      exact clear_wv ⟨short_w, full_v, alike.symm, ((length_lt_behind_iff fits room short_w full_v).2.mp below).le⟩
    · rw [encodeVarbinary_full full_v fits positive, encodeVarbinary_full full_w fits positive,
        zeroPad_long (by omega), zeroPad_long (by omega), take_append_drop, take_append_drop]

theorem encodeVarbinary_gap (fits_v : v.length ≤ length) (fits : lenBytes ≤ length)
    (same : encodeVarbinary length lenBytes 0 v = encodeVarbinary length lenBytes 1 v) :
    v.length ≤ length - lenBytes ∨ v.length = length := by
  by_contra between
  have long : length - lenBytes < v.length := by omega
  rw [encodeVarbinary, encodeVarbinary, lengthArea, lengthArea, if_pos long, if_pos long] at same
  have tails := append_cancel_left (append_cancel_left same)
  have left : lenBytes - (v.length - (length - lenBytes)) ≠ 0 := by omega
  obtain ⟨k, eq⟩ := Nat.exists_eq_succ_of_ne_zero left
  rw [eq, replicate_succ, replicate_succ] at tails
  exact absurd (cons.inj tails).1 (by decide)

theorem clear_of_ordered (fits : lenBytes ≤ length) (positive : 0 < lenBytes) (room : length < 256 ^ lenBytes)
    (ordered : v < w → encodeVarbinary length lenBytes 0 v < encodeVarbinary length lenBytes 0 w) :
    ¬ Confused length lenBytes v w := by
  rintro ⟨short, full, alike, low⟩
  have padded : zeroPad (length - lenBytes) v = zeroPad (length - lenBytes) w := by
    rw [alike, zeroPad_long (by omega)]
  have less := ordered (lt_of_alike short (by omega) padded)
  rw [encodeVarbinary_short short, encodeVarbinary_full full fits positive, padded, append_lt_append rfl] at less
  rcases less with self | ⟨-, behind⟩
  · exact lt_irrefl _ self
  · have above := (length_lt_behind_iff fits room short full).1.mp behind
    omega

end Varbinary

/-- Of the key bytes of two records: every byte is written, and equality and order are those of the
values. -/
structure PartExact (kp : KeyPart) (a b : Record) (v w : Bytes) : Prop where
  written : ∀ r r', makeComparableKey r [kp] a = makeComparableKey r' [kp] a ∧
    makeComparableKey r [kp] b = makeComparableKey r' [kp] b
  injective : ∀ r r', makeComparableKey r [kp] a = makeComparableKey r' [kp] b → v = w
  ordered : ∀ r r', (makeComparableKey r [kp] a < makeComparableKey r' [kp] b ↔ v < w) ∧
    (makeComparableKey r' [kp] b < makeComparableKey r [kp] a ↔ w < v)

def KeyPart.lead (kp : KeyPart) : Bytes := if kp.nullable then [sortKeyNotNull] else []

theorem encodePart_some (r : UInt8) (kp : KeyPart) (v : Bytes) :
    encodePart r kp (some v) = kp.lead ++ encodeValue r kp v := by
  unfold encodePart KeyPart.lead
  cases kp.nullable <;> rfl

variable {kp : KeyPart}

theorem makeComparableKey_varbinary {n : Nat} (type : kp.kind = .varbinary n) {record : Record}
    (value : column record kp.field = some v) (r : Residue) :
    makeComparableKey r [kp] record = kp.lead ++ encodeVarbinary kp.length kp.kind.lenBytes (r kp.field) v := by
  rw [makeComparableKey, flatMap_singleton, value, encodePart_some, encodeValue, type]

theorem lenBytes_pos {n : Nat} (type : kp.kind = .varbinary n) : 0 < kp.kind.lenBytes := by
  rw [type, PartKind.lenBytes]
  split <;> decide

theorem lenBytes_room (type : kp.kind = .varbinary kp.length) (lengths : kp.length < 2 ^ 16) :
    kp.length < 256 ^ kp.kind.lenBytes := by
  rw [type, PartKind.lenBytes]
  split
  · omega
  · exact lengths

/-- The whole column as a key part: exact unless a byte is unwritten or a full value's tail is taken
for a length. -/
theorem varbinary_part_exact (kp : KeyPart) (type : kp.kind = .varbinary kp.length)
    (lengths : kp.length < 2 ^ 16) (a b : Record) (v w : Bytes)
    (value_a : column a kp.field = some v) (value_b : column b kp.field = some w)
    (fits_v : v.length ≤ kp.length) (fits_w : w.length ≤ kp.length) :
    PartExact kp a b v w ↔ leavesGap kp (some v) = false ∧ leavesGap kp (some w) = false ∧
      ¬ Confused kp.length kp.kind.lenBytes v w ∧ ¬ Confused kp.length kp.kind.lenBytes w v := by
  have fits := kp.fits
  have positive := lenBytes_pos type
  have room := lenBytes_room type lengths
  have shape : ∀ u : Bytes, u.length ≤ kp.length →
      (leavesGap kp (some u) = false ↔ u.length ≤ kp.length - kp.kind.lenBytes ∨ u.length = kp.length) := by
    intro u within
    simp only [leavesGap, type, decide_eq_false_iff_not]
    rw [← type]
    omega
  have key_a := makeComparableKey_varbinary type value_a
  have key_b := makeComparableKey_varbinary type value_b
  constructor
  · rintro ⟨written, -, ordered⟩
    have gap_v : leavesGap kp (some v) = false := by
      have same := (written (fun _ => 0) (fun _ => 1)).1
      rw [key_a, key_a] at same
      exact (shape v fits_v).mpr (encodeVarbinary_gap fits_v fits (append_cancel_left same))
    have gap_w : leavesGap kp (some w) = false := by
      have same := (written (fun _ => 0) (fun _ => 1)).2
      rw [key_b, key_b] at same
      exact (shape w fits_w).mpr (encodeVarbinary_gap fits_w fits (append_cancel_left same))
    have order := ordered (fun _ => 0) (fun _ => 0)
    rw [key_a, key_b, append_lt_append rfl, append_lt_append rfl] at order
    simp only [lt_irrefl, false_or, true_and] at order
    exact ⟨gap_v, gap_w, clear_of_ordered fits positive room order.1.mpr,
      clear_of_ordered fits positive room order.2.mpr⟩
  · rintro ⟨gap_v, gap_w, clear_vw, clear_wv⟩
    have shape_v := (shape v fits_v).mp gap_v
    have shape_w := (shape w fits_w).mp gap_w
    have order : ∀ r r' : Residue, (makeComparableKey r [kp] a < makeComparableKey r' [kp] b ↔ v < w) ∧
        (makeComparableKey r' [kp] b < makeComparableKey r [kp] a ↔ w < v) := by
      intro r r'
      rw [key_a, key_b, append_lt_append rfl, append_lt_append rfl,
        encodeVarbinary_lt_iff fits positive room shape_v shape_w clear_vw clear_wv,
        encodeVarbinary_lt_iff fits positive room shape_w shape_v clear_wv clear_vw]
      simp
    refine ⟨fun r r' => ⟨?_, ?_⟩, fun r r' same => ?_, order⟩
    · refine makeComparableKey_settled (fun part mem => ?_) r r'
      rw [mem_singleton.mp mem, value_a]
      exact gap_v
    · refine makeComparableKey_settled (fun part mem => ?_) r r'
      rw [mem_singleton.mp mem, value_b]
      exact gap_w
    · obtain ⟨forwards, backwards⟩ := order r r'
      rw [same] at forwards backwards
      have not_less : ¬ v < w := fun less => lt_irrefl _ (forwards.mpr less)
      have not_greater : ¬ w < v := fun less => lt_irrefl _ (backwards.mpr less)
      exact le_antisymm (not_lt.mp not_greater) (not_lt.mp not_less)

/- A NOT NULL column of the declared length as the only part of a key. -/
def binaryPart (n : Nat) (positive : 0 < n) : KeyPart :=
  { field := 0, nullable := false, length := n, kind := .varbinary n, length_pos := positive
    fits := by
      rw [PartKind.lenBytes]
      split <;> omega }

theorem varbinary_part_exact_four :
    PartExact (binaryPart 4 (by decide)) [some [97]] [some [97, 0, 0, 9]] [97] [97, 0, 0, 9] :=
  (varbinary_part_exact (binaryPart 4 (by decide)) rfl (by decide) [some [97]] [some [97, 0, 0, 9]]
    [97] [97, 0, 0, 9] rfl rfl (by decide) (by decide)).mpr (by decide)

/-- Two values with one key, two values in the wrong order, and a value whose key shows
what the buffer held. -/
theorem varbinary_part_collides : makeComparableKey (fun _ => 0) [binaryPart 4 (by decide)] [some [97]] =
      makeComparableKey (fun _ => 0) [binaryPart 4 (by decide)] [some [97, 0, 0, 1]] ∧
    ([97, 0] : Bytes) < [97, 0, 0, 1] ∧ makeComparableKey (fun _ => 0) [binaryPart 4 (by decide)] [some [97, 0, 0, 1]] <
      makeComparableKey (fun _ => 0) [binaryPart 4 (by decide)] [some [97, 0]] ∧
    makeComparableKey (fun _ => 0) [binaryPart 256 (by decide)] [some (List.replicate 255 97)] ≠
      makeComparableKey (fun _ => 1) [binaryPart 256 (by decide)] [some (List.replicate 255 97)] := by
  refine ⟨by decide, by decide, by decide, fun same => ?_⟩
  rw [makeComparableKey_varbinary rfl rfl, makeComparableKey_varbinary rfl rfl] at same
  have size : (replicate 255 (97 : UInt8)).length = 255 := length_replicate
  have fits : (replicate 255 (97 : UInt8)).length ≤ 256 := by rw [size]; decide
  have shape := encodeVarbinary_gap fits (binaryPart 256 (by decide)).fits (append_cancel_left same)
  rw [size] at shape
  exact absurd shape (by decide)

/- Keys of several parts. A column's values are ordered by ranks; `values` are those it can hold. -/
section Composite

variable {A : Nat → Type} [∀ f, LinearOrder (A f)] (rank : (f : Nat) → Bytes → A f) (values : Nat → Set Bytes)

def KeyPart.Embeds (kp : KeyPart) : Prop :=
  ∀ v ∈ values kp.field, ∀ w ∈ values kp.field, ∀ r r',
    encodeValue r kp v < encodeValue r' kp w ↔ rank kp.field v < rank kp.field w

/- A column with its NULL in front of every value. -/
def sqlValue (record : Record) (f : Nat) : WithBot (A f) :=
  match column record f with
  | none => ⊥
  | some v => (rank f v : WithBot (A f))

def TupleLt : List KeyPart → Record → Record → Prop
  | [], _, _ => False
  | kp :: rest, a, b =>
    sqlValue rank a kp.field < sqlValue rank b kp.field ∨
      sqlValue rank a kp.field = sqlValue rank b kp.field ∧ TupleLt rest a b

def TupleEq (parts : List KeyPart) (a b : Record) : Prop :=
  ∀ kp ∈ parts, sqlValue rank a kp.field = sqlValue rank b kp.field

/- The record holds values of its columns, and NULL only where the column allows it. -/
def Holds (parts : List KeyPart) (record : Record) : Prop :=
  ∀ kp ∈ parts, (column record kp.field = none → kp.nullable = true) ∧
    ∀ v, column record kp.field = some v → v ∈ values kp.field

variable {rank values}

variable {kp : KeyPart} {a b : Record} {parts : List KeyPart}

section
variable (embeds : kp.Embeds rank values) (holds_a : Holds values [kp] a) (holds_b : Holds values [kp] b)
  (r r' : UInt8)
include embeds holds_a holds_b

theorem encodePart_lt_iff : encodePart r kp (column a kp.field) < encodePart r' kp (column b kp.field) ↔
      sqlValue rank a kp.field < sqlValue rank b kp.field := by
  obtain ⟨null_a, value_a⟩ := holds_a kp (mem_singleton_self kp)
  obtain ⟨null_b, value_b⟩ := holds_b kp (mem_singleton_self kp)
  unfold sqlValue
  cases col_a : column a kp.field with
  | none =>
    cases col_b : column b kp.field with
    | none => simp [encodePart, null_a col_a]
    | some w =>
      have first : sortKeyNull < sortKeyNotNull := by decide
      simp [encodePart, null_a col_a, cons_lt_cons_iff, first]
  | some v =>
    cases col_b : column b kp.field with
    | none =>
      have last : ¬ sortKeyNotNull < sortKeyNull := by decide
      have apart : sortKeyNotNull ≠ sortKeyNull := by decide
      simp [encodePart, null_b col_b, cons_lt_cons_iff, last, apart]
    | some w =>
      rw [encodePart_some, encodePart_some, append_lt_append rfl]
      simp [embeds v (value_a v col_a) w (value_b w col_b) r r']

theorem encodePart_eq_iff : encodePart r kp (column a kp.field) = encodePart r' kp (column b kp.field) ↔
      sqlValue rank a kp.field = sqlValue rank b kp.field := by
  have forwards := encodePart_lt_iff embeds holds_a holds_b r r'
  have backwards := encodePart_lt_iff embeds holds_b holds_a r' r
  constructor
  · intro same
    rw [same] at forwards backwards
    exact le_antisymm (not_lt.mp fun less => lt_irrefl _ (backwards.mpr less))
      (not_lt.mp fun less => lt_irrefl _ (forwards.mpr less))
  · intro same
    rw [same] at forwards backwards
    exact le_antisymm (not_lt.mp fun less => lt_irrefl _ (backwards.mp less))
      (not_lt.mp fun less => lt_irrefl _ (forwards.mp less))

end

theorem Holds.part {record : Record} (holds : Holds values parts record)
    (mem : kp ∈ parts) : Holds values [kp] record := by
  intro part here
  rw [mem_singleton.mp here]
  exact holds kp mem

section
variable (embeds : ∀ kp ∈ parts, kp.Embeds rank values) (holds_a : Holds values parts a)
  (holds_b : Holds values parts b) (ra rb : Residue)
include embeds holds_a holds_b

theorem makeComparableKey_eq_iff_tuple :
    makeComparableKey ra parts a = makeComparableKey rb parts b ↔ TupleEq rank parts a b := by
  rw [makeComparableKey_eq_iff]
  exact forall₂_congr fun kp mem =>
    encodePart_eq_iff (embeds kp mem) (holds_a.part mem) (holds_b.part mem) _ _

theorem makeComparableKey_lt_iff :
    makeComparableKey ra parts a < makeComparableKey rb parts b ↔ TupleLt rank parts a b := by
  induction parts with
  | nil => simp [makeComparableKey, TupleLt]
  | cons kp rest ih =>
    have here : kp ∈ kp :: rest := mem_cons_self
    have later := ih (fun part mem => embeds part (mem_cons_of_mem kp mem))
      (fun part mem => holds_a part (mem_cons_of_mem kp mem))
      (fun part mem => holds_b part (mem_cons_of_mem kp mem))
    simp only [makeComparableKey, flatMap_cons] at later ⊢
    rw [append_lt_append (by simp), later, encodePart_lt_iff (embeds kp here) (holds_a.part here) (holds_b.part here),
      encodePart_eq_iff (embeds kp here) (holds_a.part here) (holds_b.part here), TupleLt]

end

end Composite

/- The server's search key: the parts in turn, each with its null byte and length bytes. -/
def KeyPart.storeLength (varLength : KeyPart → Nat) (kp : KeyPart) : Nat := kp.width + varLength kp

def coveredParts (varLength : KeyPart → Nat) (keyLen : Nat) : List KeyPart → Nat → Nat
  | [], _ => 0
  | kp :: rest, len =>
    if len + kp.storeLength varLength > keyLen then 0
    else coveredParts varLength keyLen rest (len + kp.storeLength varLength) + 1

/-- `key_copy_to_comparable`; `restored` is the scratch record after `key_restore`. -/
def searchKeyToComparable (varLength : KeyPart → Nat) (residue : Residue) (key : Key) (keyLen : Nat)
    (restored : Record) : Bytes :=
  let parts := coveredParts varLength keyLen key.parts 0
  makeComparableKey residue (key.parts.take (if parts = 0 then 1 else parts)) restored

theorem coveredParts_of_sum {varLength : KeyPart → Nat} {k keyLen : Nat} {parts : List KeyPart} {len : Nat}
    (within : k ≤ parts.length) (exact : len + ((parts.take k).map (KeyPart.storeLength varLength)).sum = keyLen) :
    coveredParts varLength keyLen parts len = k := by
  induction parts generalizing k len with
  | nil => simpa [coveredParts, eq_comm] using within
  | cons kp rest ih =>
    cases k with
    | zero =>
      have positive := kp.length_pos
      rw [coveredParts, if_pos]
      simp only [take_zero, map_nil, sum_nil] at exact
      unfold KeyPart.storeLength KeyPart.width
      omega
    | succ k =>
      simp only [take_succ_cons, map_cons, sum_cons] at exact
      rw [coveredParts, if_neg (by omega), ih (Nat.le_of_succ_le_succ within) (by omega)]

theorem composite_key_order {A : Nat → Type} [∀ f, LinearOrder (A f)] (rank : (f : Nat) → Bytes → A f)
    (values : Nat → Set Bytes) (key : Key) (embeds : ∀ kp ∈ key.parts, kp.Embeds rank values)
    (a b : Record) (holds_a : Holds values key.parts a) (holds_b : Holds values key.parts b) (ra rb : Residue) :
    (makeComparableKey ra key.parts a).length = comparableKeyLength key.parts ∧
    (makeComparableKey ra key.parts a < makeComparableKey rb key.parts b ↔ TupleLt rank key.parts a b) ∧
    (makeComparableKey ra key.parts a = makeComparableKey rb key.parts b ↔ TupleEq rank key.parts a b) ∧
    ∀ k, makeComparableKey ra (key.parts.take k) a <+: makeComparableKey ra key.parts a ∧
      (0 < k → k ≤ key.parts.length → ∀ varLength search,
        (∀ kp ∈ key.parts.take k, column search kp.field = column a kp.field) →
        searchKeyToComparable varLength rb key ((key.parts.take k).map (KeyPart.storeLength varLength)).sum search =
          makeComparableKey ra (key.parts.take k) a) := by
  refine ⟨makeComparableKey_length ra key.parts a, makeComparableKey_lt_iff embeds holds_a holds_b ra rb,
    makeComparableKey_eq_iff_tuple embeds holds_a holds_b ra rb, fun k => ⟨?_, ?_⟩⟩
  · rw [makeComparableKey_take ra key.parts k]
    exact prefix_append _ _
  · intro positive within varLength search same
    have leading : ∀ kp ∈ key.parts.take k, kp ∈ key.parts := fun kp mem => mem_of_mem_take mem
    have held : Holds values (key.parts.take k) a := fun kp mem => holds_a kp (leading kp mem)
    rw [searchKeyToComparable, coveredParts_of_sum within (Nat.zero_add _), if_neg (by omega),
      makeComparableKey_congr rb same]
    exact (makeComparableKey_eq_iff_tuple (fun kp mem => embeds kp (leading kp mem)) held held rb ra).mpr
      fun kp _ => rfl

theorem varbinary_embeds (type : kp.kind = .varbinary kp.length) (lengths : kp.length < 2 ^ 16)
    {values : Nat → Set Bytes} (short : ∀ v ∈ values kp.field, v.length ≤ kp.length - kp.kind.lenBytes) :
    kp.Embeds (A := fun _ => Bytes) (fun _ v => v) values := by
  intro v member_v w member_w r r'
  have positive : 0 < kp.kind.lenBytes := lenBytes_pos type
  have unconfused : ∀ x y : Bytes, y.length ≤ kp.length - kp.kind.lenBytes →
      ¬ Confused kp.length kp.kind.lenBytes x y := by
    rintro x y small ⟨-, full, -⟩
    have := kp.length_pos
    omega
  have value : ∀ (r : UInt8) x, encodeValue r kp x = encodeVarbinary kp.length kp.kind.lenBytes r x := by
    intro r x
    rw [encodeValue, type]
  rw [value, value]
  exact encodeVarbinary_lt_iff kp.fits positive (lenBytes_room type lengths) (.inl (short v member_v))
    (.inl (short w member_w)) (unconfused v w (short w member_w)) (unconfused w v (short v member_v)) r r'

/- A nullable VARBINARY(3) column before a column whose sort key is its two bytes. -/
def mixedKey : Key :=
  { parts := [
      { field := 0, nullable := true, length := 3, kind := .varbinary 3, length_pos := by decide, fits := by decide },
      { field := 1, nullable := false, length := 2, kind := .sortable id id, length_pos := by decide,
        fits := by decide }]
    nonempty := by simp }

def mixedValues : Nat → Set Bytes := fun f => if f = 0 then {v | v.length ≤ 2} else {v | v.length = 2}

theorem mixedKey_embeds : ∀ kp ∈ mixedKey.parts, kp.Embeds (A := fun _ => Bytes) (fun _ v => v) mixedValues := by
  intro kp mem
  rcases mem_cons.mp mem with rfl | last
  · exact varbinary_embeds rfl (by decide) fun v short => short
  · rw [mem_singleton] at last
    subst last
    intro v two_v w two_w r r'
    have padded : ∀ x : Bytes, x.length = 2 → zeroPad 2 x = x := by
      intro x two
      rw [zeroPad_long two.ge, take_of_length_le two.le]
    change zeroPad 2 v < zeroPad 2 w ↔ v < w
    rw [padded v two_v, padded w two_w]

theorem composite_key_order_mixed : makeComparableKey (fun _ => 0) mixedKey.parts [none, some [0, 5]] <
      makeComparableKey (fun _ => 255) mixedKey.parts [some [1], some [0, 1]] ∧
    searchKeyToComparable (fun _ => 2) (fun _ => 255) mixedKey 6 [none, some [7]] =
      makeComparableKey (fun _ => 0) (mixedKey.parts.take 1) [none, some [0, 5]] := by
  have first : Holds mixedValues mixedKey.parts [none, some [0, 5]] := by
    simp [Holds, mixedKey, mixedValues, column]
  have second : Holds mixedValues mixedKey.parts [some [1], some [0, 1]] := by
    simp [Holds, mixedKey, mixedValues, column]
  have whole := composite_key_order (fun _ v => v) mixedValues mixedKey mixedKey_embeds
    [none, some [0, 5]] [some [1], some [0, 1]] first second (fun _ => 0) (fun _ => 255)
  refine ⟨whole.2.1.mpr (.inl (WithBot.bot_lt_coe _)), ?_⟩
  exact (whole.2.2.2 1).2 (by decide) (by decide) (fun _ => 2) [none, some [7]] (by simp [mixedKey, column])

end TidesdbMysql
