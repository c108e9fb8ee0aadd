import TidesdbMysql.Base.Join
import TidesdbMysql.Base.SortedMap
import TidesdbMysql.Txn.Engine

/-! The names of column families: `path_to_cf_name`, the index infix, and `create`, which
takes a family that exists under a name for its own. -/
namespace TidesdbMysql
open Base List

abbrev Name := List Char

def cfIndexInfix : Name := ['_', '_', 'i', 'd', 'x', '_']

def cfDbTableSep : Name := ['_', '_']

def mariadbRelPathPrefix : Name := ['.', '/']

def mariadbTempNameMarker : Char := '#'

def mariadbTempNameReplacement : Char := '_'

def replaceMarker (name : Name) : Name :=
  name.map fun c => if c = mariadbTempNameMarker then mariadbTempNameReplacement else c

/- `std::string::rfind` of one character. -/
def rfind (c : Char) : Name → Option Nat
  | [] => none
  | x :: xs =>
    match rfind c xs with
    | some i => some (i + 1)
    | none => if x = c then some 0 else none

def pathToCfName (path : Name) : Name :=
  let p := if mariadbRelPathPrefix.isPrefixOf path then path.drop mariadbRelPathPrefix.length else path
  match rfind '/' p with
  | none => p
  | some lastSlash =>
    let tblname := p.drop (lastSlash + 1)
    let prevSlash := if lastSlash > 0 then rfind '/' (p.take lastSlash) else none
    let dbname := match prevSlash with
      | none => p.take lastSlash
      | some i => (p.drop (i + 1)).take (lastSlash - i - 1)
    replaceMarker (dbname ++ cfDbTableSep ++ tblname)

/-- The name `resolve_idx_cf` looks up. -/
def idxCfName (tableCf keyName : Name) : Name := tableCf ++ cfIndexInfix ++ keyName

/-- A database and a table as in a path: all but letters, digits and `_` is encoded, and `#` marks
temporary names. -/
structure TableName where
  db : Name
  table : Name
  db_plain : '/' ∉ db
  table_plain : '/' ∉ table
  deriving DecidableEq

def TableName.path (t : TableName) : Name := mariadbRelPathPrefix ++ t.db ++ ['/'] ++ t.table

def TableName.cfName (t : TableName) : Name := pathToCfName t.path

inductive CfOwner where
  | data (t : TableName)
  | index (t : TableName) (keyName : Name)
  deriving DecidableEq

def CfOwner.cfName : CfOwner → Name
  | .data t => t.cfName
  | .index t keyName => idxCfName t.cfName keyName

theorem rfind_eq_none {c : Char} {s : Name} (plain : c ∉ s) : rfind c s = none := by
  induction s with
  | nil => rfl
  | cons x xs ih =>
    rw [mem_cons, not_or] at plain
    obtain ⟨other, rest⟩ := plain
    rw [rfind, ih rest]
    exact if_neg (Ne.symm other)

theorem rfind_last {c : Char} (s : Name) {rest : Name} (plain : c ∉ rest) :
    rfind c (s ++ c :: rest) = some s.length := by
  induction s with
  | nil =>
    rw [nil_append, rfind, rfind_eq_none plain]
    exact if_pos rfl
  | cons x xs ih =>
    rw [cons_append, rfind, ih]
    rfl

theorem cfName_eq (t : TableName) : t.cfName = joined cfDbTableSep (replaceMarker t.db, replaceMarker t.table) := by
  have begins : mariadbRelPathPrefix.isPrefixOf t.path = true := by
    rw [ isPrefixOf_iff_prefix, TableName.path, append_assoc, append_assoc]
    exact prefix_append _ _
  have rest : t.path.drop mariadbRelPathPrefix.length = t.db ++ '/' :: t.table := by
    rw [TableName.path, append_assoc, append_assoc, drop_left]
    rfl
  have before : (t.db ++ '/' :: t.table).take t.db.length = t.db := take_left
  have behind : (t.db ++ '/' :: t.table).drop (t.db.length + 1) = t.table := by
    rw [drop_append, drop_eq_nil_of_le (Nat.le_succ _)]
    simp
  have single : (if t.db.length > 0 then rfind '/' t.db else none) = none := by
    rw [rfind_eq_none t.db_plain]
    exact ite_self none
  rw [TableName.cfName, pathToCfName, if_pos begins, rest]
  rw [rfind_last t.db t.table_plain]
  dsimp only
  rw [before, behind, single]
  simp only [replaceMarker, map_append]
  rfl

/- Where one name can be read in two ways. -/

/-- A database name ending, before a table name beginning, in the separator's character, or a
separator inside either. -/
def SepStraddles (a b : Name × Name) : Prop :=
  b.1 = a.1 ++ ['_'] ∧ a.2 = '_' :: b.2 ∨
    ∃ u, b.1 = a.1 ++ cfDbTableSep ++ u ∧ a.2 = u ++ cfDbTableSep ++ b.2

def InfixStraddles (a b : Name × Name) : Prop :=
  b.1 = a.1 ++ ['_', '_', 'i', 'd', 'x'] ∧ a.2 = ['_', 'i', 'd', 'x', '_'] ++ b.2 ∨
    ∃ u, b.1 = a.1 ++ cfIndexInfix ++ u ∧ a.2 = u ++ cfIndexInfix ++ b.2

theorem straddles_sep (a b : Name × Name) : Straddles cfDbTableSep a b ↔ SepStraddles a b := by
  constructor
  · rintro ⟨s, some_char, first, second⟩
    rcases s with _ | ⟨c, _ | ⟨d, u⟩⟩
    · exact absurd rfl some_char
    · simp only [cfDbTableSep, cons_append, nil_append, cons.injEq] at second
      obtain ⟨rfl, -, second⟩ := second
      exact .inl ⟨first, second⟩
    · simp only [cfDbTableSep, cons_append, nil_append, cons.injEq] at second
      obtain ⟨rfl, rfl, second⟩ := second
      refine .inr ⟨u, ?_, ?_⟩
      · rw [first, cfDbTableSep, append_assoc]
        rfl
      · rw [second, cfDbTableSep, append_assoc]
        rfl
  · rintro (⟨first, second⟩ | ⟨u, first, second⟩)
    · exact ⟨['_'], cons_ne_nil _ _, first, by rw [second]; rfl⟩
    · exact straddles_inner (cons_ne_nil _ _) first second

theorem straddles_infix (a b : Name × Name) : Straddles cfIndexInfix a b ↔ InfixStraddles a b := by
  constructor
  · rintro ⟨s, some_char, first, second⟩
    rcases s with _ | ⟨c1, _ | ⟨c2, _ | ⟨c3, _ | ⟨c4, _ | ⟨c5, _ | ⟨c6, u⟩⟩⟩⟩⟩⟩
    · exact absurd rfl some_char
    · simp [cfIndexInfix] at second
    · simp [cfIndexInfix] at second
    · simp [cfIndexInfix] at second
    · simp [cfIndexInfix] at second
    · simp only [cfIndexInfix, cons_append, nil_append, cons.injEq] at second
      obtain ⟨rfl, rfl, rfl, rfl, rfl, -, second⟩ := second
      exact .inl ⟨first, second⟩
    · simp only [cfIndexInfix, cons_append, nil_append, cons.injEq] at second
      obtain ⟨rfl, rfl, rfl, rfl, rfl, rfl, second⟩ := second
      refine .inr ⟨u, ?_, ?_⟩
      · rw [first, cfIndexInfix, append_assoc]
        rfl
      · rw [second, cfIndexInfix, append_assoc]
        rfl
  · rintro (⟨first, second⟩ | ⟨u, first, second⟩)
    · exact ⟨['_', '_', 'i', 'd', 'x'], cons_ne_nil _ _, first, by rw [second]; rfl⟩
    · exact straddles_inner (cons_ne_nil _ _) first second

def CfOwner.tableName : CfOwner → TableName
  | .data t => t
  | .index t _ => t

def CfOwner.written : CfOwner → Name × Name
  | .data t => (replaceMarker t.db, replaceMarker t.table)
  | .index t keyName => (replaceMarker t.db, joined cfIndexInfix (replaceMarker t.table, keyName))

/- Equal second words: one table and index, a table named like an index's family, or an infix inside
either name. -/
def CfOwner.SameTail : CfOwner → CfOwner → Prop
  | .data a, .data b => replaceMarker a.table = replaceMarker b.table
  | .data a, .index b k => replaceMarker a.table = replaceMarker b.table ++ cfIndexInfix ++ k
  | .index a k, .data b => replaceMarker b.table = replaceMarker a.table ++ cfIndexInfix ++ k
  | .index a k, .index b l =>
    replaceMarker a.table = replaceMarker b.table ∧ k = l ∨
      InfixStraddles (replaceMarker a.table, k) (replaceMarker b.table, l) ∨
      InfixStraddles (replaceMarker b.table, l) (replaceMarker a.table, k)

def CfOwner.Confused (a b : CfOwner) : Prop :=
  replaceMarker a.tableName.db = replaceMarker b.tableName.db ∧ a.SameTail b ∨
    SepStraddles a.written b.written ∨ SepStraddles b.written a.written

theorem owner_cfName (o : CfOwner) : o.cfName = joined cfDbTableSep o.written := by
  cases o with
  | data t => exact cfName_eq t
  | index t keyName =>
    rw [CfOwner.cfName, idxCfName, cfName_eq]
    simp only [joined, CfOwner.written, append_assoc]

theorem sameTail_iff (a b : CfOwner) : a.written.2 = b.written.2 ↔ a.SameTail b := by
  cases a with
  | data s =>
    cases b with
    | data | index => exact Iff.rfl
  | index s k =>
    cases b with
    | data t => exact eq_comm
    | index t l =>
      show joined cfIndexInfix _ = joined cfIndexInfix _ ↔ _
      rw [joined_eq_iff, straddles_infix, straddles_infix, Prod.mk.injEq]
      rfl

theorem written_eq_iff (a b : CfOwner) :
    a.written = b.written ↔ replaceMarker a.tableName.db = replaceMarker b.tableName.db ∧ a.SameTail b := by
  have first : ∀ o : CfOwner, o.written.1 = replaceMarker o.tableName.db := by
    intro o
    cases o <;> rfl
  rw [Prod.ext_iff, first, first, sameTail_iff]

theorem cfName_eq_iff (a b : CfOwner) : a.cfName = b.cfName ↔ a.Confused b := by
  rw [owner_cfName, owner_cfName, joined_eq_iff, straddles_sep, straddles_sep, written_eq_iff]
  rfl

theorem cfName_injective_of_table {a b : CfOwner} (table : a.tableName = b.tableName)
    (same : a.cfName = b.cfName) : a = b := by
  cases a with
  | data s =>
    cases b with
    | data t => exact congrArg CfOwner.data table
    | index t l =>
      obtain rfl : s = t := table
      have sizes := congrArg length same
      simp [CfOwner.cfName, idxCfName, cfIndexInfix] at sizes
  | index s k =>
    cases b with
    | data t =>
      obtain rfl : s = t := table
      have sizes := congrArg length same
      simp [CfOwner.cfName, idxCfName, cfIndexInfix] at sizes
    | index t l =>
      obtain rfl : s = t := table
      exact congrArg _ (append_cancel_left same)

end TidesdbMysql
