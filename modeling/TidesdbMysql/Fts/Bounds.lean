import TidesdbMysql.Fts.Postings

/-! The buffers of a full-text search and of `fts_build_key`. -/
namespace TidesdbMysql

open Base (Bytes consume_induction)
open List

structure Copy where
  size : Nat
  bytes : Nat

def Copy.Fits (copy : Copy) : Prop := copy.bytes ≤ copy.size
  deriving Decidable

def ftsKeyBufLen : Nat := ftsTermLenPrefix + ftsMaxTermBytes + maxKeyLength

def buildKeyCopy (term : Bytes) : Copy := ⟨ftsKeyBufLen, ftsTermLenPrefix + min term.length ftsMaxTermBytes⟩

/-- `prefix` is filled for every term. -/
def QueryTerm.prefixCopy (qt : QueryTerm) : Copy :=
  ⟨ftsTermLenPrefix + ftsMaxTermBytes, ftsTermLenPrefix + qt.term.length⟩

/-- `seek` is filled for every bucket of a truncated term. -/
def QueryTerm.seekCopies (maxWordLen : Nat) (qt : QueryTerm) : List Copy :=
  if qt.trunc then
    (List.range' qt.term.length (min maxWordLen ftsMaxTermBytes + 1 - qt.term.length)).map fun _ =>
      ⟨ftsTermLenPrefix + ftsMaxTermBytes, ftsTermLenPrefix + qt.term.length⟩
  else []

namespace FtsConfig

variable (cfg : FtsConfig)

/-- The terms of a query: by `fts_parse_boolean` under `FT_BOOL`, else every token as a neutral term. -/
def termsOf (boolean : Bool) (query : Bytes) : List QueryTerm :=
  if boolean then cfg.ftsParseBoolean query
  else (cfg.ftsTokenize query).map fun w => ⟨w, ftsTermNeutral, false, false, []⟩

def searchCopies (boolean : Bool) (query : Bytes) : List Copy :=
  (cfg.termsOf boolean query).flatMap fun qt => qt.prefixCopy :: qt.seekCopies cfg.maxWordLen

variable {cfg}

theorem copies_fit_iff (qt : QueryTerm) :
    (∀ copy ∈ qt.prefixCopy :: qt.seekCopies cfg.maxWordLen, copy.Fits) ↔ qt.term.length ≤ ftsMaxTermBytes := by
  constructor
  · intro within
    exact Nat.le_of_add_le_add_left (within _ mem_cons_self)
  · intro short copy mem
    rcases mem_cons.mp mem with rfl | seek
    · exact Nat.add_le_add_left short _
    · unfold QueryTerm.seekCopies at seek
      split at seek
      · obtain ⟨tlen, -, rfl⟩ := mem_map.mp seek
        exact Nat.add_le_add_left short _
      · cases seek

end FtsConfig

end TidesdbMysql
