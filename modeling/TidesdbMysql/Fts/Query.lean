import TidesdbMysql.Fts.Search
import TidesdbMysql.Fts.Tokenize

/-! The query of a full-text search: `fts_parse_boolean` reads one word or phrase after another, and
`fts_phrase_in_tokens` looks for a phrase in the words of a document. -/
namespace TidesdbMysql

open Base (Bytes consume Shrinks consume_eq)
open List

def ftsTermRequired : Int := 1
def ftsTermExcluded : Int := -1
def ftsTermNeutral : Int := 0

/- `+`, `-`, the quotation mark and `*`. -/
def ftsBoolOpRequired : UInt8 := 43
def ftsBoolOpExcluded : UInt8 := 45
def ftsBoolOpPhrase : UInt8 := 34
def ftsBoolOpTrunc : UInt8 := 42

inductive QueryItem where
  | word (yesno : Int) (term : Bytes) (trunc : Bool)
  | phrase (yesno : Int) (first : Bytes) (others : List Bytes)
deriving DecidableEq

def QueryItem.yesno : QueryItem → Int
  | .word yesno _ _ => yesno
  | .phrase yesno _ _ => yesno

/-- The terms of an item: the first word of a phrase has its sign, the others are required whatever
it is. -/
def QueryItem.terms : QueryItem → List QueryTerm
  | .word yesno term trunc => [⟨term, yesno, trunc, false, []⟩]
  | .phrase yesno first others =>
    ⟨first, if yesno ≠ 0 then yesno else ftsTermRequired, false, true, first :: others⟩ ::
      others.map fun w => ⟨w, ftsTermRequired, false, false, []⟩

def queryTerms (items : List QueryItem) : List QueryTerm := items.flatMap QueryItem.terms

def readSign : Bytes → Int × Bytes
  | [] => (ftsTermNeutral, [])
  | b :: rest =>
    if b = ftsBoolOpRequired then (ftsTermRequired, rest)
    else if b = ftsBoolOpExcluded then (ftsTermExcluded, rest)
    else (ftsTermNeutral, b :: rest)

def skipBlanks (text : Bytes) : Bytes := text.dropWhile fun b => b = 32

namespace FtsConfig

variable (cfg : FtsConfig)

def phraseItem (yesno : Int) (quoted : Bytes) : List QueryItem :=
  match cfg.ftsTokenize quoted with
  | [] => []
  | first :: others => [.phrase yesno first others]

def wordItem (yesno : Int) (word : Bytes) : List QueryItem :=
  let trunc := word.getLast? = some ftsBoolOpTrunc
  let stem := if trunc then word.dropLast else word
  if stem = [] then [] else [.word yesno (cfg.casedn stem) trunc]

def queryChar (b : UInt8) : Bool := cfg.isAlnum b || b == ftsBoolOpTrunc

def readItem (query : Bytes) : Option (List QueryItem × Bytes) :=
  let (yesno, behind) := readSign (skipBlanks query)
  match skipBlanks behind with
  | [] => none
  | b :: rest =>
    if b = ftsBoolOpPhrase then
      some (cfg.phraseItem yesno (rest.takeWhile fun c => c ≠ ftsBoolOpPhrase),
        (rest.dropWhile fun c => c ≠ ftsBoolOpPhrase).drop 1)
    else
      match skipGap cfg.toCharset cfg.queryChar (b :: rest) with
      | [] => none
      | c :: more =>
        let word := (wordChars cfg.toCharset cfg.queryChar (c :: more)).flatten
        some (cfg.wordItem yesno word, (c :: more).drop word.length)

def queryItems (query : Bytes) : List QueryItem := consume cfg.readItem query.length query

/-- `fts_parse_boolean`. -/
def ftsParseBoolean (query : Bytes) : List QueryTerm := queryTerms (cfg.queryItems query)

variable {cfg}

theorem length_skipBlanks_le (text : Bytes) : (skipBlanks text).length ≤ text.length :=
  (dropWhile_suffix _).length_le

theorem length_readSign_le (text : Bytes) : (readSign text).2.length ≤ text.length := by
  cases text with
  | nil => exact Nat.le_refl 0
  | cons b rest =>
    rw [readSign]
    split
    · exact Nat.le_succ _
    · split
      · exact Nat.le_succ _
      · exact Nat.le_refl _

theorem readItem_cases {query left : Bytes} {out : List QueryItem} (read : cfg.readItem query = some (out, left)) :
    left.length < query.length ∧ ∃ yesno text, text.length ≤ query.length ∧
      (out = cfg.phraseItem yesno text ∨ out = cfg.wordItem yesno text) := by
  have signed : (skipBlanks (readSign (skipBlanks query)).2).length ≤ query.length :=
    (length_skipBlanks_le _).trans ((length_readSign_le _).trans (length_skipBlanks_le query))
  unfold readItem at read
  dsimp only at read
  split at read
  · cases read
  · rename_i b rest reached
    rw [reached] at signed
    split at read
    · cases read
      have behind := (dropWhile_suffix (fun c => decide (c ≠ ftsBoolOpPhrase)) (l := rest)).length_le
      have quoted := ( takeWhile_prefix (fun c => decide (c ≠ ftsBoolOpPhrase)) (l := rest)).length_le
      rw [length_cons] at signed
      refine ⟨?_, _, _, ?_, .inl rfl⟩
      · rw [length_drop]
        omega
      · omega
    · split at read
      · cases read
      · rename_i c more found
        cases read
        obtain ⟨after, whole, -⟩ := wordChars_split cfg.toCharset cfg.queryChar (c :: more)
        have reached_len : (c :: more).length ≤ (b :: rest).length := found ▸ length_skipGap_le (b :: rest)
        rw [whole, length_append] at reached_len
        exact ⟨(length_behind_word found).trans_le signed, _, _, by omega, .inr rfl⟩

theorem readItem_shrinks : Shrinks cfg.readItem List.length :=
  fun _ _ _ read => (readItem_cases read).1

theorem queryItems_eq (query : Bytes) : cfg.queryItems query = match cfg.readItem query with
      | none => [] | some (items, left) => items ++ cfg.queryItems left := by
  rw [queryItems, consume_eq readItem_shrinks]
  cases cfg.readItem query <;> rfl

end FtsConfig

/-- `fts_phrase_in_tokens`. -/
def ftsPhraseInTokens (docTokens phraseWords : List Bytes) : Bool :=
  if phraseWords = [] then true
  else if docTokens.length < phraseWords.length then false
  else (List.range (docTokens.length - phraseWords.length + 1)).any fun i =>
    (List.range phraseWords.length).all fun j => docTokens[i + j]? == phraseWords[j]?

theorem phrase_at_iff {docTokens phraseWords : List Bytes} (i : Nat) :
    ((List.range phraseWords.length).all fun j => docTokens[i + j]? == phraseWords[j]?) = true ↔
      (docTokens.drop i).take phraseWords.length = phraseWords := by
  rw [all_eq_true]
  constructor
  · intro agree
    apply ext_getElem?
    intro j
    by_cases low : j < phraseWords.length
    · rw [getElem?_take_of_lt low, getElem?_drop]
      exact beq_iff_eq.mp (agree j (mem_range.mpr low))
    · rw [getElem?_eq_none (Nat.not_lt.mp low), getElem?_eq_none]
      exact (length_take_le _ _).trans (Nat.not_lt.mp low)
  · intro same j low
    rw [beq_iff_eq, ← getElem?_drop, ← getElem?_take_of_lt (mem_range.mp low), same]

theorem ftsPhraseInTokens_iff {docTokens phraseWords : List Bytes} :
    ftsPhraseInTokens docTokens phraseWords = true ↔ phraseWords <:+: docTokens := by
  unfold ftsPhraseInTokens
  split
  · rename_i empty
    subst empty
    exact iff_of_true rfl nil_infix
  · split
    · rename_i short
      refine iff_of_false Bool.false_ne_true fun found => ?_
      exact absurd found.length_le (Nat.not_le.mpr short)
    · rw [any_eq_true]
      constructor
      · rintro ⟨i, -, here⟩
        rw [← (phrase_at_iff i).mp here]
        exact ( take_prefix _ _).isInfix.trans (drop_suffix _ _).isInfix
      · rintro ⟨before, after, rfl⟩
        refine ⟨before.length, ?_, (phrase_at_iff before.length).mpr ?_⟩
        · rw [mem_range]
          simp only [length_append]
          omega
        · rw [append_assoc, drop_left, take_left]

end TidesdbMysql
