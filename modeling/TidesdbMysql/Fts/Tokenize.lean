import TidesdbMysql.Base.Consume
import TidesdbMysql.Table.Schema

/-! The words of a document: `fts_tokenize` and `fts_emit_token`. -/
namespace TidesdbMysql

open Base (Bytes consume Shrinks consume_eq consume_induction)
open List

/-- A `CHARSET_INFO`: `my_ismbchar` at the start of a text, `my_isalnum`, and `casedn`, in place. -/
structure Charset where
  mbLen : Bytes → Nat
  isAlnum : UInt8 → Bool
  casedn : Bytes → Bytes
  mbLen_le : ∀ text, mbLen text ≤ text.length
  mbLen_ne_one : ∀ text, mbLen text ≠ 1
  casedn_le : ∀ word, (casedn word).length ≤ word.length

structure FtsConfig extends Charset where
  minWordLen : Nat
  maxWordLen : Nat
  isStopword : Bytes → Bool
  blendMap : UInt8 → Bool

section Scan

variable (cs : Charset) (single : UInt8 → Bool)

/-- The bytes of the word character a text starts with; zero where none stands. -/
def wordCharLen : Bytes → Nat
  | [] => 0
  | b :: rest => if cs.mbLen (b :: rest) ≠ 0 then cs.mbLen (b :: rest) else if single b then 1 else 0

def skipGap : Bytes → Bytes
  | [] => []
  | b :: rest => if wordCharLen cs single (b :: rest) = 0 then skipGap rest else b :: rest

def readChar (text : Bytes) : Option (List Bytes × Bytes) :=
  if wordCharLen cs single text = 0 then none
  else some ([text.take (wordCharLen cs single text)], text.drop (wordCharLen cs single text))

def wordChars (text : Bytes) : List Bytes := consume (readChar cs single) text.length text

variable {cs single}

theorem wordCharLen_le (text : Bytes) : wordCharLen cs single text ≤ text.length := by
  cases text with
  | nil => exact Nat.le_refl 0
  | cons b rest =>
    rw [wordCharLen]
    split
    · exact cs.mbLen_le _
    · split
      · exact Nat.succ_le_succ (Nat.zero_le _)
      · exact Nat.zero_le _

theorem readChar_cases {text left : Bytes} {out : List Bytes} (read : readChar cs single text = some (out, left)) :
    wordCharLen cs single text ≠ 0 ∧ out = [text.take (wordCharLen cs single text)] ∧
      left = text.drop (wordCharLen cs single text) := by
  unfold readChar at read
  split at read
  · cases read
  · rename_i starts
    cases read
    exact ⟨starts, rfl, rfl⟩

theorem readChar_shrinks : Shrinks (readChar cs single) List.length := by
  intro text out left read
  obtain ⟨starts, -, rfl⟩ := readChar_cases read
  have inside : wordCharLen cs single text ≤ text.length := wordCharLen_le text
  rw [length_drop]
  omega

theorem readChar_stops {text : Bytes} (stopped : readChar cs single text = none) : wordCharLen cs single text = 0 := by
  unfold readChar at stopped
  split at stopped
  · assumption
  · cases stopped

variable (cs single) in
theorem wordChars_split (text : Bytes) :
    ∃ after, text = (wordChars cs single text).flatten ++ after ∧ wordCharLen cs single after = 0 := by
  apply consume_induction readChar_shrinks (motive := fun text chars =>
    ∃ after, text = chars.flatten ++ after ∧ wordCharLen cs single after = 0)
  · intro text stopped
    exact ⟨text, rfl, readChar_stops stopped⟩
  · intro text out left rest read further
    obtain ⟨-, rfl, rfl⟩ := readChar_cases read
    obtain ⟨after, whole, stops⟩ := further
    refine ⟨after, ?_, stops⟩
    rw [singleton_append, flatten_cons, append_assoc, ← whole, take_append_drop]

theorem wordChars_passes {text : Bytes} (starts : wordCharLen cs single text ≠ 0) :
    0 < (wordChars cs single text).flatten.length := by
  obtain ⟨after, whole, stops⟩ := wordChars_split cs single text
  apply length_pos_of_ne_nil
  intro nothing
  rw [nothing, nil_append] at whole
  rw [← whole] at stops
  exact starts stops

theorem length_skipGap_le (text : Bytes) : (skipGap cs single text).length ≤ text.length := by
  induction text with
  | nil => exact Nat.le_refl 0
  | cons b rest ih =>
    unfold skipGap
    split
    · exact Nat.le_succ_of_le ih
    · exact Nat.le_refl _

theorem skipGap_starts {text rest : Bytes} {b : UInt8} (reached : skipGap cs single text = b :: rest) :
    wordCharLen cs single (b :: rest) ≠ 0 := by
  induction text with
  | nil => cases reached
  | cons c more ih =>
    unfold skipGap at reached
    split at reached
    · exact ih reached
    · rwa [← reached]

theorem length_behind_word {text rest : Bytes} {b : UInt8} (reached : skipGap cs single text = b :: rest) :
    ((b :: rest).drop (wordChars cs single (b :: rest)).flatten.length).length < text.length := by
  have inside : (b :: rest).length ≤ text.length := reached ▸ length_skipGap_le text
  have passed := wordChars_passes (skipGap_starts reached)
  have here : 0 < (b :: rest).length := Nat.succ_pos _
  rw [length_drop]
  omega

/- Characters that stand in this order at the head of a text, with `after` behind them. -/
variable (cs single) in
def Spelled (after : Bytes) : List Bytes → Prop
  | [] => True
  | c :: rest => c ≠ [] ∧ wordCharLen cs single (c ++ rest.flatten ++ after) = c.length ∧ Spelled after rest

variable (cs single) in
theorem wordChars_spelled (text : Bytes) :
    ∃ after, text = (wordChars cs single text).flatten ++ after ∧ Spelled cs single after (wordChars cs single text) := by
  apply consume_induction readChar_shrinks (motive := fun text chars =>
    ∃ after, text = chars.flatten ++ after ∧ Spelled cs single after chars)
  · intro text stopped
    exact ⟨text, rfl, trivial⟩
  · intro text out left rest read further
    obtain ⟨starts, rfl, rfl⟩ := readChar_cases read
    obtain ⟨after, whole, spelled⟩ := further
    have taken : (text.take (wordCharLen cs single text)).length = wordCharLen cs single text :=
      length_take_of_le (wordCharLen_le text)
    have split : text.take (wordCharLen cs single text) ++ rest.flatten ++ after = text := by
      rw [append_assoc, ← whole, take_append_drop]
    rw [singleton_append]
    refine ⟨after, split.symm, ?_, ?_, spelled⟩
    · rw [← length_pos_iff, taken]
      exact Nat.pos_of_ne_zero starts
    · rw [split, taken]

namespace Spelled

variable {after : Bytes} {chars piece : List Bytes}

/- Read on its own, a spelled text has the same characters: what follows it does not tell their lengths. -/
theorem reread (within : ∀ text after, cs.mbLen (text ++ after) ≤ text.length → cs.mbLen text = cs.mbLen (text ++ after))
    {letter : UInt8 → Bool} (spelled : Spelled cs single after chars) (letters : ∀ b, [b] ∈ chars → letter b = true) :
    wordChars cs letter chars.flatten = chars := by
  induction chars with
  | nil => rfl
  | cons c rest ih =>
    obtain ⟨filled, length, further⟩ := spelled
    have same : wordCharLen cs letter (c ++ rest.flatten) = c.length := by
      cases c with
      | nil => exact absurd rfl filled
      | cons b more =>
        have known := within ((b :: more) ++ rest.flatten) after
        simp only [cons_append, wordCharLen] at length known ⊢
        split at length
        · rename_i multi
          have inside : (b :: more).length ≤ (b :: (more ++ rest.flatten)).length := by simp
          rw [known (length ▸ inside), if_pos multi, length]
        · rename_i alone
          rw [known (not_not.mp alone ▸ Nat.zero_le _), if_neg alone]
          split at length
          · obtain rfl : more = [] := length_eq_zero_iff.mp (Nat.succ.inj length).symm
            rw [if_pos (letters b mem_cons_self)]
            rfl
          · cases length
    have next : readChar cs letter (c ++ rest.flatten) = some ([c], rest.flatten) := by
      rw [readChar, same, if_neg (length_pos_iff.mpr filled).ne', take_left, drop_left]
    rw [flatten_cons, wordChars, consume_eq readChar_shrinks, next]
    exact congrArg (c :: ·) (ih further fun b mem => letters b (mem_cons_of_mem _ mem))

end Spelled

end Scan

namespace FtsConfig

variable (cfg : FtsConfig)

def ftsEmitToken (word : Bytes) (charCount : Nat) : List Bytes :=
  if charCount < cfg.minWordLen ∨ cfg.maxWordLen < charCount then []
  else if cfg.isStopword (cfg.casedn word) then [] else [cfg.casedn word]

def emitParts (word : Bytes) : List Bytes :=
  (word.splitOnP cfg.blendMap).flatMap fun part => if part = [] then [] else cfg.ftsEmitToken part part.length

def tokenChar (b : UInt8) : Bool := cfg.isAlnum b || cfg.blendMap b

def containsBlend (chars : List Bytes) : Bool :=
  chars.any fun c => match c with
    | [b] => !cfg.isAlnum b
    | _ => false

def emitWord (chars : List Bytes) : List Bytes :=
  cfg.ftsEmitToken chars.flatten chars.length ++ if cfg.containsBlend chars then cfg.emitParts chars.flatten else []

def readWord (text : Bytes) : Option (List Bytes × Bytes) :=
  match skipGap cfg.toCharset cfg.tokenChar text with
  | [] => none
  | b :: rest =>
    let chars := wordChars cfg.toCharset cfg.tokenChar (b :: rest)
    some (cfg.emitWord chars, (b :: rest).drop chars.flatten.length)

/-- `fts_tokenize`. -/
def ftsTokenize (text : Bytes) : List Bytes := consume cfg.readWord text.length text

variable {cfg}

theorem readWord_cases {text left : Bytes} {out : List Bytes} (read : cfg.readWord text = some (out, left)) :
    ∃ b rest, skipGap cfg.toCharset cfg.tokenChar text = b :: rest ∧
      out = cfg.emitWord (wordChars cfg.toCharset cfg.tokenChar (b :: rest)) ∧
      left = (b :: rest).drop (wordChars cfg.toCharset cfg.tokenChar (b :: rest)).flatten.length := by
  unfold readWord at read
  split at read
  · cases read
  · rename_i b rest reached
    cases read
    exact ⟨b, rest, reached, rfl, rfl⟩

theorem readWord_shrinks : Shrinks cfg.readWord List.length := by
  intro text out left read
  obtain ⟨b, rest, reached, -, rfl⟩ := readWord_cases read
  exact length_behind_word reached

end FtsConfig

end TidesdbMysql
