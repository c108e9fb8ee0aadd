import TidesdbMysql.Fts.Excluded

/-! The two scanners of the full-text code: the words of a document as `fts_tokenize` delimits them, and the
same words as `fts_parse_boolean` reads them in a query. -/
namespace TidesdbMysql

open Base (Bytes SortedMap consume Shrinks consume_eq consume_induction)
open List

variable {chars : List Bytes} {text term : Bytes}

def Sign (yesno : Int) : Prop := yesno = ftsTermRequired ∨ yesno = ftsTermExcluded ∨ yesno = ftsTermNeutral

def signText (yesno : Int) : Bytes :=
  if yesno = ftsTermRequired then [ftsBoolOpRequired]
  else if yesno = ftsTermExcluded then [ftsBoolOpExcluded] else []

namespace FtsConfig

variable (cfg : FtsConfig)

def readMaximal (text : Bytes) : Option (List (List Bytes) × Bytes) :=
  match skipGap cfg.toCharset cfg.tokenChar text with
  | [] => none
  | b :: rest =>
    let chars := wordChars cfg.toCharset cfg.tokenChar (b :: rest)
    some ([chars], (b :: rest).drop chars.flatten.length)

def maximalWords (text : Bytes) : List (List Bytes) := consume cfg.readMaximal text.length text

/-- What the plugin takes for granted of a character set: blanks, quotation marks, stars and signs
are bytes of their own and no letters, no character ends like a star, and its bytes tell its
length. -/
structure Lawful : Prop where
  plain : ∀ b ∈ [32, ftsBoolOpPhrase, ftsBoolOpTrunc, ftsBoolOpRequired, ftsBoolOpExcluded],
    cfg.isAlnum b = false ∧ ∀ rest, cfg.mbLen (b :: rest) = 0
  within : ∀ text after, cfg.mbLen (text ++ after) ≤ text.length → cfg.mbLen text = cfg.mbLen (text ++ after)
  trail : ∀ text, cfg.mbLen text ≠ 0 → (text.take (cfg.mbLen text)).getLast? ≠ some ftsBoolOpTrunc

variable {cfg}

theorem readMaximal_cases {text left : Bytes} {out : List (List Bytes)} (read : cfg.readMaximal text = some (out, left)) :
    ∃ b rest, skipGap cfg.toCharset cfg.tokenChar text = b :: rest ∧
      out = [wordChars cfg.toCharset cfg.tokenChar (b :: rest)] ∧
      left = (b :: rest).drop (wordChars cfg.toCharset cfg.tokenChar (b :: rest)).flatten.length := by
  unfold readMaximal at read
  split at read
  · cases read
  · rename_i b rest reached
    cases read
    exact ⟨b, rest, reached, rfl, rfl⟩

theorem readMaximal_shrinks : Shrinks cfg.readMaximal List.length := by
  intro text out left read
  obtain ⟨b, rest, reached, -, rfl⟩ := readMaximal_cases read
  exact length_behind_word reached

theorem ftsTokenize_eq (text : Bytes) : cfg.ftsTokenize text = (cfg.maximalWords text).flatMap cfg.emitWord := by
  apply consume_induction readMaximal_shrinks (motive := fun text words => cfg.ftsTokenize text = words.flatMap cfg.emitWord)
  · intro text stopped
    have nothing : cfg.readWord text = none := by
      cases reached : skipGap cfg.toCharset cfg.tokenChar text with
      | nil => simp only [readWord, reached]
      | cons b rest =>
        rw [readMaximal, reached] at stopped
        cases stopped
    rw [ftsTokenize, consume_eq readWord_shrinks, nothing]
    rfl
  · intro text out left words read further
    obtain ⟨b, rest, reached, rfl, rfl⟩ := readMaximal_cases read
    have token : cfg.readWord text = some (cfg.emitWord (wordChars cfg.toCharset cfg.tokenChar (b :: rest)),
        (b :: rest).drop (wordChars cfg.toCharset cfg.tokenChar (b :: rest)).flatten.length) := by
      unfold readWord
      simp only [reached]
    rw [singleton_append, flatMap_cons, ← further, ftsTokenize, consume_eq readWord_shrinks, token]
    rfl

theorem mem_maximalWords : ∀ chars ∈ cfg.maximalWords text,
    ∃ part, chars = wordChars cfg.toCharset cfg.tokenChar part ∧ chars ≠ [] := by
  apply consume_induction readMaximal_shrinks
    (motive := fun _ words => ∀ chars ∈ words, ∃ part, chars = wordChars cfg.toCharset cfg.tokenChar part ∧ chars ≠ [])
  · intro text stopped chars mem
    cases mem
  · intro text out left words read further chars mem
    obtain ⟨b, rest, reached, rfl, -⟩ := readMaximal_cases read
    rcases mem_cons.mp mem with rfl | later
    · refine ⟨_, rfl, ?_⟩
      intro nothing
      have passed := wordChars_passes (skipGap_starts reached)
      rw [nothing] at passed
      exact absurd passed (Nat.lt_irrefl 0)
    · exact further chars later

theorem queryChars_eq (lawful : cfg.Lawful) (text : Bytes)
    (unblended : cfg.containsBlend (wordChars cfg.toCharset cfg.tokenChar text) = false) :
    wordChars cfg.toCharset cfg.queryChar (wordChars cfg.toCharset cfg.tokenChar text).flatten =
      wordChars cfg.toCharset cfg.tokenChar text := by
  obtain ⟨after, -, spelled⟩ := wordChars_spelled cfg.toCharset cfg.tokenChar text
  refine spelled.reread lawful.within fun b mem => ?_
  have letter := any_eq_false.mp unblended _ mem
  simp only [Bool.not_eq_true', Bool.not_eq_false] at letter
  simp [queryChar, letter]

theorem mem_wordChars {cs : Charset} {single : UInt8 → Bool} : ∀ c ∈ wordChars cs single text,
    ∃ part, wordCharLen cs single part ≠ 0 ∧ c = part.take (wordCharLen cs single part) := by
  apply consume_induction readChar_shrinks (motive := fun _ chars => ∀ c ∈ chars,
    ∃ part, wordCharLen cs single part ≠ 0 ∧ c = part.take (wordCharLen cs single part))
  · intro text stopped c mem
    cases mem
  · intro text out left rest read further c mem
    obtain ⟨starts, rfl, -⟩ := readChar_cases read
    rcases mem_cons.mp mem with rfl | later
    · exact ⟨text, starts, rfl⟩
    · exact further c later

/- A letter is no operator of the query: it does not start like one, and does not end in a star. -/
structure Unsigned (text : Bytes) : Prop where
  starts : ∃ b rest, text = b :: rest ∧ b ∉ [32, ftsBoolOpPhrase, ftsBoolOpTrunc, ftsBoolOpRequired, ftsBoolOpExcluded]
  ends : text.getLast? ≠ some ftsBoolOpTrunc

theorem unsigned_of_letter (lawful : cfg.Lawful) {part : Bytes} (starts : wordCharLen cfg.toCharset cfg.tokenChar part ≠ 0)
    (letter : cfg.containsBlend [part.take (wordCharLen cfg.toCharset cfg.tokenChar part)] = false) :
    Unsigned (part.take (wordCharLen cfg.toCharset cfg.tokenChar part)) := by
  cases part with
  | nil => exact absurd rfl starts
  | cons b rest =>
    rw [wordCharLen] at starts letter ⊢
    split at starts
    · rename_i multi
      rw [if_pos multi]
      refine ⟨?_, lawful.trail _ multi⟩
      obtain ⟨n, counted⟩ := Nat.exists_eq_succ_of_ne_zero multi
      rw [counted, take_succ_cons]
      exact ⟨b, _, rfl, fun sign => multi ((lawful.plain b sign).2 rest)⟩
    · rename_i single
      rw [if_neg single] at letter ⊢
      split at starts
      · rename_i token
        rw [if_pos token] at letter ⊢
        have alnum : cfg.isAlnum b = true := by simpa [containsBlend] using letter
        have outside : b ∉ [32, ftsBoolOpPhrase, ftsBoolOpTrunc, ftsBoolOpRequired, ftsBoolOpExcluded] := by
          intro sign
          rw [(lawful.plain b sign).1] at alnum
          cases alnum
        refine ⟨⟨b, [], rfl, outside⟩, ?_⟩
        intro star
        obtain rfl : b = ftsBoolOpTrunc := Option.some.inj star
        exact outside (by simp)
      · exact absurd rfl starts

theorem unsigned_flatten (nonempty : chars ≠ []) (each : ∀ c ∈ chars, Unsigned c) : Unsigned chars.flatten := by
  constructor
  · cases chars with
    | nil => exact absurd rfl nonempty
    | cons c rest =>
      obtain ⟨b, more, rfl, outside⟩ := (each c mem_cons_self).starts
      exact ⟨b, more ++ rest.flatten, rfl, outside⟩
  · obtain ⟨init, last, rfl⟩ := eq_nil_or_concat chars |>.resolve_left nonempty
    rw [concat_eq_append] at each ⊢
    have unsigned := each last (by simp)
    obtain ⟨b, more, whole, -⟩ := unsigned.starts
    have ends := unsigned.ends
    rw [flatten_append, flatten_singleton, getLast?_append_of_ne_nil _ (by simp [whole])]
    exact ends

theorem skipBlanks_cons {b : UInt8} (no_blank : b ≠ 32) (text : Bytes) : skipBlanks (b :: text) = b :: text :=
  dropWhile_cons_of_neg (by simpa using no_blank)

theorem readSign_written {b : UInt8} {yesno : Int} (sign : Sign yesno) (plain : b ≠ 32 ∧ b ≠ ftsBoolOpRequired ∧ b ≠ ftsBoolOpExcluded)
    (text : Bytes) : readSign (skipBlanks (signText yesno ++ b :: text)) = (yesno, b :: text) := by
  obtain ⟨no_blank, no_plus, no_minus⟩ := plain
  rcases sign with rfl | rfl | rfl
  · rfl
  · rfl
  · show readSign (skipBlanks (b :: text)) = _
    rw [skipBlanks_cons no_blank, readSign, if_neg no_plus, if_neg no_minus]

theorem readItem_bare {b : UInt8} {yesno : Int} {query text : Bytes}
    (signed : readSign (skipBlanks query) = (yesno, b :: text)) (no_blank : b ≠ 32) (no_quote : b ≠ ftsBoolOpPhrase)
    (starts : skipGap cfg.toCharset cfg.queryChar (b :: text) = b :: text) :
    cfg.readItem query = some (cfg.wordItem yesno (wordChars cfg.toCharset cfg.queryChar (b :: text)).flatten,
        (b :: text).drop (wordChars cfg.toCharset cfg.queryChar (b :: text)).flatten.length) := by
  unfold readItem
  simp only [signed, skipBlanks_cons no_blank, if_neg no_quote, starts]

theorem queryItems_word (lawful : cfg.Lawful) (mem : chars ∈ cfg.maximalWords text)
    (unblended : cfg.containsBlend chars = false) {yesno : Int} (sign : Sign yesno) :
    cfg.queryItems (signText yesno ++ chars.flatten) = [.word yesno (cfg.casedn chars.flatten) false] := by
  obtain ⟨part, rfl, nonempty⟩ := mem_maximalWords chars mem
  have unsigned : Unsigned (wordChars cfg.toCharset cfg.tokenChar part).flatten := by
    apply unsigned_flatten nonempty
    intro c inside
    obtain ⟨there, starts, rfl⟩ := mem_wordChars c inside
    apply unsigned_of_letter lawful starts
    have whole := any_eq_false.mp unblended _ inside
    rw [containsBlend, any_cons, Bool.eq_false_of_not_eq_true whole]
    rfl
  have chars := queryChars_eq lawful part unblended
  obtain ⟨⟨b, rest, whole, outside⟩, ends⟩ := unsigned
  rw [whole] at chars ends ⊢
  simp only [mem_cons, not_mem_nil, or_false, not_or] at outside
  obtain ⟨no_blank, no_quote, -, no_plus, no_minus⟩ := outside
  have starts : skipGap cfg.toCharset cfg.queryChar (b :: rest) = b :: rest := by
    rw [skipGap, if_neg]
    intro stops
    rw [wordChars, consume_eq readChar_shrinks, readChar, if_pos stops] at chars
    exact nonempty chars.symm
  have read := readItem_bare (readSign_written sign ⟨no_blank, no_plus, no_minus⟩ rest) no_blank no_quote starts
  rw [chars, whole, drop_length] at read
  have item : cfg.wordItem yesno (b :: rest) = [.word yesno (cfg.casedn (b :: rest)) false] := by
    simp [wordItem, ends]
  rw [queryItems_eq, read, item]
  rfl

end FtsConfig

namespace Corpus

variable {cfg : FtsConfig} {key : Key} (c : Corpus cfg key)

def maximalWords (pk : Bytes) : List (List Bytes) :=
  match c.rows.lookup pk with
  | some record => cfg.maximalWords (ftsDocument key.parts record)
  | none => []

def AddsRequired (cfg : FtsConfig) (term query longer : Bytes) : Prop :=
  ∃ before after, cfg.queryItems query = before ++ after ∧
    cfg.queryItems longer = before ++ .word ftsTermRequired term false :: after

/-- Of the terms of the document, the query of the word comes across those the word has been indexed under. -/
structure LooksUp (pk : Bytes) (chars : List Bytes) : Prop where
  fit : Fit (cfg.ftsParseBoolean chars.flatten)
  terms : ∀ term ∈ c.terms pk, (∃ qt ∈ cfg.ftsParseBoolean chars.flatten, qt.Finds cfg.maxWordLen term) ↔
    ∃ w ∈ cfg.emitWord chars, w.take ftsMaxTermBytes = term

/-- A query of the word returns the document if it has keys; if none, requiring it takes no document
away. -/
structure Normalised (pk : Bytes) (chars : List Bytes) (query longer : Bytes) : Prop where
  keys : c.LooksUp pk chars
  returned : cfg.emitWord chars ≠ [] → c.Returned (cfg.ftsParseBoolean chars.flatten) pk
  kept : cfg.emitWord chars = [] → c.Returned (cfg.ftsParseBoolean query) pk → c.Returned (cfg.ftsParseBoolean longer) pk

/-- What has to hold of a word with blend characters, which the parser may read as several words, signs and
phrases. -/
structure ReadBack (pk : Bytes) (chars : List Bytes) : Prop where
  keys : c.LooksUp pk chars
  meets : cfg.emitWord chars ≠ [] → c.Meets (cfg.ftsParseBoolean chars.flatten) pk

variable {c}

theorem text_of_maximal {pk : Bytes} (occurs : chars ∈ c.maximalWords pk) : ∃ text, chars ∈ cfg.maximalWords text := by
  unfold maximalWords at occurs
  split at occurs
  · exact ⟨_, occurs⟩
  · cases occurs

theorem mem_words_of_maximal {pk : Bytes} (occurs : chars ∈ c.maximalWords pk) :
    ∀ w ∈ cfg.emitWord chars, w ∈ c.words pk := by
  intro w emitted
  unfold maximalWords at occurs
  split at occurs
  · rename_i record row
    rw [words_of_row (SortedMap.lookup_eq_some.mp row), ftsExtractAndTokenize, FtsConfig.ftsTokenize_eq]
    exact mem_flatMap.mpr ⟨chars, occurs, emitted⟩
  · cases occurs

/- One required word among the terms. -/

def requiredTerm (term : Bytes) : QueryTerm := ⟨term, ftsTermRequired, false, false, []⟩

theorem requiredTerm_required (term : Bytes) : 0 < (requiredTerm term).yesno := Int.one_pos

section Inserted

variable {before after : List QueryTerm} {term pk : Bytes}

theorem standing_insert (standing : c.Standing (before ++ after) pk) :
    c.Standing (before ++ requiredTerm term :: after) pk := by
  obtain ⟨front, qt, back, whole, included, found, later⟩ := standing
  rcases append_eq_append_iff.mp whole with ⟨gap, rfl, rfl⟩ | ⟨gap, rfl, behind⟩
  · exact ⟨before ++ requiredTerm term :: gap, qt, back, by simp, included, found, later⟩
  · cases gap with
    | nil => exact ⟨front ++ [requiredTerm term], qt, back, by simp_all, included, found, later⟩
    | cons first gap =>
      obtain ⟨rfl, rfl⟩ := cons.inj behind
      refine ⟨front, qt, gap ++ requiredTerm term :: after, by simp, included, found, ?_⟩
      intro x mem excluded
      rcases mem_append.mp mem with inside | there
      · exact later x (mem_append_left _ inside) excluded
      · rcases mem_cons.mp there with rfl | inside
        · exact absurd (requiredTerm_required term) (not_lt_of_gt excluded)
        · exact later x (mem_append_right _ inside) excluded

theorem inserted_perm : (before ++ requiredTerm term :: after).Perm (before ++ after ++ [requiredTerm term]) :=
  perm_middle.trans (perm_append_singleton _ _).symm

theorem numRequired_insert : numRequired (before ++ requiredTerm term :: after) = numRequired (before ++ after) + 1 := by
  rw [numRequired_perm inserted_perm, numRequired, filter_append, length_append]
  rfl

theorem tally_insert :
    c.tally (before ++ requiredTerm term :: after) pk = c.tally (before ++ after) pk + (c.terms pk).count term := by
  rw [tally_perm inserted_perm, tally_snoc, if_pos (requiredTerm_required term), countP_exact rfl]
  rfl

theorem meets_insert_iff (meets : c.Meets (before ++ after) pk) : c.Meets (before ++ requiredTerm term :: after) pk ↔
      term ∈ c.terms pk ∨ numRequired (before ++ after) < c.tally (before ++ after) pk := by
  have enough_iff : numRequired (before ++ requiredTerm term :: after) ≤ c.tally (before ++ requiredTerm term :: after) pk ↔
      term ∈ c.terms pk ∨ numRequired (before ++ after) < c.tally (before ++ after) pk := by
    have enough := meets.enough
    rw [numRequired_insert, tally_insert, ← count_pos_iff]
    omega
  rw [← enough_iff]
  constructor
  · intro longer
    exact longer.enough
  · intro enough
    refine ⟨standing_insert meets.standing, enough, ?_⟩
    intro qt mem phrase
    rcases mem_append.mp mem with inside | there
    · exact meets.phrases qt (mem_append_left _ inside) phrase
    · rcases mem_cons.mp there with rfl | inside
      · cases phrase
      · exact meets.phrases qt (mem_append_right _ inside) phrase

theorem fit_insert_iff : Fit (before ++ requiredTerm term :: after) ↔ Fit (before ++ after) ∧ term.length ≤ ftsMaxTermBytes := by
  unfold Fit
  rw [forall_mem_append, forall_mem_cons, forall_mem_append, and_left_comm, and_comm]
  rfl

end Inserted

theorem returned_longer_iff {term query longer pk : Bytes} (adds : AddsRequired cfg term query longer)
    (returned : c.Returned (cfg.ftsParseBoolean query) pk) :
    c.Returned (cfg.ftsParseBoolean longer) pk ↔ term.length ≤ ftsMaxTermBytes ∧
      (term ∈ c.terms pk ∨ numRequired (cfg.ftsParseBoolean query) < c.tally (cfg.ftsParseBoolean query) pk) := by
  obtain ⟨before, after, short, long⟩ := adds
  have short_terms : cfg.ftsParseBoolean query = queryTerms before ++ queryTerms after := by
    rw [FtsConfig.ftsParseBoolean, short, queryTerms, flatMap_append]
    rfl
  have long_terms : cfg.ftsParseBoolean longer = queryTerms before ++ requiredTerm term :: queryTerms after := by
    rw [FtsConfig.ftsParseBoolean, long, queryTerms, flatMap_append, flatMap_cons]
    rfl
  rw [short_terms] at returned ⊢
  obtain ⟨fit, meets⟩ := returned_iff.mp returned
  rw [long_terms, returned_iff, fit_insert_iff, meets_insert_iff meets, and_assoc]
  exact and_iff_right fit

/- A word without blend characters is one neutral term of its query. -/

section Unblended

variable {pk : Bytes} {chars : List Bytes}

theorem emitWord_unblended (unblended : cfg.containsBlend chars = false) (indexed : cfg.emitWord chars ≠ []) :
    cfg.emitWord chars = [cfg.casedn chars.flatten] := by
  rw [FtsConfig.emitWord, unblended, if_neg Bool.false_ne_true, append_nil] at indexed ⊢
  unfold FtsConfig.ftsEmitToken at indexed ⊢
  split at indexed
  · exact absurd rfl indexed
  · rename_i inside
    rw [if_neg inside]
    split at indexed
    · exact absurd rfl indexed
    · rename_i allowed
      rw [if_neg allowed]

theorem looksUp_neutral_iff (parsed : cfg.ftsParseBoolean chars.flatten = [⟨term, ftsTermNeutral, false, false, []⟩])
    (tokens : cfg.emitWord chars ≠ [] → cfg.emitWord chars = [term]) :
    c.LooksUp pk chars ↔ term.length ≤ ftsMaxTermBytes ∧ (cfg.emitWord chars = [] → term ∉ c.terms pk) := by
  have finds : ∀ other, (∃ qt ∈ cfg.ftsParseBoolean chars.flatten, qt.Finds cfg.maxWordLen other) ↔ other = term := by
    intro other
    rw [parsed]
    simp [QueryTerm.Finds, QueryTerm.Matches]
  constructor
  · intro looks
    have fit := looks.fit
    rw [parsed] at fit
    refine ⟨fit _ (mem_singleton_self _), fun unindexed there => ?_⟩
    obtain ⟨w, emitted, -⟩ := (looks.terms term there).mp ((finds term).mpr rfl)
    rw [unindexed] at emitted
    cases emitted
  · rintro ⟨short, absent⟩
    refine ⟨?_, ?_⟩
    · rw [parsed]
      intro qt mem
      rwa [mem_singleton.mp mem]
    · intro other there
      rw [finds]
      by_cases indexed : cfg.emitWord chars = []
      · rw [indexed]
        apply iff_of_false
        · rintro rfl
          exact absent indexed there
        · rintro ⟨w, emitted, -⟩
          cases emitted
      · rw [tokens indexed]
        simp [take_of_length_le short, eq_comm]

theorem returned_neutral (short : term.length ≤ ftsMaxTermBytes) (word : term ∈ c.words pk) :
    c.Returned [⟨term, ftsTermNeutral, false, false, []⟩] pk := by
  have indexed : term ∈ c.terms pk := mem_terms.mpr ⟨term, word, take_of_length_le short⟩
  have found : c.Found pk ⟨term, ftsTermNeutral, false, false, []⟩ :=
    ⟨term, indexed, (QueryTerm.finds_exact rfl _ _).mpr rfl⟩
  apply returned_iff.mpr
  refine ⟨?_, ⟨[], _, [], rfl, Int.le_refl 0, found, forall_mem_nil _⟩, Nat.zero_le _, ?_⟩
  · intro qt mem
    rwa [mem_singleton.mp mem]
  · intro qt mem phrase
    rw [mem_singleton.mp mem] at phrase
    cases phrase

end Unblended

/- Words of up to three lower-case letters. `of` is a stop word and the hyphen a blend character. -/
def hyphened : FtsConfig where
  mbLen _ := 0
  isAlnum b := decide (97 ≤ b ∧ b ≤ 122)
  casedn word := word
  mbLen_le _ := Nat.zero_le _
  mbLen_ne_one _ := Nat.zero_ne_one
  casedn_le _ := Nat.le_refl _
  minWordLen := 1
  maxWordLen := 3
  isStopword word := decide (word = [111, 102])
  blendMap b := decide (b = 45)

theorem hyphened_lawful : hyphened.Lawful where
  plain b sign := by
    simp only [mem_cons, not_mem_nil, or_false] at sign
    rcases sign with rfl | rfl | rfl | rfl | rfl <;> exact ⟨rfl, fun _ => rfl⟩
  within _ _ _ := rfl
  trail _ multi := absurd rfl multi

/- A hyphened word is read as a word and an excluded one, so that its query never returns the document. -/
example : hyphened.emitWord [[97], [45], [98]] = [[97, 45, 98], [97], [98]] ∧
    (single hyphened [97, 45, 98]).search (hyphened.ftsParseBoolean [97, 45, 98]) = some [] := by
  decide

end Corpus

end TidesdbMysql
