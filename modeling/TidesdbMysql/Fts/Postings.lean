import TidesdbMysql.Base.Counts
import TidesdbMysql.Fts.Corpus
import TidesdbMysql.Fts.Query

/-! What the postings of a query term say of the documents. -/
namespace TidesdbMysql

open Base (Bytes SortedMap Starts leBytes)
open List Base.SortedMap

variable {term : Bytes}

section
variable (maxWordLen : Nat) (qt : QueryTerm) (term : Bytes)

def QueryTerm.Matches : Prop :=
  if qt.trunc then qt.term <+: term else term = qt.term
  deriving Decidable

/-- The search comes across the indexed term: a truncated one looks no further than `max_word_len` bytes. -/
def QueryTerm.Finds : Prop :=
  qt.Matches term ∧ (qt.trunc = true → term.length ≤ maxWordLen)
  deriving Decidable

end

theorem QueryTerm.finds_exact {qt : QueryTerm} (exact : qt.trunc = false) (maxWordLen : Nat) (term : Bytes) :
    qt.Finds maxWordLen term ↔ term = qt.term := by
  simp [Finds, Matches, exact]

theorem QueryTerm.finds_trunc {qt : QueryTerm} (trunc : qt.trunc = true) (maxWordLen : Nat) (term : Bytes) :
    qt.Finds maxWordLen term ↔ qt.term <+: term ∧ term.length ≤ maxWordLen := by
  simp [Finds, Matches, trunc]

namespace Corpus

variable {cfg : FtsConfig} {key : Key} {c : Corpus cfg key}

variable {tlen : Nat} {word : Bytes} {r : PostingRange} {qt : QueryTerm}

/- A key starts with a length and a word just when its term has the length and starts with the word. -/
theorem starts_postingKey {term pk word : Bytes} (short : term.length ≤ ftsMaxTermBytes)
    (bound : tlen ≤ ftsMaxTermBytes) (fits : word.length ≤ tlen) :
    leBytes 2 tlen ++ word <+: postingKey term pk ↔ term.length = tlen ∧ word <+: term := by
  constructor
  · rintro ⟨after, whole⟩
    rw [append_assoc] at whole
    obtain ⟨lengths, rest⟩ := append_inj whole (by simp [ftsTermLenPrefix])
    have same : tlen = term.length := by
      apply Base.leBytes_injective _ _ lengths
      · exact bound.trans_lt (by decide)
      · exact short.trans_lt (by decide)
    refine ⟨same.symm, ?_⟩
    exact prefix_of_prefix_length_le ⟨after, rest⟩ (prefix_append term pk) (same ▸ fits)
  · rintro ⟨rfl, starts⟩
    exact (prefix_append_right_inj _).mpr (starts.trans (prefix_append _ _))

theorem drop_postingKey (term pk : Bytes) : (postingKey term pk).drop (ftsTermLenPrefix + term.length) = pk := by
  rw [postingKey, ← append_assoc]
  apply drop_left'
  rw [length_append, Base.leBytes_length]

theorem length_postingKey (term pk : Bytes) :
    (postingKey term pk).length = ftsTermLenPrefix + term.length + pk.length := by
  rw [postingKey, length_append, length_append, Base.leBytes_length, Nat.add_assoc]

structure Buckets (c : Corpus cfg key) (word : Bytes) (tlen : Nat) (r : PostingRange) : Prop where
  start : r.start = leBytes 2 tlen ++ word
  pkOff : r.pkOff = ftsTermLenPrefix + tlen
  inside : ∀ k, c.postings.HasKey k → r.inside k = decide (r.start <+: k)
  skip : ∀ k, c.postings.HasKey k → r.start <+: k → r.skip k = false

theorem Buckets.postings_eq (range : Buckets c word tlen r) :
    r.postings c.postings = (c.postings.entries.filter (Starts r.start)).map fun e => e.1.drop r.pkOff := by
  have within : (c.postings.seek r.start).takeWhile (fun e => r.inside e.1) =
      c.postings.entries.filter (Starts r.start) := by
    rw [← Base.seek_takeWhile_starts]
    apply Base.takeWhile_congr
    intro e mem
    exact range.inside e.1 ⟨e, (mem_seek.mp mem).1, rfl⟩
  rw [PostingRange.postings, within, map_eq_flatMap]
  apply flatMap_congr
  intro e mem
  obtain ⟨entry, starts⟩ := mem_filter.mp mem
  rw [PostingRange.posting, range.skip e.1 ⟨e, entry, rfl⟩ (of_decide_eq_true starts), if_pos (c.valued e.1 e.2 entry)]
  rfl

/- The terms of one length that start with the word, and the keys a document has for them. -/

def inBucket (word : Bytes) (tlen : Nat) (term : Bytes) : Bool :=
  decide (term.length = tlen) && decide (word <+: term)

theorem inBucket_iff : inBucket word tlen term = true ↔ term.length = tlen ∧ word <+: term := by
  rw [inBucket, Bool.and_eq_true, decide_eq_true_eq, decide_eq_true_eq]

theorem bucket_keys_nodup (word : Bytes) (tlen : Nat) (pk : Bytes) :
    (((c.terms pk).filter (inBucket word tlen)).map (postingKey · pk)).Nodup := by
  apply ((nodup_dedup _).filter _).map_on
  intro t ht u hu same
  have lt : t.length = tlen := (inBucket_iff.mp (mem_filter.mp ht).2).1
  have lu : u.length = tlen := (inBucket_iff.mp (mem_filter.mp hu).2).1
  rw [postingKey, postingKey, lt, lu] at same
  exact append_cancel_right (append_cancel_left same)

section
variable (range : Buckets c word tlen r) (bound : tlen ≤ ftsMaxTermBytes) (fits : word.length ≤ tlen) (pk k : Bytes)
include range bound fits

theorem Buckets.keys : k ∈ ((c.terms pk).filter (inBucket word tlen)).map (postingKey · pk) ↔
      c.postings.HasKey k ∧ (k.drop r.pkOff == pk && decide (r.start <+: k)) = true := by
  have own : ∀ {term other}, term ∈ c.terms other →
      (r.start <+: postingKey term other ↔ inBucket word tlen term = true) := by
    intro term other indexed
    rw [range.start, starts_postingKey (length_of_term indexed) bound fits, inBucket_iff]
  have behind : ∀ {term other}, inBucket word tlen term = true → (postingKey term other).drop r.pkOff = other := by
    intro term other inside
    rw [range.pkOff, ← (inBucket_iff.mp inside).1, drop_postingKey]
  rw [mem_map, hasKey_postings, Bool.and_eq_true, beq_iff_eq, decide_eq_true_eq]
  constructor
  · rintro ⟨term, mem, rfl⟩
    obtain ⟨indexed, inside⟩ := mem_filter.mp mem
    exact ⟨⟨pk, term, indexed, rfl⟩, behind inside, (own indexed).mpr inside⟩
  · rintro ⟨⟨other, term, indexed, rfl⟩, there, starts⟩
    have inside := (own indexed).mp starts
    rw [behind inside] at there
    subst there
    exact ⟨term, mem_filter.mpr ⟨indexed, inside⟩, rfl⟩

theorem Buckets.count : (r.postings c.postings).count pk = (c.terms pk).countP (inBucket word tlen) := by
  have counted := countP_entries (bucket_keys_nodup word tlen pk) (range.keys bound fits pk)
  rw [length_map, ← countP_eq_length_filter] at counted
  rw [range.postings_eq, count_eq_countP, countP_map, countP_filter]
  exact counted

end

theorem exactRange_buckets : Buckets c term term.length (exactRange term) where
  start := rfl
  pkOff := rfl
  inside _ _ := rfl
  skip _ _ _ := rfl

theorem bucketRange_buckets (bound : tlen ≤ ftsMaxTermBytes) (fits : word.length ≤ tlen) :
    Buckets c word tlen (bucketRange word tlen) where
  start := rfl
  pkOff := rfl
  inside k posted := by
    obtain ⟨pk, term, indexed, rfl⟩ := hasKey_postings.mp posted
    apply Bool.and_eq_left_iff_imp.mpr
    intro starts
    have same := (starts_postingKey (length_of_term indexed) bound fits).mp (of_decide_eq_true starts)
    apply decide_eq_true
    rw [length_postingKey, same.1]
    exact Nat.le_add_right _ _
  skip k posted starts := by
    obtain ⟨pk, term, indexed, rfl⟩ := hasKey_postings.mp posted
    have same := (starts_postingKey (length_of_term indexed) bound fits).mp starts
    have behind := length_pos_of_ne_nil (keyed_of_term indexed)
    apply decide_eq_false
    rw [length_postingKey, same.1]
    omega

theorem count_postings (fits : qt.term.length ≤ ftsMaxTermBytes) (pk : Bytes) :
    (qt.postings cfg.maxWordLen c.postings).count pk =
      (c.terms pk).countP fun term => decide (qt.Finds cfg.maxWordLen term) := by
  unfold QueryTerm.postings QueryTerm.ranges
  cases trunc : qt.trunc with
  | false =>
    rw [if_neg Bool.false_ne_true, flatMap_singleton, exactRange_buckets.count fits (Nat.le_refl _)]
    apply countP_congr
    intro term indexed
    rw [inBucket_iff, decide_eq_true_eq, QueryTerm.finds_exact trunc]
    constructor
    · rintro ⟨lengths, starts⟩
      exact (starts.eq_of_length lengths.symm).symm
    · rintro rfl
      exact ⟨rfl, prefix_refl _⟩
  | true =>
    rw [if_pos rfl, flatMap_map, count_flatMap]
    have each : ∀ tlen ∈ range' qt.term.length (min cfg.maxWordLen ftsMaxTermBytes + 1 - qt.term.length),
        ((bucketRange qt.term tlen).postings c.postings).count pk = (c.terms pk).countP (inBucket qt.term tlen) := by
      intro tlen mem
      rw [mem_range'_1] at mem
      have bound : tlen ≤ ftsMaxTermBytes := by omega
      exact (bucketRange_buckets bound mem.1).count bound mem.1 pk
    apply (congrArg sum (map_congr_left each)).trans
    apply (Base.sum_countP_buckets (c.terms pk) (fun term => decide (qt.term <+: term)) length _ _).trans
    apply countP_congr
    intro term indexed
    have short := length_of_term indexed
    rw [Bool.and_eq_true, decide_eq_true_eq, decide_eq_true_eq, decide_eq_true_eq, QueryTerm.finds_trunc trunc]
    constructor
    · rintro ⟨between, starts⟩
      exact ⟨starts, by omega⟩
    · rintro ⟨starts, low⟩
      have least := starts.length_le
      exact ⟨by omega, starts⟩

theorem mem_postings (fits : qt.term.length ≤ ftsMaxTermBytes) {pk : Bytes} :
    pk ∈ qt.postings cfg.maxWordLen c.postings ↔ ∃ term ∈ c.terms pk, qt.Finds cfg.maxWordLen term := by
  rw [← count_pos_iff, count_postings fits, countP_pos_iff]
  simp only [decide_eq_true_eq]

/-- After every run of row functions that keeps the indexes exact, the postings of a word are those of the rows with
the word in their text. -/
theorem word_found_after_run {T : Schema} {i : Nat} (at_i : T.indexes[i]? = some ⟨key, .fulltext cfg.ftsTokenize⟩)
    {calls : List Dml}
    (along : Base.Along (dmlStep T) (fun s call => Positioned s call ∧ Traceable T s call) Table.empty calls)
    (exact : qt.trunc = false) (fits : qt.term.length ≤ ftsMaxTermBytes) (pk : Bytes) :
    pk ∈ qt.postings cfg.maxWordLen ((Base.run (dmlStep T) Table.empty calls).index i) ↔
      ∃ record, (Base.run (dmlStep T) Table.empty calls).rows.Has pk record ∧
        ∃ w ∈ ftsExtractAndTokenize cfg.ftsTokenize key record, w.take ftsMaxTermBytes = qt.term := by
  obtain ⟨c, rows, postings⟩ := corpus_along at_i along
  rw [← rows, ← postings, mem_postings fits]
  simp only [QueryTerm.finds_exact exact, exists_eq_right, mem_terms]
  constructor
  · rintro ⟨w, word, same⟩
    obtain ⟨record, row⟩ := row_of_word word
    exact ⟨record, row, w, words_of_row row ▸ word, same⟩
  · rintro ⟨record, row, w, word, same⟩
    exact ⟨w, words_of_row row ▸ word, same⟩

variable (c) in
/-- The postings `ft_init_ext` collects for a term when no call fails. A longer term is copied past the end
of `prefix`. -/
def collected (qt : QueryTerm) : Option (List Bytes) :=
  if qt.term.length ≤ ftsMaxTermBytes then
    some ((Reader.termPostings cfg.maxWordLen (c.postings.size + 1) qt).quiet (readService c.postings c.rows) none).1
  else none

theorem collected_eq (fits : qt.term.length ≤ ftsMaxTermBytes) :
    c.collected qt = some (qt.postings cfg.maxWordLen c.postings) := by
  rw [collected, if_pos fits]
  exact congrArg some (Reader.quiet_gatherRanges (qt.ranges cfg.maxWordLen) none)

theorem mem_truncated (fits : word.length ≤ ftsMaxTermBytes) (yesno : Int) (pk : Bytes) :
    pk ∈ QueryTerm.postings cfg.maxWordLen c.postings ⟨word, yesno, true, false, []⟩ ↔
      ∃ term ∈ c.terms pk, word <+: term ∧ term.length ≤ cfg.maxWordLen := by
  have finds : ∀ term, QueryTerm.Finds cfg.maxWordLen ⟨word, yesno, true, false, []⟩ term ↔
      word <+: term ∧ term.length ≤ cfg.maxWordLen := QueryTerm.finds_trunc rfl _
  rw [mem_postings fits]
  simp only [finds]

/-- A truncated term collects the documents just when each has a term of at most `max_word_len`
bytes that starts with it. -/
theorem prefix_search_complete_iff (c : Corpus cfg key) (word : Bytes) (yesno : Int) :
    (∃ postings, c.collected ⟨word, yesno, true, false, []⟩ = some postings ∧
        ∀ pk, pk ∈ postings ↔ ∃ term ∈ c.terms pk, word <+: term) ↔
      word.length ≤ ftsMaxTermBytes ∧ ∀ pk, (∃ term ∈ c.terms pk, word <+: term) →
        ∃ term ∈ c.terms pk, word <+: term ∧ term.length ≤ cfg.maxWordLen := by
  by_cases fits : word.length ≤ ftsMaxTermBytes
  · constructor
    · rintro ⟨postings, collected, exactly⟩
      cases (collected_eq fits).symm.trans collected
      refine ⟨fits, fun pk matching => ?_⟩
      exact (mem_truncated fits yesno pk).mp ((exactly pk).mpr matching)
    · rintro ⟨-, short⟩
      refine ⟨_, collected_eq fits, fun pk => ?_⟩
      rw [mem_truncated fits]
      constructor
      · rintro ⟨term, indexed, starts, -⟩
        exact ⟨term, indexed, starts⟩
      · exact short pk
  · apply iff_of_false
    · rintro ⟨postings, collected, -⟩
      rw [Corpus.collected, if_neg fits] at collected
      cases collected
    · exact fun holds => fits holds.1

/- Characters of one byte, the lower-case letters among them, and of two bytes from 192 on. -/
def twoByte : Charset where
  mbLen
    | b :: _ :: _ => if 192 ≤ b then 2 else 0
    | _ => 0
  isAlnum b := decide (97 ≤ b ∧ b ≤ 122)
  casedn := id
  mbLen_le text := by
    split
    · split
      · exact Nat.succ_le_succ (Nat.succ_le_succ (Nat.zero_le _))
      · exact Nat.zero_le _
    · exact Nat.zero_le _
  mbLen_ne_one text := by
    split
    · split <;> decide
    · decide
  casedn_le _ := Nat.le_refl _

def threeChars : FtsConfig := ⟨twoByte, 1, 3, fun _ => false, fun _ => false⟩

theorem keyed_put (pk : Bytes) (record : Record) (nonempty : pk ≠ []) :
    ∀ k, (SortedMap.empty.put pk record).HasKey k → k ≠ [] := by
  intro k stored
  rcases hasKey_put.mp stored with rfl | before
  · exact nonempty
  · simp [hasKey_iff] at before

def single (cfg : FtsConfig) (body : Bytes) : Corpus cfg (byteKey 1) :=
  .of cfg (byteKey 1) (SortedMap.empty.put [1] [some [1], some body]) (keyed_put [1] _ (List.cons_ne_nil _ _))

/- A row with the word "a" is written. -/
theorem written_word_found : [1] ∈ QueryTerm.postings threeChars.maxWordLen ((Base.run (dmlStep ⟨some (byteKey 0),
      [⟨byteKey 1, .fulltext threeChars.ftsTokenize⟩], none⟩) Table.empty
      [.write (fun _ => none) (insertOf [some [1], some [97]])]).index 0) ⟨[97], 0, false, false, []⟩ := by
  refine (word_found_after_run rfl ?_ rfl ?_ [1]).mpr ⟨[some [1], some [97]], ?_, [97], ?_⟩ <;> decide

/-- A word of two characters in four bytes is indexed, and no search for its first character finds it. -/
theorem wide_words_missed : ¬ ∀ (cfg : FtsConfig) (key : Key) (c : Corpus cfg key) (word : Bytes) (yesno : Int),
      ∃ postings, c.collected ⟨word, yesno, true, false, []⟩ = some postings ∧
        ∀ pk, pk ∈ postings ↔ ∃ term ∈ c.terms pk, word <+: term := by
  intro claim
  obtain ⟨postings, collected, exactly⟩ :=
    claim threeChars (byteKey 1) (single threeChars [195, 169, 195, 169]) [195, 169] 0
  have nothing : (single threeChars [195, 169, 195, 169]).collected ⟨[195, 169], 0, true, false, []⟩ = some [] := by
    decide
  have there : ∃ term ∈ (single threeChars [195, 169, 195, 169]).terms [1], [195, 169] <+: term := by
    decide
  cases nothing.symm.trans collected
  cases (exactly [1]).mpr there

end Corpus

end TidesdbMysql
