import Mathlib.Data.List.Induction
import TidesdbMysql.Fts.Postings

/-! Which documents a search returns. The scores are gathered term by term: an excluded term takes a
document out, any other brings it in, and the hits of the required terms are counted in one tally. -/
namespace TidesdbMysql

open Base (Bytes SortedMap)
open List

namespace Scores

/- What the postings of one term do to the scores. -/

theorem post_nodup {scores : Scores} (distinct : scores.docs.Nodup) (yesno : Int) (postings : List Bytes) :
    (postings.foldl (post yesno) scores).docs.Nodup := by
  induction postings generalizing scores with
  | nil => exact distinct
  | cons pk rest ih =>
    apply ih
    unfold post
    split
    · exact distinct.erase pk
    · exact distinct.insert

theorem mem_post_excluded {scores : Scores} (distinct : scores.docs.Nodup) {yesno : Int} (excluded : yesno < 0)
    (postings : List Bytes) (pk : Bytes) :
    pk ∈ (postings.foldl (post yesno) scores).docs ↔ pk ∈ scores.docs ∧ pk ∉ postings := by
  induction postings generalizing scores with
  | nil => simp
  | cons first rest ih =>
    have step : (post yesno scores first).docs = scores.docs.erase first := by rw [post, if_pos excluded]
    have still : (post yesno scores first).docs.Nodup := step ▸ distinct.erase first
    rw [foldl_cons, ih still, step, distinct.mem_erase_iff, mem_cons, not_or, and_comm (a := pk ≠ first), and_assoc]

theorem mem_post_included (scores : Scores) {yesno : Int} (included : ¬ yesno < 0) (postings : List Bytes) (pk : Bytes) :
    pk ∈ (postings.foldl (post yesno) scores).docs ↔ pk ∈ scores.docs ∨ pk ∈ postings := by
  induction postings generalizing scores with
  | nil => simp
  | cons first rest ih =>
    have step : (post yesno scores first).docs = scores.docs.insert first := by rw [post, if_neg included]
    rw [foldl_cons, ih, step, mem_insert_iff, mem_cons, or_comm (a := pk = first), or_assoc]

theorem count_post (scores : Scores) (yesno : Int) (postings : List Bytes) (pk : Bytes) :
    (postings.foldl (post yesno) scores).hits.count pk =
      scores.hits.count pk + if 0 < yesno then postings.count pk else 0 := by
  induction postings generalizing scores with
  | nil => simp
  | cons first rest ih =>
    rw [foldl_cons, ih]
    unfold post
    split
    · rw [if_neg (by omega), if_neg (by omega)]
    · split
      · rw [count_cons, count_cons]
        omega
      · rfl

end Scores

namespace Corpus

variable {cfg : FtsConfig} {key : Key} (c : Corpus cfg key)

def phraseIn (cfg : FtsConfig) (key : Key) (phraseWords : List Bytes) (record : Record) : Bool :=
  ftsPhraseInTokens (ftsExtractAndTokenize cfg.ftsTokenize key record) phraseWords

/- The terms fit into `prefix`. -/
def Fit (terms : List QueryTerm) : Prop := ∀ qt ∈ terms, qt.term.length ≤ ftsMaxTermBytes
  deriving Decidable

/-- The documents `ft_init_ext` settles on when no call fails. -/
def search (terms : List QueryTerm) : Option (List Bytes) :=
  if Fit terms then
    some ((Reader.ftInitExt cfg.maxWordLen (phraseIn cfg key) (c.postings.size + 1) terms).quiet
      (readService c.postings c.rows) none).1
  else none

def Found (pk : Bytes) (qt : QueryTerm) : Prop := ∃ term ∈ c.terms pk, qt.Finds cfg.maxWordLen term

section
variable (terms : List QueryTerm) (pk : Bytes)

/-- A term that does not exclude finds the document, and no excluded one after it does. -/
def Standing : Prop :=
  ∃ before qt after, terms = before ++ qt :: after ∧ 0 ≤ qt.yesno ∧ c.Found pk qt ∧
    ∀ later ∈ after, later.yesno < 0 → ¬ c.Found pk later

def tally : Nat :=
  ((terms.filter fun qt => decide (0 < qt.yesno)).map fun qt =>
    (c.terms pk).countP fun term => decide (qt.Finds cfg.maxWordLen term)).sum

def HasPhrases : Prop :=
  ∀ qt ∈ terms, qt.isPhrase = true → qt.phraseWords <:+: c.words pk

end

structure Meets (terms : List QueryTerm) (pk : Bytes) : Prop where
  standing : c.Standing terms pk
  enough : numRequired terms ≤ c.tally terms pk
  phrases : c.HasPhrases terms pk

variable {c}

variable {terms : List QueryTerm} {pk : Bytes}

theorem search_eq (fit : Fit terms) :
    c.search terms = some (ftMatches cfg.maxWordLen (phraseIn cfg key) c.postings c.rows terms) := by
  rw [search, if_pos fit, Reader.quiet_ftInitExt]

theorem fit_of_search {found : List Bytes} (searched : c.search terms = some found) : Fit terms := by
  by_contra long
  rw [search, if_neg long] at searched
  cases searched

theorem scored_snoc (terms : List QueryTerm) (qt : QueryTerm) : scored cfg.maxWordLen c.postings (terms ++ [qt]) =
      (qt.postings cfg.maxWordLen c.postings).foldl (Scores.post qt.yesno) (scored cfg.maxWordLen c.postings terms) := by
  rw [scored, foldl_append]
  rfl

theorem scored_nodup (terms : List QueryTerm) : (scored cfg.maxWordLen c.postings terms).docs.Nodup := by
  induction terms using reverseRecOn with
  | nil => exact nodup_nil
  | append_singleton terms qt ih =>
    rw [scored_snoc]
    exact Scores.post_nodup ih _ _

theorem split_snoc {terms before after : List QueryTerm} {qt last : QueryTerm}
    (whole : terms ++ [last] = before ++ qt :: after) :
    after = [] ∧ qt = last ∨ ∃ init, after = init ++ [last] ∧ terms = before ++ qt :: init := by
  rcases eq_nil_or_concat after with rfl | ⟨init, x, rfl⟩
  · obtain ⟨-, same⟩ := append_inj' whole rfl
    exact .inl ⟨rfl, (singleton_inj.mp same).symm⟩
  · rw [concat_eq_append, ← cons_append, ← append_assoc] at whole
    obtain ⟨front, same⟩ := append_inj' whole rfl
    exact .inr ⟨init, by rw [concat_eq_append, singleton_inj.mp same], front⟩

theorem standing_snoc_excluded {last : QueryTerm} (excluded : last.yesno < 0) :
    c.Standing (terms ++ [last]) pk ↔ c.Standing terms pk ∧ ¬ c.Found pk last := by
  constructor
  · rintro ⟨before, qt, after, whole, included, found, later⟩
    rcases split_snoc whole with ⟨rfl, rfl⟩ | ⟨init, rfl, rfl⟩
    · exact absurd included (by omega)
    · obtain ⟨earlier, gone⟩ := forall_mem_append.mp later
      exact ⟨⟨before, qt, init, rfl, included, found, earlier⟩, gone last (mem_singleton_self last) excluded⟩
  · rintro ⟨⟨before, qt, after, rfl, included, found, later⟩, gone⟩
    refine ⟨before, qt, after ++ [last], by simp, included, found, ?_⟩
    apply forall_mem_append.mpr ⟨later, ?_⟩
    intro x mem _
    rwa [mem_singleton.mp mem]

theorem standing_snoc_included {last : QueryTerm} (included : ¬ last.yesno < 0) :
    c.Standing (terms ++ [last]) pk ↔ c.Standing terms pk ∨ c.Found pk last := by
  constructor
  · rintro ⟨before, qt, after, whole, here, found, later⟩
    rcases split_snoc whole with ⟨rfl, rfl⟩ | ⟨init, rfl, rfl⟩
    · exact .inr found
    · exact .inl ⟨before, qt, init, rfl, here, found, (forall_mem_append.mp later).1⟩
  · rintro (⟨before, qt, after, rfl, here, found, later⟩ | found)
    · refine ⟨before, qt, after ++ [last], by simp, here, found, ?_⟩
      apply forall_mem_append.mpr ⟨later, ?_⟩
      intro x mem excluded
      rw [mem_singleton.mp mem] at excluded
      exact absurd excluded included
    · exact ⟨terms, last, [], rfl, Int.not_lt.mp included, found, forall_mem_nil _⟩

theorem mem_docs (fit : Fit terms) : pk ∈ (scored cfg.maxWordLen c.postings terms).docs ↔ c.Standing terms pk := by
  induction terms using reverseRecOn with
  | nil =>
    apply iff_of_false not_mem_nil
    rintro ⟨before, qt, after, whole, -⟩
    exact append_ne_nil_of_right_ne_nil _ (cons_ne_nil _ _) whole.symm
  | append_singleton terms qt ih =>
    obtain ⟨earlier, last⟩ := forall_mem_append.mp fit
    have here : pk ∈ qt.postings cfg.maxWordLen c.postings ↔ c.Found pk qt :=
      mem_postings (last qt (mem_singleton_self qt))
    rw [scored_snoc]
    by_cases excluded : qt.yesno < 0
    · rw [Scores.mem_post_excluded (scored_nodup terms) excluded, standing_snoc_excluded excluded, ih earlier, here]
    · rw [Scores.mem_post_included _ excluded, standing_snoc_included excluded, ih earlier, here]

theorem tally_snoc (terms : List QueryTerm) (last : QueryTerm) (pk : Bytes) :
    c.tally (terms ++ [last]) pk = c.tally terms pk +
      if 0 < last.yesno then (c.terms pk).countP fun term => decide (last.Finds cfg.maxWordLen term) else 0 := by
  unfold tally
  by_cases required : 0 < last.yesno <;> simp [filter_append, required]

theorem count_hits (fit : Fit terms) (pk : Bytes) :
    (scored cfg.maxWordLen c.postings terms).hits.count pk = c.tally terms pk := by
  induction terms using reverseRecOn with
  | nil => rfl
  | append_singleton terms qt ih =>
    obtain ⟨earlier, last⟩ := forall_mem_append.mp fit
    rw [scored_snoc, Scores.count_post, ih earlier, tally_snoc, count_postings (last qt (mem_singleton_self qt))]

theorem countP_exact {qt : QueryTerm} (exact : qt.trunc = false) (pk : Bytes) :
    (c.terms pk).countP (fun term => decide (qt.Finds cfg.maxWordLen term)) = (c.terms pk).count qt.term := by
  apply countP_congr
  intro term indexed
  rw [decide_eq_true_eq, QueryTerm.finds_exact exact, beq_iff_eq]

theorem row_of_standing (standing : c.Standing terms pk) : ∃ record, c.rows.Has pk record := by
  obtain ⟨before, qt, after, -, -, ⟨term, indexed, -⟩, -⟩ := standing
  obtain ⟨w, word, -⟩ := mem_terms.mp indexed
  exact row_of_word word

theorem verified_iff {record : Record} (row : c.rows.Has pk record) :
    ((c.rows.lookup pk).any fun record => (terms.filter fun qt => qt.isPhrase).all fun qt =>
      phraseIn cfg key qt.phraseWords record) = true ↔ c.HasPhrases terms pk := by
  rw [SortedMap.lookup_eq_some.mpr row, Option.any_some, all_eq_true]
  unfold HasPhrases phraseIn
  rw [words_of_row row]
  simp only [mem_filter, ftsPhraseInTokens_iff]
  exact ⟨fun all qt mem phrase => all qt ⟨mem, phrase⟩, fun all qt both => all qt both.1 both.2⟩

theorem mem_candidates (fit : Fit terms) : pk ∈ candidates terms (scored cfg.maxWordLen c.postings terms) ↔
      c.Standing terms pk ∧ numRequired terms ≤ c.tally terms pk := by
  unfold candidates
  split
  · rw [mem_filter, mem_docs fit, count_hits fit, decide_eq_true_eq]
  · rename_i unrequired
    rw [mem_docs fit, Nat.eq_zero_of_not_pos unrequired]
    exact (and_iff_left (Nat.zero_le _)).symm

theorem mem_ftMatches (fit : Fit terms) :
    pk ∈ ftMatches cfg.maxWordLen (phraseIn cfg key) c.postings c.rows terms ↔ c.Meets terms pk := by
  unfold ftMatches
  split
  · rename_i plain
    rw [mem_candidates fit]
    constructor
    · rintro ⟨standing, enough⟩
      refine ⟨standing, enough, fun qt mem phrase => ?_⟩
      have listed : qt ∈ terms.filter fun qt => qt.isPhrase := mem_filter.mpr ⟨mem, phrase⟩
      rw [plain] at listed
      cases listed
    · intro meets
      exact ⟨meets.standing, meets.enough⟩
  · rw [mem_filter, mem_candidates fit]
    constructor
    · rintro ⟨⟨standing, enough⟩, verified⟩
      obtain ⟨record, row⟩ := row_of_standing standing
      exact ⟨standing, enough, (verified_iff row).mp verified⟩
    · intro meets
      obtain ⟨record, row⟩ := row_of_standing meets.standing
      exact ⟨⟨meets.standing, meets.enough⟩, (verified_iff row).mpr meets.phrases⟩

theorem mem_search {found : List Bytes} (searched : c.search terms = some found) (pk : Bytes) :
    pk ∈ found ↔ c.Meets terms pk := by
  have fit := fit_of_search searched
  cases (search_eq fit).symm.trans searched
  exact mem_ftMatches fit

theorem search_such_iff (P : (Bytes → Prop) → Prop) (terms : List QueryTerm) :
    (∃ found, c.search terms = some found ∧ P (· ∈ found)) ↔ Fit terms ∧ P (c.Meets terms) := by
  constructor
  · rintro ⟨found, searched, holds⟩
    have same : (· ∈ found) = c.Meets terms := funext fun pk => propext (mem_search searched pk)
    exact ⟨fit_of_search searched, same ▸ holds⟩
  · rintro ⟨fit, holds⟩
    refine ⟨_, search_eq fit, ?_⟩
    have same : (· ∈ ftMatches cfg.maxWordLen (phraseIn cfg key) c.postings c.rows terms) = c.Meets terms :=
      funext fun pk => propext (mem_ftMatches fit)
    exact same ▸ holds

variable (c) in
def Returned (terms : List QueryTerm) (pk : Bytes) : Prop := ∃ found, c.search terms = some found ∧ pk ∈ found

theorem returned_iff : c.Returned terms pk ↔ Fit terms ∧ c.Meets terms pk :=
  search_such_iff (fun returned => returned pk) terms

end Corpus

end TidesdbMysql
