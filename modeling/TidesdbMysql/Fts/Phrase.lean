import TidesdbMysql.Fts.Required

/-! Phrases. Every phrase of a query is looked for in the documents, whatever its sign. -/
namespace TidesdbMysql

open Base (Bytes SortedMap)
open List

variable {items : List QueryItem}

def unnegated (items : List QueryItem) : List QueryItem := items.filter fun item => decide (¬ item.Negated)

namespace Corpus

variable {cfg : FtsConfig} {key : Key} (c : Corpus cfg key)

/-- The documents found have the positive phrases and none of the negated, and are left out only for
a negated phrase. -/
def PhrasesMeant (items : List QueryItem) : Prop :=
  ∃ found, c.search (queryTerms items) = some found ∧
    (∀ pk ∈ found, ∀ yesno first others, QueryItem.phrase yesno first others ∈ items →
      (c.Contains pk (.phrase yesno first others) ↔ 0 ≤ yesno)) ∧
    ∃ rest, c.search (queryTerms (unnegated items)) = some rest ∧
      ∀ pk ∈ rest, (∀ item ∈ items, item.Negated → ¬ c.Contains pk item) → pk ∈ found

variable {c}

theorem fit_unnegated (fit : Fit (queryTerms items)) : Fit (queryTerms (unnegated items)) := by
  intro qt mem
  obtain ⟨item, listed, inside⟩ := mem_flatMap.mp mem
  exact fit qt (mem_flatMap.mpr ⟨item, (mem_filter.mp listed).1, inside⟩)

theorem unnegated_eq (none_negated : ∀ item ∈ items, ¬ item.Negated) : unnegated items = items :=
  filter_eq_self.mpr fun item mem => decide_eq_true (none_negated item mem)

theorem Meets.contains_negated {pk : Bytes} (meets : c.Meets (queryTerms items) pk) {item : QueryItem}
    (mem : item ∈ items) (negated : item.Negated) : c.Contains pk item := by
  cases item with
  | word yesno term trunc => exact negated.elim
  | phrase yesno first others => exact hasPhrases_iff.mp meets.phrases yesno first others mem

theorem phrasesMeant_iff : c.PhrasesMeant items ↔ Fit (queryTerms items) ∧ ((∀ item ∈ items, ¬ item.Negated) ∨
        (∀ pk, ¬ c.Meets (queryTerms items) pk) ∧
        ∀ pk, c.Meets (queryTerms (unnegated items)) pk → ∃ item ∈ items, item.Negated ∧ c.Contains pk item) := by
  constructor
  · rintro ⟨found, searched, meant, rest, searched_rest, kept⟩
    refine ⟨fit_of_search searched, ?_⟩
    by_cases some_negated : ∃ item ∈ items, item.Negated
    · obtain ⟨item, mem, negated⟩ := some_negated
      have nothing : ∀ pk, ¬ c.Meets (queryTerms items) pk := by
        intro pk meets
        cases item with
        | word yesno term trunc => exact negated
        | phrase yesno first others =>
          have signed := (meant pk ((mem_search searched pk).mpr meets) yesno first others mem).mp
            (meets.contains_negated mem negated)
          exact absurd negated (Int.not_lt.mpr signed)
      refine .inr ⟨nothing, fun pk meets_rest => ?_⟩
      by_contra untouched
      push Not at untouched
      have returned := kept pk ((mem_search searched_rest pk).mpr meets_rest) untouched
      exact nothing pk ((mem_search searched pk).mp returned)
    · push Not at some_negated
      exact .inl some_negated
  · rintro ⟨fit, condition⟩
    refine ⟨_, search_eq fit, ?_, _, search_eq (fit_unnegated fit), ?_⟩
    · intro pk found yesno first others mem
      have meets := (mem_ftMatches fit).mp found
      rcases condition with none_negated | ⟨nothing, -⟩
      · have positive : 0 ≤ yesno := Int.not_lt.mp (none_negated _ mem)
        exact iff_of_true (hasPhrases_iff.mp meets.phrases yesno first others mem) positive
      · exact absurd meets (nothing pk)
    · intro pk found_rest untouched
      have meets_rest := (mem_ftMatches (fit_unnegated fit)).mp found_rest
      rcases condition with none_negated | ⟨-, touched⟩
      · rw [unnegated_eq none_negated] at meets_rest
        exact (mem_ftMatches fit).mpr meets_rest
      · obtain ⟨item, mem, negated, contained⟩ := touched pk meets_rest
        exact absurd contained (untouched item mem negated)

/-- Phrases mean what they say just when the query negates none, or finds nothing where nothing is left to
be found. -/
theorem phrases_meant_iff (c : Corpus cfg key) (query : Bytes) :
    c.PhrasesMeant (cfg.queryItems query) ↔ Fit (cfg.ftsParseBoolean query) ∧
      ((∀ item ∈ cfg.queryItems query, ¬ item.Negated) ∨ (∀ pk, ¬ c.Meets (cfg.ftsParseBoolean query) pk) ∧
        ∀ pk, c.Meets (queryTerms (unnegated (cfg.queryItems query))) pk →
          ∃ item ∈ cfg.queryItems query, item.Negated ∧ c.Contains pk item) :=
  phrasesMeant_iff

/-- The query `-"a b" c` finds the document `a b c`. -/
theorem negated_phrase_returned :
    ¬ ∀ (cfg : FtsConfig) (key : Key) (c : Corpus cfg key) (query : Bytes), c.PhrasesMeant (cfg.queryItems query) := by
  intro claim
  obtain ⟨found, searched, meant, -⟩ := claim threeChars (byteKey 1) (single threeChars [97, 32, 98, 32, 99])
    [45, 34, 97, 32, 98, 34, 32, 99]
  have returned : (single threeChars [97, 32, 98, 32, 99]).search
      (queryTerms (threeChars.queryItems [45, 34, 97, 32, 98, 34, 32, 99])) = some [[1]] := by decide
  cases returned.symm.trans searched
  have negated : QueryItem.phrase (-1) [97] [[98]] ∈ threeChars.queryItems [45, 34, 97, 32, 98, 34, 32, 99] := by decide
  have contained : [[97], [98]] <:+: (single threeChars [97, 32, 98, 32, 99]).words [1] := by decide
  exact absurd ((meant [1] (mem_singleton_self _) _ _ _ negated).mp contained) (by decide)

/- And the query `c -"a b"` does not find the document `c`. -/
example : (single threeChars [99]).search (threeChars.ftsParseBoolean [99, 32, 45, 34, 97, 32, 98, 34]) = some [] := by
  decide

end Corpus

end TidesdbMysql
