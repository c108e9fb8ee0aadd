import TidesdbMysql.Fts.Scores

/-! Excluded terms, and the order of the terms in a query. -/
namespace TidesdbMysql

open Base (Bytes SortedMap)
open List

namespace QueryItem

theorem terms_split (item : QueryItem) : ∃ head tail, item.terms = head :: tail ∧ ∀ later ∈ tail, 0 < later.yesno := by
  cases item with
  | word yesno term trunc => exact ⟨_, [], rfl, forall_mem_nil _⟩
  | phrase yesno first others =>
    refine ⟨_, _, rfl, ?_⟩
    intro later mem
    obtain ⟨w, -, rfl⟩ := mem_map.mp mem
    exact Int.one_pos

theorem split_at_term {item : QueryItem} {qt : QueryTerm} (mem : qt ∈ item.terms) :
    ∃ before after, item.terms = before ++ qt :: after ∧ ∀ later ∈ after, 0 < later.yesno := by
  obtain ⟨head, tail, whole, required⟩ := item.terms_split
  rw [whole] at mem ⊢
  rcases mem_cons.mp mem with rfl | behind
  · exact ⟨[], tail, rfl, required⟩
  · obtain ⟨before, after, rfl⟩ := append_of_mem behind
    exact ⟨head :: before, after, rfl, fun later inside => required later (by simp [inside])⟩

end QueryItem

namespace Corpus

variable {cfg : FtsConfig} {key : Key} (c : Corpus cfg key)

def Contains (pk : Bytes) : QueryItem → Prop
  | .word _ term trunc => ∃ t ∈ c.terms pk, if trunc then term <+: t else t = term
  | .phrase _ first others => first :: others <:+: c.words pk

structure Qualifies (terms : List QueryTerm) (pk : Bytes) : Prop where
  found : ∃ qt ∈ terms, 0 ≤ qt.yesno ∧ c.Found pk qt
  enough : numRequired terms ≤ c.tally terms pk
  phrases : c.HasPhrases terms pk

variable {c}

variable {pk : Bytes} {terms terms' : List QueryTerm} {items : List QueryItem}

theorem Meets.qualifies (meets : c.Meets terms pk) : c.Qualifies terms pk := by
  obtain ⟨before, qt, after, rfl, included, found, -⟩ := meets.standing
  exact ⟨⟨qt, by simp, included, found⟩, meets.enough, meets.phrases⟩

theorem Qualifies.meets (qualifies : c.Qualifies terms pk) (unexcluded : ∀ qt ∈ terms, qt.yesno < 0 → ¬ c.Found pk qt) :
    c.Meets terms pk := by
  obtain ⟨qt, mem, included, found⟩ := qualifies.found
  obtain ⟨before, after, rfl⟩ := append_of_mem mem
  refine ⟨⟨before, qt, after, rfl, included, found, ?_⟩, qualifies.enough, qualifies.phrases⟩
  intro later inside
  exact unexcluded later (by simp [inside])

/- Nothing but the standing of a document depends on the order. -/

theorem numRequired_perm (alike : terms.Perm terms') : numRequired terms = numRequired terms' :=
  (alike.filter _).length_eq

theorem tally_perm (alike : terms.Perm terms') (pk : Bytes) : c.tally terms pk = c.tally terms' pk :=
  ((alike.filter _).map _).sum_nat

theorem Qualifies.perm (alike : terms.Perm terms') (qualifies : c.Qualifies terms pk) : c.Qualifies terms' pk where
  found := by
    obtain ⟨qt, mem, holds⟩ := qualifies.found
    exact ⟨qt, alike.mem_iff.mp mem, holds⟩
  enough := numRequired_perm alike ▸ tally_perm alike pk ▸ qualifies.enough
  phrases qt mem := qualifies.phrases qt (alike.mem_iff.mpr mem)

theorem Fit.perm (alike : terms.Perm terms') (fit : Fit terms) : Fit terms' :=
  fun qt mem => fit qt (alike.mem_iff.mpr mem)

/-- Some order of the items returns a document that qualifies: the item that finds it comes last. -/
theorem Qualifies.reorder (qualifies : c.Qualifies (queryTerms items) pk) :
    ∃ order : List QueryItem, order.Perm items ∧ c.Meets (queryTerms order) pk := by
  obtain ⟨qt, mem, included, found⟩ := qualifies.found
  obtain ⟨item, listed, inside⟩ := mem_flatMap.mp mem
  have alike : (items.erase item ++ [item]).Perm items :=
    (perm_append_singleton item _).trans (perm_cons_erase listed).symm
  have moved := qualifies.perm (alike.symm.flatMap_right QueryItem.terms)
  refine ⟨_, alike, ⟨?_, moved.enough, moved.phrases⟩⟩
  obtain ⟨before, after, whole, required⟩ := QueryItem.split_at_term inside
  refine ⟨queryTerms (items.erase item) ++ before, qt, after, ?_, included, found, ?_⟩
  · rw [queryTerms, flatMap_append, flatMap_singleton, whole, append_assoc]
    rfl
  · intro later mem excluded
    have positive := required later mem
    omega

/- A document that qualifies and is found under an excluded term contains what the query excludes. -/
theorem Qualifies.contains (qualifies : c.Qualifies (queryTerms items) pk)
    {qt : QueryTerm} (mem : qt ∈ queryTerms items) (excluded : qt.yesno < 0) (found : c.Found pk qt) :
    ∃ item ∈ items, item.yesno < 0 ∧ c.Contains pk item := by
  obtain ⟨item, listed, inside⟩ := mem_flatMap.mp mem
  refine ⟨item, listed, ?_⟩
  cases item with
  | word yesno term trunc =>
    obtain rfl := mem_singleton.mp inside
    obtain ⟨t, indexed, matched, -⟩ := found
    exact ⟨excluded, t, indexed, matched⟩
  | phrase yesno first others =>
    rcases mem_cons.mp inside with rfl | other
    · have signed : yesno < 0 := by
        dsimp only at excluded
        split at excluded
        · exact excluded
        · exact absurd excluded (by decide)
      exact ⟨signed, qualifies.phrases _ mem rfl⟩
    · obtain ⟨w, -, rfl⟩ := mem_map.mp other
      exact absurd excluded (show ¬ ftsTermRequired < 0 by decide)

variable (c) in
/-- No document found contains what the query excludes, and every order of the query finds the same
documents. -/
def Excludes (items : List QueryItem) : Prop :=
  ∃ found, c.search (queryTerms items) = some found ∧
    (∀ pk ∈ found, ∀ item ∈ items, item.yesno < 0 → ¬ c.Contains pk item) ∧
    ∀ order : List QueryItem, order.Perm items →
      ∃ again, c.search (queryTerms order) = some again ∧ ∀ pk, pk ∈ again ↔ pk ∈ found

theorem excludes_iff : c.Excludes items ↔ Fit (queryTerms items) ∧
      ∀ pk, c.Qualifies (queryTerms items) pk → ∀ item ∈ items, item.yesno < 0 → ¬ c.Contains pk item := by
  constructor
  · rintro ⟨found, searched, clean, ordered⟩
    refine ⟨fit_of_search searched, ?_⟩
    intro pk qualifies
    obtain ⟨order, alike, meets⟩ := qualifies.reorder
    obtain ⟨again, searched_again, same⟩ := ordered order alike
    exact clean pk ((same pk).mp ((mem_search searched_again pk).mpr meets))
  · rintro ⟨fit, clean⟩
    -- under the condition a document is found in an order just when it qualifies
    have settled : ∀ order : List QueryItem, order.Perm items → ∀ pk,
        (c.Meets (queryTerms order) pk ↔ c.Qualifies (queryTerms items) pk) := by
      intro order alike pk
      have terms_alike : (queryTerms order).Perm (queryTerms items) := alike.flatMap_right _
      refine ⟨fun meets => meets.qualifies.perm terms_alike, fun qualifies => ?_⟩
      apply (qualifies.perm terms_alike.symm).meets
      intro qt mem excluded found
      obtain ⟨item, listed, signed, contained⟩ :=
        qualifies.contains (terms_alike.mem_iff.mp mem) excluded found
      exact clean pk qualifies item listed signed contained
    refine ⟨_, search_eq fit, ?_, ?_⟩
    · intro pk found
      exact clean pk ((settled items (List.Perm.refl _) pk).mp ((mem_ftMatches fit).mp found))
    · intro order alike
      have fit_again : Fit (queryTerms order) := fit.perm (alike.flatMap_right _).symm
      refine ⟨_, search_eq fit_again, fun pk => ?_⟩
      rw [mem_ftMatches fit_again, mem_ftMatches fit, settled order alike, settled items (List.Perm.refl _)]

/-- Excluded terms exclude in whatever order, just when no document that qualifies for the rest
contains one. -/
theorem excluded_terms_exclude_iff (c : Corpus cfg key) (query : Bytes) :
    c.Excludes (cfg.queryItems query) ↔ Fit (cfg.ftsParseBoolean query) ∧
      ∀ pk, c.Qualifies (cfg.ftsParseBoolean query) pk →
        ∀ item ∈ cfg.queryItems query, item.yesno < 0 → ¬ c.Contains pk item :=
  excludes_iff

/-- The query `-a b` finds the document `a b`. -/
theorem excluded_first_returned :
    ¬ ∀ (cfg : FtsConfig) (key : Key) (c : Corpus cfg key) (query : Bytes), c.Excludes (cfg.queryItems query) := by
  intro claim
  obtain ⟨found, searched, clean, -⟩ :=
    claim threeChars (byteKey 1) (single threeChars [97, 32, 98]) [45, 97, 32, 98]
  have returned : (single threeChars [97, 32, 98]).search (queryTerms (threeChars.queryItems [45, 97, 32, 98])) =
      some [[1]] := by decide
  cases returned.symm.trans searched
  have excluded : QueryItem.word (-1) [97] false ∈ threeChars.queryItems [45, 97, 32, 98] := by decide
  apply clean [1] (mem_singleton_self _) _ excluded (by decide)
  exact ⟨[97], by decide, rfl⟩

end Corpus

end TidesdbMysql
