import TidesdbMysql.Fts.Excluded

/-! Required terms. Their hits are counted together, so the words one truncated term comes across can make
up for another that is missing. -/
namespace TidesdbMysql

open Base (Bytes SortedMap)
open List

variable {items : List QueryItem}

def QueryItem.Required : QueryItem → Prop
  | .word yesno _ _ => 0 < yesno
  | .phrase yesno _ _ => 0 ≤ yesno

def QueryItem.Negated : QueryItem → Prop
  | .word _ _ _ => False
  | .phrase yesno _ _ => yesno < 0

instance : DecidablePred QueryItem.Negated
  | .word _ _ _ => isFalse id
  | .phrase yesno _ _ => inferInstanceAs (Decidable (yesno < 0))

namespace Corpus

variable {cfg : FtsConfig} {key : Key} (c : Corpus cfg key)

/-- Every document found has each required item, and every document that has them and contains nothing
excluded is found. -/
def RequiresAll (items : List QueryItem) : Prop :=
  ∃ found, c.search (queryTerms items) = some found ∧
    (∀ pk ∈ found, ∀ item ∈ items, item.Required → c.Contains pk item) ∧
    ∀ pk, c.rows.HasKey pk → (∀ item ∈ items, item.Required → c.Contains pk item) →
      (∀ item ∈ items, item.yesno < 0 → ¬ c.Contains pk item) → pk ∈ found

structure MadeUp (items : List QueryItem) (pk : Bytes) : Prop where
  lacking : ∃ item ∈ items, item.Required ∧ ¬ c.Contains pk item
  enough : numRequired (queryTerms items) ≤ c.tally (queryTerms items) pk
  standing : c.Standing (queryTerms items) pk
  phrases : c.HasPhrases (queryTerms items) pk

/-- The document meets the query, yet a negated phrase is looked for, or too few of the required
terms come across it. -/
structure Overlooked (items : List QueryItem) (pk : Bytes) : Prop where
  required : ∀ item ∈ items, item.Required → c.Contains pk item
  excluded : ∀ item ∈ items, item.yesno < 0 → ¬ c.Contains pk item
  because : (∃ item ∈ items, item.Negated) ∨ (∀ qt ∈ queryTerms items, 0 ≤ qt.yesno → ¬ c.Found pk qt) ∨
    c.tally (queryTerms items) pk < numRequired (queryTerms items)

variable {c}

theorem hasPhrases_iff {pk : Bytes} : c.HasPhrases (queryTerms items) pk ↔
      ∀ yesno first others, QueryItem.phrase yesno first others ∈ items → c.Contains pk (.phrase yesno first others) := by
  constructor
  · intro phrases yesno first others mem
    exact phrases _ (mem_flatMap.mpr ⟨_, mem, mem_cons_self⟩) rfl
  · intro contained qt mem phrase
    obtain ⟨item, listed, inside⟩ := mem_flatMap.mp mem
    cases item with
    | word yesno term trunc =>
      obtain rfl := mem_singleton.mp inside
      cases phrase
    | phrase yesno first others =>
      rcases mem_cons.mp inside with rfl | other
      · exact contained yesno first others listed
      · obtain ⟨w, -, rfl⟩ := mem_map.mp other
        cases phrase

theorem meets_iff {pk : Bytes} (required : ∀ item ∈ items, item.Required → c.Contains pk item)
    (excluded : ∀ item ∈ items, item.yesno < 0 → ¬ c.Contains pk item) :
    c.Meets (queryTerms items) pk ↔ (∀ item ∈ items, ¬ item.Negated) ∧
      (∃ qt ∈ queryTerms items, 0 ≤ qt.yesno ∧ c.Found pk qt) ∧
      numRequired (queryTerms items) ≤ c.tally (queryTerms items) pk := by
  constructor
  · intro meets
    refine ⟨?_, meets.qualifies.found, meets.enough⟩
    intro item mem negated
    cases item with
    | word yesno term trunc => exact negated
    | phrase yesno first others =>
      exact excluded _ mem negated (hasPhrases_iff.mp meets.phrases yesno first others mem)
  · rintro ⟨unnegated, found, enough⟩
    have phrases : c.HasPhrases (queryTerms items) pk := by
      apply hasPhrases_iff.mpr
      intro yesno first others mem
      exact required _ mem (Int.not_lt.mp (unnegated _ mem))
    have qualifies : c.Qualifies (queryTerms items) pk := ⟨found, enough, phrases⟩
    apply qualifies.meets
    intro qt mem signed there
    obtain ⟨item, listed, negative, contained⟩ := qualifies.contains mem signed there
    exact excluded item listed negative contained

theorem requiresAll_iff :
    c.RequiresAll items ↔ Fit (queryTerms items) ∧
      ∀ pk, c.rows.HasKey pk → ¬ c.MadeUp items pk ∧ ¬ c.Overlooked items pk := by
  have searched := search_such_iff (c := c) (fun returned =>
    (∀ pk, returned pk → ∀ item ∈ items, item.Required → c.Contains pk item) ∧
    ∀ pk, c.rows.HasKey pk → (∀ item ∈ items, item.Required → c.Contains pk item) →
      (∀ item ∈ items, item.yesno < 0 → ¬ c.Contains pk item) → returned pk) (queryTerms items)
  rw [RequiresAll, searched]
  apply and_congr_right
  intro fit
  constructor
  · rintro ⟨sound, complete⟩ pk row
    constructor
    · intro made_up
      obtain ⟨item, mem, required, lacks⟩ := made_up.lacking
      exact lacks (sound pk ⟨made_up.standing, made_up.enough, made_up.phrases⟩ item mem required)
    · intro overlooked
      have meets := complete pk row overlooked.required overlooked.excluded
      obtain ⟨unnegated, ⟨qt, mem, included, found⟩, enough⟩ :=
        (meets_iff overlooked.required overlooked.excluded).mp meets
      rcases overlooked.because with ⟨item, listed, negated⟩ | unfound | few
      · exact unnegated item listed negated
      · exact unfound qt mem included found
      · omega
  · intro fair
    constructor
    · intro pk meets item mem required
      obtain ⟨record, row⟩ := row_of_standing meets.standing
      by_contra lacks
      exact (fair pk row.hasKey).1 ⟨⟨item, mem, required, lacks⟩, meets.enough, meets.standing, meets.phrases⟩
    · intro pk row required excluded
      apply (meets_iff required excluded).mpr
      have seen := (fair pk row).2
      refine ⟨fun item mem negated => ?_, ?_, ?_⟩
      · exact seen ⟨required, excluded, .inl ⟨item, mem, negated⟩⟩
      · by_contra unfound
        push Not at unfound
        exact seen ⟨required, excluded, .inr (.inl unfound)⟩
      · by_contra few
        exact seen ⟨required, excluded, .inr (.inr (Nat.not_le.mp few))⟩

/-- Required terms are all required, and sufficient, just when no document is let through for other
hits and none is overlooked. -/
theorem required_terms_required_iff (c : Corpus cfg key) (query : Bytes) :
    c.RequiresAll (cfg.queryItems query) ↔ Fit (cfg.ftsParseBoolean query) ∧
      ∀ pk, c.rows.HasKey pk → ¬ c.MadeUp (cfg.queryItems query) pk ∧ ¬ c.Overlooked (cfg.queryItems query) pk :=
  requiresAll_iff

/-- The query `+a* +z` finds the document `ab ac`. -/
theorem prefix_hits_make_up :
    ¬ ∀ (cfg : FtsConfig) (key : Key) (c : Corpus cfg key) (query : Bytes), c.RequiresAll (cfg.queryItems query) := by
  intro claim
  obtain ⟨found, searched, sound, -⟩ :=
    claim threeChars (byteKey 1) (single threeChars [97, 98, 32, 97, 99]) [43, 97, 42, 32, 43, 122]
  have returned : (single threeChars [97, 98, 32, 97, 99]).search
      (queryTerms (threeChars.queryItems [43, 97, 42, 32, 43, 122])) = some [[1]] := by decide
  cases returned.symm.trans searched
  have required : QueryItem.word 1 [122] false ∈ threeChars.queryItems [43, 97, 42, 32, 43, 122] := by decide
  obtain ⟨term, indexed, same⟩ := sound [1] (mem_singleton_self _) _ required Int.one_pos
  have terms : ∀ t ∈ (single threeChars [97, 98, 32, 97, 99]).terms [1], t ≠ [122] := by decide
  exact terms term indexed same

end Corpus

end TidesdbMysql
