import TidesdbMysql.Fts.Search
import TidesdbMysql.Fts.Tokenize

/-! The documents of a full-text key and its postings. A table whose indexes mirror its rows is such a
corpus, in every state a run of row functions reaches. -/
namespace TidesdbMysql

open Base (Bytes SortedMap Derived leBytes run Along)
open List Base.SortedMap

/-- The rows of a table, with the postings of a full-text key on it: one for each term of each row. -/
structure Corpus (cfg : FtsConfig) (key : Key) where
  rows : SortedMap Bytes Record
  postings : SortedMap Bytes Bytes
  keyed : ∀ pk, rows.HasKey pk → pk ≠ []
  derived : Derived (fun pk record => (ftsTerms cfg.ftsTokenize key record).map (ftsBuildKey · pk)) rows postings
  valued : ∀ k v, postings.Has k v → ftsValueLen ≤ v.length

/- The bytes of a posting's key; a term is cut to `FTS_MAX_TERM_BYTES` before. -/
def postingKey (term pk : Bytes) : Bytes := leBytes ftsTermLenPrefix term.length ++ (term ++ pk)

theorem ftsBuildKey_eq (term pk : Bytes) : ftsBuildKey term pk = postingKey (term.take ftsMaxTermBytes) pk := by
  rw [ftsBuildKey, postingKey, length_take, Nat.min_comm]
  rfl

namespace Corpus

variable {cfg : FtsConfig} {key : Key} (c : Corpus cfg key)

def words (pk : Bytes) : List Bytes :=
  match c.rows.lookup pk with
  | some record => ftsExtractAndTokenize cfg.ftsTokenize key record
  | none => []

def terms (pk : Bytes) : List Bytes := ((c.words pk).map fun w => w.take ftsMaxTermBytes).dedup

variable {c}

theorem words_of_row {pk : Bytes} {record : Record} (row : c.rows.Has pk record) :
    c.words pk = ftsExtractAndTokenize cfg.ftsTokenize key record := by
  rw [words, lookup_eq_some.mpr row]

theorem row_of_word {pk w : Bytes} (word : w ∈ c.words pk) : ∃ record, c.rows.Has pk record := by
  unfold words at word
  split at word
  · exact ⟨_, lookup_eq_some.mp ‹_›⟩
  · cases word

theorem mem_terms {pk term : Bytes} : term ∈ c.terms pk ↔ ∃ w ∈ c.words pk, w.take ftsMaxTermBytes = term := by
  rw [terms, mem_dedup, mem_map]

theorem length_of_term {pk term : Bytes} (indexed : term ∈ c.terms pk) : term.length ≤ ftsMaxTermBytes := by
  obtain ⟨w, -, rfl⟩ := mem_terms.mp indexed
  exact length_take_le _ _

theorem keyed_of_term {pk term : Bytes} (indexed : term ∈ c.terms pk) : pk ≠ [] := by
  obtain ⟨w, word, -⟩ := mem_terms.mp indexed
  obtain ⟨record, row⟩ := row_of_word word
  exact c.keyed pk row.hasKey

theorem hasKey_postings {k : Bytes} : c.postings.HasKey k ↔ ∃ pk, ∃ term ∈ c.terms pk, k = postingKey term pk := by
  rw [c.derived k]
  constructor
  · rintro ⟨pk, record, row, posted⟩
    obtain ⟨w, word, rfl⟩ := mem_map.mp posted
    refine ⟨pk, w.take ftsMaxTermBytes, mem_terms.mpr ⟨w, ?_, rfl⟩, ftsBuildKey_eq w pk⟩
    rw [words_of_row row]
    exact mem_dedup.mp word
  · rintro ⟨pk, term, indexed, rfl⟩
    obtain ⟨w, word, rfl⟩ := mem_terms.mp indexed
    obtain ⟨record, row⟩ := row_of_word word
    rw [words_of_row row] at word
    exact ⟨pk, record, row, mem_map.mpr ⟨w, mem_dedup.mpr word, ftsBuildKey_eq w pk⟩⟩

end Corpus

section Build

variable (cfg : FtsConfig) (key : Key)

def ftsEntries (pk : Bytes) (record : Record) : List (Bytes × Bytes) :=
  (ftsTerms cfg.ftsTokenize key record).map fun term =>
    (ftsBuildKey term pk, ftsBuildValue (ftsTf (ftsExtractAndTokenize cfg.ftsTokenize key record) term)
      (ftsWordCount (ftsExtractAndTokenize cfg.ftsTokenize key record)))

def Corpus.of (rows : SortedMap Bytes Record) (keyed : ∀ pk, rows.HasKey pk → pk ≠ []) : Corpus cfg key where
  rows := rows
  postings := SortedMap.empty.putAll (rows.entries.flatMap fun e => ftsEntries cfg key e.1 e.2)
  keyed := keyed
  derived j := by
    have nothing : ¬ (SortedMap.empty : SortedMap Bytes Bytes).HasKey j := by simp [SortedMap.hasKey_iff]
    rw [SortedMap.hasKey_putAll, or_iff_left nothing, List.map_flatMap, List.mem_flatMap]
    constructor
    · rintro ⟨e, entry, posted⟩
      rw [ftsEntries, List.map_map] at posted
      exact ⟨e.1, e.2, entry, posted⟩
    · rintro ⟨pk, record, row, posted⟩
      refine ⟨(pk, record), row, ?_⟩
      rw [ftsEntries, List.map_map]
      exact posted
  valued k v has := by
    have put := (SortedMap.mem_of_has_putAll has).resolve_right (SortedMap.has_empty k v)
    obtain ⟨e, -, posted⟩ := List.mem_flatMap.mp put
    obtain ⟨term, -, here⟩ := List.mem_map.mp posted
    cases here
    simp [ftsBuildValue, ftsValueLen]

end Build

def PutsValue : CfOp Bytes → Prop
  | .put _ v => ftsValueLen ≤ v.length
  | .delete _ => True

theorem values_applyOps {m : SortedMap Bytes Bytes} {ops : List (CfOp Bytes)}
    (valued : ∀ k v, m.Has k v → ftsValueLen ≤ v.length) (puts : ∀ op ∈ ops, PutsValue op) (k v : Bytes)
    (has : (applyOps m ops).Has k v) : ftsValueLen ≤ v.length := by
  induction ops generalizing m with
  | nil => exact valued k v has
  | cons op rest ih =>
    apply ih _ (forall_mem_cons.mp puts).2 has
    intro k v has
    cases op with
    | put key value =>
      rcases has_put.mp has with ⟨-, rfl⟩ | ⟨-, before⟩
      · exact (forall_mem_cons.mp puts).1
      · exact valued k v before
    | delete key => exact valued k v (has_erase.mp has).2

theorem putsValue_puts (tokens : List Bytes) (pk : Bytes) (terms : List Bytes) :
    ∀ op ∈ terms.map (ftsPut tokens pk), PutsValue op := by
  intro op mem
  obtain ⟨term, -, rfl⟩ := mem_map.mp mem
  simp [ftsPut, PutsValue, ftsBuildValue, ftsValueLen]

theorem putsValue_deletes (pk : Bytes) (terms : List Bytes) :
    ∀ op ∈ terms.map fun term => CfOp.delete (ftsBuildKey term pk), PutsValue op := by
  intro op mem
  obtain ⟨term, -, rfl⟩ := mem_map.mp mem
  trivial

section Runs

variable {T : Schema} {s : Table} {tokenize : Bytes → List Bytes} {key : Key} {i : Nat}

def Valued (i : Nat) (s : Table) : Prop := ∀ k v, (s.index i).Has k v → ftsValueLen ≤ v.length

theorem putsValue_updateEntries (req : Update) (pk : Bytes) :
    ∀ op ∈ updateEntries T req pk i ⟨key, .fulltext tokenize⟩, PutsValue op := by
  dsimp only [updateEntries]
  split
  · unfold ftsUpdate
    split <;> exact forall_mem_append.mpr ⟨putsValue_deletes _ _, putsValue_puts _ pk _⟩
  · exact forall_mem_nil _

theorem dmlStep_valued (at_i : T.indexes[i]? = some ⟨key, .fulltext tokenize⟩) (call : Dml) (valued : Valued i s) :
    Valued i (dmlStep T s call).1 := by
  cases call with
  | write iters req =>
    show Valued i (writeRow T s iters req).table
    rcases writeRow_cases T s iters req with ⟨-, -, same⟩ | ⟨counter, -, ⟨-, -, -, same⟩ | ⟨-, -, -, after⟩⟩
    · rwa [same]
    · rwa [same]
    · rw [after]
      have own : ((s.counted T counter).applyAll (writeOps T req (newPk T s req))).index i = applyOps (s.index i)
          (writeEntries T req.scratch (newPk T s req) (req.stored T) i ⟨key, .fulltext tokenize⟩) :=
        index_after [.put (newPk T s req) (req.stored T)] (writeEntries T req.scratch (newPk T s req) (req.stored T)) at_i
      unfold Valued
      rw [own]
      exact values_applyOps valued (putsValue_puts _ _ _)
  | update req =>
    show ∀ k v, ((updateRow T s req).2.index i).Has k v → ftsValueLen ≤ v.length
    rw [updateRow_index req at_i]
    exact values_applyOps valued (putsValue_updateEntries req _)
  | delete req =>
    have own : (deleteRow T s req).2.index i = applyOps (s.index i) (deleteEntries T req i ⟨key, .fulltext tokenize⟩) :=
      index_after [.delete req.current] (deleteEntries T req) at_i
    show ∀ k v, ((deleteRow T s req).2.index i).Has k v → ftsValueLen ≤ v.length
    rw [own]
    exact values_applyOps valued (putsValue_deletes _ _)

end Runs

theorem Mirrored.corpus {T : Schema} {residue : Nat → Bytes → Residue} {s : Table} (mirrored : Mirrored T residue s)
    {cfg : FtsConfig} {key : Key} {i : Nat} (at_i : T.indexes[i]? = some ⟨key, .fulltext cfg.ftsTokenize⟩)
    (valued : Valued i s) : ∃ c : Corpus cfg key, c.rows = s.rows ∧ c.postings = s.index i := by
  refine ⟨⟨s.rows, s.index i, ?_, mirrored.entries i _ at_i, valued⟩, rfl, rfl⟩
  intro pk stored
  obtain ⟨record, row⟩ := hasKey_iff.mp stored
  exact ne_nil_of_length_pos (mirrored.keyed pk record row).nonempty

/-- From an empty table on, the rows and the full-text key are a corpus after every run that keeps the
indexes exact. -/
theorem corpus_along {T : Schema} {cfg : FtsConfig} {key : Key} {i : Nat}
    (at_i : T.indexes[i]? = some ⟨key, .fulltext cfg.ftsTokenize⟩) {calls : List Dml}
    (along : Along (dmlStep T) (fun s call => Positioned s call ∧ Traceable T s call) Table.empty calls) :
    ∃ c : Corpus cfg key, c.rows = (run (dmlStep T) Table.empty calls).rows ∧
      c.postings = (run (dmlStep T) Table.empty calls).index i := by
  have mirrored := Base.run_invariant (dmlStep T) (fun s => Consistent T (fun _ _ _ => 0) s ∧ Valued i s)
    (fun s call holds ok => ⟨dmlStep_consistent call holds.1 ok, dmlStep_valued at_i call holds.2⟩)
    ⟨empty_consistent T _, fun k v has => absurd has (has_empty k v)⟩ along
  exact mirrored.1.toMirrored.corpus at_i mirrored.2

end TidesdbMysql
