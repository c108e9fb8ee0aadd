import TidesdbMysql.Table.Reader

/-! Full-text search: `ft_init_ext` gathers the postings of the query's terms and settles the documents,
`ft_read` hands out their rows. The ranks, which only order the documents, are left out. -/
namespace TidesdbMysql

open Base (Bytes SortedMap Iter Prog leBytes)
open Base.Iter Base.Prog
open List

/-- `fts_query_term_t`. A required term has a positive `yesno`, an excluded one a negative. -/
structure QueryTerm where
  term : Bytes
  yesno : Int
  trunc : Bool
  isPhrase : Bool
  phraseWords : List Bytes

def ftsTermLenPrefix : Nat := 2
def ftsValueLen : Nat := 6

/-- A range of postings: its start, the keys it goes through, those without a document, and where in
a key that stands. -/
structure PostingRange where
  start : Bytes
  inside : Bytes → Bool
  skip : Bytes → Bool
  pkOff : Nat

def exactRange (term : Bytes) : PostingRange where
  start := leBytes 2 term.length ++ term
  inside ik := decide (leBytes 2 term.length ++ term <+: ik)
  skip _ := false
  pkOff := ftsTermLenPrefix + term.length

def bucketRange (word : Bytes) (tlen : Nat) : PostingRange where
  start := leBytes 2 tlen ++ word
  inside ik := decide (leBytes 2 tlen ++ word <+: ik) && decide (ftsTermLenPrefix + tlen ≤ ik.length)
  skip ik := decide (ik.length ≤ ftsTermLenPrefix + tlen)
  pkOff := ftsTermLenPrefix + tlen

/-- The ranges of a term; a truncated one has one for each length up to `max_word_len`. -/
def QueryTerm.ranges (maxWordLen : Nat) (qt : QueryTerm) : List PostingRange :=
  if qt.trunc then
    (List.range' qt.term.length (min maxWordLen ftsMaxTermBytes + 1 - qt.term.length)).map (bucketRange qt.term)
  else [exactRange qt.term]

structure Scores where
  docs : List Bytes
  hits : List Bytes

def Scores.post (yesno : Int) (scores : Scores) (pk : Bytes) : Scores :=
  if yesno < 0 then { scores with docs := scores.docs.erase pk }
  else ⟨scores.docs.insert pk, if 0 < yesno then pk :: scores.hits else scores.hits⟩

def numRequired (terms : List QueryTerm) : Nat := (terms.filter fun qt => decide (0 < qt.yesno)).length

def candidates (terms : List QueryTerm) (scores : Scores) : List Bytes :=
  if 0 < numRequired terms then scores.docs.filter fun pk => decide (numRequired terms ≤ scores.hits.count pk)
  else scores.docs

namespace Reader

def posted (pk : Bytes) : Except Rc Bytes → List Bytes
  | .ok iv => if ftsValueLen ≤ iv.length then [pk] else []
  | .error _ => []

def gather (r : PostingRange) : Nat → Reader Bytes Record (List Bytes)
  | 0 => pure []
  | turns + 1 => do
    if ← valid then
      match ← iterKey with
      | .error _ => pure []
      | .ok ik =>
        if r.inside ik then
          if r.skip ik then do
            let _ ← move .next
            gather r turns
          else do
            let v ← iterValue
            let _ ← move .next
            let rest ← gather r turns
            pure (posted (ik.drop r.pkOff) v ++ rest)
        else pure []
    else pure []

def gatherRanges (turns : Nat) : List PostingRange → Reader Bytes Record (List Bytes)
  | [] => pure []
  | r :: more => do
    let _ ← move (.seek r.start)
    let here ← gather r turns
    let rest ← gatherRanges turns more
    pure (here ++ rest)

def termPostings (maxWordLen turns : Nat) (qt : QueryTerm) : Reader Bytes Record (List Bytes) := do
  let rc ← Prog.ask ReadCall.iterNew
  if rc = Rc.success then gatherRanges turns (qt.ranges maxWordLen) else pure []

def scoreTerms (maxWordLen turns : Nat) : List QueryTerm → Scores → Reader Bytes Record Scores
  | [], scores => pure scores
  | qt :: more, scores => do
    let postings ← termPostings maxWordLen turns qt
    scoreTerms maxWordLen turns more (postings.foldl (Scores.post qt.yesno) scores)

def verify (holds : Record → Bool) : List Bytes → Reader Bytes Record (List Bytes)
  | [] => pure []
  | pk :: more => do
    match ← sideGet pk with
    | .error _ => verify holds more
    | .ok record => do
      let rest ← verify holds more
      pure (if holds record then pk :: rest else rest)

/-- `ft_init_ext` from the parsed query on. `phraseIn` finds a phrase in the words of a record. -/
def ftInitExt (maxWordLen : Nat) (phraseIn : List Bytes → Record → Bool) (turns : Nat) (terms : List QueryTerm) :
    Reader Bytes Record (List Bytes) :=
  if terms = [] then pure []
  else do
    let _ ← Prog.ask ReadCall.metaGet
    let scores ← scoreTerms maxWordLen turns terms ⟨[], []⟩
    if (terms.filter fun qt => qt.isPhrase) = [] then pure (candidates terms scores)
    else
      verify (fun record => (terms.filter fun qt => qt.isPhrase).all fun qt => phraseIn qt.phraseWords record)
        (candidates terms scores)

/-- `ft_read`, from the results that are left. -/
def ftRead {V D : Type} : List Bytes → Reader V D (Answer (Bytes × D))
  | [] => fail .endOfFile
  | pk :: more => do
    match ← txnGet pk with
    | .ok record => pure (some (.ok (pk, record)))
    | .error rc => if rc = .notFound then ftRead more else fail (tdbRcToHa rc)

end Reader

/- The same from the contents of the families. -/

def PostingRange.posting (r : PostingRange) (e : Bytes × Bytes) : List Bytes :=
  if r.skip e.1 then [] else if ftsValueLen ≤ e.2.length then [e.1.drop r.pkOff] else []

def PostingRange.postings (r : PostingRange) (m : SortedMap Bytes Bytes) : List Bytes :=
  ((m.seek r.start).takeWhile fun e => r.inside e.1).flatMap r.posting

def QueryTerm.postings (maxWordLen : Nat) (m : SortedMap Bytes Bytes) (qt : QueryTerm) : List Bytes :=
  (qt.ranges maxWordLen).flatMap fun r => r.postings m

def scored (maxWordLen : Nat) (m : SortedMap Bytes Bytes) (terms : List QueryTerm) : Scores :=
  terms.foldl (fun scores qt => (qt.postings maxWordLen m).foldl (Scores.post qt.yesno) scores) ⟨[], []⟩

def ftMatches (maxWordLen : Nat) (phraseIn : List Bytes → Record → Bool) (m : SortedMap Bytes Bytes)
    (rows : SortedMap Bytes Record) (terms : List QueryTerm) : List Bytes :=
  let found := candidates terms (scored maxWordLen m terms)
  if (terms.filter fun qt => qt.isPhrase) = [] then found
  else found.filter fun pk => (rows.lookup pk).any fun record =>
    (terms.filter fun qt => qt.isPhrase).all fun qt => phraseIn qt.phraseWords record

namespace Reader

variable {m : SortedMap Bytes Bytes} {rows : SortedMap Bytes Record}

theorem quiet_gather {r : PostingRange} {turns : Nat} {it : Iter (Bytes × Bytes)} (enough : it.forward.length < turns) :
    ((gather r turns).quiet (readService m rows) it).1 = (it.forward.takeWhile fun e => r.inside e.1).flatMap r.posting := by
  induction turns generalizing it with
  | zero => cases enough
  | succ turns ih =>
    cases it with
    | none => rfl
    | some spot =>
      have whole : forward (some spot) = spot.here :: spot.ahead := rfl
      have shorter : (next (some spot)).forward.length < turns := by
        rw [forward_next, whole, tail_cons]
        rw [whole, length_cons] at enough
        omega
      have later := ih shorter
      rw [forward_next, whole, tail_cons] at later
      have unfolded : ((gather r (turns + 1)).quiet (readService m rows) (some spot)).1 = ((if r.inside spot.here.1 then
            if r.skip spot.here.1 then move .next >>= fun _ => gather r turns
            else iterValue >>= fun v => move .next >>= fun _ => gather r turns >>= fun rest =>
              pure (posted (spot.here.1.drop r.pkOff) v ++ rest)
            else pure []).quiet (readService m rows) (some spot)).1 := rfl
      rw [unfolded, whole, takeWhile_cons]
      cases r.inside spot.here.1 with
      | false => rfl
      | true =>
        rw [if_pos rfl, if_pos rfl, flatMap_cons, PostingRange.posting]
        cases r.skip spot.here.1 with
        | true => exact later
        | false =>
          have read : ((iterValue >>= fun v => move .next >>= fun _ => gather r turns >>= fun rest =>
              pure (posted (spot.here.1.drop r.pkOff) v ++ rest)).quiet (readService m rows)
                (some spot)).1 =
              posted (spot.here.1.drop r.pkOff) (.ok spot.here.2) ++
                ((gather r turns).quiet (readService m rows) (next (some spot))).1 :=
            congrArg Prod.fst (quiet_bind (gather r turns) _ (next (some spot)))
          rw [if_neg Bool.false_ne_true, read, later]
          rfl

section
variable (holds : Record → Bool) (pks : List Bytes) (maxWordLen : Nat) (phraseIn : List Bytes → Record → Bool)
  (terms : List QueryTerm) (scores : Scores) (ranges : List PostingRange) (it : Iter (Bytes × Bytes))

theorem quiet_gatherRanges :
    ((gatherRanges (m.size + 1) ranges).quiet (readService m rows) it).1 = ranges.flatMap fun r => r.postings m := by
  induction ranges generalizing it with
  | nil => rfl
  | cons r more ih =>
    have here : ((gather r (m.size + 1)).quiet (readService m rows) (m.iterSeek r.start)).1 = r.postings m := by
      have room : (m.iterSeek r.start).forward.length < m.size + 1 :=
        Nat.lt_succ_of_le (m.iterSeek_on r.start).forward_suffix.length_le
      rw [quiet_gather room, SortedMap.forward_iterSeek]
      rfl
    have parts : (gatherRanges (m.size + 1) (r :: more)).quiet (readService m rows) it =
        (gather r (m.size + 1) >>= fun here => gatherRanges (m.size + 1) more >>= fun rest =>
          pure (here ++ rest)).quiet (readService m rows) (m.iterSeek r.start) := rfl
    rw [parts, quiet_bind, quiet_bind, flatMap_cons, here, ← ih]
    rfl

theorem quiet_scoreTerms : ((scoreTerms maxWordLen (m.size + 1) terms scores).quiet (readService m rows) it).1 =
      terms.foldl (fun scores qt => (qt.postings maxWordLen m).foldl (Scores.post qt.yesno) scores) scores := by
  induction terms generalizing scores it with
  | nil => rfl
  | cons qt more ih =>
    have parts : (scoreTerms maxWordLen (m.size + 1) (qt :: more) scores).quiet (readService m rows) it =
        (gatherRanges (m.size + 1) (qt.ranges maxWordLen) >>= fun postings =>
          scoreTerms maxWordLen (m.size + 1) more (postings.foldl (Scores.post qt.yesno) scores)).quiet
            (readService m rows) none := rfl
    rw [parts, quiet_bind, quiet_gatherRanges, ih, foldl_cons]
    rfl

theorem quiet_verify :
    ((verify holds pks).quiet (readService m rows) it).1 = pks.filter fun pk => (rows.lookup pk).any holds := by
  induction pks generalizing it with
  | nil => rfl
  | cons pk more ih =>
    rw [verify, quiet_sideGet, filter_cons]
    cases rows.lookup pk with
    | none => exact ih it
    | some record =>
      dsimp only [foundOr]
      rw [quiet_bind, ih]
      rfl

theorem quiet_ftInitExt {terms : List QueryTerm} :
    ((ftInitExt maxWordLen phraseIn (m.size + 1) terms).quiet (readService m rows) it).1 =
      ftMatches maxWordLen phraseIn m rows terms := by
  unfold ftInitExt
  by_cases nothing : terms = []
  · subst nothing
    rfl
  · rw [if_neg nothing]
    have parts : ∀ g : Scores → Reader Bytes Record (List Bytes),
        ((ask ReadCall.metaGet >>= fun _ => scoreTerms maxWordLen (m.size + 1) terms ⟨[], []⟩ >>= g :
          Reader Bytes Record (List Bytes)).quiet (readService m rows) it) =
        (scoreTerms maxWordLen (m.size + 1) terms ⟨[], []⟩ >>= g).quiet (readService m rows) it := fun _ => rfl
    rw [parts, quiet_bind, quiet_scoreTerms]
    unfold ftMatches
    split
    · rfl
    · exact quiet_verify _ _ _

theorem ftRead_shaped {V D : Type} : Shaped (ftRead (V := V) (D := D) pks) := by
  induction pks with
  | nil => exact shaped_end
  | cons pk more ih =>
    apply Shaped.get
    · intro record
      exact ⟨(pk, record), rfl⟩
    · exact ih
    · intro rc other
      exact if_neg other

end

theorem ftRead_finds {V : Type} {m : SortedMap Bytes V} {pks : List Bytes} (it : Iter (Bytes × V))
    (further : ∃ pk ∈ pks, rows.HasKey pk) : ∃ row, ((ftRead pks).quiet (readService m rows) it).1 = some (.ok row) := by
  induction pks with
  | nil =>
    obtain ⟨pk, none_there, -⟩ := further
    cases none_there
  | cons pk more ih =>
    rw [ftRead, quiet_get]
    cases found : rows.lookup pk with
    | some record => exact ⟨(pk, record), rfl⟩
    | none =>
      obtain ⟨other, mem, there⟩ := further
      refine ih ⟨other, ?_, there⟩
      rcases mem_cons.mp mem with rfl | later
      · exact absurd there (SortedMap.lookup_eq_none.mp found)
      · exact later

end Reader

end TidesdbMysql
