import TidesdbMysql.Base.Derived
import TidesdbMysql.Table.Dml

/-! What each row function does to the entry keys of one index. -/
namespace TidesdbMysql

open Base (Bytes leBytes SortedMap Derived NamesRow)
open List

theorem ftsBuildKey_inj {t u pk pk' : Bytes} (same : ftsBuildKey t pk = ftsBuildKey u pk') :
    t.take ftsMaxTermBytes = u.take ftsMaxTermBytes ∧ pk = pk' := by
  obtain ⟨lengths, rest⟩ := append_inj same (by simp)
  have small : ∀ n, min n ftsMaxTermBytes < 256 ^ 2 := by
    intro n
    have : min n ftsMaxTermBytes ≤ 512 := Nat.min_le_right _ _
    omega
  have len : min t.length ftsMaxTermBytes = min u.length ftsMaxTermBytes :=
    Base.leBytes_injective (small _) (small _) lengths
  exact append_inj rest (by rw [length_take, length_take, Nat.min_comm, len, Nat.min_comm])

theorem spatialBuildKey_inj {h h' : Nat} {pk pk' : Bytes}
    (same : spatialBuildKey h pk = spatialBuildKey h' pk') : pk = pk' :=
  (append_inj same (by simp)).2

theorem entryKeys_row {ix : Index} {k pk pk' : Bytes} {record record' : Record} {ra rb : Residue}
    (mem : k ∈ ix.entryKeys ra pk record) (mem' : k ∈ ix.entryKeys rb pk' record') : pk = pk' := by
  simp only [Index.entryKeys] at mem mem'
  cases kind : ix.kind with
  | ordinary unique =>
    simp only [kind, mem_singleton] at mem mem'
    exact (append_inj (mem.symm.trans mem') (by simp)).2
  | fulltext tokenize =>
    simp only [kind, mem_map] at mem mem'
    obtain ⟨t, -, rfl⟩ := mem
    obtain ⟨u, -, same⟩ := mem'
    exact (ftsBuildKey_inj same).2.symm
  | spatial mbr =>
    simp only [kind, mem_map] at mem mem'
    obtain ⟨e, -, rfl⟩ := mem
    obtain ⟨e', -, same⟩ := mem'
    exact (spatialBuildKey_inj same).symm

theorem entryKeys_names (ix : Index) (residue : Bytes → Residue) :
    NamesRow (fun pk record => ix.entryKeys (residue pk) pk record) :=
  fun mem mem' => entryKeys_row mem mem'

def Schema.pkKeyParts (T : Schema) : List KeyPart :=
  match T.pk with
  | some key => key.parts
  | none => []

def Index.storedParts (ix : Index) (T : Schema) : List KeyPart :=
  match ix.kind with
  | .ordinary _ => ix.key.parts ++ T.pkKeyParts
  | _ => []

variable {record : Record} {pk : Bytes} {req : Update}

theorem settled_append {xs ys : List KeyPart} : Settled (xs ++ ys) record ↔ Settled xs record ∧ Settled ys record :=
  forall_mem_append

theorem entryKeys_settled {ix : Index} {T : Schema} (settled : Settled (ix.storedParts T) record) (ra rb : Residue)
    (pk : Bytes) : ix.entryKeys ra pk record = ix.entryKeys rb pk record := by
  unfold Index.storedParts at settled
  unfold Index.entryKeys
  cases kind : ix.kind with
  | ordinary unique =>
    rw [kind] at settled
    simp only [makeComparableKey_settled (settled_append.mp settled).1 ra rb]
  | fulltext | spatial => rfl

structure KeyOf (T : Schema) (pk : Bytes) (record : Record) : Prop where
  user : ∀ key, T.pk = some key → ∃ r, makeComparableKey r key.parts record = pk
  hidden : T.pk = none → pk.length = 8

theorem KeyOf.nonempty {T : Schema} (key_of : KeyOf T pk record) : 0 < pk.length := by
  cases user : T.pk with
  | none => simp [key_of.hidden user]
  | some key =>
    obtain ⟨r, built⟩ := key_of.user key user
    rw [← built, makeComparableKey_length]
    exact comparableKeyLength_pos key

/- `sec_idx_key` rebuilds the primary key at the end of the entry. -/
theorem pkFromRecord_eq {T : Schema} (key_of : KeyOf T pk record) (settled : Settled T.pkKeyParts record)
    (residue : Residue) : pkFromRecord T residue pk record = pk := by
  unfold pkFromRecord
  unfold Schema.pkKeyParts at settled
  cases user : T.pk with
  | none => rfl
  | some key =>
    rw [user] at settled
    obtain ⟨r, built⟩ := key_of.user key user
    exact (makeComparableKey_settled settled residue r).trans built

variable {T : Schema} {m : SortedMap Bytes Bytes} {ix : Index} {i : Nat}

theorem secIdxKey_eq {unique : Bool} (kind : ix.kind = .ordinary unique) (key_of : KeyOf T pk record)
    (settled : Settled (ix.storedParts T) record) (residue pkResidue : Residue) :
    secIdxKey T ix residue pkResidue pk record = makeComparableKey residue ix.key.parts record ++ pk := by
  simp only [Index.storedParts, kind] at settled
  rw [secIdxKey, pkFromRecord_eq key_of (settled_append.mp settled).2]

theorem writeEntries_keys (scratch : Scratch)
    (settled : Settled (ix.storedParts T) record) (key_of : KeyOf T pk record) (residue : Residue) (k : Bytes) :
    (applyOps m (writeEntries T scratch pk record i ix)).HasKey k ↔
      k ∈ ix.entryKeys residue pk record ∨ m.HasKey k := by
  rw [entryKeys_settled settled residue (scratch.entry i)]
  simp only [writeEntries, Index.entryKeys]
  cases kind : ix.kind with
  | ordinary unique =>
    simp only [secIdxKey_eq kind key_of settled]
    simp [applyOps, CfOp.apply]
  | fulltext | spatial => exact hasKey_puts _ _ _ _ k

theorem deleteEntries_keys (req : Delete) (settled : Settled (ix.storedParts T) req.record)
    (key_of : KeyOf T req.current req.record) (residue : Residue) (k : Bytes) :
    (applyOps m (deleteEntries T req i ix)).HasKey k ↔
      k ∉ ix.entryKeys residue req.current req.record ∧ m.HasKey k := by
  rw [entryKeys_settled settled residue (req.scratch.entry i)]
  simp only [deleteEntries, Index.entryKeys]
  cases kind : ix.kind with
  | ordinary unique =>
    simp only [secIdxKey_eq kind key_of settled]
    simp [applyOps, CfOp.apply]
  | fulltext | spatial => exact hasKey_deletes _ _ _ k

def Update.Untouched (req : Update) : Prop :=
  ∀ c < max req.old.length req.new.length, c ∉ req.writeSet → column req.new c = column req.old c

instance (req : Update) : Decidable req.Untouched :=
  inferInstanceAs (Decidable (∀ c < max req.old.length req.new.length, c ∉ req.writeSet →
    column req.new c = column req.old c))

theorem Update.Untouched.column_eq (untouched : req.Untouched) {c : Nat}
    (outside : c ∉ req.writeSet) : column req.new c = column req.old c := by
  by_cases inside : c < max req.old.length req.new.length
  · exact untouched c inside outside
  · have old_end : req.old.length ≤ c := by omega
    have new_end : req.new.length ≤ c := by omega
    simp [column, old_end, new_end]

theorem Update.Untouched.parts_eq (untouched : req.Untouched) {key : Key} (skipped : key.touched req.writeSet = false) :
    ∀ kp ∈ key.parts, column req.new kp.field = column req.old kp.field := by
  intro kp mem
  apply untouched.column_eq
  simpa using any_eq_false.mp skipped kp mem

theorem ftsDocument_congr {parts : List KeyPart} {a b : Record}
    (same : ∀ kp ∈ parts, column a kp.field = column b kp.field) : ftsDocument parts a = ftsDocument parts b := by
  apply foldl_ext
  intro doc kp mem
  rw [same kp mem]

/-- With the primary key changed, full-text and spatial branches go by the write set: what they skip
must have had no entry. -/
def Index.Moves (ix : Index) (req : Update) : Prop :=
  match ix.kind with
  | .spatial mbr => ix.key.first.field ∈ req.writeSet ∨ spatialEntry mbr ix.key req.old = none
  | .fulltext tokenize => ix.key.touched req.writeSet = true ∨ ftsTerms tokenize ix.key req.old = []
  | .ordinary _ => True

instance (req : Update) (ix : Index) : Decidable (ix.Moves req) := by
  rcases ix with ⟨_, _ | _ | _⟩ <;> dsimp only [Index.Moves] <;> infer_instance

def Index.TermsApart (ix : Index) (old new : Record) : Prop :=
  match ix.kind with
  | .fulltext tokenize =>
    ∀ t ∈ ftsTerms tokenize ix.key old ++ ftsTerms tokenize ix.key new,
      ∀ u ∈ ftsTerms tokenize ix.key old ++ ftsTerms tokenize ix.key new,
        t.take ftsMaxTermBytes = u.take ftsMaxTermBytes → t = u
  | _ => True

instance (old new : Record) (ix : Index) : Decidable (ix.TermsApart old new) := by
  rcases ix with ⟨_, _ | _ | _⟩ <;> dsimp only [Index.TermsApart] <;> infer_instance

theorem kept_keys {image : List Bytes} (covered : ∀ k ∈ image, m.HasKey k) (k : Bytes) :
    m.HasKey k ↔ k ∈ image ∨ (k ∉ image ∧ m.HasKey k) := by
  by_cases here : k ∈ image
  · simp [here, covered k here]
  · simp [here]

theorem moved_key (oldIk newIk k : Bytes) (covered : m.HasKey oldIk) :
    (applyOps m (if oldIk = newIk then [] else [.delete oldIk, .put newIk emptyVal])).HasKey k ↔
      k ∈ [newIk] ∨ (k ∉ [oldIk] ∧ m.HasKey k) := by
  split
  · next same =>
    subst same
    exact kept_keys (forall_mem_singleton.mpr covered) k
  · simp [applyOps, CfOp.apply]

/- Same row, term by term: vanished terms are deleted, the postings that stay and do
not change are left alone. -/
theorem ftsDiff_keys {oldTokens newTokens : List Bytes}
    (apart : ∀ t ∈ oldTokens.dedup ++ newTokens.dedup, ∀ u ∈ oldTokens.dedup ++ newTokens.dedup,
      t.take ftsMaxTermBytes = u.take ftsMaxTermBytes → t = u)
    (covered : ∀ k ∈ oldTokens.dedup.map (ftsBuildKey · pk), m.HasKey k) (k : Bytes) :
    (applyOps m ((oldTokens.dedup.filter fun term => decide (term ∉ newTokens)).map
        (fun term => .delete (ftsBuildKey term pk)) ++
      (newTokens.dedup.filter (ftsNeedPut oldTokens newTokens)).map (ftsPut newTokens pk))).HasKey k ↔
      k ∈ newTokens.dedup.map (ftsBuildKey · pk) ∨ (k ∉ oldTokens.dedup.map (ftsBuildKey · pk) ∧ m.HasKey k) := by
  refine (hasKey_replace m _ (ftsBuildKey · pk) _ (ftsBuildKey · pk) _ k).trans ?_
  simp only [mem_map, mem_filter, mem_dedup, decide_eq_true_eq] at covered ⊢
  constructor
  · rintro (⟨t, ⟨fresh, -⟩, rfl⟩ | ⟨not_vanished, has⟩)
    · exact Or.inl ⟨t, fresh, rfl⟩
    · by_cases was : ∃ t ∈ oldTokens, ftsBuildKey t pk = k
      · obtain ⟨t, old, rfl⟩ := was
        by_cases stays : t ∈ newTokens
        · exact Or.inl ⟨t, stays, rfl⟩
        · exact absurd ⟨t, ⟨old, stays⟩, rfl⟩ not_vanished
      · exact Or.inr ⟨was, has⟩
  · rintro (⟨t, fresh, rfl⟩ | ⟨foreign, has⟩)
    · cases need : ftsNeedPut oldTokens newTokens t with
      | true => exact Or.inl ⟨t, ⟨fresh, need⟩, rfl⟩
      | false =>
        have old : t ∈ oldTokens := by
          simp only [ftsNeedPut, Bool.or_eq_false_iff, Bool.not_eq_false', decide_eq_true_eq] at need
          exact need.1.1
        refine Or.inr ⟨?_, covered _ ⟨t, old, rfl⟩⟩
        rintro ⟨u, ⟨was, gone⟩, same⟩
        have equal : u = t := apart u (by simp [was]) t (by simp [fresh]) (ftsBuildKey_inj same).1
        exact gone (equal ▸ fresh)
    · exact Or.inr ⟨fun ⟨t, vanished, here⟩ => foreign ⟨t, vanished.1, here⟩, has⟩

theorem skipped_keys (image : Bytes → List Bytes) (current pk : Bytes)
    (covered : ∀ k ∈ image current, m.HasKey k) (none_there : current ≠ pk → ∀ key, image key = [])
    (k : Bytes) : m.HasKey k ↔ k ∈ image pk ∨ (k ∉ image current ∧ m.HasKey k) := by
  by_cases same_pk : current = pk
  · rw [← same_pk]
    exact kept_keys covered k
  · simp [none_there same_pk]

theorem ordinaryUpdate_keys {unique : Bool} (kind : ix.kind = .ordinary unique)
    (untouched : req.Untouched) (settled_old : Settled (ix.storedParts T) req.old)
    (settled_new : Settled (ix.storedParts T) req.new) (key_of : KeyOf T pk req.new)
    (covered : m.HasKey (makeComparableKey (req.scratch.oldEntry i) ix.key.parts req.old ++ req.current)) (k : Bytes) :
    (applyOps m (updateEntries T req pk i ix)).HasKey k ↔
      k ∈ [makeComparableKey (req.scratch.entry i) ix.key.parts req.new ++ pk] ∨
        (k ∉ [makeComparableKey (req.scratch.oldEntry i) ix.key.parts req.old ++ req.current] ∧ m.HasKey k) := by
  simp only [updateEntries, kind]
  split
  · next skipped =>
    obtain ⟨same_pk, skipped⟩ := skipped
    have same : makeComparableKey (req.scratch.entry i) ix.key.parts req.new =
        makeComparableKey (req.scratch.oldEntry i) ix.key.parts req.old := by
      simp only [Index.storedParts, kind] at settled_old
      rw [makeComparableKey_congr _ (untouched.parts_eq skipped)]
      exact makeComparableKey_settled (settled_append.mp settled_old).1 _ _
    rw [same, ← same_pk]
    exact kept_keys (forall_mem_singleton.mpr covered) k
  · simp only [secIdxKey_eq kind key_of settled_new]
    exact moved_key _ _ k covered

theorem ftsUpdate_keys {tokenize : Bytes → List Bytes} (kind : ix.kind = .fulltext tokenize) (untouched : req.Untouched)
    (moves : req.current ≠ pk → ix.Moves req) (apart : ix.TermsApart req.old req.new)
    (covered : ∀ k ∈ (ftsTerms tokenize ix.key req.old).map (ftsBuildKey · req.current), m.HasKey k) (k : Bytes) :
    (applyOps m (updateEntries T req pk i ix)).HasKey k ↔
      k ∈ (ftsTerms tokenize ix.key req.new).map (ftsBuildKey · pk) ∨
        (k ∉ (ftsTerms tokenize ix.key req.old).map (ftsBuildKey · req.current) ∧ m.HasKey k) := by
  simp only [updateEntries, Index.Moves, Index.TermsApart, kind] at moves apart ⊢
  cases touched : ix.key.touched req.writeSet with
  | true =>
    simp only [if_true, ftsUpdate]
    split
    · exact hasKey_replace m _ (ftsBuildKey · req.current) _ (ftsBuildKey · pk) _ k
    · next same_pk =>
      rw [not_not] at same_pk
      rw [← same_pk]
      exact ftsDiff_keys apart covered k
  | false =>
    have same : ftsTerms tokenize ix.key req.new = ftsTerms tokenize ix.key req.old :=
      congrArg (dedup ∘ tokenize) (ftsDocument_congr (untouched.parts_eq touched))
    rw [same]
    refine skipped_keys (fun key => (ftsTerms tokenize ix.key req.old).map (ftsBuildKey · key))
      req.current pk covered ?_ k
    intro changed key
    rw [(moves changed).resolve_left (by simp [touched]), map_nil]

theorem spatialUpdate_keys {mbr : Bytes → Option (Nat × Bytes)}
    (kind : ix.kind = .spatial mbr) (untouched : req.Untouched) (moves : req.current ≠ pk → ix.Moves req)
    (covered : ∀ k ∈ (spatialEntry mbr ix.key req.old).toList.map
      (fun e => spatialBuildKey e.1 req.current), m.HasKey k) (k : Bytes) :
    (applyOps m (updateEntries T req pk i ix)).HasKey k ↔
      k ∈ (spatialEntry mbr ix.key req.new).toList.map (fun e => spatialBuildKey e.1 pk) ∨
        (k ∉ (spatialEntry mbr ix.key req.old).toList.map (fun e => spatialBuildKey e.1 req.current) ∧ m.HasKey k) := by
  simp only [updateEntries, Index.Moves, kind] at moves ⊢
  split
  · exact hasKey_replace m _ (fun e : Nat × Bytes => spatialBuildKey e.1 req.current) _
      (fun e : Nat × Bytes => spatialBuildKey e.1 pk) _ k
  · next outside =>
    have same : spatialEntry mbr ix.key req.new = spatialEntry mbr ix.key req.old := by
      simp only [spatialEntry, untouched.column_eq outside]
    rw [same]
    refine skipped_keys (fun key => (spatialEntry mbr ix.key req.old).toList.map
      (fun e : Nat × Bytes => spatialBuildKey e.1 key)) req.current pk covered (fun changed key => ?_) k
    rw [(moves changed).resolve_left outside, Option.toList_none, map_nil]

/-- `update_row` on one index: the entries of the old version give way to those of
the new one. -/
theorem updateEntries_keys (untouched : req.Untouched)
    (settled_old : Settled (ix.storedParts T) req.old) (settled_new : Settled (ix.storedParts T) req.new)
    (key_of : KeyOf T pk req.new) (moves : req.current ≠ pk → ix.Moves req)
    (apart : ix.TermsApart req.old req.new) (ra rb : Residue)
    (covered : ∀ k ∈ ix.entryKeys ra req.current req.old, m.HasKey k) (k : Bytes) :
    (applyOps m (updateEntries T req pk i ix)).HasKey k ↔
      k ∈ ix.entryKeys rb pk req.new ∨ (k ∉ ix.entryKeys ra req.current req.old ∧ m.HasKey k) := by
  rw [entryKeys_settled settled_old ra (req.scratch.oldEntry i)] at covered ⊢
  rw [entryKeys_settled settled_new rb (req.scratch.entry i)]
  unfold Index.entryKeys at covered ⊢
  cases kind : ix.kind with
  | ordinary unique =>
    simp only [kind, forall_mem_singleton] at covered ⊢
    exact ordinaryUpdate_keys kind untouched settled_old settled_new key_of covered k
  | fulltext tokenize =>
    simp only [kind] at covered ⊢
    exact ftsUpdate_keys kind untouched moves apart covered k
  | spatial mbr =>
    simp only [kind] at covered ⊢
    exact spatialUpdate_keys kind untouched moves covered k

end TidesdbMysql
