import Mathlib.Data.List.Basic

/-! Runs of a step function with a result at every step. A run is a list of
events; a side condition may be asked of every event in the state it meets. -/
namespace TidesdbMysql.Base
open List

variable {S E R : Type}

def run (step : S → E → S × R) (s : S) : List E → S
  | [] => s
  | e :: rest => run step (step s e).1 rest

def results (step : S → E → S × R) (s : S) : List E → List R
  | [] => []
  | e :: rest => (step s e).2 :: results step (step s e).1 rest

def Along (step : S → E → S × R) (ok : S → E → Prop) : S → List E → Prop
  | _, [] => True
  | s, e :: rest => ok s e ∧ Along step ok (step s e).1 rest

instance decidableAlong (step : S → E → S × R) (ok : S → E → Prop) [∀ s e, Decidable (ok s e)]
    (s : S) : (es : List E) → Decidable (Along step ok s es)
  | [] => isTrue trivial
  | e :: rest =>
    have := decidableAlong step ok (step s e).1 rest
    inferInstanceAs (Decidable (ok s e ∧ Along step ok (step s e).1 rest))

section
variable (step : S → E → S × R) (ok : S → E → Prop) (s : S) (es xs ys : List E)

theorem run_append : run step s (xs ++ ys) = run step (run step s xs) ys := by
  induction xs generalizing s with
  | nil => rfl
  | cons e rest ih => exact ih (step s e).1

theorem along_append : Along step ok s (xs ++ ys) ↔ Along step ok s xs ∧ Along step ok (run step s xs) ys := by
  induction xs generalizing s with
  | nil => simp [Along, run]
  | cons e rest ih => simp only [cons_append, Along, run, ih, and_assoc]

theorem along_flatMap {B : Type} (events : B → List E) (s : S) (bs : List B) : Along step ok s (bs.flatMap events) ↔
      Along (fun s b => (run step s (events b), ())) (fun s b => Along step ok s (events b)) s bs := by
  induction bs generalizing s with
  | nil => exact Iff.rfl
  | cons b rest ih =>
    rw [flatMap_cons, along_append, ih]
    exact Iff.rfl

theorem along_true : Along step (fun _ _ => True) s es := by
  induction es generalizing s with
  | nil => trivial
  | cons e rest ih => exact ⟨trivial, ih _⟩

end

variable {ok : S → E → Prop} {es : List E} {s : S}

theorem along_of_forall (step : S → E → S × R) (all : ∀ e ∈ es, ∀ s, ok s e) (s : S) : Along step ok s es := by
  induction es generalizing s with
  | nil => trivial
  | cons e rest ih =>
    rw [forall_mem_cons] at all
    exact ⟨all.1 s, ih all.2 _⟩

theorem along_and (step : S → E → S × R) {p q : S → E → Prop} (hp : Along step p s es) (hq : Along step q s es) :
    Along step (fun s e => p s e ∧ q s e) s es := by
  induction es generalizing s with
  | nil => trivial
  | cons e rest ih => exact ⟨⟨hp.1, hq.1⟩, ih hp.2 hq.2⟩

theorem results_iff_along (step : S → E → S × R) {good : R → Prop} (s : S) (es : List E) :
    (∀ r ∈ results step s es, good r) ↔ Along step (fun s e => good (step s e).2) s es := by
  induction es generalizing s with
  | nil => exact iff_of_true nofun trivial
  | cons e rest ih => rw [results, forall_mem_cons, ih, Along]

theorem run_invariant (step : S → E → S × R) (inv : S → Prop) (preserves : ∀ s e, inv s → ok s e → inv (step s e).1)
    (initial : inv s) (along : Along step ok s es) : inv (run step s es) := by
  induction es generalizing s with
  | nil => exact initial
  | cons e rest ih => exact ih (preserves s e initial along.1) along.2

theorem results_append (step : S → E → S × R) (s : S) (xs ys : List E) :
    results step s (xs ++ ys) = results step s xs ++ results step (run step s xs) ys := by
  induction xs generalizing s with
  | nil => rfl
  | cons e rest ih => simp only [cons_append, results, run, ih]

theorem run_accumulates {A : Type} (step : S → E → S × R) (inv : S → Prop)
    (preserves : ∀ s e, inv s → ok s e → inv (step s e).1) (total : S → List A) (part : R → List A)
    (lengthens : ∀ s e, inv s → ok s e → total (step s e).1 = total s ++ part (step s e).2) (initial : inv s)
    (along : Along step ok s es) : total (run step s es) = total s ++ (results step s es).flatMap part := by
  induction es generalizing s with
  | nil => simp [run, results]
  | cons e rest ih =>
    rw [run, ih (preserves s e initial along.1) along.2, lengthens s e initial along.1]
    simp [results]

/-- Where steps keep the invariant just when safe, it holds along a run just when it holds first and
every step is safe. -/
theorem run_invariant_iff (step : S → E → S × R) {ok safe : S → E → Prop} {known inv : S → Prop}
    (knows : ∀ s e, known s → ok s e → known (step s e).1)
    (keeps : ∀ s e, known s → ok s e → inv s → (inv (step s e).1 ↔ safe s e)) (start : known s)
    (along : Along step ok s es) : (∀ done, done <+: es → inv (run step s done)) ↔ inv s ∧ Along step safe s es := by
  induction es generalizing s with
  | nil =>
    refine ⟨fun holds => ⟨holds [] nil_prefix, trivial⟩, fun holds done reached => ?_⟩
    rw [prefix_nil.mp reached]
    exact holds.1
  | cons e rest ih =>
    have later := ih (knows s e start along.1) along.2
    constructor
    · intro holds
      have now : inv s := holds [] nil_prefix
      obtain ⟨next, safe_rest⟩ := later.mp fun done reached =>
        holds (e :: done) (cons_prefix_cons.mpr ⟨rfl, reached⟩)
      exact ⟨now, (keeps s e start along.1 now).mp next, safe_rest⟩
    · rintro ⟨now, safe_now, safe_rest⟩ done reached
      cases done with
      | nil => exact now
      | cons e' done =>
        obtain ⟨rfl, reached_rest⟩ := cons_prefix_cons.mp reached
        exact later.mpr ⟨(keeps s e' start along.1 now).mpr safe_now, safe_rest⟩ done reached_rest

/-- Two conditions on steps that agree where the invariant holds agree along a run, where the first
keeps the invariant. -/
theorem along_congr (step : S → E → S × R) {ok p q : S → E → Prop} (inv : S → Prop)
    (agree : ∀ s e, inv s → ok s e → (p s e ↔ q s e)) (keeps : ∀ s e, inv s → ok s e → p s e → inv (step s e).1)
    (initial : inv s) (along : Along step ok s es) : Along step p s es ↔ Along step q s es := by
  induction es generalizing s with
  | nil => exact Iff.rfl
  | cons e rest ih =>
    have now := agree s e initial along.1
    constructor
    · rintro ⟨here, later⟩
      exact ⟨now.mp here, (ih (keeps s e initial along.1 here) along.2).mp later⟩
    · rintro ⟨here, later⟩
      exact ⟨now.mpr here, (ih (keeps s e initial along.1 (now.mpr here)) along.2).mpr later⟩

end TidesdbMysql.Base
