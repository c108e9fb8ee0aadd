import Mathlib.Data.List.Basic

/-! Programs that call a service which may refuse any call, and what such a program makes of the first
refusal. -/
namespace TidesdbMysql.Base
open List Option

/-- A program ends, looks at the state of the service, or makes a call and goes on with the answer. -/
inductive Prog (S C : Type) (Ans : C → Type) (A : Type) where
  | ret (a : A)
  | see (rest : S → Prog S C Ans A)
  | call (c : C) (rest : Ans c → Prog S C Ans A)

structure Service (S C : Type) (Ans : C → Type) (F : Type) where
  serve : (c : C) → S → Ans c × S
  refuse : (c : C) → F → Ans c

/-- The calls that are refused, by number. Nothing is known of the state a refused call leaves. -/
abbrev Faults (F S : Type) := Nat → Option (F × S)

namespace Prog

variable {S C F A B : Type} {Ans : C → Type}

def bind : Prog S C Ans A → (A → Prog S C Ans B) → Prog S C Ans B
  | .ret a, g => g a
  | .see rest, g => .see fun s => (rest s).bind g
  | .call c rest, g => .call c fun answer => (rest answer).bind g

instance : Monad (Prog S C Ans) where
  pure := .ret
  bind := .bind

def ask (c : C) : Prog S C Ans (Ans c) := .call c .ret

section Runs

variable (V : Service S C Ans F)

def run (faults : Faults F S) : Prog S C Ans A → Nat → S → A × Nat × S
  | .ret a, n, s => (a, n, s)
  | .see rest, n, s => (rest s).run faults n s
  | .call c rest, n, s =>
    match faults n with
    | none => (rest (V.serve c s).1).run faults (n + 1) (V.serve c s).2
    | some (f, left) => (rest (V.refuse c f)).run faults (n + 1) left

def quiet : Prog S C Ans A → S → A × S
  | .ret a, s => (a, s)
  | .see rest, s => (rest s).quiet s
  | .call c rest, s => (rest (V.serve c s).1).quiet (V.serve c s).2

def stops (f : F) : Prog S C Ans A → S → List (C × Prog S C Ans A)
  | .ret _, _ => []
  | .see rest, s => (rest s).stops f s
  | .call c rest, s => (c, rest (V.refuse c f)) :: (rest (V.serve c s).1).stops f (V.serve c s).2

def trace : Prog S C Ans A → S → List C
  | .ret _, _ => []
  | .see rest, s => (rest s).trace s
  | .call c rest, s => c :: (rest (V.serve c s).1).trace (V.serve c s).2

def Every (Q : A → Prop) : Prog S C Ans A → Prop
  | .ret a => Q a
  | .see rest => ∀ s, (rest s).Every Q
  | .call _ rest => ∀ answer, (rest answer).Every Q

variable {V}

theorem quiet_bind (p : Prog S C Ans A) (g : A → Prog S C Ans B) (s : S) :
    (p >>= g).quiet V s = (g (p.quiet V s).1).quiet V (p.quiet V s).2 := by
  induction p generalizing s with
  | ret a => rfl
  | see rest ih => exact ih s s
  | call c rest ih => exact ih _ _

variable {p : Prog S C Ans A} {n : Nat} {faults : Faults F S}

theorem Every.run {Q : A → Prop} (each : p.Every Q) (faults : Faults F S) (n : Nat) (s : S) :
    Q (p.run V faults n s).1 := by
  induction p generalizing n s with
  | ret a => exact each
  | see rest ih => exact ih s (each s) n s
  | call c rest ih =>
    rw [Prog.run]
    split <;> exact ih _ (each _) _ _

theorem Every.quiet {Q : A → Prop} (each : p.Every Q) (s : S) : Q (p.quiet V s).1 := by
  induction p generalizing s with
  | ret a => exact each
  | see rest ih => exact ih s (each s) s
  | call c rest ih => exact ih _ (each _) _

theorem stops_calls (f : F) (p : Prog S C Ans A) (s : S) : (p.stops V f s).map Prod.fst = p.trace V s := by
  induction p generalizing s with
  | ret a => rfl
  | see rest ih => exact ih s s
  | call c rest ih => exact congrArg (c :: ·) (ih _ _)

theorem run_congr {faults faults' : Faults F S} (s : S)
    (same : ∀ i, n ≤ i → faults i = faults' i) : p.run V faults n s = p.run V faults' n s := by
  induction p generalizing n s with
  | ret a => rfl
  | see rest ih => exact ih s s same
  | call c rest ih =>
    rw [run, run, same n (Nat.le_refl n)]
    split <;> exact ih _ _ fun i later => same i (by omega)

theorem run_quiet {s : S} (served : ∀ i < (p.trace V s).length, faults (n + i) = none) :
    p.run V faults n s = ((p.quiet V s).1, n + (p.trace V s).length, (p.quiet V s).2) := by
  induction p generalizing n s with
  | ret a => rfl
  | see rest ih => exact ih s served
  | call c rest ih =>
    have now : faults n = none := served 0 (Nat.succ_pos _)
    have later := ih (V.serve c s).1 fun i small => by
      rw [Nat.add_assoc, Nat.add_comm 1 i]
      exact served (i + 1) (Nat.succ_lt_succ small)
    rw [run, now]
    rw [later, trace, quiet, length_cons, Nat.add_assoc, Nat.add_comm 1]

theorem run_stops {n i : Nat} {s left : S} {f : F} {x : C × Prog S C Ans A} (here : (p.stops V f s)[i]? = some x)
    (before : ∀ j < i, faults (n + j) = none) (refused : faults (n + i) = some (f, left)) :
    p.run V faults n s = x.2.run V faults (n + i + 1) left := by
  induction p generalizing n i s with
  | ret a => cases here
  | see rest ih => exact ih s here before refused
  | call c rest ih =>
    cases i with
    | zero =>
      cases here
      have now : faults n = some (f, left) := refused
      rw [run, now]
    | succ i =>
      have now : faults n = none := before 0 (Nat.succ_pos _)
      have next_number : ∀ j, n + 1 + j = n + (j + 1) := fun j => by omega
      rw [run, now]
      have served : ∀ j < i, faults (n + 1 + j) = none := by
        intro j small
        rw [next_number]
        exact before (j + 1) (Nat.succ_lt_succ small)
      rw [ih (V.serve c s).1 here served (by rw [next_number]; exact refused), next_number]

theorem run_stops_first {s left : S} {f : F}
    {x : C × Prog S C Ans A} (here : (p.stops V f s)[n]? = some x) (before : ∀ i < n, faults i = none)
    (refused : faults n = some (f, left)) : p.run V faults 0 s = x.2.run V faults (n + 1) left := by
  have reached : p.run V faults 0 s = x.2.run V faults (0 + n + 1) left := by
    refine run_stops here (fun j small => ?_) ?_
    · rw [Nat.zero_add]
      exact before j small
    · rw [Nat.zero_add]
      exact refused
  rwa [Nat.zero_add] at reached

theorem le_run_calls (faults : Faults F S) (p : Prog S C Ans A) (n : Nat) (s : S) : n ≤ (p.run V faults n s).2.1 := by
  induction p generalizing n s with
  | ret a => exact Nat.le_refl n
  | see rest ih => exact ih s n s
  | call c rest ih =>
    rw [run]
    split <;> exact Nat.le_trans (Nat.le_succ n) (ih _ _ _)

end Runs

section First

variable (V : Service S C Ans F)

def Begins (first : Option (Nat × F)) (faults : Faults F S) : Prop :=
  match first with
  | none => ∀ n, faults n = none
  | some (n, f) => (∀ i < n, faults i = none) ∧ ∃ left, faults n = some (f, left)

def struck (first : Option (Nat × F)) (p : Prog S C Ans A) (s : S) : Option C :=
  first.bind fun x => (p.trace V s)[x.1]?

/-- With more to come the program does not say it is at the end, and tells of a refused call. -/
def Honest (ends told : A → Prop) (further : Prop) (first : Option (Nat × F)) (p : Prog S C Ans A) (s : S) : Prop :=
  ∀ faults, Begins first faults →
    (ends (p.run V faults 0 s).1 → ¬ further) ∧
      (further → (∃ n < (p.run V faults 0 s).2.1, faults n ≠ none) → told (p.run V faults 0 s).1)

variable {V}

variable {p : Prog S C Ans A} {s : S}

theorem run_refused {n : Nat} {f : F} {x : C × Prog S C Ans A}
    (here : (p.stops V f s)[n]? = some x) (left : S) (later : Faults F S) :
    ∃ faults, Begins (some (n, f)) faults ∧ (∃ i < (p.run V faults 0 s).2.1, faults i ≠ none) ∧
      (p.run V faults 0 s).1 = (x.2.run V later (n + 1) left).1 := by
  let faults : Faults F S := fun i => if i < n then none else if i = n then some (f, left) else later i
  have before : ∀ i < n, faults i = none := fun i small => if_pos small
  have now : faults n = some (f, left) := by
    simp [faults]
  have after : ∀ i, n + 1 ≤ i → faults i = later i := by
    intro i large
    have above : ¬ i < n ∧ i ≠ n := by omega
    simp [faults, above]
  have stopped : p.run V faults 0 s = x.2.run V faults (n + 1) left := run_stops_first here before now
  refine ⟨faults, ⟨before, left, now⟩, ⟨n, ?_, ?_⟩, ?_⟩
  · rw [stopped]
    exact le_run_calls faults x.2 (n + 1) left
  · rw [now]
    exact some_ne_none _
  · rw [stopped, run_congr left after]

theorem begins_run {first : Option (Nat × F)} {faults : Faults F S} (begins : Begins first faults) :
    match struck V first p s with
    | none => p.run V faults 0 s = ((p.quiet V s).1, (p.trace V s).length, (p.quiet V s).2) ∧
        ∀ n < (p.trace V s).length, faults n = none
    | some c => ∃ f n left q, first = some (n, f) ∧ (p.stops V f s)[n]? = some (c, q) ∧
        p.run V faults 0 s = q.run V faults (n + 1) left := by
  have at_end : (∀ n < (p.trace V s).length, faults n = none) →
      p.run V faults 0 s = ((p.quiet V s).1, (p.trace V s).length, (p.quiet V s).2) := by
    intro served
    have whole : p.run V faults 0 s = ((p.quiet V s).1, 0 + (p.trace V s).length, (p.quiet V s).2) := by
      refine run_quiet fun i small => ?_
      rw [Nat.zero_add]
      exact served i small
    rwa [Nat.zero_add] at whole
  cases first with
  | none => exact ⟨at_end fun n _ => begins n, fun n _ => begins n⟩
  | some x =>
    obtain ⟨n, f⟩ := x
    obtain ⟨before, left, now⟩ := begins
    cases call : struck V (some (n, f)) p s with
    | none =>
      have outside : (p.trace V s).length ≤ n := getElem?_eq_none_iff.mp call
      have served : ∀ i < (p.trace V s).length, faults i = none :=
        fun i small => before i (Nat.lt_of_lt_of_le small outside)
      exact ⟨at_end served, served⟩
    | some c =>
      have inside : (p.trace V s)[n]? = some c := call
      rw [← stops_calls f, getElem?_map] at inside
      obtain ⟨⟨c', q⟩, here, rfl⟩ := map_eq_some_iff.mp inside
      exact ⟨f, n, left, q, rfl, here, run_stops_first here before now⟩

/- Some calls are reported when struck; behind the others a run can end without a word. -/
theorem honest_iff {ends told : A → Prop} {further : Prop} {reported : C → Prop} (apart : ∀ a, told a → ¬ ends a)
    (reports : ∀ f, ∀ x ∈ p.stops V f s, reported x.1 → x.2.Every told)
    (hides : ∀ f, ∀ x ∈ p.stops V f s, ¬ reported x.1 → ∀ n, ∃ left later, ¬ told (x.2.run V later n left).1)
    (first : Option (Nat × F)) : Honest V ends told further first p s ↔ (further → match struck V first p s with
        | none => ¬ ends (p.quiet V s).1 | some c => reported c) := by
  constructor
  · intro honest more
    cases call : struck V first p s with
    | none =>
      obtain ⟨faults, begins⟩ : ∃ faults : Faults F S, Begins first faults := by
        cases first with
        | none => exact ⟨fun _ => none, fun _ => rfl⟩
        | some x =>
          refine ⟨fun i => if i = x.1 then some (x.2, s) else none, fun i small => ?_, s, if_pos rfl⟩
          exact if_neg (Nat.ne_of_lt small)
      have ran := begins_run (V := V) (p := p) (s := s) begins
      rw [call] at ran
      intro ended
      refine (honest faults begins).1 ?_ more
      rw [ran.1]
      exact ended
    | some c =>
      cases first with
      | none => cases call
      | some x =>
        have inside : (p.trace V s)[x.1]? = some c := call
        rw [← stops_calls x.2, getElem?_map] at inside
        obtain ⟨⟨c', q⟩, here, rfl⟩ := map_eq_some_iff.mp inside
        refine Classical.byContradiction fun silent => ?_
        obtain ⟨left, later, hidden⟩ := hides x.2 (c', q) (mem_of_getElem? here) silent (x.1 + 1)
        obtain ⟨faults, begins, failed, answer⟩ := run_refused here left later
        refine hidden ?_
        rw [← answer]
        exact (honest faults begins).2 more failed
  · intro condition faults begins
    have ran := begins_run (V := V) (p := p) (s := s) begins
    cases call : struck V first p s with
    | none =>
      rw [call] at condition ran
      rw [ran.1]
      refine ⟨fun ended more => condition more ended, fun _ failed => ?_⟩
      obtain ⟨n, small, refused⟩ := failed
      exact absurd (ran.2 n small) refused
    | some c =>
      rw [call] at condition ran
      obtain ⟨f, n, left, q, -, here, same⟩ := ran
      have tells : further → told (p.run V faults 0 s).1 := by
        intro more
        rw [same]
        exact (reports f (c, q) (mem_of_getElem? here) (condition more)).run faults (n + 1) left
      exact ⟨fun ended more => apart _ (tells more) ended, fun more _ => tells more⟩

end First

section Confesses

variable (V : Service S C Ans F)

def Reaches (Q : A → Prop) : Prog S C Ans A → S → Prop
  | .ret a, _ => Q a
  | .see rest, s => (rest s).Reaches Q s
  | .call c rest, s => (rest (V.serve c s).1).Reaches Q (V.serve c s).2 ∨
      ∃ f left, (rest (V.refuse c f)).Reaches Q left

/-- A refused call that is reported is told of in every case, behind any other a run can end without a word. -/
def Confesses (reported : C → Prop) (told : A → Prop) : Prog S C Ans A → Prop
  | .ret _ => True
  | .see rest => ∀ s, (rest s).Confesses reported told
  | .call c rest => (∀ s, (rest (V.serve c s).1).Confesses reported told) ∧
      (reported c → ∀ f, (rest (V.refuse c f)).Every told) ∧
      (¬ reported c → ∀ f, ∃ left, (rest (V.refuse c f)).Reaches V (fun a => ¬ told a) left)

variable {V} {reported : C → Prop}

variable {p : Prog S C Ans A} {s : S}

theorem reaches_quiet {Q : A → Prop} (holds : Q (p.quiet V s).1) : p.Reaches V Q s := by
  induction p generalizing s with
  | ret a => exact holds
  | see rest ih => exact ih s holds
  | call c rest ih => exact .inl (ih _ holds)

theorem Reaches.run {Q : A → Prop} (reaches : p.Reaches V Q s) (n : Nat) :
    ∃ later : Faults F S, Q (p.run V later n s).1 := by
  induction p generalizing n s with
  | ret a => exact ⟨fun _ => none, reaches⟩
  | see rest ih => exact ih s reaches n
  | call c rest ih =>
    have kept : ∀ (later : Faults F S) answer (q : Prog S C Ans A) left,
        q.run V (fun i => if i = n then answer else later i) (n + 1) left = q.run V later (n + 1) left := by
      intro later answer q left
      apply run_congr left
      intro i large
      exact if_neg (by omega)
    rcases reaches with served | ⟨f, left, refused⟩
    · obtain ⟨later, ends⟩ := ih _ served (n + 1)
      refine ⟨fun i => if i = n then none else later i, ?_⟩
      rw [Prog.run, if_pos rfl]
      rw [kept]
      exact ends
    · obtain ⟨later, ends⟩ := ih _ refused (n + 1)
      refine ⟨fun i => if i = n then some (f, left) else later i, ?_⟩
      rw [Prog.run, if_pos rfl]
      dsimp only
      rw [kept]
      exact ends

theorem Confesses.stops {told : A → Prop} (confesses : p.Confesses V reported told) {f : F}
    {x : C × Prog S C Ans A} (mem : x ∈ p.stops V f s) :
    (reported x.1 → x.2.Every told) ∧ (¬ reported x.1 → ∃ left, x.2.Reaches V (fun a => ¬ told a) left) := by
  induction p generalizing s with
  | ret a => cases mem
  | see rest ih => exact ih s (confesses s) mem
  | call c rest ih =>
    rcases mem_cons.mp mem with rfl | later
    · exact ⟨fun important => confesses.2.1 important f, fun minor => confesses.2.2 minor f⟩
    · exact ih _ (confesses.1 s) later

theorem Confesses.honest_iff {ends told : A → Prop} {further : Prop}
    (confesses : p.Confesses V reported told) (distinct : ∀ a, told a → ¬ ends a) (first : Option (Nat × F)) (s : S) :
    Honest V ends told further first p s ↔ (further → match struck V first p s with
        | none => ¬ ends (p.quiet V s).1 | some c => reported c) := by
  refine Prog.honest_iff distinct (fun f x mem => (confesses.stops mem).1) (fun f x mem minor n => ?_) first
  obtain ⟨left, reaches⟩ := (confesses.stops mem).2 minor
  exact ⟨left, reaches.run n⟩

end Confesses

section Tells

variable (V : Service S C Ans F) (reported : C → Prop)

/-- Where a call that is reported is refused the program ends with `told`, on every other way with `plain`. -/
def Tells (plain told : A → Prop) : Prog S C Ans A → Prop
  | .ret a => plain a
  | .see rest => ∀ s, (rest s).Tells plain told
  | .call c rest => (∀ s, (rest (V.serve c s).1).Tells plain told) ∧
      (reported c → ∀ f, (rest (V.refuse c f)).Every told) ∧
      (¬ reported c → ∀ f, (rest (V.refuse c f)).Tells plain told)

variable {V reported}

theorem Tells.quiet {plain told : A → Prop} {p : Prog S C Ans A} (tells : p.Tells V reported plain told) (s : S) :
    plain (p.quiet V s).1 := by
  induction p generalizing s with
  | ret a => exact tells
  | see rest ih => exact ih s (tells s) s
  | call c rest ih => exact ih _ (tells.1 s) _

theorem Tells.confesses [Nonempty S] {told : A → Prop} {p : Prog S C Ans A}
    (tells : p.Tells V reported (fun a => ¬ told a) told) : p.Confesses V reported told := by
  obtain ⟨somewhere⟩ := ‹Nonempty S›
  induction p with
  | ret a => trivial
  | see rest ih => exact fun s => ih s (tells s)
  | call c rest ih =>
    obtain ⟨served, important, minor⟩ := tells
    exact ⟨fun s => ih _ (served s), important, fun not f => ⟨somewhere, reaches_quiet ((minor not f).quiet somewhere)⟩⟩

theorem tells_silent (p : Prog S C Ans A) : p.Tells V (fun _ => False) (fun _ => ¬ False) fun _ => False := by
  induction p with
  | ret a => exact not_false
  | see rest ih => exact ih
  | call c rest ih => exact ⟨fun _ => ih _, fun important => important.elim, fun _ _ => ih _⟩

end Tells

section Settles

variable (decides : (c : C) → Ans c → Prop)

def Settles (settled : A → Prop) : Prog S C Ans A → Prop
  | .ret _ => True
  | .see rest => ∀ s, (rest s).Settles settled
  | .call c rest => ∀ answer, (rest answer).Settles settled ∧ (decides c answer → (rest answer).Every settled)

def Hears (V : Service S C Ans F) : Prog S C Ans A → S → Prop
  | .ret _, _ => False
  | .see rest, s => (rest s).Hears V s
  | .call c rest, s => decides c (V.serve c s).1 ∨ (rest (V.serve c s).1).Hears V (V.serve c s).2

variable {decides}

theorem settles_ask {settled : B → Prop} {c : C} {g : Ans c → Prog S C Ans B}
    (each : ∀ answer, (g answer).Settles decides settled ∧ (decides c answer → (g answer).Every settled)) :
    (ask c >>= g : Prog S C Ans B).Settles decides settled := each

theorem Settles.hears {V : Service S C Ans F} {settled : A → Prop} {p : Prog S C Ans A} (settles : p.Settles decides settled)
    {s : S} (hears : p.Hears decides V s) : settled (p.quiet V s).1 := by
  induction p generalizing s with
  | ret a => exact hears.elim
  | see rest ih => exact ih s (settles s) hears
  | call c rest ih =>
    rcases hears with decided | later
    · exact ((settles _).2 decided).quiet _
    · exact ih _ (settles _).1 later

end Settles

end Prog

end TidesdbMysql.Base
