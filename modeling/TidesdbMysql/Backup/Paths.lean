import TidesdbMysql.Ddl.Names

/-! Where a backup may go: `tdb_path_is_safe` and `tdb_path_is_under_allowed_root` over a file system with
symbolic links. -/
namespace TidesdbMysql
open List Option

namespace Backup

abbrev Component := {n : Name // n ≠ [] ∧ '/' ∉ n}

/- A path without links, from the root of the file system on. -/
abbrev Canonical := List Component

inductive Node where
  | directory | file
  | link (target : Name)

structure FileSystem where
  node : Canonical → Option Node
  cwd : Canonical
  limit : Nat

def components (path : Name) : List Component :=
  (path.splitOn '/').filterMap fun c => if plain : c ≠ [] ∧ '/' ∉ c then if c = ['.'] then none else some ⟨c, plain⟩ else none

namespace FileSystem

variable (fs : FileSystem)

/- The resolution of a path, which gives up after `limit` components. -/
def walk : Nat → Canonical → List Component → Option Canonical
  | _, dir, [] => some dir
  | 0, _, _ :: _ => none
  | fuel + 1, dir, c :: rest =>
    if c.1 = ['.', '.'] then walk fuel dir.dropLast rest
    else
      match fs.node (dir ++ [c]) with
      | none => none
      | some .directory => walk fuel (dir ++ [c]) rest
      | some .file => if rest = [] then some (dir ++ [c]) else none
      | some (.link target) => walk fuel (if target.head? = some '/' then [] else dir) (components target ++ rest)

def follow (dir : Canonical) (path : Name) : Option Canonical :=
  fs.walk fs.limit (if path.head? = some '/' then [] else dir) (components path)

def realpath (path : Name) : Option Canonical := fs.follow fs.cwd path

def IsDirectory (dir : Canonical) : Prop := dir = [] ∨ fs.node dir = some .directory

end FileSystem

/- What `realpath` writes. -/
def slashed (p : Canonical) : Name := p.flatMap fun c => '/' :: c.1

def render (p : Canonical) : Name := if p = [] then ['/'] else slashed p

def parentOf (path : Name) : Name :=
  match rfind '/' path with
  | none | some 0 => ['/']
  | some slash => path.take slash

def baseOf (path : Name) : Name :=
  match rfind '/' path with
  | none => path
  | some slash => path.drop (slash + 1)

/- The search for `..` in `tdb_path_is_safe`; the flag says that a component may begin here. -/
def dotDot : Bool → Name → Bool
  | boundary, '.' :: '.' :: rest => boundary && (rest = [] || rest.head? = some '/') || dotDot false rest
  | _, c :: rest => dotDot (c = '/') rest
  | _, [] => false

def tdbPathIsSafe (path : Name) : Bool :=
  path.head? = some '/' && '\x00' ∉ path && !dotDot true path

/- The comparison of the two real paths. -/
def beginsWith (parentReal rootReal : Name) : Bool :=
  rootReal.isPrefixOf parentReal &&
    (parentReal.drop rootReal.length = [] || (parentReal.drop rootReal.length).head? = some '/')

section
variable (fs : FileSystem) (allowedRoot path : Name)

def tdbPathIsUnderAllowedRoot : Bool :=
  allowedRoot = [] ||
    match fs.realpath allowedRoot, fs.realpath (parentOf path) with
    | some rootReal, some parentReal => beginsWith (render parentReal) (render rootReal)
    | _, _ => false

/-- The path checks of `tidesdb_backup_dir_check`. -/
def accepts : Bool :=
  tdbPathIsSafe path && tdbPathIsUnderAllowedRoot fs allowedRoot path

/-- Where a backup to the path is written: a last component that does not exist is made, a link is followed. -/
def landsAt : Option Canonical :=
  match fs.realpath (parentOf path) with
  | none => none
  | some dir =>
    if plain : baseOf path ≠ [] ∧ '/' ∉ baseOf path then
      if baseOf path = ['.'] then some dir
      else if baseOf path = ['.', '.'] then some dir.dropLast
      else
        match fs.node (dir ++ [⟨baseOf path, plain⟩]) with
        | none | some .directory => some (dir ++ [⟨baseOf path, plain⟩])
        | some .file => none
        | some (.link target) => fs.follow dir target
    else some dir

end

/- The last component of the path, in the directory its parent resolves to. -/
def LastIs (fs : FileSystem) (path : Name) (dir : Canonical) (node : Option Node) : Prop :=
  fs.realpath (parentOf path) = some dir ∧
    ∃ base : Component, base.1 = baseOf path ∧ base.1 ≠ ['.'] ∧ base.1 ≠ ['.', '.'] ∧ fs.node (dir ++ [base]) = node

section

variable (fs : FileSystem) (allowedRoot path : Name)

def Confined : Prop :=
  allowedRoot ≠ [] → accepts fs allowedRoot path = true → ∀ w, landsAt fs path = some w →
    ∃ root, fs.realpath allowedRoot = some root ∧ root <+: w

def Admitted : Prop :=
  allowedRoot ≠ [] → ∀ root dir, fs.realpath allowedRoot = some root → fs.IsDirectory dir → LastIs fs path dir none →
    root <+: dir → tdbPathIsUnderAllowedRoot fs allowedRoot path = true

/-- A path that is accepted does not end in a link out of the root. -/
def LinksStay : Prop :=
  allowedRoot ≠ [] → accepts fs allowedRoot path = true → ∀ dir target w, LastIs fs path dir (some (.link target)) →
    fs.follow dir target = some w → ∃ root, fs.realpath allowedRoot = some root ∧ root <+: w

/-- The root is not `/`, or nothing new is to be made below a directory of it. -/
def RootNamed : Prop :=
  allowedRoot ≠ [] → fs.realpath allowedRoot = some [] → ∀ dir, fs.IsDirectory dir → LastIs fs path dir none → dir = []

end

/- A text that is empty or goes on with a slash. -/
def Bounded (rest : Name) : Prop := rest = [] ∨ rest.head? = some '/'

theorem bounded_slashed (p : Canonical) : Bounded (slashed p) := by
  cases p with
  | nil => exact .inl rfl
  | cons c p => exact .inr rfl

theorem takeWhile_bounded {a x : Name} (plain : '/' ∉ a) (bounded : Bounded x) : (a ++ x).takeWhile (· ≠ '/') = a := by
  have kept : ∀ c ∈ a, decide (c ≠ '/') = true := by
    intro c mem
    exact decide_eq_true fun same => plain (same ▸ mem)
  rw [takeWhile_append_of_pos kept]
  rcases bounded with rfl | slash
  · simp
  · cases x with
    | nil => simp
    | cons c x => simp [some.inj slash]

theorem component_eq {c d : Component} {x y : Name} (x_bounded : Bounded x) (y_bounded : Bounded y)
    (same : c.1 ++ x = d.1 ++ y) : c = d ∧ x = y := by
  have first := takeWhile_bounded c.2.2 x_bounded
  rw [same, takeWhile_bounded d.2.2 y_bounded] at first
  refine ⟨Subtype.ext first.symm, ?_⟩
  rw [first] at same
  exact append_cancel_left same

/- Between two canonical paths the comparison by characters is one by components. -/
theorem slashed_prefix_iff (p root : Canonical) :
    (∃ rest, slashed p = slashed root ++ rest ∧ Bounded rest) ↔ root <+: p := by
  constructor
  · rintro ⟨rest, same, bounded⟩
    induction root generalizing p with
    | nil => exact nil_prefix
    | cons c root ih =>
      cases p with
      | nil => cases same
      | cons d p =>
        have inner : d.1 ++ slashed p = c.1 ++ (slashed root ++ rest) := by
          simpa [slashed] using same
        have tail : Bounded (slashed root ++ rest) := by
          cases root with
          | nil => exact bounded
          | cons e root => exact .inr rfl
        obtain ⟨rfl, behind⟩ := component_eq (bounded_slashed p) tail inner
        exact (prefix_cons_inj d).mpr (ih p behind)
  · rintro ⟨q, rfl⟩
    exact ⟨slashed q, flatMap_append, bounded_slashed q⟩

theorem beginsWith_iff (a b : Name) : beginsWith a b = true ↔ ∃ rest, a = b ++ rest ∧ Bounded rest := by
  simp only [beginsWith, Bool.and_eq_true, isPrefixOf_iff_prefix, Bool.or_eq_true, decide_eq_true_eq]
  constructor
  · rintro ⟨⟨rest, rfl⟩, bounded⟩
    rw [drop_left] at bounded
    exact ⟨rest, rfl, bounded⟩
  · rintro ⟨rest, rfl, bounded⟩
    rw [drop_left]
    exact ⟨prefix_append b rest, bounded⟩

/-- The confinement test on real paths: with the root `/` only `/` itself passes. -/
theorem render_beginsWith_iff (p root : Canonical) :
    beginsWith (render p) (render root) = true ↔ root <+: p ∧ (root = [] → p = []) := by
  rw [beginsWith_iff]
  cases root with
  | nil =>
    cases p with
    | nil => exact ⟨fun _ => ⟨ nil_prefix, fun _ => rfl⟩, fun _ => ⟨[], rfl, .inl rfl⟩⟩
    | cons d p =>
      refine ⟨?_, fun both => absurd (both.2 rfl) (cons_ne_nil d p)⟩
      rintro ⟨rest, same, bounded⟩
      obtain rfl : d.1 ++ slashed p = rest := cons.inj same |>.2
      rcases bounded with nothing | slash
      · exact absurd (append_eq_nil_iff.mp nothing).1 d.2.1
      · rw [head?_append_of_ne_nil _ d.2.1] at slash
        exact absurd (mem_of_mem_head? slash) d.2.2
  | cons c root =>
    rw [and_iff_left fun same => absurd same (cons_ne_nil c root)]
    cases p with
    | nil =>
      refine ⟨?_, fun begins => absurd (prefix_nil.mp begins) (cons_ne_nil c root)⟩
      rintro ⟨rest, same, -⟩
      have nothing : [] = (c.1 ++ slashed root) ++ rest := cons.inj same |>.2
      exact absurd (append_eq_nil_iff.mp (append_eq_nil_iff.mp nothing.symm).1).1 c.2.1
    | cons d p => exact slashed_prefix_iff (d :: p) (c :: root)

theorem dotDot_last (before : Name) (boundary : Bool) : dotDot boundary (before ++ ['/', '.', '.']) = true := by
  fun_induction dotDot boundary before with
  | case1 boundary rest ih =>
    simp only [cons_append, dotDot, ih, Bool.or_true]
  | case2 boundary c rest other ih =>
    rw [cons_append, dotDot, ih]
    intro behind dot more
    cases rest with
    | nil => cases more
    | cons d rest => exact other rest dot (congrArg (· :: rest) (cons.inj more).1)
  | case3 => rfl

theorem rfind_split {c : Char} {path : Name} {i : Nat} (found : rfind c path = some i) :
    path = path.take i ++ c :: path.drop (i + 1) := by
  induction path generalizing i with
  | nil => cases found
  | cons x xs ih =>
    rw [rfind] at found
    cases later : rfind c xs with
    | some j =>
      rw [later] at found
      obtain rfl := some.inj found
      exact congrArg (x :: ·) (ih later)
    | none =>
      rw [later] at found
      by_cases here : x = c
      · rw [if_pos here] at found
        obtain rfl := some.inj found
        exact congrArg (· :: xs) here
      · rw [if_neg here] at found
        cases found

theorem dotDot_refused {path : Name} (last : baseOf path = ['.', '.']) : tdbPathIsSafe path = false := by
  cases found : rfind '/' path with
  | none =>
    simp only [baseOf, found] at last
    rw [last]
    decide
  | some i =>
    simp only [baseOf, found] at last
    have whole := rfind_split found
    rw [last] at whole
    rw [tdbPathIsSafe, whole, dotDot_last]
    exact Bool.and_false _

variable {fs : FileSystem} {allowedRoot path : Name} {root dir : Canonical}

theorem underAllowedRoot_iff (configured : allowedRoot ≠ []) :
    tdbPathIsUnderAllowedRoot fs allowedRoot path = true ↔ ∃ root dir, fs.realpath allowedRoot = some root ∧
      fs.realpath (parentOf path) = some dir ∧ root <+: dir ∧ (root = [] → dir = []) := by
  rw [tdbPathIsUnderAllowedRoot, decide_eq_false configured, Bool.false_or]
  cases resolved : fs.realpath allowedRoot with
  | none => simp
  | some root =>
    cases parent : fs.realpath (parentOf path) with
    | none => simp
    | some dir => simp [render_beginsWith_iff]

theorem landsAt_link {target : Name} (last : LastIs fs path dir (some (.link target))) :
    landsAt fs path = fs.follow dir target := by
  obtain ⟨parent, ⟨base, plain⟩, rfl, no_dot, no_dots, link⟩ := last
  rw [landsAt, parent]
  dsimp only
  rw [dif_pos plain, if_neg no_dot, if_neg no_dots, link]

theorem landsAt_cases {w : Canonical} (parent : fs.realpath (parentOf path) = some dir)
    (lands : landsAt fs path = some w) : dir <+: w ∨ baseOf path = ['.', '.'] ∨
      ∃ target, LastIs fs path dir (some (.link target)) ∧ fs.follow dir target = some w := by
  rw [landsAt, parent] at lands
  dsimp only at lands
  split_ifs at lands with plain dot dots
  · exact .inl (some.inj lands ▸ prefix_refl dir)
  · exact .inr (.inl dots)
  · split at lands
    · exact .inl (some.inj lands ▸ prefix_append dir _)
    · exact .inl (some.inj lands ▸ prefix_append dir _)
    · cases lands
    · rename_i target link
      exact .inr (.inr ⟨target, ⟨parent, ⟨baseOf path, plain⟩, rfl, dot, dots, link⟩, lands⟩)
  · exact .inl (some.inj lands ▸ prefix_refl dir)

/-- A destination is confined and a new one admitted, just when no link at its end leads out of the root, and the
root is not `/` with the destination below another directory. -/
theorem backup_confined_iff (fs : FileSystem) (allowedRoot path : Name) :
    Confined fs allowedRoot path ∧ Admitted fs allowedRoot path ↔
      LinksStay fs allowedRoot path ∧ RootNamed fs allowedRoot path := by
  constructor
  · rintro ⟨confined, admitted⟩
    constructor
    · intro configured accepted dir target w last led
      exact confined configured accepted w ((landsAt_link last).trans led)
    · intro configured resolved dir directory missing
      obtain ⟨root, dir', resolved', parent, -, only⟩ := (underAllowedRoot_iff configured).mp
        (admitted configured [] dir resolved directory missing nil_prefix)
      rw [resolved] at resolved'
      rw [missing.1] at parent
      obtain rfl := some.inj parent
      exact only (some.inj resolved').symm
  · rintro ⟨stays, named⟩
    constructor
    · intro configured accepted w lands
      have both := Bool.and_eq_true_iff.mp accepted
      obtain ⟨root, dir, resolved, parent, below, -⟩ := (underAllowedRoot_iff configured).mp both.2
      rcases landsAt_cases parent lands with inside | dots | ⟨target, last, led⟩
      · exact ⟨root, resolved, below.trans inside⟩
      · rw [dotDot_refused dots] at both
        cases both.1
      · exact stays configured accepted dir target w last led
    · intro configured root dir resolved directory missing below
      refine (underAllowedRoot_iff configured).mpr ⟨root, dir, resolved, missing.1, below, ?_⟩
      rintro rfl
      exact named configured resolved dir directory missing

/- `/r` and `/e` are directories and `/r/l` is a link to `/e`. -/
def linkedTo : FileSystem where
  node p :=
    let names := p.map Subtype.val
    if names = [['r']] ∨ names = [['e']] then some .directory
    else if names = [['r'], ['l']] then some (.link ['/', 'e']) else none
  cwd := []
  limit := 40

/- With the root `/r` the destination `/r/l` is accepted, and written to `/e`. -/
theorem link_leads_out : ¬ ∀ (fs : FileSystem) (allowedRoot path : Name),
    Confined fs allowedRoot path ∧ Admitted fs allowedRoot path := by
  intro claim
  obtain ⟨root, resolved, below⟩ := (claim linkedTo ['/', 'r'] ['/', 'r', '/', 'l']).1 (by decide) (by decide)
    [⟨['e'], by decide⟩] (by decide)
  have real : linkedTo.realpath ['/', 'r'] = some [⟨['r'], by decide⟩] := by decide
  obtain rfl := some.inj (real.symm.trans resolved)
  exact absurd below (by decide)

end Backup

end TidesdbMysql
