import Mathlib.Data.Int.Init
import Mathlib.Data.List.Basic
import Mathlib.Logic.Function.Basic
import Mathlib.Logic.Relation

/-!
# Targets of a build

The incremental builder of `utils/build.lua`. A target runs its dependencies in their order and
then its command, if it is missing or forced, if a dependency says so, or if the file of a
dependency is newer. A target that already ran says nothing to the targets that visit it later;
those that have files look at its time instead.

Commands always succeed here, and there are no functions that run before or after a command. A
target without a command is one whose command does nothing.

## Main definitions

* `Builder`, `Builder.build` : the registered targets, and `_target.build`.
* `Required` : when the command of a target has to be executed.
* `Built` : the build ends with the right executions.
* `Due`, `Evident` : what has to be executed, and what a target sees of it.
-/

namespace ELuaBrain.Build

/-! ### Files -/

/-- The name of a file or of a phony target. -/
abbrev Name := List Char

scoped instance lawfulBEqName : LawfulBEq Name := List.instLawfulBEq

/-- `is_phony`. -/
def isPhony (target : Name) : Bool := ['#', 'p', 'h', 'o', 'n', 'y'].isPrefixOf target

/-- The times of the files. -/
abbrev Files := Name → Option ℕ

/-- `get_ftime`. -/
def getFtime (fs : Files) (path : Name) : ℤ :=
  match fs path with
  | some t => t
  | none => -1

/-- The times that commands give to their targets, one after the other: each is later than those of
all files so far. -/
structure Clock (fs : Files) where
  stamp : ℕ → ℕ
  later : ∀ i j, i < j → stamp i < stamp j
  newer : ∀ n t, fs n = some t → t < stamp 0

/-! ### Targets -/

/-- The dependencies of a target, and whether `force_rebuild` was called for it. -/
structure Target where
  dep : List Name
  forced : Bool := false

/-- `_force_rebuild`. -/
def Target.forceRebuild (t : Target) : Bool := t.forced || t.dep.isEmpty

/-- The registered targets, whose dependencies have no cycle. -/
structure Builder where
  tlist : Name → Option Target
  globalForceRebuild : Bool := false
  acyclic : ∃ rank : Name → ℕ, ∀ n t d, tlist n = some t → d ∈ t.dep → (tlist d).isSome →
    rank d < rank n

/-- A build under way. The commands that were executed are in `log`, the last one first. -/
structure Run where
  files : Files
  runlist : List Name := []
  log : List Name := []
  /-- The number of files that commands have written. -/
  written : ℕ := 0

/-- The command of a target. -/
def Run.execute (stamp : ℕ → ℕ) (n : Name) (s : Run) : Run :=
  if isPhony n then { s with log := n :: s.log }
  else { s with
    files := Function.update s.files n (some (stamp s.written))
    log := n :: s.log
    written := s.written + 1 }

/-- `_fbuilder.build`. -/
def fbuilderBuild (fs : Files) (target dep : Name) : Bool :=
  isPhony target || decide (getFtime fs dep > getFtime fs target)

/-- `docmd` of the target `n` behind the dependency `d`, a target that returned `res`. -/
def docmdTarget (fs : Files) (n d : Name) (docmd res : Bool) : Bool :=
  let docmd := docmd || res
  if !isPhony d && !isPhony n then docmd || decide (getFtime fs d > getFtime fs n) else docmd

namespace Builder

variable (b : Builder)

/-- `deprunner` of the target `n`, where `visit` builds a target. -/
def deprunner (visit : Name → Target → Run → Option (Bool × Run)) (n : Name) :
    List Name → Bool → Run → Option (Bool × Run)
  | [], docmd, s => some (docmd, s)
  | d :: ds, docmd, s =>
      match b.tlist d with
      | none => deprunner visit n ds (docmd || fbuilderBuild s.files n d) s
      | some t =>
          (visit d t s).bind fun r =>
            deprunner visit n ds (docmdTarget r.2.files n d docmd r.1) r.2

/-- The end of `_target.build`: the command, and the mark in `runlist`. -/
def finish (stamp : ℕ → ℕ) (n : Name) (t : Target) (docmd : Bool) (s : Run) : Bool × Run :=
  let docmd := docmd || t.forceRebuild
  let s := if docmd then s.execute stamp n else s
  (docmd, { s with runlist := n :: s.runlist })

/-- `_target.build`, as deep as the first argument allows. -/
def build (stamp : ℕ → ℕ) : ℕ → Name → Target → Run → Option (Bool × Run)
  | 0, _, _, _ => none
  | k + 1, n, t, s =>
      if n ∈ s.runlist then some (false, s)
      else
        let docmd := (!isPhony n && (s.files n).isNone) || b.globalForceRebuild
        (b.deprunner (build stamp k) n t.dep docmd s).bind fun r => finish stamp n t r.1 r.2

/-- The build of a goal. -/
def buildGoal (stamp : ℕ → ℕ) (k : ℕ) (fs : Files) (goal : Name) : Option Run :=
  match b.tlist goal with
  | none => some { files := fs }
  | some t => (b.build stamp k goal t { files := fs }).map Prod.snd

/-! ### What a build has to do -/

/-- A target and one of its dependencies. -/
def Dependency (n d : Name) : Prop := ∃ t, b.tlist n = some t ∧ d ∈ t.dep

/-- A dependency, directly or through phony targets. -/
inductive Through : Name → Name → Prop
  | direct {n d : Name} (h : b.Dependency n d) : Through n d
  | phony {n p d : Name} (h : b.Dependency n p) (hp : isPhony p = true) (hd : Through p d) :
      Through n d

/-- The file `d` is newer than the target `n`. A phony target has no time: every file that is no
target is newer, and the targets are not. -/
def NewerThan (fs : Files) (d n : Name) : Prop :=
  if isPhony n = true then b.tlist d = none
  else (b.tlist d = none ∨ isPhony d = false) ∧ getFtime fs n < getFtime fs d

/-- The target itself asks for its command. -/
def Forced (fs : Files) (n : Name) (t : Target) : Prop :=
  (isPhony n = false ∧ fs n = none) ∨ b.globalForceRebuild = true ∨ t.forced = true ∨ t.dep = []

/-- The command of a target has to be executed, given what else is executed. -/
def Required (fs : Files) (executed : Name → Prop) (n : Name) (t : Target) : Prop :=
  b.Forced fs n t ∨ ∃ d, b.Through n d ∧ (b.NewerThan fs d n ∨ executed d)

/-- Each command is executed once at most, after those of all dependencies, and it is executed if
and only if it has to be. -/
structure Proper (fs : Files) (goal : Name) (s : Run) : Prop where
  once : s.log.Nodup
  after : s.log.Pairwise fun later earlier => ¬ Relation.TransGen b.Dependency earlier later
  exactly : ∀ n t, Relation.ReflTransGen b.Dependency goal n → b.tlist n = some t →
    (n ∈ s.log ↔ b.Required fs (· ∈ s.log) n t)

/-- The build of the goal ends, with the right executions. -/
def Built (fs : Files) (c : Clock fs) (goal : Name) : Prop :=
  ∃ k s, b.buildGoal c.stamp k fs goal = some s ∧ b.Proper fs goal s

/-! ### What a target sees -/

/-- The targets that have to be executed. -/
inductive Due (fs : Files) : Name → Prop
  | forced {n : Name} {t : Target} (ht : b.tlist n = some t) (h : b.Forced fs n t) : Due fs n
  | newer {n d : Name} (hd : b.Through n d) (h : b.NewerThan fs d n) : Due fs n
  | dep {n d : Name} (hd : b.Through n d) (h : Due fs d) : Due fs n

/-- A walk through the dependencies in their order. -/
structure Walk where
  seen : List Name := []
  /-- The first visits, from one target to the other. -/
  edges : List (Name × Name) := []

/-- A visit of `d` from `n`. -/
def Walk.enter (n d : Name) (w : Walk) : Walk :=
  if d ∈ w.seen then w else { w with edges := (n, d) :: w.edges }

/-- The walk from the dependencies of the target `n`. -/
def walkDeps (visit : Name → Target → Walk → Option Walk) (n : Name) :
    List Name → Walk → Option Walk
  | [], w => some w
  | d :: ds, w =>
      match b.tlist d with
      | none => walkDeps visit n ds w
      | some t => (visit d t (w.enter n d)).bind (walkDeps visit n ds)

/-- The walk from a target. -/
def walk : ℕ → Name → Target → Walk → Option Walk
  | 0, _, _, _ => none
  | k + 1, n, t, w =>
      if n ∈ w.seen then some w
      else
        (b.walkDeps (walk k) n t.dep w).map fun w => { w with seen := n :: w.seen }

/-- The walk from the goal comes to `d` from `n` first. -/
def FirstVisit (goal n d : Name) : Prop :=
  ∃ k t w, b.tlist goal = some t ∧ b.walk k goal t {} = some w ∧ (n, d) ∈ w.edges

/-- What `n` sees of its dependency `d`: a newer file, or a target that is executed and that has a
file, as `n` has, or is visited from `n` first. -/
def Shows (fs : Files) (executed first : Name → Prop) (n d : Name) : Prop :=
  b.NewerThan fs d n ∨ executed d ∧ ((isPhony d = false ∧ isPhony n = false) ∨ first d)

/-- A reason for the command of `n` that does not get lost: its own, or one that a dependency
shows. -/
def Evident (fs : Files) (executed first : Name → Prop) (n : Name) (t : Target) : Prop :=
  b.Forced fs n t ∨ ∃ d ∈ t.dep, b.Shows fs executed first n d

end Builder

end ELuaBrain.Build
