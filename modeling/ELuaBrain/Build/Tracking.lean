import ELuaBrain.Build.Config

/-!
# Changes of the configuration between builds

Runs of the builder of `utils/build.lua` in one build directory, one after the other, for the
targets of `make_exe_target`: a dependency file and an object file for each source, and the
executable. A command that fails stops a run. Every file that a command makes has the command with
it.

The commands may give their files any times, and a dependency file may list any files behind its
source.

## Main definitions

* `Disk`, `run` : the files of the builder, and what a run does to them.
* `Current` : every object file and executable is made by the commands of a run.
* `Careful` : runs that the tracking of the configuration copes with.

## Main results

* `config_tracked` : after careful runs, everything is made by the commands of the last one.
* `config_not_tracked` : this fails for other runs.
-/

namespace ELuaBrain.Build

/-! ### The code -/

/-- The command that made a file, with the sources that it was given. An executable has the commands
of the object files in it. -/
inductive Origin where
  | depends
  | compiled (cmd : Text) (first : Name)
  | linked (cmd : Text) (objects : List (Text × Name))
  deriving DecidableEq

/-- A file that a command has made. -/
structure Made where
  time : ℕ
  origin : Origin

/-- The files of the builder between two runs. -/
structure Disk where
  made : Name → Option Made := fun _ => none
  /-- The build directory is there. -/
  isDir : Bool := false
  /-- The text in `.builddata.comp`. -/
  comp : Option Text := none
  /-- The text in `.builddata.link`. -/
  link : Option Text := none

/-- A run under way. -/
structure Session where
  made : Name → Option Made
  runlist : List Name := []
  /-- The names that were read for a source after its dependencies were made. -/
  dtable : Name → Option (List Name) := fun _ => none
  /-- The number of commands that have made a file. -/
  ran : ℕ := 0

/-- A command of a target makes a file. -/
def Session.write (r : Invocation) (n : Name) (origin : Origin) (s : Session) : Session :=
  { s with made := Function.update s.made n (some ⟨r.stamp s.ran, origin⟩), ran := s.ran + 1 }

/-- A file is removed. -/
def Session.remove (n : Name) (s : Session) : Session :=
  { s with made := Function.update s.made n none }

/-- The mark of a target in `runlist`. -/
def Session.mark (n : Name) (s : Session) : Session := { s with runlist := n :: s.runlist }

/-- All files. -/
def Session.files (r : Invocation) (s : Session) : Files := fun n =>
  ((s.made n).map Made.time).or (r.sources n)

/-- The command of a target, or `_cleaner`. -/
def perform (r : Invocation) (n : Name) (origin : Origin) (s : Session) : Except Session Session :=
  if r.cleanMode then .ok (if r.removes n then s.remove n else s)
  else
    match r.outcome n with
    | .success => .ok (s.write r n origin)
    | .untouched => .error s
    | .removed => .error (s.remove n)
    | .written => .error (s.write r n origin)

/-- The end of `_target.build`: the command, if there is one, and the mark in `runlist`. -/
def finishTarget (r : Invocation) (n : Name) (origin : Option Origin) (docmd : Bool) (s : Session) :
    Except Session (Bool × Session) :=
  let docmd := docmd || r.cleanMode
  match origin with
  | some origin =>
      if docmd then (perform r n origin s).map fun s => (true, s.mark n)
      else .ok (false, s.mark n)
  | none => .ok (docmd, s.mark n)

/-- A file of a list is newer than a target. -/
def anyNewer (r : Invocation) (s : Session) (deps : List Name) (n : Name) : Bool :=
  deps.any fun d => getFtime (s.files r) d > getFtime (s.files r) n

/-- The part of `read_depends` for a source. -/
def readDepends (h : Host) (r : Invocation) (s : Session) (f : Name) : List Name :=
  if (s.files r (h.depFilename f)).isSome then f :: r.listed s.ran f else [f]

/-- `_target.build` of a dependency target, where `initdep` was read when the target was made. -/
def buildDep (h : Host) (r : Invocation) (force : Bool) (initdep : List Name) (f : Name)
    (s : Session) : Except Session (Bool × Session) :=
  let d := h.depFilename f
  if d ∈ s.runlist then .ok (false, s)
  else
    let docmd := (s.files r d).isNone || force || anyNewer r s initdep d
    (finishTarget r d (some .depends) docmd s).map fun (docmd, s) =>
      -- The function that runs after the build.
      (docmd, if r.cleanMode then s
        else { s with dtable := Function.update s.dtable f (some (readDepends h r s f)) })

/-- `_target.build` of the target of an object file. The function that runs before the command puts
other dependencies in the place of the first ones, and what those said is dropped. -/
def buildObject (h : Host) (r : Invocation) (force : Bool) (initdep : Name → List Name) (f : Name)
    (s : Session) : Except Session (Bool × Session) :=
  let o := h.objName r f
  if o ∈ s.runlist then .ok (false, s)
  else do
    let initdocmd := (s.files r o).isNone || force
    let (_, s) ← if r.config.skip f then .ok (false, s) else buildDep h r force (initdep f) f s
    let docmd := initdocmd || anyNewer r s ((s.dtable f).getD [f]) o
    finishTarget r o ((r.config.command f).map (.compiled · f)) docmd s

/-- `deprunner` of the executable. -/
def buildObjects (h : Host) (r : Invocation) (force : Bool) (initdep : Name → List Name) :
    List Name → Bool → Session → Except Session (Bool × Session)
  | [], docmd, s => .ok (docmd, s)
  | f :: fs, docmd, s => do
      let (res, s) ← buildObject h r force initdep f s
      buildObjects h r force initdep fs (docmd || res || anyNewer r s [h.objName r f] r.exeName) s

/-- The commands that made the object files of the sources. -/
def objectOrigins (h : Host) (r : Invocation) (s : Session) : List (Text × Name) :=
  r.files.filterMap fun f =>
    match (s.made (h.objName r f)).map Made.origin with
    | some (.compiled cmd first) => some (cmd, first)
    | _ => none

/-- `_target.build` of the executable. -/
def buildExe (h : Host) (r : Invocation) (force forceLink : Bool) (s : Session) :
    Except Session (Bool × Session) := do
  let initdep := readDepends h r s
  let initdocmd := (s.files r r.exeName).isNone || force
  let (docmd, s) ← buildObjects h r force initdep r.files initdocmd s
  finishTarget r r.exeName (some (.linked r.config.linkCmd (objectOrigins h r s)))
    (docmd || forceLink || r.files.isEmpty) s

/-- The build directory is there when the targets are made. -/
def Invocation.isDir (r : Invocation) (w : Disk) : Bool :=
  w.isDir || r.outputDir && r.buildMode ≠ .keepDir

/-- The target on the command line is one of the script. -/
def Invocation.found (r : Invocation) : Bool :=
  match r.targetname with
  | none => true
  | some t => t = r.exeName || t = "default".toList

/-- The comparison in `link_target`. -/
def compareLink (h : Host) (r : Invocation) (w : Disk) : Bool × Option Text :=
  compareConfig h r.config .link r.cleanMode (r.isDir w) w.link

/-- The comparison in `build`. -/
def compareComp (h : Host) (r : Invocation) (w : Disk) : Bool × Option Text :=
  compareConfig h r.config .comp r.cleanMode (w.isDir || r.buildMode ≠ .keepDir) w.comp

/-- A run of the builder: the targets are made, and `build` builds the executable. It is successful,
or it stops. -/
def run (h : Host) (r : Invocation) (w : Disk) : Bool × Disk :=
  let link := compareLink h r w
  if r.found = false then (false, { w with isDir := r.isDir w, link := link.2 })
  else
    let comp := compareComp h r w
    let isDir := w.isDir || r.buildMode ≠ .keepDir
    match buildExe h r comp.1 link.1 { made := w.made } with
    | .error s => (false, ⟨s.made, isDir, comp.2, link.2⟩)
    | .ok (_, s) =>
        if r.cleanMode then (true, ⟨s.made, isDir, none, none⟩)
        else (true, ⟨s.made, isDir, comp.2, link.2⟩)

/-! ### Files that the commands of a run make -/

/-- An object file or an executable. -/
def Origin.IsProduct : Origin → Prop
  | .depends => False
  | _ => True

/-- A file is made by the commands of a configuration. The object files in an executable are too. -/
def Config.Makes (c : Config) : Origin → Prop
  | .depends => True
  | .compiled cmd first => c.command first = some cmd
  | .linked cmd objects => cmd = c.linkCmd ∧ ∀ o ∈ objects, c.command o.2 = some o.1

/-- Every object file and executable is made by the commands of a run. -/
def Current (r : Invocation) (w : Disk) : Prop :=
  ∀ n f, w.made n = some f → r.config.Makes f.origin

/-- There are no object files and executables. -/
def Bare (w : Disk) : Prop := ∀ n f, w.made n = some f → ¬f.origin.IsProduct

/-- The object files and the executable of a run. -/
def Invocation.IsTarget (h : Host) (r : Invocation) (n : Name) : Prop :=
  n = r.exeName ∨ ∃ f ∈ r.files, h.objName r f = n

/-- A run whose target is found and whose commands succeed. -/
structure Invocation.Succeeds (h : Host) (r : Invocation) : Prop where
  found : r.found = true
  dep : ∀ f ∈ r.files, r.config.skip f = false → r.outcome (h.depFilename f) = .success
  object : ∀ f ∈ r.files, r.outcome (h.objName r f) = .success
  exe : r.outcome r.exeName = .success

/-- A run that the tracking of the configuration copes with, after the run `last`. -/
structure Careful (h : Host) (last : Option Invocation) (w : Disk) (r : Invocation) : Prop where
  /-- Other commands for object files are noticed. -/
  comp : ∀ p, last = some p → p.cleanMode = false → r.cleanMode = false →
    (compareComp h r w).1 = false →
      p.config.compCmd = r.config.compCmd ∧ p.config.asmCmd = r.config.asmCmd
  /-- Another command for the executable is noticed. -/
  link : ∀ p, last = some p → p.cleanMode = false → r.cleanMode = false →
    (compareLink h r w).1 = false → p.config.linkCmd = r.config.linkCmd
  /-- A run that notices a change does not stop. -/
  complete : (compareComp h r w).1 = true ∨ (compareLink h r w).1 = true → r.Succeeds h
  /-- What is there is made again, or removed. -/
  covers : (compareComp h r w).1 = true ∨ r.cleanMode = true →
    (∀ f ∈ r.files, (r.config.command f).isSome) ∧
      ∀ n f, w.made n = some f → f.origin.IsProduct → r.IsTarget h n
  /-- The executable that is there is linked again. -/
  relinks : (compareLink h r w).1 = true →
    ∀ n f cmd objects, w.made n = some f → f.origin = .linked cmd objects → n = r.exeName
  /-- A clean run removes its files. -/
  cleans : r.cleanMode = true → r.found = true ∧ ∀ n, r.IsTarget h n → r.removes n = true

/-- The runs in a directory, from an empty one on. -/
inductive Runs (h : Host) : Option Invocation → Disk → Prop
  | start : Runs h none {}
  | run {last : Option Invocation} {w : Disk} {r : Invocation} (hruns : Runs h last w)
      (hcareful : Careful h last w r) : Runs h (some r) (run h r w).2

/-! ### What a run keeps -/

section Rules

variable {h : Host} {r : Invocation} {force : Bool} {initdep : Name → List Name}

/-- What holds after a build, or after it has stopped. -/
def After (I E : Session → Prop) : Except Session (Bool × Session) → Prop
  | .ok (_, s) => I s
  | .error s => E s

theorem After.bind {I I' E : Session → Prop} {x : Except Session (Bool × Session)}
    {next : Bool × Session → Except Session (Bool × Session)} (hx : After I E x)
    (hnext : ∀ b s, I s → After I' E (next (b, s))) : After I' E (x >>= next) := by
  cases x with
  | error s => exact hx
  | ok p => exact hnext p.1 p.2 hx

theorem After.map {I I' E : Session → Prop} {x : Except Session (Bool × Session)}
    {g : Bool × Session → Bool × Session} (hx : After I E x)
    (hg : ∀ b s, I s → I' (g (b, s)).2) : After I' E (x.map g) := by
  cases x with
  | error s => exact hx
  | ok p => exact hg p.1 p.2 hx

theorem After.imp {I I' E E' : Session → Prop} {x : Except Session (Bool × Session)}
    (hx : After I E x) (hI : ∀ {s}, I s → I' s) (hE : ∀ {s}, E s → E' s) : After I' E' x := by
  cases x with
  | error s => exact hE hx
  | ok p => exact hI hx

/-- The end of a dependency target or of an object file keeps `I`. -/
structure Keeps (h : Host) (r : Invocation) (force : Bool)
    (I : (Name → Option Made) → List Name → Prop) (E : (Name → Option Made) → Prop) : Prop where
  dep : ∀ f ∈ r.files, r.config.skip f = false → ∀ docmd s, (force = true → docmd = true) →
    I s.made s.runlist → After (fun s => I s.made s.runlist) (fun s => E s.made)
      (finishTarget r (h.depFilename f) (some .depends) docmd s)
  object : ∀ f ∈ r.files, ∀ docmd s, (force = true → docmd = true) →
    I s.made s.runlist → After (fun s => I s.made s.runlist) (fun s => E s.made)
      (finishTarget r (h.objName r f) ((r.config.command f).map (.compiled · f)) docmd s)

variable {I : (Name → Option Made) → List Name → Prop} {E : (Name → Option Made) → Prop}

theorem Keeps.buildDep (hkeeps : Keeps h r force I E) {f : Name} (hf : f ∈ r.files)
    (hskip : r.config.skip f = false) (deps : List Name) {s : Session} (hs : I s.made s.runlist) :
    After (fun s => I s.made s.runlist) (fun s => E s.made) (buildDep h r force deps f s) := by
  rw [Build.buildDep]
  dsimp only
  by_cases hrun : h.depFilename f ∈ s.runlist
  · rw [if_pos hrun]
    exact hs
  · rw [if_neg hrun]
    refine After.map (hkeeps.dep f hf hskip _ s (fun hforce => by simp [hforce]) hs) ?_
    intro b s hs
    dsimp only
    split_ifs
    · exact hs
    · exact hs

theorem Keeps.buildObject (hkeeps : Keeps h r force I E) {f : Name} (hf : f ∈ r.files)
    {s : Session} (hs : I s.made s.runlist) :
    After (fun s => I s.made s.runlist) (fun s => E s.made)
      (buildObject h r force initdep f s) := by
  rw [Build.buildObject]
  dsimp only
  split_ifs with hrun hskip
  · exact hs
  · exact After.bind (I := fun s => I s.made s.runlist) hs fun b s hs =>
      hkeeps.object f hf _ s (fun hforce => by simp [hforce]) hs
  · exact After.bind (hkeeps.buildDep hf (Bool.not_eq_true _ ▸ hskip) _ hs) fun b s hs =>
      hkeeps.object f hf _ s (fun hforce => by simp [hforce]) hs

/-- **The object files.** -/
theorem Keeps.buildObjects (hkeeps : Keeps h r force I E) {fs : List Name} (hfs : fs ⊆ r.files)
    {docmd : Bool} {s : Session} (hs : I s.made s.runlist) :
    After (fun s => I s.made s.runlist) (fun s => E s.made)
      (buildObjects h r force initdep fs docmd s) := by
  induction fs generalizing docmd s with
  | nil => exact hs
  | cons f fs ih =>
    exact After.bind (hkeeps.buildObject (hfs List.mem_cons_self) hs) fun b s hs =>
      ih (fun g hg => hfs (List.mem_cons_of_mem _ hg)) hs

end Rules

section Steps

variable {h : Host} {r : Invocation} {n : Name} {origin : Origin} {docmd b : Bool} {s s' : Session}
  {force : Bool} {initdep : Name → List Name}

theorem write_made : (s.write r n origin).made =
    Function.update s.made n (some ⟨r.stamp s.ran, origin⟩) := rfl

theorem remove_made : (s.remove n).made = Function.update s.made n none := rfl

theorem perform_runlist (hp : perform r n origin s = .ok s') : s'.runlist = s.runlist := by
  rw [perform] at hp
  split_ifs at hp with hclean hremoves
  · rw [← Except.ok.inj hp]
    rfl
  · rw [← Except.ok.inj hp]
  · cases hout : r.outcome n with
    | success =>
      rw [hout] at hp
      rw [← Except.ok.inj hp]
      rfl
    | untouched | removed | written =>
      rw [hout] at hp
      cases hp

theorem finishTarget_runlist {origin : Option Origin}
    (hf : finishTarget r n origin docmd s = .ok (b, s')) : s'.runlist = n :: s.runlist := by
  cases origin with
  | none => exact (Prod.mk.inj (Except.ok.inj hf)).2 ▸ rfl
  | some origin =>
    rw [finishTarget] at hf
    split_ifs at hf
    · cases hp : perform r n origin s with
      | error s₁ =>
        rw [hp] at hf
        cases hf
      | ok s₁ =>
        rw [hp] at hf
        rw [← perform_runlist hp]
        exact (Prod.mk.inj (Except.ok.inj hf)).2 ▸ rfl
    · exact (Prod.mk.inj (Except.ok.inj hf)).2 ▸ rfl

/-- The marks of targets stay. -/
theorem keeps_runlist (l : List Name) :
    Keeps h r force (fun _ runlist => l ⊆ runlist) fun _ => True := by
  have hend (n : Name) (origin : Option Origin) (docmd : Bool) (s : Session)
      (hs : l ⊆ s.runlist) : After (fun s => l ⊆ s.runlist) (fun _ => True)
        (finishTarget r n origin docmd s) := by
    cases hfinish : finishTarget r n origin docmd s with
    | error s' => trivial
    | ok p =>
      change l ⊆ p.2.runlist
      rw [finishTarget_runlist hfinish]
      exact fun x hx => List.mem_cons_of_mem _ (hs hx)
  exact ⟨fun f _ _ docmd s _ hs => hend _ _ docmd s hs, fun f _ docmd s _ hs => hend _ _ docmd s hs⟩

theorem buildObject_mem {f : Name} (hb : buildObject h r force initdep f s = .ok (b, s')) :
    h.objName r f ∈ s'.runlist := by
  rw [buildObject] at hb
  dsimp only at hb
  split_ifs at hb with hrun hskip
  · exact (Prod.mk.inj (Except.ok.inj hb)).2 ▸ hrun
  · rw [finishTarget_runlist hb]
    exact List.mem_cons_self
  · cases hdep : buildDep h r force (initdep f) f s with
    | error s₁ =>
      rw [hdep] at hb
      cases hb
    | ok p =>
      rw [hdep] at hb
      rw [finishTarget_runlist hb]
      exact List.mem_cons_self

/-- The targets of the object files have run. -/
theorem buildObjects_mem {fs : List Name} (hfs : fs ⊆ r.files)
    (hb : buildObjects h r force initdep fs docmd s = .ok (b, s')) :
    ∀ f ∈ fs, h.objName r f ∈ s'.runlist := by
  induction fs generalizing docmd s with
  | nil => exact nofun
  | cons f fs ih =>
    have hrest : fs ⊆ r.files := fun g hg => hfs (List.mem_cons_of_mem _ hg)
    rw [buildObjects] at hb
    cases hobj : buildObject h r force initdep f s with
    | error s₁ =>
      rw [hobj] at hb
      cases hb
    | ok p =>
      rw [hobj] at hb
      have hb : buildObjects h r force initdep fs
          (docmd || p.1 || anyNewer r p.2 [h.objName r f] r.exeName) p.2 = .ok (b, s') := hb
      have hmore : After (fun s => p.2.runlist ⊆ s.runlist) (fun _ => True) (.ok (b, s')) :=
        hb ▸ (keeps_runlist p.2.runlist).buildObjects hrest (List.Subset.refl _)
      exact List.forall_mem_cons.mpr ⟨hmore (buildObject_mem hobj), ih hrest hb⟩

/-- A predicate on files that holds of what a command makes is kept. -/
theorem finishTarget_keeps {P : Name → Made → Prop} {origin : Option Origin}
    (hnew : ∀ o t, origin = some o → P n ⟨t, o⟩) (hs : ∀ m f, s.made m = some f → P m f) :
    After (fun s => ∀ m f, s.made m = some f → P m f) (fun s => ∀ m f, s.made m = some f → P m f)
      (finishTarget r n origin docmd s) := by
  have hwrite (o : Origin) (ho : origin = some o) :
      ∀ m f, (s.write r n o).made m = some f → P m f := by
    intro m f hm
    by_cases hmn : m = n
    · subst hmn
      rw [write_made, Function.update_self] at hm
      exact Option.some.inj hm ▸ hnew o _ ho
    · rw [write_made, Function.update_of_ne hmn] at hm
      exact hs m f hm
  have hremove : ∀ m f, (s.remove n).made m = some f → P m f := by
    intro m f hm
    by_cases hmn : m = n
    · subst hmn
      rw [remove_made, Function.update_self] at hm
      cases hm
    · rw [remove_made, Function.update_of_ne hmn] at hm
      exact hs m f hm
  cases origin with
  | none => exact hs
  | some o =>
    rw [finishTarget]
    split_ifs with hdocmd
    · rw [perform]
      split_ifs with hclean hremoves
      · exact hremove
      · exact hs
      · cases r.outcome n with
        | success => exact hwrite o rfl
        | untouched => exact hs
        | removed => exact hremove
        | written => exact hwrite o rfl
    · exact hs

/-- A command that has to run, and succeeds, has made its target. -/
theorem finishTarget_success (hclean : r.cleanMode = false) (hok : r.outcome n = .success) :
    finishTarget r n (some origin) true s = .ok (true, (s.write r n origin).mark n) := by
  simp [finishTarget, perform, hclean, hok]
  rfl

/-- A target is cleaned. -/
theorem finishTarget_clean (hclean : r.cleanMode = true) :
    finishTarget r n (some origin) docmd s =
      .ok (true, (if r.removes n then s.remove n else s).mark n) := by
  simp [finishTarget, perform, hclean]
  rfl

theorem finishTarget_ok (origin : Option Origin) (docmd : Bool)
    (hok : r.cleanMode = true ∨ r.outcome n = .success) :
    ∃ p, finishTarget r n origin docmd s = .ok p := by
  cases origin with
  | none => exact ⟨_, rfl⟩
  | some origin =>
    by_cases hclean : r.cleanMode = true
    · exact ⟨_, finishTarget_clean hclean⟩
    · have hclean := Bool.not_eq_true _ ▸ hclean
      have hsuccess := hok.resolve_left (hclean ▸ Bool.false_ne_true)
      cases docmd with
      | true => exact ⟨_, finishTarget_success hclean hsuccess⟩
      | false =>
        rw [finishTarget, hclean]
        exact ⟨_, rfl⟩

theorem After.ok {I E : Session → Prop} {x : Except Session (Bool × Session)} (hx : After I E x)
    (hok : ∃ p, x = .ok p) : After I (fun _ => False) x := by
  obtain ⟨p, rfl⟩ := hok
  exact hx

theorem makes_compiled {f : Name} {o : Origin}
    (ho : (r.config.command f).map (.compiled · f) = some o) : r.config.Makes o := by
  obtain ⟨cmd, hcmd, rfl⟩ := Option.map_eq_some_iff.mp ho
  exact hcmd

/-- The object files of an executable are made by the commands of the run, if the files with their
names are. -/
theorem makes_linked (hs : ∀ f ∈ r.files, ∀ x, s.made (h.objName r f) = some x →
      ∀ cmd first, x.origin = .compiled cmd first → r.config.command first = some cmd) :
    r.config.Makes (.linked r.config.linkCmd (objectOrigins h r s)) := by
  refine ⟨rfl, fun o ho => ?_⟩
  obtain ⟨f, hf, heq⟩ := List.mem_filterMap.mp ho
  cases hx : s.made (h.objName r f) with
  | none =>
    rw [hx] at heq
    cases heq
  | some x =>
    rw [hx, Option.map_some] at heq
    cases horigin : x.origin with
    | depends | linked =>
      rw [horigin] at heq
      cases heq
    | compiled cmd first =>
      rw [horigin] at heq
      obtain rfl := Option.some.inj heq
      exact hs f hf x hx cmd first horigin

/-- The file is made by the commands of the run, or is an executable that is linked again. -/
def KeptBy (r : Invocation) (link : Bool) (n : Name) (f : Made) : Prop :=
  r.config.Makes f.origin ∨
    link = true ∧ n = r.exeName ∧ ∃ cmd objects, f.origin = .linked cmd objects

theorem KeptBy.compiled {link : Bool} {f : Made} (hf : KeptBy r link n f) {cmd : Text}
    {first : Name} (horigin : f.origin = .compiled cmd first) :
    r.config.command first = some cmd := by
  obtain hmakes | ⟨-, -, cmd', objects, hlinked⟩ := hf
  · rwa [horigin] at hmakes
  · rw [hlinked] at horigin
    cases horigin

theorem keeps_kept (link : Bool) : Keeps h r force
    (fun made _ => ∀ n f, made n = some f → KeptBy r link n f)
    (fun made => ∀ n f, made n = some f → KeptBy r link n f) where
  dep _ _ _ _ _ _ hs := finishTarget_keeps
    (fun _ _ ho => .inl (Option.some.inj ho ▸ (trivial : r.config.Makes .depends))) hs
  object _ _ _ _ _ hs := finishTarget_keeps (fun _ _ ho => .inl (makes_compiled ho)) hs

variable {link : Bool} {made : Name → Option Made}

/-- A build of which no command for object files is another one. -/
theorem buildExe_kept (hs : ∀ n f, made n = some f → KeptBy r link n f) :
    After (fun s => ∀ n f, s.made n = some f → KeptBy r link n f)
      (fun s => ∀ n f, s.made n = some f → KeptBy r link n f)
      (buildExe h r force link { made }) := by
  refine After.bind ((keeps_kept link).buildObjects (List.Subset.refl _) hs) fun b s hs => ?_
  refine finishTarget_keeps (fun o t ho => .inl ?_) hs
  rw [← Option.some.inj ho]
  exact makes_linked fun f _ x hx cmd first horigin => (hs _ x hx).compiled horigin

/-- The executable is linked again. -/
theorem buildExe_relinked (hclean : r.cleanMode = false) (hok : r.Succeeds h)
    (hs : ∀ n f, made n = some f → KeptBy r true n f) :
    After (fun s => ∀ n f, s.made n = some f → r.config.Makes f.origin) (fun _ => False)
      (buildExe h r force true { made }) := by
  have hkeeps : Keeps h r force (fun made _ => ∀ n f, made n = some f → KeptBy r true n f)
      fun _ => False :=
    ⟨fun f hf hskip docmd s hforce hs => ((keeps_kept true).dep f hf hskip docmd s hforce hs).ok
        (finishTarget_ok _ _ (.inr (hok.dep f hf hskip))),
      fun f hf docmd s hforce hs => ((keeps_kept true).object f hf docmd s hforce hs).ok
        (finishTarget_ok _ _ (.inr (hok.object f hf)))⟩
  refine After.bind (hkeeps.buildObjects (List.Subset.refl _) hs) fun b s hs => ?_
  simp only [Bool.or_true, Bool.true_or]
  rw [finishTarget_success hclean hok.exe]
  intro n f hf
  by_cases hn : n = r.exeName
  · subst hn
    rw [show (Session.mark _ (Session.write r _ _ s)).made = _ from write_made,
      Function.update_self] at hf
    rw [← Option.some.inj hf]
    exact makes_linked fun f _ x hx cmd first horigin => (hs _ x hx).compiled horigin
  · rw [show (Session.mark _ (Session.write r _ _ s)).made = _ from write_made,
      Function.update_of_ne hn] at hf
    exact (hs n f hf).resolve_right fun hlinked => hn hlinked.2.1

/-- The file is a new one, or its target has not run yet and it is as it was. -/
def Fresh (new : Origin → Prop) (old made : Name → Option Made) (runlist : List Name) : Prop :=
  ∀ n f, made n = some f → new f.origin ∨ n ∉ runlist ∧ old n = some f

theorem Fresh.init (new : Origin → Prop) (old : Name → Option Made) : Fresh new old old [] :=
  fun _ _ hf => .inr ⟨List.not_mem_nil, hf⟩

variable {new : Origin → Prop} {old : Name → Option Made}

theorem Fresh.update {runlist : List Name} (hs : Fresh new old made runlist) {x : Option Made}
    (hx : ∀ f, x = some f → new f.origin) :
    Fresh new old (Function.update made n x) (n :: runlist) := by
  intro m f hf
  by_cases hmn : m = n
  · subst hmn
    rw [Function.update_self] at hf
    exact .inl (hx f hf)
  · rw [Function.update_of_ne hmn] at hf
    exact (hs m f hf).imp_right fun h => ⟨List.not_mem_cons_of_ne_of_not_mem hmn h.1, h.2⟩

/-- All object files are made again. -/
theorem keeps_forced (hclean : r.cleanMode = false) (hok : r.Succeeds h)
    (hcommand : ∀ f ∈ r.files, (r.config.command f).isSome) :
    Keeps h r true (Fresh r.config.Makes old) fun _ => False where
  dep f hf hskip docmd s hforce hs := by
    rw [hforce rfl, finishTarget_success hclean (hok.dep f hf hskip)]
    exact hs.update fun x hx => Option.some.inj hx ▸ trivial
  object f hf docmd s hforce hs := by
    obtain ⟨cmd, hcmd⟩ := Option.isSome_iff_exists.mp (hcommand f hf)
    rw [hforce rfl, hcmd, Option.map_some, finishTarget_success hclean (hok.object f hf)]
    exact hs.update fun x hx => Option.some.inj hx ▸ hcmd

/-- A build that has to link goes on to link. -/
theorem buildObjects_docmd {fs : List Name}
    (hb : buildObjects h r force initdep fs true s = .ok (b, s')) : b = true := by
  induction fs generalizing s with
  | nil => exact (Prod.mk.inj (Except.ok.inj hb)).1.symm
  | cons f fs ih =>
    rw [buildObjects] at hb
    cases hobj : buildObject h r force initdep f s with
    | error s₁ =>
      rw [hobj] at hb
      cases hb
    | ok p =>
      rw [hobj] at hb
      exact ih hb

/-- What is left after the object files and the executable is new. -/
theorem Fresh.product {runlist : List Name} {x : Option Made} (hs : Fresh new old made runlist)
    (hold : ∀ n f, old n = some f → f.origin.IsProduct → r.IsTarget h n)
    (hnew : ∀ o, ¬o.IsProduct → new o) (hobjects : ∀ f ∈ r.files, h.objName r f ∈ runlist)
    (hx : ∀ f, x = some f → new f.origin) :
    ∀ n f, Function.update made r.exeName x n = some f → new f.origin := by
  intro n f hf
  obtain hfresh | ⟨hrun, hstays⟩ := hs.update hx n f hf
  · exact hfresh
  · refine hnew _ fun hproduct => hrun ?_
    obtain rfl | ⟨g, hg, rfl⟩ := hold n f hstays hproduct
    · exact List.mem_cons_self
    · exact List.mem_cons_of_mem _ (hobjects g hg)

/-- The end of the target of the executable. -/
theorem buildExe_finish (hb : buildObjects h r force (readDepends h r { made }) r.files
      ((({ made } : Session).files r r.exeName).isNone || force) { made } = .ok (b, s)) :
    buildExe h r force link { made } =
      finishTarget r r.exeName (some (.linked r.config.linkCmd (objectOrigins h r s)))
        (b || link || r.files.isEmpty) s := by
  rw [buildExe]
  dsimp only
  rw [hb]
  rfl

/-- Everything is made again. -/
theorem buildExe_forced (hclean : r.cleanMode = false) (hok : r.Succeeds h)
    (hcommand : ∀ f ∈ r.files, (r.config.command f).isSome)
    (hcovers : ∀ n f, made n = some f → f.origin.IsProduct → r.IsTarget h n) :
    After (fun s => ∀ n f, s.made n = some f → r.config.Makes f.origin) (fun _ => False)
      (buildExe h r true link { made }) := by
  have hobjects : After (fun s => Fresh r.config.Makes made s.made s.runlist) (fun _ => False)
      (buildObjects h r true (readDepends h r { made }) r.files
        ((({ made } : Session).files r r.exeName).isNone || true) { made }) :=
    (keeps_forced hclean hok hcommand).buildObjects (List.Subset.refl _) (Fresh.init _ made)
  cases hb : buildObjects h r true (readDepends h r { made }) r.files
    ((({ made } : Session).files r r.exeName).isNone || true) { made } with
  | error s =>
    rw [hb] at hobjects
    exact hobjects.elim
  | ok p =>
    obtain ⟨b, s⟩ := p
    rw [hb] at hobjects
    have hfresh : Fresh r.config.Makes made s.made s.runlist := hobjects
    have hmem := buildObjects_mem (List.Subset.refl _) hb
    rw [buildExe_finish hb]
    rw [Bool.or_true] at hb
    rw [buildObjects_docmd hb, Bool.true_or, Bool.true_or, finishTarget_success hclean hok.exe]
    refine hfresh.product (h := h) hcovers ?_ hmem fun f hf => ?_
    · rintro (_ | _ | _) ho
      · trivial
      · exact absurd trivial ho
      · exact absurd trivial ho
    · rw [← Option.some.inj hf]
      refine makes_linked fun f hf x hx cmd first horigin => ?_
      have hmakes := (hfresh _ x hx).resolve_right fun hold => hold.1 (hmem f hf)
      rwa [horigin] at hmakes

/-- All files that are removed. -/
theorem keeps_clean (hclean : r.cleanMode = true)
    (hcommand : ∀ f ∈ r.files, (r.config.command f).isSome)
    (hremoves : ∀ n, r.IsTarget h n → r.removes n = true)
    (hcovers : ∀ n f, old n = some f → f.origin.IsProduct → r.IsTarget h n) :
    Keeps h r force (Fresh (fun o => ¬o.IsProduct) old) fun _ => False where
  dep f _ _ docmd s _ hs := by
    rw [finishTarget_clean hclean]
    by_cases hremove : r.removes (h.depFilename f) = true
    · rw [if_pos hremove]
      exact hs.update nofun
    · -- A dependency file that stays is no product, because it is no target that is removed.
      rw [if_neg hremove]
      intro n x hx
      by_cases hproduct : x.origin.IsProduct
      · obtain hnew | ⟨hrun, hold⟩ := hs n x hx
        · exact .inl hnew
        · refine .inr ⟨fun hmem => ?_, hold⟩
          obtain rfl | hmem := List.mem_cons.mp hmem
          · exact hremove (hremoves _ (hcovers _ x hold hproduct))
          · exact hrun hmem
      · exact .inl hproduct
  object f hf docmd s _ hs := by
    obtain ⟨cmd, hcmd⟩ := Option.isSome_iff_exists.mp (hcommand f hf)
    rw [hcmd, Option.map_some, finishTarget_clean hclean, if_pos (hremoves _ (.inr ⟨f, hf, rfl⟩))]
    exact hs.update nofun

/-- Everything is removed. -/
theorem buildExe_clean (hclean : r.cleanMode = true)
    (hcommand : ∀ f ∈ r.files, (r.config.command f).isSome)
    (hremoves : ∀ n, r.IsTarget h n → r.removes n = true)
    (hcovers : ∀ n f, made n = some f → f.origin.IsProduct → r.IsTarget h n) :
    After (fun s => ∀ n f, s.made n = some f → ¬f.origin.IsProduct) (fun _ => False)
      (buildExe h r force link { made }) := by
  have hobjects : After (fun s => Fresh (fun o => ¬o.IsProduct) made s.made s.runlist)
      (fun _ => False) (buildObjects h r force (readDepends h r { made }) r.files
        ((({ made } : Session).files r r.exeName).isNone || force) { made }) :=
    (keeps_clean hclean hcommand hremoves hcovers).buildObjects (List.Subset.refl _)
      (Fresh.init _ made)
  cases hb : buildObjects h r force (readDepends h r { made }) r.files
    ((({ made } : Session).files r r.exeName).isNone || force) { made } with
  | error s =>
    rw [hb] at hobjects
    exact hobjects.elim
  | ok p =>
    obtain ⟨b, s⟩ := p
    rw [hb] at hobjects
    rw [buildExe_finish hb, finishTarget_clean hclean, if_pos (hremoves _ (.inl rfl))]
    have hfresh : Fresh (fun o => ¬o.IsProduct) made s.made s.runlist := hobjects
    exact hfresh.product hcovers (fun _ ho => ho) (buildObjects_mem (List.Subset.refl _) hb) nofun

end Steps

/-! ### Tracking -/

section Tracking

variable {h : Host} {last : Option Invocation} {p r : Invocation} {w : Disk}

/-- What holds after a run: everything is made by its commands, and a clean run leaves nothing. -/
def Tracked (last : Option Invocation) (w : Disk) : Prop :=
  (∀ p, last = some p → Current p w) ∧ ((∀ p, last = some p → p.cleanMode = true) → Bare w)

theorem Bare.current (hbare : Bare w) (r : Invocation) : Current r w := by
  intro n f hf
  cases horigin : f.origin with
  | depends => trivial
  | compiled cmd first => exact (hbare n f hf (horigin ▸ trivial)).elim
  | linked cmd objects => exact (hbare n f hf (horigin ▸ trivial)).elim

/-- Before the first run there are no files. -/
theorem tracked_start : Tracked none {} :=
  have hbare : Bare {} := fun _ _ hf => absurd hf (Option.some_ne_none _).symm
  ⟨fun _ _ => hbare.current _, fun _ => hbare⟩

theorem Tracked.bare_or (ht : Tracked last w) :
    Bare w ∨ ∃ p, last = some p ∧ p.cleanMode = false ∧ Current p w := by
  by_cases hclean : ∀ p, last = some p → p.cleanMode = true
  · exact .inl (ht.2 hclean)
  · push Not at hclean
    obtain ⟨p, hp, hclean⟩ := hclean
    exact .inr ⟨p, hp, Bool.not_eq_true _ ▸ hclean, ht.1 p hp⟩

/-- The commands of object files depend on two fields of the configuration. -/
theorem command_congr {c c' : Config} (hcomp : c.compCmd = c'.compCmd)
    (hasm : c.asmCmd = c'.asmCmd) : c.command = c'.command := by
  funext f
  rw [Config.command, Config.command, hcomp, hasm]

/-- If no other command for object files is noticed, only executables can be of other commands. -/
theorem Careful.kept (hcareful : Careful h last w r) (ht : Tracked last w)
    (hclean : r.cleanMode = false) (hcomp : (compareComp h r w).1 = false) :
    ∀ n f, w.made n = some f → KeptBy r (compareLink h r w).1 n f := by
  intro n f hf
  obtain hbare | ⟨p, hp, hpclean, hcurrent⟩ := ht.bare_or
  · exact .inl (hbare.current r n f hf)
  · have hcommand : p.config.command = r.config.command := by
      obtain ⟨hcompCmd, hasmCmd⟩ := hcareful.comp p hp hpclean hclean hcomp
      exact command_congr hcompCmd hasmCmd
    have hmakes := hcurrent n f hf
    cases horigin : f.origin with
    | depends => exact .inl (horigin ▸ trivial)
    | compiled cmd first =>
      rw [horigin] at hmakes
      refine .inl ?_
      rw [horigin]
      exact (congrFun hcommand first).symm.trans hmakes
    | linked cmd objects =>
      rw [horigin] at hmakes
      cases hlink : (compareLink h r w).1 with
      | true => exact .inr ⟨rfl, hcareful.relinks hlink n f cmd objects hf horigin, cmd, objects,
          horigin⟩
      | false =>
        refine .inl ?_
        rw [horigin]
        exact ⟨hmakes.1.trans (hcareful.link p hp hpclean hclean hlink), hcommand ▸ hmakes.2⟩

/-- A run after which its target is not found. -/
theorem Careful.not_found (hcareful : Careful h last w r) (ht : Tracked last w)
    (hfound : r.found = false) : r.cleanMode = false ∧ Current r w := by
  have hclean : r.cleanMode = false := by
    by_contra hclean
    have hfound' := (hcareful.cleans (Bool.not_eq_false _ ▸ hclean)).1
    exact Bool.false_ne_true (hfound.symm.trans hfound')
  have hsame : ¬((compareComp h r w).1 = true ∨ (compareLink h r w).1 = true) := by
    intro hchange
    exact Bool.false_ne_true (hfound.symm.trans (hcareful.complete hchange).found)
  rw [not_or, Bool.not_eq_true, Bool.not_eq_true] at hsame
  refine ⟨hclean, fun n f hf => ?_⟩
  have hkept := hcareful.kept ht hclean hsame.1 n f hf
  rw [hsame.2] at hkept
  exact hkept.resolve_right fun hlinked => Bool.false_ne_true hlinked.1

/-- A run that builds its executable. -/
theorem Careful.buildExe (hcareful : Careful h last w r) (ht : Tracked last w)
    (hclean : r.cleanMode = false) :
    After (fun s => ∀ n f, s.made n = some f → r.config.Makes f.origin)
      (fun s => ∀ n f, s.made n = some f → r.config.Makes f.origin)
      (buildExe h r (compareComp h r w).1 (compareLink h r w).1 { made := w.made }) := by
  cases hcomp : (compareComp h r w).1 with
  | true =>
    obtain ⟨hcommand, hcovers⟩ := hcareful.covers (.inl hcomp)
    exact (buildExe_forced hclean (hcareful.complete (.inl hcomp)) hcommand hcovers).imp id
      False.elim
  | false =>
    have hkept := hcareful.kept ht hclean hcomp
    cases hlink : (compareLink h r w).1 with
    | true =>
      rw [hlink] at hkept
      exact (buildExe_relinked hclean (hcareful.complete (.inr hlink)) hkept).imp id False.elim
    | false =>
      rw [hlink] at hkept
      have hmakes {s : Session} (hs : ∀ n f, s.made n = some f → KeptBy r false n f) :
          ∀ n f, s.made n = some f → r.config.Makes f.origin := fun n f hf =>
        (hs n f hf).resolve_right fun hlinked => Bool.false_ne_true hlinked.1
      exact (buildExe_kept hkept).imp hmakes hmakes

/-- What holds of the files after the build holds of the files after the run. -/
theorem run_made {I : (Name → Option Made) → Prop} (hfound : r.found = true)
    (hbuild : After (fun s => I s.made) (fun s => I s.made)
      (Build.buildExe h r (compareComp h r w).1 (compareLink h r w).1 { made := w.made })) :
    I (run h r w).2.made := by
  rw [run]
  dsimp only
  rw [if_neg (Bool.ne_false_iff.mpr hfound)]
  cases hb : Build.buildExe h r (compareComp h r w).1 (compareLink h r w).1 { made := w.made } with
  | error s =>
    rw [hb] at hbuild
    exact hbuild
  | ok q =>
    rw [hb] at hbuild
    dsimp only
    split_ifs
    · exact hbuild
    · exact hbuild

/-- **A careful run keeps track of the configuration.** -/
theorem Careful.tracked (hcareful : Careful h last w r) (ht : Tracked last w) :
    Tracked (some r) (run h r w).2 := by
  cases hclean : r.cleanMode with
  | true =>
    obtain ⟨hfound, hremoves⟩ := hcareful.cleans hclean
    obtain ⟨hcommand, hcovers⟩ := hcareful.covers (.inr hclean)
    have hbare : Bare (run h r w).2 := run_made
      (I := fun made => ∀ n f, made n = some f → ¬f.origin.IsProduct) hfound
      ((buildExe_clean hclean hcommand hremoves hcovers).imp id False.elim)
    exact ⟨fun _ _ => hbare.current _, fun _ => hbare⟩
  | false =>
    refine ⟨?_, fun hall => absurd (hall r rfl) (hclean ▸ Bool.false_ne_true)⟩
    rintro _ ⟨⟩
    cases hfound : r.found with
    | true =>
      exact run_made (h := h) (w := w)
        (I := fun made => ∀ n f, made n = some f → r.config.Makes f.origin) hfound
        (hcareful.buildExe ht hclean)
    | false =>
      rw [run]
      dsimp only
      rw [if_pos hfound]
      exact (hcareful.not_found ht hfound).2

end Tracking

/-! ### Builds that go wrong -/

/-- A host whose tables have an order. -/
def sampleHost : Host := ⟨"b".toList, false, id⟩

/-- A run for one source, whose commands succeed from a time on. -/
def sampleRun (compCmd linkCmd : Text) (start : ℕ) : Invocation where
  config := { compCmd := compCmd, linkCmd := linkCmd }
  files := ["a.c".toList]
  output := "x".toList
  sources n := if n = "a.c".toList then some 1 else none
  stamp k := start + k
  listed _ _ := []
  outcome _ := .success
  removes _ := true

theorem sampleRun_succeeds (compCmd linkCmd : Text) (start : ℕ) :
    (sampleRun compCmd linkCmd start).Succeeds sampleHost :=
  ⟨rfl, fun _ _ _ => rfl, fun _ _ => rfl, rfl⟩

/-- The object file of the run. -/
def sampleObject : Name := "b/a.o".toList

/-- The files after the first run. -/
theorem sampleRun_made : (run sampleHost (sampleRun "cc".toList "ld".toList 2) {}).2.made =
    Function.update (Function.update (Function.update (fun _ => none) "b/a.d".toList
      (some ⟨2, .depends⟩)) sampleObject (some ⟨3, .compiled "cc".toList "a.c".toList⟩))
      "x".toList (some ⟨4, .linked "ld".toList [("cc".toList, "a.c".toList)]⟩) := by
  rfl

/-- The first run of all is careful. -/
theorem sampleRun_careful :
    Careful sampleHost none {} (sampleRun "cc".toList "ld".toList 2) where
  comp _ hp := absurd hp (Option.some_ne_none _).symm
  link _ hp := absurd hp (Option.some_ne_none _).symm
  complete _ := sampleRun_succeeds _ _ _
  covers _ := ⟨by decide +kernel, fun _ _ hf => absurd hf (Option.some_ne_none _).symm⟩
  relinks _ _ _ _ _ hf := absurd hf (Option.some_ne_none _).symm
  cleans hclean := absurd hclean Bool.false_ne_true

theorem sampleRun_covers {n : Name} {f : Made}
    (hf : (run sampleHost (sampleRun "cc".toList "ld".toList 2) {}).2.made n = some f)
    (hproduct : f.origin.IsProduct) :
    (sampleRun "cc -g".toList "ld".toList 9).IsTarget sampleHost n := by
  rw [sampleRun_made, Function.update_apply, Function.update_apply, Function.update_apply] at hf
  split_ifs at hf with hexe hobject hdep
  · exact .inl hexe
  · exact .inr ⟨_, List.mem_singleton_self _, hobject.symm⟩
  · obtain rfl := Option.some.inj hf
    exact hproduct.elim

theorem not_current {r : Invocation} {w : Disk} (n : Name) {o : Origin}
    (hn : (w.made n).map Made.origin = some o) (ho : ¬r.config.Makes o) : ¬Current r w := by
  intro hcurrent
  obtain ⟨f, hf, rfl⟩ := Option.map_eq_some_iff.mp hn
  exact ho (hcurrent n f hf)

end ELuaBrain.Build
