import ELuaBrain.Device.Paths
import Mathlib.Data.List.TakeDrop

/-!
# The commands `cp` and `rm`

The shell makes the names of the files that it copies and removes from the name of a device and the
entries of a directory, in buffers of several sizes. Directories, the results of opening and
removing files and the keys of the user are whatever they are.

## Main definitions

* `shellCp`, `shellRm` : the commands.
* `Names` : the names that a command is about.
* `Right` : the files that a command opens, creates and removes are the right ones.
* `Command.Short` : the names fit, and no file is copied onto itself.

## Main results

* `safe_iff_short` : a command is safe if and only if its names are short.
-/

namespace ELuaBrain.Shell

open Device (PathType cmnGetPathType devicePart slash star toLower sameName dmMaxDevName)

/-- A string, without the zero behind it. -/
abbrev Str := List UInt8

/-- `DM_MAX_FNAME_LENGTH`. -/
def dmMaxFnameLength : ℕ := 30

/-! ### What a command does with files -/

/-- The files that a command opens, creates and removes, with the entry of the directory that it is
about, and a write behind the end of a buffer. -/
inductive Op where
  | look (name : Str)
  | read (ent name : Str)
  | check (ent name : Str)
  | create (ent source name : Str)
  | remove (ent name : Str)
  | overflow (ent : Str)
  deriving DecidableEq

/-- What opening and removing files will result in, the keys to come, and what was done so far. -/
structure Io where
  opens : ℕ → Bool
  keys : ℕ → UInt8
  trace : List Op := []

/-- A file that is opened or removed. -/
def Io.attempt (op : Op) (s : Io) : Bool × Io :=
  (s.opens 0, { s with opens := fun i => s.opens (i + 1), trace := s.trace ++ [op] })

/-- `term_getch`. -/
def Io.termGetch (s : Io) : UInt8 × Io :=
  (s.keys 0, { s with keys := fun i => s.keys (i + 1) })

/-- The answers to a question. -/
inductive Answer where
  | yes
  | no
  | exit
  deriving DecidableEq

/-- The characters `x` and `y`. -/
def keyX : UInt8 := 0x78
def keyY : UInt8 := 0x79

/-- The answer that a key stands for. -/
def Answer.ofKey (c : UInt8) : Answer :=
  if toLower c = keyX then .exit else if toLower c = keyY then .yes else .no

/-- A question, if there is one to ask. -/
def prompt (asked : Bool) (s : Io) : Answer × Io :=
  if asked then (.ofKey s.termGetch.1, s.termGetch.2) else (.yes, s)

/-- What follows an answer; the first result tells whether to stop. -/
def whenYes (a : Answer × Io) (f : Io → Bool × Io) : Bool × Io :=
  match a.1 with
  | .exit => (true, a.2)
  | .no => (false, a.2)
  | .yes => f a.2

/-! ### Patterns -/

/-- `cmn_match_fname`. -/
def cmnMatchFname : Str → Str → Bool
  | f :: fname, p :: pattern =>
      if p :: pattern = [star] then true
      else if p ≠ star then
        if toLower p ≠ toLower f then false else cmnMatchFname fname pattern
      else if (f :: fname).length < pattern.length then false
      else (f :: fname).drop ((f :: fname).length - pattern.length) == pattern
  | [], [] => true
  | _, _ => false

/-- `shellh_pattern_from_fs`. -/
def shellhPatternFromFs (pfs : Str) : Str :=
  if pfs.getLast? = some slash then pfs ++ [star] else pfs ++ [slash, star]

/-- The loop of `shellh_pattern_iterator`; the callback tells whether to stop. -/
def iterate (cb : Str → Io → Bool × Io) (pfname : Str) : List Str → Io → Io
  | [], s => s
  | ent :: ents, s =>
      if cmnMatchFname ent pfname then
        if (cb ent s).1 then (cb ent s).2 else iterate cb pfname ents (cb ent s).2
      else iterate cb pfname ents s

/-- `shellh_pattern_iterator`, where `dir` is what `dm_opendir` and `dm_readdir` find. -/
def shellhPatternIterator (dir : Str → Option (List Str)) (pattern : Str)
    (cb : Str → Str → Io → Bool × Io) (s : Io) : Io :=
  match (cmnGetPathType (some pattern)).pname with
  | none => s
  | some pfname =>
      let pdevname := pattern.take (pattern.length - pfname.length - 1)
      match dir pdevname with
      | none => s
      | some ents => iterate (cb pdevname) pfname ents s

/-! ### `rm` -/

/-- `snprintf` of a device and a file, in a buffer for `n` characters and the zero. -/
def snprintfName (n : ℕ) (fsname fname : Str) : Str := (fsname ++ slash :: fname).take n

/-- `shell_rm_iterator_cb`. -/
def shellRmIteratorCb (ask : Bool) (fsname ent : Str) (s : Io) : Bool × Io :=
  let fullpattern := snprintfName (dmMaxDevName + dmMaxFnameLength) fsname ent
  whenYes (prompt ask s) fun s => (false, (s.attempt (.remove ent fullpattern)).2)

/-- The pattern of an argument. -/
def rmPattern (arg : Str) : Option Str :=
  match cmnGetPathType (some arg) with
  | .invalid => none
  | .fs => some (shellhPatternFromFs arg)
  | _ => some arg

/-- The pattern of `rm`, and whether it asks. -/
def rmArgs : List Str → Option (Str × Bool)
  | [] => none
  | [arg] => (rmPattern arg).map (·, true)
  | arg :: opt :: _ =>
      if sameName opt [0x2D, 0x66] then (rmPattern arg).map (·, false) else none

/-- `shell_rm`. -/
def shellRm (dir : Str → Option (List Str)) (words : List Str) (s : Io) : Io :=
  match rmArgs words with
  | none => s
  | some (pattern, ask) => shellhPatternIterator dir pattern (shellRmIteratorCb ask) s

/-! ### `cp` -/

/-- `SHELL_CP_FLAG_BACKUP`, `SHELL_CP_FLAG_CONFIRM` and `SHELL_CP_FLAG_OVERWRITE`. -/
structure CpFlags where
  backup : Bool := false
  confirm : Bool := false
  overwrite : Bool := false

/-- `shellh_cp_copy`, up to the data; the result tells whether to stop. -/
def shellhCpCopy (flags : CpFlags) (ent psrcname pdestname : Str) (s : Io) : Bool × Io :=
  let r := s.attempt (.read ent psrcname)
  if r.1 then
    whenYes (prompt flags.confirm r.2) fun s =>
      let e := if flags.overwrite then (false, s) else s.attempt (.check ent pdestname)
      whenYes (prompt e.1 e.2) fun s => (false, (s.attempt (.create ent psrcname pdestname)).2)
  else (false, r.2)

/-- The name of a device that may have a slash behind it. -/
def deviceName (pfsname : Str) : Str :=
  if pfsname.getLast? = some slash then pfsname.dropLast else pfsname

/-- `shellh_cp_makefname`. -/
def shellhCpMakefname (pfsname fname : Str) (backup : Bool) : Str :=
  deviceName pfsname ++ slash :: ((if backup then [0x62, 0x5F] else []) ++ fname)

/-- The size of `fulldest`. -/
def fulldestSize : ℕ := dmMaxDevName + dmMaxFnameLength + 4

/-- `shell_cp_state`. -/
structure Cp where
  psrc : Str
  pdest : Str
  flags : CpFlags

namespace Cp

variable (c : Cp)

/-- The source is a file, and its name. -/
def srcFile : Option Str :=
  match cmnGetPathType (some c.psrc) with
  | .file psrcname => some psrcname
  | _ => none

/-- The destination is a file. -/
def destFile : Bool :=
  match cmnGetPathType (some c.pdest) with
  | .file _ => true
  | _ => false

/-- A copy into `fulldest`, which holds the name of the device as well as that of the file. -/
def copyInto (ent psrcname fname : Str) (s : Io) : Bool × Io :=
  let fulldest := shellhCpMakefname c.pdest fname c.flags.backup
  if fulldestSize < fulldest.length + 1 then
    (true, { s with trace := s.trace ++ [.overflow ent] })
  else shellhCpCopy c.flags ent psrcname fulldest s

/-- `shell_cp_iterator_cb`. -/
def shellCpIteratorCb (fsname ent : Str) (s : Io) : Bool × Io :=
  match c.srcFile with
  | some psrcname =>
      if c.destFile then shellhCpCopy c.flags ent c.psrc c.pdest s
      else c.copyInto ent c.psrc psrcname s
  | none => c.copyInto ent (snprintfName dmMaxFnameLength fsname ent) ent s

/-- The checks of the destination. -/
def destOk : Bool :=
  match cmnGetPathType (some c.pdest) with
  | .invalid => false
  | .wc _ => false
  | .fs => true
  | .file _ =>
      match cmnGetPathType (some c.psrc) with
      | .wc _ => false
      | _ => !c.flags.backup

end Cp

/-- The flags of `cp`. -/
def cpFlags : List Str → CpFlags → Option CpFlags
  | [], flags => some flags
  | opt :: opts, flags =>
      if sameName opt [0x2D, 0x62] then cpFlags opts { flags with backup := true }
      else if sameName opt [0x2D, 0x63] then cpFlags opts { flags with confirm := true }
      else if sameName opt [0x2D, 0x66] then cpFlags opts { flags with overwrite := true }
      else none

/-- The source, the destination and the flags of `cp`. -/
def cpArgs : List Str → Option Cp
  | psrc :: pdest :: opts =>
      (cpFlags opts {}).bind fun flags =>
        match cmnGetPathType (some psrc) with
        | .invalid => none
        | .fs => some { psrc := shellhPatternFromFs psrc, pdest := pdest, flags := flags }
        | _ => some { psrc := psrc, pdest := pdest, flags := flags }
  | _ => none

/-- `shell_cp`. -/
def shellCp (dir : Str → Option (List Str)) (words : List Str) (s : Io) : Io :=
  match cpArgs words with
  | none => s
  | some c =>
      let found := if c.srcFile.isSome then s.attempt (.look c.psrc) else (true, s)
      if found.1 && c.destOk then shellhPatternIterator dir c.psrc c.shellCpIteratorCb found.2
      else found.2

/-! ### The right names -/

/-- A command with its arguments. -/
inductive Command where
  | rm (words : List Str)
  | cp (words : List Str)

/-- A command with directories, results and keys. -/
def Command.run (dir : Str → Option (List Str)) : Command → Io → Io
  | .rm words => shellRm dir words
  | .cp words => shellCp dir words

/-- The names that a command is about: the source as it is given, and the source and the
destination for an entry of the directory. -/
structure Names where
  given : Str
  source : Str → Str
  dest : Str → Str

/-- The entries of its directory that a pattern matches. -/
def matching (dir : Str → Option (List Str)) (pattern : Str) : List Str :=
  match (cmnGetPathType (some pattern)).pname with
  | none => []
  | some pfname => ((dir (devicePart pattern)).getD []).filter (cmnMatchFname · pfname)

/-- The device, a separator, and the name of an entry. -/
def fullName (pattern ent : Str) : Str := devicePart pattern ++ slash :: ent

/-- A file that is given by its name is copied under this name. A copy keeps the name of the file,
with `b_` before it for a backup, unless the destination is given by its name. -/
def Cp.names (c : Cp) : Names where
  given := c.psrc
  source ent := if c.srcFile.isSome then c.psrc else fullName c.psrc ent
  dest ent :=
    if c.srcFile.isSome && c.destFile then c.pdest
    else shellhCpMakefname c.pdest (c.srcFile.getD ent) c.flags.backup

/-- The names of `rm`. -/
def rmNames (pattern : Str) : Names where
  given := pattern
  source := fullName pattern
  dest := fullName pattern

/-- The names, the pattern and the entries of a command that gets as far as a directory. -/
def Command.names : Command → Option Names
  | .rm words => (rmArgs words).map fun p => rmNames p.1
  | .cp words => (cpArgs words).map Cp.names

section Right

variable {ι : Type*} (fileOf : Str → ι)

/-- A file is opened, created or removed under the right name, and no file is created that is the
source of the copy. `fileOf` tells which file a name stands for. -/
def Right (names : Names) : Op → Prop
  | .look name => name = names.given
  | .read ent name => name = names.source ent
  | .check ent name => name = names.dest ent
  | .create ent source name => name = names.dest ent ∧ fileOf name ≠ fileOf source
  | .remove ent name => name = names.source ent
  | .overflow _ => False

/-- Whatever the results and the keys are, all that a command does is right. -/
def Command.Safe (dir : Str → Option (List Str)) (cmd : Command) : Prop :=
  ∀ names, cmd.names = some names → ∀ opens keys,
    ∀ op ∈ (cmd.run dir { opens := opens, keys := keys }).trace, Right fileOf names op

/-- The names for an entry fit into the buffers of `cp`, and stand for two files. -/
structure Cp.Short (c : Cp) (ent : Str) : Prop where
  source : c.srcFile = none → (fullName c.psrc ent).length ≤ dmMaxFnameLength
  dest : (c.srcFile.isSome && c.destFile) = false → (c.names.dest ent).length < fulldestSize
  apart : fileOf (c.names.dest ent) ≠ fileOf (c.names.source ent)

/-- The names of all matching entries fit, and no file is copied onto itself. -/
def Command.Short (dir : Str → Option (List Str)) : Command → Prop
  | .rm words => ∀ pattern ask, rmArgs words = some (pattern, ask) →
      ∀ ent ∈ matching dir pattern,
        (fullName pattern ent).length ≤ dmMaxDevName + dmMaxFnameLength
  | .cp words => ∀ c, cpArgs words = some c → c.destOk = true →
      ∀ ent ∈ matching dir c.psrc, c.Short fileOf ent

end Right

/-! ### Directories -/

/-- The entries of a directory, one after the other. -/
def visit (cb : Str → Io → Bool × Io) : List Str → Io → Io
  | [], s => s
  | ent :: ents, s => if (cb ent s).1 then (cb ent s).2 else visit cb ents (cb ent s).2

theorem iterate_eq (cb : Str → Io → Bool × Io) (pfname : Str) (ents : List Str) (s : Io) :
    iterate cb pfname ents s = visit cb (ents.filter (cmnMatchFname · pfname)) s := by
  induction ents generalizing s with
  | nil => rfl
  | cons ent ents ih =>
    rw [iterate]
    by_cases hmatch : cmnMatchFname ent pfname = true
    · have hfilter : (ent :: ents).filter (cmnMatchFname · pfname) =
          ent :: ents.filter (cmnMatchFname · pfname) := List.filter_cons_of_pos hmatch
      rw [if_pos hmatch, hfilter, visit, ih]
    · have hfilter : (ent :: ents).filter (cmnMatchFname · pfname) =
          ents.filter (cmnMatchFname · pfname) := List.filter_cons_of_neg hmatch
      rw [if_neg hmatch, hfilter, ih]

/-- The iterator goes through the matching entries of the device part of the pattern. -/
theorem shellhPatternIterator_eq (dir : Str → Option (List Str)) (pattern : Str)
    (cb : Str → Str → Io → Bool × Io) (s : Io) :
    shellhPatternIterator dir pattern cb s =
      visit (cb (devicePart pattern)) (matching dir pattern) s := by
  rw [shellhPatternIterator, matching]
  cases hpname : (cmnGetPathType (some pattern)).pname with
  | none => rfl
  | some pfname =>
    -- what is left of the pattern without its last part
    have hdrop := (Device.drop_of_pname hpname).2
    have hlen := congrArg List.length hdrop
    rw [List.length_drop, List.length_cons] at hlen
    have htake : pattern.take (pattern.length - pfname.length - 1) = devicePart pattern := by
      have : pattern.length - pfname.length - 1 = (devicePart pattern).length := by omega
      rw [this]
      exact (List.prefix_iff_eq_take.mp (Device.devicePart_prefix_path pattern)).symm
    simp only [htake]
    cases dir (devicePart pattern) with
    | none => rfl
    | some ents => exact iterate_eq _ _ _ _

/-- What a callback keeps of the trace, the entries of a directory keep. -/
theorem visit_trace {P : Op → Prop} {cb : Str → Io → Bool × Io} {ents : List Str}
    (hcb : ∀ ent ∈ ents, ∀ s : Io, (∀ op ∈ s.trace, P op) → ∀ op ∈ (cb ent s).2.trace, P op)
    (s : Io) (hs : ∀ op ∈ s.trace, P op) : ∀ op ∈ (visit cb ents s).trace, P op := by
  induction ents generalizing s with
  | nil => exact hs
  | cons ent ents ih =>
    have hfirst := hcb ent List.mem_cons_self s hs
    rw [visit]
    split_ifs
    · exact hfirst
    · exact ih (fun e he => hcb e (List.mem_cons_of_mem ent he)) _ hfirst

/-- All results are good and all answers are yes. -/
def eager (trace : List Op) : Io :=
  { opens := fun _ => true, keys := fun _ => keyY, trace := trace }

theorem attempt_eager (op : Op) (trace : List Op) :
    (eager trace).attempt op = (true, eager (trace ++ [op])) := rfl

theorem prompt_eager (asked : Bool) (trace : List Op) :
    prompt asked (eager trace) = (.yes, eager trace) := by
  cases asked <;> rfl

/-- Where a callback only goes on with operations that are right, and is only right under a
condition, the entries of a directory are only right if they all meet it. -/
theorem visit_eager {P : Op → Prop} {Q : Str → Prop} {cb : Str → Io → Bool × Io}
    (hgrow : ∀ ent s, s.trace ⊆ (cb ent s).2.trace)
    (hcb : ∀ ent trace, (∀ op ∈ (cb ent (eager trace)).2.trace, P op) →
      Q ent ∧ ∃ trace', cb ent (eager trace) = (false, eager trace'))
    {ents : List Str} (trace : List Op) (h : ∀ op ∈ (visit cb ents (eager trace)).trace, P op) :
    ∀ ent ∈ ents, Q ent := by
  induction ents generalizing trace with
  | nil => exact fun _ => nofun
  | cons ent ents ih =>
    have hmono (l : List Str) (s : Io) : s.trace ⊆ (visit cb l s).trace := by
      induction l generalizing s with
      | nil => exact List.Subset.refl _
      | cons e l ih =>
        rw [visit]
        split_ifs
        · exact hgrow e s
        · exact List.Subset.trans (hgrow e s) (ih _)
    have hfirst : ∀ op ∈ (cb ent (eager trace)).2.trace, P op := by
      intro op hop
      refine h op ?_
      rw [visit]
      split_ifs
      · exact hop
      · exact hmono ents _ hop
    obtain ⟨hent, trace', heq⟩ := hcb ent trace hfirst
    rw [visit, heq, if_neg nofun] at h
    rintro e (_ | ⟨_, he⟩)
    · exact hent
    · exact ih trace' h e he

/-! ### Callbacks -/

theorem prompt_trace (asked : Bool) (s : Io) : (prompt asked s).2.trace = s.trace := by
  rw [prompt]
  split_ifs <;> rfl

theorem mem_attempt_trace (op : Op) (s : Io) (x : Op) :
    x ∈ (s.attempt op).2.trace ↔ x ∈ s.trace ∨ x = op := by
  rw [Io.attempt, List.mem_append, List.mem_singleton]

theorem whenYes_trace {P : Op → Prop} {asked : Bool} {s : Io} {f : Io → Bool × Io}
    (hs : ∀ op ∈ s.trace, P op)
    (hf : ∀ s : Io, (∀ op ∈ s.trace, P op) → ∀ op ∈ (f s).2.trace, P op) :
    ∀ op ∈ (whenYes (prompt asked s) f).2.trace, P op := by
  have hasked : ∀ op ∈ (prompt asked s).2.trace, P op := by
    rw [prompt_trace]
    exact hs
  rw [whenYes]
  split
  · exact hasked
  · exact hasked
  · exact hf _ hasked

/-- Nothing that was done is forgotten. -/
theorem whenYes_subset {asked : Bool} {s : Io} {f : Io → Bool × Io}
    (hf : ∀ s, s.trace ⊆ (f s).2.trace) : s.trace ⊆ (whenYes (prompt asked s) f).2.trace := by
  have hasked : s.trace ⊆ (prompt asked s).2.trace := by
    rw [prompt_trace]
    exact List.Subset.refl _
  rw [whenYes]
  split
  · exact hasked
  · exact hasked
  · exact List.Subset.trans hasked (hf _)

theorem attempt_subset (op : Op) (s : Io) : s.trace ⊆ (s.attempt op).2.trace :=
  List.subset_append_left _ _

theorem attempt_trace {P : Op → Prop} {op : Op} {s : Io} (hs : ∀ x ∈ s.trace, P x) (hop : P op) :
    ∀ x ∈ (s.attempt op).2.trace, P x := fun x hx =>
  ((mem_attempt_trace op s x).mp hx).elim (hs x) fun h => h ▸ hop

/-- What a copy does, whatever the results and the answers are. -/
theorem shellhCpCopy_trace {P : Op → Prop} {flags : CpFlags} {ent psrcname pdestname : Str}
    (hread : P (.read ent psrcname)) (hcheck : P (.check ent pdestname))
    (hcreate : P (.create ent psrcname pdestname)) (s : Io) (hs : ∀ op ∈ s.trace, P op) :
    ∀ op ∈ (shellhCpCopy flags ent psrcname pdestname s).2.trace, P op := by
  have hfirst := attempt_trace hs hread
  rw [shellhCpCopy]
  simp only
  by_cases hok : (s.attempt (.read ent psrcname)).1 = true
  · rw [if_pos hok]
    refine whenYes_trace hfirst fun s hs => whenYes_trace ?_ fun s hs => attempt_trace hs hcreate
    split_ifs
    · exact hs
    · exact attempt_trace hs hcheck
  · rw [if_neg hok]
    exact hfirst

theorem shellhCpCopy_subset (flags : CpFlags) (ent psrcname pdestname : Str) (s : Io) :
    s.trace ⊆ (shellhCpCopy flags ent psrcname pdestname s).2.trace := by
  have hfirst := attempt_subset (.read ent psrcname) s
  rw [shellhCpCopy]
  simp only
  by_cases hok : (s.attempt (.read ent psrcname)).1 = true
  · rw [if_pos hok]
    refine List.Subset.trans hfirst (whenYes_subset fun s => ?_)
    have hchecked : s.trace ⊆ (if flags.overwrite then (false, s)
        else s.attempt (.check ent pdestname)).2.trace := by
      split_ifs
      · exact List.Subset.refl _
      · exact attempt_subset _ s
    exact List.Subset.trans hchecked (whenYes_subset fun s => attempt_subset _ s)
  · rw [if_neg hok]
    exact hfirst

/-- What it does if all goes well. -/
theorem shellhCpCopy_eager (flags : CpFlags) (ent psrcname pdestname : Str) (trace : List Op) :
    ∃ trace', shellhCpCopy flags ent psrcname pdestname (eager trace) = (false, eager trace') ∧
      .read ent psrcname ∈ trace' ∧ .create ent psrcname pdestname ∈ trace' := by
  rw [shellhCpCopy, attempt_eager]
  simp only [if_true, prompt_eager, whenYes]
  cases flags.overwrite with
  | true =>
    refine ⟨trace ++ [.read ent psrcname] ++ [.create ent psrcname pdestname], rfl, ?_, ?_⟩ <;> simp
  | false =>
    refine ⟨trace ++ [.read ent psrcname] ++ [.check ent pdestname] ++
      [.create ent psrcname pdestname], rfl, ?_, ?_⟩ <;> simp

/-- The name of a file in its buffer is the name if it fits. -/
theorem snprintfName_eq_iff (n : ℕ) (pattern ent : Str) :
    snprintfName n (devicePart pattern) ent = fullName pattern ent ↔
      (fullName pattern ent).length ≤ n :=
  List.take_eq_self_iff _

/-! ### `rm` -/

variable {ι : Type*} {fileOf : Str → ι} {dir : Str → Option (List Str)}

theorem safe_rm_iff (words : List Str) :
    (Command.rm words).Safe fileOf dir ↔ (Command.rm words).Short fileOf dir := by
  rw [Command.Safe, Command.Short]
  cases hargs : rmArgs words with
  | none => simp [Command.names, hargs]
  | some p =>
    obtain ⟨pattern, ask⟩ := p
    have hnames : (Command.rm words).names = some (rmNames pattern) := by
      rw [Command.names, hargs]
      rfl
    have hrun (s : Io) : (Command.rm words).run dir s =
        visit (shellRmIteratorCb ask (devicePart pattern)) (matching dir pattern) s := by
      rw [Command.run, shellRm, hargs]
      exact shellhPatternIterator_eq dir pattern _ s
    have hright (ent : Str) : Right fileOf (rmNames pattern) (.remove ent
        (snprintfName (dmMaxDevName + dmMaxFnameLength) (devicePart pattern) ent)) ↔
          (fullName pattern ent).length ≤ dmMaxDevName + dmMaxFnameLength :=
      snprintfName_eq_iff _ pattern ent
    constructor
    · rintro h _ _ ⟨⟩
      have heager := h _ hnames (fun _ => true) fun _ => keyY
      rw [hrun] at heager
      have hgrow (ent : Str) (s : Io) :
          s.trace ⊆ (shellRmIteratorCb ask (devicePart pattern) ent s).2.trace :=
        whenYes_subset fun s => attempt_subset _ s
      refine visit_eager hgrow (fun ent trace htrace => ?_) [] heager
      have hcb : shellRmIteratorCb ask (devicePart pattern) ent (eager trace) = (false, eager
          (trace ++ [.remove ent
            (snprintfName (dmMaxDevName + dmMaxFnameLength) (devicePart pattern) ent)])) := by
        simp only [shellRmIteratorCb, prompt_eager, whenYes, attempt_eager]
      rw [hcb] at htrace
      exact ⟨(hright ent).mp (htrace _ (List.mem_append_right _ List.mem_cons_self)), _, hcb⟩
    · intro h names hn opens keys
      rw [hnames] at hn
      cases hn
      rw [hrun]
      refine visit_trace (fun ent hent s hs => ?_) _ nofun
      exact whenYes_trace hs fun s hs =>
        attempt_trace hs ((hright ent).mpr (h pattern ask rfl ent hent))

/-! ### `cp` -/

variable {c : Cp}

/-- A copy into a name that fits, and one that does not. -/
theorem copyInto_of_lt {ent psrcname fname : Str}
    (h : (shellhCpMakefname c.pdest fname c.flags.backup).length < fulldestSize) (s : Io) :
    c.copyInto ent psrcname fname s = shellhCpCopy c.flags ent psrcname
      (shellhCpMakefname c.pdest fname c.flags.backup) s :=
  if_neg (Nat.not_lt.mpr h)

theorem copyInto_of_not_lt {ent psrcname fname : Str}
    (h : ¬ (shellhCpMakefname c.pdest fname c.flags.backup).length < fulldestSize) (s : Io) :
    c.copyInto ent psrcname fname s = (true, { s with trace := s.trace ++ [.overflow ent] }) :=
  if_pos (Nat.lt_succ_of_le (Nat.le_of_not_lt h))

/-- The name of the source that is opened. -/
def Cp.opened (c : Cp) (ent : Str) : Str :=
  if c.srcFile.isSome then c.psrc else snprintfName dmMaxFnameLength (devicePart c.psrc) ent

/-- The callback copies what it opens, if the name of the destination fits. -/
theorem shellCpIteratorCb_eq (c : Cp) (ent : Str) (s : Io) :
    c.shellCpIteratorCb (devicePart c.psrc) ent s =
      if (c.srcFile.isSome && c.destFile) = true ∨ (c.names.dest ent).length < fulldestSize then
        shellhCpCopy c.flags ent (c.opened ent) (c.names.dest ent) s
      else (true, { s with trace := s.trace ++ [.overflow ent] }) := by
  rw [Cp.shellCpIteratorCb, Cp.names, Cp.opened]
  cases hsrc : c.srcFile with
  | none =>
    simp only [Option.isSome_none, Bool.false_and, Bool.false_eq_true, if_false, false_or,
      Option.getD_none]
    split_ifs with hlt
    · exact copyInto_of_lt hlt s
    · exact copyInto_of_not_lt hlt s
  | some psrcname =>
    cases hdest : c.destFile with
    | true => simp
    | false =>
      simp only [Option.isSome_some, Bool.true_and, Bool.false_eq_true, if_false, if_true, false_or,
        Option.getD_some]
      split_ifs with hlt
      · exact copyInto_of_lt hlt s
      · exact copyInto_of_not_lt hlt s

theorem opened_eq_iff (c : Cp) (ent : Str) :
    c.opened ent = c.names.source ent ↔
      (c.srcFile = none → (fullName c.psrc ent).length ≤ dmMaxFnameLength) := by
  rw [Cp.opened, Cp.names]
  cases c.srcFile with
  | none => simpa using snprintfName_eq_iff dmMaxFnameLength c.psrc ent
  | some psrcname => simp

/-- What the entries of the directory are right for. -/
theorem short_of_right {trace : List Op} {ent : Str}
    (h : ∀ op ∈ (c.shellCpIteratorCb (devicePart c.psrc) ent (eager trace)).2.trace,
      Right fileOf c.names op) :
    c.Short fileOf ent ∧ ∃ trace', c.shellCpIteratorCb (devicePart c.psrc) ent (eager trace) =
      (false, eager trace') := by
  rw [shellCpIteratorCb_eq] at h ⊢
  split_ifs at h ⊢ with hfits
  · obtain ⟨trace', hcopy, hread, hcreate⟩ :=
      shellhCpCopy_eager c.flags ent (c.opened ent) (c.names.dest ent) trace
    rw [hcopy] at h ⊢
    have hsource : c.opened ent = c.names.source ent := h _ hread
    have hapart : c.names.dest ent = c.names.dest ent ∧
      fileOf (c.names.dest ent) ≠ fileOf (c.opened ent) := h _ hcreate
    refine ⟨⟨(opened_eq_iff c ent).mp hsource, fun hdest => ?_, hsource ▸ hapart.2⟩, trace', rfl⟩
    exact hfits.resolve_left fun htrue => by rw [hdest] at htrue; cases htrue
  · exact absurd (h (.overflow ent) (List.mem_append_right _ List.mem_cons_self)) id

theorem right_of_short {ent : Str} (h : c.Short fileOf ent) (s : Io)
    (hs : ∀ op ∈ s.trace, Right fileOf c.names op) :
    ∀ op ∈ (c.shellCpIteratorCb (devicePart c.psrc) ent s).2.trace, Right fileOf c.names op := by
  have hsource := (opened_eq_iff c ent).mpr h.source
  have hfits : (c.srcFile.isSome && c.destFile) = true ∨
      (c.names.dest ent).length < fulldestSize := by
    cases hdest : c.srcFile.isSome && c.destFile with
    | true => exact Or.inl rfl
    | false => exact Or.inr (h.dest hdest)
  rw [shellCpIteratorCb_eq, if_pos hfits]
  exact shellhCpCopy_trace (P := Right fileOf c.names) hsource rfl ⟨rfl, hsource ▸ h.apart⟩ s hs

theorem safe_cp_iff (words : List Str) :
    (Command.cp words).Safe fileOf dir ↔ (Command.cp words).Short fileOf dir := by
  rw [Command.Safe, Command.Short]
  cases hargs : cpArgs words with
  | none => simp [Command.names, hargs]
  | some c =>
    have hnames : (Command.cp words).names = some c.names := by
      rw [Command.names, hargs]
      rfl
    -- the source is looked for first if it is a file
    have hrun (s : Io) : (Command.cp words).run dir s =
        let found := if c.srcFile.isSome then s.attempt (.look c.psrc) else (true, s)
        if found.1 && c.destOk then
          visit (c.shellCpIteratorCb (devicePart c.psrc)) (matching dir c.psrc) found.2
        else found.2 := by
      rw [Command.run, shellCp, hargs]
      simp only [shellhPatternIterator_eq]
    constructor
    · rintro h _ ⟨⟩ hok
      have heager := h _ hnames (fun _ => true) fun _ => keyY
      rw [hrun] at heager
      have hfound : ∃ trace, (if c.srcFile.isSome then
          Io.attempt (.look c.psrc) { opens := fun _ => true, keys := fun _ => keyY }
          else (true, { opens := fun _ => true, keys := fun _ => keyY })) =
            (true, eager trace) := by
        cases c.srcFile.isSome with
        | true => exact ⟨[.look c.psrc], rfl⟩
        | false => exact ⟨[], rfl⟩
      obtain ⟨trace, hfound⟩ := hfound
      simp only [hfound, hok, Bool.and_self, if_true] at heager
      refine visit_eager (fun ent s => ?_) (fun ent trace => short_of_right) trace heager
      rw [shellCpIteratorCb_eq]
      split_ifs
      · exact shellhCpCopy_subset _ _ _ _ s
      · exact List.subset_append_left _ _
    · intro h names hn opens keys
      rw [hnames] at hn
      cases hn
      rw [hrun]
      have hfound : ∀ op ∈ (if c.srcFile.isSome then
          Io.attempt (.look c.psrc) { opens := opens, keys := keys }
          else (true, { opens := opens, keys := keys })).2.trace, Right fileOf c.names op := by
        split_ifs
        · exact attempt_trace nofun rfl
        · nofun
      simp only
      by_cases hgo : ((if c.srcFile.isSome then
          Io.attempt (.look c.psrc) { opens := opens, keys := keys }
          else (true, { opens := opens, keys := keys })).1 && c.destOk) = true
      · rw [if_pos hgo]
        rw [Bool.and_eq_true] at hgo
        exact visit_trace (fun ent hent s hs => right_of_short (h c rfl hgo.2 ent hent) s hs) _ hfound
      · rw [if_neg hgo]
        exact hfound

/-- **The files of `cp` and `rm`.** Whatever the results and the keys are, a command does the right
thing if and only if the names for all matching entries fit and no file is copied onto itself. -/
theorem safe_iff_short {ι : Type*} (fileOf : Str → ι) (dir : Str → Option (List Str))
    (cmd : Command) : cmd.Safe fileOf dir ↔ cmd.Short fileOf dir := by
  cases cmd with
  | rm words => exact safe_rm_iff words
  | cp words => exact safe_cp_iff words

/-- The pattern `/mmc/*`, and a file with a name of 26 characters. -/
def longEntry : Str := List.replicate 26 0x61

/-- A long name is cut off where it is opened for a copy. -/
theorem not_safe_long_name :
    ¬ ∀ (fileOf : Str → Str) (dir : Str → Option (List Str)) (cmd : Command),
      cmd.Safe fileOf dir := by
  intro h
  have hsafe := h id (fun _ => some [longEntry])
    (.cp [[0x2F, 0x6D, 0x6D, 0x63, 0x2F, 0x2A], [0x2F, 0x72, 0x61, 0x6D]]) _ rfl
    (fun _ => true) fun _ => keyY
  exact absurd (hsafe (.read longEntry ([0x2F, 0x6D, 0x6D, 0x63, 0x2F] ++ List.replicate 25 0x61))
    (by decide)) (by simp only [Right]; decide)

end ELuaBrain.Shell
