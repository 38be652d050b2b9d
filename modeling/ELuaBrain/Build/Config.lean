import ELuaBrain.Build.Targets

/-!
# The configuration of a build

The commands and options of the builder of `utils/build.lua`, the names of the files that it makes,
and the text of a configuration. `_compare_config` compares that text with the one that is left in
the build directory, and leaves its own.

## Main definitions

* `Config`, `Invocation` : the configuration, and a run of the builder.
* `configToString` : the text.
* `compareConfig` : the comparison.
-/

namespace ELuaBrain.Build

/-- A command, or another text. -/
abbrev Text := List Char

/-! ### The text of a table -/

/-- A field of the builder: `nil`, `false` or a string. -/
inductive Field where
  | absent
  | no
  | text (s : Text)
  deriving DecidableEq

/-- A field that is a string if it is set. -/
def Field.ofOption : Option Text → Field
  | none => .absent
  | some s => .text s

/-- The character `'`. -/
def apostrophe : Char := Char.ofNat 0x27

/-- The character `"`. -/
def quotation : Char := Char.ofNat 0x22

/-- The character `\`. -/
def backslash : Char := Char.ofNat 0x5C

/-- The end of a line becomes `\n` in two characters. -/
def escapeNewline (v : Text) : Text :=
  v.flatMap fun c => if c = Char.ofNat 0x0A then [backslash, 'n'] else [c]

/-- A string in `table.val_to_str`. -/
def quoted (v : Text) : Text :=
  let v := escapeNewline v
  let quotes := v.filter fun c => c = apostrophe || c = quotation
  if quotes ≠ [] ∧ quotes.all (· = quotation) then apostrophe :: v ++ [apostrophe]
  else
    quotation :: (v.flatMap fun c => if c = quotation then [backslash, c] else [c]) ++ [quotation]

/-- `table.val_to_str`. -/
def valToStr : Field → Text
  | .absent => "nil".toList
  | .no => "false".toList
  | .text s => quoted s

/-- A name that `table.key_to_str` does not put into brackets. -/
def isIdent : Text → Bool
  | [] => false
  | c :: cs => (c = '_' || c.isAlpha) && cs.all fun d => d = '_' || d.isAlphanum

/-- `table.key_to_str`. -/
def keyToStr (k : Text) : Text := if isIdent k then k else '[' :: quoted k ++ [']']

/-- The machine that the builder runs on. -/
structure Host where
  buildDir : Name
  windows : Bool
  /-- The order in which `pairs` gives the entries of a table. -/
  pairs : List (Text × Field) → List (Text × Field)

/-- `table.tostring` of a table whose keys are strings. -/
def Host.tostring (h : Host) (tbl : List (Text × Field)) : Text :=
  '{' :: List.intercalate [','] ((h.pairs (tbl.filter (·.2 ≠ .absent))).map fun e =>
    keyToStr e.1 ++ '=' :: valToStr e.2) ++ ['}']

/-! ### Configurations -/

/-- The fields of the builder that are part of its state. -/
structure Config where
  compCmd : Text
  asmCmd : Option Text := none
  cDepCmd : Field := .absent
  asmDepCmd : Field := .absent
  objExtension : Option Text := none
  linkCmd : Text
  deriving DecidableEq

/-- The components whose configuration is compared. -/
inductive Component where
  | comp
  | link
  deriving DecidableEq

/-- The `state_fields` of a component. -/
def Config.stateFields (c : Config) : Component → List (Text × Field)
  | .comp => [("comp_cmd".toList, .text c.compCmd), ("_asm_cmd".toList, .ofOption c.asmCmd),
      ("c_dep_cmd".toList, c.cDepCmd), ("asm_dep_cmd".toList, c.asmDepCmd),
      ("obj_extension".toList, .ofOption c.objExtension)]
  | .link => [("link_cmd".toList, .text c.linkCmd)]

/-- `_config_to_string`. -/
def configToString (h : Host) (c : Config) (what : Component) : Text :=
  h.tostring (c.stateFields what)

/-- `string.lower`. -/
def lower (s : Text) : Text := s.map Char.toLower

/-- The texts of two configurations are the same to `_compare_config`. -/
def sameState (old crt : Text) : Bool := lower old = lower crt

/-- `_compare_config`, where `old` is the text that is found. If there is a directory, a text is
left in it. -/
def compareConfig (h : Host) (c : Config) (what : Component) (cleanMode isDir : Bool)
    (old : Option Text) : Bool × Option Text :=
  let crt := configToString h c what
  (!cleanMode && old.any fun old => !sameState old crt, if isDir then some crt else old)

/-! ### Runs of the builder -/

/-- Where the object files are. -/
inductive BuildMode where
  | keepDir
  | buildDir
  | buildDirLinearized
  deriving DecidableEq

/-- What the command of a target does: it makes the target, or it fails and leaves the file as it
was, or removes it, or has written it nevertheless. -/
inductive Outcome where
  | success
  | untouched
  | removed
  | written
  deriving DecidableEq

/-- A run of a script that makes an executable with the builder. -/
structure Invocation where
  config : Config
  /-- `file_list`. -/
  files : List Name
  /-- `target` of `make_exe_target`. -/
  output : Name
  exeExtension : Text := []
  buildMode : BuildMode := .buildDirLinearized
  cleanMode : Bool := false
  /-- The target on the command line. -/
  targetname : Option Name := none
  /-- `set_output_dir` was called before the targets were made. -/
  outputDir : Bool := true
  /-- The files that are not made by the builder. -/
  sources : Files
  /-- The times of the files that are made, one after the other. -/
  stamp : ℕ → ℕ
  /-- What the dependency file of a source lists behind the source, after so many commands. -/
  listed : ℕ → Name → List Name
  outcome : Name → Outcome
  /-- `os.remove` removes a file. -/
  removes : Name → Bool

/-- `linearize_fname`. -/
def linearizeFname (s : Name) : Name :=
  s.flatMap fun c => if c = '/' ∨ c = backslash then ['_', '_'] else [c]

/-- `replace_extension`. -/
def replaceExtension (s newext : Name) : Name :=
  match s.reverse.dropWhile (· ≠ '.') with
  | [] => s
  | _ :: p => p.reverse ++ '.' :: newext

/-- The part behind the last slash, if there is something before it. -/
def fname (s : Name) : Name :=
  match s.reverse.dropWhile (· ≠ '/') with
  | _ :: _ :: _ => (s.reverse.takeWhile (· ≠ '/')).reverse
  | _ => s

/-- `dir_sep`. -/
def Host.dirSep (h : Host) : Char := if h.windows then backslash else '/'

/-- A file in the build directory. -/
def Host.inBuildDir (h : Host) (s : Name) : Name := h.buildDir ++ h.dirSep :: s

/-- `get_dep_filename`. -/
def Host.depFilename (h : Host) (srcname : Name) : Name :=
  replaceExtension (h.inBuildDir (linearizeFname srcname)) ['d']

/-- `obj_name`. -/
def Host.objName (h : Host) (r : Invocation) (name : Name) : Name :=
  let ext := r.config.objExtension.getD (if h.windows then "obj".toList else ['o'])
  let objname := replaceExtension name ext
  match r.buildMode with
  | .keepDir => objname
  | .buildDirLinearized => h.inBuildDir (linearizeFname objname)
  | .buildDir => h.inBuildDir (fname objname)

/-- The name of the target in `link_target`. -/
def Invocation.exeName (r : Invocation) : Name :=
  if '.' ∈ r.output then r.output else r.output ++ r.exeExtension

/-- A source is no C file. -/
def isasm (f : Name) : Bool := !(['.', 'c'].isSuffixOf f)

/-- There is no dependency target for a source. -/
def Config.skip (c : Config) (f : Name) : Bool :=
  if isasm f then c.asmDepCmd = .no else c.cDepCmd = .no

/-- The command that makes the object file of a source. -/
def Config.command (c : Config) (f : Name) : Option Text :=
  if isasm f then c.asmCmd else some c.compCmd

end ELuaBrain.Build
