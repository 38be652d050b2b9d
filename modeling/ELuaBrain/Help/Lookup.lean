import Mathlib.Data.List.Pairwise
import ELuaBrain.Help.File
import ELuaBrain.Device.Manager

/-!
# Looking up a topic in the help

`help_help` of `help.c`. A function is looked up in the modules whose names are the parts of the
topic before its dots.

## Main definitions

* `helpHelp` : the code.
* `Documents` : the text of a topic.
* `Askable` : the topics that are looked up as functions.

## Main results

* `lookupFrom_finds` : the loop over the dots.
* `help_roundtrip` : the reader has the documentation that was written, and finds the texts of the
  topics that can be asked for.
* `help_roundtrip_fails` : what is not found, or not read back.
-/

namespace ELuaBrain.Help

open Device (toLower sameName startsWithName)

/-! ### The code -/

/-- The character `'*'`. -/
def star : UInt8 := 0x2A

/-- The character `'.'`. -/
def dot : UInt8 := 0x2E

/-- A text in the colour `HLRED`, with `HRESET` behind it. -/
def red (text : List UInt8) : List UInt8 := 0x8C :: text ++ [0xFF]

/-- What is printed for a topic. -/
inductive Answer where
  | modules (entries : List (List UInt8 × List UInt8))
  | texts (name desc : List UInt8) (texts : List (List UInt8))
  | functions (name desc : List UInt8) (names : List (List UInt8))
  | text (text : List UInt8)
  | message (text : List UInt8)
  deriving DecidableEq

/-- The loop of `helph_module_name_to_idx`, where `left` modules are left. -/
def idxFrom (little : Bool) (h : Session) (pname : List UInt8) : ℕ → ℕ → Option (Option ℕ)
  | 0, _ => some none
  | left + 1, i => do
      let pm ← ← helphGetModtableData little h i
      if sameName pm.name pname then some (some i) else idxFrom little h pname left (i + 1)

/-- `helph_module_name_to_idx`. -/
def helphModuleNameToIdx (little : Bool) (h : Session) (pname : List UInt8) : Option (Option ℕ) :=
  idxFrom little h pname h.helpNumModules 0

/-- `help_load_module_name`. -/
def helpLoadModuleName (little : Bool) (malloc : ℕ → Bool) (h : Session) (name : List UInt8) :
    Option (Option ModData) := do
  match ← helphModuleNameToIdx little h name with
  | none => some none
  | some idx => helphLoadModule little malloc h idx

/-- `helph_find_function_in_module`. -/
def helphFindFunctionInModule (pname : List UInt8) :
    List (List UInt8) → Option (Option (List UInt8))
  | [] => some none
  | p :: pfuncs => do
      let (name, _) ← cstr p
      if sameName name pname then some (some p) else helphFindFunctionInModule pname pfuncs

/-- The name and the text of a function at a pointer. -/
def funcAt (p : List UInt8) : Option Func := do
  let (name, p) ← cstr p
  let (text, _) ← cstr p
  some ⟨name, text⟩

/-- The message for a module that does not exist. -/
def notFound (topic : List UInt8) : Answer :=
  .message (red (chars "Module '" ++ topic ++ chars "' not found\n"))

/-- The loop over the dots of a topic, which has `done` before the part that is left. -/
def lookupFrom (little : Bool) (malloc : ℕ → Bool) (h : Session) (topic : List UInt8) :
    List UInt8 → List UInt8 → Option Answer
  | _, [] =>
      some (.message (red (chars "Unable to find module or function '" ++ topic ++ chars "'\n")))
  | done, c :: rest => do
      if c ≠ dot then lookupFrom little malloc h topic (done ++ [c]) rest
      else if malloc (done.length + 1) = false then
        some (.message (red (chars "Not enough memory\n")))
      else
        match ← helpLoadModuleName little malloc h done with
        | none => lookupFrom little malloc h topic (done ++ [c]) rest
        | some pm =>
            match ← helphFindFunctionInModule topic pm.pfuncs with
            | none => lookupFrom little malloc h topic (done ++ [c]) rest
            | some p => (funcAt p).map fun f => .text f.desc

/-- `help_help`. -/
def helpHelp (little : Bool) (malloc : ℕ → Bool) (h : Session) (topic : List UInt8) :
    Option Answer := do
  if topic = [] then
    let entries ← (List.range h.helpNumModules).mapM fun i => do
      let pm ← ← helphGetModtableData little h i
      some (pm.name, pm.overview)
    some (.modules entries)
  else if topic.head? = some star then
    match ← helpLoadModuleName little malloc h (topic.drop 1) with
    | none => some (notFound (topic.drop 1))
    | some pm =>
        let funcs ← pm.pfuncs.mapM funcAt
        some (.texts pm.name pm.desc (funcs.map Func.desc))
  else
    match ← helphModuleNameToIdx little h topic with
    | some _ =>
        match ← helpLoadModuleName little malloc h topic with
        | none => some (notFound topic)
        | some pm =>
            let funcs ← pm.pfuncs.mapM funcAt
            some (.functions pm.name pm.desc (funcs.map Func.name))
    | none =>
        match topic.findIdx? (· = dot) with
        | none => some (notFound topic)
        | some pdot =>
            if pdot = 0 ∨ pdot = topic.length - 1 then
              some (.message (red (chars "Invalid help syntax\n")))
            else lookupFrom little malloc h topic [] topic

/-! ### The texts of topics -/

/-- Names that are different, in upper and lower case. -/
structure Unique (data : List Module) : Prop where
  modules : data.Pairwise fun d e => sameName d.name e.name = false
  funcs : (data.flatMap Module.funcs).Pairwise fun f g => sameName f.name g.name = false

/-- A text is that of a function with the name of the topic. The name starts with that of the module
and a dot. -/
def Documents (data : List Module) (topic text : List UInt8) : Prop :=
  ∃ d ∈ data, ∃ f ∈ d.funcs, sameName f.name topic = true ∧
    startsWithName f.name (d.name ++ [dot]) = true ∧ f.desc = text

/-- A topic that is looked up as a function: it does not start with a star, and its first dot is
neither the first character nor the last one. -/
def Askable (topic : List UInt8) : Prop :=
  topic.head? ≠ some star ∧ topic.head? ≠ some dot ∧
    topic.findIdx? (· = dot) ≠ some (topic.length - 1)

instance decidableAskable (topic : List UInt8) : Decidable (Askable topic) :=
  inferInstanceAs (Decidable (_ ∧ _ ∧ _))

/-- A function with the name of the topic is in a module with the name `pre`. -/
def FoundIn (data : List Module) (topic pre text : List UInt8) : Prop :=
  ∃ d ∈ data, sameName d.name pre = true ∧
    ∃ f ∈ d.funcs, sameName f.name topic = true ∧ f.desc = text

/-- An answer is a text that is there, or something else if there is no text. -/
def Finds (found : List UInt8 → Prop) : Option Answer → Prop
  | none => False
  | some (.text text) => found text
  | some _ => ∀ text, ¬found text

section Names

variable {a b c : List UInt8}

theorem sameName_symm (h : sameName a b = true) : sameName b a = true :=
  beq_iff_eq.mpr (beq_iff_eq.mp h).symm

theorem sameName_trans (h : sameName a b = true) (h' : sameName b c = true) : sameName a c = true :=
  beq_iff_eq.mpr ((beq_iff_eq.mp h).trans (beq_iff_eq.mp h'))

theorem toLower_eq_dot {x : UInt8} (h : toLower x = dot) : x = dot := by
  rw [toLower] at h
  split at h
  · rename_i hupper
    have hbyte := x.toNat_lt
    rw [UInt8.le_iff_toNat_le, UInt8.le_iff_toNat_le] at hupper
    rw [dot, ← UInt8.toNat_inj, UInt8.toNat_add] at h
    simp only [UInt8.reduceToNat] at *
    omega
  · exact h

end Names

section Reading

variable {little : Bool} {malloc : ℕ → Bool} {h : Session} {data : List Module} {d : Module}
  {funcs : List Func} {f : Func} {p name topic pre post text : List UInt8}
  {pfuncs : List (List UInt8)}

theorem funcAt_eq (hp : Points p f) (hnul : 0 ∉ f.name ∧ 0 ∉ f.desc) : funcAt p = some f := by
  obtain ⟨rest, rfl⟩ := hp
  rw [funcAt, generateFunc]
  simp only [List.append_assoc, cstr_encstr _ hnul.1, cstr_encstr _ hnul.2, Option.bind_eq_bind,
    Option.bind_some]

theorem cstr_points (hp : Points p f) (hnul : 0 ∉ f.name) :
    ∃ rest, cstr p = some (f.name, rest) := by
  obtain ⟨rest, rfl⟩ := hp
  rw [generateFunc, List.append_assoc]
  exact ⟨_, cstr_encstr _ hnul⟩

theorem idxFrom_eq (hnul : ∀ d ∈ data, d.NulFree) (hh : Describes little h data) (left i : ℕ)
    (hi : i + left = data.length) : idxFrom little h name left i =
      some (((data.drop i).findIdx? fun d => sameName d.name name).map (· + i)) := by
  induction left generalizing i with
  | zero =>
    rw [List.drop_of_length_le (by omega)]
    rfl
  | succ left ih =>
    obtain ⟨d, hd⟩ : ∃ d, data[i]? = some d := ⟨_, List.getElem?_eq_getElem (by omega)⟩
    rw [idxFrom, helphGetModtableData_eq hnul hh hd, drop_of_getElem? hd, List.findIdx?_cons]
    simp only [Option.bind_eq_bind, Option.bind_some]
    split
    · simp
    · rw [ih (i + 1) (by omega)]
      simp [Option.map_map, Function.comp_def, Nat.add_assoc, Nat.add_comm 1]

theorem helphModuleNameToIdx_eq (hnul : ∀ d ∈ data, d.NulFree) (hh : Describes little h data) :
    helphModuleNameToIdx little h name =
      some (data.findIdx? fun d => sameName d.name name) := by
  rw [helphModuleNameToIdx, idxFrom_eq hnul hh _ 0 (by rw [hh.num, Nat.zero_add])]
  simp

/-- A module is loaded by its name if there is one. -/
theorem helpLoadModuleName_cases (name : List UInt8) (hmalloc : ∀ n, malloc n = true)
    (hfits : Fits little data) (hh : Describes little h data) :
    (∃ d ∈ data, sameName d.name name = true ∧
        ∃ md, helpLoadModuleName little malloc h name = some (some md) ∧ Loaded md d) ∨
      (∀ d ∈ data, sameName d.name name = false) ∧
        helpLoadModuleName little malloc h name = some none := by
  rw [helpLoadModuleName, helphModuleNameToIdx_eq hfits.nulFree hh]
  simp only [Option.bind_eq_bind, Option.bind_some]
  cases hfind : data.findIdx? fun d => sameName d.name name with
  | none => exact .inr ⟨List.findIdx?_eq_none_iff.mp hfind, rfl⟩
  | some i =>
    obtain ⟨hlt, hname, -⟩ := List.findIdx?_eq_some_iff_getElem.mp hfind
    obtain ⟨md, hload, hloaded⟩ :=
      helphLoadModule_eq hmalloc hfits hh (List.getElem?_eq_getElem hlt)
    exact .inl ⟨_, List.getElem_mem hlt, hname, md, hload, hloaded⟩

/-- A function is found in a module if there is one with the name. -/
theorem helphFindFunctionInModule_cases (name : List UInt8)
    (hpoints : List.Forall₂ Points pfuncs funcs) (hnul : ∀ f ∈ funcs, 0 ∉ f.name ∧ 0 ∉ f.desc) :
    (∃ f ∈ funcs, sameName f.name name = true ∧
        ∃ p, helphFindFunctionInModule name pfuncs = some (some p) ∧ Points p f) ∨
      (∀ f ∈ funcs, sameName f.name name = false) ∧
        helphFindFunctionInModule name pfuncs = some none := by
  induction hpoints with
  | nil => exact .inr ⟨nofun, rfl⟩
  | @cons p f pfuncs funcs hp hrest ih =>
    obtain ⟨rest, hread⟩ := cstr_points hp (hnul f List.mem_cons_self).1
    rw [helphFindFunctionInModule, hread]
    simp only [Option.bind_eq_bind, Option.bind_some]
    by_cases hsame : sameName f.name name = true
    · rw [if_pos hsame]
      exact .inl ⟨f, List.mem_cons_self, hsame, p, rfl, hp⟩
    · rw [if_neg hsame]
      obtain ⟨g, hg, hgname, q, hfind, hq⟩ | ⟨hnone, hfind⟩ :=
        ih fun g hg => hnul g (List.mem_cons_of_mem _ hg)
      · exact .inl ⟨g, List.mem_cons_of_mem _ hg, hgname, q, hfind, hq⟩
      · exact .inr ⟨List.forall_mem_cons.mpr ⟨Bool.not_eq_true _ ▸ hsame, hnone⟩, hfind⟩

theorem Unique.module_eq {d e : Module} (hunique : Unique data) (hd : d ∈ data) (he : e ∈ data)
    (h : sameName d.name e.name = true) : d = e := by
  by_contra hne
  have : Std.Symm fun d e : Module => sameName d.name e.name = false := ⟨fun d e hde => by
    rw [Bool.eq_false_iff] at hde ⊢
    exact fun hed => hde (sameName_symm hed)⟩
  rw [hunique.modules.forall hd he hne] at h
  exact Bool.false_ne_true h

theorem Unique.func_eq {f g : Func} (hunique : Unique data) (hf : f ∈ data.flatMap Module.funcs)
    (hg : g ∈ data.flatMap Module.funcs) (h : sameName f.name g.name = true) : f = g := by
  by_contra hne
  have : Std.Symm fun f g : Func => sameName f.name g.name = false := ⟨fun f g hfg => by
    rw [Bool.eq_false_iff] at hfg ⊢
    exact fun hgf => hfg (sameName_symm hgf)⟩
  rw [hunique.funcs.forall hf hg hne] at h
  exact Bool.false_ne_true h

/-- What a round of the loop does at a dot. -/
theorem lookup_cases (topic done : List UInt8) (hmalloc : ∀ n, malloc n = true)
    (hfits : Fits little data) (hunique : Unique data) (hh : Describes little h data) :
    (∃ text, FoundIn data topic done text ∧ ∀ rest,
        lookupFrom little malloc h topic done (dot :: rest) = some (.text text)) ∨
      (∀ text, ¬FoundIn data topic done text) ∧ ∀ rest,
        lookupFrom little malloc h topic done (dot :: rest) =
          lookupFrom little malloc h topic (done ++ [dot]) rest := by
  have hmem : malloc (done.length + 1) ≠ false := by
    rw [hmalloc]
    decide
  obtain ⟨d, hd, hname, md, hload, hloaded⟩ | ⟨hnone, hload⟩ :=
    helpLoadModuleName_cases done hmalloc hfits hh
  · have hnul := (hfits.nulFree d hd).funcs
    obtain ⟨f, hf, hfname, p, hfind, hp⟩ | ⟨hnofunc, hfind⟩ :=
      helphFindFunctionInModule_cases topic hloaded.pfuncs hnul
    · refine .inl ⟨f.desc, ⟨d, hd, hname, f, hf, hfname, rfl⟩, fun rest => ?_⟩
      rw [lookupFrom, if_neg (not_not.mpr rfl), if_neg hmem, hload]
      simp only [Option.bind_eq_bind, Option.bind_some, hfind, funcAt_eq hp (hnul f hf),
        Option.map_some]
    · refine .inr ⟨fun text hfound => ?_, fun rest => ?_⟩
      · obtain ⟨e, he, hename, f, hf, hfname, -⟩ := hfound
        obtain rfl := hunique.module_eq hd he (sameName_trans hname (sameName_symm hename))
        rw [hnofunc f hf] at hfname
        exact Bool.false_ne_true hfname
      · rw [lookupFrom, if_neg (not_not.mpr rfl), if_neg hmem, hload]
        simp only [Option.bind_eq_bind, Option.bind_some, hfind]
  · refine .inr ⟨fun text hfound => ?_, fun rest => ?_⟩
    · obtain ⟨e, he, hename, -⟩ := hfound
      rw [hnone e he] at hename
      exact Bool.false_ne_true hename
    · rw [lookupFrom, if_neg (not_not.mpr rfl), if_neg hmem, hload]
      rfl

/-- A round that goes on leaves what the loop finds to the rounds behind it. -/
theorem foundIn_cons {found : List UInt8 → Prop} {c : UInt8} {rest : List UInt8}
    (hnot : c = dot → ¬found []) : (∃ pre post, c :: rest = pre ++ dot :: post ∧ found pre) ↔
      ∃ pre post, rest = pre ++ dot :: post ∧ found (c :: pre) := by
  constructor
  · rintro ⟨pre, post, hsplit, hfound⟩
    obtain ⟨rfl, heq⟩ | ⟨pre, rfl, rfl⟩ := List.cons_eq_append_iff.mp hsplit
    · exact absurd hfound (hnot (List.cons.inj heq).1.symm)
    · exact ⟨pre, post, rfl, hfound⟩
  · rintro ⟨pre, post, rfl, hfound⟩
    exact ⟨c :: pre, post, rfl, hfound⟩

/-- The loop over the dots finds a text if a part before a dot is the name of a module with the
function. -/
theorem lookupFrom_finds (topic done rest : List UInt8) (hmalloc : ∀ n, malloc n = true)
    (hfits : Fits little data) (hunique : Unique data) (hh : Describes little h data) :
    Finds (fun text => ∃ pre post, rest = pre ++ dot :: post ∧
        FoundIn data topic (done ++ pre) text)
      (lookupFrom little malloc h topic done rest) := by
  induction rest generalizing done with
  | nil => exact fun text ⟨pre, post, hsplit, _⟩ => absurd hsplit (by simp)
  | cons c rest ih =>
    -- A round that goes on, because there is no dot or because nothing is found there.
    have hnext (hnot : c = dot → ∀ text, ¬FoundIn data topic done text)
        (heq : lookupFrom little malloc h topic done (c :: rest) =
          lookupFrom little malloc h topic (done ++ [c]) rest) :
        Finds (fun text => ∃ pre post, c :: rest = pre ++ dot :: post ∧
            FoundIn data topic (done ++ pre) text)
          (lookupFrom little malloc h topic done (c :: rest)) := by
      have hfound (text : List UInt8) :
          (∃ pre post, c :: rest = pre ++ dot :: post ∧ FoundIn data topic (done ++ pre) text) ↔
            ∃ pre post, rest = pre ++ dot :: post ∧
              FoundIn data topic (done ++ [c] ++ pre) text := by
        simp only [List.append_assoc, List.singleton_append]
        exact foundIn_cons fun hc => (List.append_nil done).symm ▸ hnot hc text
      simp only [hfound, heq]
      exact ih (done ++ [c])
    by_cases hc : c = dot
    · subst hc
      obtain ⟨text, hfound, hlook⟩ | ⟨hnot, hlook⟩ :=
        lookup_cases topic done hmalloc hfits hunique hh
      · rw [hlook]
        exact ⟨[], rest, rfl, (List.append_nil done).symm ▸ hfound⟩
      · exact hnext (fun _ => hnot) (hlook rest)
    · exact hnext (fun heq => absurd heq hc) (by rw [lookupFrom, if_pos hc])

/-- The text of a topic is in the module that is named by a part of it before a dot. -/
theorem documents_iff : Documents data topic text ↔
    ∃ pre post, topic = pre ++ dot :: post ∧ FoundIn data topic pre text := by
  constructor
  · rintro ⟨d, hd, f, hf, hname, hstart, rfl⟩
    have hlower : f.name.map toLower = topic.map toLower := beq_iff_eq.mp hname
    obtain ⟨tail, htail⟩ := List.isPrefixOf_iff_prefix.mp hstart
    rw [hlower, List.map_append, List.append_assoc] at htail
    obtain ⟨pre, rest, rfl, hpre, hrest⟩ := List.map_eq_append_iff.mp htail.symm
    obtain ⟨x, post, rfl, hx, -⟩ := List.map_eq_cons_iff.mp hrest
    obtain rfl := toLower_eq_dot hx
    exact ⟨pre, post, rfl, d, hd, beq_iff_eq.mpr hpre.symm, f, hf, hname, rfl⟩
  · rintro ⟨pre, post, rfl, d, hd, hpre, f, hf, hname, rfl⟩
    refine ⟨d, hd, f, hf, hname, List.isPrefixOf_iff_prefix.mpr ⟨post.map toLower, ?_⟩, rfl⟩
    rw [beq_iff_eq.mp hname, List.map_append, List.map_append, beq_iff_eq.mp hpre,
      List.append_assoc]
    rfl

theorem FoundIn.text_eq {pre' text' : List UInt8} (hunique : Unique data)
    (h : FoundIn data topic pre text) (h' : FoundIn data topic pre' text') : text = text' := by
  obtain ⟨d, hd, -, f, hf, hname, rfl⟩ := h
  obtain ⟨e, he, -, g, hg, hname', rfl⟩ := h'
  rw [hunique.func_eq (List.mem_flatMap.mpr ⟨d, hd, hf⟩) (List.mem_flatMap.mpr ⟨e, he, hg⟩)
    (sameName_trans hname (sameName_symm hname'))]

/-- The names and the texts of the functions that are loaded. -/
theorem mapM_funcAt (hpoints : List.Forall₂ Points pfuncs funcs)
    (hnul : ∀ f ∈ funcs, 0 ∉ f.name ∧ 0 ∉ f.desc) : pfuncs.mapM funcAt = some funcs := by
  induction hpoints with
  | nil => rfl
  | @cons p f pfuncs funcs hp hrest ih =>
    rw [List.mapM_cons, funcAt_eq hp (hnul f List.mem_cons_self),
      ih fun g hg => hnul g (List.mem_cons_of_mem _ hg)]
    rfl

/-- The list of all modules. -/
theorem mapM_entries (hfits : Fits little data) (hh : Describes little h data) (n : ℕ)
    (hn : n ≤ data.length) : ∃ entries, ((List.range n).mapM fun i => do
      let pm ← ← helphGetModtableData little h i
      some (pm.name, pm.overview)) = some entries := by
  induction n with
  | zero => exact ⟨[], rfl⟩
  | succ n ih =>
    obtain ⟨entries, heq⟩ := ih (Nat.le_of_succ_le hn)
    obtain ⟨d, hd⟩ : ∃ d, data[n]? = some d := ⟨_, List.getElem?_eq_getElem hn⟩
    rw [List.range_succ, List.mapM_append, heq]
    simp only [Option.bind_eq_bind, Option.bind_some, List.mapM_cons, List.mapM_nil,
      helphGetModtableData_eq hfits.nulFree hh hd]
    exact ⟨_, rfl⟩

/-- What is found for a topic that is neither a module nor has a star. -/
theorem helpHelp_function (hmalloc : ∀ n, malloc n = true) (hfits : Fits little data)
    (hunique : Unique data) (hh : Describes little h data) (hnil : topic ≠ [])
    (hstar : topic.head? ≠ some star) (hmodule : ∀ d ∈ data, sameName d.name topic = false) :
    Finds (fun text => Askable topic ∧ Documents data topic text)
      (helpHelp little malloc h topic) := by
  rw [helpHelp, if_neg hnil, if_neg hstar, helphModuleNameToIdx_eq hfits.nulFree hh,
    List.findIdx?_eq_none_iff.mpr hmodule]
  simp only [Option.bind_eq_bind, Option.bind_some]
  cases hdot : topic.findIdx? (· = dot) with
  | none =>
    rintro text ⟨-, hdoc⟩
    obtain ⟨pre, post, rfl, -⟩ := documents_iff.mp hdoc
    have hne := List.findIdx?_eq_none_iff.mp hdot dot (by simp)
    simp at hne
  | some pdot =>
    dsimp only
    split_ifs with hsyntax
    · rintro text ⟨⟨-, hfirst, hlast⟩, -⟩
      obtain rfl | rfl := hsyntax
      · obtain ⟨hlt, heq, -⟩ := List.findIdx?_eq_some_iff_getElem.mp hdot
        rw [List.head?_eq_getElem?, List.getElem?_eq_getElem hlt, of_decide_eq_true heq] at hfirst
        exact hfirst rfl
      · exact hlast hdot
    · obtain ⟨hzero, hlen⟩ := not_or.mp hsyntax
      have haskable : Askable topic := by
        refine ⟨hstar, fun hfirst => hzero ?_, fun hlast => hlen ?_⟩
        · obtain ⟨rest, rfl⟩ := List.head?_eq_some_iff.mp hfirst
          exact (Option.some.inj hdot).symm
        · exact Option.some.inj (hdot.symm.trans hlast)
      have hfinds := lookupFrom_finds topic [] topic hmalloc hfits hunique hh
      simp only [List.nil_append, ← documents_iff] at hfinds
      simpa only [eq_true haskable, true_and] using hfinds

/-- What is found for a topic. -/
theorem helpHelp_finds (topic : List UInt8) (hmalloc : ∀ n, malloc n = true)
    (hfits : Fits little data) (hunique : Unique data) (hh : Describes little h data) :
    Finds (fun text => (∀ d ∈ data, sameName d.name topic = false) ∧ Askable topic ∧
      Documents data topic text) (helpHelp little malloc h topic) := by
  by_cases hnil : topic = []
  · -- All modules are listed.
    obtain ⟨entries, heq⟩ := mapM_entries hfits hh _ hh.num.le
    rw [helpHelp, if_pos hnil, heq]
    rintro text ⟨-, -, hdoc⟩
    obtain ⟨pre, post, hsplit, -⟩ := documents_iff.mp hdoc
    simp [hnil] at hsplit
  by_cases hstar : topic.head? = some star
  · -- A module with the texts of its functions.
    have hnot : ∀ text, ¬((∀ d ∈ data, sameName d.name topic = false) ∧ Askable topic ∧
      Documents data topic text) := fun text hfound => hfound.2.1.1 hstar
    rw [helpHelp, if_neg hnil, if_pos hstar]
    obtain ⟨d, hd, -, md, hload, hloaded⟩ | ⟨-, hload⟩ :=
      helpLoadModuleName_cases (topic.drop 1) hmalloc hfits hh
    · simp only [hload, Option.bind_eq_bind, Option.bind_some,
        mapM_funcAt hloaded.pfuncs (hfits.nulFree d hd).funcs]
      exact hnot
    · simp only [hload, Option.bind_eq_bind, Option.bind_some]
      exact hnot
  by_cases hmodule : ∀ d ∈ data, sameName d.name topic = false
  · have hfinds := helpHelp_function hmalloc hfits hunique hh hnil hstar hmodule
    simpa only [eq_true hmodule, true_and] using hfinds
  · -- A module with the names of its functions.
    have hnot : ∀ text, ¬((∀ d ∈ data, sameName d.name topic = false) ∧ Askable topic ∧
      Documents data topic text) := fun text hfound => hmodule hfound.1
    obtain ⟨i, hidx⟩ : ∃ i, (data.findIdx? fun d => sameName d.name topic) = some i := by
      rw [← Option.ne_none_iff_exists']
      exact fun hidx => hmodule (List.findIdx?_eq_none_iff.mp hidx)
    rw [helpHelp, if_neg hnil, if_neg hstar, helphModuleNameToIdx_eq hfits.nulFree hh, hidx]
    obtain ⟨d, hd, -, md, hload, hloaded⟩ | ⟨hnone, -⟩ :=
      helpLoadModuleName_cases topic hmalloc hfits hh
    · simp only [hload, Option.bind_eq_bind, Option.bind_some,
        mapM_funcAt hloaded.pfuncs (hfits.nulFree d hd).funcs]
      exact hnot
    · exact absurd hnone hmodule

/-- **The reader has the documentation that was written**, and it finds the text of every topic that
can be asked for. -/
theorem help_roundtrip (little rom : Bool) (malloc : ℕ → Bool) (data : List Module)
    (hmalloc : ∀ n, malloc n = true) (hfits : Fits little data) (hunique : Unique data) :
    ∃ h, helpInit little rom malloc (generateTarget little data) = some (some h) ∧
      h.helpNumModules = data.length ∧
      (∀ i d, data[i]? = some d → ∃ md, helphLoadModule little malloc h i = some (some md) ∧
        md.name = d.name ∧ md.desc = d.desc ∧ md.pfuncs.mapM funcAt = some d.funcs) ∧
      ∀ topic, ∃ answer, helpHelp little malloc h topic = some answer ∧
        ∀ text, answer = .text text ↔ (∀ d ∈ data, sameName d.name topic = false) ∧
          Askable topic ∧ Documents data topic text := by
  have hlen := hfits.size
  rw [length_generateTarget] at hlen
  obtain ⟨h, hinit, hh⟩ := helpInit_generateTarget little rom hmalloc hfits.nulFree (by omega)
  refine ⟨h, hinit, hh.num, fun i d hi => ?_, fun topic => ?_⟩
  · obtain ⟨md, hload, hloaded⟩ := helphLoadModule_eq hmalloc hfits hh hi
    exact ⟨md, hload, hloaded.name, hloaded.desc,
      mapM_funcAt hloaded.pfuncs (hfits.nulFree d (List.mem_of_getElem? hi)).funcs⟩
  · have hfinds := helpHelp_finds topic hmalloc hfits hunique hh
    cases hanswer : helpHelp little malloc h topic with
    | none =>
      rw [hanswer] at hfinds
      exact hfinds.elim
    | some answer =>
      rw [hanswer] at hfinds
      refine ⟨answer, rfl, fun text => ⟨?_, fun hfound => ?_⟩⟩
      · rintro rfl
        exact hfinds
      · cases answer with
        | text text' =>
          obtain ⟨-, -, hdoc⟩ := hfinds
          obtain ⟨_, _, _, hfound'⟩ := documents_iff.mp hdoc
          obtain ⟨_, _, _, hfound⟩ := documents_iff.mp hfound.2.2
          rw [hfound'.text_eq hunique hfound]
        | modules | texts | functions | message => exact absurd hfound (hfinds text)

end Reading

/-! ### Documentation -/

instance decidableNulFree (d : Module) : Decidable d.NulFree :=
  decidable_of_iff (0 ∉ d.name ∧ 0 ∉ d.desc ∧ 0 ∉ d.overview ∧
      ∀ f ∈ d.funcs, 0 ∉ f.name ∧ 0 ∉ f.desc)
    ⟨fun ⟨name, desc, overview, funcs⟩ => ⟨name, desc, overview, funcs⟩,
      fun h => ⟨h.name, h.desc, h.overview, h.funcs⟩⟩

/-- Two modules, one without functions. -/
def sample : List Module :=
  [⟨chars "cpu", chars "Read registers.", chars "CPU access", []⟩,
    ⟨chars "net.tcp", chars "", chars "", [⟨chars "net.tcp.open", chars "Open a connection."⟩]⟩]

theorem help_roundtrip_sample :
    ∃ h, helpInit true false (fun _ => true) (generateTarget true sample) = some (some h) ∧
      ∃ answer, helpHelp true (fun _ => true) h (chars "NET.tcp.open") = some answer ∧
        answer = .text (chars "Open a connection.") := by
  have hfits : Fits true sample := ⟨by decide +kernel, by decide +kernel, by decide +kernel⟩
  have hunique : Unique sample := ⟨by decide +kernel, by decide +kernel⟩
  obtain ⟨h, hinit, -, -, hhelp⟩ :=
    help_roundtrip true false (fun _ => true) sample (fun _ => rfl) hfits hunique
  obtain ⟨answer, heq, htext⟩ := hhelp (chars "NET.tcp.open")
  exact ⟨h, hinit, answer, heq, (htext _).mpr ⟨by decide +kernel, by decide +kernel,
    _, .tail _ (.head _), _, .head _, by decide +kernel, by decide +kernel, rfl⟩⟩

/-- A module with a function that has the name of the module and a dot. -/
def dotted : List Module := [⟨chars "m", [], [], [⟨chars "m.", chars "text"⟩]⟩]

/-- A module whose name starts with a star. -/
def starred : List Module := [⟨chars "*m", [], [], [⟨chars "*m.f", chars "text"⟩]⟩]

/-- A module of 65535 bytes. -/
def longModule (i : ℕ) : Module where
  name := [UInt8.ofNat (128 + i / 4096 % 64), UInt8.ofNat (128 + i / 64 % 64),
    UInt8.ofNat (128 + i % 64)]
  desc := List.replicate 65528 0x78
  overview := []
  funcs := []

/-- Modules of more than `2 ^ 32` bytes. -/
def long : List Module := (List.range 65539).map longModule

section Long

variable {little : Bool} {malloc : ℕ → Bool} {h : Session} {md : ModData} {i : ℕ}

theorem length_encModule_long (little : Bool) (i : ℕ) :
    (encModule little (longModule i)).length = 65535 := by
  rw [length_encModule, longModule]
  simp only [List.length_replicate, encFuncs, List.length_cons, List.length_nil]

theorem name_long_ne_nil (i : ℕ) : (longModule i).name ≠ [] := List.cons_ne_nil _ _

theorem nulFree_long (i : ℕ) : (longModule i).NulFree := by
  have hdigit (k : ℕ) (hk : k < 64) : (0 : UInt8) ≠ UInt8.ofNat (128 + k) := by
    rw [ne_eq, ← UInt8.toNat_inj, UInt8.toNat_ofNat', Nat.mod_eq_of_lt (by omega)]
    exact (Nat.add_pos_left (by decide) k).ne
  refine ⟨?_, ?_, nofun, nofun⟩
  · have hname : (longModule i).name = [UInt8.ofNat (128 + i / 4096 % 64),
      UInt8.ofNat (128 + i / 64 % 64), UInt8.ofNat (128 + i % 64)] := rfl
    simp only [hname, List.mem_cons, List.not_mem_nil, or_false, not_or]
    exact ⟨hdigit _ (Nat.mod_lt _ (by decide)), hdigit _ (Nat.mod_lt _ (by decide)),
      hdigit _ (Nat.mod_lt _ (by decide))⟩
  · exact fun h => absurd (List.eq_of_mem_replicate h) (by decide)

theorem forall_long {p : Module → Prop} (hp : ∀ i, p (longModule i)) : ∀ d ∈ long, p d :=
  List.forall_mem_map.mpr fun i _ => hp i

theorem sameName_long {i j : ℕ} (hj : j < 65539) (hij : i < j) :
    sameName (longModule i).name (longModule j).name = false := by
  have hdigit : ∀ k < 64, toLower (UInt8.ofNat (128 + k)) = UInt8.ofNat (128 + k) := by decide
  have hinj (k l : ℕ) (hk : k < 64) (hl : l < 64)
      (h : UInt8.ofNat (128 + k) = UInt8.ofNat (128 + l)) : k = l := by
    rw [← UInt8.toNat_inj, UInt8.toNat_ofNat', UInt8.toNat_ofNat', Nat.mod_eq_of_lt (by omega),
      Nat.mod_eq_of_lt (by omega)] at h
    exact Nat.add_left_cancel h
  rw [Bool.eq_false_iff]
  intro h
  have hlist := beq_iff_eq.mp h
  simp only [longModule, List.map_cons, List.map_nil, List.cons.injEq, and_true,
    hdigit _ (Nat.mod_lt _ (by decide : 64 > 0))] at hlist
  obtain ⟨hhigh, hmid, hlow⟩ := hlist
  have hhigh := hinj _ _ (Nat.mod_lt _ (by decide)) (Nat.mod_lt _ (by decide)) hhigh
  have hmid := hinj _ _ (Nat.mod_lt _ (by decide)) (Nat.mod_lt _ (by decide)) hmid
  have hlow := hinj _ _ (Nat.mod_lt _ (by decide)) (Nat.mod_lt _ (by decide)) hlow
  omega

theorem unique_long : Unique long := by
  refine ⟨List.pairwise_map.mpr ?_, ?_⟩
  · refine (List.pairwise_lt_range (n := 65539)).imp_of_mem fun _ hj hij => ?_
    exact sameName_long (List.mem_range.mp hj) hij
  · have hfuncs : long.flatMap Module.funcs = [] :=
      List.flatMap_eq_nil_iff.mpr (forall_long fun _ => rfl)
    rw [hfuncs]
    exact .nil

theorem length_encModules_long (little : Bool) (l : List ℕ) :
    (encModules little (l.map longModule)).length = l.length * 65535 := by
  induction l with
  | nil => exact (Nat.zero_mul _).symm
  | cons i l ih =>
    rw [List.map_cons, encModules_cons, List.length_append, length_encModule_long, ih,
      List.length_cons, Nat.succ_mul, Nat.add_comm]

theorem length_mtable_long (little : Bool) (total : ℕ) (l : List ℕ) :
    (mtable little total (l.map longModule)).length = l.length * 11 := by
  induction l generalizing total with
  | nil => exact (Nat.zero_mul _).symm
  | cons i l ih =>
    have hname : (longModule i).name.length = 3 := rfl
    have hoverview : (longModule i).overview.length = 0 := rfl
    rw [List.map_cons, length_mtable_cons, ih, hname, hoverview, List.length_cons, Nat.succ_mul,
      Nat.add_comm]
    rfl

/-- The end of a module without functions. -/
theorem drop_encModule_long (little : Bool) (i : ℕ) :
    (encModule little (longModule i)).drop 65534 = [0] := by
  have hcount : (longModule i).funcs.length = 0 := rfl
  have hzero : enc16 little (longModule i).funcs.length = [0] ++ [0] := by
    rw [hcount]
    cases little <;> decide
  have hfuncs : encFuncs little (longModule i).funcs = [] := rfl
  rw [encModule, hzero, hfuncs, List.append_nil, ← List.append_assoc]
  refine List.drop_left' ?_
  have hlen := length_encModule_long little i
  rw [encModule, hzero, hfuncs, List.append_nil, ← List.append_assoc, List.length_append] at hlen
  exact Nat.add_right_cancel hlen

/-- The name of a module that is read is the string at the pointer. -/
theorem readModule_name {p : List UInt8} (h : readModule little malloc p = some (some md)) :
    ∃ rest, cstr p = some (md.name, rest) := by
  rw [readModule] at h
  simp only [Option.bind_eq_bind, Option.bind_eq_some_iff] at h
  obtain ⟨⟨name, p₁⟩, hname, ⟨desc, p₂⟩, -, ⟨nfuncs, p₃⟩, -, h⟩ := h
  split_ifs at h
  · obtain ⟨pfuncs, -, h⟩ := Option.bind_eq_some_iff.mp h
    obtain rfl := Option.some.inj (Option.some.inj h)
    exact ⟨p₁, hname⟩
  · exact absurd h (by simp)

/-- A module that is loaded is read at the pointer of its entry. -/
theorem helphLoadModule_name {pm : ModtableData}
    (hpm : helphGetModtableData little h i = some (some pm))
    (hload : helphLoadModule little malloc h i = some (some md)) :
    ∃ p rest, helpModule h malloc pm = some p ∧ cstr p = some (md.name, rest) := by
  rw [helphLoadModule, hpm] at hload
  simp only [Option.bind_eq_bind, Option.bind_some] at hload
  cases hp : helpModule h malloc pm with
  | none => exact absurd hload (by simp [hp])
  | some p =>
    simp only [hp] at hload
    split_ifs at hload
    · obtain ⟨rest, hname⟩ := readModule_name hload
      exact ⟨p, rest, rfl, hname⟩
    · exact absurd hload (by simp)

/-- The byte at the pointer to a module. -/
theorem helpModule_cons {pm : ModtableData} {c : UInt8} {p rest : List UInt8}
    (hfile : h.file.drop (pm.offset + h.helpModTableSize + helpModExtraOffset).toNat = c :: rest)
    (hlen : pm.len.toNat ≠ 0) (hp : helpModule h malloc pm = some p) : ∃ rest, p = c :: rest := by
  rw [helpModule, hfile] at hp
  split_ifs at hp
  · exact ⟨rest, (Option.some.inj hp).symm⟩
  · obtain ⟨n, hn⟩ := Nat.exists_eq_succ_of_ne_zero hlen
    rw [hn, List.take_succ_cons] at hp
    exact ⟨_, (Option.some.inj hp).symm⟩

theorem getElem?_long (hi : i < 65539) : long[i]? = some (longModule i) := by
  rw [long, List.getElem?_map, List.getElem?_range hi, Option.map_some]

theorem length_take_long (little : Bool) (hi : i ≤ 65539) :
    (encModules little (long.take i)).length = i * 65535 := by
  rw [long, ← List.map_take, length_encModules_long, List.length_take, List.length_range,
    Nat.min_eq_left hi]

theorem drop_long (little : Bool) : ∃ rest, (encModules little long).drop 65534 = 0 :: rest := by
  have hlen : 65534 ≤ (encModule little (longModule 0)).length :=
    (length_encModule_long little 0).symm ▸ Nat.le_succ _
  rw [encModules_drop little (getElem?_long (Nat.succ_pos _)), List.take_zero, encModules,
    List.flatMap_nil, List.nil_append, List.drop_append_of_le_length hlen, drop_encModule_long]
  exact ⟨_, List.singleton_append⟩

/-- The offset of the last module does not fit into 32 bits: what is loaded is not the module. -/
theorem helphLoadModule_long (hh : Describes little h long)
    (hload : helphLoadModule little malloc h 65538 = some (some md)) : md.name = [] := by
  have htable : (mtable little 0 long).length = 65539 * 11 := by
    rw [long, length_mtable_long, List.length_range]
  have hstart : (UInt32.ofNat (65538 * 65535) + UInt32.ofNat (65539 * 11) +
      helpModExtraOffset).toNat = 8 + 65539 * 11 + 65534 := by
    decide
  obtain ⟨pm, hentry, hoffset, hlen⟩ : ∃ pm, helphGetModtableData little h 65538 = some (some pm) ∧
      pm.offset = UInt32.ofNat (65538 * 65535) ∧ pm.len = UInt16.ofNat 65535 := by
    have hentry := helphGetModtableData_eq (forall_long nulFree_long) hh
      (getElem?_long (by omega : 65538 < 65539))
    rw [length_take_long little (by omega), length_encModule_long] at hentry
    exact ⟨_, hentry, rfl, rfl⟩
  -- The pointer is to the last byte of the first module.
  obtain ⟨rest, hdrop⟩ := drop_long little
  have hfile : h.file.drop (pm.offset + h.helpModTableSize + helpModExtraOffset).toNat =
      0 :: rest := by
    rw [hoffset, hh.size, htable, hstart, hh.file, ← htable, ← List.drop_drop, drop_generateTarget,
      hdrop]
  obtain ⟨p, rest', hp, hname⟩ := helphLoadModule_name hentry hload
  obtain ⟨rest, rfl⟩ := helpModule_cons hfile (by rw [hlen]; decide) hp
  exact (congrArg Prod.fst (Option.some.inj hname)).symm

end Long

/-- What `help_help` prints for a topic, with the file in the ROM. -/
def ask (data : List Module) (topic : List UInt8) : Option Answer := do
  let h ← ← helpInit true true (fun _ => true) (generateTarget true data)
  helpHelp true (fun _ => true) h topic

/-- Functions are not found if their topic starts with a star or has its first dot at the end.
Nothing is accepted without memory, and files of more than `2 ^ 32` bytes are not read back. -/
theorem help_roundtrip_fails :
    (Fits true dotted ∧ Unique dotted ∧ (∀ d ∈ dotted, sameName d.name (chars "m.") = false) ∧
      Documents dotted (chars "m.") (chars "text") ∧
        ask dotted (chars "m.") = some (.message (red (chars "Invalid help syntax\n")))) ∧
    (Fits true starred ∧ Unique starred ∧
      (∀ d ∈ starred, sameName d.name (chars "*m.f") = false) ∧
      Documents starred (chars "*m.f") (chars "text") ∧
        ask starred (chars "*m.f") = some (notFound (chars "m.f"))) ∧
    helpInit true false (fun _ => false) (generateTarget true dotted) = some none ∧
    (∀ d ∈ long, d.NulFree) ∧ (∀ d ∈ long, (encModule true d).length < 2 ^ 16) ∧ Unique long ∧
      ∃ h d, helpInit true true (fun _ => true) (generateTarget true long) = some (some h) ∧
        long[65538]? = some d ∧
        ∀ md, helphLoadModule true (fun _ => true) h 65538 = some (some md) → md.name ≠ d.name := by
  refine ⟨⟨?_, ?_, ?_, ?_, ?_⟩, ⟨?_, ?_, ?_, ?_, ?_⟩, ?_, forall_long nulFree_long,
    forall_long fun i => ?_, unique_long, ?_⟩
  · exact ⟨by decide +kernel, by decide +kernel, by decide +kernel⟩
  · exact ⟨by decide +kernel, by decide +kernel⟩
  · decide +kernel
  · exact ⟨_, .head _, _, .head _, by decide +kernel, by decide +kernel, rfl⟩
  · decide +kernel
  · exact ⟨by decide +kernel, by decide +kernel, by decide +kernel⟩
  · exact ⟨by decide +kernel, by decide +kernel⟩
  · decide +kernel
  · exact ⟨_, .head _, _, .head _, by decide +kernel, by decide +kernel, rfl⟩
  · decide +kernel
  · rfl
  · rw [length_encModule_long]
    decide
  · have hsize : (mtable true 0 long).length < 2 ^ 32 := by
      rw [long, length_mtable_long, List.length_range]
      decide
    obtain ⟨h, hinit, hh⟩ := helpInit_generateTarget true true (fun _ => rfl)
      (forall_long nulFree_long) hsize
    refine ⟨h, _, hinit, getElem?_long (by omega), fun md hload hname => ?_⟩
    rw [helphLoadModule_long hh hload] at hname
    exact name_long_ne_nil _ hname.symm

end ELuaBrain.Help
