import ELuaBrain.Build.Config
import Mathlib.Data.List.Chain
import Mathlib.Data.List.Nodup
import Mathlib.Data.List.TakeWhile

/-!
# Names of object and dependency files

The names that `obj_name` and `get_dep_filename` of `utils/build.lua` make for C and assembler
sources. In each mode they keep a part of the path only, and two sources get different names if
and only if their parts are different.

## Main definitions

* `Source` : a source with an extension.
* `Source.kept` : the part of the path that the name of the object file keeps.

## Main results

* `names_distinct_iff` : the sources whose files have different names.
* `linearizeFname_injective` : paths that stay different without their separators.
-/

namespace ELuaBrain.Build

/-- A C or assembler source. -/
structure Source where
  stem : Name
  extension : Name
  plain : ∀ c ∈ extension, c ≠ '.' ∧ c ≠ '/' ∧ c ≠ backslash

/-- The path of a source. -/
def Source.path (s : Source) : Name := s.stem ++ '.' :: s.extension

/-- The extension of an object file. -/
def Host.objExt (h : Host) (r : Invocation) : Name :=
  r.config.objExtension.getD (if h.windows then "obj".toList else ['o'])

/-- What the name of an object file keeps of the path: the path without its extension, without its
separators, or without its directory. An object extension with a slash leaves nothing of it in the
last mode. -/
def Source.kept (h : Host) (r : Invocation) (s : Source) : Name :=
  match r.buildMode with
  | .keepDir => s.stem
  | .buildDirLinearized => linearizeFname s.stem
  | .buildDir => if '/' ∈ h.objExt r then [] else fname s.stem

section Parts

variable {s t new : Name} {h : Host} {r : Invocation}

theorem replaceExtension_eq (stem new : Name) {ext : Name} (hext : '.' ∉ ext) :
    replaceExtension (stem ++ '.' :: ext) new = stem ++ '.' :: new := by
  have hdrop : (stem ++ '.' :: ext).reverse.dropWhile (· ≠ '.') = '.' :: stem.reverse := by
    rw [List.reverse_append, List.reverse_cons, List.append_assoc, List.dropWhile_append_of_pos]
    · rfl
    · intro c hc
      exact decide_eq_true fun hdot => hext (hdot ▸ List.mem_reverse.mp hc)
  rw [replaceExtension, hdrop]
  exact congrArg (· ++ '.' :: new) (List.reverse_reverse stem)

theorem linearizeFname_append (s t : Name) :
    linearizeFname (s ++ t) = linearizeFname s ++ linearizeFname t :=
  List.flatMap_append

theorem linearizeFname_cons (c : Char) (s : Name) : linearizeFname (c :: s) =
    (if c = '/' ∨ c = backslash then ['_', '_'] else [c]) ++ linearizeFname s :=
  List.flatMap_cons

theorem linearizeFname_of_plain (ht : ∀ c ∈ t, c ≠ '/' ∧ c ≠ backslash) : linearizeFname t = t := by
  induction t with
  | nil => rfl
  | cons c t ih =>
    obtain ⟨hc, ht⟩ := List.forall_mem_cons.mp ht
    rw [linearizeFname_cons, if_neg (not_or.mpr hc), ih ht]
    rfl

/-- The name of a file with something behind it. -/
theorem fname_append (s : Name) (ht : '/' ∉ t) : fname (s ++ t) = fname s ++ t := by
  have hall : ∀ c ∈ t.reverse, decide (c ≠ '/') = true := fun c hc =>
    decide_eq_true fun hslash => ht (hslash ▸ List.mem_reverse.mp hc)
  rw [fname, fname, List.reverse_append, List.dropWhile_append_of_pos hall,
    List.takeWhile_append_of_pos hall]
  split
  · rw [List.reverse_append, List.reverse_reverse]
  · rfl

/-- Behind a slash, the directory is not left. -/
theorem fname_of_mem (s : Name) (hs : s ≠ []) (ht : '/' ∈ t) :
    fname (s ++ t) = (t.reverse.takeWhile (· ≠ '/')).reverse := by
  have hne : t.reverse.dropWhile (fun c => decide (c ≠ '/')) ≠ [] := by
    intro hnil
    exact of_decide_eq_true (List.dropWhile_eq_nil_iff.mp hnil '/' (List.mem_reverse.mpr ht)) rfl
  have htake : (t.reverse ++ s.reverse).takeWhile (fun c => decide (c ≠ '/')) =
      t.reverse.takeWhile (fun c => decide (c ≠ '/')) := by
    rw [List.takeWhile_append, if_neg]
    intro hlength
    have happend := congrArg List.length
      (List.takeWhile_append_dropWhile (p := fun c => decide (c ≠ '/')) (l := t.reverse))
    rw [List.length_append, hlength] at happend
    exact hne (List.length_eq_zero_iff.mp (by omega))
  rw [fname, List.reverse_append, List.dropWhile_append, if_neg (by simpa using hne), htake]
  obtain ⟨c, cs, hcs⟩ := List.exists_cons_of_ne_nil hne
  obtain ⟨d, ds, hds⟩ := List.exists_cons_of_ne_nil (mt List.reverse_eq_nil_iff.mp hs)
  rw [hcs, hds]
  cases cs <;> rfl

/-- A name ends with the end of its extension. -/
theorem getLast?_cons_ne {c : Char} (hc : c ≠ 'd') (ht : t.getLast? ≠ some 'd') :
    (c :: t).getLast? ≠ some 'd' := by
  rw [List.getLast?_cons]
  intro hlast
  cases hlast' : t.getLast? with
  | none => exact hc (by simpa [hlast'] using hlast)
  | some d => exact ht (by simpa [hlast'] using hlast)

theorem getLast?_linearizeFname (ht : t.getLast? ≠ some 'd') :
    (linearizeFname t).getLast? ≠ some 'd' := by
  obtain rfl | ⟨t, c, rfl⟩ := t.eq_nil_or_concat'
  · exact ht
  · rw [List.getLast?_concat] at ht
    rw [linearizeFname_append, linearizeFname_cons]
    split_ifs
    · simp [linearizeFname]
    · simpa [linearizeFname] using ht

theorem exists_objName_eq (h : Host) (r : Invocation) : ∃ pre post,
    (∀ s : Source, h.objName r s.path = pre ++ s.kept h r ++ post) ∧ post ≠ [] ∧
      ((h.objExt r).getLast? ≠ some 'd' → post.getLast? ≠ some 'd') := by
  have hreplace (s : Source) : replaceExtension s.path (h.objExt r) = s.stem ++ '.' :: h.objExt r :=
    replaceExtension_eq _ _ fun hmem => (s.plain _ hmem).1 rfl
  have hdot : (h.objExt r).getLast? ≠ some 'd' → ('.' :: h.objExt r).getLast? ≠ some 'd' :=
    getLast?_cons_ne (by decide)
  cases hmode : r.buildMode with
  | keepDir =>
    refine ⟨[], '.' :: h.objExt r, fun s => ?_, List.cons_ne_nil _ _, hdot⟩
    simp only [Host.objName, Source.kept, hmode]
    exact hreplace s
  | buildDirLinearized =>
    refine ⟨h.buildDir ++ [h.dirSep], linearizeFname ('.' :: h.objExt r), fun s => ?_, ?_,
      fun hext => getLast?_linearizeFname (hdot hext)⟩
    · simp only [Host.objName, Source.kept, hmode]
      change h.inBuildDir (linearizeFname (replaceExtension s.path (h.objExt r))) = _
      rw [hreplace, linearizeFname_append, Host.inBuildDir]
      simp
    · rw [linearizeFname_cons, if_neg (by decide)]
      exact List.cons_ne_nil _ _
  | buildDir =>
    by_cases hslash : '/' ∈ h.objExt r
    · refine ⟨[], h.inBuildDir ((h.objExt r).reverse.takeWhile (· ≠ '/')).reverse, fun s => ?_,
        List.append_ne_nil_of_right_ne_nil _ (List.cons_ne_nil _ _), fun hext => ?_⟩
      · simp only [Host.objName, Source.kept, hmode, if_pos hslash]
        change h.inBuildDir (fname (replaceExtension s.path (h.objExt r))) = _
        rw [hreplace, ← List.singleton_append, ← List.append_assoc, fname_of_mem _ (by simp) hslash]
        rfl
      · rw [Host.inBuildDir, List.getLast?_append_of_ne_nil _ (List.cons_ne_nil _ _)]
        refine getLast?_cons_ne ?_ ?_
        · rw [Host.dirSep]
          split_ifs <;> decide
        · rw [← List.head?_reverse] at hext
          rw [List.getLast?_reverse, List.head?_takeWhile]
          exact fun hlast => hext (Option.filter_eq_some_iff.mp hlast).1
    · refine ⟨h.buildDir ++ [h.dirSep], '.' :: h.objExt r, fun s => ?_, List.cons_ne_nil _ _, hdot⟩
      simp only [Host.objName, Source.kept, hmode, if_neg hslash]
      change h.inBuildDir (fname (replaceExtension s.path (h.objExt r))) = _
      rw [hreplace, fname_append _ (by simpa using hslash), Host.inBuildDir]
      simp

theorem depFilename_eq (h : Host) (s : Source) :
    h.depFilename s.path = h.inBuildDir (linearizeFname s.stem) ++ ['.', 'd'] := by
  have hplain : linearizeFname s.extension = s.extension :=
    linearizeFname_of_plain fun c hc => (s.plain c hc).2
  have hdot : linearizeFname s.path = linearizeFname s.stem ++ '.' :: s.extension := by
    rw [Source.path, linearizeFname_append, linearizeFname_cons, if_neg (by decide), hplain]
    rfl
  have hext : '.' ∉ s.extension := fun hmem => (s.plain _ hmem).1 rfl
  rw [Host.depFilename, hdot, Host.inBuildDir, ← List.cons_append, ← List.append_assoc,
    replaceExtension_eq _ _ hext]
  rfl

end Parts

/-- **The files with different names.** The object files of some sources have different names if and
only if the paths still differ in what the build mode keeps of them, and the dependency files if and
only if they differ without their extensions and separators. -/
theorem names_distinct_iff (h : Host) (r : Invocation) (sources : List Source) :
    ((sources.map fun s => h.objName r s.path).Nodup ↔ (sources.map fun s => s.kept h r).Nodup) ∧
      ((sources.map fun s => h.depFilename s.path).Nodup ↔
        (sources.map fun s => linearizeFname s.stem).Nodup) ∧
      ((h.objExt r).getLast? ≠ some 'd' →
        ∀ s ∈ sources, ∀ s' ∈ sources, h.objName r s.path ≠ h.depFilename s'.path) := by
  have haround (pre post : Name) : Function.Injective fun n : Name => pre ++ n ++ post :=
    fun n n' heq => List.append_cancel_left (List.append_cancel_right heq)
  obtain ⟨pre, post, hname, hpost, hlast⟩ := exists_objName_eq h r
  refine ⟨?_, ?_, fun hext s _ s' _ heq => hlast hext ?_⟩
  · have hmap : (sources.map fun s => h.objName r s.path) =
        (sources.map fun s => s.kept h r).map fun n => pre ++ n ++ post := by
      rw [List.map_map]
      exact List.map_congr_left fun s _ => hname s
    rw [hmap, List.nodup_map_iff (haround pre post)]
  · have hmap : (sources.map fun s => h.depFilename s.path) =
        (sources.map fun s => linearizeFname s.stem).map fun n =>
          h.buildDir ++ [h.dirSep] ++ n ++ ['.', 'd'] := by
      rw [List.map_map]
      refine List.map_congr_left fun s _ => ?_
      rw [depFilename_eq, Function.comp_apply, Host.inBuildDir]
      simp
    rw [hmap, List.nodup_map_iff (haround _ _)]
  · rw [hname, depFilename_eq] at heq
    have hend := congrArg List.getLast? heq
    rw [List.getLast?_append_of_ne_nil _ hpost, List.getLast?_append_of_ne_nil _ (by simp)] at hend
    exact hend

/-- Two characters whose order can be read from the names without separators. -/
def Legible (c d : Char) : Prop := ¬(c = '_' ∧ (d = '_' ∨ d = '/')) ∧ ¬(c = '/' ∧ d = '_')

/-- Nothing that looks like a separator follows an underscore. -/
theorem linearizeFname_ne_underscore {s t : Name} (hs : ('_' :: s).IsChain Legible)
    (hback : backslash ∉ s) : linearizeFname s ≠ '_' :: t := by
  cases s with
  | nil => exact (List.cons_ne_nil _ _).symm
  | cons c s =>
    obtain ⟨hc, -⟩ := not_or.mp (mt List.mem_cons.mpr hback)
    have hlegible := (List.isChain_cons.mp hs).1 c rfl
    rw [linearizeFname_cons]
    split_ifs with hsep
    · exact fun _ => hlegible.1 ⟨rfl, .inr (hsep.resolve_right (Ne.symm hc))⟩
    · exact fun heq => hlegible.1 ⟨rfl, .inl (List.cons.inj heq).1⟩

/-- Paths stay different without their separators, if no underscore is next to another one or to a
separator. -/
theorem linearizeFname_injective {s s' : Name} (hs : s.IsChain Legible) (hs' : s'.IsChain Legible)
    (hback : backslash ∉ s) (hback' : backslash ∉ s') (heq : linearizeFname s = linearizeFname s') :
    s = s' := by
  induction s generalizing s' with
  | nil =>
    cases s' with
    | nil => rfl
    | cons d ds =>
      rw [linearizeFname_cons] at heq
      split_ifs at heq <;> cases heq
  | cons c cs ih =>
    cases s' with
    | nil =>
      rw [linearizeFname_cons] at heq
      split_ifs at heq <;> cases heq
    | cons d ds =>
      obtain ⟨hc, hcs⟩ := not_or.mp (mt List.mem_cons.mpr hback)
      obtain ⟨hd, hds⟩ := not_or.mp (mt List.mem_cons.mpr hback')
      have htail : linearizeFname cs = linearizeFname ds → cs = ds :=
        ih (List.isChain_cons.mp hs).2 (List.isChain_cons.mp hs').2 hcs hds
      rw [linearizeFname_cons, linearizeFname_cons] at heq
      split_ifs at heq with hsep hsep' hsep'
      · rw [hsep.resolve_right (Ne.symm hc), hsep'.resolve_right (Ne.symm hd),
          htail (List.append_cancel_left heq)]
      · obtain ⟨rfl, hrest⟩ := List.cons.inj heq
        exact (linearizeFname_ne_underscore hs' hds hrest.symm).elim
      · obtain ⟨rfl, hrest⟩ := List.cons.inj heq
        exact (linearizeFname_ne_underscore hs hcs hrest).elim
      · obtain ⟨rfl, hrest⟩ := List.cons.inj heq
        exact congrArg _ (htail hrest)

/-- `a.c` and `a.s`. -/
def sameStem : List Source :=
  [⟨['a'], ['c'], List.forall_mem_singleton.mpr (by decide)⟩,
    ⟨['a'], ['s'], List.forall_mem_singleton.mpr (by decide)⟩]

theorem not_names_distinct : ¬∀ (h : Host) (r : Invocation) (sources : List Source),
    (sources.map Source.path).Nodup → (sources.map fun s => h.objName r s.path).Nodup ∧
      (sources.map fun s => h.depFilename s.path).Nodup := by
  intro hall
  let h : Host := ⟨['b'], false, id⟩
  let r : Invocation := {
    config := { compCmd := [], linkCmd := [] }
    files := []
    output := []
    sources := fun _ => none
    stamp := fun _ => 0
    listed := fun _ _ => []
    outcome := fun _ => .success
    removes := fun _ => true }
  exact absurd (hall h r sameStem (by decide)).1 (by decide)

end ELuaBrain.Build
