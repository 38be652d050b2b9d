import ELuaBrain.Device.Paths

/-!
# File name patterns

`cmn_match_fname` of `common.c`, which the shell uses to select files. The characters in front of a
`*` are compared one by one and without regard to case, those behind it with `strcmp`. A `*` is only
looked at while characters of the name are left.

## Main definitions

* `cmnMatchFname` : the code.
* `Specified` : the names that the comment above the function describes.
* `Misjudged` : the names for which the function decides otherwise.

## Main results

* `matchLoop_star_iff` : what the function does with a pattern that has a `*`.
* `cmnMatchFname_specified_iff` : where the function meets its comment.
-/

namespace ELuaBrain.Device

/-! ### The code -/

/-- The loop of `cmn_match_fname`, and what is compared after it. The lists are the characters up to
the `NUL`. -/
def matchLoop : List UInt8 → List UInt8 → Bool
  | f :: fname, p :: pattern =>
      if p :: pattern = [star] then true
      else if p ≠ star then
        if toLower p ≠ toLower f then false else matchLoop fname pattern
      else if pattern.length > (f :: fname).length then false
      else pattern = (f :: fname).drop ((f :: fname).length - pattern.length)
  | fname, pattern => fname.head?.getD 0 = pattern.head?.getD 0

/-- `cmn_match_fname`. -/
def cmnMatchFname (fname : List UInt8) : Option (List UInt8) → Bool
  | none => true
  | some pattern => matchLoop fname pattern

/-! ### The comment -/

/-- The names that a pattern with at most one `*` is said to match. -/
inductive Specified : List UInt8 → List UInt8 → Prop
  | plain {pattern name : List UInt8} (hplain : star ∉ pattern)
      (hsame : pattern.map toLower = name.map toLower) : Specified pattern name
  | starred {pre suf name : List UInt8} (hpre : star ∉ pre) (hsuf : star ∉ suf)
      (hstart : pre.map toLower <+: name.map toLower)
      (hstop : suf.map toLower <:+ name.map toLower)
      (hlength : pre.length + suf.length ≤ name.length) : Specified (pre ++ star :: suf) name

/-- The name starts as the pattern does, and nothing is left of it for a `*` at the end of the
pattern, or it ends with the end of the pattern in another case. -/
def Misjudged (pattern name : List UInt8) : Prop :=
  ∃ pre suf, pattern = pre ++ star :: suf ∧ pre.map toLower <+: name.map toLower ∧
    (suf = [] ∧ name.length = pre.length ∨
      pre.length + suf.length ≤ name.length ∧ suf.map toLower <:+ name.map toLower ∧
        ¬ suf <:+ name)

variable {pattern pre suf name : List UInt8}

/-! ### The loop -/

/-- Without a `*` the characters are compared one by one. -/
theorem matchLoop_plain_iff (hplain : star ∉ pattern) (hpattern : 0 ∉ pattern) (hname : 0 ∉ name) :
    matchLoop name pattern = true ↔ pattern.map toLower = name.map toLower := by
  induction pattern generalizing name with
  | nil =>
    cases name with
    | nil => simp [matchLoop]
    | cons f fname =>
      have hf : f ≠ 0 := fun h => hname (h ▸ List.mem_cons_self)
      simp [matchLoop, hf]
  | cons p pattern ih =>
    obtain ⟨hp, hplain⟩ := not_or.mp (mt List.mem_cons.mpr hplain)
    obtain ⟨hp0, hpattern⟩ := not_or.mp (mt List.mem_cons.mpr hpattern)
    cases name with
    | nil => simp [matchLoop, hp0]
    | cons f fname =>
      have hfname := (not_or.mp (mt List.mem_cons.mpr hname)).2
      have hne : p :: pattern ≠ [star] := fun h => hp (List.cons.inj h).1.symm
      rw [matchLoop, if_neg hne, if_pos (Ne.symm hp), List.map_cons, List.map_cons,
        List.cons.injEq]
      by_cases hcase : toLower p = toLower f
      · simp [hcase, ih hplain hpattern hfname]
      · simp [hcase]

/-- With a `*` something has to be left of the name when it is reached, and what follows it is the
end of the name as it is. -/
theorem matchLoop_star_iff (hpre : star ∉ pre) (hpre0 : 0 ∉ pre) :
    matchLoop name (pre ++ star :: suf) = true ↔
      pre.map toLower <+: name.map toLower ∧ pre.length < name.length ∧
        pre.length + suf.length ≤ name.length ∧ suf <:+ name := by
  induction pre generalizing name with
  | nil =>
    cases name with
    | nil => simp [matchLoop, star]
    | cons f fname =>
      rw [List.nil_append, matchLoop]
      by_cases hsuf : suf = []
      · simp [hsuf]
      · have hne : star :: suf ≠ [star] := fun h => hsuf (List.cons.inj h).2
        have hsuffix : suf <:+ f :: fname ↔
            suf = (f :: fname).drop ((f :: fname).length - suf.length) :=
          List.suffix_iff_eq_drop
        rw [if_neg hne, if_neg (not_not.mpr rfl)]
        by_cases hlength : suf.length > (f :: fname).length
        · have hshort : ¬ suf.length ≤ (f :: fname).length := Nat.not_le.mpr hlength
          simp only [if_pos hlength, Bool.false_eq_true, false_iff]
          rintro ⟨-, -, hle, -⟩
          exact hshort (by simpa using hle)
        · have hfits := Nat.not_lt.mp hlength
          simp [hsuffix]
  | cons p pre ih =>
    obtain ⟨hp, hpre⟩ := not_or.mp (mt List.mem_cons.mpr hpre)
    obtain ⟨hp0, hpre0⟩ := not_or.mp (mt List.mem_cons.mpr hpre0)
    cases name with
    | nil => simp [matchLoop, hp0]
    | cons f fname =>
      have hne : p :: (pre ++ star :: suf) ≠ [star] := fun h => hp (List.cons.inj h).1.symm
      rw [List.cons_append, matchLoop, if_neg hne, if_pos (Ne.symm hp), List.map_cons,
        List.map_cons, List.cons_prefix_cons]
      by_cases hcase : toLower p = toLower f
      · have hsuffix (hlength : pre.length + suf.length ≤ fname.length) :
            suf <:+ f :: fname ↔ suf <:+ fname := by
          rw [List.suffix_cons_iff]
          refine or_iff_right fun h => ?_
          have hcons := congrArg List.length h
          simp at hcons
          omega
        rw [if_neg (not_not.mpr hcase), ih hpre hpre0]
        simp only [hcase, true_and, List.length_cons]
        constructor
        · rintro ⟨hstart, hlt, hlength, hstop⟩
          exact ⟨hstart, by omega, by omega, (hsuffix hlength).mpr hstop⟩
        · rintro ⟨hstart, hlt, hlength, hstop⟩
          exact ⟨hstart, by omega, by omega, (hsuffix (by omega)).mp hstop⟩
      · simp [hcase]

/-! ### The function and its comment -/

/-- Only one case of the specification is about a pattern with a `*`. -/
theorem specified_star_iff (hpre : star ∉ pre) (hsuf : star ∉ suf) :
    Specified (pre ++ star :: suf) name ↔
      pre.map toLower <+: name.map toLower ∧ suf.map toLower <:+ name.map toLower ∧
        pre.length + suf.length ≤ name.length := by
  constructor
  · intro h
    generalize hpattern : pre ++ star :: suf = pattern at h
    cases h with
    | plain hplain _ => exact absurd (hpattern ▸ by simp) hplain
    | starred hpre' hsuf' hstart hstop hlength =>
      obtain ⟨rfl, -, rfl⟩ := (List.append_cons_inj_of_notMem hpre hsuf).mp hpattern
      exact ⟨hstart, hstop, hlength⟩
  · rintro ⟨hstart, hstop, hlength⟩
    exact .starred hpre hsuf hstart hstop hlength

/-- The `*` of a pattern with one `*` is in one place only. -/
theorem misjudged_star_iff (hpre : star ∉ pre) (hsuf : star ∉ suf) :
    Misjudged (pre ++ star :: suf) name ↔ pre.map toLower <+: name.map toLower ∧
      (suf = [] ∧ name.length = pre.length ∨
        pre.length + suf.length ≤ name.length ∧ suf.map toLower <:+ name.map toLower ∧
          ¬ suf <:+ name) := by
  constructor
  · rintro ⟨pre', suf', hpattern, h⟩
    obtain ⟨rfl, -, rfl⟩ := (List.append_cons_inj_of_notMem hpre hsuf).mp hpattern
    exact h
  · exact fun h => ⟨pre, suf, rfl, h⟩

/-- For a pattern with a `*` the function decides as specified, except for the misjudged names. -/
theorem matchLoop_specified_star_iff (hpre : star ∉ pre) (hpre0 : 0 ∉ pre) (hsuf : star ∉ suf) :
    (matchLoop name (pre ++ star :: suf) = true ↔ Specified (pre ++ star :: suf) name) ↔
      ¬ Misjudged (pre ++ star :: suf) name := by
  rw [matchLoop_star_iff hpre hpre0, specified_star_iff hpre hsuf, misjudged_star_iff hpre hsuf]
  constructor
  · rintro hiff ⟨hstart, ⟨rfl, heq⟩ | ⟨hlength, hstop, hnot⟩⟩
    · have hlt := (hiff.mpr ⟨hstart, List.nil_suffix, heq.ge⟩).2.1
      exact hlt.ne heq.symm
    · exact hnot (hiff.mpr ⟨hstart, hstop, hlength⟩).2.2.2
  · intro hnot
    constructor
    · rintro ⟨hstart, -, hlength, hstop⟩
      exact ⟨hstart, hstop.map toLower, hlength⟩
    · rintro ⟨hstart, hstop, hlength⟩
      have hlt : pre.length < name.length := by
        -- nothing is left of the name, so the end of the pattern has to be empty
        by_contra hle
        exact hnot ⟨hstart, .inl ⟨List.length_eq_zero_iff.mp (by omega), by omega⟩⟩
      have hsame : suf <:+ name := by
        by_contra hne
        exact hnot ⟨hstart, .inr ⟨hlength, hstop, hne⟩⟩
      exact ⟨hstart, hlt, hlength, hsame⟩

/-- A pattern with one `*`, taken apart. -/
theorem exists_eq_star (hone : pattern.count star ≤ 1) (hmem : star ∈ pattern) :
    ∃ pre suf, pattern = pre ++ star :: suf ∧ star ∉ pre ∧ star ∉ suf := by
  obtain ⟨pre, suf, rfl⟩ := List.append_of_mem hmem
  have hcount : pre.count star + (suf.count star + 1) ≤ 1 := by simpa using hone
  exact ⟨pre, suf, rfl, List.count_eq_zero.mp (by omega), List.count_eq_zero.mp (by omega)⟩

/-- The function accepts the names that its comment describes if and only if the name is not
misjudged. -/
theorem cmnMatchFname_specified_iff (hone : pattern.count star ≤ 1) (hpattern : 0 ∉ pattern)
    (hname : 0 ∉ name) :
    (cmnMatchFname name (some pattern) = true ↔ Specified pattern name) ↔
      ¬ Misjudged pattern name := by
  by_cases hmem : star ∈ pattern
  · obtain ⟨pre, suf, rfl, hpre, hsuf⟩ := exists_eq_star hone hmem
    have hpre0 : 0 ∉ pre := fun h => hpattern (List.mem_append_left _ h)
    exact matchLoop_specified_star_iff hpre hpre0 hsuf
  · have hspec : Specified pattern name ↔ pattern.map toLower = name.map toLower := by
      constructor
      · rintro (⟨-, hsame⟩ | _)
        · exact hsame
        · simp at hmem
      · exact Specified.plain hmem
    have hnot : ¬ Misjudged pattern name := by
      rintro ⟨pre, suf, rfl, -⟩
      simp at hmem
    exact iff_of_true ((matchLoop_plain_iff hmem hpattern hname).trans hspec.symm) hnot

/-- `a*.lua` and `ab.lua`. -/
theorem cmnMatchFname_specified_lua :
    (cmnMatchFname [0x61, 0x62, 0x2E, 0x6C, 0x75, 0x61]
        (some [0x61, star, 0x2E, 0x6C, 0x75, 0x61]) = true ↔
      Specified [0x61, star, 0x2E, 0x6C, 0x75, 0x61] [0x61, 0x62, 0x2E, 0x6C, 0x75, 0x61]) ↔
    ¬ Misjudged [0x61, star, 0x2E, 0x6C, 0x75, 0x61] [0x61, 0x62, 0x2E, 0x6C, 0x75, 0x61] :=
  cmnMatchFname_specified_iff (by decide) (by decide) (by decide)

/-- `a*` starts with an `a`, and so does the name `a`. -/
theorem cmnMatchFname_rejects_prefix :
    ¬ ∀ pattern name : List UInt8, pattern.count star ≤ 1 → 0 ∉ pattern → 0 ∉ name →
      (cmnMatchFname name (some pattern) = true ↔ Specified pattern name) := by
  intro h
  have hspec : Specified ([0x61] ++ star :: []) [0x61] :=
    .starred (by decide) (by decide) (by decide) (by decide) (by decide)
  have haccepts := (h [0x61, star] [0x61] (by decide) (by decide) (by decide)).mpr hspec
  exact absurd haccepts (by decide)

end ELuaBrain.Device
