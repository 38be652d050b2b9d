import ELuaBrain.Build.Targets

/-!
# Incremental builds

What `_target.build` executes, and when that is what has to be executed. The build is compared with
the bare walk through the dependencies: whether a target is visited for the first time does not
depend on any time or flag.

## Main definitions

* `Inv` : what holds of a build between two targets.
* `Grows` : what a visit leaves as it was.

## Main results

* `build_spec` : a visit of a target.
* `executed_iff_evident` : the targets whose commands a build executes.
* `built_iff` : the build is right if and only if every target that has to be executed has an
  evident reason.
-/

namespace ELuaBrain.Build

namespace Builder

variable {b : Builder}

/-! ### Depth -/

theorem deprunner_file (visit : Name → Target → Run → Option (Bool × Run)) (n : Name) {d : Name}
    (hd : b.tlist d = none) (ds : List Name) (docmd : Bool) (s : Run) :
    b.deprunner visit n (d :: ds) docmd s =
      b.deprunner visit n ds (docmd || fbuilderBuild s.files n d) s := by
  rw [deprunner, hd]

theorem deprunner_target (visit : Name → Target → Run → Option (Bool × Run)) (n : Name) {d : Name}
    {t : Target} (hd : b.tlist d = some t) (ds : List Name) (docmd : Bool) (s : Run) :
    b.deprunner visit n (d :: ds) docmd s = (visit d t s).bind fun r =>
      b.deprunner visit n ds (docmdTarget r.2.files n d docmd r.1) r.2 := by
  rw [deprunner, hd]

theorem walkDeps_file (visit : Name → Target → Walk → Option Walk) (n : Name) {d : Name}
    (hd : b.tlist d = none) (ds : List Name) (w : Walk) :
    b.walkDeps visit n (d :: ds) w = b.walkDeps visit n ds w := by
  rw [walkDeps, hd]

theorem walkDeps_target (visit : Name → Target → Walk → Option Walk) (n : Name) {d : Name}
    {t : Target} (hd : b.tlist d = some t) (ds : List Name) (w : Walk) :
    b.walkDeps visit n (d :: ds) w =
      (visit d t (w.enter n d)).bind (b.walkDeps visit n ds) := by
  rw [walkDeps, hd]

theorem deprunner_mono {visit visit' : Name → Target → Run → Option (Bool × Run)}
    (h : ∀ d t s r, visit d t s = some r → visit' d t s = some r) {n : Name} {ds : List Name}
    {docmd : Bool} {s : Run} {r : Bool × Run} (hr : b.deprunner visit n ds docmd s = some r) :
    b.deprunner visit' n ds docmd s = some r := by
  induction ds generalizing docmd s with
  | nil => exact hr
  | cons d ds ih =>
    cases ht : b.tlist d with
    | none =>
      rw [deprunner_file visit n ht] at hr
      rw [deprunner_file visit' n ht]
      exact ih hr
    | some t =>
      rw [deprunner_target visit n ht] at hr
      obtain ⟨r', hv, hr⟩ := Option.bind_eq_some_iff.mp hr
      rw [deprunner_target visit' n ht, h d t s r' hv]
      exact ih hr

theorem walkDeps_mono {visit visit' : Name → Target → Walk → Option Walk}
    (h : ∀ d t w w', visit d t w = some w' → visit' d t w = some w') {n : Name} {ds : List Name}
    {w w' : Walk} (hw : b.walkDeps visit n ds w = some w') :
    b.walkDeps visit' n ds w = some w' := by
  induction ds generalizing w with
  | nil => exact hw
  | cons d ds ih =>
    cases ht : b.tlist d with
    | none =>
      rw [walkDeps_file visit n ht] at hw
      rw [walkDeps_file visit' n ht]
      exact ih hw
    | some t =>
      rw [walkDeps_target visit n ht] at hw
      obtain ⟨w₁, hv, hw⟩ := Option.bind_eq_some_iff.mp hw
      rw [walkDeps_target visit' n ht, h d t _ w₁ hv]
      exact ih hw

/-- A build that ends does so with more depth as well. -/
theorem build_succ {stamp : ℕ → ℕ} {k : ℕ} {n : Name} {t : Target} {s : Run} {r : Bool × Run}
    (hr : b.build stamp k n t s = some r) : b.build stamp (k + 1) n t s = some r := by
  induction k generalizing n t s r with
  | zero => cases hr
  | succ k ih =>
    rw [build] at hr ⊢
    split_ifs at hr ⊢ with hmem
    · exact hr
    · obtain ⟨r', hd, hr⟩ := Option.bind_eq_some_iff.mp hr
      exact Option.bind_eq_some_iff.mpr ⟨r', deprunner_mono (fun _ _ _ _ => ih) hd, hr⟩

theorem walk_succ {k : ℕ} {n : Name} {t : Target} {w w' : Walk} (hw : b.walk k n t w = some w') :
    b.walk (k + 1) n t w = some w' := by
  induction k generalizing n t w w' with
  | zero => cases hw
  | succ k ih =>
    rw [walk] at hw ⊢
    split_ifs at hw ⊢ with hmem
    · exact hw
    · obtain ⟨w₁, hd, hw⟩ := Option.map_eq_some_iff.mp hw
      exact Option.map_eq_some_iff.mpr ⟨w₁, walkDeps_mono (fun _ _ _ _ => ih) hd, hw⟩

theorem walk_mono {k k' : ℕ} (hk : k ≤ k') {n : Name} {t : Target} {w w' : Walk}
    (hw : b.walk k n t w = some w') : b.walk k' n t w = some w' := by
  induction hk with
  | refl => exact hw
  | step _ ih => exact walk_succ ih

theorem build_mono {stamp : ℕ → ℕ} {k k' : ℕ} (hk : k ≤ k') {n : Name} {t : Target} {s : Run}
    {r : Bool × Run} (hr : b.build stamp k n t s = some r) : b.build stamp k' n t s = some r := by
  induction hk with
  | refl => exact hr
  | step _ ih => exact build_succ ih

/-! ### Dependencies -/

theorem Through.target {n d : Name} (h : b.Through n d) : (b.tlist n).isSome := by
  cases h with
  | direct h => obtain ⟨t, ht, -⟩ := h; rw [ht]; rfl
  | phony h => obtain ⟨t, ht, -⟩ := h; rw [ht]; rfl

/-- What is required of a target depends on the targets behind it only. -/
theorem Required.congr {fs : Files} {p q : Name → Prop} {n : Name} {t : Target}
    (h : ∀ d, b.Through n d → (p d ↔ q d)) : b.Required fs p n t ↔ b.Required fs q n t := by
  refine or_congr Iff.rfl (exists_congr fun d => and_congr_right fun hd => ?_)
  rw [h d hd]

theorem Shows.congr {fs : Files} {p q p' q' : Name → Prop} {n d : Name} (h : p d ↔ q d)
    (h' : p d → (p' d ↔ q' d)) : b.Shows fs p p' n d ↔ b.Shows fs q q' n d :=
  or_congr Iff.rfl ⟨fun hp => ⟨h.mp hp.1, hp.2.imp id (h' hp.1).mp⟩,
    fun hq => ⟨h.mpr hq.1, hq.2.imp id (h' (h.mpr hq.1)).mpr⟩⟩

theorem Evident.congr {fs : Files} {p q p' q' : Name → Prop} {n : Name} {t : Target}
    (h : ∀ d ∈ t.dep, (b.Shows fs p p' n d ↔ b.Shows fs q q' n d)) :
    b.Evident fs p p' n t ↔ b.Evident fs q q' n t :=
  or_congr Iff.rfl (exists_congr fun d => and_congr_right (h d))

/-- What has to be executed is what is required if it is executed. -/
theorem due_iff {fs : Files} {n : Name} {t : Target} (ht : b.tlist n = some t) :
    b.Due fs n ↔ b.Required fs (b.Due fs) n t := by
  constructor
  · intro h
    cases h with
    | forced ht' h =>
      obtain rfl := Option.some.inj (ht.symm.trans ht')
      exact Or.inl h
    | newer hd h => exact Or.inr ⟨_, hd, Or.inl h⟩
    | dep hd h => exact Or.inr ⟨_, hd, Or.inr h⟩
  · rintro (h | ⟨d, hd, h | h⟩)
    · exact .forced ht h
    · exact .newer hd h
    · exact .dep hd h

/-- A visible reason is a reason. -/
theorem Evident.due {fs : Files} {first : Name → Prop} {n : Name} {t : Target}
    (ht : b.tlist n = some t) (h : b.Evident fs (b.Due fs) first n t) : b.Due fs n := by
  rcases h with h | ⟨d, hd, h | ⟨h, -⟩⟩
  · exact .forced ht h
  · exact .newer (.direct ⟨t, ht, hd⟩) h
  · exact .dep (.direct ⟨t, ht, hd⟩) h

/-! ### Invariants -/

/-- The list of the targets that ran is closed under dependencies, and what was executed of them is
what they saw. -/
structure Inv (b : Builder) (fs : Files) (stamp : ℕ → ℕ) (s : Run) (w : Walk) : Prop where
  seen : w.seen = s.runlist
  logged : ∀ n ∈ s.log, n ∈ s.runlist
  closed : ∀ n ∈ s.runlist, ∀ d, b.Dependency n d → (b.tlist d).isSome → d ∈ s.runlist
  once : s.log.Nodup
  after : s.log.Pairwise fun later earlier => ¬ Relation.TransGen b.Dependency earlier later
  written : ∀ n ∈ s.log, isPhony n = false → ∃ j < s.written, s.files n = some (stamp j)
  kept : ∀ n, n ∉ s.log → s.files n = fs n
  decided : ∀ n ∈ s.runlist, ∃ t, b.tlist n = some t ∧
    (n ∈ s.log ↔ b.Evident fs (· ∈ s.log) (fun d => (n, d) ∈ w.edges) n t)

theorem inv_init (b : Builder) (fs : Files) (stamp : ℕ → ℕ) :
    Inv b fs stamp { files := fs } {} where
  seen := rfl
  logged := nofun
  closed := nofun
  once := .nil
  after := .nil
  written := nofun
  kept := fun _ _ => rfl
  decided := nofun

namespace Inv

variable {fs : Files} {c : Clock fs} {s : Run} {w : Walk}

theorem target (h : Inv b fs c.stamp s w) {n : Name} (hn : n ∈ s.runlist) :
    (b.tlist n).isSome := by
  obtain ⟨t, ht, -⟩ := h.decided n hn
  rw [ht]
  rfl

/-- What was executed is newer than what was not; all other times are as they were. -/
theorem newer (h : Inv b fs c.stamp s w) {n d : Name} (hn : n ∉ s.log) (hd : isPhony d = false) :
    getFtime s.files n < getFtime s.files d ↔ getFtime fs n < getFtime fs d ∨ d ∈ s.log := by
  have hkept : getFtime s.files n = getFtime fs n := by rw [getFtime, getFtime, h.kept n hn]
  rw [hkept]
  by_cases hlog : d ∈ s.log
  · refine ⟨fun _ => Or.inr hlog, fun _ => ?_⟩
    obtain ⟨j, -, hj⟩ := h.written d hlog hd
    have hstamp : c.stamp 0 ≤ c.stamp j := by
      cases j with
      | zero => exact Nat.le_refl _
      | succ j => exact Nat.le_of_lt (c.later 0 (j + 1) (Nat.succ_pos j))
    rw [getFtime, getFtime, hj]
    cases hfs : fs n with
    | none => simp only; omega
    | some t =>
      have := c.newer n t hfs
      simp only
      omega
  · have hkept' : getFtime s.files d = getFtime fs d := by rw [getFtime, getFtime, h.kept d hlog]
    rw [hkept', or_iff_left hlog]

/-- A target that did not run is not behind one that did. -/
theorem mem_of_transGen (h : Inv b fs c.stamp s w) {m n : Name} (hm : m ∈ s.runlist)
    (hmn : Relation.TransGen b.Dependency m n) (hn : (b.tlist n).isSome) : n ∈ s.runlist := by
  induction hmn using Relation.TransGen.head_induction_on with
  | single hd => exact h.closed _ hm _ hd hn
  | head hd hrest ih =>
    refine ih (h.closed _ hm _ hd ?_)
    obtain ⟨x, ⟨t, ht, -⟩, -⟩ := Relation.TransGen.head'_iff.mp hrest
    rw [ht]
    rfl

/-- Only targets are logged. -/
theorem not_mem_log (h : Inv b fs c.stamp s w) {d : Name} (hd : ¬(b.tlist d).isSome) :
    d ∉ s.log :=
  fun hmem => hd (h.target (h.logged d hmem))

end Inv

/-- What a visit that only comes to targets of a rank below `r` leaves as it was. The parents of the
new first visits have run, or are on the stack. -/
structure Grows (rank : Name → ℕ) (r : ℕ) (stack : Name → Prop) (s : Run) (w : Walk) (s' : Run)
    (w' : Walk) : Prop where
  runlist : ∀ n ∈ s.runlist, n ∈ s'.runlist
  below : ∀ n ∈ s'.runlist, n ∈ s.runlist ∨ rank n < r
  log : ∀ n ∈ s.runlist, (n ∈ s'.log ↔ n ∈ s.log)
  edges : ∀ n d, d ∈ s.runlist ∨ r ≤ rank n ∧ ¬ stack n → ((n, d) ∈ w'.edges ↔ (n, d) ∈ w.edges)
  parents : ∀ n d, (n, d) ∈ w'.edges → (n, d) ∈ w.edges ∨ n ∈ s'.runlist ∨ stack n

namespace Grows

variable {rank : Name → ℕ} {r r' : ℕ} {stack stack' : Name → Prop} {s s' s'' : Run}
  {w w' w'' : Walk}

theorem refl (s : Run) (w : Walk) : Grows rank r stack s w s w :=
  ⟨fun _ h => h, fun _ h => Or.inl h, fun _ _ => Iff.rfl, fun _ _ _ => Iff.rfl,
    fun _ _ h => Or.inl h⟩

theorem trans (h : Grows rank r stack s w s' w') (h' : Grows rank r stack s' w' s'' w'') :
    Grows rank r stack s w s'' w'' where
  runlist n hn := h'.runlist n (h.runlist n hn)
  below n hn := (h'.below n hn).elim (h.below n) Or.inr
  log n hn := (h'.log n (h.runlist n hn)).trans (h.log n hn)
  edges n d hd := (h'.edges n d (hd.imp_left (h.runlist d))).trans (h.edges n d hd)
  parents n d hd := by
    rcases h'.parents n d hd with hd | hn
    · exact (h.parents n d hd).imp_right (Or.imp_left (h'.runlist n))
    · exact Or.inr hn

theorem mono (h : Grows rank r stack s w s' w') (hr : r ≤ r') (hstack : ∀ n, stack n → stack' n) :
    Grows rank r' stack' s w s' w' where
  runlist := h.runlist
  below n hn := (h.below n hn).imp_right fun hlt => Nat.lt_of_lt_of_le hlt hr
  log := h.log
  edges n d hd := h.edges n d (hd.imp_right fun h =>
    ⟨Nat.le_trans hr h.1, fun hs => h.2 (hstack n hs)⟩)
  parents n d hd := (h.parents n d hd).imp_right (Or.imp_right (hstack n))

/-- The dependencies of `n`, and `n` itself. -/
theorem ran {n : Name} (h : Grows rank (rank n) (· = n) s w s' w')
    (h' : Grows rank (rank n + 1) (fun _ => False) s' w' s'' w'') (hn : n ∈ s''.runlist) :
    Grows rank (rank n + 1) (fun _ => False) s w s'' w'' where
  runlist m hm := h'.runlist m (h.runlist m hm)
  below m hm := (h'.below m hm).elim
    (fun hm => (h.below m hm).imp_right fun hlt => Nat.lt_succ_of_lt hlt) Or.inr
  log m hm := (h'.log m (h.runlist m hm)).trans (h.log m hm)
  edges m d hd := by
    refine (h'.edges m d (hd.imp_left (h.runlist d))).trans (h.edges m d (hd.imp_right ?_))
    rintro ⟨hle, -⟩
    exact ⟨Nat.le_of_lt hle, fun heq => Nat.lt_irrefl _ (heq ▸ hle)⟩
  parents m d hmem := by
    rcases h'.parents m d hmem with hmem | hm
    · rcases h.parents m d hmem with hold | hm | rfl
      · exact Or.inl hold
      · exact Or.inr (Or.inl (h'.runlist m hm))
      · exact Or.inr (Or.inl hn)
    · exact Or.inr hm

/-- What is seen of a dependency that has run stays as it is. -/
theorem shows_iff {fs : Files} {c : Clock fs} (h : Grows rank r stack s w s' w')
    (hinv : Inv b fs c.stamp s w) (hinv' : Inv b fs c.stamp s' w') {n d : Name}
    (hd : (b.tlist d).isSome → d ∈ s.runlist) :
    b.Shows fs (· ∈ s'.log) (fun d => (n, d) ∈ w'.edges) n d ↔
      b.Shows fs (· ∈ s.log) (fun d => (n, d) ∈ w.edges) n d := by
  by_cases ht : (b.tlist d).isSome
  · exact Shows.congr (h.log d (hd ht)) fun _ => h.edges n d (Or.inl (hd ht))
  · have hlog' : d ∉ s'.log := hinv'.not_mem_log ht
    exact Shows.congr (iff_of_false hlog' (hinv.not_mem_log ht)) fun hmem => absurd hmem hlog'

end Grows

/-! ### Dependencies of one target -/

section Visits

variable {fs : Files} {c : Clock fs} {rank : Name → ℕ}

theorem mem_edges_enter (n d : Name) (w : Walk) (m x : Name) :
    (m, x) ∈ (w.enter n d).edges ↔ (m, x) ∈ w.edges ∨ d ∉ w.seen ∧ m = n ∧ x = d := by
  rw [Walk.enter]
  by_cases hd : d ∈ w.seen
  · rw [if_pos hd]
    exact ⟨Or.inl, fun h => h.elim id fun h => absurd hd h.1⟩
  · rw [if_neg hd, List.mem_cons, Prod.mk.injEq]
    exact ⟨fun h => h.elim (fun h => Or.inr ⟨hd, h⟩) Or.inl,
      fun h => h.elim Or.inr fun h => Or.inl h.2⟩

theorem seen_enter (n d : Name) (w : Walk) : (w.enter n d).seen = w.seen := by
  rw [Walk.enter]
  split_ifs <;> rfl

/-- A visit from a target that did not run. -/
theorem Inv.enter {s : Run} {w : Walk} (h : Inv b fs c.stamp s w) {n : Name} (hn : n ∉ s.runlist)
    (d : Name) : Inv b fs c.stamp s (w.enter n d) where
  seen := (seen_enter n d w).trans h.seen
  logged := h.logged
  closed := h.closed
  once := h.once
  after := h.after
  written := h.written
  kept := h.kept
  decided m hm := by
    obtain ⟨t, ht, hiff⟩ := h.decided m hm
    refine ⟨t, ht, hiff.trans (Evident.congr fun x _ => Shows.congr Iff.rfl fun _ => ?_)⟩
    rw [mem_edges_enter]
    exact ⟨Or.inl, fun h => h.elim id fun h => absurd (h.2.1 ▸ hm) hn⟩

theorem Grows.enter {s : Run} {w : Walk} (h : Inv b fs c.stamp s w) (n d : Name) :
    Grows rank (rank n) (· = n) s w s (w.enter n d) where
  runlist _ hm := hm
  below _ hm := Or.inl hm
  log _ _ := Iff.rfl
  edges m x hx := by
    rw [mem_edges_enter]
    refine ⟨fun hmem => hmem.elim id ?_, Or.inl⟩
    rintro ⟨hd, rfl, rfl⟩
    rw [h.seen] at hd
    exact hx.elim (absurd · hd) fun hm => absurd rfl hm.2
  parents m x hmem := ((mem_edges_enter n d w m x).mp hmem).imp_right fun h => Or.inr h.2.1

/-- What a visit of a target does, from every state in which the parents of first visits have run or
are above it. -/
def VisitSpec (b : Builder) (c : Clock fs) (rank : Name → ℕ) (k : ℕ) (n : Name) (t : Target) :
    Prop :=
  ∀ s w, Inv b fs c.stamp s w → (∀ m d, (m, d) ∈ w.edges → m ∈ s.runlist ∨ rank n < rank m) →
    ∃ res s' w', b.build c.stamp k n t s = some (res, s') ∧ b.walk k n t w = some w' ∧
      Inv b fs c.stamp s' w' ∧ Grows rank (rank n + 1) (fun _ => False) s w s' w' ∧
      n ∈ s'.runlist ∧ (res = true ↔ n ∉ s.runlist ∧ n ∈ s'.log)

/-- The decision of `n` behind a dependency that is a target. -/
theorem docmdTarget_iff {s : Run} {w : Walk} (h : Inv b fs c.stamp s w) {n d : Name}
    (hn : n ∉ s.log) (hd : (b.tlist d).isSome) (docmd res : Bool) :
    docmdTarget s.files n d docmd res = true ↔ docmd = true ∨ res = true ∨
      b.NewerThan fs d n ∨ d ∈ s.log ∧ isPhony d = false ∧ isPhony n = false := by
  have hne : b.tlist d ≠ none := Option.isSome_iff_ne_none.mp hd
  rw [docmdTarget, NewerThan]
  cases hpd : isPhony d <;> cases hpn : isPhony n
  · have := h.newer hn hpd
    simp [hne, this, or_assoc]
  · simp [hne]
  · simp [hne]
  · simp [hne]

/-- The decision of `n` behind a dependency that is only a file. -/
theorem fbuilderBuild_iff {s : Run} {w : Walk} (h : Inv b fs c.stamp s w) {n d : Name}
    (hn : n ∉ s.log) (hd : b.tlist d = none) :
    fbuilderBuild s.files n d = true ↔ b.NewerThan fs d n := by
  have hlog : d ∉ s.log := h.not_mem_log (hd ▸ Bool.false_ne_true)
  have hkept (m : Name) (hm : m ∉ s.log) : getFtime s.files m = getFtime fs m := by
    rw [getFtime, getFtime, h.kept m hm]
  rw [fbuilderBuild, NewerThan, hkept n hn, hkept d hlog]
  cases isPhony n <;> simp [hd]

/-- The decision of `n` after a visit of the target `d`, from what `n` had seen before. -/
theorem docmdTarget_visit {n d : Name} {s s' : Run} {w w' : Walk} {docmd res : Bool}
    (h : Inv b fs c.stamp s w) (h' : Inv b fs c.stamp s' w') (hn : n ∉ s'.log)
    (hd : (b.tlist d).isSome) (hrank : rank d < rank n)
    (hgrows : Grows rank (rank d + 1) (fun _ => False) s (w.enter n d) s' w')
    (hres : res = true ↔ d ∉ s.runlist ∧ d ∈ s'.log)
    (hown : (n, d) ∈ w.edges → d ∈ s.runlist ∧ (d ∈ s.log → docmd = true)) :
    docmdTarget s'.files n d docmd res = true ↔
      docmd = true ∨ b.Shows fs (· ∈ s'.log) (fun d => (n, d) ∈ w'.edges) n d := by
  have hedge : (n, d) ∈ w'.edges ↔ (n, d) ∈ w.edges ∨ d ∉ s.runlist := by
    rw [hgrows.edges n d (Or.inr ⟨hrank, id⟩), mem_edges_enter, h.seen]
    simp
  rw [docmdTarget_iff h' hn hd, hres, Shows, hedge]
  constructor
  · rintro (hdoc | ⟨hnew, hlog⟩ | hnewer | ⟨hlog, hfiles⟩)
    · exact Or.inl hdoc
    · exact Or.inr (Or.inr ⟨hlog, Or.inr (Or.inr hnew)⟩)
    · exact Or.inr (Or.inl hnewer)
    · exact Or.inr (Or.inr ⟨hlog, Or.inl hfiles⟩)
  · rintro (hdoc | hnewer | ⟨hlog, hfiles | hold | hnew⟩)
    · exact Or.inl hdoc
    · exact Or.inr (Or.inr (Or.inl hnewer))
    · exact Or.inr (Or.inr (Or.inr ⟨hlog, hfiles⟩))
    · -- `d` occurs twice in the dependencies of `n`
      obtain ⟨hran, hdoc⟩ := hown hold
      exact Or.inl (hdoc ((hgrows.log d hran).mp hlog))
    · exact Or.inr (Or.inl ⟨hnew, hlog⟩)

/-- The dependencies of a target that did not run, from the decision `docmd` on. -/
theorem deprunner_spec {k : ℕ} {n : Name} (ds : List Name)
    (hvisit : ∀ d ∈ ds, ∀ t, b.tlist d = some t → rank d < rank n ∧ VisitSpec b c rank k d t)
    {docmd : Bool} {s : Run} {w : Walk} (h : Inv b fs c.stamp s w) (hn : n ∉ s.runlist)
    (hparents : ∀ m d, (m, d) ∈ w.edges → m ∈ s.runlist ∨ rank n ≤ rank m)
    (hown : ∀ d, (n, d) ∈ w.edges → d ∈ s.runlist ∧ (d ∈ s.log → docmd = true)) :
    ∃ docmd' s' w', b.deprunner (b.build c.stamp k) n ds docmd s = some (docmd', s') ∧
      b.walkDeps (b.walk k) n ds w = some w' ∧ Inv b fs c.stamp s' w' ∧
      Grows rank (rank n) (· = n) s w s' w' ∧
      (∀ d ∈ ds, (b.tlist d).isSome → d ∈ s'.runlist) ∧
      (docmd' = true ↔ docmd = true ∨
        ∃ d ∈ ds, b.Shows fs (· ∈ s'.log) (fun d => (n, d) ∈ w'.edges) n d) := by
  induction ds generalizing docmd s w with
  | nil => exact ⟨docmd, s, w, rfl, rfl, h, .refl s w, nofun, by simp⟩
  | cons d ds ih =>
    have hvisit' := fun d' hd' => hvisit d' (List.mem_cons_of_mem d hd')
    have hnlog : n ∉ s.log := fun hmem => hn (h.logged n hmem)
    cases hd : b.tlist d with
    | none =>
      have hsome : (b.tlist d).isSome → d ∈ s.runlist := by
        rw [hd]
        nofun
      have hown' : ∀ x, (n, x) ∈ w.edges → x ∈ s.runlist ∧
          (x ∈ s.log → (docmd || fbuilderBuild s.files n d) = true) := fun x hx =>
        ⟨(hown x hx).1, fun hlog => by rw [(hown x hx).2 hlog, Bool.true_or]⟩
      obtain ⟨docmd', s', w', hrun, hwalk, hinv, hgrows, hran, hiff⟩ :=
        ih hvisit' h hn hparents hown'
      refine ⟨docmd', s', w', ?_, ?_, hinv, hgrows, ?_, ?_⟩
      · rw [deprunner_file _ n hd, hrun]
      · rw [walkDeps_file _ n hd, hwalk]
      · rintro x (_ | ⟨_, hx⟩) hx'
        · exact hgrows.runlist d (hsome hx')
        · exact hran x hx hx'
      · have hlog : d ∉ s'.log := hinv.not_mem_log (hd ▸ Bool.false_ne_true)
        have hshows : b.Shows fs (· ∈ s'.log) (fun d => (n, d) ∈ w'.edges) n d ↔
            b.NewerThan fs d n := or_iff_left fun hmem => hlog hmem.1
        rw [hiff, Bool.or_eq_true, fbuilderBuild_iff h hnlog hd, List.exists_mem_cons_iff, hshows,
          or_assoc]
    | some t =>
      obtain ⟨hrank, hspec⟩ := hvisit d List.mem_cons_self t hd
      have hsome : (b.tlist d).isSome := by rw [hd]; rfl
      -- the visit of `d`
      have hparents₁ : ∀ m x, (m, x) ∈ (w.enter n d).edges → m ∈ s.runlist ∨ rank d < rank m := by
        intro m x hmem
        rcases (mem_edges_enter n d w m x).mp hmem with hmem | ⟨-, rfl, -⟩
        · exact (hparents m x hmem).imp_right (Nat.lt_of_lt_of_le hrank)
        · exact Or.inr hrank
      obtain ⟨res, s₁, w₁, hbuild, hwalk₁, hinv₁, hgrows₁, hran₁, hres⟩ :=
        hspec s (w.enter n d) (h.enter hn d) hparents₁
      have hgrows₁' : Grows rank (rank n) (· = n) s w s₁ w₁ :=
        (Grows.enter h n d).trans (hgrows₁.mono hrank nofun)
      have hn₁ : n ∉ s₁.runlist := fun hmem =>
        (hgrows₁'.below n hmem).elim hn (Nat.lt_irrefl _)
      have hnlog₁ : n ∉ s₁.log := fun hmem => hn₁ (hinv₁.logged n hmem)
      have hdocmd := docmdTarget_visit h hinv₁ hnlog₁ hsome hrank hgrows₁ hres (hown d)
      have hown₁ : ∀ x, (n, x) ∈ w₁.edges →
          x ∈ s₁.runlist ∧ (x ∈ s₁.log → docmdTarget s₁.files n d docmd res = true) := by
        intro x hx
        have hx' := hx
        rw [hgrows₁.edges n x (Or.inr ⟨hrank, id⟩), mem_edges_enter] at hx'
        rcases hx' with hold | ⟨-, -, rfl⟩
        · have hran := (hown x hold).1
          exact ⟨hgrows₁.runlist x hran, fun hlog =>
            hdocmd.mpr (Or.inl ((hown x hold).2 ((hgrows₁.log x hran).mp hlog)))⟩
        · exact ⟨hran₁, fun hlog => hdocmd.mpr (Or.inr (Or.inr ⟨hlog, Or.inr hx⟩))⟩
      have hparents₂ : ∀ m x, (m, x) ∈ w₁.edges → m ∈ s₁.runlist ∨ rank n ≤ rank m := by
        intro m x hmem
        rcases hgrows₁'.parents m x hmem with hmem | hm | rfl
        · exact (hparents m x hmem).imp_left (hgrows₁'.runlist m)
        · exact Or.inl hm
        · exact Or.inr (Nat.le_refl _)
      obtain ⟨docmd', s', w', hrun, hwalk, hinv, hgrows, hran, hiff⟩ :=
        ih hvisit' hinv₁ hn₁ hparents₂ hown₁
      refine ⟨docmd', s', w', ?_, ?_, hinv, hgrows₁'.trans hgrows, ?_, ?_⟩
      · rw [deprunner_target _ n hd, hbuild]
        exact hrun
      · rw [walkDeps_target _ n hd, hwalk₁]
        exact hwalk
      · rintro x (_ | ⟨_, hx⟩) hx'
        · exact hgrows.runlist d hran₁
        · exact hran x hx hx'
      · rw [hiff, hdocmd, List.exists_mem_cons_iff, hgrows.shows_iff hinv₁ hinv fun _ => hran₁,
          or_assoc]

/-! ### One target -/

theorem execute_log (stamp : ℕ → ℕ) (n : Name) (s : Run) :
    (s.execute stamp n).log = n :: s.log := by
  rw [Run.execute]
  split_ifs <;> rfl

theorem execute_runlist (stamp : ℕ → ℕ) (n : Name) (s : Run) :
    (s.execute stamp n).runlist = s.runlist := by
  rw [Run.execute]
  split_ifs <;> rfl

theorem execute_files_of_ne (stamp : ℕ → ℕ) {m n : Name} (h : m ≠ n) (s : Run) :
    (s.execute stamp n).files m = s.files m := by
  rw [Run.execute]
  split_ifs
  · rfl
  · exact Function.update_of_ne h _ _

theorem written_le_execute (stamp : ℕ → ℕ) (n : Name) (s : Run) :
    s.written ≤ (s.execute stamp n).written := by
  rw [Run.execute]
  split_ifs
  · exact Nat.le_refl _
  · exact Nat.le_succ _

theorem execute_files_self (stamp : ℕ → ℕ) {n : Name} (h : isPhony n = false) (s : Run) :
    ∃ j < (s.execute stamp n).written, (s.execute stamp n).files n = some (stamp j) := by
  have hne : ¬ isPhony n = true := by rw [h]; nofun
  rw [Run.execute, if_neg hne]
  exact ⟨s.written, Nat.lt_succ_self _, Function.update_self _ _ _⟩

/-- What holds before a target that did not run is marked, with its command executed or not. -/
structure Ends (b : Builder) (fs : Files) (stamp : ℕ → ℕ) (n : Name) (e : Bool) (s s' : Run) :
    Prop where
  runlist : s'.runlist = s.runlist
  log : s'.log = if e then n :: s.log else s.log
  once : s'.log.Nodup
  after : s'.log.Pairwise fun later earlier => ¬ Relation.TransGen b.Dependency earlier later
  written : ∀ m ∈ s'.log, isPhony m = false → ∃ j < s'.written, s'.files m = some (stamp j)
  kept : ∀ m, m ∉ s'.log → s'.files m = fs m

/-- The command of a target whose dependencies ran. -/
theorem Inv.execute {s : Run} {w : Walk} (h : Inv b fs c.stamp s w) {n : Name}
    (ht : (b.tlist n).isSome) (hn : n ∉ s.runlist) :
    Ends b fs c.stamp n true s (s.execute c.stamp n) := by
  have hnlog : n ∉ s.log := fun hmem => hn (h.logged n hmem)
  have hlog := execute_log c.stamp n s
  refine ⟨execute_runlist c.stamp n s, hlog, ?_, ?_, ?_, ?_⟩ <;> rw [hlog]
  · exact List.nodup_cons.mpr ⟨hnlog, h.once⟩
  · refine List.pairwise_cons.mpr ⟨fun m hm hmn => ?_, h.after⟩
    exact hn (h.mem_of_transGen (h.logged m hm) hmn ht)
  · rintro m hm hreal
    rcases List.mem_cons.mp hm with rfl | hm
    · exact execute_files_self c.stamp hreal s
    · obtain ⟨j, hj, hfile⟩ := h.written m hm hreal
      have hne : m ≠ n := fun heq => hnlog (heq ▸ hm)
      exact ⟨j, Nat.lt_of_lt_of_le hj (written_le_execute c.stamp n s),
        (execute_files_of_ne c.stamp hne s).trans hfile⟩
  · intro m hm
    rw [List.mem_cons, not_or] at hm
    exact (execute_files_of_ne c.stamp hm.1 s).trans (h.kept m hm.2)

theorem Ends.mem_log {n : Name} {e : Bool} {s s' : Run} (h : Ends b fs c.stamp n e s s')
    {m : Name} :
    m ∈ s'.log ↔ m ∈ s.log ∨ e = true ∧ m = n := by
  rw [h.log]
  cases e with
  | true => simp [or_comm]
  | false => simp

/-- The end of a target. -/
theorem Ends.inv {n : Name} {t : Target} {e : Bool} {s s' : Run} {w : Walk}
    (h : Ends b fs c.stamp n e s s') (hinv : Inv b fs c.stamp s w) (ht : b.tlist n = some t)
    (hn : n ∉ s.runlist) (hdep : ∀ d ∈ t.dep, (b.tlist d).isSome → d ∈ s.runlist)
    (he : e = true ↔ b.Evident fs (· ∈ s.log) (fun d => (n, d) ∈ w.edges) n t) :
    Inv b fs c.stamp { s' with runlist := n :: s'.runlist } { w with seen := n :: w.seen } where
  seen := congrArg (n :: ·) (hinv.seen.trans h.runlist.symm)
  logged m hm := by
    rcases h.mem_log.mp hm with hm | ⟨-, rfl⟩
    · exact List.mem_cons_of_mem n (h.runlist ▸ hinv.logged m hm)
    · exact List.mem_cons_self
  closed m hm d hd hsome := by
    refine List.mem_cons_of_mem n (h.runlist ▸ ?_)
    rcases List.mem_cons.mp hm with rfl | hm
    · obtain ⟨t', ht', hd⟩ := hd
      obtain rfl := Option.some.inj (ht.symm.trans ht')
      exact hdep d hd hsome
    · exact hinv.closed m (h.runlist ▸ hm) d hd hsome
  once := h.once
  after := h.after
  written := h.written
  kept := h.kept
  decided m hm := by
    -- no target that ran depends on `n`
    have hstable (m : Name) {d : Name} (hd : (b.tlist d).isSome → d ∈ s.runlist) :
        b.Shows fs (· ∈ s'.log) (fun d => (m, d) ∈ w.edges) m d ↔
          b.Shows fs (· ∈ s.log) (fun d => (m, d) ∈ w.edges) m d := by
      refine Shows.congr (h.mem_log.trans (or_iff_left ?_)) fun _ => Iff.rfl
      rintro ⟨-, rfl⟩
      exact hn (hd (by rw [ht]; rfl))
    rcases List.mem_cons.mp hm with rfl | hran
    · refine ⟨t, ht, ?_⟩
      rw [Evident.congr fun d hd => hstable m (hdep d hd), ← he]
      refine h.mem_log.trans ⟨fun h => h.elim (fun hmem => absurd (hinv.logged m hmem) hn) And.left,
        fun he => Or.inr ⟨he, rfl⟩⟩
    · rw [h.runlist] at hran
      obtain ⟨t', ht', hiff⟩ := hinv.decided m hran
      refine ⟨t', ht', ?_⟩
      rw [Evident.congr fun d hd => hstable m (hinv.closed m hran d ⟨t', ht', hd⟩), ← hiff]
      refine h.mem_log.trans (or_iff_left ?_)
      rintro ⟨-, rfl⟩
      exact hn hran

theorem Ends.grows {n : Name} {e : Bool} {s s' : Run} {w : Walk} (h : Ends b fs c.stamp n e s s')
    (hn : n ∉ s.runlist) :
    Grows rank (rank n + 1) (fun _ => False) s w { s' with runlist := n :: s'.runlist }
      { w with seen := n :: w.seen } where
  runlist m hm := List.mem_cons_of_mem n (h.runlist ▸ hm)
  below m hm := by
    rcases List.mem_cons.mp hm with rfl | hm
    · exact Or.inr (Nat.lt_succ_self _)
    · exact Or.inl (h.runlist ▸ hm)
  log m hm := by
    refine h.mem_log.trans (or_iff_left ?_)
    rintro ⟨-, rfl⟩
    exact hn hm
  edges _ _ _ := Iff.rfl
  parents _ _ hmem := Or.inl hmem

/-! ### All targets -/

/-- What `n` asks for by itself, while it did not run. -/
theorem forced_iff {s : Run} {w : Walk} (h : Inv b fs c.stamp s w) {n : Name} (hn : n ∉ s.runlist)
    (t : Target) :
    b.Forced fs n t ↔ ((!isPhony n && (s.files n).isNone) || b.globalForceRebuild) = true ∨
      t.forceRebuild = true := by
  have hkept := h.kept n fun hmem => hn (h.logged n hmem)
  simp [Forced, Target.forceRebuild, hkept, or_assoc]

/-- **A visit of a target.** -/
theorem build_spec (hrank : ∀ n t d, b.tlist n = some t → d ∈ t.dep → (b.tlist d).isSome →
    rank d < rank n) {k : ℕ} {n : Name} {t : Target} (ht : b.tlist n = some t)
    (hk : rank n < k) : VisitSpec b c rank k n t := by
  induction k generalizing n t with
  | zero => exact absurd hk (Nat.not_lt_zero _)
  | succ k ih =>
    intro s w h hparents
    rw [build, walk, h.seen]
    by_cases hn : n ∈ s.runlist
    · rw [if_pos hn, if_pos hn]
      exact ⟨false, s, w, rfl, rfl, h, .refl s w, hn, by simp [hn]⟩
    · rw [if_neg hn, if_neg hn]
      have hvisit : ∀ d ∈ t.dep, ∀ t', b.tlist d = some t' →
          rank d < rank n ∧ VisitSpec b c rank k d t' := by
        intro d hd t' ht'
        have hlt := hrank n t d ht hd (by rw [ht']; rfl)
        exact ⟨hlt, ih ht' (by omega)⟩
      have hparents' : ∀ m d, (m, d) ∈ w.edges → m ∈ s.runlist ∨ rank n ≤ rank m :=
        fun m d hmem => (hparents m d hmem).imp_right Nat.le_of_lt
      have hown : ∀ d, (n, d) ∈ w.edges → d ∈ s.runlist ∧ (d ∈ s.log →
          ((!isPhony n && (s.files n).isNone) || b.globalForceRebuild) = true) := fun d hmem =>
        absurd (hparents n d hmem) (not_or.mpr ⟨hn, Nat.lt_irrefl _⟩)
      obtain ⟨docmd, s₁, w₁, hrun, hwalk, hinv, hgrows, hdep, hdocmd⟩ :=
        deprunner_spec t.dep hvisit h hn hparents' hown
      have hn₁ : n ∉ s₁.runlist := fun hmem =>
        (hgrows.below n hmem).elim hn (Nat.lt_irrefl _)
      -- the decision
      have he : (docmd || t.forceRebuild) = true ↔
          b.Evident fs (· ∈ s₁.log) (fun d => (n, d) ∈ w₁.edges) n t := by
        rw [Bool.or_eq_true, hdocmd, Evident, forced_iff h hn]
        exact or_right_comm
      have hends : Ends b fs c.stamp n (docmd || t.forceRebuild) s₁
          (if docmd || t.forceRebuild then s₁.execute c.stamp n else s₁) := by
        cases docmd || t.forceRebuild with
        | true => exact hinv.execute (by rw [ht]; rfl) hn₁
        | false => exact ⟨rfl, rfl, hinv.once, hinv.after, hinv.written, hinv.kept⟩
      have hrun' : ((b.deprunner (b.build c.stamp k) n t.dep
          ((!isPhony n && (s.files n).isNone) || b.globalForceRebuild) s).bind fun r =>
            some (finish c.stamp n t r.1 r.2)) = some (finish c.stamp n t docmd s₁) := by
        rw [hrun]
        rfl
      have hwalk' : (b.walkDeps (b.walk k) n t.dep w).map
          (fun w => { w with seen := n :: w.seen }) = some { w₁ with seen := n :: w₁.seen } := by
        rw [hwalk]
        rfl
      refine ⟨_, _, _, hrun', hwalk', hends.inv hinv ht hn₁ hdep he,
        hgrows.ran (hends.grows hn₁) List.mem_cons_self, List.mem_cons_self, ?_⟩
      have hnlog₁ : n ∉ s₁.log := fun hmem => hn₁ (hinv.logged n hmem)
      exact ⟨fun h => ⟨hn, hends.mem_log.mpr (Or.inr ⟨h, rfl⟩)⟩,
        fun h => (hends.mem_log.mp h.2).elim (absurd · hnlog₁) And.left⟩

end Visits

/-! ### The goal -/

section Goal

variable {fs : Files} {c : Clock fs} {goal : Name}

/-- The depth makes no difference to a build that ends. -/
theorem buildGoal_unique {stamp : ℕ → ℕ} {k k' : ℕ} {s s' : Run}
    (h : b.buildGoal stamp k fs goal = some s) (h' : b.buildGoal stamp k' fs goal = some s') :
    s = s' := by
  rw [buildGoal] at h h'
  cases ht : b.tlist goal with
  | none =>
    rw [ht] at h h'
    exact Option.some.inj (h.symm.trans h')
  | some t =>
    rw [ht] at h h'
    obtain ⟨r, hr, rfl⟩ := Option.map_eq_some_iff.mp h
    obtain ⟨r', hr', rfl⟩ := Option.map_eq_some_iff.mp h'
    have hmax := build_mono (Nat.le_max_left k k') hr
    have hmax' := build_mono (Nat.le_max_right k k') hr'
    exact congrArg Prod.snd (Option.some.inj (hmax.symm.trans hmax'))

theorem firstVisit_iff {k : ℕ} {t : Target} {w : Walk} (ht : b.tlist goal = some t)
    (hw : b.walk k goal t {} = some w) (n d : Name) :
    b.FirstVisit goal n d ↔ (n, d) ∈ w.edges := by
  constructor
  · rintro ⟨k', t', w', ht', hw', hmem⟩
    obtain rfl := Option.some.inj (ht.symm.trans ht')
    have hmax := walk_mono (Nat.le_max_left k k') hw
    have hmax' := walk_mono (Nat.le_max_right k k') hw'
    rwa [Option.some.inj (hmax.symm.trans hmax')]
  · exact fun hmem => ⟨k, t, w, ht, hw, hmem⟩

/-- What holds when a build has ended. -/
structure Ended (b : Builder) (fs : Files) (goal : Name) (s : Run) : Prop where
  once : s.log.Nodup
  after : s.log.Pairwise fun later earlier => ¬ Relation.TransGen b.Dependency earlier later
  target : ∀ n ∈ s.log, (b.tlist n).isSome
  evident : ∀ n t, Relation.ReflTransGen b.Dependency goal n → b.tlist n = some t →
    (n ∈ s.log ↔ b.Evident fs (· ∈ s.log) (b.FirstVisit goal n) n t)

/-- **What a build executes.** Every build ends, and executes the targets that see a reason. -/
theorem executed_iff_evident (b : Builder) (c : Clock fs) (goal : Name) :
    ∃ k s, b.buildGoal c.stamp k fs goal = some s ∧ Ended b fs goal s := by
  obtain ⟨rank, hrank⟩ := b.acyclic
  cases ht : b.tlist goal with
  | none =>
    refine ⟨0, { files := fs }, by rw [buildGoal, ht], .nil, .nil, nofun, fun n t hn ht' => ?_⟩
    -- nothing is reached from a goal that is no target
    rcases Relation.ReflTransGen.cases_head hn with rfl | ⟨d, ⟨t', ht'', -⟩, -⟩
    · cases ht.symm.trans ht'
    · cases ht.symm.trans ht''
  | some t =>
    obtain ⟨res, s, w, hbuild, hwalk, hinv, -, hran, -⟩ := build_spec (c := c) hrank ht
      (Nat.lt_succ_self (rank goal)) { files := fs } {} (inv_init b fs c.stamp) nofun
    refine ⟨rank goal + 1, s, ?_, hinv.once, hinv.after,
      fun n hn => hinv.target (hinv.logged n hn), fun n t' hn ht' => ?_⟩
    · rw [buildGoal, ht]
      exact Option.map_eq_some_iff.mpr ⟨_, hbuild, rfl⟩
    · have hmem : n ∈ s.runlist := by
        rcases Relation.reflTransGen_iff_eq_or_transGen.mp hn with rfl | hn
        · exact hran
        · exact hinv.mem_of_transGen hran hn (by rw [ht']; rfl)
      obtain ⟨t'', ht'', hiff⟩ := hinv.decided n hmem
      obtain rfl := Option.some.inj (ht'.symm.trans ht'')
      refine hiff.trans (Evident.congr fun d _ => Shows.congr Iff.rfl fun _ => ?_)
      exact (firstVisit_iff ht hwalk n d).symm

theorem Due.target {n : Name} (h : b.Due fs n) : (b.tlist n).isSome := by
  cases h with
  | forced ht h => rw [ht]; rfl
  | newer hd h => exact hd.target
  | dep hd h => exact hd.target

theorem Through.reachable {n d : Name} (h : b.Through n d) :
    Relation.ReflTransGen b.Dependency n d := by
  induction h with
  | direct h => exact .single h
  | phony h _ _ ih => exact .head h ih

theorem Through.rank_lt {rank : Name → ℕ} (hrank : ∀ n t d, b.tlist n = some t → d ∈ t.dep →
    (b.tlist d).isSome → rank d < rank n) {n d : Name} (h : b.Through n d)
    (hd : (b.tlist d).isSome) : rank d < rank n := by
  induction h with
  | direct h =>
    obtain ⟨t, ht, hmem⟩ := h
    exact hrank _ t _ ht hmem hd
  | phony h _ hp ih =>
    obtain ⟨t, ht, hmem⟩ := h
    exact Nat.lt_trans (ih hd) (hrank _ t _ ht hmem hp.target)

/-- Two sets of targets that a condition on the targets behind them determines are the same among
the targets that the goal reaches. -/
theorem reachable_induction {p q : Name → Prop} (hp : ∀ n, p n → (b.tlist n).isSome)
    (hq : ∀ n, q n → (b.tlist n).isSome)
    (h : ∀ n t, Relation.ReflTransGen b.Dependency goal n → b.tlist n = some t →
      (∀ d, b.Through n d → (p d ↔ q d)) → (p n ↔ q n)) {n : Name}
    (hn : Relation.ReflTransGen b.Dependency goal n) : p n ↔ q n := by
  obtain ⟨rank, hrank⟩ := b.acyclic
  induction hr : rank n using Nat.strongRecOn generalizing n with
  | ind r ih =>
    cases ht : b.tlist n with
    | none =>
      have hnone : ¬ (b.tlist n).isSome := by rw [ht]; nofun
      exact iff_of_false (fun h => hnone (hp n h)) fun h => hnone (hq n h)
    | some t =>
      refine h n t hn ht fun d hd => ?_
      by_cases hsome : (b.tlist d).isSome
      · exact ih (rank d) (hr ▸ hd.rank_lt hrank hsome) (hn.trans hd.reachable) rfl
      · exact iff_of_false (fun h => hsome (hp d h)) fun h => hsome (hq d h)

/-- Two targets behind one phony target, which depends on a file. -/
def sharedTable : List (Name × Target) :=
  [(['g'], { dep := [['a'], ['b']] }), (['a'], { dep := ["#phony:p".toList] }),
    (['b'], { dep := ["#phony:p".toList] }), ("#phony:p".toList, { dep := [['f']] })]

def sharedPhony : Builder where
  tlist n := sharedTable.lookup n
  acyclic := by
    have hrank : ∀ p ∈ sharedTable, ∀ d ∈ p.2.dep, (sharedTable.lookup d).isSome →
        4 - (sharedTable.map Prod.fst).idxOf d < 4 - (sharedTable.map Prod.fst).idxOf p.1 := by
      decide
    refine ⟨fun n => 4 - (sharedTable.map Prod.fst).idxOf n, fun n t d ht hd hs => ?_⟩
    obtain ⟨l₁, l₂, hl, -⟩ := List.lookup_eq_some_iff.mp ht
    exact hrank (n, t) (hl ▸ List.mem_append_right l₁ List.mem_cons_self) d hd hs

/-- The file is newer than both targets. -/
def sharedFiles : Files := fun n =>
  if n = ['f'] then some 2 else if n = ['a'] ∨ n = ['b'] then some 1 else none

def sharedClock : Clock sharedFiles where
  stamp k := k + 3
  later i j h := Nat.add_lt_add_right h 3
  newer n t h := by
    rw [sharedFiles] at h
    split_ifs at h <;> cases h <;> decide

end Goal

end Builder

end ELuaBrain.Build
