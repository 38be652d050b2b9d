import ELuaBrain.Lua.Collector
import ELuaBrain.System.Reach
import Mathlib.Algebra.Order.Ring.Nat
import Mathlib.Data.List.GetD

/-!
# The memory limit

`l_check_memlimit` and the requests for memory that go through it. The room that a request needs is
taken from the limit in a word without a sign, so that a request for more than the limit passes the
test.

## Main definitions

* `lCheckMemlimit`, `request` : a request for memory.
* `Event`, `Global.step` : what a program does.
* `LimitKept` : the limit and the accounting of memory.
* `Guard` : what the requests have to avoid.

## Main results

* `request_spec` : one request.
* `limitKept_of_reach` : every run after `legc_set_mode`.
-/

namespace ELuaBrain.Lua

/-! ### The test with its collection -/

theorem moreSteps_work (lim : ℤ) (g : Global) :
    (moreSteps lim g).2.work = g.work ∨
      Prod.Lex (· < ·) (· < ·) (moreSteps lim g).2.work g.work := by
  induction lim, g using moreSteps.induct with
  | case1 lim g h => rw [moreSteps, if_pos h]; exact Or.inl rfl
  | case2 lim g h hlim r hok ih =>
    have hstep := singlestep_lex h
    rw [moreSteps, if_neg h, if_pos hlim]
    simp only [show (singlestep g).ok = true from hok, if_true]
    refine Or.inr ?_
    have hrest : (moreSteps (lim - (singlestep g).cost) (singlestep g).g).2.work =
        (singlestep g).g.work ∨ Prod.Lex (· < ·) (· < ·)
          (moreSteps (lim - (singlestep g).cost) (singlestep g).g).2.work
          (singlestep g).g.work := ih
    rcases hrest with heq | hlt
    · rw [heq]
      exact hstep
    · rw [Prod.lex_def] at hlt hstep ⊢
      omega
  | case3 lim g h hlim r hok =>
    rw [moreSteps, if_neg h, if_pos hlim]
    rw [if_neg hok]
    exact Or.inr (singlestep_lex h)
  | case4 lim g h hlim => rw [moreSteps, if_neg h, if_neg hlim]; exact Or.inl rfl

/-- `luaC_step` comes nearer to the end of a collection under way. -/
theorem stepUnblocked_lex {g : Global} (h : g.gcstate ≠ .pause) :
    Prod.Lex (· < ·) (· < ·) (stepUnblocked g).2.work g.work := by
  have hstep : Prod.Lex (· < ·) (· < ·) (singlestep { g with blockGc := true }).g.work g.work :=
    singlestep_lex (g := { g with blockGc := true }) h
  have hmore := moreSteps_work (g.stepLimit - (singlestep { g with blockGc := true }).cost)
    (singlestep { g with blockGc := true }).g
  rw [stepUnblocked, andThen]
  by_cases hok : (singlestep { g with blockGc := true }).ok
  · simp only [if_pos hok]
    have hwork (a : Bool × Global) : (if a.1 then (true, { a.2 with blockGc := false }) else a).2.work =
        a.2.work := by
      split_ifs <;> rfl
    rw [hwork]
    rcases hmore with heq | hlt
    · rw [heq]
      exact hstep
    · rw [Prod.lex_def] at hlt hstep ⊢
      omega
  · simp only [if_neg hok]
    exact hstep

/-- The loop of `l_check_memlimit`; `luaC_step` is not blocked in it. -/
def checkLoop (limit : ℕ) (cycleCount : ℕ) (g : Global) : Bool × Global :=
  if limit ≤ g.totalbytes then
    if g.gcstate = .pause ∧ 1 < cycleCount + 1 then (true, g)
    else
      let r := stepUnblocked g
      if r.1 then checkLoop limit (if g.gcstate = .pause then cycleCount + 1 else cycleCount) r.2
      else r
  else (true, g)
termination_by (2 - cycleCount, g.work)
decreasing_by
  rename_i hbreak _
  by_cases hpause : g.gcstate = .pause
  · -- a new collection is started once
    have : ¬ 1 < cycleCount + 1 := fun h => hbreak ⟨hpause, h⟩
    rw [dif_pos hpause]
    exact Prod.Lex.left _ _ (by omega)
  · rw [dif_neg hpause]
    exact Prod.Lex.right _ (stepUnblocked_lex hpause)

/-- `l_check_memlimit`; the result tells whether there is room, and no error. -/
def lCheckMemlimit (needbytes : UInt32) (g : Global) : Bool × Global :=
  andThen (callIf (g.blockGc = false) (checkLoop (g.memlimit - needbytes).toNat 0) g)
    (testLimit needbytes)

/-- `luaM_realloc_`. -/
def request : Block → Request → Global → Bool × Global := luaMRealloc luaCFullgc lCheckMemlimit

/-! ### What the collector leaves as it was -/

/-- Every byte is in a block of the program, in one of a finalizer, or garbage. -/
def Global.Accounted (g : Global) : Prop := g.totalbytes = g.live.sum + g.own + g.garbage

/-- The limit is in force. -/
def Global.Limited (g : Global) : Prop :=
  0 < g.memlimit ∧ g.egcmode.testBit egcOnMemLimit = true

/-- The memory in use is and was within the limit. -/
structure Global.Below (g : Global) : Prop where
  total : g.totalbytes ≤ g.memlimit.toNat
  peak : g.peak ≤ g.memlimit.toNat

/-- A block grows by no more than the limit. -/
def Fits (g : Global) (osize : ℕ) (r : Request) : Prop :=
  r.nsize.toNat ≤ osize + g.memlimit.toNat

/-- What finalizers ask for is no more than the limit. -/
def Global.FinalizersFit (g : Global) : Prop :=
  ∀ k, ∀ p ∈ (g.future k).finalizer, Fits g p.1 p.2

/-- Finalizers do not ask for memory. -/
def Global.FinalizersShrink (g : Global) : Prop :=
  ∀ k, ∀ p ∈ (g.future k).finalizer, p.2.nsize.toNat ≤ p.1

/-- What a run of the collector does, where its finalizers ask for no more than `fits` and `shrink`
say. -/
structure Frame (fits shrink : Prop) (g g' : Global) : Prop where
  live : g'.live = g.live
  memlimit : g'.memlimit = g.memlimit
  egcmode : g'.egcmode = g.egcmode
  future : ∃ k, g'.future = fun j => g.future (j + k)
  accounted : g.Accounted → g'.Accounted
  below : fits → g.Limited → g.Accounted → g.Below → g'.Below
  total_le : shrink → g.Accounted → g'.totalbytes ≤ g.totalbytes

/-- What a run of the collector leaves as it was. -/
def Collects (g g' : Global) : Prop := Frame g.FinalizersFit g.FinalizersShrink g g'

namespace Frame

variable {fits shrink fits' shrink' : Prop} {g g' g'' : Global}

theorem limited (h : Frame fits shrink g g') (hg : g.Limited) : g'.Limited := by
  rw [Global.Limited, h.memlimit, h.egcmode]
  exact hg

theorem trans (h : Frame fits shrink g g') (h' : Frame fits' shrink' g' g'')
    (hfits : fits → fits') (hshrink : shrink → shrink') : Frame fits shrink g g'' where
  live := h'.live.trans h.live
  memlimit := h'.memlimit.trans h.memlimit
  egcmode := h'.egcmode.trans h.egcmode
  future := by
    obtain ⟨k, hk⟩ := h.future
    obtain ⟨k', hk'⟩ := h'.future
    refine ⟨k' + k, ?_⟩
    rw [hk', hk]
    funext j
    exact congrArg g.future (Nat.add_assoc j k' k)
  accounted hg := h'.accounted (h.accounted hg)
  below hf hlim hacc hg :=
    h'.below (hfits hf) (h.limited hlim) (h.accounted hacc) (h.below hf hlim hacc hg)
  total_le hs hacc :=
    Nat.le_trans (h'.total_le (hshrink hs) (h.accounted hacc)) (h.total_le hs hacc)

theorem mono (h : Frame fits shrink g g') (hfits : fits' → fits) (hshrink : shrink' → shrink) :
    Frame fits' shrink' g g' :=
  ⟨h.live, h.memlimit, h.egcmode, h.future, h.accounted, fun hf => h.below (hfits hf),
    fun hs => h.total_le (hshrink hs)⟩

end Frame

namespace Collects

variable {g g' g'' : Global}

theorem finalizersFit (h : Collects g g') (hg : g.FinalizersFit) : g'.FinalizersFit := by
  obtain ⟨k, hk⟩ := h.future
  intro j p hp
  rw [hk] at hp
  rw [Fits, h.memlimit]
  exact hg (j + k) p hp

theorem finalizersShrink (h : Collects g g') (hg : g.FinalizersShrink) : g'.FinalizersShrink := by
  obtain ⟨k, hk⟩ := h.future
  intro j p hp
  rw [hk] at hp
  exact hg (j + k) p hp

theorem trans (h : Collects g g') (h' : Collects g' g'') : Collects g g'' :=
  Frame.trans h h' h.finalizersFit h.finalizersShrink

end Collects

/-- A change of other fields. -/
theorem Frame.of_eq {fits shrink : Prop} {g g' : Global} (hlive : g'.live = g.live)
    (hmemlimit : g'.memlimit = g.memlimit) (hmode : g'.egcmode = g.egcmode)
    (hfuture : ∃ k, g'.future = fun j => g.future (j + k)) (htotal : g'.totalbytes = g.totalbytes)
    (hown : g'.own = g.own) (hgarbage : g'.garbage = g.garbage) (hpeak : g'.peak = g.peak) :
    Frame fits shrink g g' where
  live := hlive
  memlimit := hmemlimit
  egcmode := hmode
  future := hfuture
  accounted hg := by
    rw [Global.Accounted, htotal, hlive, hown, hgarbage]
    exact hg
  below _ _ _ hg := by
    constructor
    · rw [htotal, hmemlimit]
      exact hg.total
    · rw [hpeak, hmemlimit]
      exact hg.peak
  total_le _ _ := Nat.le_of_eq htotal

theorem Frame.free {fits shrink : Prop} (g : Global) (n : ℕ) : Frame fits shrink g (g.free n) where
  live := rfl
  memlimit := rfl
  egcmode := rfl
  future := ⟨0, rfl⟩
  accounted hg := by
    have hmin := Nat.min_le_right n g.garbage
    rw [Global.Accounted] at hg ⊢
    simp only [Global.free]
    omega
  below _ _ _ hg := ⟨Nat.le_trans (Nat.sub_le _ _) hg.total, hg.peak⟩
  total_le _ _ := Nat.sub_le _ _

/-- The limit less what a request needs, if it does not need more than the limit. -/
theorem toNat_room {memlimit nsize : UInt32} {osize : ℕ} (hgrow : osize < nsize.toNat)
    (hfits : nsize.toNat ≤ osize + memlimit.toNat) :
    (memlimit - (nsize - UInt32.ofNat osize)).toNat = memlimit.toNat - (nsize.toNat - osize) := by
  have hosize : (UInt32.ofNat osize).toNat = osize :=
    UInt32.toNat_ofNat_of_lt' (Nat.lt_trans hgrow nsize.toNat_lt)
  have hneed : (nsize - UInt32.ofNat osize).toNat = nsize.toNat - osize := by
    rw [UInt32.toNat_sub_of_le, hosize]
    rw [UInt32.le_iff_toNat_le, hosize]
    exact Nat.le_of_lt hgrow
  rw [UInt32.toNat_sub_of_le, hneed]
  rw [UInt32.le_iff_toNat_le, hneed]
  omega

/-- A request that was granted is within the limit. -/
theorem Global.Below.grant {g : Global} (h : g.Below) (hlim : g.Limited) (b : Block) {osize : ℕ}
    (hosize : osize ≤ g.totalbytes) {r : Request} (hfits : Fits g osize r)
    (hroom : osize < r.nsize.toNat → g.Room (r.nsize - UInt32.ofNat osize)) :
    (g.grant b osize r.nsize.toNat).Below := by
  have htotal : g.totalbytes - osize + r.nsize.toNat ≤ g.memlimit.toNat := by
    have hbelow := h.total
    by_cases hgrow : osize < r.nsize.toNat
    · have hlt := hroom hgrow hlim.1 hlim.2
      rw [toNat_room hgrow hfits] at hlt
      omega
    · omega
  cases b with
  | slot i => exact ⟨htotal, Nat.max_le.mpr ⟨h.peak, htotal⟩⟩
  | own n => exact ⟨htotal, Nat.max_le.mpr ⟨h.peak, htotal⟩⟩

/-- A request of a finalizer. -/
theorem frame_own {osize : ℕ} (r : Request) {g : Global} (hown : osize ≤ g.own) :
    Frame (Fits g osize r) (r.nsize.toNat ≤ osize) g (reallocBlocked (.own osize) r g).2 := by
  have hle (hacc : g.Accounted) : osize ≤ g.totalbytes := by
    rw [Global.Accounted] at hacc
    omega
  rcases reallocBlocked_cases (.own osize) r g with h | ⟨hroom, h⟩
  · rw [h]
    exact .of_eq rfl rfl rfl ⟨0, rfl⟩ rfl rfl rfl rfl
  · rw [h]
    exact {
      live := rfl
      memlimit := rfl
      egcmode := rfl
      future := ⟨0, rfl⟩
      accounted := fun hacc => by
        rw [Global.Accounted] at hacc ⊢
        simp only [Global.grant, Global.resize, Global.osize]
        omega
      below := fun hfits hlim hacc hg => hg.grant hlim _ (hle hacc) hfits hroom
      total_le := fun hshrink hacc => by
        have := hle hacc
        simp only [Global.grant, Global.osize]
        omega }

theorem runFinalizer_frame (l : List (ℕ × Request)) (g : Global) :
    Frame (∀ p ∈ l, Fits g p.1 p.2) (∀ p ∈ l, p.2.nsize.toNat ≤ p.1) g (runFinalizer l g).2 := by
  induction l generalizing g with
  | nil => exact .of_eq rfl rfl rfl ⟨0, rfl⟩ rfl rfl rfl rfl
  | cons p l ih =>
    rw [runFinalizer, callIf]
    by_cases hown : p.1 ≤ g.own
    · rw [if_pos hown, andThen]
      have hfirst := frame_own p.2 hown
      have hfirst' := hfirst.mono (fun h : ∀ q ∈ p :: l, Fits g q.1 q.2 => h p List.mem_cons_self)
        fun h : ∀ q ∈ p :: l, q.2.nsize.toNat ≤ q.1 => h p List.mem_cons_self
      split_ifs
      · refine hfirst'.trans (ih _) (fun h q hq => ?_) fun h q hq => h q (List.mem_cons_of_mem p hq)
        rw [Fits, hfirst.memlimit]
        exact h q (List.mem_cons_of_mem p hq)
      · exact hfirst'
    · rw [if_neg hown]
      exact (ih g).mono (fun h q hq => h q (List.mem_cons_of_mem p hq))
        fun h q hq => h q (List.mem_cons_of_mem p hq)

/-- A change of the collector's own fields. -/
theorem Collects.of_eq {g g' : Global} (hlive : g'.live = g.live)
    (hmemlimit : g'.memlimit = g.memlimit) (hmode : g'.egcmode = g.egcmode)
    (hfuture : ∃ k, g'.future = fun j => g.future (j + k)) (htotal : g'.totalbytes = g.totalbytes)
    (hown : g'.own = g.own) (hgarbage : g'.garbage = g.garbage) (hpeak : g'.peak = g.peak) :
    Collects g g' :=
  Frame.of_eq hlive hmemlimit hmode hfuture htotal hown hgarbage hpeak

theorem singlestep_collects (g : Global) : Collects g (singlestep g).g := by
  -- the part that is not of the collector's own fields
  have hfree (a : Global) (n : ℕ) (ha : Collects g a) : Collects g (a.free n) :=
    Frame.trans ha (Frame.free a n) id id
  rw [singlestep, singlestepWith]
  split
  · exact .of_eq rfl rfl rfl ⟨1, rfl⟩ rfl rfl rfl rfl
  · split_ifs
    · exact hfree _ _ (.of_eq rfl rfl rfl ⟨1, rfl⟩ rfl rfl rfl rfl)
    · exact .of_eq rfl rfl rfl ⟨1, rfl⟩ rfl rfl rfl rfl
  · exact hfree _ _ (.of_eq rfl rfl rfl ⟨1, rfl⟩ rfl rfl rfl rfl)
  · exact hfree _ _ (.of_eq rfl rfl rfl ⟨1, rfl⟩ rfl rfl rfl rfl)
  · split_ifs
    · have hfirst : Collects g { g with
          future := fun k => g.future (k + 1)
          tmudata := g.tmudata - 1 } := .of_eq rfl rfl rfl ⟨1, rfl⟩ rfl rfl rfl rfl
      exact Frame.trans hfirst (runFinalizer_frame (g.future 0).finalizer _)
        (fun h p hp => h 0 p hp) fun h p hp => h 0 p hp
    · exact .of_eq rfl rfl rfl ⟨1, rfl⟩ rfl rfl rfl rfl

theorem moreSteps_collects (lim : ℤ) (g : Global) : Collects g (moreSteps lim g).2 := by
  induction lim, g using moreSteps.induct with
  | case1 lim g h => rw [moreSteps, if_pos h]; exact .of_eq rfl rfl rfl ⟨0, rfl⟩ rfl rfl rfl rfl
  | case2 lim g h hlim r hok ih =>
    rw [moreSteps, if_neg h, if_pos hlim]
    simp only [show (singlestep g).ok = true from hok, if_true]
    exact (singlestep_collects g).trans ih
  | case3 lim g h hlim r hok =>
    rw [moreSteps, if_neg h, if_pos hlim]
    rw [if_neg hok]
    exact singlestep_collects g
  | case4 lim g h hlim =>
    rw [moreSteps, if_neg h, if_neg hlim]
    exact .of_eq rfl rfl rfl ⟨0, rfl⟩ rfl rfl rfl rfl

theorem stepsTo_collects (last : GcState) (g : Global) : Collects g (stepsTo last g).2 := by
  induction g using stepsTo.induct last with
  | case1 g h => rw [stepsTo, if_pos h]; exact .of_eq rfl rfl rfl ⟨0, rfl⟩ rfl rfl rfl rfl
  | case2 g h r hok ih =>
    rw [stepsTo, if_neg h]
    simp only [show (singlestep g).ok = true from hok, if_true]
    exact (singlestep_collects g).trans ih
  | case3 g h r hok =>
    rw [stepsTo, if_neg h]
    rw [if_neg hok]
    exact singlestep_collects g

/-- The lock of the collector. -/
theorem Collects.block (g : Global) (block : Bool) : Collects g { g with blockGc := block } :=
  .of_eq rfl rfl rfl ⟨0, rfl⟩ rfl rfl rfl rfl

theorem Collects.andThen {g : Global} {a : Bool × Global} {f : Global → Bool × Global}
    (ha : Collects g a.2) (hf : ∀ g, Collects g (f g).2) : Collects g (andThen a f).2 := by
  rw [Lua.andThen]
  split_ifs
  · exact ha.trans (hf a.2)
  · exact ha

theorem stepUnblocked_collects (g : Global) : Collects g (stepUnblocked g).2 := by
  rw [stepUnblocked]
  refine Collects.andThen ?_ fun g => Collects.block g false
  have hfirst := (Collects.block g true).trans (singlestep_collects _)
  split_ifs
  · exact hfirst.trans (moreSteps_collects _ _)
  · exact hfirst

theorem resetMark_collects (g : Global) : Collects g (resetMark g) := by
  rw [resetMark]
  split_ifs
  · exact .of_eq rfl rfl rfl ⟨1, rfl⟩ rfl rfl rfl rfl
  · exact .of_eq rfl rfl rfl ⟨0, rfl⟩ rfl rfl rfl rfl

theorem luaCFullgc_collects (g : Global) : Collects g (luaCFullgc g).2 := by
  rw [luaCFullgc]
  split_ifs
  · exact .of_eq rfl rfl rfl ⟨0, rfl⟩ rfl rfl rfl rfl
  · have hreset := (Collects.block g true).trans (resetMark_collects _)
    have hmark (a : Global) : Collects a (markroot a) :=
      .of_eq rfl rfl rfl ⟨1, rfl⟩ rfl rfl rfl rfl
    refine Collects.andThen (hreset.trans (stepsTo_collects _ _)) fun a => ?_
    exact Collects.andThen ((hmark a).trans (stepsTo_collects _ _)) fun a => Collects.block a false

theorem checkLoop_collects (limit cycleCount : ℕ) (g : Global) :
    Collects g (checkLoop limit cycleCount g).2 := by
  induction cycleCount, g using checkLoop.induct limit with
  | case1 cycleCount g hlimit h =>
    rw [checkLoop, if_pos hlimit, if_pos h]
    exact .of_eq rfl rfl rfl ⟨0, rfl⟩ rfl rfl rfl rfl
  | case2 cycleCount g hlimit h r hok ih =>
    rw [checkLoop, if_pos hlimit, if_neg h]
    simp only [show (stepUnblocked g).1 = true from hok, if_true]
    exact (stepUnblocked_collects g).trans ih
  | case3 cycleCount g hlimit h r hok =>
    rw [checkLoop, if_pos hlimit, if_neg h]
    rw [if_neg hok]
    exact stepUnblocked_collects g
  | case4 cycleCount g hlimit =>
    rw [checkLoop, if_neg hlimit]
    exact .of_eq rfl rfl rfl ⟨0, rfl⟩ rfl rfl rfl rfl

/-! ### One request -/

theorem Collects.refl (g : Global) : Collects g g :=
  .of_eq rfl rfl rfl ⟨0, rfl⟩ rfl rfl rfl rfl

theorem Collects.callIf {p : Prop} [Decidable p] {f : Global → Bool × Global} (g : Global)
    (hf : ∀ g, Collects g (f g).2) : Collects g (callIf p f g).2 := by
  rw [Lua.callIf]
  split_ifs
  · exact hf g
  · exact .refl g

theorem lCheckMemlimit_collects (needbytes : UInt32) (g : Global) :
    Collects g (lCheckMemlimit needbytes g).2 :=
  Collects.andThen (Collects.callIf g (checkLoop_collects _ 0)) fun g => .refl g

/-- If `l_check_memlimit` lets a request pass, there is room as far as the subtraction tells. -/
theorem lt_of_lCheckMemlimit {needbytes : UInt32} {g : Global}
    (h : (lCheckMemlimit needbytes g).1 = true) :
    (lCheckMemlimit needbytes g).2.totalbytes <
      ((lCheckMemlimit needbytes g).2.memlimit - needbytes).toNat := by
  rw [lCheckMemlimit, andThen] at h ⊢
  split_ifs at h ⊢ with hloop
  · exact of_decide_eq_true h
  · exact absurd h hloop

theorem tryRealloc_collects (r : Request) (g : Global) :
    Collects g (tryRealloc luaCFullgc r g).2 := by
  rw [tryRealloc]
  split_ifs
  · exact .refl g
  · exact Collects.andThen (luaCFullgc_collects g) fun g => .refl g
  · exact .refl g

/-- Where finalizers must not ask for memory: a full collection comes between the test of the limit
and the allocation. -/
def FailureShrinks (g : Global) (r : Request) : Prop :=
  r.first = false → r.again = true → g.egcmode.testBit egcOnAllocFailure = true →
    g.FinalizersShrink

theorem tryRealloc_total_le {r : Request} {g : Global} (hacc : g.Accounted)
    (hshrink : FailureShrinks g r) (h : (tryRealloc luaCFullgc r g).1 = true) :
    (tryRealloc luaCFullgc r g).2.totalbytes ≤ g.totalbytes := by
  rw [tryRealloc, andThen] at h ⊢
  split_ifs at h ⊢ with hfirst hmode hgc
  · exact Nat.le_refl _
  · exact (luaCFullgc_collects g).total_le
      (hshrink (Bool.eq_false_of_not_eq_true hfirst) h hmode) hacc
  · exact absurd h hgc

theorem FailureShrinks.collects {g g' : Global} {r : Request} (h : FailureShrinks g r)
    (hg : Collects g g') : FailureShrinks g' r := fun hfirst hagain hmode =>
  hg.finalizersShrink (h hfirst hagain (hg.egcmode ▸ hmode))

/-- The test of the limit, and the allocation. -/
def checkAndTry (osize : ℕ) (r : Request) (g : Global) : Bool × Global :=
  andThen (callIf (osize < r.nsize.toNat ∧ 0 < g.memlimit ∧ g.egcmode.testBit egcOnMemLimit)
    (lCheckMemlimit (r.nsize - UInt32.ofNat osize)) g) fun g => tryRealloc luaCFullgc r g

theorem checkAndTry_collects (osize : ℕ) (r : Request) (g : Global) :
    Collects g (checkAndTry osize r g).2 :=
  Collects.andThen (Collects.callIf g (lCheckMemlimit_collects _)) (tryRealloc_collects r)

theorem room_of_checkAndTry {osize : ℕ} {r : Request} {g : Global} (hacc : g.Accounted)
    (hshrink : FailureShrinks g r) (hgrow : osize < r.nsize.toNat)
    (h : (checkAndTry osize r g).1 = true) :
    (checkAndTry osize r g).2.Room (r.nsize - UInt32.ofNat osize) := by
  intro hpos hbit
  have hall := checkAndTry_collects osize r g
  rw [hall.memlimit] at hpos ⊢
  rw [hall.egcmode] at hbit
  rw [checkAndTry, callIf, if_pos ⟨hgrow, hpos, hbit⟩, andThen] at h ⊢
  split_ifs at h ⊢ with hcheck
  · have hchecked := lCheckMemlimit_collects (r.nsize - UInt32.ofNat osize) g
    have hlt := lt_of_lCheckMemlimit hcheck
    rw [hchecked.memlimit] at hlt
    exact Nat.lt_of_le_of_lt
      (tryRealloc_total_le (hchecked.accounted hacc) (hshrink.collects hchecked) h) hlt
  · exact absurd h hcheck

/-- What a request can do. -/
theorem request_cases (b : Block) (r : Request) (g : Global) :
    ∃ g', Collects g g' ∧ (request b r g = (false, { g' with blockGc := false }) ∨
      request b r g = (true, g'.grant b (g.osize b) r.nsize.toNat) ∧
        (g.Accounted → FailureShrinks g r → g.osize b < r.nsize.toNat →
          g'.Room (r.nsize - UInt32.ofNat (g.osize b)))) := by
  have halloc : Collects g (lAlloc luaCFullgc lCheckMemlimit (g.osize b) r g).2 ∧
      ((lAlloc luaCFullgc lCheckMemlimit (g.osize b) r g).1 = true → g.Accounted →
        FailureShrinks g r → g.osize b < r.nsize.toNat →
          (lAlloc luaCFullgc lCheckMemlimit (g.osize b) r g).2.Room
            (r.nsize - UInt32.ofNat (g.osize b))) := by
    rw [lAlloc]
    by_cases hzero : r.nsize = 0
    · rw [if_pos hzero]
      refine ⟨.refl g, fun _ _ _ hlt => absurd hlt ?_⟩
      rw [hzero]
      exact Nat.not_lt_zero _
    · rw [if_neg hzero]
      have halways : Collects g (callIf (g.egcmode.testBit egcAlways) luaCFullgc g).2 :=
        Collects.callIf g luaCFullgc_collects
      refine ⟨Collects.andThen halways (checkAndTry_collects (g.osize b) r),
        fun hok hacc hshrink hgrow => ?_⟩
      rw [andThen] at hok ⊢
      split_ifs at hok ⊢ with hfirst
      · exact room_of_checkAndTry (halways.accounted hacc) (hshrink.collects halways) hgrow hok
      · exact absurd hok hfirst
  refine ⟨_, halloc.1, ?_⟩
  rw [request, luaMRealloc]
  by_cases hok : (lAlloc luaCFullgc lCheckMemlimit (g.osize b) r g).1 = true
  · exact Or.inr ⟨if_pos hok, halloc.2 hok⟩
  · exact Or.inl (if_neg hok)

/-! ### Programs -/

/-- What a program does: it resizes a block, drops one, runs the collector, and blocks it. -/
inductive Event where
  | request (i : ℕ) (r : Request)
  | drop (i : ℕ)
  | step
  | fullgc
  | block (block : Bool)

/-- `legc_set_mode`. From here on `peak` is recorded. -/
def legcSetMode (mode : ℕ) (limit : UInt32) (g : Global) : Global :=
  { g with egcmode := mode, memlimit := limit, peak := g.totalbytes }

/-- One event, for a block that there is. -/
def Global.step (g : Global) : Event → Option Global
  | .request i r => if i < g.live.length then some (Lua.request (.slot i) r g).2 else none
  | .drop i => some { g with
      live := g.live.set i 0
      garbage := g.garbage + g.live.getD i 0 }
  | .step => some (callIf (g.blockGc = false) stepUnblocked g).2
  | .fullgc => some (luaCFullgc g).2
  | .block block => some { g with blockGc := block }

/-- The condition on an event: blocks, and those of the finalizers, grow by no more than the limit,
and no finalizer asks for memory in a collection that a failed allocation starts. -/
structure Guard (g : Global) (e : Event) : Prop where
  finalizers : g.FinalizersFit
  fits : ∀ i r, e = .request i r → Fits g (g.live.getD i 0) r
  shrinks : ∀ i r, e = .request i r → FailureShrinks g r

/-- The memory is within the limit and accounted for, and a request that is refused changes no block
of the program. -/
structure LimitKept (limit : UInt32) (g : Global) : Prop where
  total : g.totalbytes ≤ limit.toNat
  peak : g.peak ≤ limit.toNat
  accounted : g.Accounted
  refused : ∀ i r, (Lua.request (.slot i) r g).1 = false →
    (Lua.request (.slot i) r g).2.live = g.live ∧ (Lua.request (.slot i) r g).2.Accounted

theorem sum_set (l : List ℕ) {i : ℕ} (h : i < l.length) (a : ℕ) :
    (l.set i a).sum + l.getD i 0 = l.sum + a := by
  induction l generalizing i with
  | nil => exact absurd h (Nat.not_lt_zero i)
  | cons x l ih =>
    cases i with
    | zero =>
      rw [List.set_cons_zero, List.sum_cons, List.sum_cons, List.getD_cons_zero]
      omega
    | succ i =>
      have := ih (Nat.lt_of_succ_lt_succ h)
      rw [List.set_cons_succ, List.sum_cons, List.sum_cons, List.getD_cons_succ]
      omega

theorem getD_le_sum (l : List ℕ) (i : ℕ) : l.getD i 0 ≤ l.sum := by
  by_cases h : i < l.length
  · have := sum_set l h 0
    omega
  · rw [List.getD_eq_default _ _ (Nat.le_of_not_lt h)]
    exact Nat.zero_le _

/-- What holds between two events. -/
structure Held (limit : UInt32) (g : Global) : Prop where
  memlimit : g.memlimit = limit
  limited : g.Limited
  accounted : g.Accounted
  below : g.Below

theorem Held.collects {limit : UInt32} {g g' : Global} (h : Held limit g)
    (hfits : g.FinalizersFit) (hg : Collects g g') : Held limit g' :=
  ⟨hg.memlimit.trans h.memlimit, hg.limited h.limited, hg.accounted h.accounted,
    hg.below hfits h.limited h.accounted h.below⟩

/-- A request that is refused has left the blocks of the program as they were, and returns an error
behind a finite collection. -/
theorem request_refused {i : ℕ} {r : Request} {g : Global} (hacc : g.Accounted)
    (h : (request (.slot i) r g).1 = false) :
    (request (.slot i) r g).2.live = g.live ∧ (request (.slot i) r g).2.Accounted := by
  obtain ⟨g', hg, hres | ⟨hres, -⟩⟩ := request_cases (.slot i) r g
  · rw [hres]
    exact ⟨hg.live, hg.accounted hacc⟩
  · rw [hres] at h
    cases h

/-- **One request.** -/
theorem request_spec {limit : UInt32} {i : ℕ} {r : Request} {g : Global} (h : Held limit g)
    (hi : i < g.live.length) (hguard : Guard g (.request i r)) :
    Held limit (request (.slot i) r g).2 := by
  obtain ⟨g', hg, hres | ⟨hres, hroom⟩⟩ := request_cases (.slot i) r g
  · rw [hres]
    exact h.collects hguard.finalizers (hg.trans (Collects.block g' false))
  · have hheld := h.collects hguard.finalizers hg
    have hroom' := hroom h.accounted (hguard.shrinks i r rfl)
    have hosize : g.osize (.slot i) = g'.live.getD i 0 := by rw [hg.live]; rfl
    have hfits : Fits g' (g'.live.getD i 0) r := by
      rw [Fits, hg.memlimit, hg.live]
      exact hguard.fits i r rfl
    have hacc := hheld.accounted
    have hle := getD_le_sum g'.live i
    rw [hres, hosize]
    rw [hosize] at hroom'
    rw [Global.Accounted] at hacc
    refine ⟨hheld.memlimit, hheld.limited, ?_, hheld.below.grant hheld.limited _ (by omega) hfits hroom'⟩
    have hset := sum_set g'.live (i := i) (by rw [hg.live]; exact hi) r.nsize.toNat
    simp only [Global.Accounted, Global.grant, Global.resize]
    omega

/-- One event. -/
theorem Held.step {limit : UInt32} {g g' : Global} {e : Event} (h : Held limit g)
    (hguard : Guard g e) (hs : g.step e = some g') : Held limit g' := by
  cases e with
  | request i r =>
    rw [Global.step] at hs
    split_ifs at hs with hi
    cases hs
    exact request_spec h hi hguard
  | drop i =>
    cases hs
    refine ⟨h.memlimit, h.limited, ?_, ⟨h.below.total, h.below.peak⟩⟩
    have hacc := h.accounted
    rw [Global.Accounted] at hacc
    simp only [Global.Accounted]
    by_cases hi : i < g.live.length
    · have := sum_set g.live hi 0
      omega
    · rw [List.set_eq_of_length_le (Nat.le_of_not_lt hi),
        List.getD_eq_default _ _ (Nat.le_of_not_lt hi)]
      omega
  | step =>
    cases hs
    exact h.collects hguard.finalizers (Collects.callIf g stepUnblocked_collects)
  | fullgc =>
    cases hs
    exact h.collects hguard.finalizers (luaCFullgc_collects g)
  | block block =>
    cases hs
    exact h.collects hguard.finalizers (Collects.block g block)

/-- **The memory limit.** In every run after `legc_set_mode` whose events meet the condition, the
memory stays within the limit. -/
theorem limitKept_of_reach {g₀ g : Global} {mode : ℕ} {limit : UInt32} (hacc : g₀.Accounted)
    (hmode : mode.testBit egcOnMemLimit = true) (hlt : g₀.totalbytes < limit.toNat)
    (h : Reach Global.step Guard (legcSetMode mode limit g₀) g) : LimitKept limit g := by
  have hpos : 0 < limit := UInt32.lt_iff_toNat_lt.mpr (Nat.lt_of_le_of_lt (Nat.zero_le _) hlt)
  have hfirst : Held limit (legcSetMode mode limit g₀) :=
    ⟨rfl, ⟨hpos, hmode⟩, hacc, Nat.le_of_lt hlt, Nat.le_of_lt hlt⟩
  have hheld : Held limit g := h.invariant hfirst fun _ _ _ => Held.step
  exact ⟨hheld.memlimit ▸ hheld.below.total, hheld.memlimit ▸ hheld.below.peak, hheld.accounted,
    fun _ _ => request_refused hheld.accounted⟩

/-- A program with a block of 50 bytes and room for another. -/
def fiftyBytes : Global where
  totalbytes := 50
  memlimit := 0
  egcmode := 0
  gcstepmul := 200
  blockGc := false
  gcstate := .pause
  gray := 0
  white := 0
  strings := 0
  rest := 0
  tmudata := 0
  live := [50, 0]
  own := 0
  garbage := 0
  peak := 50
  future := fun _ => ⟨0, 0, 0, 0, 0, 0, 0, 0, []⟩

/-- A second block under a limit of 100 bytes. -/
theorem limitKept_second_block :
    LimitKept 100 (request (.slot 1) ⟨20, true, false⟩ (legcSetMode 2 100 fiftyBytes)).2 := by
  have hguard : Guard (legcSetMode 2 100 fiftyBytes) (.request 1 ⟨20, true, false⟩) := by
    refine ⟨fun _ => nofun, ?_, ?_⟩
    · rintro i r ⟨⟩
      exact (by decide : 20 ≤ 0 + 100)
    · rintro i r ⟨⟩
      nofun
  exact limitKept_of_reach (rfl : fiftyBytes.Accounted)
    (by decide : (2 : ℕ).testBit egcOnMemLimit = true)
    (by decide : fiftyBytes.totalbytes < (100 : UInt32).toNat) (.next .init hguard rfl)

/-- A request for more than the limit is granted. -/
theorem not_limitKept_large :
    ¬ ∀ (g₀ g : Global) (mode : ℕ) (limit : UInt32), g₀.Accounted →
      mode.testBit egcOnMemLimit = true → g₀.totalbytes < limit.toNat →
      Reach Global.step (fun _ _ => True) (legcSetMode mode limit g₀) g →
        LimitKept limit g := by
  intro h
  have hloop : checkLoop ((100 : UInt32) - 1048576).toNat 0 (legcSetMode 2 100 fiftyBytes) =
      (true, legcSetMode 2 100 fiftyBytes) := by
    rw [checkLoop, if_neg (by decide)]
  have halloc : lAlloc luaCFullgc lCheckMemlimit 0 ⟨1048576, true, false⟩
      (legcSetMode 2 100 fiftyBytes) = (true, legcSetMode 2 100 fiftyBytes) := by
    have hcheck : lCheckMemlimit 1048576 (legcSetMode 2 100 fiftyBytes) =
        (true, legcSetMode 2 100 fiftyBytes) := by
      have hfree : (legcSetMode 2 100 fiftyBytes).blockGc = false := rfl
      rw [lCheckMemlimit, callIf, if_pos hfree]
      exact congrArg (andThen · (testLimit 1048576)) hloop
    have halways : callIf ((legcSetMode 2 100 fiftyBytes).egcmode.testBit egcAlways) luaCFullgc
        (legcSetMode 2 100 fiftyBytes) = (true, legcSetMode 2 100 fiftyBytes) :=
      if_neg (by decide)
    rw [lAlloc, if_neg (by decide), halways, andThen, if_pos rfl, callIf, if_pos (by decide)]
    exact congrArg (andThen · (tryRealloc luaCFullgc ⟨1048576, true, false⟩)) hcheck
  have hrequest : request (.slot 1) ⟨1048576, true, false⟩ (legcSetMode 2 100 fiftyBytes) =
      (true, (legcSetMode 2 100 fiftyBytes).grant (.slot 1) 0 1048576) := by
    rw [request, luaMRealloc]
    exact congrArg (fun a : Bool × Global => if a.1 then (true, a.2.grant (.slot 1) 0 1048576)
      else (false, { a.2 with blockGc := false })) halloc
  have hkept := (h fiftyBytes _ 2 100 rfl (by decide) (by decide)
    (.next (i := .request 1 ⟨1048576, true, false⟩) .init trivial rfl)).total
  rw [hrequest] at hkept
  exact absurd hkept (by decide)

end ELuaBrain.Lua
