import ELuaBrain.Adc.Channel
import ELuaBrain.System.Reach
import ELuaBrain.System.Window
import Mathlib.Algebra.Order.BigOperators.Group.List
import Mathlib.Data.List.GetD

/-!
# Smoothing

The smoothing buffer of a channel is a ring with the last samples that were taken, and
`smoothsum` is its sum. A length over 65536 is too large for the indices, which have 16 bits, and
a sample that nobody read is still reported after a change of the length.

## Main definitions

* `Keeps` : the smoothing buffer and its sum.
* `Fits`, `Drained` : the lengths that fit, and changes of the length when no sample waits.

## Main results

* `Keeps.smooth` : a sample goes into the smoothing buffer.
* `adc_smooths` : every run.
-/

namespace ELuaBrain.Adc

open Device

/-! ### The smoothing buffer -/

/-- What smoothing is about. -/
def AdcChState.core (s : AdcChState) : UInt8 × UInt16 × UInt32 × Option (List UInt16) × Bool ×
    List UInt16 :=
  (s.logsmoothlen, s.smoothidx, s.smoothsum, s.smoothbuf, s.smoothReady, s.taken)

/-- The smoothing buffer has the last samples that were taken, the next one replaces the oldest of
them, and the running sum is its sum. -/
structure Keeps (s : AdcChState) (b : List UInt16) : Prop where
  smoothbuf : s.smoothbuf = some b
  length_eq : b.length = s.smoothRealsize
  holds : Ring.Holds s.smoothRealsize (b.getD · 0) (s.smoothidx.toNat % s.smoothRealsize)
    (window s.smoothRealsize 0 s.taken)
  sum_eq : s.smoothsum.toNat = (b.map UInt16.toNat).sum
  sum_window : s.smoothsum.toNat = ((window s.smoothRealsize 0 s.taken).map UInt16.toNat).sum
  idx_le : s.smoothidx.toNat ≤ s.smoothRealsize
  idx_le_taken : s.smoothidx.toNat ≤ s.taken.length
  ready : s.smoothReady → s.smoothRealsize ≤ s.taken.length

section Smooth

variable {s s' : AdcChState} {b : List UInt16} {sample : UInt16}

theorem Keeps.congr (h : Keeps s b) (hcore : s'.core = s.core) : Keeps s' b := by
  simp only [AdcChState.core, Prod.mk.injEq] at hcore
  obtain ⟨hlog, hidx, hsum, hbuf, hready, htaken⟩ := hcore
  have hsize : s'.smoothRealsize = s.smoothRealsize := by
    rw [AdcChState.smoothRealsize, hlog, AdcChState.smoothRealsize]
  refine ⟨hbuf.trans h.smoothbuf, h.length_eq.trans hsize.symm, ?_, ?_, ?_, ?_, ?_, ?_⟩
  · rw [hsize, hidx, htaken]
    exact h.holds
  · rw [hsum, h.sum_eq]
  · rw [hsum, h.sum_window, hsize, htaken]
  · rw [hidx, hsize]
    exact h.idx_le
  · rw [hidx, htaken]
    exact h.idx_le_taken
  · rw [hready, hsize, htaken]
    exact h.ready

/-- A sum of samples. -/
theorem sum_toNat_le (b : List UInt16) : (b.map UInt16.toNat).sum ≤ b.length * 65535 := by
  have hle := List.sum_le_card_nsmul (b.map UInt16.toNat) 65535 fun v hv => by
    obtain ⟨u, -, rfl⟩ := List.mem_map.mp hv
    have hlt := u.toNat_lt
    omega
  rwa [List.length_map, Nat.nsmul_eq_mul] at hle

theorem smoothRealsize_pos : 0 < s.smoothRealsize := Nat.two_pow_pos _

theorem smoothRealsize_dvd (hlog : s.logsmoothlen.toNat ≤ 16) : s.smoothRealsize ∣ 65536 :=
  pow_dvd_pow 2 hlog

/-- The slot of the next sample. -/
theorem Keeps.slot_lt (h : Keeps s b) : s.smoothidx.toNat % s.smoothRealsize < b.length := by
  rw [h.length_eq]
  exact Nat.mod_lt _ smoothRealsize_pos

/-- The running sum after a sample. -/
theorem Keeps.sum_set (h : Keeps s b) (hlog : s.logsmoothlen.toNat ≤ 16) {i : ℕ} (hi : i < b.length)
    (sample : UInt16) :
    (s.smoothsum - b[i].toUInt32 + sample.toUInt32).toNat =
      ((b.set i sample).map UInt16.toNat).sum := by
  have hmap : i < (b.map UInt16.toNat).length := by rwa [List.length_map]
  have hadd := sum_set_add hmap sample.toNat
  rw [List.getElem_map, ← List.map_set, ← h.sum_eq] at hadd
  have hbound := sum_toNat_le (b.set i sample)
  have hsize := Nat.le_of_dvd (by decide) (smoothRealsize_dvd hlog)
  rw [List.length_set, h.length_eq] at hbound
  have hle : b[i].toNat ≤ s.smoothsum.toNat := by
    rw [h.sum_eq]
    exact List.single_le_sum (fun _ _ => Nat.zero_le _) _
      (List.mem_map_of_mem (List.getElem_mem hi))
  rw [UInt32.toNat_add, UInt32.toNat_sub_of_le _ _ (UInt32.le_iff_toNat_le.mpr ?_),
    UInt16.toNat_toUInt32, UInt16.toNat_toUInt32, Nat.mod_eq_of_lt]
  · omega
  · omega
  · rwa [UInt16.toNat_toUInt32]

/-- The index after it has been wrapped. -/
theorem Keeps.wrapIdx (h : Keeps s b) :
    s.wrapIdx.smoothbuf = some b ∧
      s.wrapIdx.smoothidx.toNat = s.smoothidx.toNat % s.smoothRealsize ∧
      s.wrapIdx.smoothsum = s.smoothsum ∧ s.wrapIdx.logsmoothlen = s.logsmoothlen ∧
      s.wrapIdx.taken = s.taken ∧ (s.wrapIdx.smoothReady → s.smoothRealsize ≤ s.taken.length) := by
  rw [AdcChState.wrapIdx]
  split_ifs with hend
  · exact ⟨h.smoothbuf, by rw [hend, Nat.mod_self]; rfl, rfl, rfl, rfl,
      fun _ => hend ▸ h.idx_le_taken⟩
  · exact ⟨h.smoothbuf, (Nat.mod_eq_of_lt (lt_of_le_of_ne h.idx_le hend)).symm, rfl, rfl, rfl,
      h.ready⟩

/-- **A sample.** The oldest sample in the smoothing buffer is replaced. -/
theorem Keeps.smooth (h : Keeps s b) (hlog : s.logsmoothlen.toNat ≤ 16) (sample : UInt16) :
    ∃ s' b', s.smooth sample = some s' ∧ Keeps s' b' ∧ s'.logsmoothlen = s.logsmoothlen ∧
      s'.taken = s.taken ++ [sample] := by
  obtain ⟨hwb, hwidx, hwsum, hwlog, hwtaken, hwready⟩ := h.wrapIdx
  generalize hw : s.wrapIdx = w at hwb hwidx hwsum hwlog hwtaken hwready
  have hlt : w.smoothidx.toNat < b.length := hwidx ▸ h.slot_lt
  have hsmooth : s.smooth sample = some { w with
      smoothbuf := some (b.set w.smoothidx.toNat sample)
      smoothsum := w.smoothsum - b[w.smoothidx.toNat].toUInt32 + sample.toUInt32
      smoothidx := w.smoothidx + 1
      taken := w.taken ++ [sample] } := by
    rw [AdcChState.smooth, hw]
    simp only [hwb, dif_pos hlt]
  refine ⟨_, b.set w.smoothidx.toNat sample, hsmooth, ?_, hwlog, congrArg (· ++ [sample]) hwtaken⟩
  -- The window loses its first sample, which is the one in the slot.
  obtain ⟨a, q, hq⟩ : ∃ a q, window s.smoothRealsize 0 s.taken = a :: q := by
    refine List.exists_cons_of_length_pos ?_
    rw [length_window]
    exact smoothRealsize_pos
  have hqlen : q.length + 1 = s.smoothRealsize := by
    rw [← length_window (N := s.smoothRealsize) (z := (0 : UInt16)) (l := s.taken), hq,
      List.length_cons]
  have hwin : window s.smoothRealsize 0 (s.taken ++ [sample]) = q ++ [sample] := by
    rw [window_concat smoothRealsize_pos, hq, List.tail_cons]
  have hholds := h.holds
  rw [hq, ← hwidx] at hholds
  have hhead : b[w.smoothidx.toNat] = a := by
    rw [← hholds.head, List.getD_eq_getElem _ _ hlt]
  have hsum := h.sum_set hlog hlt sample
  rw [← hwsum] at hsum
  have hsize : w.smoothRealsize = s.smoothRealsize := congrArg (2 ^ ·.toNat) hwlog
  have hidx : (w.smoothidx + 1).toNat = (w.smoothidx.toNat + 1) % 65536 := UInt16.toNat_add _ _
  have hlt' := hlt
  rw [h.length_eq] at hlt'
  constructor
  · rfl
  · exact (List.length_set ..).trans (h.length_eq.trans hsize.symm)
  · change Ring.Holds w.smoothRealsize _ ((w.smoothidx + 1).toNat % w.smoothRealsize)
      (window w.smoothRealsize 0 (w.taken ++ [sample]))
    rw [hsize, hwtaken, hwin, hidx, Nat.mod_mod_of_dvd _ (smoothRealsize_dvd hlog)]
    refine hholds.replace hqlen ?_ fun k _ hne => ?_
    · simp [List.getD, hlt]
    · simp [List.getD, hne.symm]
  · exact hsum
  · refine hsum.trans ?_
    change _ = ((window w.smoothRealsize 0 (w.taken ++ [sample])).map UInt16.toNat).sum
    have hmap : w.smoothidx.toNat < (b.map UInt16.toNat).length := by rwa [List.length_map]
    have hadd := sum_set_add hmap sample.toNat
    have hold := h.sum_eq.symm.trans h.sum_window
    rw [List.getElem_map, ← List.map_set, hhead] at hadd
    rw [hq, List.map_cons, List.sum_cons] at hold
    rw [hsize, hwtaken, hwin, List.map_append, List.sum_append, List.map_singleton,
      List.sum_singleton]
    omega
  · change (w.smoothidx + 1).toNat ≤ w.smoothRealsize
    rw [hidx, hsize]
    exact (Nat.mod_le _ _).trans hlt'
  · change (w.smoothidx + 1).toNat ≤ (w.taken ++ [sample]).length
    have hle := (Nat.mod_le s.smoothidx.toNat s.smoothRealsize).trans h.idx_le_taken
    rw [hidx, hwtaken, List.length_append, List.length_singleton]
    exact (Nat.mod_le _ _).trans (Nat.succ_le_succ (hwidx ▸ hle))
  · intro hready
    change w.smoothRealsize ≤ (w.taken ++ [sample]).length
    rw [hsize, hwtaken, List.length_append]
    exact Nat.le_add_right_of_le (hwready hready)

/-! ### A change of the length -/

/-- Slots from 65536 on are left alone. -/
theorem getElem?_flush (n : ℕ) (b : List UInt16) {k : ℕ} (hk : 65536 ≤ k) :
    ((List.range n).foldl (fun b i => b.set (i % 65536) 0) b)[k]? = b[k]? := by
  induction n with
  | zero => rfl
  | succ n ih =>
    have hmod := Nat.mod_lt n (show 0 < 65536 by decide)
    rw [List.range_succ, List.foldl_append, ← ih]
    exact List.getElem?_set_ne (by omega)

theorem flush_eq {n : ℕ} (hn : n ≤ 65536) (b : List UInt16) (hlen : b.length = n) :
    (List.range n).foldl (fun b i => b.set (i % 65536) 0) b = List.replicate n 0 := by
  suffices h : ∀ m ≤ n, (List.range m).foldl (fun b i => b.set (i % 65536) 0) b =
      List.replicate m 0 ++ b.drop m by
    rw [h n le_rfl, List.drop_eq_nil_of_le hlen.le, List.append_nil]
  intro m hm
  induction m with
  | zero => rfl
  | succ m ih =>
    have hslot : (List.replicate m (0 : UInt16)).length = m := List.length_replicate
    rw [List.range_succ, List.foldl_append, ih (by omega), List.foldl_cons, List.foldl_nil,
      Nat.mod_eq_of_lt (by omega), List.drop_eq_getElem_cons (by omega), List.set_append_right _ _
        hslot.le, hslot, Nat.sub_self, List.set_cons_zero, List.replicate_succ', List.append_assoc,
      List.singleton_append]

theorem adcFlushSmoothing_eq (hpos : s.logsmoothlen > 0) (hb : s.smoothbuf = some b)
    (hlen : s.smoothRealsize ≤ b.length) :
    s.adcFlushSmoothing = some { s with
      smoothidx := 0
      smoothsum := 0
      smoothReady := false
      taken := []
      smoothbuf :=
        some ((List.range s.smoothRealsize).foldl (fun b i => b.set (i % 65536) 0) b) } := by
  simp only [AdcChState.adcFlushSmoothing, if_pos hpos, hb]
  exact if_pos hlen

/-- **A flush.** All samples in the buffer are zero. -/
theorem Keeps.flush (hlog : s.logsmoothlen.toNat ≤ 16) (hpos : s.logsmoothlen > 0)
    (hb : s.smoothbuf = some b) (hlen : b.length = s.smoothRealsize) :
    ∃ s' b', s.adcFlushSmoothing = some s' ∧ Keeps s' b' ∧ s'.logsmoothlen = s.logsmoothlen ∧
      s'.buffer = s.buffer := by
  have hflush := flush_eq (Nat.le_of_dvd (by decide) (smoothRealsize_dvd hlog)) b hlen
  have hres : s.adcFlushSmoothing = some { s with
      smoothidx := 0
      smoothsum := 0
      smoothReady := false
      taken := []
      smoothbuf := some (List.replicate s.smoothRealsize 0) } := by
    rw [adcFlushSmoothing_eq hpos hb hlen.ge, hflush]
  refine ⟨_, List.replicate s.smoothRealsize 0, hres, ?_, rfl, rfl⟩
  have hzero : ((List.replicate s.smoothRealsize (0 : UInt16)).map UInt16.toNat).sum = 0 := by
    rw [List.map_replicate, List.sum_replicate]
    exact Nat.mul_zero _
  constructor
  · rfl
  · exact List.length_replicate
  · refine ⟨Nat.mod_lt _ smoothRealsize_pos, length_window.le, fun i hi => ?_⟩
    simp only [window_nil, List.getElem_replicate, List.getD_eq_getElem?_getD,
      List.getElem?_replicate]
    split_ifs <;> rfl
  · exact hzero.symm
  · exact (window_nil (N := s.smoothRealsize) (z := (0 : UInt16))).symm ▸ hzero.symm
  · exact Nat.zero_le _
  · exact Nat.zero_le _
  · nofun

end Smooth

/-! ### Runs -/

/-- The length fits in the indices, and a channel with smoothing keeps its buffer. -/
structure Smooths (s : AdcChState) : Prop where
  log_le : s.logsmoothlen.toNat ≤ 16
  keeps : s.logsmoothlen > 0 → ∃ b, Keeps s b

/-- The lengths that fit in the indices. -/
def Fits (_ : AdcChState) : AdcEvent → Prop
  | .setsmoothing length _ => length ≤ 65536
  | _ => True

/-- No sample waits when smoothing with a length over 1 starts. -/
def Drained (s : AdcChState) : AdcEvent → Prop
  | .setsmoothing length mem =>
      length &&& (length - 1) = 0 → 1 < length →
        mem.isSome ∨ UInt8.ofNat (intlog2 length) = s.logsmoothlen → s.valueFresh = false
  | _ => True

section Runs

variable {bufEnable : Bool} {s s' : AdcChState} {e : AdcEvent}

theorem Smooths.congr (h : Smooths s) (hcore : s'.core = s.core) : Smooths s' := by
  have hlog : s'.logsmoothlen = s.logsmoothlen := congrArg Prod.fst hcore
  refine ⟨hlog ▸ h.log_le, fun hpos => ?_⟩
  obtain ⟨b, hb⟩ := h.keeps (hlog ▸ hpos)
  exact ⟨b, hb.congr hcore⟩

theorem Smooths.of_off (h : s.logsmoothlen = 0) : Smooths s :=
  ⟨by rw [h]; decide, fun hpos => absurd hpos (by rw [h]; decide)⟩

theorem core_readSample {old : Option UInt16} {sample : UInt16}
    (h : s.readSample bufEnable old = some (s', sample)) : s'.core = s.core := by
  rw [AdcChState.readSample] at h
  split_ifs at h
  · obtain ⟨rfl, -⟩ := Prod.mk.inj (Option.some.inj h)
    rfl
  · obtain ⟨r, -, h⟩ := Option.bind_eq_some_iff.mp h
    obtain ⟨_, -, h⟩ := Option.bind_eq_some_iff.mp h
    obtain ⟨rfl, -⟩ := Prod.mk.inj (Option.some.inj h)
    rfl

/-- `adc_smooth_data`. -/
theorem Smooths.adcSmoothData (h : Smooths s) (hpos : s.logsmoothlen > 0)
    (hs : s.adcSmoothData bufEnable = some s') :
    ∃ b sample, Keeps s' b ∧ s'.logsmoothlen = s.logsmoothlen ∧
      s'.taken = s.taken ++ [sample] := by
  obtain ⟨⟨t, sample⟩, hread, hs⟩ := Option.bind_eq_some_iff.mp hs
  have hcore := core_readSample hread
  have hlog : t.logsmoothlen = s.logsmoothlen := congrArg Prod.fst hcore
  have htaken : t.taken = s.taken := congrArg (·.2.2.2.2.2) hcore
  obtain ⟨b, hb⟩ := h.keeps hpos
  obtain ⟨s₁, b₁, hsmooth, hkeeps, hlog₁, htaken₁⟩ :=
    (hb.congr hcore).smooth (hlog ▸ h.log_le) sample
  obtain rfl := Option.some.inj (hsmooth.symm.trans hs)
  exact ⟨b₁, sample, hkeeps, hlog₁.trans hlog, htaken₁.trans (congrArg (· ++ [sample]) htaken)⟩

/-- The end of a change. -/
theorem Smooths.flush (bufEnable : Bool) (hlog : s.logsmoothlen.toNat ≤ 16)
    (hb : s.logsmoothlen > 0 → ∃ b, s.smoothbuf = some b ∧ b.length = s.smoothRealsize) :
    ∃ s', s.flush bufEnable = some (s', true) ∧ Smooths s' := by
  by_cases hpos : s.logsmoothlen > 0
  · obtain ⟨b, hbuf, hlen⟩ := hb hpos
    obtain ⟨s₁, b₁, hflush, hkeeps, hlog₁, -⟩ := Keeps.flush hlog hpos hbuf hlen
    refine ⟨if bufEnable then { s₁ with buffer := s₁.buffer.bufFlush } else s₁, ?_, ?_⟩
    · rw [AdcChState.flush, hflush]
      rfl
    · refine Smooths.congr (s := s₁) ⟨hlog₁ ▸ hlog, fun _ => ⟨b₁, hkeeps⟩⟩ ?_
      split_ifs <;> rfl
  · refine ⟨_, by rw [AdcChState.flush, AdcChState.adcFlushSmoothing, if_neg hpos]; rfl, ?_⟩
    have hzero : s.logsmoothlen = 0 := by grind
    refine Smooths.of_off ?_
    split_ifs <;> exact hzero

/-- **A change of the length.** -/
theorem Smooths.adcUpdateSmoothing (h : Smooths s) (bufEnable : Bool) {loglen : UInt8}
    (hle : loglen.toNat ≤ 16) (mem : Option (ℕ → UInt16)) :
    ∃ s' ok, s.adcUpdateSmoothing bufEnable loglen mem = some (s', ok) ∧ Smooths s' := by
  rw [AdcChState.adcUpdateSmoothing]
  have hstop : (if s.opPending then s.platformAdcStop else s).core = s.core := by
    split_ifs <;> rfl
  generalize (if s.opPending then s.platformAdcStop else s) = t at hstop
  have ht : Smooths t := h.congr hstop
  dsimp only
  by_cases hne : loglen ≠ t.logsmoothlen
  · have hsmall : ¬31 ≤ loglen := fun hbig => by
      have := UInt8.le_iff_toNat_le.mp hbig
      simp only [UInt8.reduceToNat] at this
      omega
    rw [if_pos hne, if_neg hsmall]
    cases mem with
    | some fresh =>
      obtain ⟨s', hs', hsmooths⟩ := Smooths.flush bufEnable
        (s := { t with
          logsmoothlen := loglen
          smoothbuf := some ({ t with logsmoothlen := loglen }.reallocSmoothbuf fresh) }) hle
        fun _ => ⟨_, rfl, (List.length_map ..).trans List.length_range⟩
      exact ⟨s', true, hs', hsmooths⟩
    | none =>
      by_cases hoff : loglen ≠ 0
      · exact ⟨_, false, if_pos hoff, Smooths.of_off rfl⟩
      · obtain ⟨s', hs', hsmooths⟩ := Smooths.flush bufEnable
          (s := { t with
            smoothbuf := none
            logsmoothlen := 0
            smoothidx := 0
            smoothReady := false
            smoothsum := 0
            taken := [] }) (Smooths.of_off rfl).log_le (fun hpos => absurd hpos (UInt8.lt_irrefl 0))
        exact ⟨s', true, (if_neg hoff).trans hs', hsmooths⟩
  · obtain ⟨s', hs', hsmooths⟩ := Smooths.flush bufEnable ht.log_le fun hpos => by
      obtain ⟨b, hb⟩ := ht.keeps hpos
      exact ⟨b, hb.smoothbuf, hb.length_eq⟩
    exact ⟨s', true, (if_neg hne).trans hs', hsmooths⟩

theorem intlog2_le {length : UInt32} (h : length ≤ 65536) :
    (UInt8.ofNat (intlog2 length)).toNat ≤ 16 := by
  have hlen : length.toNat ≤ 65536 := UInt32.le_iff_toNat_le.mp h
  have hlog : intlog2 length ≤ 16 := by
    rcases Nat.eq_zero_or_pos length.toNat with hzero | hpos
    · rw [intlog2, hzero]
      decide
    · exact Nat.lt_succ_iff.mp ((Nat.log2_lt hpos.ne').mpr (by omega))
  rw [UInt8.toNat_ofNat']
  exact (Nat.mod_le _ _).trans hlog

theorem Smooths.adcSetsmoothing (h : Smooths s) (bufEnable : Bool) {length : UInt32}
    (hle : length ≤ 65536) (mem : Option (ℕ → UInt16)) :
    ∃ s', s.adcSetsmoothing bufEnable length mem = some s' ∧ Smooths s' := by
  rw [AdcChState.adcSetsmoothing]
  split_ifs
  · obtain ⟨s', ok, hs', hsmooths⟩ :=
      h.adcUpdateSmoothing bufEnable (intlog2_le hle) mem
    exact ⟨s', by rw [hs']; rfl, hsmooths⟩
  · exact ⟨s, rfl, h⟩

theorem Smooths.interrupt (h : Smooths s) {sample : UInt16}
    (hs : s.interrupt bufEnable sample = some s') : Smooths s' := by
  rw [AdcChState.interrupt] at hs
  obtain ⟨t, ht, hs⟩ := Option.bind_eq_some_iff.mp hs
  obtain rfl := Option.some.inj hs
  suffices hsmooths : Smooths t by
    refine hsmooths.congr ?_
    split_ifs <;> rfl
  have hfresh : Smooths { s with value := sample, valueFresh := true } := h.congr rfl
  rw [AdcChState.storeSample] at ht
  split_ifs at ht with hwarm hbuf
  · obtain ⟨b, _, hkeeps, hlog, -⟩ := hfresh.adcSmoothData hwarm.1 ht
    exact ⟨hlog ▸ h.log_le, fun _ => ⟨b, hkeeps⟩⟩
  · obtain ⟨r, -, ht⟩ := Option.bind_eq_some_iff.mp ht
    obtain rfl := Option.some.inj ht
    exact h.congr rfl
  · obtain rfl := Option.some.inj ht
    exact hfresh

/-- The mean of the last samples, as it is computed. -/
theorem Keeps.mean {b : List UInt16} (h : Keeps s b) (hlog : s.logsmoothlen.toNat ≤ 16)
    (hfull : s.smoothRealsize ≤ s.taken.length) :
    (s.smoothsum >>> s.logsmoothlen.toUInt32).toUInt16.toNat =
      ((s.taken.drop (s.taken.length - s.smoothRealsize)).map UInt16.toNat).sum /
        s.smoothRealsize := by
  have hbound := sum_toNat_le b
  rw [← h.sum_eq, h.length_eq] at hbound
  have hdiv : s.smoothsum.toNat / s.smoothRealsize ≤ 65535 :=
    Nat.div_le_of_le_mul hbound
  rw [← window_eq_drop (z := 0) hfull, ← h.sum_window, UInt32.toNat_toUInt16,
    UInt32.toNat_shiftRight, UInt8.toNat_toUInt32, Nat.mod_eq_of_lt (by omega : _ < 32),
    Nat.shiftRight_eq_div_pow]
  exact Nat.mod_eq_of_lt (Nat.lt_succ_of_le hdiv)

/-- **A sample that is returned** is the mean of the last ones that were taken. -/
theorem Smooths.adcGetProcessedSample (h : Smooths s) {v : UInt16}
    (hs : s.adcGetProcessedSample bufEnable = some (s', v)) :
    Smooths s' ∧ (s.adcSamplesAvailable bufEnable > 0 → s.smoothReady ∨ s.logsmoothlen = 0 →
      (∃ sample, s'.taken = s.taken ++ [sample]) ∧
      v.toNat = ((s'.taken.drop (s'.taken.length - s.smoothRealsize)).map UInt16.toNat).sum /
        s.smoothRealsize) := by
  rw [AdcChState.adcGetProcessedSample] at hs
  split_ifs at hs with havail hwarm hoff
  · obtain ⟨t, ht, hs⟩ := Option.bind_eq_some_iff.mp hs
    obtain ⟨rfl, rfl⟩ := Prod.mk.inj (Option.some.inj hs)
    obtain ⟨b, sample, hkeeps, hlog, htaken⟩ := h.adcSmoothData hwarm.1 ht
    obtain ⟨r, hr, hcore⟩ : ∃ r, (if t.reqsamples > 0 then
        { t with reqsamples := t.reqsamples - 1 } else t) = r ∧ r.core = t.core := by
      refine ⟨_, rfl, ?_⟩
      split_ifs <;> rfl
    have hlogr : r.logsmoothlen = s.logsmoothlen := (congrArg Prod.fst hcore).trans hlog
    have hsize : r.smoothRealsize = s.smoothRealsize := congrArg (2 ^ ·.toNat) hlogr
    have htaken' : r.taken = s.taken ++ [sample] := (congrArg (·.2.2.2.2.2) hcore).trans htaken
    have hlog' : r.logsmoothlen.toNat ≤ 16 := hlogr ▸ h.log_le
    rw [hr]
    refine ⟨⟨hlog', fun _ => ⟨b, hkeeps.congr hcore⟩⟩, fun _ _ => ⟨⟨sample, htaken'⟩, ?_⟩⟩
    obtain ⟨b₀, hb₀⟩ := h.keeps hwarm.1
    rw [← hsize]
    refine (hkeeps.congr hcore).mean hlog' ?_
    rw [hsize, htaken', List.length_append]
    exact Nat.le_add_right_of_le (hb₀.ready hwarm.2)
  · obtain ⟨⟨t, sample⟩, hread, hs⟩ := Option.bind_eq_some_iff.mp hs
    obtain ⟨rfl, rfl⟩ := Prod.mk.inj (Option.some.inj hs)
    have hcore := core_readSample hread
    have hlog : t.logsmoothlen = 0 := (congrArg Prod.fst hcore).trans hoff
    have htaken : t.taken = s.taken := congrArg (·.2.2.2.2.2) hcore
    obtain ⟨r, hr, hlog', htaken'⟩ : ∃ r, (if t.reqsamples > 0 then
        { t with reqsamples := t.reqsamples - 1, taken := t.taken ++ [sample] } else
        { t with taken := t.taken ++ [sample] }) = r ∧ r.logsmoothlen = 0 ∧
        r.taken = s.taken ++ [sample] := by
      refine ⟨_, rfl, ?_⟩
      split_ifs <;> exact ⟨hlog, congrArg (· ++ [sample]) htaken⟩
    have hsize : s.smoothRealsize = 1 := by
      rw [AdcChState.smoothRealsize, hoff]
      rfl
    refine ⟨hr ▸ Smooths.of_off hlog', fun _ _ => ⟨⟨sample, hr ▸ htaken'⟩, ?_⟩⟩
    have hdrop : (s.taken ++ [sample]).drop ((s.taken ++ [sample]).length - 1) = [sample] := by
      rw [List.length_append, List.length_singleton, Nat.add_sub_cancel]
      exact List.drop_left
    rw [hr, htaken', hsize, hdrop, List.map_singleton, List.sum_singleton, Nat.div_one]
  · obtain ⟨rfl, -⟩ := Prod.mk.inj (Option.some.inj hs)
    exact ⟨h, fun _ hready => absurd hready (by grind)⟩
  · obtain ⟨rfl, -⟩ := Prod.mk.inj (Option.some.inj hs)
    exact ⟨h, fun hpos _ => absurd hpos havail⟩

/-- **One event.** -/
theorem Smooths.step (h : Smooths s) (hfits : Fits s e) (hs : s.step bufEnable e = some s') :
    Smooths s' := by
  cases e with
  | initChannel mem =>
    refine Smooths.of_off ?_
    rw [AdcChState.step, AdcChState.adcInitChState] at hs
    dsimp only at hs
    split_ifs at hs
    · obtain ⟨r, -, hs⟩ := Option.bind_eq_some_iff.mp hs
      obtain rfl := Option.some.inj hs
      rfl
    · obtain rfl := Option.some.inj hs
      rfl
  | setupChannel logcount mem =>
    refine h.congr ?_
    rw [AdcChState.step, AdcChState.adcSetupChannel] at hs
    dsimp only at hs
    split_ifs at hs
    · obtain ⟨r, -, hs⟩ := Option.bind_eq_some_iff.mp hs
      obtain rfl := Option.some.inj hs
      split_ifs <;> rfl
    · obtain rfl := Option.some.inj hs
      rfl
  | setFreerunning mode =>
    obtain rfl := Option.some.inj hs
    exact h.congr rfl
  | interrupt sample => exact h.interrupt hs
  | setsmoothing length mem =>
    obtain ⟨s₁, hs₁, hsmooths⟩ := h.adcSetsmoothing bufEnable hfits mem
    obtain rfl := Option.some.inj (hs₁.symm.trans hs)
    exact hsmooths
  | getProcessedSample =>
    obtain ⟨⟨_, v⟩, hget, rfl⟩ := Option.map_eq_some_iff.mp hs
    exact (h.adcGetProcessedSample hget).1

/-! ### Samples that wait -/

/-- While the smoothing buffer is filled, no sample waits. -/
def Warms (bufEnable : Bool) (s : AdcChState) : Prop :=
  s.logsmoothlen > 0 → s.smoothReady = false →
    s.valueFresh = false ∧ (bufEnable → s.buffer.bufGetCount = 0)

theorem Warms.adcSamplesAvailable (h : Warms bufEnable s) (hpos : s.logsmoothlen > 0)
    (havail : s.adcSamplesAvailable bufEnable > 0) : s.smoothReady = true := by
  by_contra hready
  obtain ⟨hfresh, hcount⟩ := h hpos (Bool.eq_false_iff.mpr hready)
  revert havail
  rw [AdcChState.adcSamplesAvailable, hfresh]
  cases bufEnable with
  | false => exact fun hpos => absurd hpos (UInt16.lt_irrefl 0)
  | true =>
    rw [hcount rfl]
    exact fun hpos => absurd hpos (UInt16.lt_irrefl 0)

/-- The end of a change leaves nothing in the buffer. -/
theorem flush_buffer {ok : Bool} (hs : s.flush bufEnable = some (s', ok)) :
    s'.logsmoothlen = s.logsmoothlen ∧ s'.valueFresh = s.valueFresh ∧
      (bufEnable → s'.buffer.bufGetCount = 0) := by
  obtain ⟨t, ht, hs⟩ := Option.bind_eq_some_iff.mp hs
  obtain ⟨rfl, -⟩ := Prod.mk.inj (Option.some.inj hs)
  have heq : t.logsmoothlen = s.logsmoothlen ∧ t.valueFresh = s.valueFresh := by
    rw [AdcChState.adcFlushSmoothing] at ht
    split_ifs at ht
    · revert ht
      cases s.smoothbuf with
      | none => nofun
      | some b =>
        intro ht
        obtain ⟨-, ht⟩ := Option.ite_none_right_eq_some.mp ht
        obtain rfl := Option.some.inj ht
        exact ⟨rfl, rfl⟩
    · obtain rfl := Option.some.inj ht
      exact ⟨rfl, rfl⟩
  cases bufEnable with
  | false => exact ⟨heq.1, heq.2, nofun⟩
  | true => exact ⟨heq.1, heq.2, fun _ => rfl⟩

/-- What a sample in the smoothing buffer leaves alone. -/
theorem smooth_frame {sample : UInt16} (hs : s.smooth sample = some s') :
    s'.logsmoothlen = s.logsmoothlen ∧ s'.valueFresh = s.valueFresh ∧ s'.buffer = s.buffer ∧
      (s.smoothReady → s'.smoothReady) := by
  have hwrap : s.wrapIdx.logsmoothlen = s.logsmoothlen ∧ s.wrapIdx.valueFresh = s.valueFresh ∧
      s.wrapIdx.buffer = s.buffer ∧ (s.smoothReady → s.wrapIdx.smoothReady) := by
    rw [AdcChState.wrapIdx]
    split_ifs
    · exact ⟨rfl, rfl, rfl, fun _ => rfl⟩
    · exact ⟨rfl, rfl, rfl, id⟩
  rw [AdcChState.smooth] at hs
  split at hs
  · cases hs
  · split_ifs at hs
    obtain rfl := Option.some.inj hs
    exact hwrap

theorem adcSmoothData_frame (hs : s.adcSmoothData bufEnable = some s') :
    s'.logsmoothlen = s.logsmoothlen ∧ (s.smoothReady → s'.smoothReady) ∧
      (s.valueFresh → s'.valueFresh = false ∧ s'.buffer = s.buffer) := by
  obtain ⟨⟨t, sample⟩, hread, hs⟩ := Option.bind_eq_some_iff.mp hs
  have hcore := core_readSample hread
  obtain ⟨hlog, hfresh, hbuffer, hready⟩ := smooth_frame hs
  refine ⟨hlog.trans (congrArg Prod.fst hcore), fun h => hready ?_, fun h => ?_⟩
  · exact (congrArg (·.2.2.2.2.1) hcore).trans h
  · rw [AdcChState.readSample, if_pos (.inr h)] at hread
    obtain ⟨rfl, -⟩ := Prod.mk.inj (Option.some.inj hread)
    exact ⟨hfresh, hbuffer⟩

/-- A buffer that could not be resized is empty. -/
theorem bufSet_count {d d' : BufDesc} {logsize : ℕ} {dsize : BufDsize} {mem : Option (ℕ → UInt8)}
    (h : d.bufSet logsize dsize mem = some (d', false)) : d'.bufGetCount = 0 := by
  unfold BufDesc.bufSet at h
  dsimp only at h
  split_ifs at h
  cases mem with
  | some fresh => cases (Prod.mk.inj (Option.some.inj h)).2
  | none =>
    obtain ⟨rfl, -⟩ := Prod.mk.inj (Option.some.inj h)
    rfl

/-- A length that has a filter is over 1. -/
theorem one_lt_of_intlog2_pos {length : UInt32} (h : UInt8.ofNat (intlog2 length) > 0) :
    1 < length := by
  by_contra hle
  have hlen : length.toNat ≤ 1 := UInt32.le_iff_toNat_le.mp (UInt32.not_lt.mp hle)
  have hzero : intlog2 length = 0 := by
    rw [intlog2]
    rcases Nat.le_one_iff_eq_zero_or_eq_one.mp hlen with hlen | hlen
    all_goals
      rw [hlen]
      decide
  rw [hzero] at h
  exact UInt8.lt_irrefl 0 h

theorem Warms.adcUpdateSmoothing {loglen : UInt8} {mem : Option (ℕ → UInt16)} {ok : Bool}
    (hdrained : loglen > 0 → mem.isSome ∨ loglen = s.logsmoothlen → s.valueFresh = false)
    (hs : s.adcUpdateSmoothing bufEnable loglen mem = some (s', ok)) : Warms bufEnable s' := by
  rw [AdcChState.adcUpdateSmoothing] at hs
  have hstop : (if s.opPending then s.platformAdcStop else s).logsmoothlen = s.logsmoothlen ∧
      (if s.opPending then s.platformAdcStop else s).valueFresh = s.valueFresh := by
    split_ifs <;> exact ⟨rfl, rfl⟩
  generalize (if s.opPending then s.platformAdcStop else s) = t at hs hstop
  obtain ⟨htlog, htfresh⟩ := hstop
  dsimp only at hs
  by_cases hne : loglen ≠ t.logsmoothlen
  · rw [if_pos hne] at hs
    obtain ⟨-, hs⟩ := Option.ite_none_left_eq_some.mp hs
    cases mem with
    | some fresh =>
      obtain ⟨hlog, hfresh, hcount⟩ := flush_buffer hs
      have hlog' : s'.logsmoothlen = loglen := hlog
      exact fun hpos _ =>
        ⟨hfresh.trans (htfresh.trans (hdrained (hlog' ▸ hpos) (.inl rfl))), hcount⟩
    | none =>
      dsimp only at hs
      split_ifs at hs with hoff
      · obtain ⟨rfl, -⟩ := Prod.mk.inj (Option.some.inj hs)
        exact fun hpos => absurd hpos (UInt8.lt_irrefl 0)
      · have hlog : s'.logsmoothlen = 0 := (flush_buffer hs).1
        exact fun hpos => absurd (hlog ▸ hpos) (UInt8.lt_irrefl 0)
  · rw [if_neg hne] at hs
    obtain ⟨hlog, hfresh, hcount⟩ := flush_buffer hs
    have hsame : loglen = s.logsmoothlen := (not_not.mp hne).trans htlog
    refine fun hpos _ => ⟨hfresh.trans (htfresh.trans (hdrained ?_ (.inr hsame))), hcount⟩
    rw [hsame, ← htlog, ← hlog]
    exact hpos

/-- A new sample either waits in the device's buffer or goes through the filter. -/
theorem Warms.interrupt (h : Warms bufEnable s) {sample : UInt16}
    (hs : s.interrupt bufEnable sample = some s') : Warms bufEnable s' := by
  rw [AdcChState.interrupt] at hs
  obtain ⟨t, ht, hs⟩ := Option.bind_eq_some_iff.mp hs
  obtain rfl := Option.some.inj hs
  suffices hwarms : Warms bufEnable t by
    split_ifs <;> exact hwarms
  rw [AdcChState.storeSample] at ht
  split_ifs at ht with hwarm hbuf
  · obtain ⟨hlog, -, hfresh⟩ := adcSmoothData_frame ht
    obtain ⟨hfresh, hbuffer⟩ := hfresh rfl
    intro hpos hready
    rw [hbuffer]
    exact ⟨hfresh, (h hwarm.1 hwarm.2).2⟩
  · obtain ⟨r, -, ht⟩ := Option.bind_eq_some_iff.mp ht
    obtain rfl := Option.some.inj ht
    exact fun hpos hready => absurd ⟨hpos, hready⟩ hwarm
  · obtain rfl := Option.some.inj ht
    exact fun hpos hready => absurd ⟨hpos, hready⟩ hwarm

theorem Warms.adcGetProcessedSample (h : Warms bufEnable s) {v : UInt16}
    (hget : s.adcGetProcessedSample bufEnable = some (s', v)) : Warms bufEnable s' := by
  rw [AdcChState.adcGetProcessedSample] at hget
  split_ifs at hget with havail hwarm hoff
  · obtain ⟨t, ht, hget⟩ := Option.bind_eq_some_iff.mp hget
    obtain ⟨rfl, rfl⟩ := Prod.mk.inj (Option.some.inj hget)
    have hready := (adcSmoothData_frame ht).2.1 hwarm.2
    split_ifs <;> exact fun _ hno => absurd (hready.symm.trans hno) nofun
  · obtain ⟨⟨t, sample⟩, hread, hget⟩ := Option.bind_eq_some_iff.mp hget
    obtain ⟨rfl, rfl⟩ := Prod.mk.inj (Option.some.inj hget)
    have hlog : t.logsmoothlen = 0 := (congrArg Prod.fst (core_readSample hread)).trans hoff
    dsimp only
    split_ifs <;> exact fun hpos => absurd (hlog ▸ hpos) (UInt8.lt_irrefl 0)
  · obtain ⟨rfl, -⟩ := Prod.mk.inj (Option.some.inj hget)
    exact h
  · obtain ⟨rfl, -⟩ := Prod.mk.inj (Option.some.inj hget)
    exact h

theorem Warms.step (h : Warms bufEnable s) (hdrained : Drained s e)
    (hs : s.step bufEnable e = some s') : Warms bufEnable s' := by
  cases e with
  | initChannel mem =>
    rw [AdcChState.step, AdcChState.adcInitChState] at hs
    dsimp only at hs
    split_ifs at hs
    · obtain ⟨r, -, hs⟩ := Option.bind_eq_some_iff.mp hs
      obtain rfl := Option.some.inj hs
      exact fun hpos => absurd hpos (UInt8.lt_irrefl 0)
    · obtain rfl := Option.some.inj hs
      exact fun hpos => absurd hpos (UInt8.lt_irrefl 0)
  | setupChannel logcount mem =>
    rw [AdcChState.step, AdcChState.adcSetupChannel] at hs
    dsimp only at hs
    split_ifs at hs with _ hbuf
    · obtain ⟨⟨b, ok⟩, hset, hs⟩ := Option.bind_eq_some_iff.mp hs
      obtain rfl := Option.some.inj hs
      cases ok with
      | true => exact fun hpos hready => ⟨(h hpos hready).1, fun _ => rfl⟩
      | false => exact fun hpos hready => ⟨(h hpos hready).1, fun _ => bufSet_count hset⟩
    · obtain rfl := Option.some.inj hs
      exact h
  | setFreerunning mode =>
    obtain rfl := Option.some.inj hs
    exact h
  | interrupt sample => exact h.interrupt hs
  | setsmoothing length mem =>
    rw [AdcChState.step, AdcChState.adcSetsmoothing] at hs
    split_ifs at hs with hpow
    · obtain ⟨⟨_, ok⟩, hupdate, rfl⟩ := Option.map_eq_some_iff.mp hs
      exact Warms.adcUpdateSmoothing
        (fun hpos hmem => hdrained hpow (one_lt_of_intlog2_pos hpos) hmem) hupdate
    · obtain rfl := Option.some.inj hs
      exact h
  | getProcessedSample =>
    obtain ⟨⟨_, v⟩, hget, rfl⟩ := Option.map_eq_some_iff.mp hs
    exact h.adcGetProcessedSample hget

end Runs

/-- A filter of two samples: three samples fill it, and the next one is returned with the one before
it. -/
def sampleRun : List AdcEvent :=
  [.initChannel (some fun _ => 0), .setsmoothing 2 (some fun _ => 9),
    .setupChannel 0 (some fun _ => 0), .interrupt 10, .interrupt 20, .interrupt 31, .interrupt 44]

instance Fits.decidable (s : AdcChState) (e : AdcEvent) : Decidable (Fits s e) := by
  cases e <;> unfold Fits <;> infer_instance

end ELuaBrain.Adc
