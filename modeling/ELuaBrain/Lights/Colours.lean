import ELuaBrain.Lights.Structured
import ELuaBrain.System.Clip
import ELuaBrain.System.Reach

/-!
# The colours of the lights

An instruction for colours computes a number for each channel. `ledvm.c` passes it on as a signed
char, and clips it to the limits of the channel then. The limits are set by other instructions, to
any signed chars.

## Main definitions

* `formula` : the number that an instruction computes, with no bound.
* `RightColours` : what is sent is the clipped number of the formula, in the range of the driver.
* `GoodColours` : the limits and the number do not meet the truncation.

## Main results

* `rightColours_iff` : a step sends the right colours if and only if it is good.
* `colours_right_iff` : the same for all steps of a run.
-/

namespace ELuaBrain.Lights

/-! ### What is sent -/

/-- `LEDVM_MAX_VAL`. -/
def ledvmMaxVal : ℤ := 32

/-- The number in the lower six bits of an operand. -/
def number (data : UInt8) : ℤ := (data.toNat : ℤ).bmod 64

/-- What an operand stands for: a random number, or one that may be relative to a value. -/
def decoded (rand : ℕ) (data : UInt8) (crt : ℤ) : ℤ :=
  if data = 0xFF then (rand % 33 : ℕ)
  else number data + 1 + if data &&& 0x40 ≠ 0 then crt else 0

/-- The number that an instruction computes for a channel. An instruction that sets limits, or that
switches channels on or off, has the colour that there is. -/
def formula (rand : Fin 3 → ℕ) (inst : Inst) (s : State) (ch : Fin 3) : ℤ :=
  match code inst with
  | 1 => decoded (rand ch) (operand inst ch) (s.v ch).toInt
  | 7 => (s.a ch).toInt * (s.v ch).toInt + (s.b ch).toInt
  | 10 => (s.v ch).toInt + (operand inst ch).toInt8.toInt
  | _ => (s.v ch).toInt

/-- An instruction that sends colours to the lights. -/
def Sends (inst : Inst) : Prop :=
  code inst ∈ [1, 10, 12, 13, 14] ∨ code inst = 7 ∧ vmhCheckEmptyInst inst = true

instance decidableSends (inst : Inst) : Decidable (Sends inst) :=
  inferInstanceAs (Decidable (_ ∨ _))

/-- A channel that is outside of the mask of `nextrgb` or `addrgb`. -/
def Masked (inst : Inst) (s : State) (ch : Fin 3) : Prop :=
  code inst ∈ [7, 10] ∧ s.m ch = false

instance decidableMasked (inst : Inst) (s : State) (ch : Fin 3) : Decidable (Masked inst s ch) :=
  inferInstanceAs (Decidable (_ ∧ _))

/-- The right colour for a channel, with the limits and masks of the machine. -/
def rightColour (inst : Inst) (s : State) (ch : Fin 3) (v x : ℤ) : ℤ :=
  if s.on ch = 0 then 0
  else if Masked inst s ch then v
  else clip (s.min ch).toInt (s.max ch).toInt x

/-- What is sent for each channel is the right colour, and in the range of the driver. -/
def RightColours (rand : Fin 3 → ℕ) (inst : Inst) (s : State) : Prop :=
  Sends inst → ∃ s', execInst rand inst s = some (.ok, s') ∧
    ∀ ch, (s'.shown ch).toInt =
        rightColour inst s' ch (s.v ch).toInt (formula rand inst s ch) ∧
      0 ≤ (s'.shown ch).toInt ∧ (s'.shown ch).toInt ≤ ledvmMaxVal

/-! ### Good steps -/

/-- The machine when the masks and limits are set, before there are new colours. -/
def prepare (rand : Fin 3 → ℕ) (inst : Inst) (s : State) : State :=
  let s := vmhCheckMask s (inst 0)
  match code inst with
  | 12 => { s with min := operands rand inst s.min true }
  | 13 => { s with on := operands rand inst s.on false }
  | 14 => { s with max := operands rand inst s.max true }
  | _ => s

/-- The limits of a channel are in order, and they and a number are good for the driver. The number
fits into a signed char, or its truncation is on the same side of the limits. -/
structure GoodColour (lo hi x : ℤ) : Prop where
  order : lo ≤ hi
  max_nonneg : 0 ≤ hi
  min_le : lo ≤ ledvmMaxVal
  low : lo < 0 → 0 ≤ x
  high : ledvmMaxVal < hi → x ≤ ledvmMaxVal
  wrap : HarmlessWrap 128 lo hi x

instance decidableGoodColour (lo hi x : ℤ) : Decidable (GoodColour lo hi x) :=
  decidable_of_iff (_ ∧ _ ∧ _ ∧ _ ∧ _ ∧ _)
    ⟨fun ⟨h₁, h₂, h₃, h₄, h₅, h₆⟩ => ⟨h₁, h₂, h₃, h₄, h₅, h₆⟩,
      fun ⟨h₁, h₂, h₃, h₄, h₅, h₆⟩ => ⟨h₁, h₂, h₃, h₄, h₅, h₆⟩⟩

/-- A step in which each channel that is on is good. A masked channel is good if its colour is. -/
def GoodColours (rand : Fin 3 → ℕ) (inst : Inst) (s : State) : Prop :=
  Sends inst → ∀ ch, (prepare rand inst s).on ch ≠ 0 →
    if Masked inst (prepare rand inst s) ch then
      0 ≤ (s.v ch).toInt ∧ (s.v ch).toInt ≤ ledvmMaxVal
    else GoodColour ((prepare rand inst s).min ch).toInt ((prepare rand inst s).max ch).toInt
      (formula rand inst s ch)

instance decidableGoodColours (rand : Fin 3 → ℕ) (inst : Inst) (s : State) :
    Decidable (GoodColours rand inst s) :=
  inferInstanceAs (Decidable (_ → _))

/-- The colours are clipped: they are not changed by clipping them again. -/
def Settled (s : State) : Prop := ∀ ch, vmhClipRgb s ch (s.v ch) = s.v ch

/-- The execution of an instruction, with random numbers. -/
def execNext (s : State) (i : (Fin 3 → ℕ) × Inst) : Option State :=
  (execInst i.1 i.2 s).map Prod.snd

/-! ### Steps -/

section Steps

variable {s s' : State} {inst : Inst} {rand : Fin 3 → ℕ} {ch : Fin 3}

/-- The operand in words of 16 bits. -/
theorem operand_toInt16 (data : UInt8) :
    (data.toUInt16.toInt16 = 0xFF ↔ data = 0xFF) ∧
      (data.toUInt16.toInt16 &&& 0x40 ≠ 0 ↔ data &&& 0x40 ≠ 0) ∧
      ((((data.toUInt16.toInt16 &&& 0x3F) <<< 10) >>> 10) + 1).toInt = number data + 1 ∧
      data.toUInt16.toInt16.toInt8 = data.toInt8 := by
  have hall : ∀ n : Fin 256, ((UInt8.ofNat n).toUInt16.toInt16 = 0xFF ↔ UInt8.ofNat n = 0xFF) ∧
      ((UInt8.ofNat n).toUInt16.toInt16 &&& 0x40 ≠ 0 ↔ UInt8.ofNat n &&& 0x40 ≠ 0) ∧
      (((((UInt8.ofNat n).toUInt16.toInt16 &&& 0x3F) <<< 10) >>> 10) + 1).toInt =
        number (UInt8.ofNat n) + 1 ∧
      (UInt8.ofNat n).toUInt16.toInt16.toInt8 = (UInt8.ofNat n).toInt8 := by
    decide +kernel
  have hdata := hall ⟨data.toNat, data.toNat_lt⟩
  rwa [UInt8.ofNat_toNat] at hdata

theorem toInt_toInt8_add (a b : Int16) :
    (a + b).toInt8.toInt = (a.toInt + b.toInt).bmod (2 * 128) := by
  rw [Int16.toInt_toInt8, Int16.toInt_add]
  exact Int.bmod_bmod_of_dvd (by decide)

/-- An operand is decoded, and truncated then. -/
theorem toInt_vmhGetv (rand : ℕ) (ch : Fin 3) (data : UInt8) (base : Fin 3 → Int8) :
    (vmhGetv rand ch data.toUInt16.toInt16 base true).toInt =
      (decoded rand data (base ch).toInt).bmod (2 * 128) := by
  obtain ⟨hrand, hdelta, hnumber, -⟩ := operand_toInt16 data
  simp only [vmhGetv, decoded, true_and, hrand, hdelta]
  split
  · rw [Int8.toInt_ofNat']
  · rw [toInt_toInt8_add, hnumber]
    split
    · rw [Int16.mul_one, Int8.toInt_toInt16]
    · rw [Int16.mul_zero]
      rfl

/-- The colour of a channel before it is clipped. -/
def newColour (rand : Fin 3 → ℕ) (inst : Inst) (s : State) (ch : Fin 3) : Int8 :=
  let s := vmhCheckMask s (inst 0)
  match code inst with
  | 1 => operands rand inst s.v true ch
  | 7 => vmhMaskv s ch ((s.a ch).toInt16 * (s.v ch).toInt16 + (s.b ch).toInt16).toInt8
  | 10 => vmhMaskv s ch ((s.v ch).toInt16 + (operand inst ch).toUInt16.toInt16).toInt8
  | _ => s.v ch

theorem toInt_vmhMaskv (s : State) (ch : Fin 3) (v : Int8) :
    (vmhMaskv s ch v).toInt = if s.m ch = false then (s.v ch).toInt else v.toInt := by
  rw [vmhMaskv]
  cases s.m ch <;> rfl

theorem toInt_bmod (v : Int8) : v.toInt.bmod (2 * 128) = v.toInt :=
  bmod_of_range v.le_toInt v.toInt_lt

@[simp] theorem vmhCheckMask_v (s : State) (data : UInt8) : (vmhCheckMask s data).v = s.v := by
  rw [vmhCheckMask]
  split <;> rfl

@[simp] theorem vmhCheckMask_a (s : State) (data : UInt8) : (vmhCheckMask s data).a = s.a := by
  rw [vmhCheckMask]
  split <;> rfl

@[simp] theorem vmhCheckMask_b (s : State) (data : UInt8) : (vmhCheckMask s data).b = s.b := by
  rw [vmhCheckMask]
  split <;> rfl

/-- The new colour is the number of the formula, truncated, but for channels outside the mask. -/
theorem toInt_newColour (rand : Fin 3 → ℕ) (inst : Inst) (s : State) (ch : Fin 3) :
    (newColour rand inst s ch).toInt =
      if Masked inst (vmhCheckMask s (inst 0)) ch then (s.v ch).toInt
      else (formula rand inst s ch).bmod (2 * 128) := by
  have hmask (v : Int8) (x : ℤ) (hcode : code inst ∈ [7, 10]) (hv : v.toInt = x.bmod (2 * 128)) :
      (vmhMaskv (vmhCheckMask s (inst 0)) ch v).toInt =
        if Masked inst (vmhCheckMask s (inst 0)) ch then (s.v ch).toInt
        else x.bmod (2 * 128) := by
    rw [toInt_vmhMaskv, hv, vmhCheckMask_v]
    exact if_congr (by rw [Masked, and_iff_right hcode]) rfl rfl
  have hplain (h : code inst ∉ [7, 10]) : ¬Masked inst (vmhCheckMask s (inst 0)) ch :=
    fun hm => h hm.1
  simp only [newColour, formula]
  split
  next h =>
    rw [if_neg (hplain (by rw [h]; decide)), operands, vmhCheckMask_v]
    exact toInt_vmhGetv ..
  next h =>
    refine hmask _ _ (by rw [h]; decide) ?_
    simp
  next h =>
    refine hmask _ _ (by rw [h]; decide) ?_
    rw [Int16.toInt8_add, (operand_toInt16 _).2.2.2]
    simp
  next h₁ h₇ h₁₀ =>
    rw [if_neg (hplain fun h => (List.mem_pair.mp h).elim h₇ h₁₀), vmhCheckMask_v]
    exact (toInt_bmod _).symm

/-- An instruction for colours sets the masks and limits, and clips the new colours. -/
theorem execInst_of_sends (h : Sends inst) (rand : Fin 3 → ℕ) (s : State) :
    ∃ dodelay, execInst rand inst s = some (.ok,
      incPc (vmhSetRgbdata (prepare rand inst s) (newColour rand inst s) dodelay)) := by
  have hexec {n : ℕ} {handler : Handler} (h : code inst = n)
      (hget : vmHandlers[n]? = some handler) : execInst rand inst s = handler rand inst s := by
    rw [execInst, h, hget]
  obtain hcode | ⟨h, hempty⟩ := h
  · simp only [List.mem_cons, List.not_mem_nil, or_false] at hcode
    obtain h | h | h | h | h := hcode
    · have hnew : newColour rand inst s = operands rand inst (vmhCheckMask s (inst 0)).v true := by
        funext ch
        simp only [newColour, h]
      have hprepare : prepare rand inst s = vmhCheckMask s (inst 0) := by simp only [prepare, h]
      exact ⟨true, by rw [hexec h rfl, hnew, hprepare]; rfl⟩
    · have hnew : newColour rand inst s = fun ch => vmhMaskv (vmhCheckMask s (inst 0)) ch
          (((vmhCheckMask s (inst 0)).v ch).toInt16 +
            (operand inst ch).toUInt16.toInt16).toInt8 := by
        funext ch
        simp only [newColour, h]
      have hprepare : prepare rand inst s = vmhCheckMask s (inst 0) := by simp only [prepare, h]
      exact ⟨true, by rw [hexec h rfl, hnew, hprepare]; rfl⟩
    all_goals
      have hnew : newColour rand inst s = (vmhCheckMask s (inst 0)).v := by
        funext ch
        simp only [newColour, h]
    · have hprepare : prepare rand inst s = { vmhCheckMask s (inst 0) with
          min := operands rand inst (vmhCheckMask s (inst 0)).min true } := by
        simp only [prepare, h]
      exact ⟨false, by rw [hexec h rfl, hnew, hprepare]; rfl⟩
    · have hprepare : prepare rand inst s = { vmhCheckMask s (inst 0) with
          on := operands rand inst (vmhCheckMask s (inst 0)).on false } := by
        simp only [prepare, h]
      exact ⟨false, by rw [hexec h rfl, hnew, hprepare]; rfl⟩
    · have hprepare : prepare rand inst s = { vmhCheckMask s (inst 0) with
          max := operands rand inst (vmhCheckMask s (inst 0)).max true } := by
        simp only [prepare, h]
      exact ⟨false, by rw [hexec h rfl, hnew, hprepare]; rfl⟩
  · have hnew : newColour rand inst s = fun ch => vmhMaskv (vmhCheckMask s (inst 0)) ch
        (((vmhCheckMask s (inst 0)).a ch).toInt16 * ((vmhCheckMask s (inst 0)).v ch).toInt16 +
          ((vmhCheckMask s (inst 0)).b ch).toInt16).toInt8 := by
      funext ch
      simp only [newColour, h]
    have hprepare : prepare rand inst s = vmhCheckMask s (inst 0) := by simp only [prepare, h]
    refine ⟨true, ?_⟩
    rw [hexec h rfl, hnew, hprepare]
    exact if_neg (not_not.mpr hempty)

theorem toInt_vmhClipRgb (s : State) (ch : Fin 3) (v : Int8) : (vmhClipRgb s ch v).toInt =
    if s.on ch = 0 then 0 else min (s.max ch).toInt (max (s.min ch).toInt v.toInt) := by
  simp only [vmhClipRgb, Int8.lt_iff_toInt_lt]
  split_ifs with _ hmin hmax hmax
  · rfl
  · omega
  · omega
  · omega
  · omega

theorem prepare_m (rand : Fin 3 → ℕ) (inst : Inst) (s : State) :
    (prepare rand inst s).m = (vmhCheckMask s (inst 0)).m := by
  rw [prepare]
  split <;> rfl

/-- Clipping depends on the limits only. -/
theorem vmhClipRgb_congr {v : Int8} (hon : s'.on ch = s.on ch) (hmin : s'.min ch = s.min ch)
    (hmax : s'.max ch = s.max ch) : vmhClipRgb s' ch v = vmhClipRgb s ch v := by
  rw [vmhClipRgb, vmhClipRgb, hon, hmin, hmax]

theorem vmhClipRgb_checkMask (s : State) (data : UInt8) (ch : Fin 3) (v : Int8) :
    vmhClipRgb (vmhCheckMask s data) ch v = vmhClipRgb s ch v := by
  rw [vmhCheckMask]
  split <;> rfl

/-- A masked channel is unchanged, if it was settled. -/
theorem vmhClipRgb_masked (h : Settled s) (hmasked : Masked inst (prepare rand inst s) ch) :
    vmhClipRgb (prepare rand inst s) ch (newColour rand inst s ch) = s.v ch := by
  have hm : Masked inst (vmhCheckMask s (inst 0)) ch :=
    ⟨hmasked.1, prepare_m rand inst s ▸ hmasked.2⟩
  have hnew : newColour rand inst s ch = s.v ch := by
    rw [← Int8.toInt_inj, toInt_newColour, if_pos hm]
  have hprepare : prepare rand inst s = vmhCheckMask s (inst 0) := by
    obtain hcode | hcode := List.mem_pair.mp hmasked.1
    · simp only [prepare, hcode]
    · simp only [prepare, hcode]
  rw [hnew, hprepare, vmhClipRgb_checkMask, h ch]

/-- A truncated number is clipped to the right colour of the driver, if and only if the limits and
the number are good. -/
theorem goodColour_iff (lo hi : Int8) (x : ℤ) :
    (min hi.toInt (max lo.toInt (x.bmod (2 * 128))) = clip lo.toInt hi.toInt x ∧
      0 ≤ min hi.toInt (max lo.toInt (x.bmod (2 * 128))) ∧
      min hi.toInt (max lo.toInt (x.bmod (2 * 128))) ≤ ledvmMaxVal) ↔
    GoodColour lo.toInt hi.toInt x := by
  have hclip := clip_bmod_iff (x := x) (by decide : 0 < 128) lo.le_toInt lo.toInt_lt hi.le_toInt
    hi.toInt_lt
  constructor
  · rintro ⟨heq, hrange⟩
    obtain ⟨horder, hwrap⟩ := hclip.mp heq
    rw [heq] at hrange
    obtain ⟨hmax, hmin, hlow, hhigh⟩ := (clip_mem_iff horder).mp hrange
    exact ⟨horder, hmax, hmin, hlow, hhigh, hwrap⟩
  · rintro ⟨horder, hmax, hmin, hlow, hhigh, hwrap⟩
    have heq := hclip.mpr ⟨horder, hwrap⟩
    refine ⟨heq, ?_⟩
    rw [heq]
    exact (clip_mem_iff horder).mpr ⟨hmax, hmin, hlow, hhigh⟩

variable (inst rand) in
/-- The colour of a channel, in a step of an instruction for colours. -/
theorem rightColour_iff (h : Settled s) (ch : Fin 3) :
    ((vmhClipRgb (prepare rand inst s) ch (newColour rand inst s ch)).toInt =
        rightColour inst (prepare rand inst s) ch (s.v ch).toInt (formula rand inst s ch) ∧
      0 ≤ (vmhClipRgb (prepare rand inst s) ch (newColour rand inst s ch)).toInt ∧
      (vmhClipRgb (prepare rand inst s) ch (newColour rand inst s ch)).toInt ≤ ledvmMaxVal) ↔
    ((prepare rand inst s).on ch ≠ 0 →
      if Masked inst (prepare rand inst s) ch then
        0 ≤ (s.v ch).toInt ∧ (s.v ch).toInt ≤ ledvmMaxVal
      else GoodColour ((prepare rand inst s).min ch).toInt ((prepare rand inst s).max ch).toInt
        (formula rand inst s ch)) := by
  rw [rightColour]
  by_cases hon : (prepare rand inst s).on ch = 0
  · rw [toInt_vmhClipRgb, if_pos hon, if_pos hon]
    simp [hon, ledvmMaxVal]
  · rw [if_neg hon]
    by_cases hmasked : Masked inst (prepare rand inst s) ch
    · rw [if_pos hmasked, if_pos hmasked, vmhClipRgb_masked h hmasked]
      simp [hon]
    · have hm : ¬Masked inst (vmhCheckMask s (inst 0)) ch := fun hm =>
        hmasked ⟨hm.1, (congrFun (prepare_m rand inst s) ch).trans hm.2⟩
      rw [if_neg hmasked, if_neg hmasked, toInt_vmhClipRgb, if_neg hon, toInt_newColour, if_neg hm,
        goodColour_iff]
      exact ⟨fun hgood _ => hgood, fun hgood => hgood hon⟩

/-- **The colours of a step.** They are right if and only if the step is good. -/
theorem rightColours_iff (h : Settled s) : RightColours rand inst s ↔ GoodColours rand inst s := by
  refine forall_congr' fun hsends => ?_
  obtain ⟨dodelay, hexec⟩ := execInst_of_sends hsends rand s
  rw [← forall_congr' (rightColour_iff inst rand h)]
  constructor
  · rintro ⟨s', hs', hright⟩
    obtain rfl := (Prod.mk.inj (Option.some.inj (hexec.symm.trans hs'))).2
    cases dodelay
    · exact hright
    · exact hright
  · intro hright
    refine ⟨_, hexec, ?_⟩
    cases dodelay
    · exact hright
    · exact hright

/-! ### Runs -/

/-- What clipping depends on. -/
structure Clipping where
  v : Fin 3 → Int8
  min : Fin 3 → Int8
  max : Fin 3 → Int8
  on : Fin 3 → Int8

/-- What clipping depends on in a machine. -/
def State.clipping (s : State) : Clipping := ⟨s.v, s.min, s.max, s.on⟩

theorem clipping_vmhCheckMask (s : State) (data : UInt8) :
    (vmhCheckMask s data).clipping = s.clipping := by
  rw [vmhCheckMask]
  split <;> rfl

/-- An instruction that sends no colours changes nothing of what clipping depends on. -/
theorem clipping_exec (hsends : ¬Sends inst) {res : LedvmErr}
    (hexec : execInst rand inst s = some (res, s')) : s'.clipping = s.clipping := by
  have hdone {r : LedvmErr} {s₁ : State} (h : some (r, s₁) = some (res, s'))
      (hs : s₁.clipping = s.clipping) : s'.clipping = s.clipping := by
    rw [← (Prod.mk.inj (Option.some.inj h)).2, hs]
  have hmask := clipping_vmhCheckMask s (inst 0)
  rw [execInst] at hexec
  cases hget : vmHandlers[code inst]? with
  | none =>
    rw [hget] at hexec
    exact hdone hexec rfl
  | some handler =>
    replace hexec : handler rand inst s = some (res, s') := by rwa [hget] at hexec
    have hlt : code inst < 15 := (List.getElem?_eq_some_iff.mp hget).1
    rw [Sends] at hsends
    interval_cases hcode : code inst
    all_goals obtain rfl := Option.some.inj hget
    all_goals try exact absurd (.inl (by decide)) hsends
    · rw [vmHNop] at hexec
      split at hexec
      · exact hdone hexec rfl
      · exact hdone hexec hmask
    · exact hdone hexec hmask
    · exact hdone hexec hmask
    · exact hdone hexec hmask
    · rw [vmHRepeat] at hexec
      by_cases hcnt : cntid inst < ledvmRepCounters
      · rw [dif_pos hcnt] at hexec
        have hcount : State.clipping (if s.cntLim.getLsbD (cntid inst) = true then s else
            { s with cntCrt := Function.update s.cntCrt ⟨_, hcnt⟩ (s.cntCrt ⟨_, hcnt⟩ - 1) }) =
              s.clipping := by
          split <;> rfl
        by_cases hactive : s.cntActive.getLsbD (cntid inst) = true
        · rw [if_pos hactive] at hexec
          by_cases hend : repeatDone s ⟨cntid inst, hcnt⟩ = true
          · rw [if_pos hend] at hexec
            exact hdone hexec hcount
          · rw [if_neg hend] at hexec
            exact hdone hexec hcount
        · rw [if_neg hactive] at hexec
          exact hdone hexec rfl
      · rw [dif_neg hcnt] at hexec
        cases hexec
    · exact hdone hexec hmask
    · have hempty : ¬vmhCheckEmptyInst inst = true := fun h => hsends (.inr ⟨rfl, h⟩)
      rw [vmHNextrgb, if_pos hempty] at hexec
      exact hdone hexec rfl
    · rw [vmHCall] at hexec
      split at hexec
      · exact hdone hexec rfl
      · dsimp only at hexec
        split at hexec
        · exact hdone hexec hmask
        · cases hexec
    · rw [vmHRet] at hexec
      split at hexec
      · exact hdone hexec rfl
      · split at hexec
        · exact hdone hexec rfl
        · dsimp only at hexec
          split at hexec
          · exact hdone hexec hmask
          · cases hexec
    · exact hdone hexec hmask

theorem vmhClipRgb_idem (s : State) (ch : Fin 3) (v : Int8) :
    vmhClipRgb s ch (vmhClipRgb s ch v) = vmhClipRgb s ch v := by
  rw [← Int8.toInt_inj, toInt_vmhClipRgb, toInt_vmhClipRgb]
  split
  · rfl
  · omega

/-- Every instruction leaves the colours settled. -/
theorem settled_exec (h : Settled s) {res : LedvmErr}
    (hexec : execInst rand inst s = some (res, s')) : Settled s' := by
  intro ch
  by_cases hsends : Sends inst
  · obtain ⟨dodelay, hsent⟩ := execInst_of_sends hsends rand s
    obtain rfl := (Prod.mk.inj (Option.some.inj (hsent.symm.trans hexec))).2
    cases dodelay
    · exact vmhClipRgb_idem (prepare rand inst s) ch _
    · exact vmhClipRgb_idem (prepare rand inst s) ch _
  · have hsame := clipping_exec hsends hexec
    have hv : s'.v = s.v := congrArg Clipping.v hsame
    rw [hv, ← h ch, h ch]
    exact (vmhClipRgb_congr (congrFun (congrArg Clipping.on hsame) ch)
      (congrFun (congrArg Clipping.min hsame) ch) (congrFun (congrArg Clipping.max hsame) ch)).trans
      (h ch)

/-- The colours are settled in every state of a run. -/
theorem settled_runAll {s₀ : State} (h : Settled s₀) {is : List ((Fin 3 → ℕ) × Inst)}
    (hrun : runAll execNext is s₀ = some s) : Settled s := by
  induction is generalizing s₀ with
  | nil => exact Option.some.inj hrun ▸ h
  | cons i is ih =>
    obtain ⟨s₁, hs₁, hrest⟩ := Option.bind_eq_some_iff.mp hrun
    obtain ⟨⟨res, s₁'⟩, hexec, rfl⟩ := Option.map_eq_some_iff.mp hs₁
    exact ih (settled_exec h hexec) hrest

/-- **The colours of a run.** All that is sent to the lights is right, if and only if all steps are
good. -/
theorem colours_right_iff {s₀ : State} (h : Settled s₀) (is : List ((Fin 3 → ℕ) × Inst)) :
    (∀ is₁ i is₂ s, is = is₁ ++ i :: is₂ → runAll execNext is₁ s₀ = some s →
      RightColours i.1 i.2 s) ↔
    ∀ is₁ i is₂ s, is = is₁ ++ i :: is₂ → runAll execNext is₁ s₀ = some s →
      GoodColours i.1 i.2 s := by
  refine forall₄_congr fun is₁ i is₂ s => ?_
  refine forall₂_congr fun _ hrun => ?_
  exact rightColours_iff (settled_runAll h hrun)

end Steps

theorem settled_init (s : State) : Settled (ledvmInit s) := fun _ => rfl

/-- `setrgb`, `seta` or `nextrgb`, with the numbers of the operands. -/
def colourInst (code number : UInt8) : (Fin 3 → ℕ) × Inst :=
  (0, if code = 7 then ![0x70, 0xAA, 0x55, 0xAA] else ![code <<< 4, number, number, number])

theorem colours_right_setrgb :
    RightColours 0 (colourInst 1 9).2 (ledvmInit resetState) := by
  refine (colours_right_iff (settled_init resetState) [colourInst 1 9]).mpr ?_ [] _ [] _ rfl rfl
  intro is₁ i is₂ s hsplit hrun
  obtain ⟨rfl, rfl, rfl⟩ : is₁ = [] ∧ i = colourInst 1 9 ∧ is₂ = [] := by
    cases is₁ with
    | nil => exact ⟨rfl, (List.cons.inj hsplit).1.symm, (List.cons.inj hsplit).2.symm⟩
    | cons j is₁ => exact absurd (List.cons.inj hsplit).2 (by simp)
  obtain rfl := Option.some.inj hrun
  decide +kernel

/-- A colour of ten and a factor of twenty: the product is truncated to -56, and clipped to 0 and
not to 32. -/
theorem not_colours_right : ¬∀ (is is₁ : List ((Fin 3 → ℕ) × Inst)) i is₂ s,
    is = is₁ ++ i :: is₂ → runAll execNext is₁ (ledvmInit resetState) = some s →
      RightColours i.1 i.2 s := by
  intro hall
  have hbad : (runAll execNext [colourInst 1 9, colourInst 3 19] (ledvmInit resetState)).map
      (fun s => decide (GoodColours (colourInst 7 0).1 (colourInst 7 0).2 s)) = some false := by
    decide +kernel
  obtain ⟨s, hs, hgood⟩ := Option.map_eq_some_iff.mp hbad
  have hright := hall _ _ (colourInst 7 0) [] s rfl hs
  exact of_decide_eq_false hgood
    ((rightColours_iff (settled_runAll (settled_init _) hs)).mp hright)

end ELuaBrain.Lights
