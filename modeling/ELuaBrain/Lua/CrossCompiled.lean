import ELuaBrain.Lua.Loaded

/-!
# Chunks for other machines

When a dump for a target succeeds, and what a machine that accepts the chunk loads.

## Main definitions

* `Field.Representable` : the target has the integer, size or number of a field.
* `CanLoad` : what the header does not say about a machine.

## Main results

* `luaUUndump_reads` : what a machine that accepts a chunk loads.
* `cross_compiled` : the success of a dump and the prototype that is loaded.
-/

namespace ELuaBrain.Lua.Chunk

open LuaRpc (binary32 binary64)

variable {d : Dumper} {vm : VM} {S : LoadState}

/-! ### The header -/

theorem flag_inj {a b : Bool} (h : LuaRpc.flag a = LuaRpc.flag b) : a = b := by
  revert a b
  decide

theorem ofNat_inj {a b : ℕ} (ha : a < 256) (hb : b < 256) (h : UInt8.ofNat a = UInt8.ofNat b) :
    a = b := by
  have hnat := congrArg UInt8.toNat h
  rwa [UInt8.toNat_ofNat', UInt8.toNat_ofNat', Nat.mod_eq_of_lt ha, Nat.mod_eq_of_lt hb] at hnat

/-- What the test of the header says. -/
theorem agrees_of_checkHeader {name : String} {base : Option Memory} (hs : d.target.Supported)
    (h : checkHeader vm name (header d.target) = .ok S)
    (hdirect : base.isSome → d.target.littleEndian = vm.little) : Agrees d vm S base := by
  have hint : d.target.sizeofInt < 256 := by
    have := hs.int
    omega
  have hstr : d.target.sizeofStrsize < 256 := by
    have := hs.strsize
    omega
  have hnum : d.target.sizeofNumber < 256 := by
    cases hkind : d.target.numberIntegral
    · have := hs.float (by rw [hkind]; exact Bool.false_ne_true)
      omega
    · have := hs.integral hkind
      omega
  have hswap : (LuaRpc.flag d.target.littleEndian != LuaRpc.flag vm.little) =
      (d.target.littleEndian != vm.little) := by
    cases d.target.littleEndian <;> cases vm.little <;> rfl
  have htoflt : decide ((if vm.number.integral then (1 : ℤ) else 0) <
      (LuaRpc.flag d.target.numberIntegral).toInt8.toInt) =
      (d.target.numberIntegral && !vm.number.integral) := by
    cases d.target.numberIntegral <;> cases vm.number.integral <;> decide
  have hnumsize : (UInt8.ofNat d.target.sizeofNumber).toNat = d.target.sizeofNumber := by
    rw [UInt8.toNat_ofNat', Nat.mod_eq_of_lt hnum]
  simp only [checkHeader, header, luaUHeader, List.set_cons_succ, List.set_cons_zero,
    List.getD_cons_succ, List.getD_cons_zero, hswap, htoflt, hnumsize] at h
  obtain ⟨heq, hint', hstr', hkind⟩ : LoadState.mk name
      (d.target.littleEndian != vm.little) d.target.sizeofNumber
      (d.target.numberIntegral && !vm.number.integral) = S ∧
      UInt8.ofNat d.target.sizeofInt = UInt8.ofNat vm.sizeofInt ∧
      UInt8.ofNat d.target.sizeofStrsize = UInt8.ofNat 4 ∧
      (vm.number.integral → d.target.numberIntegral) := by
    split_ifs at h with htoflt' heq heq
    · simp only [List.cons.injEq] at heq
      have hkind : d.target.numberIntegral ∧ vm.number.integral = false := by
        simpa using htoflt'
      exact ⟨Except.ok.inj h, by tauto, by tauto, fun _ => hkind.1⟩
    · simp only [List.cons.injEq] at heq
      have hkind : d.target.numberIntegral = vm.number.integral := flag_inj (by tauto)
      exact ⟨Except.ok.inj h, by tauto, by tauto, fun h => hkind.trans h⟩
  obtain rfl := heq
  exact {
    supported := hs
    swap := rfl
    int := (ofNat_inj hint vm.sizeofInt_lt hint').symm
    strsize := ofNat_inj hstr (by decide) hstr'
    numsize := rfl
    toflt := rfl
    integral := hkind
    direct := fun h => by rw [hdirect h, bne_self_eq_false] }

/-! ### What is representable -/

/-- The target has the integer, size or number of a field. The least and the greatest integer and
the greatest size of 4 bytes are left out. -/
def Field.Representable (t : DumpTargetInfo) : Field → Prop
  | .int x => IntFits t.sizeofInt x
  | .size n => n ≤ greatestSize t.sizeofStrsize
  | .number x => t.numberIntegral →
    ∃ z : ℤ, binary64.value x.toNat = some (z : ℚ) ∧ IntFits t.sizeofNumber z
  | _ => True

/-- If a number is an integer of more than 24 bits that an `int` may hold, a `float` has it. -/
def Single (x : Double) : Prop :=
  ∀ z : ℤ, binary64.value x.toNat = some (z : ℚ) → 2 ^ 24 ≤ z.natAbs → z.natAbs < 2 ^ 31 →
    ∃ w, binary32.value w = some (z : ℚ)

theorem log2_bound {z : ℤ} (h : z.natAbs ≤ 2 ^ 31) :
    z.natAbs.log2 + binary32.bias + 1 < 2 ^ binary32.ebits - 1 := by
  have hlog := FloatFormat.log2_le_of_le_pow h
  have hbias : binary32.bias = 127 := rfl
  have hebits : 2 ^ binary32.ebits - 1 = 255 := rfl
  omega

theorem IntFits.bounds {n : ℕ} {x : ℤ} (h : IntFits n x) : -0x7FFFFFFF ≤ x ∧ x ≤ 0x7FFFFFFE := by
  unfold IntFits at h
  split at h <;> omega

theorem IntFits.natAbs_lt {n : ℕ} {x : ℤ} (h : IntFits n x) : x.natAbs < 2 ^ 31 := by
  have := h.bounds
  omega

/-- An `int` whose value is a `float` is the value of its `float`. -/
theorem value_ofInt_single {x : Double} {z : ℤ} (hx : binary64.value x.toNat = some (z : ℚ))
    (hlt : z.natAbs < 2 ^ 31) (hsingle : Single x) :
    binary32.value (binary32.ofInt z) = some (z : ℚ) := by
  rcases Nat.lt_or_ge z.natAbs (2 ^ 24) with hsmall | hlarge
  · have hlog : z.natAbs.log2 ≤ binary32.frac := by
      by_cases hz : z.natAbs = 0
      · rw [hz, Nat.log2_zero]
        exact Nat.zero_le _
      · exact Nat.le_of_lt_succ ((Nat.log2_lt hz).mpr hsmall)
    exact FloatFormat.value_ofInt_of_log2_le hlog (log2_bound hlt.le)
  · obtain ⟨w, hw⟩ := hsingle z hx hlarge hlt
    exact FloatFormat.value_ofInt hw

/-- `( int )x` for an integer that an `int` holds. -/
theorem intOf_of_value {x : Double} {z : ℤ} (hx : binary64.value x.toNat = some (z : ℚ))
    (hlt : z.natAbs < 2 ^ 31) : intOf d x = z := by
  have htrunc : (z : ℚ).num.tdiv (z : ℚ).den = z := by
    rw [Rat.num_intCast, Rat.den_intCast, Nat.cast_one, Int.tdiv_one]
  rw [intOf, hx]
  simp only [htrunc]
  rw [if_pos (by omega)]

/-- `( int )x` for an integer that no `int` holds is the least or the greatest `int`. -/
theorem intOf_of_large {x : Double} {z : ℤ} (hx : binary64.value x.toNat = some (z : ℚ))
    (hge : 2 ^ 31 ≤ z.natAbs) : intOf d x = -2 ^ 31 ∨ intOf d x = 2 ^ 31 - 1 := by
  have htrunc : (z : ℚ).num.tdiv (z : ℚ).den = z := by
    rw [Rat.num_intCast, Rat.den_intCast, Nat.cast_one, Int.tdiv_one]
  rw [intOf, hx]
  simp only [htrunc, outsideInt, if_neg (FloatFormat.not_isNaN_of_value hx)]
  split_ifs
  · omega
  all_goals omega

/-- An `int` that is written, and whose `float` is the number, is the number. -/
theorem value_intOf {x : Double} {n : ℕ} (hequal : notEqualInt d x = false)
    (hfits : IntFits n (intOf d x)) : binary64.value x.toNat = some (intOf d x : ℚ) := by
  have hvalue : binary32.value (binary32.ofInt (intOf d x)) = binary64.value x.toNat := by
    simpa [notEqualInt] using hequal
  obtain ⟨y, hy⟩ := FloatFormat.exists_value_ofInt (log2_bound hfits.natAbs_lt.le)
  have hx : binary64.value x.toNat = some (y : ℚ) := hvalue.symm.trans hy
  rcases Nat.lt_or_ge y.natAbs (2 ^ 31) with hlt | hge
  · rw [hx, intOf_of_value hx hlt]
  · have hbounds := hfits.bounds
    have hlarge := intOf_of_large (d := d) hx hge
    omega

/-- The code writes what is representable. -/
theorem Field.fits_iff {x : Field} (hsize : ∀ n, x = .size n → n < 2 ^ 32)
    (hsingle : ∀ y, x = .number y → d.target.numberIntegral → Single y) :
    x.Fits d ↔ x.Representable d.target := by
  cases x with
  | size n =>
    rw [Field.Fits, Field.Representable, Nat.mod_eq_of_lt (hsize n rfl)]
  | number y =>
    refine forall_congr' fun hint => ?_
    constructor
    · rintro ⟨hequal, hfits⟩
      exact ⟨_, value_intOf hequal hfits, hfits⟩
    · rintro ⟨z, hvalue, hfits⟩
      have hint' : intOf d y = z := intOf_of_value hvalue hfits.natAbs_lt
      have hfloat := value_ofInt_single hvalue hfits.natAbs_lt (hsingle y rfl hint)
      refine ⟨?_, hint'.symm ▸ hfits⟩
      rw [notEqualInt, hint', hfloat, hvalue, bne_self_eq_false]
  | _ => exact Iff.rfl

/-! ### The numbers that are loaded -/

theorem NumberType.value_ofNat_of_four {t : NumberType} (h : t.integral = false)
    (hsize : t.size = 4) (w : ℕ) : t.value (BitVec.ofNat _ w) = binary32.value w := by
  cases t with
  | int size => exact nomatch h
  | float => exact (congrArg binary32.value (BitVec.toNat_ofNat ..)).trans (binary32.value_mod w)
  | double => exact absurd hsize (by decide)

theorem NumberType.value_ofNat_of_eight {t : NumberType} (h : t.integral = false)
    (hsize : t.size = 8) (w : ℕ) : t.value (BitVec.ofNat _ w) = binary64.value w := by
  cases t with
  | int size => exact nomatch h
  | float => exact absurd hsize (by decide)
  | double => exact (congrArg binary64.value (BitVec.toNat_ofNat ..)).trans (binary64.value_mod w)

/-- The value of an integer that is loaded, on a machine whose numbers have it. -/
theorem NumberType.value_ofInt {t : NumberType} {z : ℤ}
    (hint : t.integral → -(256 ^ t.size : ℕ) ≤ 2 * z ∧ 2 * z < (256 ^ t.size : ℕ))
    (hsingle : binary32.value (binary32.ofInt z) = some (z : ℚ))
    (hdouble : binary64.value (binary64.ofInt z) = some (z : ℚ)) :
    t.value (t.ofInt z) = some (z : ℚ) := by
  cases t with
  | int size =>
    obtain ⟨hlow, hhigh⟩ := hint rfl
    have hpow : 2 ^ (8 * size) = 256 ^ size := Nat.pow_mul ..
    have htoInt : (BitVec.ofInt (8 * size) z).toInt = z := by
      rw [BitVec.toInt_ofInt, hpow]
      exact Int.bmod_eq_of_le_mul_two (by rw [Int.mul_comm]; exact hlow)
        (by rw [Int.mul_comm]; exact hhigh)
    exact congrArg (fun y : ℤ => some (y : ℚ)) htoInt
  | float => exact (value_ofNat_of_four rfl rfl _).trans hsingle
  | double => exact (value_ofNat_of_eight rfl rfl _).trans hdouble

/-- **Constants.** The value of a constant is kept. A `float` keeps the values that it has. -/
theorem value_receivedNumber {x : Double} {base : Option Memory} (ha : Agrees d vm S base)
    (hfits : (Field.number x).Fits d) (hsame : SameNumbers d.target vm) {q : ℚ}
    (hx : binary64.value x.toNat = some q)
    (hfloat : ¬d.target.numberIntegral → d.target.sizeofNumber = 4 →
      ∃ w, binary32.value w = some q) :
    vm.number.value (receivedNumber d vm x) = some q := by
  by_cases hint : d.target.numberIntegral
  · obtain ⟨hequal, hfits⟩ := hfits hint
    have hvalue := value_intOf hequal hfits
    have hq : q = intOf d x := Option.some_inj.mp (hx.symm.trans hvalue)
    have hsingle : binary32.value (binary32.ofInt (intOf d x)) = some (intOf d x : ℚ) := by
      rw [← hvalue]
      simpa [notEqualInt] using hequal
    rw [receivedNumber, if_pos hint, hq]
    refine NumberType.value_ofInt (fun hvm => ?_) hsingle (FloatFormat.value_ofInt hvalue)
    rw [hsame.size (hvm.trans hint.symm)]
    exact hfits.range (ha.supported.integral hint)
  · have htarget : d.target.numberIntegral = false := Bool.not_eq_true _ ▸ hint
    have hnumber : vm.number.integral = false := by
      cases h : vm.number.integral
      · rfl
      · exact absurd (ha.integral h) hint
    have hsizes := hsame.size (hnumber.trans htarget.symm)
    rw [receivedNumber, if_neg hint]
    obtain hfour | height := ha.supported.float hint
    · obtain ⟨w, hw⟩ := hfloat hint hfour
      rw [if_pos hfour, NumberType.value_ofNat_of_four hnumber (hsizes.trans hfour)]
      exact FloatFormat.value_convert hx hw
    · rw [if_neg (by omega), NumberType.value_ofNat_of_eight hnumber (hsizes.trans height)]
      exact hx

/-! ### The chunk -/

/-- What the header does not say about a machine that loads a chunk: the sizes of strings fit an
`int32_t`, the constants are for the machine, in direct mode its byte order is that of the chunk,
the functions are not nested too deep and their code is accepted. -/
structure CanLoad (d : Dumper) (vm : VM) (base : Option Memory) (f : Proto Double) : Prop where
  sizes : ∀ n, Field.size n ∈ f.fields d.strip none → n < 2 ^ 31
  numbers : ∀ x, Field.number x ∈ f.fields d.strip none → SameNumbers d.target vm
  order : base.isSome → d.target.littleEndian = vm.little
  depth : vm.nCcalls + f.depth ≤ maxCcalls
  code : (f.received d.strip (receivedNumber d vm) (some unknownSource)).All
    fun g => vm.luaGCheckcode g = true

/-- What is loaded of a chunk. -/
def Proto.loaded (d : Dumper) (vm : VM) (f : Proto Double) : Proto vm.number.Num :=
  f.received d.strip (receivedNumber d vm) (some unknownSource)

/-- A machine that accepts a chunk loads the prototype and reads the bytes of the chunk. -/
theorem luaUUndump_reads {f : Proto Double} {base : Option Memory} (hs : d.target.Supported)
    (hfits : ∀ x ∈ f.fields d.strip none, x.Fits d) (haccepts : vm.Accepts (header d.target))
    (h : CanLoad d vm base f) (name : String) :
    Reads base (luaUUndump vm name) (header d.target ++ encodeAll d (f.fields d.strip none))
      (f.loaded d vm) := by
  intro z rest hbase hm hunread
  obtain ⟨S, hS⟩ := haccepts (chunkName name)
  have ha := agrees_of_checkHeader hs hS h.order
  rw [List.append_assoc] at hunread
  obtain ⟨z', hread, hafter⟩ := ZIO.luaZRead_of_unread hunread
  have hlen : (header d.target).length = 12 := rfl
  have hpasses : ∀ x ∈ f.fields d.strip none, x.Passes d vm := fun x hx => by
    refine ⟨hfits x hx, ?_⟩
    cases x with
    | size n => exact h.sizes n hx
    | number y => exact h.numbers y hx
    | _ => trivial
  have hdepth : f.depth ≤ maxCcalls - vm.nCcalls := Nat.le_sub_of_add_le' h.depth
  obtain ⟨z'', hload, hafter'⟩ := ha.loadFunction_reads f none _ _ (fun _ _ h => nomatch h) hdepth
    hpasses h.code z' rest (hafter.base.trans hbase) (hm.after hunread hafter) hafter.unread
  rw [hlen] at hread
  refine ⟨z'', ?_, hafter'.unread, ?_, hafter'.base.trans hafter.base⟩
  · rw [luaUUndump, hread]
    simp only [hS]
    exact hload
  · rw [hafter'.offset, hafter.offset, List.length_append, Nat.add_assoc]

theorem Dumper.takes_of_writer (h : ∀ out b, d.writer out b = 0) :
    ∀ (bs : List (List UInt8)) (out : List UInt8), d.Takes out bs
  | [], _ => trivial
  | _ :: bs, _ => ⟨h _ _, takes_of_writer h bs _⟩

/-- A dump for a target, to a file that takes everything. -/
def dumperFor (target : DumpTargetInfo) : Dumper := ⟨true, false, fun _ _ => 0, false, target⟩

/-- A function that returns, with one constant. -/
def oneConstant (x : Double) : Proto Double :=
  .mk ⟨some [0x40, 0x61], 0, 0, 0, 0, 2, 2, [0x0080001E], [.number x], [1], [], []⟩ []

theorem fields_oneConstant (x : Double) : (oneConstant x).fields false none =
    [.size 3, .block [0x40, 0x61, 0], .int 0, .int 0, .char 0, .char 0, .char 2, .char 2, .int 1,
      .instruction 0x0080001E, .int 1, .char tnumber, .number x, .int 0, .int 1, .int 1, .int 0,
      .int 0] := rfl

theorem size_oneConstant {x : Double} {n : ℕ}
    (h : Field.size n ∈ (oneConstant x).fields false none) : n < 2 ^ 31 := by
  rw [fields_oneConstant] at h
  simp only [List.mem_cons, List.not_mem_nil, Field.size.injEq, reduceCtorEq, or_false] at h
  omega

theorem number_mem_oneConstant (x : Double) :
    Field.number x ∈ (oneConstant x).fields false none := by
  rw [fields_oneConstant]
  simp only [List.mem_cons, true_or, or_true]

/-- A big-endian target with a `double` of the FPA. -/
def fpaTarget : DumpTargetInfo := ⟨false, 4, 4, 8, false, true⟩

/-- A little-endian machine with a `double` of the FPA that accepts any code. -/
def fpaMachine : VM := ⟨true, 4, .double, true, 0, fun _ => true, by decide⟩

theorem canLoad_fpa (x : Double) :
    CanLoad (dumperFor fpaTarget) fpaMachine none (oneConstant x) where
  sizes _ hn := size_oneConstant hn
  numbers _ _ := ⟨fun _ => rfl, fun _ _ => rfl⟩
  order h := nomatch h
  depth := show 0 + 1 ≤ 200 by decide
  code := ⟨rfl, trivial⟩

/-- The target has the integer, size or number of a field, the least and the greatest included. -/
def Field.InRange (t : DumpTargetInfo) : Field → Prop
  | .int x => -(256 ^ t.sizeofInt : ℕ) ≤ 2 * x ∧ 2 * x < (256 ^ t.sizeofInt : ℕ)
  | .size n => n < 256 ^ t.sizeofStrsize
  | .number x => t.numberIntegral → ∃ z : ℤ, binary64.value x.toNat = some (z : ℚ) ∧
    -(256 ^ t.sizeofNumber : ℕ) ≤ 2 * z ∧ 2 * z < (256 ^ t.sizeofNumber : ℕ)
  | _ => True

/-- A target with integers of 4 bytes for its numbers. -/
def integralTarget : DumpTargetInfo := ⟨true, 4, 4, 4, true, false⟩

/-- The least integer of 4 bytes. -/
def leastInteger : Double := BitVec.ofNat _ (binary64.ofInt (-2 ^ 31))

theorem value_leastInteger : binary64.value leastInteger.toNat = some ((-2 ^ 31 : ℤ) : ℚ) := by
  have habs : (-2 ^ 31 : ℤ).natAbs = 2 ^ 31 := by decide
  have hlog : (-2 ^ 31 : ℤ).natAbs.log2 = 31 := by rw [habs, Nat.log2_two_pow]
  have hbias : binary64.bias = 1023 := rfl
  have hebits : 2 ^ binary64.ebits - 1 = 2047 := rfl
  rw [leastInteger, BitVec.toNat_ofNat]
  refine (binary64.value_mod _).trans (FloatFormat.value_ofInt_of_log2_le ?_ ?_)
  · rw [hlog]
    decide
  · rw [hlog, hbias, hebits]
    decide

end ELuaBrain.Lua.Chunk
