import ELuaBrain.Lua.Undump

/-!
# Fields that are loaded

What the loader reads of the fields of a chunk, copied or in place.

## Main definitions

* `Agrees` : what the header of a chunk that is accepted says about the machine.
* `SameNumbers`, `receivedNumber` : that the constants are for the machine, and the numbers that it
  loads.

## Main results

* `loadVector_reads`, `Agrees.loadString_reads` : vectors and strings, copied or in place.
* `Agrees.loadNumber_reads` : numbers.
* `Agrees.loadFunction_reads` : a prototype, by induction on it.
-/

namespace ELuaBrain.Lua.Chunk

open LuaRpc (binary32 binary64)

variable {d : Dumper} {vm : VM} {S : LoadState} {base : Option Memory} {bs cs : List UInt8}

/-! ### Integers in memory -/

theorem intValue_intMemory {little : Bool} {n : ℕ} {x : ℤ} (hlow : -(256 ^ n : ℕ) ≤ 2 * x)
    (hhigh : 2 * x < (256 ^ n : ℕ)) : intValue little (intMemory little n x) = x := by
  have hpos : 0 < 256 ^ n := Nat.pow_pos (by decide)
  obtain ⟨b, hb⟩ : ∃ b, b = 256 ^ n := ⟨_, rfl⟩
  have hlen : (intMemory little n x).length = n := length_wordBytes ..
  have hlt : (x % (b : ℕ)).toNat < b := by
    have := Int.emod_lt_of_pos x (show (0 : ℤ) < b by omega)
    omega
  have hword : wordOf little (intMemory little n x) = (x % (b : ℕ)).toNat := by
    rw [intMemory, ← hb]
    exact wordOf_wordBytes (hb ▸ hlt)
  rw [intValue, hlen, hword, ← hb]
  rw [← hb] at hlow hhigh hpos
  rcases lt_or_ge x 0 with hneg | hnonneg
  · have hmod : x % (b : ℕ) = x + b := by
      rw [← Int.add_emod_right, Int.emod_eq_of_lt (by omega) (by omega)]
    rw [hmod]
    split_ifs <;> omega
  · rw [Int.emod_eq_of_lt hnonneg (by omega)]
    split_ifs <;> omega

theorem IntFits.range {n : ℕ} {x : ℤ} (hn : n = 1 ∨ n = 2 ∨ n = 4) (h : IntFits n x) :
    -(256 ^ n : ℕ) ≤ 2 * x ∧ 2 * x < (256 ^ n : ℕ) := by
  obtain rfl | rfl | rfl := hn <;> (simp only [IntFits] at h; omega)

/-! ### Blocks -/

theorem loadBlock_reads : Reads base (loadBlock S bs.length) bs bs := by
  intro z rest _ _ hunread
  obtain ⟨z', hread, hafter⟩ := ZIO.luaZRead_of_unread hunread
  refine ⟨z', ?_, hafter⟩
  rw [loadBlock, hread]

theorem loadBlock_reads_of_length {n : ℕ} (hlen : bs.length = n) :
    Reads base (loadBlock S n) bs bs := hlen ▸ loadBlock_reads

/-- What depends on the current address, where the bytes that are read are in memory. -/
theorem currentAddress_reads {β : Type} {f : Option Memory × ℕ → Load β} {b : β}
    (h : ∀ i, (∀ m, base = some m → m.slice i bs.length = bs) → Reads base (f (base, i)) bs b) :
    Reads base (currentAddress >>= f) bs b := by
  intro z rest hbase hm hunread
  obtain ⟨z', hact, hafter⟩ :=
    h z.i (fun m hm' => hm.slice hunread (hbase.trans hm')) z rest hbase hm hunread
  refine ⟨z', ?_, hafter⟩
  change f (z.base, z.i) z = _
  rw [hbase]
  exact hact

/-- A variable in the byte order of the machine. -/
def LoadState.own (S : LoadState) (bs : List UInt8) : List UInt8 :=
  if S.swap then bs.reverse else bs

theorem pieces_flatMap {α : Type} {size : ℕ} {bytes : α → List UInt8} {xs : List α}
    (hlen : ∀ x ∈ xs, (bytes x).length = size) :
    pieces size xs.length (xs.flatMap bytes) = xs.map bytes := by
  induction xs with
  | nil => rfl
  | cons x xs ih =>
    obtain ⟨hx, hxs⟩ := List.forall_mem_cons.mp hlen
    rw [List.length_cons, List.flatMap_cons, pieces, List.take_left' hx, List.drop_left' hx, ih hxs,
      List.map_cons]

theorem length_flatMap_of_length {α : Type} {size : ℕ} {bytes : α → List UInt8} {xs : List α}
    (hlen : ∀ x ∈ xs, (bytes x).length = size) : (xs.flatMap bytes).length = xs.length * size := by
  induction xs with
  | nil => exact (Nat.zero_mul _).symm
  | cons x xs ih =>
    obtain ⟨hx, hxs⟩ := List.forall_mem_cons.mp hlen
    rw [List.flatMap_cons, List.length_append, hx, ih hxs, List.length_cons, Nat.succ_mul,
      Nat.add_comm]

section Array

variable {α : Type} {size : ℕ} {bytes : α → List UInt8} {xs : List α}

theorem loadMem_reads (hsize : Swappable size) (hlen : ∀ x ∈ xs, (bytes x).length = size) :
    Reads base (loadMem S xs.length size) (xs.flatMap bytes)
      (xs.map fun x => S.own (bytes x)) := by
  have hpieces := pieces_flatMap hlen
  rw [loadMem, ← List.append_nil (xs.flatMap bytes)]
  refine (loadBlock_reads_of_length (length_flatMap_of_length hlen)).bind ?_
  cases hswap : S.swap
  · simp only [LoadState.own, hswap, Bool.false_eq_true, if_false, hpieces]
    exact Reads.pure _
  · have hmap : (xs.map bytes).map List.reverse = xs.map fun x => (bytes x).reverse :=
      List.map_map ..
    simp only [LoadState.own, hswap, if_true, if_pos hsize, hpieces, hmap]
    exact Reads.pure _

/-- A vector is the same whether it is copied, or used in place where nothing is to be swapped. -/
theorem loadVector_reads (hdirect : base.isSome → S.swap = false) (hsize : Swappable size)
    (hlen : ∀ x ∈ xs, (bytes x).length = size) :
    Reads base (loadVector S xs.length size) (xs.flatMap bytes)
      (xs.map fun x => S.own (bytes x)) := by
  rw [loadVector]
  refine currentAddress_reads fun i hmem => ?_
  cases hbase : base with
  | none => exact loadMem_reads hsize hlen
  | some m =>
    have hslice := hmem m hbase
    have hswap := hdirect (by rw [hbase]; rfl)
    have hown : (fun x => S.own (bytes x)) = bytes := by
      funext x
      rw [LoadState.own, hswap, if_neg Bool.false_ne_true]
    rw [length_flatMap_of_length hlen] at hslice
    rw [hown, ← List.append_nil (xs.flatMap bytes)]
    refine (loadBlock_reads_of_length (length_flatMap_of_length hlen)).bind ?_
    simp only [hslice, pieces_flatMap hlen]
    exact Reads.pure _

end Array

theorem loadVar_reads {size : ℕ} (hsize : Swappable size) (hlen : bs.length = size) :
    Reads base (loadVar S size) bs (S.own bs) := by
  have hmem : Reads base (loadMem S [bs].length size) ([bs].flatMap id)
      ([bs].map fun b => S.own (id b)) :=
    loadMem_reads hsize fun x hx => by rw [List.mem_singleton.mp hx]; exact hlen
  have hflat : [bs].flatMap id = bs := by rw [List.flatMap_singleton, id]
  rw [hflat] at hmem
  exact hmem.map

theorem loadChar_reads (b : UInt8) : Reads base (loadChar S) [b] b := by
  have hvar : Reads base (loadVar S 1) [b] (S.own [b]) := loadVar_reads (.inl rfl) rfl
  have hown : S.own [b] = [b] := by
    rw [LoadState.own]
    split_ifs <;> rfl
  rw [hown] at hvar
  exact hvar.map

/-! ### Numbers in memory -/

theorem own_swapHalves (hlen : bs.length = 8) : S.own (swapHalves bs) = swapHalves (S.own bs) := by
  rw [LoadState.own, LoadState.own]
  split_ifs with hswap
  · rw [swapHalves, swapHalves, List.reverse_append, List.reverse_take, List.reverse_drop, hlen]
  · rfl

theorem swapHalves_swapHalves (hlen : bs.length = 8) : swapHalves (swapHalves bs) = bs := by
  have hdrop : (bs.drop 4).length = 4 := by rw [List.length_drop, hlen]
  rw [swapHalves, swapHalves, List.drop_left' hdrop, List.take_left' hdrop, List.take_append_drop]

theorem ofNat_mod_pow (size x : ℕ) :
    BitVec.ofNat (8 * size) (x % 256 ^ size) = BitVec.ofNat (8 * size) x := by
  refine BitVec.eq_of_toNat_eq ?_
  rw [BitVec.toNat_ofNat, BitVec.toNat_ofNat, Nat.pow_mul, Nat.mod_mod]

/-- The number with these bytes, where no halves are swapped. -/
theorem numberOf_wordBytes (h : ¬(vm.number = .double ∧ vm.armFpa)) {n : ℕ}
    (hn : n = vm.number.size) (x : ℕ) :
    vm.numberOf (wordBytes vm.little n x) = BitVec.ofNat _ x := by
  rw [VM.numberOf, if_neg h, wordOf_wordBytes_mod, hn, ofNat_mod_pow]

/-- The number with the bytes of a `double`. -/
theorem numberOf_double (h : vm.number = .double) (x : ℕ) :
    vm.numberOf (if vm.armFpa then swapHalves (wordBytes vm.little 8 x)
      else wordBytes vm.little 8 x) = BitVec.ofNat _ x := by
  have hsize : 8 = vm.number.size := by rw [h]; rfl
  cases hfpa : vm.armFpa
  · rw [if_neg Bool.false_ne_true]
    exact numberOf_wordBytes (fun hfpa' => absurd (hfpa.symm.trans hfpa'.2) (by decide)) hsize x
  · have hpow : 256 ^ 8 = 256 ^ vm.number.size := congrArg (256 ^ ·) hsize
    rw [if_pos rfl, VM.numberOf, if_pos ⟨h, hfpa⟩, swapHalves_swapHalves (length_wordBytes ..),
      wordOf_wordBytes_mod, hpow, ofNat_mod_pow]

/-- An integer that `lua_Number` is. -/
theorem NumberType.ofInt_eq {t : NumberType} (h : t.integral) (y : ℤ) :
    t.ofInt y = BitVec.ofNat _ (y % (256 ^ t.size : ℕ)).toNat := by
  cases t with
  | int size =>
    have hpos : 0 < 256 ^ size := Nat.pow_pos (by decide)
    obtain ⟨b, hb⟩ : ∃ b, b = 256 ^ size := ⟨_, rfl⟩
    have hpow : 2 ^ (8 * size) = b := by rw [Nat.pow_mul, hb]
    have hlt := Int.emod_lt_of_pos y (show (0 : ℤ) < b by omega)
    refine BitVec.eq_of_toNat_eq ?_
    simp only [NumberType.ofInt, NumberType.size, BitVec.toNat_ofInt, BitVec.toNat_ofNat, hpow,
      ← hb]
    exact (Nat.mod_eq_of_lt (by omega)).symm
  | float => exact absurd h Bool.false_ne_true
  | double => exact absurd h Bool.false_ne_true

/-! ### Fields -/

/-- What the header of a chunk that is accepted says about the machine, and that nothing is to be
swapped in direct mode. -/
structure Agrees (d : Dumper) (vm : VM) (S : LoadState) (base : Option Memory) : Prop where
  supported : d.target.Supported
  swap : S.swap = (d.target.littleEndian != vm.little)
  int : vm.sizeofInt = d.target.sizeofInt
  strsize : d.target.sizeofStrsize = 4
  numsize : S.numsize = d.target.sizeofNumber
  toflt : S.toflt = (d.target.numberIntegral && !vm.number.integral)
  integral : vm.number.integral → d.target.numberIntegral
  direct : base.isSome → S.swap = false

/-- A chunk with constants for the `lua_Number` of the machine: a chunk with integers for a machine
with integers of the same size or one without, or a chunk with floating-point numbers of the same
size and, for a `double`, the same order of its halves. The header does not say this. -/
structure SameNumbers (t : DumpTargetInfo) (vm : VM) : Prop where
  size : vm.number.integral = t.numberIntegral → vm.number.size = t.sizeofNumber
  halves : ¬t.numberIntegral → t.sizeofNumber = 8 → vm.armFpa = t.isArmFpa

/-- The number that is loaded for a constant. -/
def receivedNumber (d : Dumper) (vm : VM) (x : Double) : vm.number.Num :=
  if d.target.numberIntegral then vm.number.ofInt (intOf d x)
  else BitVec.ofNat _
    (if d.target.sizeofNumber = 4 then binary32.convert binary64 x.toNat else x.toNat)

/-- Whether the loader reads a field: a size fits an `int32_t` and the numbers are those of the
machine. -/
def Field.Readable (d : Dumper) (vm : VM) : Field → Prop
  | .size n => n < 2 ^ 31
  | .number _ => SameNumbers d.target vm
  | _ => True

section Fields

variable (ha : Agrees d vm S base)

include ha

theorem Agrees.own_wordBytes (n x : ℕ) :
    S.own (wordBytes d.target.littleEndian n x) = wordBytes vm.little n x := by
  rw [LoadState.own, ha.swap]
  cases hchunk : d.target.littleEndian <;> cases hvm : vm.little
  · rfl
  · exact wordBytes_reverse
  · exact wordBytes_reverse
  · rfl

theorem Agrees.swappable_int : Swappable vm.sizeofInt := by
  rw [ha.int]
  exact ha.supported.int.imp_right fun h => h.imp_right .inl

theorem Agrees.int_reads {x : ℤ} (h : IntFits d.target.sizeofInt x) :
    Reads base (intValue vm.little <$> loadVar S vm.sizeofInt) ((Field.int x).encode d) x := by
  obtain ⟨hlow, hhigh⟩ := h.range ha.supported.int
  have hvar : Reads base (loadVar S vm.sizeofInt) ((Field.int x).encode d)
      (S.own ((Field.int x).encode d)) :=
    loadVar_reads ha.swappable_int ((length_wordBytes ..).trans ha.int.symm)
  have hown : S.own ((Field.int x).encode d) = intMemory vm.little d.target.sizeofInt x :=
    ha.own_wordBytes ..
  have hvalue := hvar.map (f := intValue vm.little)
  rwa [hown, intValue_intMemory hlow hhigh] at hvalue

theorem Agrees.loadInt_reads {n : ℕ} (h : IntFits d.target.sizeofInt n) :
    Reads base (loadInt vm S) ((Field.int n).encode d) n := by
  rw [loadInt, ← List.append_nil ((Field.int n).encode d)]
  refine (ha.int_reads h).bind ?_
  rw [if_neg (by omega), Int.toNat_natCast]
  exact Reads.pure n

theorem Agrees.size_reads {n : ℕ} (h : n < 2 ^ 31) :
    Reads base (intValue vm.little <$> loadVar S 4) ((Field.size n).encode d) n := by
  have hvar : Reads base (loadVar S 4) ((Field.size n).encode d)
      (S.own ((Field.size n).encode d)) :=
    loadVar_reads (by decide) (by rw [Field.encode, length_wordBytes, ha.strsize])
  have hown : S.own ((Field.size n).encode d) = intMemory vm.little 4 n := by
    have hmod : ((n : ℤ) % (256 ^ 4 : ℕ)).toNat = n % 2 ^ 32 := by omega
    rw [Field.encode, ha.own_wordBytes, ha.strsize, intMemory, hmod]
  have hvalue := hvar.map (f := intValue vm.little)
  rwa [hown, intValue_intMemory (by omega) (by omega)] at hvalue

/-- A string is the same whether it is copied or used in place. -/
theorem Agrees.loadString_reads {s : Option Text}
    (h : ∀ x ∈ Field.ofString s, x.Readable d vm) :
    Reads base (loadString vm S) ((Field.ofString s).flatMap (Field.encode d)) s := by
  rw [loadString]
  cases s with
  | none =>
    refine (ha.size_reads (n := 0) (by decide)).bind ?_
    rw [if_pos Nat.cast_zero]
    exact Reads.pure none
  | some s =>
    have hlt : s.length + 1 < 2 ^ 31 := h (.size (s.length + 1)) (List.mem_cons_self ..)
    have hmod : (s.length + 1) % 2 ^ 32 = s.length + 1 := Nat.mod_eq_of_lt (by omega)
    have hblock : (s ++ [0]).take ((s.length + 1) % 2 ^ 32) = s ++ [0] := by
      rw [hmod]
      exact List.take_of_length_le (by rw [List.length_append, List.length_singleton])
    have hlen : (s ++ [(0 : UInt8)]).length = s.length + 1 := by
      rw [List.length_append, List.length_singleton]
    rw [Field.ofString, hblock, List.flatMap_cons]
    refine (ha.size_reads hlt).bind ?_
    have hflat : [Field.block (s ++ [0])].flatMap (Field.encode d) = s ++ [0] :=
      List.flatMap_singleton ..
    have htake : (s ++ [(0 : UInt8)]).take s.length = s := List.take_left
    rw [hflat, if_neg (by omega), Int.toNat_natCast, Nat.add_sub_cancel]
    refine currentAddress_reads fun i hmem => ?_
    have hread : Reads base (loadBlock S (s.length + 1)) (s ++ [0]) (s ++ [0]) :=
      loadBlock_reads_of_length hlen
    cases hbase : base with
    | none =>
      rw [if_neg (by omega), ← List.append_nil (s ++ [0])]
      rw [hbase] at hread
      refine hread.bind ?_
      rw [htake]
      exact Reads.pure _
    | some m =>
      have hslice : m.slice i s.length = s := by
        have hall := hmem m hbase
        rw [hlen, Memory.slice_add] at hall
        exact (List.append_inj hall Memory.length_slice).1
      rw [if_neg (by omega), ← List.append_nil (s ++ [0])]
      rw [hbase] at hread
      refine hread.bind ?_
      rw [hslice]
      exact Reads.pure _

end Fields

/-- A number whose bytes are those of a `lua_Number` of the machine. -/
theorem numberOf_reads {y : vm.number.Num} (hsize : Swappable vm.number.size)
    (hlen : bs.length = vm.number.size) (hvalue : vm.numberOf (S.own bs) = y) :
    Reads base (vm.numberOf <$> loadVar S vm.number.size) bs y :=
  hvalue ▸ (loadVar_reads hsize hlen).map

section Numbers

variable (ha : Agrees d vm S base) {x : Double}

include ha

/-- The bytes of an integer in the order of the machine. -/
theorem Agrees.own_number (hint : d.target.numberIntegral) :
    S.own ((Field.number x).encode d) =
      intMemory vm.little d.target.sizeofNumber (intOf d x) := by
  rw [Field.encode, if_pos hint]
  exact ha.own_wordBytes ..

/-- An integer is loaded for a machine with integers, or converted. -/
theorem Agrees.loadNumber_reads_integral (hfits : (Field.number x).Fits d)
    (hsame : SameNumbers d.target vm) (hint : d.target.numberIntegral) :
    Reads base (loadNumber vm S) ((Field.number x).encode d) (receivedNumber d vm x) := by
  have hsize := ha.supported.integral hint
  have hswappable : Swappable d.target.sizeofNumber := hsize.imp_right fun h => h.imp_right .inl
  have hlen : ((Field.number x).encode d).length = d.target.sizeofNumber := by
    rw [Field.encode, if_pos hint]
    exact length_wordBytes ..
  rw [loadNumber, ha.toflt, ha.numsize, receivedNumber, if_pos hint, hint, Bool.true_and]
  cases hnumber : vm.number.integral
  · obtain ⟨hlow, hhigh⟩ := (hfits hint).2.range hsize
    rw [Bool.not_false, if_pos rfl, if_pos hswappable]
    have hvar : Reads base (loadVar S d.target.sizeofNumber) ((Field.number x).encode d)
        (S.own ((Field.number x).encode d)) := loadVar_reads hswappable hlen
    have hvalue := hvar.map (f := fun y => vm.number.ofInt (intValue vm.little y))
    rwa [ha.own_number hint, intValue_intMemory hlow hhigh] at hvalue
  · have hsizes := hsame.size (hnumber.trans hint.symm)
    have hdouble : ¬(vm.number = .double ∧ vm.armFpa) := fun h => by
      rw [h.1] at hnumber
      exact absurd hnumber (by decide)
    rw [Bool.not_true, if_neg Bool.false_ne_true]
    refine numberOf_reads (hsizes ▸ hswappable) (hlen.trans hsizes.symm) ?_
    rw [ha.own_number hint, ← hsizes, intMemory, numberOf_wordBytes hdouble rfl,
      NumberType.ofInt_eq hnumber]

/-- A floating-point number is loaded for a machine with numbers of the same size. -/
theorem Agrees.loadNumber_reads_float (hsame : SameNumbers d.target vm)
    (hint : d.target.numberIntegral = false) :
    Reads base (loadNumber vm S) ((Field.number x).encode d) (receivedNumber d vm x) := by
  have hneg : ¬d.target.numberIntegral := by rw [hint]; exact Bool.false_ne_true
  have hnumber : vm.number.integral = false := by
    cases h : vm.number.integral
    · rfl
    · exact absurd (ha.integral h) hneg
  have hsizes := hsame.size (hnumber.trans hint.symm)
  rw [loadNumber, ha.toflt, hint, Bool.false_and, if_neg Bool.false_ne_true,
    receivedNumber,
    if_neg hneg]
  obtain hfour | height := ha.supported.float hneg
  · have hsize : vm.number.size = 4 := hsizes.trans hfour
    have hdouble : ¬(vm.number = .double ∧ vm.armFpa) := fun h => by
      rw [h.1] at hsize
      exact absurd hsize (by decide)
    have hencode : (Field.number x).encode d =
        wordBytes d.target.littleEndian 4 (binary32.convert binary64 x.toNat) := by
      rw [Field.encode, if_neg hneg, if_pos hfour]
    rw [hencode, if_pos hfour]
    refine numberOf_reads (by rw [hsize]; decide) (by rw [length_wordBytes, hsize]) ?_
    rw [ha.own_wordBytes, numberOf_wordBytes hdouble hsize.symm]
  · have hsize : vm.number.size = 8 := hsizes.trans height
    have hdouble : vm.number = .double := by
      cases hkind : vm.number with
      | int size => rw [hkind] at hnumber; cases hnumber
      | float => rw [hkind] at hsize; exact absurd hsize (by decide)
      | double => rfl
    have hne : ¬d.target.sizeofNumber = 4 := by omega
    have hencode : (Field.number x).encode d =
        if d.target.isArmFpa then swapHalves (wordBytes d.target.littleEndian 8 x.toNat)
        else wordBytes d.target.littleEndian 8 x.toNat := by
      rw [Field.encode, if_neg hneg, if_neg hne]
    have hown : S.own ((Field.number x).encode d) =
        if vm.armFpa then swapHalves (wordBytes vm.little 8 x.toNat)
        else wordBytes vm.little 8 x.toNat := by
      rw [hencode, hsame.halves hneg height]
      split_ifs
      · rw [own_swapHalves (length_wordBytes ..), ha.own_wordBytes]
      · exact ha.own_wordBytes ..
    have hlen : ((Field.number x).encode d).length = 8 := by
      rw [hencode]
      split_ifs
      · rw [swapHalves, List.length_append, List.length_drop, List.length_take, length_wordBytes]
        rfl
      · exact length_wordBytes ..
    rw [if_neg hne]
    refine numberOf_reads (by rw [hsize]; decide) (hlen.trans hsize.symm) ?_
    rw [hown]
    exact numberOf_double hdouble x.toNat

theorem Agrees.loadNumber_reads (hfits : (Field.number x).Fits d)
    (hsame : SameNumbers d.target vm) :
    Reads base (loadNumber vm S) ((Field.number x).encode d) (receivedNumber d vm x) := by
  cases hint : d.target.numberIntegral
  · exact ha.loadNumber_reads_float hsame hint
  · exact ha.loadNumber_reads_integral hfits hsame hint

end Numbers

/-! ### Prototypes -/

/-- The bytes of a sequence of fields. -/
def encodeAll (d : Dumper) (fs : List Field) : List UInt8 := fs.flatMap (Field.encode d)

theorem encodeAll_append (fs gs : List Field) :
    encodeAll d (fs ++ gs) = encodeAll d fs ++ encodeAll d gs := List.flatMap_append

theorem encodeAll_cons (x : Field) (fs : List Field) :
    encodeAll d (x :: fs) = x.encode d ++ encodeAll d fs := List.flatMap_cons

theorem encodeAll_ofList {α : Type} (fields : α → List Field) (xs : List α) :
    encodeAll d (Field.ofList fields xs) =
      (Field.int xs.length).encode d ++ xs.flatMap fun x => encodeAll d (fields x) := by
  rw [Field.ofList, encodeAll_cons]
  exact congrArg _ List.flatMap_assoc

/-- The code writes the field and the loader reads it. -/
def Field.Passes (d : Dumper) (vm : VM) (x : Field) : Prop := x.Fits d ∧ x.Readable d vm

theorem mem_ofList {α : Type} {P : Field → Prop} {fields : α → List Field} {xs : List α}
    (h : ∀ y ∈ Field.ofList fields xs, P y) :
    P (.int xs.length) ∧ ∀ x ∈ xs, ∀ y ∈ fields x, P y := by
  obtain ⟨hlen, hxs⟩ := List.forall_mem_cons.mp h
  exact ⟨hlen, fun x hx y hy => hxs y (List.mem_flatMap.mpr ⟨x, hx, hy⟩)⟩

section Prototypes

variable (ha : Agrees d vm S base)

include ha

/-- A list with its length. -/
theorem Agrees.loadList_reads {α β : Type} {load : Load β} {fields : α → List Field}
    {value : α → β} {xs : List α}
    (h : ∀ x ∈ xs, (∀ y ∈ fields x, y.Passes d vm) →
      Reads base load (encodeAll d (fields x)) (value x))
    (hpasses : ∀ y ∈ Field.ofList fields xs, y.Passes d vm) :
    Reads base (loadList vm S load) (encodeAll d (Field.ofList fields xs)) (xs.map value) := by
  obtain ⟨hlen, hxs⟩ := mem_ofList hpasses
  rw [loadList, encodeAll_ofList]
  exact (ha.loadInt_reads hlen.1).bind (Reads.many fun x hx => h x hx (hxs x hx))

/-- A vector with its length. -/
theorem Agrees.vector_reads {α β : Type} {size : ℕ} (hsize : Swappable size) {field : α → Field}
    {xs : List α} (f : List UInt8 → β) (value : α → β)
    (hlen : ∀ x ∈ xs, ((field x).encode d).length = size)
    (hvalue : ∀ x ∈ xs, f (S.own ((field x).encode d)) = value x)
    (hcount : IntFits d.target.sizeofInt xs.length) :
    Reads base (loadInt vm S >>= fun n => List.map f <$> loadVector S n size)
      (encodeAll d (Field.ofList (fun x => [field x]) xs)) (xs.map value) := by
  have hsingle : (fun x => encodeAll d [field x]) = fun x => (field x).encode d :=
    funext fun x => List.flatMap_singleton ..
  rw [encodeAll_ofList, hsingle]
  refine (ha.loadInt_reads hcount).bind ?_
  have hread := (loadVector_reads ha.direct hsize hlen).map (f := List.map f)
  have hmap : xs.map (f ∘ fun x => S.own ((field x).encode d)) = xs.map value :=
    List.map_congr_left hvalue
  rwa [List.map_map, hmap] at hread

theorem Agrees.loadCode_reads {code : List UInt32}
    (hpasses : ∀ y ∈ Field.ofList (fun w => [Field.instruction w]) code, y.Passes d vm) :
    Reads base (loadCode vm S) (encodeAll d (Field.ofList (fun w => [.instruction w]) code))
      code := by
  have hvalue : ∀ w ∈ code, UInt32.ofNat (wordOf vm.little (S.own ((Field.instruction w).encode d)))
      = w := fun w _ => by
    have hlt : w.toNat < 256 ^ 4 := w.toNat_lt
    rw [Field.encode, ha.own_wordBytes, wordOf_wordBytes hlt, UInt32.ofNat_toNat]
  have hlen : ∀ w ∈ code, ((Field.instruction w).encode d).length = 4 :=
    fun w _ => length_wordBytes ..
  have hread := ha.vector_reads (by decide) (fun b => UInt32.ofNat (wordOf vm.little b)) _ hlen
    hvalue (mem_ofList hpasses).1.1
  rwa [List.map_id'] at hread

theorem Agrees.loadLineinfo_reads {lineinfo : List ℤ}
    (hpasses : ∀ y ∈ Field.ofList (fun x => [Field.int x]) lineinfo, y.Passes d vm) :
    Reads base (loadLineinfo vm S) (encodeAll d (Field.ofList (fun x => [.int x]) lineinfo))
      lineinfo := by
  obtain ⟨hcount, hall⟩ := mem_ofList hpasses
  have hvalue : ∀ x ∈ lineinfo, intValue vm.little (S.own ((Field.int x).encode d)) = x :=
      fun x hx => by
    obtain ⟨hlow, hhigh⟩ := ((hall x hx _ (List.mem_singleton_self _)).1 :
      IntFits d.target.sizeofInt x).range ha.supported.int
    have hown : S.own ((Field.int x).encode d) = intMemory vm.little d.target.sizeofInt x :=
      ha.own_wordBytes ..
    rw [hown, intValue_intMemory hlow hhigh]
  have hlen : ∀ x ∈ lineinfo, ((Field.int x).encode d).length = vm.sizeofInt :=
    fun x _ => (length_wordBytes ..).trans ha.int.symm
  have hread := ha.vector_reads ha.swappable_int (intValue vm.little) _ hlen hvalue hcount.1
  rwa [List.map_id'] at hread

theorem Agrees.loadConstant_reads {x : Constant Double}
    (h : ∀ y ∈ Field.ofConstant x, y.Passes d vm) :
    Reads base (loadConstant vm S) (encodeAll d (Field.ofConstant x))
      (x.map (receivedNumber d vm)) := by
  rw [loadConstant]
  cases x with
  | nil =>
    refine (loadChar_reads tnil).bind ?_
    rw [if_pos rfl]
    exact Reads.pure _
  | boolean b =>
    refine (loadChar_reads tboolean).bind ?_
    rw [if_neg (by decide), if_pos rfl]
    refine (loadChar_reads (LuaRpc.flag b)).bind ?_
    cases b <;> exact Reads.pure _
  | number x =>
    obtain ⟨-, hx⟩ := List.forall_mem_cons.mp h
    obtain ⟨⟨hfits, hsame⟩, -⟩ := List.forall_mem_cons.mp hx
    refine (loadChar_reads tnumber).bind ?_
    rw [if_neg (by decide), if_neg (by decide), if_pos rfl]
    have hbytes : [Field.number x].flatMap (Field.encode d) = (Field.number x).encode d :=
      List.flatMap_singleton ..
    have hread := (ha.loadNumber_reads hfits hsame).map (f := Constant.number)
    rw [← hbytes] at hread
    exact hread
  | string s =>
    obtain ⟨-, hs⟩ := List.forall_mem_cons.mp h
    refine (loadChar_reads tstring).bind ?_
    rw [if_neg (by decide), if_neg (by decide), if_neg (by decide), if_pos rfl]
    exact (ha.loadString_reads fun y hy => (hs y hy).2).map

theorem Agrees.loadLocVar_reads {v : LocVar} (h : ∀ y ∈ Field.ofLocVar v, y.Passes d vm) :
    Reads base (loadLocVar vm S) (encodeAll d (Field.ofLocVar v)) v := by
  obtain ⟨hname, hpcs⟩ := List.forall_mem_append.mp h
  obtain ⟨hstart, hend⟩ := List.forall_mem_cons.mp hpcs
  obtain ⟨hend, -⟩ := List.forall_mem_cons.mp hend
  rw [loadLocVar, Field.ofLocVar, encodeAll_append]
  exact (ha.loadString_reads fun y hy => (hname y hy).2).bind
    ((ha.loadInt_reads hstart.1).bind ((ha.loadInt_reads hend.1).bind (Reads.pure _)))

end Prototypes

/-- The source of a function inside another one. It is left out if it is that of the other one. -/
theorem inherit_source {p p' s : Option Text}
    (hp : ∀ a, d.strip = false → p = some a → p' = some a) :
    inherit p' (if s = p ∨ d.strip then none else s) =
      inherit p' (if d.strip then none else s) := by
  cases hstrip : d.strip
  · by_cases hs : s = p
    · rw [if_pos (.inl hs), if_neg Bool.false_ne_true, hs]
      cases p with
      | none => rfl
      | some a => exact hp a hstrip rfl
    · have hne : ¬(s = p ∨ false = true) := fun h => h.elim hs Bool.false_ne_true
      rw [if_neg hne, if_neg Bool.false_ne_true]
  · rw [if_pos (.inr rfl), if_pos rfl]

mutual

/-- **Prototypes.** A prototype is loaded from its fields. -/
theorem Agrees.loadFunction_reads (ha : Agrees d vm S base) :
    ∀ (f : Proto Double) (p p' : Option Text) (depth : ℕ),
    (∀ a, d.strip = false → p = some a → p' = some a) → f.depth ≤ depth →
    (∀ x ∈ f.fields d.strip p, x.Passes d vm) →
    (f.received d.strip (receivedNumber d vm) p').All (fun g => vm.luaGCheckcode g = true) →
    Reads base (loadFunction vm S depth p') (encodeAll d (f.fields d.strip p))
      (f.received d.strip (receivedNumber d vm) p')
  | .mk f nested, p, p', 0, _, hdepth, _, _ => absurd hdepth (Nat.not_succ_le_zero _)
  | .mk f nested, p, p', depth + 1, hp, hdepth, hpasses, ⟨hcheck, hchecks⟩ => by
    rw [Proto.fields, ProtoFields.front, ProtoFields.debug] at hpasses
    simp only [List.forall_mem_append, List.forall_mem_cons] at hpasses
    obtain ⟨⟨⟨⟨hsource, hline, hlast, -⟩, hcode⟩, hk⟩, hlen, hnested, ⟨hlineinfo, hlocvars⟩,
      hupvalues⟩ := hpasses
    have hbytes : encodeAll d (Proto.fields d.strip p (.mk f nested)) =
        encodeAll d (Field.ofString (if f.source = p ∨ d.strip then none else f.source)) ++
          ((Field.int f.linedefined).encode d ++ ((Field.int f.lastlinedefined).encode d ++
          ([f.nups] ++ ([f.numparams] ++ ([f.isVararg] ++ ([f.maxstacksize] ++
          (encodeAll d (Field.ofList (fun w => [.instruction w]) f.code) ++
          (encodeAll d (Field.ofList Field.ofConstant f.k) ++
          (((Field.int nested.length).encode d ++
            encodeAll d (Proto.nestedFields d.strip f.source nested)) ++
          (encodeAll d (Field.ofList (fun x => [.int x]) (kept d.strip f.lineinfo)) ++
          (encodeAll d (Field.ofList Field.ofLocVar (kept d.strip f.locvars)) ++
          (encodeAll d (Field.ofList Field.ofString (kept d.strip f.upvalues)) ++
          [])))))))))))) := by
      rw [Proto.fields, ProtoFields.front, ProtoFields.debug]
      simp only [encodeAll_append, encodeAll_cons, List.append_assoc, List.append_nil]
      rfl
    have hinherit : ∀ a, d.strip = false → f.source = some a →
        (f.received d.strip (receivedNumber d vm) p').source = some a := fun a hstrip hsome => by
      rw [ProtoFields.received, hstrip, if_neg Bool.false_ne_true, hsome, inherit]
    rw [Proto.depth, Nat.add_le_add_iff_right] at hdepth
    rw [hbytes, loadFunction]
    have hread := (ha.loadString_reads fun y hy => (hsource y hy).2).map (f := inherit p')
    rw [inherit_source hp] at hread
    refine hread.bind ((ha.loadInt_reads hline.1).bind ((ha.loadInt_reads hlast.1).bind
      ((loadChar_reads f.nups).bind ((loadChar_reads f.numparams).bind
      ((loadChar_reads f.isVararg).bind ((loadChar_reads f.maxstacksize).bind
      ((ha.loadCode_reads hcode).bind
      ((ha.loadList_reads (fun x _ hx => ha.loadConstant_reads hx) hk).bind ?_))))))))
    refine ((ha.loadInt_reads hlen.1).bind
      (ha.loadNested_reads nested f.source _ depth hinherit hdepth hnested hchecks)).bind ?_
    refine (ha.loadLineinfo_reads hlineinfo).bind
      ((ha.loadList_reads (fun x _ hx => ha.loadLocVar_reads hx) hlocvars).bind
      ((ha.loadList_reads (fun x _ hx => ha.loadString_reads fun y hy => (hx y hy).2)
        hupvalues).bind ?_))
    rw [List.map_id', List.map_id']
    exact (congrArg (Reads base · [] _) (if_pos hcheck)).mpr (Reads.pure _)

theorem Agrees.loadNested_reads (ha : Agrees d vm S base) :
    ∀ (fs : List (Proto Double)) (p p' : Option Text) (depth : ℕ),
    (∀ a, d.strip = false → p = some a → p' = some a) → Proto.depthNested fs ≤ depth →
    (∀ x ∈ Proto.nestedFields d.strip p fs, x.Passes d vm) →
    Proto.AllNested (fun g => vm.luaGCheckcode g = true)
      (Proto.receivedAll d.strip (receivedNumber d vm) p' fs) →
    Reads base (loadMany (loadFunction vm S depth p') fs.length)
      (encodeAll d (Proto.nestedFields d.strip p fs))
      (Proto.receivedAll d.strip (receivedNumber d vm) p' fs)
  | [], _, _, _, _, _, _, _ => Reads.pure []
  | f :: fs, p, p', depth, hp, hdepth, hpasses, ⟨hcheck, hchecks⟩ => by
    rw [Proto.depthNested] at hdepth
    rw [Proto.nestedFields] at hpasses ⊢
    obtain ⟨hf, hfs⟩ := List.forall_mem_append.mp hpasses
    rw [encodeAll_append, ← List.append_nil (encodeAll d (Proto.nestedFields d.strip p fs))]
    exact (ha.loadFunction_reads f p p' depth hp (le_of_max_le_left hdepth) hf hcheck).bind
      ((ha.loadNested_reads fs p p' depth hp (le_of_max_le_right hdepth) hfs hchecks).bind
        (Reads.pure _))

end

end ELuaBrain.Lua.Chunk
