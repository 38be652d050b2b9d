import ELuaBrain.System.Fields
import ELuaBrain.System.Words
import Mathlib.Logic.Function.Basic

/-!
# Arrays of small numbers

The module `bitarray`: arrays with elements of 1 to 32 bits. A value is not cut to the width of an
element before it is put into its byte, the number of bytes is computed with 32 bits, and the
iterator takes an index that is one too small.

## Main definitions

* `bitarrayNew`, `bitarrayGet`, `bitarraySet`, `bitarrayIter` : the code.
* `specCall` : an array of numbers.
* `Source.Fits`, `Spills` : what goes wrong when an array is made, and when an element is set.

## Main results

* `bitarrayNew_wellFormed` : an array that is made has room for its elements.
* `Packs.call` : one call.
* `run_matches` : every run.
-/

namespace ELuaBrain.Modules

/-! ### The code -/

/-- What must not happen. -/
inductive Fault where
  | divByZero
  | outside
  deriving DecidableEq

/-- `bitarray_t`, with the number of bytes that `values` has room for. -/
structure Bitarray where
  capacity : UInt32
  elsize : UInt8
  total : ℕ
  values : Memory

/-- The first argument of `bitarray.new`, with the `fill` of a new array. -/
inductive Source where
  | capacity (capacity : ℤ) (fill : Option ℤ)
  | string (buf : List UInt8)
  | table (elems : List ℤ)

/-- `ROUND_SIZE`. -/
def roundSize (s : UInt32) : UInt32 := (s >>> 3) + (if s &&& 7 ≠ 0 then 1 else 0)

/-- The size of an element, if there is no such argument `8`. -/
def elsizeArg (elsize : Option ℤ) : UInt8 := elsize.elim 8 UInt8.ofInt

/-- The size of an element is refused. -/
def invalidElsize (elsize : UInt8) : Bool :=
  elsize ≤ 0 || elsize > 32 || elsize &&& (elsize - 1) ≠ 0

/-- The bytes that are copied to an array. -/
def Source.content : Source → ℕ → List UInt8
  | .capacity _ fill, total => List.replicate total (fill.elim 0 UInt8.ofInt)
  | .string buf, _ => buf
  | .table elems, _ => elems.map UInt8.ofInt

/-- The end of `bitarray_new`, from the check of `elsize` on. -/
def allocate (source : Source) (capacity : UInt32) (elsize : UInt8) :
    Except Fault (Except String Bitarray) :=
  if invalidElsize elsize then .ok (.error "invalid element size.")
  else
    let total := roundSize (capacity * elsize.toUInt32)
    if total ≤ 0 then .ok (.error "invalid arguments.")
    else
      let content := source.content total.toNat
      if total.toNat < content.length then .error .outside
      else .ok (.ok ⟨capacity, elsize, total.toNat, Memory.ofBytes content⟩)

/-- The rest of `bitarray_new` for a source of `length` bytes, with the capacity for them. -/
def allocateFor (source : Source) (length : ℕ) (elsize : UInt8) :
    Except Fault (Except String Bitarray) :=
  let temp := UInt32.ofNat length
  if elsize = 0 then .error .divByZero
  else if (temp <<< 3) % elsize.toUInt32 ≠ 0 then
    .ok (.error "length is not a multiple of element size.")
  else allocate source ((temp <<< 3) / elsize.toUInt32) elsize

/-- `bitarray_new`, with a `size_t` of 32 bits. There is a message if a Lua error is raised. -/
def bitarrayNew (source : Source) (elsize : Option ℤ) : Except Fault (Except String Bitarray) :=
  match source with
  | .capacity capacity _ => allocate source (UInt32.ofInt capacity) (elsizeArg elsize)
  | .string buf => allocateFor source buf.length (elsizeArg elsize)
  | .table elems => allocateFor source elems.length (elsizeArg elsize)

/-- `bitarray_index_shift`. -/
def indexShift (elsize : UInt8) : UInt32 := [0, 3, 2, 0, 1].getD elsize.toNat 0

/-- `bitarray_index_mask`. -/
def indexMask (elsize : UInt8) : UInt32 := [0, 0x01, 0x03, 0, 0x0F].getD elsize.toNat 0

section Access

variable (little : Bool) (pa : Bitarray)

/-- The bytes at a place of the array. -/
def Bitarray.read (p n : ℕ) : Except Fault (List UInt8) :=
  if p + n ≤ pa.total then .ok (pa.values.slice p n) else .error .outside

/-- The array with bytes written to a place. -/
def Bitarray.write (p : ℕ) (bs : List UInt8) : Except Fault Bitarray :=
  if p + bs.length ≤ pa.total then .ok { pa with values := pa.values.overlay p bs }
  else .error .outside

/-- The byte of an element. -/
def Bitarray.byteOf (idx : UInt32) : ℕ := (idx >>> indexShift pa.elsize).toNat

/-- How far the bits of an element are shifted in its byte. -/
def Bitarray.shiftOf (idx : UInt32) : UInt32 :=
  let mask := 1 <<< indexShift pa.elsize
  let rest := idx &&& (mask - 1)
  (mask - 1 - rest) * pa.elsize.toUInt32

/-- `bitarray_getval`. -/
def bitarrayGetval (idx : UInt32) : Except Fault UInt32 :=
  let idx := idx - 1
  if pa.elsize < 8 then do
    let bs ← pa.read (pa.byteOf idx) 1
    pure (((bs.headD 0).toUInt32 >>> pa.shiftOf idx) &&& indexMask pa.elsize)
  else if pa.elsize = 8 then do
    let bs ← pa.read idx.toNat 1
    pure (UInt32.ofNat (wordOf little bs))
  else if pa.elsize = 16 then do
    let bs ← pa.read (2 * idx.toNat) 2
    pure (UInt32.ofNat (wordOf little bs))
  else if pa.elsize = 32 then do
    let bs ← pa.read (4 * idx.toNat) 4
    pure (UInt32.ofNat (wordOf little bs))
  else pure 0

/-- The byte that is stored for an element of less than a byte. -/
def Bitarray.newByte (b : UInt8) (idx newval : UInt32) : UInt8 :=
  let val := b.toUInt32
  let val := val &&& ~~~(indexMask pa.elsize <<< pa.shiftOf idx)
  let val := val ||| newval <<< pa.shiftOf idx
  val.toUInt8

/-- The end of `bitarray_set`, behind the check of the index. -/
def bitarraySetval (idx newval : UInt32) : Except Fault Bitarray :=
  let idx := idx - 1
  if pa.elsize < 8 then do
    let bs ← pa.read (pa.byteOf idx) 1
    pa.write (pa.byteOf idx) [pa.newByte (bs.headD 0) idx newval]
  else if pa.elsize = 8 then pa.write idx.toNat (wordBytes little 1 newval.toNat)
  else if pa.elsize = 16 then pa.write (2 * idx.toNat) (wordBytes little 2 newval.toNat)
  else if pa.elsize = 32 then pa.write (4 * idx.toNat) (wordBytes little 4 newval.toNat)
  else pure pa

end Access

/-- The calls of Lua. -/
inductive Call where
  | get (idx : ℤ)
  | set (idx newval : ℤ)
  | iter (idx : ℤ)

/-- What a call gives to Lua: the numbers that it pushes, or an error. -/
inductive Reply where
  | values (pushed : List UInt32)
  | error (message : String)
  deriving DecidableEq

/-- `bitarray_get`. -/
def bitarrayGet (little : Bool) (pa : Bitarray) (arg : ℤ) : Except Fault Reply :=
  let idx := UInt32.ofInt arg
  if idx ≤ 0 ∨ idx > pa.capacity then pure (.error "invalid index.")
  else do
    let val ← bitarrayGetval little pa idx
    pure (.values [val])

/-- `bitarray_set`. -/
def bitarraySet (little : Bool) (pa : Bitarray) (arg value : ℤ) :
    Except Fault (Reply × Bitarray) :=
  let idx := UInt32.ofInt arg
  let newval := UInt32.ofInt value
  if idx ≤ 0 ∨ idx > pa.capacity then pure (.error "invalid index.", pa)
  else do
    let pa ← bitarraySetval little pa idx newval
    pure (.values [], pa)

/-- `bitarray_iter`. -/
def bitarrayIter (little : Bool) (pa : Bitarray) (arg : ℤ) : Except Fault Reply :=
  let idx := UInt32.ofInt arg + 1
  if idx ≤ pa.capacity then do
    let val ← bitarrayGetval little pa idx
    pure (.values [idx, val])
  else pure (.values [])

/-- A call, with the array behind it. -/
def call (little : Bool) (pa : Bitarray) : Call → Except Fault (Reply × Bitarray)
  | .get idx => do pure (← bitarrayGet little pa idx, pa)
  | .set idx newval => bitarraySet little pa idx newval
  | .iter idx => do pure (← bitarrayIter little pa idx, pa)

/-- A sequence of calls. -/
def run (little : Bool) : Bitarray → List Call → Except Fault (List Reply × Bitarray)
  | pa, [] => pure ([], pa)
  | pa, c :: cs => do
      let (reply, pa) ← call little pa c
      let (replies, pa) ← run little pa cs
      pure (reply :: replies, pa)

/-! ### What an array is for -/

/-- A call for an array of `n` numbers of `w` bits, the numbers being given by their indices. -/
def specCall (n : UInt32) (w : ℕ) (a : UInt32 → UInt32) : Call → Reply × (UInt32 → UInt32)
  | .get arg =>
      let i := UInt32.ofInt arg
      if 0 < i ∧ i ≤ n then (.values [a i], a) else (.error "invalid index.", a)
  | .set arg value =>
      let i := UInt32.ofInt arg
      if 0 < i ∧ i ≤ n then (.values [], Function.update a i (UInt32.ofInt (value % 2 ^ w)))
      else (.error "invalid index.", a)
  | .iter arg =>
      let i := UInt32.ofInt arg + 1
      if i ≤ n then (.values [i, a i], a) else (.values [], a)

/-- The replies to a sequence of calls, and the numbers behind it. -/
def specRun (n : UInt32) (w : ℕ) : (UInt32 → UInt32) → List Call → List Reply × (UInt32 → UInt32)
  | a, [] => ([], a)
  | a, c :: cs =>
      let (reply, a) := specCall n w a c
      let (replies, a) := specRun n w a cs
      (reply :: replies, a)

/-- The numbers that can be read from an array. -/
def contents (little : Bool) (pa : Bitarray) (i : UInt32) : UInt32 :=
  match bitarrayGetval little pa i with
  | .ok val => val
  | .error _ => 0

/-! ### What goes wrong -/

/-- The number of bits that an array is made for. -/
def Source.bits (source : Source) (elsize : UInt8) : ℕ :=
  match source with
  | .capacity c _ => (UInt32.ofInt c).toNat * elsize.toNat
  | .string buf => 8 * buf.length
  | .table elems => 8 * elems.length

/-- The size of an element can be divided by, and the number of bits is not cut, unless nothing is
left of it or it is no whole number of elements, and an error is raised. -/
def Source.Fits (source : Source) (elsize : Option ℤ) : Prop :=
  (elsizeArg elsize = 0 → ∃ capacity fill, source = .capacity capacity fill) ∧
    (invalidElsize (elsizeArg elsize) = false →
      source.bits (elsizeArg elsize) % (elsizeArg elsize).toNat = 0 →
      source.bits (elsizeArg elsize) < 2 ^ 32 ∨ source.bits (elsizeArg elsize) % 2 ^ 32 = 0)

/-- The bits of a value that are too many for an element change other bits of its byte. -/
def Spills (pa : Bitarray) (idx newval : UInt32) : Prop :=
  0 < idx ∧ idx ≤ pa.capacity ∧ pa.elsize < 8 ∧
    ((newval &&& ~~~indexMask pa.elsize) <<< pa.shiftOf (idx - 1)).toUInt8 |||
      pa.values (pa.byteOf (idx - 1)) ≠ pa.values (pa.byteOf (idx - 1))

instance decidableSpills (pa : Bitarray) (idx newval : UInt32) : Decidable (Spills pa idx newval) :=
  inferInstanceAs (Decidable (_ ∧ _ ∧ _ ∧ _))

/-- A call that does not meet a defect: no bits are spilled, and the index after the one that the
iterator is given is not `0`. -/
def Call.Careful (pa : Bitarray) : Call → Prop
  | .get _ => True
  | .set idx newval => ¬ Spills pa (UInt32.ofInt idx) (UInt32.ofInt newval)
  | .iter idx => UInt32.ofInt idx + 1 ≠ 0

/-- All calls of a run are careful. -/
def CarefulRun (little : Bool) : Bitarray → List Call → Prop
  | _, [] => True
  | pa, c :: cs =>
      c.Careful pa ∧
        match call little pa c with
        | .ok (_, pa') => CarefulRun little pa' cs
        | .error _ => True

instance decidableCareful (pa : Bitarray) : (c : Call) → Decidable (c.Careful pa)
  | .get _ => inferInstanceAs (Decidable True)
  | .set _ _ => inferInstanceAs (Decidable (¬ _))
  | .iter _ => inferInstanceAs (Decidable (_ ≠ _))

instance decidableCarefulRun (little : Bool) :
    (pa : Bitarray) → (cs : List Call) → Decidable (CarefulRun little pa cs)
  | _, [] => inferInstanceAs (Decidable True)
  | pa, c :: cs =>
      match h : call little pa c with
      | .ok (_, pa') =>
          have := decidableCarefulRun little pa' cs
          decidable_of_iff (c.Careful pa ∧ CarefulRun little pa' cs) (by simp [CarefulRun, h])
      | .error _ => decidable_of_iff (c.Careful pa) (by simp [CarefulRun, h])

/-! ### Making an array -/

/-- The size of the elements is one of those that the code knows, and there is room for them. -/
structure Bitarray.WellFormed (pa : Bitarray) : Prop where
  elsize : pa.elsize ∈ ([1, 2, 4, 8, 16, 32] : List UInt8)
  room : pa.capacity.toNat * pa.elsize.toNat ≤ 8 * pa.total

theorem mem_of_invalidElsize {elsize : UInt8} (h : invalidElsize elsize = false) :
    elsize ∈ ([1, 2, 4, 8, 16, 32] : List UInt8) := by
  have hall : ∀ n : Fin 256, invalidElsize (UInt8.ofNat n) = false →
      UInt8.ofNat n ∈ ([1, 2, 4, 8, 16, 32] : List UInt8) := by
    decide +kernel
  have hval := hall ⟨elsize.toNat, elsize.toNat_lt⟩
  rw [UInt8.ofNat_toNat] at hval
  exact hval h

theorem toNat_roundSize (s : UInt32) : (roundSize s).toNat = (s.toNat + 7) / 8 := by
  have hs := s.toNat_lt
  have hshift : (s >>> 3).toNat = s.toNat / 8 := by simp [Nat.shiftRight_eq_div_pow]
  have hand : (s &&& 7).toNat = s.toNat % 8 := by
    rw [UInt32.toNat_and]
    exact Nat.and_two_pow_sub_one_eq_mod _ 3
  have hrest : s &&& 7 = 0 ↔ s.toNat % 8 = 0 := by
    rw [← UInt32.toNat_inj, hand, UInt32.toNat_zero]
  unfold roundSize
  split_ifs with h
  · have hne : s.toNat % 8 ≠ 0 := mt hrest.mpr h
    rw [UInt32.toNat_add, hshift]
    simp
    omega
  · have heq : s.toNat % 8 = 0 := hrest.mp (not_not.mp h)
    rw [UInt32.toNat_add, hshift]
    simp
    omega

/-- An array that is made has room for its elements, if the number of bits is not cut. -/
theorem allocate_cases {source : Source} {capacity : UInt32} {elsize : UInt8}
    (hbits : invalidElsize elsize = false →
      (capacity.toNat * elsize.toNat < 2 ^ 32 ∧
        ∀ total, capacity.toNat * elsize.toNat ≤ 8 * total →
          (source.content total).length ≤ total) ∨
      capacity.toNat * elsize.toNat % 2 ^ 32 = 0) :
    (∃ message, allocate source capacity elsize = .ok (.error message)) ∨
      ∃ pa, allocate source capacity elsize = .ok (.ok pa) ∧ pa.WellFormed := by
  have hproduct : (capacity * elsize.toUInt32).toNat =
      capacity.toNat * elsize.toNat % 2 ^ 32 := by simp
  have htotal := toNat_roundSize (capacity * elsize.toUInt32)
  unfold allocate
  split_ifs with hinvalid
  · exact Or.inl ⟨_, rfl⟩
  · have hvalid : invalidElsize elsize = false := by simpa using hinvalid
    by_cases hzero : roundSize (capacity * elsize.toUInt32) ≤ 0
    · exact Or.inl ⟨_, by rw [if_pos hzero]⟩
    · have hpos : 0 < (roundSize (capacity * elsize.toUInt32)).toNat :=
        UInt32.lt_iff_toNat_lt.mp (UInt32.not_le.mp hzero)
      obtain ⟨hlt, hcontent⟩ := (hbits hvalid).resolve_right fun h => by
        rw [hproduct, h] at htotal
        omega
      have hroom : capacity.toNat * elsize.toNat ≤
          8 * (roundSize (capacity * elsize.toUInt32)).toNat := by
        rw [htotal, hproduct, Nat.mod_eq_of_lt hlt]
        omega
      rw [if_neg hzero, if_neg (Nat.not_lt.mpr (hcontent _ hroom))]
      exact Or.inr ⟨_, rfl, ⟨mem_of_invalidElsize hvalid, hroom⟩⟩

/-- The same for an array that bytes are copied to. -/
theorem allocateFor_cases {source : Source} {length : ℕ} {elsize : UInt8} (hne : elsize ≠ 0)
    (hlength : ∀ total, (source.content total).length = length)
    (hbits : invalidElsize elsize = false → 8 * length % elsize.toNat = 0 →
      8 * length < 2 ^ 32 ∨ 8 * length % 2 ^ 32 = 0) :
    (∃ message, allocateFor source length elsize = .ok (.error message)) ∨
      ∃ pa, allocateFor source length elsize = .ok (.ok pa) ∧ pa.WellFormed := by
  have hbytes : (UInt32.ofNat length <<< 3).toNat = 8 * length % 2 ^ 32 := by
    simp [Nat.shiftLeft_eq]
    omega
  unfold allocateFor
  rw [if_neg hne]
  split_ifs with hrest
  · exact Or.inl ⟨_, rfl⟩
  · have hmod : 8 * length % 2 ^ 32 % elsize.toNat = 0 := by
      rw [← hbytes, ← UInt8.toNat_toUInt32, ← UInt32.toNat_mod, not_not.mp hrest,
        UInt32.toNat_zero]
    have hcapacity : (UInt32.ofNat length <<< 3 / elsize.toUInt32).toNat * elsize.toNat =
        8 * length % 2 ^ 32 := by
      rw [UInt32.toNat_div, hbytes, UInt8.toNat_toUInt32]
      exact Nat.div_mul_cancel (Nat.dvd_of_mod_eq_zero hmod)
    refine allocate_cases fun hvalid => ?_
    have hdvd : elsize.toNat ∣ 2 ^ 32 := by
      have hmem := mem_of_invalidElsize hvalid
      revert hmem
      simp only [List.mem_cons, List.not_mem_nil, or_false]
      rintro (rfl | rfl | rfl | rfl | rfl | rfl) <;> decide
    rw [Nat.mod_mod_of_dvd _ hdvd] at hmod
    rw [hcapacity, Nat.mod_mod]
    refine (hbits hvalid hmod).imp_left fun hlt =>
      ⟨Nat.mod_lt _ (by decide), fun total htotal => ?_⟩
    rw [Nat.mod_eq_of_lt hlt] at htotal
    rw [hlength]
    omega

/-- An array that is made has room for its elements. -/
theorem bitarrayNew_wellFormed {source : Source} {elsize : Option ℤ} (h : source.Fits elsize) :
    (∃ message, bitarrayNew source elsize = .ok (.error message)) ∨
      ∃ pa, bitarrayNew source elsize = .ok (.ok pa) ∧ pa.WellFormed := by
  obtain ⟨hdiv, hbits⟩ := h
  cases source with
  | capacity capacity fill =>
    refine allocate_cases fun hvalid => ?_
    refine (hbits hvalid (Nat.mul_mod_left _ _)).imp_left fun hlt => ⟨hlt, fun total _ => ?_⟩
    exact (List.length_replicate ..).le
  | string buf =>
    refine allocateFor_cases (fun h0 => ?_) (fun _ => rfl) hbits
    obtain ⟨_, _, h⟩ := hdiv h0
    cases h
  | table elems =>
    refine allocateFor_cases (fun h0 => ?_) (fun _ => List.length_map _) hbits
    obtain ⟨_, _, h⟩ := hdiv h0
    cases h

/-! ### Elements -/

section Elements

variable {little : Bool} {pa pa' : Bitarray} {idx newval : UInt32} {k j : ℕ}

/-- The element `k`, counted from `0`. -/
def Bitarray.element (little : Bool) (pa : Bitarray) (k : ℕ) : ℕ :=
  if pa.elsize < 8 then packedField pa.values (8 / pa.elsize.toNat) pa.elsize.toNat k
  else wordOf little (pa.values.slice (pa.elsize.toNat / 8 * k) (pa.elsize.toNat / 8))

/-- The places of the elements of less than a byte. -/
theorem place_of_lt (idx : UInt32)
    (hw : pa.elsize ∈ ([1, 2, 4, 8, 16, 32] : List UInt8)) (hlt : pa.elsize < 8) :
    8 / pa.elsize.toNat * pa.elsize.toNat = 8 ∧
      pa.byteOf idx = idx.toNat / (8 / pa.elsize.toNat) ∧
      (pa.shiftOf idx).toNat =
        (8 / pa.elsize.toNat - 1 - idx.toNat % (8 / pa.elsize.toNat)) * pa.elsize.toNat ∧
      (indexMask pa.elsize).toNat = 2 ^ pa.elsize.toNat - 1 := by
  have h7 : idx.toNat &&& 7 = idx.toNat % 8 := Nat.and_two_pow_sub_one_eq_mod _ 3
  have h3 : idx.toNat &&& 3 = idx.toNat % 4 := Nat.and_two_pow_sub_one_eq_mod _ 2
  simp only [List.mem_cons, List.not_mem_nil, or_false] at hw
  unfold Bitarray.byteOf Bitarray.shiftOf
  rcases hw with h | h | h | h | h | h <;> rw [h] at hlt ⊢
  · simp [indexShift, indexMask, Nat.shiftRight_eq_div_pow, UInt32.toNat_sub, h7]
    omega
  · simp [indexShift, indexMask, Nat.shiftRight_eq_div_pow, UInt32.toNat_sub, h3]
    omega
  · simp [indexShift, indexMask, Nat.shiftRight_eq_div_pow, UInt32.toNat_sub]
    omega
  all_goals exact absurd hlt (by decide)

/-- The place of an element of whole bytes. -/
theorem word_in_array (h : pa.WellFormed) (hge : ¬ pa.elsize < 8) (hk : k < pa.capacity.toNat) :
    pa.elsize.toNat / 8 * k + pa.elsize.toNat / 8 ≤ pa.total := by
  have hroom := h.room
  have hw := h.elsize
  simp only [List.mem_cons, List.not_mem_nil, or_false] at hw
  rcases hw with h | h | h | h | h | h <;> rw [h] at hge hroom ⊢ <;>
    simp at hge hroom ⊢ <;> omega

/-- The byte of an element of less than a byte. -/
theorem byte_in_array (h : pa.WellFormed) (hlt : pa.elsize < 8) (hk : k < pa.capacity.toNat) :
    k / (8 / pa.elsize.toNat) + 1 ≤ pa.total := by
  have hroom := h.room
  have hw := h.elsize
  simp only [List.mem_cons, List.not_mem_nil, or_false] at hw
  rcases hw with h | h | h | h | h | h <;> rw [h] at hlt hroom ⊢ <;>
    simp at hlt hroom ⊢ <;> omega

theorem read_of_le {p n : ℕ} (h : p + n ≤ pa.total) : pa.read p n = .ok (pa.values.slice p n) :=
  if_pos h

theorem write_of_le {p : ℕ} {bs : List UInt8} (h : p + bs.length ≤ pa.total) :
    pa.write p bs = .ok { pa with values := pa.values.overlay p bs } :=
  if_pos h

/-- An element of less than a byte is inside its byte. -/
theorem shiftOf_add_le (idx : UInt32)
    (hw : pa.elsize ∈ ([1, 2, 4, 8, 16, 32] : List UInt8))
    (hlt : pa.elsize < 8) : (pa.shiftOf idx).toNat + pa.elsize.toNat ≤ 8 := by
  obtain ⟨hn, -, hshift, -⟩ := place_of_lt idx hw hlt
  have hpos : 0 < 8 / pa.elsize.toNat := Nat.pos_of_ne_zero fun h0 => by
    rw [h0, Nat.zero_mul] at hn
    exact absurd hn (by decide)
  calc (pa.shiftOf idx).toNat + pa.elsize.toNat
      = (8 / pa.elsize.toNat - 1 - idx.toNat % (8 / pa.elsize.toNat) + 1) * pa.elsize.toNat := by
        rw [hshift, Nat.succ_mul]
    _ ≤ 8 / pa.elsize.toNat * pa.elsize.toNat := Nat.mul_le_mul_right _ (by omega)
    _ = 8 := hn

/-- The bits that are read for an element of less than a byte. -/
theorem shiftRight_and_mask (hw : pa.elsize ∈ ([1, 2, 4, 8, 16, 32] : List UInt8))
    (hlt : pa.elsize < 8) (b : UInt8) :
    (b.toUInt32 >>> pa.shiftOf idx) &&& indexMask pa.elsize =
      UInt32.ofNat (bitField b.toNat (pa.shiftOf idx).toNat pa.elsize.toNat) := by
  obtain ⟨-, -, -, hmask⟩ := place_of_lt idx hw hlt
  have hb := b.toNat_lt
  have hin := shiftOf_add_le idx hw hlt
  have hle : b.toNat >>> (pa.shiftOf idx).toNat ≤ b.toNat := Nat.shiftRight_le _ _
  have hfield : bitField b.toNat (pa.shiftOf idx).toNat pa.elsize.toNat < 2 ^ 32 :=
    (Nat.mod_le _ _).trans_lt (by omega)
  have hs : (pa.shiftOf idx).toNat % 32 = (pa.shiftOf idx).toNat := Nat.mod_eq_of_lt (by omega)
  rw [← UInt32.toNat_inj, UInt32.toNat_and, UInt32.toNat_shiftRight, hmask, hs,
    Nat.and_two_pow_sub_one_eq_mod, UInt8.toNat_toUInt32, UInt32.toNat_ofNat_of_lt' hfield,
    bitField]

/-- Every element can be read. -/
theorem bitarrayGetval_eq (little : Bool) (h : pa.WellFormed)
    (hk : (idx - 1).toNat < pa.capacity.toNat) :
    bitarrayGetval little pa idx = .ok (UInt32.ofNat (pa.element little (idx - 1).toNat)) := by
  unfold bitarrayGetval Bitarray.element
  by_cases hlt : pa.elsize < 8
  · obtain ⟨hn, hbyte, hshift, hmask⟩ := place_of_lt (idx - 1) h.elsize hlt
    have hin := byte_in_array h hlt hk
    rw [← hbyte] at hin
    simp only [if_pos hlt, read_of_le hin, packedField, ← hbyte, ← hshift]
    exact congrArg Except.ok (shiftRight_and_mask h.elsize hlt _)
  · have hin := word_in_array h hlt hk
    have hw := h.elsize
    simp only [List.mem_cons, List.not_mem_nil, or_false] at hw
    have hpart (n : ℕ) (hread : n * (idx - 1).toNat + n ≤ pa.total) :
        (do let bs ← pa.read (n * (idx - 1).toNat) n; pure (UInt32.ofNat (wordOf little bs))) =
          .ok (UInt32.ofNat (wordOf little (pa.values.slice (n * (idx - 1).toNat) n))) := by
      rw [read_of_le hread]
      rfl
    rcases hw with hw | hw | hw | hw | hw | hw <;> rw [hw] at hlt hin ⊢
    · exact absurd (by decide) hlt
    · exact absurd (by decide) hlt
    · exact absurd (by decide) hlt
    · simpa using hpart 1 hin
    · simpa using hpart 2 hin
    · simpa using hpart 4 hin

theorem testBit_not {a : UInt32} {t : ℕ} (ht : t < 32) :
    (~~~a).toNat.testBit t = !a.toNat.testBit t := by
  have hnot : (~~~a).toNat = 2 ^ 32 - (a.toNat + 1) := by
    rw [UInt32.toNat_not]
    exact Nat.sub_sub _ _ _ |>.trans (by rw [Nat.add_comm]; rfl)
  rw [hnot, Nat.testBit_two_pow_sub_succ a.toNat_lt, decide_eq_true ht, Bool.true_and]

theorem testBit_shiftLeft_of_lt {a s : UInt32} {t : ℕ} (ht : t < 32) (hs : s.toNat < 32) :
    (a <<< s).toNat.testBit t = (decide (s.toNat ≤ t) && a.toNat.testBit (t - s.toNat)) := by
  rw [UInt32.toNat_shiftLeft, Nat.mod_eq_of_lt hs, Nat.testBit_mod_two_pow,
    Nat.testBit_shiftLeft, decide_eq_true ht, Bool.true_and]

/-- A byte that takes up the bits of a value that are not too many has them in the field of the
element. -/
theorem writesField_newByte {b : UInt8} (hw : pa.elsize ∈ ([1, 2, 4, 8, 16, 32] : List UInt8))
    (hlt : pa.elsize < 8)
    (hspill : ((newval &&& ~~~indexMask pa.elsize) <<< pa.shiftOf idx).toUInt8 ||| b = b) :
    WritesField b.toNat (pa.shiftOf idx).toNat pa.elsize.toNat newval.toNat
      (pa.newByte b idx newval).toNat := by
  obtain ⟨-, -, -, hmask⟩ := place_of_lt idx hw hlt
  have hin := shiftOf_add_le idx hw hlt
  have hs : (pa.shiftOf idx).toNat < 32 := by omega
  intro t
  by_cases ht : t < 8
  · have ht32 : t < 32 := by omega
    have hu : t - (pa.shiftOf idx).toNat < 32 := by omega
    have hspilled := congrArg (fun c => c.toNat.testBit t) hspill
    have hmaskbit (u : ℕ) :
        (indexMask pa.elsize).toNat.testBit u = decide (u < pa.elsize.toNat) := by
      rw [hmask, Nat.testBit_two_pow_sub_one]
    simp only [UInt8.toNat_or, UInt32.toNat_toUInt8, Nat.testBit_or, Nat.testBit_mod_two_pow,
      testBit_shiftLeft_of_lt ht32 hs, UInt32.toNat_and, Nat.testBit_and, testBit_not hu, hmaskbit,
      ht, decide_true, Bool.true_and] at hspilled
    simp only [Bitarray.newByte, UInt32.toNat_toUInt8, UInt32.toNat_or, UInt32.toNat_and,
      UInt8.toNat_toUInt32, Nat.testBit_mod_two_pow, Nat.testBit_or, Nat.testBit_and,
      testBit_not ht32, testBit_shiftLeft_of_lt ht32 hs, hmaskbit, ht, decide_true, Bool.true_and]
    by_cases hle : (pa.shiftOf idx).toNat ≤ t
    · by_cases hfield : t - (pa.shiftOf idx).toNat < pa.elsize.toNat
      · have hin' : t < (pa.shiftOf idx).toNat + pa.elsize.toNat := by omega
        simp [hle, hfield, hin']
      · have hout : ¬ t < (pa.shiftOf idx).toNat + pa.elsize.toNat := by omega
        -- a bit above the field, which is set in the byte if it is set in the value
        simp only [hle, hfield, decide_true, decide_false, Bool.not_false, Bool.and_true,
          Bool.true_and] at hspilled
        simp [hle, hfield, hout, Bool.or_comm _ (newval.toNat.testBit _), hspilled]
    · simp [hle]
  · have hb : b.toNat < 2 ^ t := b.toNat_lt.trans_le (Nat.pow_le_pow_right (by decide) (by omega))
    have hnew : (pa.newByte b idx newval).toNat < 2 ^ t :=
      (UInt8.toNat_lt _).trans_le (Nat.pow_le_pow_right (by decide) (by omega))
    have hout : ¬ ((pa.shiftOf idx).toNat ≤ t ∧ t < (pa.shiftOf idx).toNat + pa.elsize.toNat) := by
      omega
    rw [if_neg hout, Nat.testBit_lt_two_pow hb, Nat.testBit_lt_two_pow hnew]

/-- The array with other bytes. -/
def Bitarray.withBytes (pa : Bitarray) (p : ℕ) (bs : List UInt8) : Bitarray :=
  { pa with values := pa.values.overlay p bs }

@[simp] theorem withBytes_capacity {p : ℕ} {bs : List UInt8} :
    (pa.withBytes p bs).capacity = pa.capacity := rfl

@[simp] theorem withBytes_elsize {p : ℕ} {bs : List UInt8} :
    (pa.withBytes p bs).elsize = pa.elsize := rfl

theorem Bitarray.WellFormed.withBytes {p : ℕ} {bs : List UInt8} (h : pa.WellFormed) :
    (pa.withBytes p bs).WellFormed :=
  ⟨h.elsize, h.room⟩

/-- A word among words of the same size. -/
theorem wordOf_overlay {m : Memory} {n v : ℕ} :
    wordOf little ((m.overlay (n * k) (wordBytes little n v)).slice (n * j) n) =
      if j = k then v % 256 ^ n else wordOf little (m.slice (n * j) n) := by
  have hlength : (wordBytes little n v).length = n := length_wordBytes little n v
  split_ifs with hjk
  · have hslice : (m.overlay (n * k) (wordBytes little n v)).slice (n * k)
        (wordBytes little n v).length = wordBytes little n v :=
      Memory.slice_overlay
    rw [hlength] at hslice
    rw [hjk, hslice, wordOf_wordBytes_mod]
  · have hdisjoint : n * j + n ≤ n * k ∨ n * k + (wordBytes little n v).length ≤ n * j := by
      rw [hlength, ← Nat.mul_succ, ← Nat.mul_succ]
      rcases Nat.lt_or_gt_of_ne hjk with hlt | hgt
      · exact Or.inl (Nat.mul_le_mul_left n hlt)
      · exact Or.inr (Nat.mul_le_mul_left n hgt)
    rw [Memory.slice_overlay_of_disjoint hdisjoint]

/-- Every element can be set, and the others are left alone if nothing is spilled. -/
theorem bitarraySetval_eq (little : Bool) (h : pa.WellFormed)
    (hk : (idx - 1).toNat < pa.capacity.toNat)
    (hspill : pa.elsize < 8 →
      ((newval &&& ~~~indexMask pa.elsize) <<< pa.shiftOf (idx - 1)).toUInt8 |||
        pa.values (pa.byteOf (idx - 1)) = pa.values (pa.byteOf (idx - 1))) :
    ∃ p bs, bitarraySetval little pa idx newval = .ok (pa.withBytes p bs) ∧
      ∀ j, (pa.withBytes p bs).element little j =
        if j = (idx - 1).toNat then newval.toNat % 2 ^ pa.elsize.toNat
        else pa.element little j := by
  unfold bitarraySetval Bitarray.element
  by_cases hlt : pa.elsize < 8
  · obtain ⟨hn, hbyte, hshift, -⟩ := place_of_lt (idx - 1) h.elsize hlt
    have hin := byte_in_array h hlt hk
    rw [← hbyte] at hin
    have hn0 : 0 < 8 / pa.elsize.toNat := Nat.pos_of_ne_zero fun h0 => by
      rw [h0, Nat.zero_mul] at hn
      exact absurd hn (by decide)
    have hfield := writesField_newByte h.elsize hlt (hspill hlt)
    rw [hshift, hbyte] at hfield
    refine ⟨pa.byteOf (idx - 1),
      [pa.newByte (pa.values (pa.byteOf (idx - 1))) (idx - 1) newval], ?_, fun j => ?_⟩
    · simp only [if_pos hlt, read_of_le hin]
      exact write_of_le hin
    · rw [withBytes_elsize, if_pos hlt, if_pos hlt, Bitarray.withBytes, hbyte]
      exact packedField_overlay hn0 hfield
  · have hin := word_in_array h hlt hk
    have hw := h.elsize
    simp only [List.mem_cons, List.not_mem_nil, or_false] at hw
    have hwrite (n : ℕ) (hroom : n * (idx - 1).toNat + n ≤ pa.total) :
        pa.write (n * (idx - 1).toNat) (wordBytes little n newval.toNat) =
          .ok (pa.withBytes (n * (idx - 1).toNat) (wordBytes little n newval.toNat)) :=
      write_of_le (by rwa [length_wordBytes])
    refine ⟨pa.elsize.toNat / 8 * (idx - 1).toNat,
      wordBytes little (pa.elsize.toNat / 8) newval.toNat, ?_, fun j => ?_⟩
    · rcases hw with hw | hw | hw | hw | hw | hw <;> rw [hw] at hlt hin ⊢
      · exact absurd (by decide) hlt
      · exact absurd (by decide) hlt
      · exact absurd (by decide) hlt
      · simpa using hwrite 1 hin
      · simpa using hwrite 2 hin
      · simpa using hwrite 4 hin
    · have hpow : 256 ^ (pa.elsize.toNat / 8) = 2 ^ pa.elsize.toNat := by
        rcases hw with hw | hw | hw | hw | hw | hw <;> rw [hw] at hlt ⊢
        · exact absurd (by decide) hlt
        · exact absurd (by decide) hlt
        · exact absurd (by decide) hlt
        all_goals decide
      rw [withBytes_elsize, if_neg hlt, if_neg hlt, Bitarray.withBytes, wordOf_overlay, hpow]

end Elements

/-! ### Runs -/

section Runs

variable {little : Bool} {pa : Bitarray} {a : UInt32 → UInt32} {i : UInt32}

/-- The numbers in an array are those that it should have. -/
def Packs (little : Bool) (pa : Bitarray) (a : UInt32 → UInt32) : Prop :=
  ∀ i, 0 < i → i ≤ pa.capacity → contents little pa i = a i

/-- An index that is not refused is the index of an element. -/
theorem index_lt (hpos : 0 < i) (hle : i ≤ pa.capacity) : (i - 1).toNat < pa.capacity.toNat := by
  have hpos' := UInt32.lt_iff_toNat_lt.mp hpos
  have hle' := UInt32.le_iff_toNat_le.mp hle
  have hone : (1 : UInt32) ≤ i := UInt32.le_iff_toNat_le.mpr hpos'
  rw [UInt32.toNat_sub_of_le _ _ hone]
  simp at hpos' ⊢
  omega

/-- Different indices are those of different elements. -/
theorem index_inj {j : UInt32} : (i - 1).toNat = (j - 1).toNat ↔ i = j := by
  rw [UInt32.toNat_inj]
  exact UInt32.sub_left_inj 1

theorem getval_eq_contents (h : pa.WellFormed) (hpos : 0 < i) (hle : i ≤ pa.capacity) :
    bitarrayGetval little pa i = .ok (contents little pa i) := by
  have hval := bitarrayGetval_eq little h (index_lt hpos hle)
  rw [contents, hval]

theorem contents_eq (h : pa.WellFormed) (hpos : 0 < i) (hle : i ≤ pa.capacity) :
    contents little pa i = UInt32.ofNat (pa.element little (i - 1).toNat) := by
  rw [contents, bitarrayGetval_eq little h (index_lt hpos hle)]

/-- Cutting a number to 32 bits first makes no difference. -/
theorem ofNat_mod_eq {w : ℕ} (hw : w ≤ 32) (v : ℤ) :
    UInt32.ofNat ((UInt32.ofInt v).toNat % 2 ^ w) = UInt32.ofInt (v % 2 ^ w) := by
  have hdvd : (2 : ℤ) ^ w ∣ 2 ^ 32 := pow_dvd_pow 2 hw
  have hlt : (v % 2 ^ 32).toNat < 2 ^ 32 := by omega
  have hpos : (0 : ℤ) ≤ v % 2 ^ 32 := Int.emod_nonneg v (by decide)
  have hcast : (((UInt32.ofInt v).toNat % 2 ^ w : ℕ) : ℤ) = v % 2 ^ w := by
    rw [UInt32.ofInt, UInt32.toNat_ofNat_of_lt' hlt, Int.natCast_mod, Int.toNat_of_nonneg hpos]
    push_cast
    exact Int.emod_emod_of_dvd v hdvd
  have hself (n : ℕ) : UInt32.ofNat n = UInt32.ofInt n := by
    have hmod : ((n : ℤ) % 2 ^ 32).toNat = n % 2 ^ 32 := by omega
    rw [UInt32.ofInt, hmod, ← UInt32.toNat_inj, UInt32.toNat_ofNat', UInt32.toNat_ofNat',
      Nat.mod_mod]
  rw [hself, hcast]

/-- The elements that are set. -/
theorem packs_set (h : pa.WellFormed) (ha : Packs little pa a) (hpos : 0 < i)
    (hle : i ≤ pa.capacity) {v : ℤ} (hspill : ¬ Spills pa i (UInt32.ofInt v)) :
    ∃ pa', bitarraySetval little pa i (UInt32.ofInt v) = .ok pa' ∧ pa'.WellFormed ∧
      pa'.capacity = pa.capacity ∧ pa'.elsize = pa.elsize ∧
      Packs little pa' (Function.update a i (UInt32.ofInt (v % 2 ^ pa.elsize.toNat))) := by
  have hbits : pa.elsize.toNat ≤ 32 := by
    have hw := h.elsize
    simp only [List.mem_cons, List.not_mem_nil, or_false] at hw
    rcases hw with hw | hw | hw | hw | hw | hw <;> rw [hw] <;> decide
  have hnot (hlt : pa.elsize < 8) :
      ((UInt32.ofInt v &&& ~~~indexMask pa.elsize) <<< pa.shiftOf (i - 1)).toUInt8 |||
        pa.values (pa.byteOf (i - 1)) = pa.values (pa.byteOf (i - 1)) :=
    not_not.mp fun hne => hspill ⟨hpos, hle, hlt, hne⟩
  obtain ⟨p, bs, hset, helement⟩ :=
    bitarraySetval_eq little h (index_lt hpos hle) hnot
  refine ⟨pa.withBytes p bs, hset, h.withBytes, rfl, rfl, fun j hjpos hjle => ?_⟩
  rw [contents_eq h.withBytes hjpos hjle, helement]
  by_cases hji : j = i
  · rw [if_pos (index_inj.mpr hji), hji, Function.update_self, ofNat_mod_eq hbits]
  · rw [if_neg (mt index_inj.mp hji), Function.update_of_ne hji, ← contents_eq h hjpos hjle]
    exact ha j hjpos hjle

/-- An index that is refused is not that of an element. -/
theorem refused_iff {n : UInt32} : (i ≤ 0 ∨ i > n) ↔ ¬ (0 < i ∧ i ≤ n) := by
  rw [not_and_or, UInt32.not_lt, UInt32.not_le]

/-- A careful call gives what it should, and leaves an array of the numbers that it should. -/
theorem Packs.call (h : pa.WellFormed) (ha : Packs little pa a) {c : Call} (hc : c.Careful pa) :
    ∃ pa', call little pa c = .ok ((specCall pa.capacity pa.elsize.toNat a c).1, pa') ∧
      pa'.WellFormed ∧ pa'.capacity = pa.capacity ∧ pa'.elsize = pa.elsize ∧
      Packs little pa' (specCall pa.capacity pa.elsize.toNat a c).2 := by
  cases c with
  | get arg =>
    simp only [Modules.call, bitarrayGet, specCall, refused_iff, ite_not]
    split_ifs with hidx
    · refine ⟨pa, ?_, h, rfl, rfl, ha⟩
      rw [getval_eq_contents h hidx.1 hidx.2, ha _ hidx.1 hidx.2]
      rfl
    · exact ⟨pa, rfl, h, rfl, rfl, ha⟩
  | set arg v =>
    simp only [Modules.call, bitarraySet, specCall, refused_iff, ite_not]
    split_ifs with hidx
    · obtain ⟨pa', hset, hrest⟩ := packs_set h ha hidx.1 hidx.2 hc
      refine ⟨pa', ?_, hrest⟩
      rw [hset]
      rfl
    · exact ⟨pa, rfl, h, rfl, rfl, ha⟩
  | iter arg =>
    have hpos : 0 < UInt32.ofInt arg + 1 := UInt32.pos_iff_ne_zero.mpr hc
    simp only [Modules.call, bitarrayIter, specCall]
    split_ifs with hle
    · refine ⟨pa, ?_, h, rfl, rfl, ha⟩
      rw [getval_eq_contents h hpos hle, ha _ hpos hle]
      rfl
    · exact ⟨pa, rfl, h, rfl, rfl, ha⟩

/-- A careful run gives what it should. -/
theorem Packs.run (h : pa.WellFormed) (ha : Packs little pa a) {cs : List Call}
    (hcs : CarefulRun little pa cs) :
    ∃ pa', run little pa cs = .ok ((specRun pa.capacity pa.elsize.toNat a cs).1, pa') ∧
      Packs little pa' (specRun pa.capacity pa.elsize.toNat a cs).2 := by
  induction cs generalizing pa a with
  | nil => exact ⟨pa, rfl, ha⟩
  | cons c cs ih =>
    obtain ⟨hc, hcs⟩ := hcs
    obtain ⟨pa₁, hcall, hwf, hcapacity, helsize, hpacks⟩ := ha.call h hc
    obtain ⟨pa₂, hrun, hpacks₂⟩ := ih hwf hpacks (by rwa [hcall] at hcs)
    rw [hcapacity, helsize] at hrun hpacks₂
    refine ⟨pa₂, ?_, hpacks₂⟩
    simp only [Modules.run, specRun, hcall, Except.bind, Bind.bind]
    rw [hrun]
    rfl

end Runs

/-- With arguments that fit nothing happens that must not, and if an array is made, every careful
run of calls gives what an array of numbers would give. -/
theorem run_matches (little : Bool) (source : Source) (elsize : Option ℤ)
    (hfits : source.Fits elsize) :
    (∃ message, bitarrayNew source elsize = .ok (.error message)) ∨
      ∃ pa, bitarrayNew source elsize = .ok (.ok pa) ∧
        ∀ cs, CarefulRun little pa cs →
          ∃ pa', run little pa cs =
              .ok ((specRun pa.capacity pa.elsize.toNat (contents little pa) cs).1, pa') ∧
            Packs little pa' (specRun pa.capacity pa.elsize.toNat (contents little pa) cs).2 := by
  refine (bitarrayNew_wellFormed hfits).imp_right fun ⟨pa, hnew, hwf⟩ => ⟨pa, hnew, ?_⟩
  exact fun cs hcs => Packs.run hwf (fun i _ _ => rfl) hcs

/-- An array of four bits with `5` and then `-1` in its first element. -/
theorem run_matches_nibbles :
    ∃ pa, bitarrayNew (.capacity 2 none) (some 4) = .ok (.ok pa) ∧
      ∃ pa', run true pa [.set 1 5, .set 1 (-1), .get 1, .iter 0] =
          .ok ((specRun pa.capacity pa.elsize.toNat (contents true pa)
            [.set 1 5, .set 1 (-1), .get 1, .iter 0]).1, pa') := by
  obtain ⟨message, h⟩ | ⟨pa, hnew, hrun⟩ := run_matches true (.capacity 2 none) (some 4)
    ⟨fun _ => ⟨_, _, rfl⟩, fun _ _ => Or.inl (by decide)⟩
  · cases h
  · obtain ⟨pa', hcalls, -⟩ := hrun [.set 1 5, .set 1 (-1), .get 1, .iter 0] (by
      cases hnew
      decide)
    exact ⟨pa, hnew, pa', hcalls⟩

/-- In an array of elements of four bits the value `16` for the second one sets a bit of the first
one. -/
theorem set_spills :
    ¬ ∀ (little : Bool) (source : Source) (elsize : Option ℤ) (pa : Bitarray),
      bitarrayNew source elsize = .ok (.ok pa) → ∀ cs, ∃ pa', run little pa cs =
        .ok ((specRun pa.capacity pa.elsize.toNat (contents little pa) cs).1, pa') := by
  intro h
  have hnew : bitarrayNew (.capacity 2 none) (some 4) = .ok (.ok ⟨2, 4, 1, Memory.ofBytes [0]⟩) :=
    rfl
  obtain ⟨pa', hrun⟩ := h true _ _ _ hnew [.set 2 16, .get 1]
  have hreplies :
      (run true ⟨2, 4, 1, Memory.ofBytes [0]⟩ [.set 2 16, .get 1]).toOption.map Prod.fst =
        some [.values [], .values [0]] :=
    congrArg (fun r => r.toOption.map Prod.fst) hrun
  exact absurd hreplies (by decide)

end ELuaBrain.Modules
