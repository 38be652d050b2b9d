import ELuaBrain.LuaRpc.Number
import ELuaBrain.System.Rounding

/-!
# Precompiled chunks: `ldump.c`

The cross-compiler writes a prototype for a target. Its own `lua_Number` is a `double` and its own
`int` has 32 bits. The writer may refuse a block; after a refusal or an error nothing is written.

A prototype is written as a sequence of typed fields.

## Main definitions

* `Proto`, `DumpTargetInfo` : a prototype and the description of a target.
* `Dumper`, `DumpState`, `luaUDumpCrosscompile` : the dump.
* `Field`, `Proto.fields`, `Field.encode`, `Field.Fits` : the fields of a prototype, their bytes,
  and whether the code writes them.

## Main results

* `dumpFunction_eq` : a prototype is dumped field by field.
* `dumpFields_status`, `dumpFields_out` : when the dump of a sequence succeeds, and what it writes.
-/

namespace ELuaBrain.Lua.Chunk

open LuaRpc (binary32 binary64)

/-! ### Prototypes -/

/-- The contents of a `TString`. -/
abbrev Text := List UInt8

/-- A constant. A string is a pointer to a `TString`, which may be `NULL`. -/
inductive Constant (N : Type)
  | nil
  | boolean (b : Bool)
  | number (x : N)
  | string (s : Option Text)
  deriving DecidableEq

structure LocVar where
  varname : Option Text
  startpc : ℕ
  endpc : ℕ
  deriving DecidableEq

/-- The fields of a `Proto` without its nested functions. The source is a pointer, which may be
`NULL`. -/
structure ProtoFields (N : Type) where
  source : Option Text
  linedefined : ℕ
  lastlinedefined : ℕ
  nups : UInt8
  numparams : UInt8
  isVararg : UInt8
  maxstacksize : UInt8
  code : List UInt32
  k : List (Constant N)
  lineinfo : List ℤ
  locvars : List LocVar
  upvalues : List (Option Text)
  deriving DecidableEq

/-- A `Proto` with its nested functions. -/
inductive Proto (N : Type)
  | mk (own : ProtoFields N) (p : List (Proto N))

/-- The `lua_Number` of the cross-compiler, by its bits. -/
abbrev Double : Type := BitVec 64

/-! ### Targets -/

structure DumpTargetInfo where
  littleEndian : Bool
  sizeofInt : ℕ
  sizeofStrsize : ℕ
  sizeofNumber : ℕ
  numberIntegral : Bool
  isArmFpa : Bool
  deriving DecidableEq

/-- The targets that the options of `luac` describe. The code asserts the sizes. -/
structure DumpTargetInfo.Supported (t : DumpTargetInfo) : Prop where
  int : t.sizeofInt = 1 ∨ t.sizeofInt = 2 ∨ t.sizeofInt = 4
  strsize : t.sizeofStrsize = 1 ∨ t.sizeofStrsize = 2 ∨ t.sizeofStrsize = 4
  integral : t.numberIntegral → t.sizeofNumber = 1 ∨ t.sizeofNumber = 2 ∨ t.sizeofNumber = 4
  float : ¬t.numberIntegral → t.sizeofNumber = 4 ∨ t.sizeofNumber = 8

/-- `LUA_ERR_CC_INTOVERFLOW`. -/
def intOverflow : ℤ := 101

/-- `LUA_ERR_CC_NOTINTEGER`. -/
def notInteger : ℤ := 102

/-! ### The dump -/

/-- The machine of the cross-compiler and the fields of a `DumpState` that do not change. The writer
is given what was written before and a block. With `saturates`, a conversion to an `int` that cannot
hold the number gives the nearest `int`, and otherwise the least `int`. -/
structure Dumper where
  little : Bool
  saturates : Bool
  writer : List UInt8 → List UInt8 → ℤ
  strip : Bool
  target : DumpTargetInfo

/-- What was written, and the `status` of a `DumpState`. -/
structure DumpState where
  out : List UInt8
  status : ℤ
  deriving DecidableEq

section Dump

variable (d : Dumper)

def dumpBlock (b : List UInt8) (D : DumpState) : DumpState :=
  if D.status = 0 then
    { out := if d.writer D.out b = 0 then D.out ++ b else D.out, status := d.writer D.out b }
  else D

/-- The `status` of a `DumpState` is set if the test succeeds. -/
def DumpState.failIf (test : Bool) (status : ℤ) (D : DumpState) : DumpState :=
  if test then { D with status } else D

def dumpChar (y : ℤ) (D : DumpState) : DumpState := dumpBlock d [UInt8.ofInt y] D

def maybeByteSwap (number : List UInt8) : List UInt8 :=
  if d.little != d.target.littleEndian then number.reverse else number

/-- The memory of an integer of `n` bytes. -/
def intMemory (little : Bool) (n : ℕ) (x : ℤ) : List UInt8 :=
  wordBytes little n (x % (256 ^ n : ℕ)).toNat

def dumpIntWithSize (x : ℤ) (sizeofInt : ℕ) (D : DumpState) : DumpState :=
  match sizeofInt with
  | 1 => dumpChar d x (D.failIf (x > 0x7F || x < -0x80) intOverflow)
  | 2 => dumpBlock d (maybeByteSwap d (intMemory d.little 2 x))
      (D.failIf (x > 0x7FFF || x < -0x8000) intOverflow)
  | 4 => dumpBlock d (maybeByteSwap d (intMemory d.little 4 x))
      -- the bounds are reduced by 1
      (D.failIf (x > 0x7FFFFFFE || x < -0x7FFFFFFF) intOverflow)
  | _ => D

def dumpInt (x : ℤ) (D : DumpState) : DumpState := dumpIntWithSize d x d.target.sizeofInt D

def dumpSize (x : ℕ) (D : DumpState) : DumpState :=
  match d.target.sizeofStrsize with
  | 1 => dumpChar d x (D.failIf (x > 0xFF) intOverflow)
  | 2 => dumpBlock d (maybeByteSwap d (wordBytes d.little 2 x)) (D.failIf (x > 0xFFFF) intOverflow)
  | 4 => dumpBlock d (maybeByteSwap d (wordBytes d.little 4 x))
      (D.failIf (x > 0xFFFFFFFE) intOverflow)
  | _ => D

/-- `( int )x` for a number that no `int` holds. -/
def outsideInt (x : Double) : ℤ :=
  if ¬d.saturates then -2 ^ 31
  else if binary64.IsNaN x.toNat then 0
  else if binary64.Negative x.toNat then -2 ^ 31
  else 2 ^ 31 - 1

/-- `( int )x`. -/
def intOf (x : Double) : ℤ :=
  match binary64.value x.toNat with
  | some q =>
    if -2 ^ 31 ≤ q.num.tdiv q.den ∧ q.num.tdiv q.den < 2 ^ 31 then q.num.tdiv q.den
    else outsideInt d x
  | none => outsideInt d x

/-- `( ( float )( int )x ) != x`. -/
def notEqualInt (x : Double) : Bool :=
  binary32.value (binary32.ofInt (intOf d x)) != binary64.value x.toNat

/-- The two halves of a `double` of the FPA are swapped. -/
def swapHalves (pnum : List UInt8) : List UInt8 := pnum.drop 4 ++ pnum.take 4

def dumpNumber (x : Double) (D : DumpState) : DumpState :=
  if d.target.numberIntegral then
    dumpIntWithSize d (intOf d x) d.target.sizeofNumber (D.failIf (notEqualInt d x) notInteger)
  else
    match d.target.sizeofNumber with
    | 4 => dumpBlock d
        (maybeByteSwap d (wordBytes d.little 4 (binary32.convert binary64 x.toNat))) D
    | 8 =>
      let y := wordBytes d.little 8 x.toNat
      dumpBlock d (maybeByteSwap d (if d.target.isArmFpa then swapHalves y else y)) D
    | _ => D

def dumpInstruction (w : UInt32) (D : DumpState) : DumpState :=
  dumpBlock d (maybeByteSwap d (wordBytes d.little 4 w.toNat)) D

def dumpCode (f : ProtoFields Double) (D : DumpState) : DumpState :=
  f.code.foldl (fun D w => dumpInstruction d w D) (dumpInt d f.code.length D)

/-- The size is a `strsize_t`. -/
def dumpString (s : Option Text) (D : DumpState) : DumpState :=
  match s with
  | none => dumpSize d 0 D
  | some s =>
    let size := (s.length + 1) % 2 ^ 32
    dumpBlock d ((s ++ [0]).take size) (dumpSize d size D)

/-- `LUA_TNIL`. -/
def tnil : UInt8 := 0

/-- `LUA_TBOOLEAN`. -/
def tboolean : UInt8 := 1

/-- `LUA_TNUMBER`. -/
def tnumber : UInt8 := 5

/-- `LUA_TSTRING`. -/
def tstring : UInt8 := 6

/-- One round of the first loop of `DumpConstants`. -/
def dumpConstant (D : DumpState) : Constant Double → DumpState
  | .nil => dumpChar d tnil.toNat D
  | .boolean b => dumpChar d b.toNat (dumpChar d tboolean.toNat D)
  | .number x => dumpNumber d x (dumpChar d tnumber.toNat D)
  | .string s => dumpString d s (dumpChar d tstring.toNat D)

/-- One round of the loop over the local variables of `DumpDebug`. -/
def dumpLocVar (D : DumpState) (v : LocVar) : DumpState :=
  dumpInt d v.endpc (dumpInt d v.startpc (dumpString d v.varname D))

/-- A list of `DumpDebug`, with its length, unless it is stripped. -/
def dumpList {α : Type} (item : DumpState → α → DumpState) (xs : List α) (D : DumpState) :
    DumpState :=
  (if d.strip then [] else xs).foldl item (dumpInt d (if d.strip then [] else xs).length D)

def dumpDebug (f : ProtoFields Double) (D : DumpState) : DumpState :=
  dumpList d (fun D s => dumpString d s D) f.upvalues
    (dumpList d (dumpLocVar d) f.locvars (dumpList d (fun D x => dumpInt d x D) f.lineinfo D))

/-- The fields of `DumpFunction` in front of the code. -/
def dumpFront (f : ProtoFields Double) (p : Option Text) (D : DumpState) : DumpState :=
  let D := dumpString d (if f.source = p ∨ d.strip then none else f.source) D
  let D := dumpInt d f.lastlinedefined (dumpInt d f.linedefined D)
  let D := dumpChar d f.numparams.toNat (dumpChar d f.nups.toNat D)
  dumpChar d f.maxstacksize.toNat (dumpChar d f.isVararg.toNat D)

mutual

def dumpFunction (p : Option Text) : Proto Double → DumpState → DumpState
  | .mk f nested, D =>
    let D := dumpCode d f (dumpFront d f p D)
    -- `DumpConstants`
    let D := f.k.foldl (dumpConstant d) (dumpInt d f.k.length D)
    let D := dumpFunctions f.source nested (dumpInt d nested.length D)
    dumpDebug d f D

/-- The second loop of `DumpConstants`. -/
def dumpFunctions (p : Option Text) : List (Proto Double) → DumpState → DumpState
  | [], D => D
  | f :: fs, D => dumpFunctions p fs (dumpFunction p f D)

end

/-- The header: `LUA_SIGNATURE`, `LUAC_VERSION`, `LUAC_FORMAT` and the target. -/
def header (t : DumpTargetInfo) : List UInt8 :=
  [0x1B, 0x4C, 0x75, 0x61, 0x51, 0, LuaRpc.flag t.littleEndian, UInt8.ofNat t.sizeofInt,
    UInt8.ofNat t.sizeofStrsize, 4, UInt8.ofNat t.sizeofNumber, LuaRpc.flag t.numberIntegral]

def luaUDumpCrosscompile (f : Proto Double) : DumpState :=
  dumpFunction d none f (dumpBlock d (header d.target) ⟨[], 0⟩)

end Dump

/-! ### Fields -/

/-- A field of a chunk. A size is written as a `strsize_t`. -/
inductive Field
  | char (b : UInt8)
  | int (x : ℤ)
  | size (n : ℕ)
  | number (x : Double)
  | instruction (w : UInt32)
  | block (bs : List UInt8)
  deriving DecidableEq

def dumpField (d : Dumper) (D : DumpState) : Field → DumpState
  | .char b => dumpChar d b.toNat D
  | .int x => dumpInt d x D
  | .size n => dumpSize d (n % 2 ^ 32) D
  | .number x => dumpNumber d x D
  | .instruction w => dumpInstruction d w D
  | .block bs => dumpBlock d bs D

/-- The dump of a sequence of fields. -/
def dumpFields (d : Dumper) (fs : List Field) (D : DumpState) : DumpState :=
  fs.foldl (dumpField d) D

namespace Field

def ofString : Option Text → List Field
  | none => [.size 0]
  | some s =>
    [.size (s.length + 1), .block ((s ++ [0]).take ((s.length + 1) % 2 ^ 32))]

def ofConstant : Constant Double → List Field
  | .nil => [.char tnil]
  | .boolean b => [.char tboolean, .char (LuaRpc.flag b)]
  | .number x => [.char tnumber, .number x]
  | .string s => .char tstring :: ofString s

def ofLocVar (v : LocVar) : List Field := ofString v.varname ++ [.int v.startpc, .int v.endpc]

/-- A list with its length. -/
def ofList {α : Type} (item : α → List Field) (xs : List α) : List Field :=
  .int xs.length :: xs.flatMap item

end Field

/-- What is left of debug information. -/
def kept {α : Type} (strip : Bool) (xs : List α) : List α := if strip then [] else xs

/-- The fields of a prototype in front of its nested functions. -/
def ProtoFields.front (strip : Bool) (p : Option Text) (f : ProtoFields Double) : List Field :=
  Field.ofString (if f.source = p ∨ strip then none else f.source) ++
    [.int f.linedefined, .int f.lastlinedefined, .char f.nups, .char f.numparams, .char f.isVararg,
      .char f.maxstacksize] ++
    Field.ofList (fun w => [.instruction w]) f.code ++ Field.ofList Field.ofConstant f.k

/-- The fields of a prototype behind its nested functions. -/
def ProtoFields.debug (strip : Bool) (f : ProtoFields Double) : List Field :=
  Field.ofList (fun x => [.int x]) (kept strip f.lineinfo) ++
    Field.ofList Field.ofLocVar (kept strip f.locvars) ++
    Field.ofList Field.ofString (kept strip f.upvalues)

mutual

/-- The fields of a prototype. -/
def Proto.fields (strip : Bool) (p : Option Text) : Proto Double → List Field
  | .mk f nested => f.front strip p ++
      (.int nested.length :: (Proto.nestedFields strip f.source nested ++ f.debug strip))

/-- The fields of nested functions. -/
def Proto.nestedFields (strip : Bool) (p : Option Text) : List (Proto Double) → List Field
  | [] => []
  | f :: fs => f.fields strip p ++ Proto.nestedFields strip p fs

end

section Encode

variable (d : Dumper)

/-- The bytes of a field. -/
def Field.encode : Field → List UInt8
  | .char b => [b]
  | .int x => intMemory d.target.littleEndian d.target.sizeofInt x
  | .size n => wordBytes d.target.littleEndian d.target.sizeofStrsize (n % 2 ^ 32)
  | .number x =>
    if d.target.numberIntegral then
      intMemory d.target.littleEndian d.target.sizeofNumber (intOf d x)
    else if d.target.sizeofNumber = 4 then
      wordBytes d.target.littleEndian 4 (binary32.convert binary64 x.toNat)
    else
      let y := wordBytes d.target.littleEndian 8 x.toNat
      if d.target.isArmFpa then swapHalves y else y
  | .instruction w => wordBytes d.target.littleEndian 4 w.toNat
  | .block bs => bs

/-- The least and the greatest integer that the code writes. For 4 bytes they are one off those of
the type. -/
def IntFits (size : ℕ) (x : ℤ) : Prop :=
  match size with
  | 1 => -0x80 ≤ x ∧ x ≤ 0x7F
  | 2 => -0x8000 ≤ x ∧ x ≤ 0x7FFF
  | _ => -0x7FFFFFFF ≤ x ∧ x ≤ 0x7FFFFFFE

/-- The greatest size that the code writes. For 4 bytes it is one off that of the type. -/
def greatestSize : ℕ → ℕ
  | 1 => 0xFF
  | 2 => 0xFFFF
  | _ => 0xFFFFFFFE

/-- Whether the code writes a field. -/
def Field.Fits : Field → Prop
  | .int x => IntFits d.target.sizeofInt x
  | .size n => n % 2 ^ 32 ≤ greatestSize d.target.sizeofStrsize
  | .number x => d.target.numberIntegral →
    notEqualInt d x = false ∧ IntFits d.target.sizeofNumber (intOf d x)
  | _ => True

/-- The writer takes the blocks, one after the other. -/
def Dumper.Takes : List UInt8 → List (List UInt8) → Prop
  | _, [] => True
  | out, b :: bs => d.writer out b = 0 ∧ Dumper.Takes (out ++ b) bs

end Encode

/-! ### What the dump of a field writes -/

variable {d : Dumper} {bs : List UInt8} {fits : Prop} {act : DumpState → DumpState} {D : DumpState}
  {p : Option Text}

/-- An action writes a block if the status is zero, the value fits and the writer takes the block,
and sets the status otherwise. -/
def Writes (d : Dumper) (bs : List UInt8) (fits : Prop) (act : DumpState → DumpState) : Prop :=
  ∀ D, ((act D).status = 0 ↔ D.status = 0 ∧ fits ∧ d.writer D.out bs = 0) ∧
    ((act D).status = 0 → (act D).out = D.out ++ bs)

theorem Writes.congr {bs' : List UInt8} {fits' : Prop} (h : Writes d bs fits act) (hbs : bs = bs')
    (hfits : fits ↔ fits') : Writes d bs' fits' act := by
  rw [← hbs, ← propext hfits]
  exact h

theorem writes_block (d : Dumper) (bs : List UInt8) : Writes d bs True (dumpBlock d bs) := by
  intro D
  rw [dumpBlock]
  by_cases hstatus : D.status = 0
  · rw [if_pos hstatus]
    refine ⟨⟨fun h => ⟨hstatus, trivial, h⟩, fun h => h.2.2⟩, fun h => ?_⟩
    exact if_pos h
  · rw [if_neg hstatus]
    exact ⟨⟨fun h => absurd h hstatus, fun h => absurd h.1 hstatus⟩, fun h => absurd h hstatus⟩

/-- A test in front of an action. -/
theorem Writes.failIf (h : Writes d bs fits act) (test : Bool) {status : ℤ} (hne : status ≠ 0) :
    Writes d bs (test = false ∧ fits) fun D => act (D.failIf test status) := by
  intro D
  cases test
  · obtain ⟨hstatus, hout⟩ := h D
    exact ⟨hstatus.trans (by rw [eq_self_iff_true, true_and]), hout⟩
  · obtain ⟨hstatus, -⟩ := h { D with status }
    have hfail : (act { D with status }).status ≠ 0 := fun hzero => hne (hstatus.mp hzero).1
    exact ⟨⟨fun hzero => absurd hzero hfail, fun hzero => absurd hzero.2.1.1 (by decide)⟩,
      fun hzero => absurd hzero hfail⟩

theorem ofInt_natCast (x : ℕ) : UInt8.ofInt x = UInt8.ofNat x := by
  have hmod : ((x : ℤ) % 2 ^ 8).toNat = x % 2 ^ 8 := by omega
  rw [UInt8.ofInt, hmod]
  refine UInt8.toNat_inj.mp ?_
  rw [UInt8.toNat_ofNat', UInt8.toNat_ofNat', Nat.mod_mod]

theorem maybeByteSwap_wordBytes (n x : ℕ) :
    maybeByteSwap d (wordBytes d.little n x) = wordBytes d.target.littleEndian n x := by
  rw [maybeByteSwap]
  cases hhost : d.little <;> cases htarget : d.target.littleEndian
  · rfl
  · exact wordBytes_reverse
  · exact wordBytes_reverse
  · rfl

theorem maybeByteSwap_swapHalves (hlen : bs.length = 8) :
    maybeByteSwap d (swapHalves bs) = swapHalves (maybeByteSwap d bs) := by
  rw [maybeByteSwap, maybeByteSwap]
  split_ifs with hswap
  · rw [swapHalves, swapHalves, List.reverse_append, List.reverse_take, List.reverse_drop, hlen]
  · rfl

theorem dumpIntWithSize_writes {n : ℕ} (hn : n = 1 ∨ n = 2 ∨ n = 4) (x : ℤ) :
    Writes d (intMemory d.target.littleEndian n x) (IntFits n x) fun D =>
      dumpIntWithSize d x n D := by
  have hne : intOverflow ≠ 0 := by decide
  obtain rfl | rfl | rfl := hn
  · have hbyte : [UInt8.ofInt x] = intMemory d.target.littleEndian 1 x := by
      rw [intMemory]
      cases d.target.littleEndian <;> rfl
    refine ((writes_block d _).failIf (x > 0x7F || x < -0x80) hne).congr hbyte ?_
    simp only [IntFits, Bool.or_eq_false_iff, decide_eq_false_iff_not, and_true]
    omega
  · refine ((writes_block d _).failIf (x > 0x7FFF || x < -0x8000) hne).congr
      (maybeByteSwap_wordBytes ..) ?_
    simp only [IntFits, Bool.or_eq_false_iff, decide_eq_false_iff_not, and_true]
    omega
  · refine ((writes_block d _).failIf (x > 0x7FFFFFFE || x < -0x7FFFFFFF) hne).congr
      (maybeByteSwap_wordBytes ..) ?_
    simp only [IntFits, Bool.or_eq_false_iff, decide_eq_false_iff_not, and_true]
    omega

theorem dumpSize_writes (hs : d.target.Supported) (x : ℕ) :
    Writes d (wordBytes d.target.littleEndian d.target.sizeofStrsize x)
      (x ≤ greatestSize d.target.sizeofStrsize) fun D => dumpSize d x D := by
  have hne : intOverflow ≠ 0 := by decide
  obtain hn | hn | hn := hs.strsize
  · have hbyte : [UInt8.ofInt x] = wordBytes d.target.littleEndian 1 x := by
      rw [ofInt_natCast]
      cases d.target.littleEndian <;> rfl
    simp only [dumpSize, hn]
    refine ((writes_block d _).failIf (x > 0xFF) hne).congr hbyte ?_
    simp only [greatestSize, decide_eq_false_iff_not, and_true]
    omega
  · simp only [dumpSize, hn]
    refine ((writes_block d _).failIf (x > 0xFFFF) hne).congr (maybeByteSwap_wordBytes ..) ?_
    simp only [greatestSize, decide_eq_false_iff_not, and_true]
    omega
  · simp only [dumpSize, hn]
    refine ((writes_block d _).failIf (x > 0xFFFFFFFE) hne).congr (maybeByteSwap_wordBytes ..) ?_
    simp only [greatestSize, decide_eq_false_iff_not, and_true]
    omega

theorem dumpNumber_writes (hs : d.target.Supported) (x : Double) :
    Writes d ((Field.number x).encode d) ((Field.number x).Fits d) fun D => dumpNumber d x D := by
  by_cases hint : d.target.numberIntegral
  · have hwrites := (dumpIntWithSize_writes (d := d) (hs.integral hint) (intOf d x)).failIf
      (notEqualInt d x) (show notInteger ≠ 0 by decide)
    simp only [dumpNumber, Field.encode, Field.Fits, if_pos hint, forall_prop_of_true hint]
    exact hwrites
  · simp only [dumpNumber, Field.encode, Field.Fits, if_neg hint, forall_prop_of_false hint]
    obtain hn | hn := hs.float hint
    · simp only [hn, if_true]
      exact (writes_block d _).congr (maybeByteSwap_wordBytes ..) Iff.rfl
    · simp only [hn, if_neg (show ¬8 = 4 by decide)]
      refine (writes_block d _).congr ?_ Iff.rfl
      split_ifs
      · rw [maybeByteSwap_swapHalves (length_wordBytes ..), maybeByteSwap_wordBytes]
      · exact maybeByteSwap_wordBytes ..

/-- What the dump of a field writes. -/
theorem dumpField_writes (hs : d.target.Supported) (x : Field) :
    Writes d (x.encode d) (x.Fits d) fun D => dumpField d D x := by
  cases x with
  | char b =>
    refine (writes_block d [UInt8.ofInt (b.toNat : ℤ)]).congr ?_ Iff.rfl
    rw [ofInt_natCast, UInt8.ofNat_toNat]
    rfl
  | int x => exact dumpIntWithSize_writes hs.int x
  | size n => exact dumpSize_writes hs (n % 2 ^ 32)
  | number x => exact dumpNumber_writes hs x
  | instruction w => exact (writes_block d _).congr (maybeByteSwap_wordBytes ..) Iff.rfl
  | block bs => exact writes_block d bs

/-! ### Sequences of fields -/

/-- **Success.** The dump of a sequence succeeds if the fields fit and the writer takes them. -/
theorem dumpFields_status (hs : d.target.Supported) (fs : List Field) (D : DumpState) :
    (dumpFields d fs D).status = 0 ↔
      D.status = 0 ∧ (∀ x ∈ fs, x.Fits d) ∧ d.Takes D.out (fs.map (Field.encode d)) := by
  induction fs generalizing D with
  | nil => exact ⟨fun h => ⟨h, fun _ hx => absurd hx List.not_mem_nil, trivial⟩, fun h => h.1⟩
  | cons x fs ih =>
    obtain ⟨hstatus, hout⟩ := dumpField_writes hs x D
    have hstep : dumpFields d (x :: fs) D = dumpFields d fs (dumpField d D x) := rfl
    rw [hstep, ih, List.map_cons, Dumper.Takes, List.forall_mem_cons]
    constructor
    · rintro ⟨hzero, hfits, htakes⟩
      obtain ⟨hD, hx, hwriter⟩ := hstatus.mp hzero
      rw [hout hzero] at htakes
      exact ⟨hD, ⟨hx, hfits⟩, hwriter, htakes⟩
    · rintro ⟨hD, ⟨hx, hfits⟩, hwriter, htakes⟩
      have hzero := hstatus.mpr ⟨hD, hx, hwriter⟩
      rw [hout hzero]
      exact ⟨hzero, hfits, htakes⟩

/-- What the dump of a sequence writes. -/
theorem dumpFields_out (hs : d.target.Supported) (fs : List Field) (D : DumpState)
    (h : (dumpFields d fs D).status = 0) :
    (dumpFields d fs D).out = D.out ++ fs.flatMap (Field.encode d) := by
  induction fs generalizing D with
  | nil => exact (List.append_nil _).symm
  | cons x fs ih =>
    obtain ⟨-, hout⟩ := dumpField_writes hs x D
    have hstep : dumpFields d (x :: fs) D = dumpFields d fs (dumpField d D x) := rfl
    rw [hstep] at h ⊢
    have hzero := ((dumpFields_status hs fs _).mp h).1
    rw [ih _ h, hout hzero, List.flatMap_cons, List.append_assoc]

theorem dumpFields_append (fs gs : List Field) (D : DumpState) :
    dumpFields d (fs ++ gs) D = dumpFields d gs (dumpFields d fs D) := List.foldl_append

theorem foldl_eq_dumpFields {α : Type} (item : DumpState → α → DumpState) {fields : α → List Field}
    (h : ∀ D x, item D x = dumpFields d (fields x) D) (xs : List α) (D : DumpState) :
    xs.foldl item D = dumpFields d (xs.flatMap fields) D := by
  induction xs generalizing D with
  | nil => rfl
  | cons x xs ih => rw [List.foldl_cons, List.flatMap_cons, dumpFields_append, ih, h]

/-- A list with its length. -/
theorem ofList_eq_dumpFields {α : Type} (item : DumpState → α → DumpState)
    {fields : α → List Field} (h : ∀ D x, item D x = dumpFields d (fields x) D) (xs : List α)
    (D : DumpState) :
    xs.foldl item (dumpInt d xs.length D) = dumpFields d (Field.ofList fields xs) D :=
  foldl_eq_dumpFields item h xs _

theorem dumpString_eq (s : Option Text) (D : DumpState) :
    dumpString d s D = dumpFields d (Field.ofString s) D := by
  cases s <;> rfl

theorem dumpConstant_eq (D : DumpState) (x : Constant Double) :
    dumpConstant d D x = dumpFields d (Field.ofConstant x) D := by
  cases x with
  | nil => rfl
  | boolean b => cases b <;> rfl
  | number x => rfl
  | string s => exact dumpString_eq s _

theorem dumpLocVar_eq (D : DumpState) (v : LocVar) :
    dumpLocVar d D v = dumpFields d (Field.ofLocVar v) D := by
  rw [dumpLocVar, Field.ofLocVar, dumpFields_append, dumpString_eq]
  rfl

theorem dumpDebug_eq (f : ProtoFields Double) (D : DumpState) :
    dumpDebug d f D = dumpFields d (f.debug d.strip) D := by
  rw [ProtoFields.debug, dumpFields_append, dumpFields_append,
    ← ofList_eq_dumpFields (fun D x => dumpInt d x D) (fun _ _ => rfl),
    ← ofList_eq_dumpFields _ dumpLocVar_eq,
    ← ofList_eq_dumpFields (fun D s => dumpString d s D) fun D s => dumpString_eq s D]
  rfl

theorem dumpFront_eq (f : ProtoFields Double) (p : Option Text) (D : DumpState) :
    f.k.foldl (dumpConstant d) (dumpInt d f.k.length (dumpCode d f (dumpFront d f p D))) =
      dumpFields d (f.front d.strip p) D := by
  rw [ProtoFields.front, dumpFields_append, dumpFields_append, dumpFields_append,
    ← ofList_eq_dumpFields _ dumpConstant_eq,
    ← ofList_eq_dumpFields (fun D w => dumpInstruction d w D) (fun _ _ => rfl),
    ← dumpString_eq]
  rfl

mutual

/-- **Fields.** A prototype is dumped field by field. -/
theorem dumpFunction_eq (p : Option Text) : ∀ (f : Proto Double) (D : DumpState),
    dumpFunction d p f D = dumpFields d (f.fields d.strip p) D
  | .mk f nested, D => by
    rw [dumpFunction, Proto.fields, dumpFields_append, ← dumpFront_eq]
    have hcons : ∀ (x : Field) (fs : List Field) (D : DumpState),
        dumpFields d (x :: fs) D = dumpFields d fs (dumpField d D x) := fun _ _ _ => rfl
    rw [hcons, dumpFields_append, ← dumpDebug_eq, ← dumpFunctions_eq f.source nested]
    rfl

theorem dumpFunctions_eq (p : Option Text) : ∀ (fs : List (Proto Double)) (D : DumpState),
    dumpFunctions d p fs D = dumpFields d (Proto.nestedFields d.strip p fs) D
  | [], D => rfl
  | f :: fs, D => by
    rw [dumpFunctions, Proto.nestedFields, dumpFields_append, dumpFunction_eq p f,
      dumpFunctions_eq p fs]

end

/-- The blocks of a chunk. -/
def chunkBlocks (d : Dumper) (f : Proto Double) : List (List UInt8) :=
  header d.target :: (f.fields d.strip none).map (Field.encode d)

/-- **Success of a dump.** A dump succeeds if every field fits and the writer takes every block. -/
theorem luaUDumpCrosscompile_status (hs : d.target.Supported) (f : Proto Double) :
    (luaUDumpCrosscompile d f).status = 0 ↔
      (∀ x ∈ f.fields d.strip none, x.Fits d) ∧ d.Takes [] (chunkBlocks d f) := by
  obtain ⟨hstatus, hout⟩ := writes_block d (header d.target) ⟨[], 0⟩
  rw [luaUDumpCrosscompile, dumpFunction_eq, dumpFields_status hs, chunkBlocks, Dumper.Takes]
  constructor
  · rintro ⟨hzero, hfits, htakes⟩
    rw [hout hzero] at htakes
    exact ⟨hfits, (hstatus.mp hzero).2.2, htakes⟩
  · rintro ⟨hfits, hwriter, htakes⟩
    have hzero := hstatus.mpr ⟨rfl, trivial, hwriter⟩
    rw [hout hzero]
    exact ⟨hzero, hfits, htakes⟩

/-- What a dump that succeeds writes. -/
theorem luaUDumpCrosscompile_out (hs : d.target.Supported) {f : Proto Double}
    (h : (luaUDumpCrosscompile d f).status = 0) :
    (luaUDumpCrosscompile d f).out =
      header d.target ++ (f.fields d.strip none).flatMap (Field.encode d) := by
  obtain ⟨-, hout⟩ := writes_block d (header d.target) ⟨[], 0⟩
  rw [luaUDumpCrosscompile, dumpFunction_eq] at h ⊢
  rw [dumpFields_out hs _ _ h, hout ((dumpFields_status hs _ _).mp h).1, List.nil_append]

end ELuaBrain.Lua.Chunk
