import ELuaBrain.Lua.Dump
import ELuaBrain.Lua.Zio

/-!
# Precompiled chunks: `lundump.c`

A chunk is loaded by a virtual machine with its own byte order, `int` and `lua_Number`. What
`luaG_checkcode` accepts is a parameter. In direct mode strings, code and line information are used
in place: their words are read at any address.

## Main definitions

* `NumberType`, `VM` : the machine.
* `LoadState`, `luaUUndump` : the loader.
* `Proto.received` : the prototype that is to be loaded.

## Main results

* `Proto.received_self` : it is the one that was dumped, if nothing is stripped or converted.
-/

namespace ELuaBrain.Lua.Chunk

open LuaRpc (binary32 binary64)

/-! ### The machine -/

/-- The type that `lua_Number` is: an integer of some bytes, a `float` or a `double`. -/
inductive NumberType
  | int (size : ℕ)
  | float
  | double
  deriving DecidableEq

namespace NumberType

/-- `sizeof( lua_Number )`. -/
def size : NumberType → ℕ
  | int size => size
  | float => 4
  | double => 8

/-- `( ( lua_Number )0.5 ) == 0`. -/
def integral : NumberType → Bool
  | int _ => true
  | _ => false

variable (t : NumberType)

/-- A `lua_Number`, by its bits. -/
abbrev Num : Type := BitVec (8 * t.size)

/-- The value of a number that is neither infinite nor a NaN. -/
def value (x : t.Num) : Option ℚ :=
  match t with
  | int _ => some x.toInt
  | float => binary32.value x.toNat
  | double => binary64.value x.toNat

/-- `( lua_Number )y` for an integer. -/
def ofInt (y : ℤ) : t.Num :=
  match t with
  | int _ => BitVec.ofInt _ y
  | float => BitVec.ofNat _ (binary32.ofInt y)
  | double => BitVec.ofNat _ (binary64.ofInt y)

end NumberType

/-- A virtual machine, and what `luaG_checkcode` accepts. The halves of a `double` are swapped in
memory with `armFpa`. -/
structure VM where
  little : Bool
  sizeofInt : ℕ
  number : NumberType
  armFpa : Bool
  nCcalls : ℕ
  luaGCheckcode : Proto number.Num → Bool
  sizeofInt_lt : sizeofInt < 256

/-- `LUAI_MAXCCALLS`. -/
def maxCcalls : ℕ := 200

/-- The fields of a `LoadState` that the header sets, and the name of the chunk. -/
structure LoadState where
  name : String
  swap : Bool
  numsize : ℕ
  toflt : Bool
  deriving DecidableEq

/-- `"%s: %s in precompiled chunk"`. -/
def errorMessage (name why : String) : String := name ++ ": " ++ why ++ " in precompiled chunk"

/-- The integer with these bytes in memory. -/
def intValue (little : Bool) (bs : List UInt8) : ℤ :=
  if 2 * wordOf little bs < 256 ^ bs.length then wordOf little bs
  else wordOf little bs - (256 ^ bs.length : ℕ)

/-- An array of `n` elements of `size` bytes. -/
def pieces (size : ℕ) : ℕ → List UInt8 → List (List UInt8)
  | 0, _ => []
  | n + 1, bs => bs.take size :: pieces size n (bs.drop size)

/-- The sizes of the cases of `LoadMem` and `LoadNumber`. -/
def Swappable (size : ℕ) : Prop := size = 1 ∨ size = 2 ∨ size = 4 ∨ size = 8

instance (size : ℕ) : Decidable (Swappable size) := inferInstanceAs (Decidable (_ ∨ _))

section Load

variable (vm : VM) (S : LoadState)

/-- `error`. -/
def loadError {α : Type} (why : String) : Load α := fun _ => .error (errorMessage S.name why)

def loadBlock (size : ℕ) : Load (List UInt8) := fun z =>
  match luaZRead size z with
  | some r => .ok r
  | none => .error (errorMessage S.name "unexpected end")

/-- `LoadMem` to an array. -/
def loadMem (n size : ℕ) : Load (List (List UInt8)) := do
  let b ← loadBlock S (n * size)
  if S.swap then
    if Swappable size then return (pieces size n b).map List.reverse
    else loadError S "bad size"
  else return pieces size n b

/-- `LoadVar` of a variable of `size` bytes. -/
def loadVar (size : ℕ) : Load (List UInt8) := (fun b => b.headD []) <$> loadMem S 1 size

def loadChar : Load UInt8 := (fun x => x.headD 0) <$> loadVar S 1

def loadInt : Load ℕ := do
  let x ← intValue vm.little <$> loadVar S vm.sizeofInt
  if x < 0 then loadError S "bad integer" else return x.toNat

/-- The `lua_Number` with these bytes in memory. -/
def VM.numberOf (bs : List UInt8) : vm.number.Num :=
  BitVec.ofNat _
    (wordOf vm.little (if vm.number = .double ∧ vm.armFpa then swapHalves bs else bs))

/-- Where the size of an integer is not one of the four, the code asserts and the number is not
set. -/
def loadNumber : Load vm.number.Num :=
  if S.toflt then
    if Swappable S.numsize then
      (fun y => vm.number.ofInt (intValue vm.little y)) <$> loadVar S S.numsize
    else loadError S "lua_assert"
  else vm.numberOf <$> loadVar S vm.number.size

/-- `luaZ_get_base_address` and the offset. -/
def currentAddress : Load (Option Memory × ℕ) := fun z => .ok ((z.base, z.i), z)

/-- A size that is negative asks for more memory, or for more bytes, than there are. -/
def loadString : Load (Option Text) := do
  let size ← intValue vm.little <$> loadVar S 4
  if size = 0 then return none
  else
    match ← currentAddress with
    | (none, _) =>
      if size < 0 then fun _ => .error "not enough memory"
      else do
        let s ← loadBlock S size.toNat
        return some (s.take (size.toNat - 1))
    | (some m, i) =>
      if size < 0 then loadError S "unexpected end"
      else do
        let _ ← loadBlock S size.toNat
        return some (m.slice i (size.toNat - 1))

/-- A vector that is copied, or used in place. In place its bytes are not swapped. -/
def loadVector (n size : ℕ) : Load (List (List UInt8)) := do
  match ← currentAddress with
  | (none, _) => loadMem S n size
  | (some m, i) =>
    let _ ← loadBlock S (n * size)
    return pieces size n (m.slice i (n * size))

def loadCode : Load (List UInt32) := do
  let n ← loadInt vm S
  let code ← loadVector S n 4
  return code.map fun w => UInt32.ofNat (wordOf vm.little w)

/-- One round of the first loop of `LoadConstants`. -/
def loadConstant : Load (Constant vm.number.Num) := do
  let t ← loadChar S
  if t = tnil then return .nil
  else if t = tboolean then do
    let b ← loadChar S
    return .boolean (b != 0)
  else if t = tnumber then .number <$> loadNumber vm S
  else if t = tstring then .string <$> loadString vm S
  else loadError S "bad constant"

def loadLineinfo : Load (List ℤ) := do
  let n ← loadInt vm S
  let lineinfo ← loadVector S n vm.sizeofInt
  return lineinfo.map (intValue vm.little)

/-- One round of the loop over the local variables of `LoadDebug`. -/
def loadLocVar : Load LocVar := do
  let varname ← loadString vm S
  let startpc ← loadInt vm S
  let endpc ← loadInt vm S
  return { varname, startpc, endpc }

/-- A list with its length. -/
def loadList {α : Type} (load : Load α) : Load (List α) := do
  let n ← loadInt vm S
  loadMany load n

/-- The source of the enclosing function if there is none. -/
def inherit (p s : Option Text) : Option Text :=
  match s with
  | none => p
  | some s => some s

/-- `LoadFunction`, with the number of calls that may still be nested. -/
def loadFunction : ℕ → Option Text → Load (Proto vm.number.Num)
  | 0, _ => loadError S "code too deep"
  | depth + 1, p => do
    let source ← inherit p <$> loadString vm S
    let linedefined ← loadInt vm S
    let lastlinedefined ← loadInt vm S
    let nups ← loadChar S
    let numparams ← loadChar S
    let isVararg ← loadChar S
    let maxstacksize ← loadChar S
    let code ← loadCode vm S
    let k ← loadList vm S (loadConstant vm S)
    let nested ← loadList vm S (loadFunction depth source)
    let lineinfo ← loadLineinfo vm S
    let locvars ← loadList vm S (loadLocVar vm S)
    let upvalues ← loadList vm S (loadString vm S)
    let f := Proto.mk
      { source, linedefined, lastlinedefined, nups, numparams, isVararg, maxstacksize, code, k,
        lineinfo, locvars, upvalues } nested
    if vm.luaGCheckcode f then return f else loadError S "bad code"

end Load

/-- `luaU_header`. -/
def luaUHeader (vm : VM) : List UInt8 :=
  [0x1B, 0x4C, 0x75, 0x61, 0x51, 0, LuaRpc.flag vm.little, UInt8.ofNat vm.sizeofInt, 4, 4,
    UInt8.ofNat vm.number.size, LuaRpc.flag vm.number.integral]

/-- The tests of `LoadHeader` on the header that was read. -/
def checkHeader (vm : VM) (name : String) (s : List UInt8) : Except String LoadState :=
  let h := luaUHeader vm
  let swap := s.getD 6 0 != LuaRpc.flag vm.little
  let s := s.set 6 (LuaRpc.flag vm.little)
  let numsize := s.getD 10 0
  let h := h.set 10 numsize
  let toflt := decide ((if vm.number.integral then 1 else 0) < (s.getD 11 0).toInt8.toInt)
  let s := if toflt then s.set 11 (LuaRpc.flag vm.number.integral) else s
  if s = h then .ok { name, swap, numsize := numsize.toNat, toflt }
  else .error (errorMessage name "bad header")

/-- The header is accepted. -/
def VM.Accepts (vm : VM) (s : List UInt8) : Prop := ∀ name, ∃ S, checkHeader vm name s = .ok S

/-- The name of the chunk in messages. -/
def chunkName (name : String) : String :=
  match name.toList with
  | [] => name
  | c :: cs =>
    if c = '@' ∨ c = '=' then String.ofList cs
    else if c = Char.ofNat 0x1B then "binary string"
    else name

/-- `=?`. -/
def unknownSource : Text := [0x3D, 0x3F]

def luaUUndump (vm : VM) (name : String) : Load (Proto vm.number.Num) := fun z =>
  match luaZRead 12 z with
  | none => .error (errorMessage (chunkName name) "unexpected end")
  | some (s, z) =>
    match checkHeader vm (chunkName name) s with
    | .error e => .error e
    | .ok S => loadFunction vm S (maxCcalls - vm.nCcalls) (some unknownSource) z

/-! ### What is loaded -/

section Received

variable {N M : Type}

def Constant.map (conv : N → M) : Constant N → Constant M
  | .nil => .nil
  | .boolean b => .boolean b
  | .number x => .number (conv x)
  | .string s => .string s

/-- A prototype without its debug information if it is stripped, with its constants converted and
its source, if it has none, inherited. -/
def ProtoFields.received (strip : Bool) (conv : N → M) (p : Option Text) (f : ProtoFields N) :
    ProtoFields M where
  source := inherit p (if strip then none else f.source)
  linedefined := f.linedefined
  lastlinedefined := f.lastlinedefined
  nups := f.nups
  numparams := f.numparams
  isVararg := f.isVararg
  maxstacksize := f.maxstacksize
  code := f.code
  k := f.k.map (Constant.map conv)
  lineinfo := kept strip f.lineinfo
  locvars := kept strip f.locvars
  upvalues := kept strip f.upvalues

mutual

def Proto.received (strip : Bool) (conv : N → M) (p : Option Text) : Proto N → Proto M
  | .mk f nested => .mk (f.received strip conv p)
      (Proto.receivedAll strip conv (f.received strip conv p).source nested)

def Proto.receivedAll (strip : Bool) (conv : N → M) (p : Option Text) : List (Proto N) →
    List (Proto M)
  | [] => []
  | f :: fs => f.received strip conv p :: Proto.receivedAll strip conv p fs

end

mutual

/-- A property of a prototype and of all functions in it. -/
def Proto.All (P : Proto N → Prop) : Proto N → Prop
  | .mk f nested => P (.mk f nested) ∧ Proto.AllNested P nested

def Proto.AllNested (P : Proto N → Prop) : List (Proto N) → Prop
  | [] => True
  | f :: fs => f.All P ∧ Proto.AllNested P fs

end

mutual

/-- How deep functions are nested. -/
def Proto.depth : Proto N → ℕ
  | .mk _ nested => Proto.depthNested nested + 1

def Proto.depthNested : List (Proto N) → ℕ
  | [] => 0
  | f :: fs => max f.depth (Proto.depthNested fs)

end

/-- A prototype has a source. The parser gives one to every function. -/
def Proto.HasSource : Proto N → Prop
  | .mk f _ => f.source.isSome

theorem ProtoFields.received_self {f : ProtoFields N} (h : f.source.isSome) (p : Option Text) :
    f.received false id p = f := by
  obtain ⟨a, ha⟩ := Option.isSome_iff_exists.mp h
  have hmap : Constant.map (id : N → N) = id := by
    funext x
    cases x <;> rfl
  have hk : f.k.map (Constant.map id) = f.k := by rw [hmap, List.map_id]
  have hsource : inherit p (if false = true then none else f.source) = f.source := by
    rw [if_neg Bool.false_ne_true, ha, inherit]
  rw [ProtoFields.received, hk, hsource]
  rfl

mutual

/-- With its debug information and the same numbers, a prototype whose functions have sources is
loaded as it is. -/
theorem Proto.received_self : ∀ (f : Proto N) (p : Option Text), f.All Proto.HasSource →
    f.received false id p = f
  | .mk f nested, p, ⟨h, hs⟩ => by
    rw [Proto.received, ProtoFields.received_self h, Proto.receivedAll_self nested f.source hs]

theorem Proto.receivedAll_self : ∀ (fs : List (Proto N)) (p : Option Text),
    Proto.AllNested Proto.HasSource fs → Proto.receivedAll false id p fs = fs
  | [], _, _ => rfl
  | f :: fs, p, ⟨h, hs⟩ => by
    rw [Proto.receivedAll, Proto.received_self f p h, Proto.receivedAll_self fs p hs]

end

end Received

end ELuaBrain.Lua.Chunk
