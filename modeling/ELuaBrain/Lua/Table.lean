import ELuaBrain.System.Links
import Mathlib.Algebra.Order.Ring.Int
import Mathlib.Algebra.Order.Ring.Nat

/-!
# Tables

The code of `ltable.c`. A table has an array part and a hash part, a chained scatter table. The
hash part is rehashed in place: `resize_hashpart` breaks the chains, and `move_node` brings each
node to the chain of its main position again.

What a lua_Number is, is a parameter. Memory errors are left out.

## Main definitions

* `LuaNumber` : what the table does with numbers.
* `Key`, `Node`, `Table` : the keys, a node of the hash part, a table.
* `luaHGet`, `luaHSet`, `luaHResizearray`, `rehash` : looking up, inserting, resizing.
* `traversetable`, `cleartable` : what the collector does to a table.
* `luaHNext`, `luaHGetn` : a traversal, a boundary.
-/

namespace ELuaBrain.Lua.Tables

open Function

/-- The operations on `lua_Number`, where `luai_numeq` is equality: 0 and -0 are one number. -/
class LuaNumber (N : Type) where
  /-- `cast_num`. -/
  ofInt : ℤ → N
  /-- `lua_number2int`. -/
  toInt : N → ℤ
  /-- `luai_numisnan`. -/
  isNaN : N → Bool
  /-- The sum of the ints of a number. -/
  words : N → UInt32
  toInt_ofInt : ∀ k, -2 ^ 31 ≤ k → k < 2 ^ 31 → toInt (ofInt k) = k
  isNaN_ofInt : ∀ k, isNaN (ofInt k) = false

export LuaNumber (ofInt toInt)

/-- `LUA_NUMBER_INTEGRAL`. -/
instance integralNumber : LuaNumber Int32 where
  ofInt := Int32.ofInt
  toInt := Int32.toInt
  isNaN _ := false
  words n := n.toUInt32
  toInt_ofInt _ h h' := Int32.toInt_ofInt_of_le h h'
  isNaN_ofInt _ := rfl

/-- `TString`, by its address, with its hash. -/
structure TString where
  addr : UInt32
  hash : UInt32
  deriving DecidableEq

/-- The types whose values are pointers. -/
inductive Tag where
  | rotable
  | lightfunction
  | lightuserdata
  | table
  | function
  | userdata
  | thread
  deriving DecidableEq

/-- A `TValue` that is not nil, as a key; `luaO_rawequalObj` is equality. -/
inductive Key (N : Type) where
  | boolean (b : Bool)
  | number (n : N)
  | string (ts : TString)
  | pointer (tag : Tag) (p : UInt32)
  deriving DecidableEq

/-- `gcvalue`, if `iscollectable`. -/
def Key.gcvalue {N : Type} : Key N → Option UInt32
  | .boolean _ | .number _ => none
  | .string ts => some ts.addr
  | .pointer .rotable _ | .pointer .lightfunction _ | .pointer .lightuserdata _ => none
  | .pointer _ p => some p

/-- `gkey`. -/
inductive NodeKey (N : Type) where
  | nil
  | live (k : Key N)
  | dead (p : UInt32)
  deriving DecidableEq

/-- `Node`. -/
structure Node (N V : Type) where
  key : NodeKey N := .nil
  val : Option V := none
  next : Option ℕ := none

/-- `Table`, with the nodes by their number. -/
structure Table (N V : Type) where
  array : List (Option V)
  node : ℕ → Node N V
  lsizenode : ℕ
  lastfree : ℕ
  /-- `node == dummynode`. -/
  dummy : Bool

/-- What stops a function: an error that is raised, a loop that does not end, a null pointer. -/
inductive Fault where
  | indexIsNil
  | indexIsNaN
  | tableOverflow
  | invalidKey
  | endless
  | null
  deriving DecidableEq

/-- A `TValue *` into a table. -/
inductive Slot where
  | array (i : ℕ)
  | node (i : ℕ)
  deriving DecidableEq

/-- `MAXBITS`. -/
def maxbits : ℕ := 26

/-- `MAXASIZE`. -/
def maxasize : ℕ := 2 ^ maxbits

/-- `ceillog2`. The table in `luaO_log2` has the number of bits of each byte. -/
def ceillog2 (x : ℕ) : ℕ := if x - 1 = 0 then 0 else Nat.log2 (x - 1) + 1

section Functions

variable {N V : Type} [LuaNumber N] [DecidableEq N]

/-! ### Main positions -/

/-- `hashpow2`. -/
def hashpow2 (lsizenode : ℕ) (n : UInt32) : ℕ := n.toNat % 2 ^ lsizenode

/-- `hashmod`. -/
def hashmod (lsizenode : ℕ) (n : UInt32) : ℕ := n.toNat % ((2 ^ lsizenode - 1) ||| 1)

def hashnum (lsizenode : ℕ) (n : N) : ℕ :=
  if n = ofInt 0 then 0 else hashmod lsizenode (LuaNumber.words n)

def mainposition (lsizenode : ℕ) : Key N → ℕ
  | .number n => hashnum lsizenode n
  | .string ts => hashpow2 lsizenode ts.hash
  | .boolean b => hashpow2 lsizenode b.toUInt32
  | .pointer _ p => hashmod lsizenode p

/-- `mainposition` of a `gkey`. -/
def NodeKey.mainposition (lsizenode : ℕ) : NodeKey N → ℕ
  | .live k => Tables.mainposition lsizenode k
  | .dead p => hashmod lsizenode p
  | .nil => hashmod lsizenode 0

/-- `lua_number2int`, if the number is the integer. -/
def intOf (n : N) : Option ℤ := if ofInt (toInt n) = n then some (toInt n) else none

/-- `arrayindex`, with nothing for -1. -/
def arrayindex : Key N → Option ℤ
  | .number n => intOf n
  | _ => none

/-- `sizenode`. -/
def Table.sizenode (t : Table N V) : ℕ := 2 ^ t.lsizenode

/-- `gnext` of the nodes. -/
def Table.nexts (t : Table N V) (i : ℕ) : Option ℕ := (t.node i).next

/-- A node is changed. -/
def Table.setNode (t : Table N V) (i : ℕ) (n : Node N V) : Table N V :=
  { t with node := update t.node i n }

/-- What a `TValue *` points to. -/
def Table.at (t : Table N V) : Slot → Option V
  | .array i => t.array.getD i none
  | .node i => (t.node i).val

/-- `setobj2t`. -/
def Table.write (t : Table N V) (slot : Slot) (v : Option V) : Table N V :=
  match slot with
  | .array i => { t with array := t.array.set i v }
  | .node i => t.setNode i { t.node i with val := v }

/-! ### Looking up -/

/-- A loop along a chain. It would not end if it had more steps than there are nodes. -/
def Table.along (t : Table N V) (stop : ℕ → Bool) (mp : ℕ) : Except Fault (Option ℕ) :=
  match Links.search t.nexts stop t.sizenode (some mp) with
  | none => .error .endless
  | some i => .ok i

/-- The loop that looks for a key. -/
def Table.search (t : Table N V) (k : Key N) (mp : ℕ) : Except Fault (Option Slot) := do
  let i ← t.along (fun i => decide ((t.node i).key = .live k)) mp
  pure (i.map .node)

/-- `luaH_getnum`. -/
def luaHGetnum (t : Table N V) (key : ℤ) : Except Fault (Option Slot) :=
  if 1 ≤ key ∧ key ≤ t.array.length then .ok (some (.array (key - 1).toNat))
  else t.search (.number (ofInt key)) (hashnum t.lsizenode (ofInt key : N))

/-- `luaH_getstr`. -/
def luaHGetstr (t : Table N V) (ts : TString) : Except Fault (Option Slot) :=
  t.search (.string ts) (hashpow2 t.lsizenode ts.hash)

/-- `luaH_get`. -/
def luaHGet (t : Table N V) : Option (Key N) → Except Fault (Option Slot)
  | none => .ok none
  | some (.string ts) => luaHGetstr t ts
  | some (.number n) =>
      match intOf n with
      | some k => luaHGetnum t k
      | none => t.search (.number n) (mainposition t.lsizenode (.number n))
  | some k => t.search k (mainposition t.lsizenode k)

/-! ### The hash part -/

/-- The loop of `getfreepos`, from `lastfree` on. -/
def freepos (node : ℕ → Node N V) : ℕ → ℕ × Option ℕ
  | 0 => (0, none)
  | n + 1 => if (node n).key = .nil then (n, some n) else freepos node n

def getfreepos (t : Table N V) : Table N V × Option ℕ :=
  ({ t with lastfree := (freepos t.node t.lastfree).1 }, (freepos t.node t.lastfree).2)

def resizenodevector (t : Table N V) (oldsize newsize : ℕ) : Except Fault (Table N V) :=
  if newsize = 0 then
    .ok { t with node := fun _ => {}, dummy := true, lsizenode := 0, lastfree := 0 }
  else if maxbits < ceillog2 newsize then .error .tableOverflow
  else
    .ok { t with
      node := fun i =>
        if i < (if t.dummy then 0 else oldsize) ∧ i < 2 ^ ceillog2 newsize then t.node i else {}
      dummy := false
      lsizenode := ceillog2 newsize
      lastfree := 2 ^ ceillog2 newsize }

/-- `find_prev_node`. -/
def findPrevNode (t : Table N V) (mp next : ℕ) : Except Fault (Option ℕ) :=
  t.along (fun prev => decide (t.nexts prev = some next)) mp

/-- `move_node`, with the result as a truth value. -/
def moveNode (t : Table N V) (node : ℕ) : Except Fault (Table N V × Bool) :=
  let mp := (t.node node).key.mainposition t.lsizenode
  if mp = node then .ok (t, true)
  else do
    let found ← findPrevNode t mp node
    if found.isSome then pure (t, true)
    else if (t.node mp).val.isSome ∨ t.dummy then
      let othermp := (t.node mp).key.mainposition t.lsizenode
      if othermp ≠ mp then do
        let prev ← findPrevNode t othermp mp
        let t₁ := match prev with
          | some prev => t.setNode prev { t.node prev with next := some node }
          | none => t
        pure ((t₁.setNode node (t₁.node mp)).setNode mp (t.node node), prev.isSome)
      else
        let t₁ := t.setNode node { t.node node with next := t.nexts mp }
        pure (t₁.setNode mp { t₁.node mp with next := some node }, true)
    else pure ((t.setNode mp (t.node node)).setNode node {}, true)

/-- The loop that calls `move_node` until the node needs no move. -/
def moveNodes : ℕ → Table N V → ℕ → Except Fault (Table N V)
  | 0, _, _ => .error .endless
  | fuel + 1, t, curr => do
      let (t₁, done) ← moveNode t curr
      if done then pure t₁ else moveNodes fuel t₁ curr

/-- `move_number`, with nothing if the node was not moved. -/
def moveNumber (t : Table N V) (node : ℕ) (n : N) : Option (Table N V) :=
  match intOf n with
  | some key =>
      if 1 ≤ key ∧ key ≤ t.array.length then
        some (Table.setNode { t with array := t.array.set (key - 1).toNat (t.node node).val } node
          { t.node node with key := .nil, val := none })
      else none
  | none => none

/-- `move_number` for a node with a number, and nothing for another one. -/
def tryMoveNumber (t : Table N V) (node : ℕ) : Option (Table N V) :=
  match (t.node node).key with
  | .live (.number n) => moveNumber t node n
  | _ => none

/-- A round of the loop that breaks the chains and compacts the keys. -/
def compactNode (nhsize : ℕ) (t : Table N V) (i : ℕ) : Except Fault (Table N V) :=
  let t₁ := t.setNode i { t.node i with next := none }
  if (t₁.node i).val.isNone then
    .ok (t₁.setNode i { t₁.node i with key := .nil })
  else
    match tryMoveNumber t₁ i with
    | some t₂ => .ok t₂
    | none =>
        if nhsize ≤ i then
          match getfreepos t₁ with
          | (_, none) => .error .null
          | (t₂, some n) => .ok (t₂.setNode n (t₂.node i))
        else .ok t₁

/-- A round of the loop that makes the chains again. -/
def chainNode (t : Table N V) (i : ℕ) : Except Fault (Table N V) :=
  if (t.node i).val.isSome then moveNodes (t.sizenode + 1) t i else .ok t

/-- The number of nodes, with none for the dummy node. -/
def Table.hsize (t : Table N V) : ℕ := if t.dummy then 0 else t.sizenode

/-- The hash part grows, or its new size is noted. -/
def growHashpart (t : Table N V) (lsize : ℕ) : Except Fault (Table N V) :=
  if t.hsize < 2 ^ lsize then resizenodevector t t.hsize (2 ^ lsize)
  else .ok { t with lsizenode := lsize, lastfree := 2 ^ lsize }

/-- The hash part shrinks. -/
def shrinkHashpart (t : Table N V) (oldhsize nhsize : ℕ) : Except Fault (Table N V) :=
  if nhsize < oldhsize then resizenodevector t oldhsize nhsize else .ok t

/-- `resize_hashpart`. The new size is at least 1. -/
def resizeHashpart (t : Table N V) (nhsize : ℕ) : Except Fault (Table N V) :=
  let lsize := if 0 < nhsize then ceillog2 nhsize else 0
  if maxbits < lsize then .error .tableOverflow
  else do
    let t₁ ← growHashpart t lsize
    let t₂ ← (List.range t.hsize).foldlM (compactNode (2 ^ lsize)) t₁
    let t₃ ← shrinkHashpart t₂ t.hsize (2 ^ lsize)
    (List.range (2 ^ lsize)).foldlM chainNode t₃

/-! ### Inserting and resizing -/

/-- `newkey`. If there is no free node, `again` is `rehash` and then `luaH_set`. -/
def newkeyWith (again : Table N V → Key N → Except Fault (Table N V × Slot)) (t : Table N V)
    (key : Key N) : Except Fault (Table N V × Slot) :=
  let mp := mainposition t.lsizenode key
  if (t.node mp).val.isSome ∨ t.dummy then
    match getfreepos t with
    | (t, none) => again t key
    | (t, some n) =>
        let othern := (t.node mp).key.mainposition t.lsizenode
        if othern ≠ mp then do
          match ← t.along (fun prev => decide (t.nexts prev = some mp)) othern with
          | none => .error .null
          | some prev =>
              let t₁ := t.setNode prev { t.node prev with next := some n }
              let t₂ := t₁.setNode n (t₁.node mp)
              pure (t₂.setNode mp { key := .live key }, .node mp)
        else
          let t₁ := t.setNode n { t.node n with next := t.nexts mp }
          let t₂ := t₁.setNode mp { t₁.node mp with next := some n }
          .ok (t₂.setNode n { t₂.node n with key := .live key }, .node n)
  else .ok (t.setNode mp { t.node mp with key := .live key }, .node mp)

section Insert

-- `newkey`, which `rehash` comes back to.
variable (newkey : Table N V → Key N → Except Fault (Table N V × Slot))

/-- `luaH_set`. -/
def luaHSetWith (t : Table N V) (key : Option (Key N)) : Except Fault (Table N V × Slot) := do
  match ← luaHGet t key with
  | some slot => pure (t, slot)
  | none =>
      match key with
      | none => .error .indexIsNil
      | some (.number n) => if LuaNumber.isNaN n then .error .indexIsNaN else newkey t (.number n)
      | some k => newkey t k

/-- `luaH_setnum`. -/
def luaHSetnumWith (t : Table N V) (key : ℤ) : Except Fault (Table N V × Slot) := do
  match ← luaHGetnum t key with
  | some slot => pure (t, slot)
  | none => newkey t (.number (ofInt key))

/-- `luaH_setstr`. -/
def luaHSetstrWith (t : Table N V) (ts : TString) : Except Fault (Table N V × Slot) := do
  match ← luaHGetstr t ts with
  | some slot => pure (t, slot)
  | none => newkey t (.string ts)

/-- An element of the vanishing slice goes to the hash part. -/
def reinsert (old : List (Option V)) (t : Table N V) (i : ℕ) : Except Fault (Table N V) :=
  match old.getD i none with
  | none => .ok t
  | some v => do
      let (t₁, slot) ← luaHSetnumWith newkey t (i + 1)
      pure (t₁.write slot (some v))

/-- `setarrayvector`. -/
def setarrayvector (t : Table N V) (size : ℕ) : Table N V :=
  { t with array := t.array.take size ++ List.replicate (size - t.array.length) none }

/-- `resize`. -/
def resize (t : Table N V) (nasize nhsize : ℕ) : Except Fault (Table N V) := do
  let oldasize := t.array.length
  let t := if oldasize < nasize then setarrayvector t nasize else t
  let t ← resizeHashpart t nhsize
  if nasize < oldasize then
    let old := t.array
    (List.range' nasize (oldasize - nasize)).foldlM (reinsert newkey old)
      { t with array := old.take nasize }
  else pure t

end Insert

/-! ### Counting -/

/-- `countint`, with what is added to the number of integer keys. -/
def countint (key : Key N) (nums : ℕ → ℕ) : (ℕ → ℕ) × ℕ :=
  match arrayindex key with
  | some k =>
      if 0 < k ∧ k ≤ maxasize then
        (update nums (ceillog2 k.toNat) (nums (ceillog2 k.toNat) + 1), 1)
      else (nums, 0)
  | none => (nums, 0)

/-- The elements of the array part from `lo` up to `hi`. -/
def slice (array : List (Option V)) (lo hi : ℕ) : ℕ :=
  ((array.take hi).drop lo).countP Option.isSome

/-- The loop of `numusearray`: so many slices from `lg` on, with `i - 1` elements counted. -/
def numusearrayLoop (array : List (Option V)) : ℕ → ℕ → ℕ → (ℕ → ℕ) → ℕ → (ℕ → ℕ) × ℕ
  | 0, _, _, nums, ause => (nums, ause)
  | rounds + 1, lg, i, nums, ause =>
      let lim := min (2 ^ lg) array.length
      if array.length < 2 ^ lg ∧ lim < i then (nums, ause)
      else
        let lc := slice array (i - 1) lim
        numusearrayLoop array rounds (lg + 1) (max i (lim + 1))
          (update nums lg (nums lg + lc)) (ause + lc)

/-- `numusearray`. -/
def numusearray (t : Table N V) (nums : ℕ → ℕ) : (ℕ → ℕ) × ℕ :=
  numusearrayLoop t.array (maxbits + 1) 0 1 nums 0

/-- `countint` for a `gkey`. -/
def NodeKey.countint (nk : NodeKey N) (nums : ℕ → ℕ) : (ℕ → ℕ) × ℕ :=
  match nk with
  | .live k => Tables.countint k nums
  | _ => (nums, 0)

/-- The loop of `numusehash`, with the number of elements and that of integer keys. -/
def numusehashLoop (node : ℕ → Node N V) : ℕ → (ℕ → ℕ) × ℕ × ℕ → (ℕ → ℕ) × ℕ × ℕ
  | 0, r => r
  | i + 1, (nums, totaluse, ause) =>
      if (node i).val.isSome then
        numusehashLoop node i (((node i).key.countint nums).1, totaluse + 1,
          ause + ((node i).key.countint nums).2)
      else numusehashLoop node i (nums, totaluse, ause)

/-- `numusehash`. -/
def numusehash (t : Table N V) (nums : ℕ → ℕ) : (ℕ → ℕ) × ℕ × ℕ :=
  numusehashLoop t.node t.sizenode (nums, 0, 0)

/-- The loop of `computesizes`, with what goes to the array part and its size. -/
def computesizesLoop (nums : ℕ → ℕ) (narray : ℕ) : ℕ → ℕ → ℕ → ℕ × ℕ → ℕ × ℕ
  | 0, _, _, r => r
  | rounds + 1, i, a, (na, n) =>
      if 2 ^ i / 2 < narray then
        let a := a + nums i
        let r := if 0 < nums i ∧ 2 ^ i / 2 < a then (a, 2 ^ i) else (na, n)
        if a = narray then r else computesizesLoop nums narray rounds (i + 1) a r
      else (na, n)

/-- `computesizes`. The powers of 2 pass `narray` after as many rounds. -/
def computesizes (nums : ℕ → ℕ) (narray : ℕ) : ℕ × ℕ :=
  computesizesLoop nums narray (narray + 1) 0 0 (0, 0)

/-- `rehash`. -/
def rehash (newkey : Table N V → Key N → Except Fault (Table N V × Slot)) (t : Table N V)
    (ek : Key N) : Except Fault (Table N V) :=
  let array := numusearray t fun _ => 0
  let hash := numusehash t array.1
  let extra := countint ek hash.1
  let sizes := computesizes extra.1 (array.2 + hash.2.2 + extra.2)
  resize newkey t sizes.2 (array.2 + hash.2.1 + 1 - sizes.1)

/-- `newkey`, and how deep it may call itself through `rehash` and `luaH_set`. -/
def newkey : ℕ → Table N V → Key N → Except Fault (Table N V × Slot)
  | 0, _, _ => .error .endless
  | depth + 1, t, key =>
      newkeyWith (fun t key => do
        let t₁ ← rehash (newkey depth) t key
        luaHSetWith (newkey depth) t₁ (some key)) t key

/-- `luaH_set`, where `newkey` calls itself once at most. -/
def luaHSet (t : Table N V) (key : Option (Key N)) : Except Fault (Table N V × Slot) :=
  luaHSetWith (newkey 2) t key

/-- `luaH_setnum`. -/
def luaHSetnum (t : Table N V) (key : ℤ) : Except Fault (Table N V × Slot) :=
  luaHSetnumWith (newkey 2) t key

/-- `luaH_setstr`. -/
def luaHSetstr (t : Table N V) (ts : TString) : Except Fault (Table N V × Slot) :=
  luaHSetstrWith (newkey 2) t ts

/-- `luaH_resizearray`. -/
def luaHResizearray (t : Table N V) (nasize : ℕ) : Except Fault (Table N V) :=
  resize (newkey 2) t nasize t.hsize

/-- `luaH_new`. -/
def luaHNew (narray nhash : ℕ) : Except Fault (Table N V) :=
  resizenodevector (setarrayvector
    { array := [], node := fun _ => {}, lsizenode := 0, lastfree := 0, dummy := true } narray)
    0 nhash

/-! ### The collector -/

/-- `removeentry` for a node whose value is nil; a key that is collectable is dead. -/
def removeentry (t : Table N V) (i : ℕ) : Table N V :=
  match (t.node i).key with
  | .live k =>
      match k.gcvalue with
      | some p => t.setNode i { t.node i with key := .dead p }
      | none => t
  | _ => t

/-- The loop of `traversetable` over the nodes below `n`, of which it removes the empty ones. -/
def traverseNodes : ℕ → Table N V → Table N V
  | 0, t => t
  | n + 1, t => traverseNodes n (if (t.node n).val.isNone then removeentry t n else t)

/-- What `traversetable` does to a table. -/
def traversetable (t : Table N V) : Table N V := traverseNodes t.sizenode t

/-- `iscleared` for a key: objects that are white are, and strings never. -/
def Key.iscleared (iswhite : UInt32 → Bool) : Key N → Bool
  | .string _ => false
  | k => k.gcvalue.any iswhite

/-- `iscleared` for a `gkey`. -/
def NodeKey.iscleared (iswhite : UInt32 → Bool) : NodeKey N → Bool
  | .live k => k.iscleared iswhite
  | .dead p => iswhite p
  | .nil => false

section Clear

-- `iscleared` for a value.
variable (iswhite : UInt32 → Bool) (iscleared : V → Bool)

/-- The loop of `cleartable` over the nodes below `n`. -/
def clearNodes : ℕ → Table N V → Table N V
  | 0, t => t
  | n + 1, t =>
      clearNodes n
        (if (t.node n).val.any (fun v => (t.node n).key.iscleared iswhite || iscleared v) then
          removeentry (t.setNode n { t.node n with val := none }) n
        else t)

/-- `cleartable` for one table. Only if the values are weak, it clears the array part. -/
def cleartable (weakvalue : Bool) (t : Table N V) : Table N V :=
  clearNodes iswhite iscleared t.sizenode
    (if weakvalue then { t with array := t.array.map fun o => o.filter fun v => !iscleared v }
    else t)

end Clear

/-! ### Traversals -/

/-- The test of `findindex`. A key may be dead already, but it is ok to use it. -/
def NodeKey.isFor (k : Key N) : NodeKey N → Bool
  | .live k' => decide (k' = k)
  | .dead p => decide (k.gcvalue = some p)
  | .nil => false

def findindex (t : Table N V) : Option (Key N) → Except Fault ℤ
  | none => .ok (-1)
  | some k =>
      let i := (arrayindex k).getD (-1)
      if 0 < i ∧ i ≤ t.array.length then .ok (i - 1)
      else do
        match ← t.along (fun n => (t.node n).key.isFor k) (mainposition t.lsizenode k) with
        | some n => pure (n + t.array.length)
        | none => .error .invalidKey

/-- The first element of the array part from `i` on. -/
def nextElement (t : Table N V) (i : ℕ) : Option (Key N × V) :=
  (List.range' i (t.array.length - i)).findSome? fun i =>
    (t.array.getD i none).map fun v => (.number (ofInt (i + 1)), v)

/-- The element of a node, if its value is not nil. -/
def Node.entry (n : Node N V) : Option (Key N × V) :=
  match n.key with
  | .live k => n.val.map fun v => (k, v)
  | _ => none

/-- The first element of the hash part from node `i` on. -/
def nextNode (t : Table N V) (i : ℕ) : Option (Key N × V) :=
  (List.range' i (t.sizenode - i)).findSome? fun i => (t.node i).entry

/-- `luaH_next`, with nothing if there are no more elements. -/
def luaHNext (t : Table N V) (key : Option (Key N)) : Except Fault (Option (Key N × V)) := do
  let i ← findindex t key
  let i := (i + 1).toNat
  pure ((nextElement t i).or (nextNode t (i - t.array.length)))

/-! ### Boundaries -/

/-- `MAX_INT`. -/
def maxInt : ℕ := 2 ^ 31 - 3

/-- The value at an integer key is nil. -/
def isnilAt (t : Table N V) (j : ℕ) : Except Fault Bool := do
  let slot ← luaHGetnum t j
  pure (slot.bind t.at).isNone

/-- The binary search between an index that is present and one that is not. -/
def bisect (isnil : ℕ → Except Fault Bool) (i j : ℕ) : Except Fault ℕ :=
  if h : 1 < j - i then do
    let b ← isnil ((i + j) / 2)
    if b then bisect isnil i ((i + j) / 2) else bisect isnil ((i + j) / 2) j
  else .ok i
termination_by j - i

/-- The loop that doubles `j`, with nothing for an overflow. It has so many rounds at most. -/
def doubling (isnil : ℕ → Except Fault Bool) : ℕ → ℕ → ℕ → Except Fault (Option (ℕ × ℕ))
  | 0, _, _ => .error .endless
  | rounds + 1, i, j => do
      let b ← isnil j
      if b then pure (some (i, j))
      else if maxInt < j * 2 then pure none
      else doubling isnil rounds j (j * 2)

/-- The linear search. It has so many rounds at most. -/
def linear (isnil : ℕ → Except Fault Bool) : ℕ → ℕ → Except Fault ℕ
  | 0, _ => .error .endless
  | rounds + 1, i => do
      let b ← isnil i
      if b then pure (i - 1) else linear isnil rounds (i + 1)

/-- `unbound_search`. -/
def unboundSearch (t : Table N V) (j : ℕ) : Except Fault ℕ := do
  match ← doubling (isnilAt t) 32 j (j + 1) with
  | some (i, j) => bisect (isnilAt t) i j
  | none => linear (isnilAt t) (t.array.length + t.sizenode + 2) 1

/-- `luaH_getn`. -/
def luaHGetn (t : Table N V) : Except Fault ℕ :=
  let j := t.array.length
  if 0 < j ∧ (t.array.getD (j - 1) none).isNone then
    bisect (fun m => .ok (t.array.getD (m - 1) none).isNone) 0 j
  else if t.dummy then .ok j
  else unboundSearch t j

end Functions

end ELuaBrain.Lua.Tables
