import ELuaBrain.System.Bytes

/-!
# The simple allocator

The code of `salloc.c`. Each region of the memory is a doubly linked list of blocks between two
guards. A block starts with two words, the addresses of the next and of the previous block, in units
of eight bytes; the first bit of the first word is set if the block is taken. Pointers, sizes and
words have 32 bits, and words are stored in little-endian order.

A loop that goes on for longer than there is room for blocks does not end.

## Main definitions

* `Region`, `Ram` : the parts of the memory that the allocator has.
* `smalloc`, `sfree`, `scalloc`, `srealloc` : the functions of the allocator.
* `Client`, `Call`, `Client.step` : a program that uses it, with the blocks that it has.
-/

namespace ELuaBrain.Salloc

/-! ### The memory -/

/-- A part of the memory, by what `platform_get_first_free_ram` and `platform_get_last_free_ram`
return, with room for two guards and a block. -/
structure Region where
  first : UInt32
  last : UInt32
  ne_zero : first ≠ 0
  first_mod : first.toNat % 8 = 0
  last_mod : last.toNat % 8 = 0
  room : first.toNat + 24 ≤ last.toNat

/-- The parts of the memory that the allocator has. -/
structure Ram where
  regions : List Region
  disjoint : regions.Pairwise fun r r' => r.last ≤ r'.first ∨ r'.last ≤ r.first

/-- The word at an address. -/
def load (m : Memory) (a : ℕ) : UInt32 := u32OfBytes (m a) (m (a + 1)) (m (a + 2)) (m (a + 3))

/-- The memory with a word stored at an address. -/
def store (m : Memory) (a : ℕ) (x : UInt32) : Memory := m.overlay a (u32Bytes x)

/-! ### Headers of blocks -/

/-- `DYN_SIZE_MULT`. -/
def dynSizeMult : UInt32 := 8

/-- `DYN_SIZE_MULT_SHIFT`. -/
def dynSizeMultShift : UInt32 := 3

/-- `DYN_HEADER_SIZE`. -/
def dynHeaderSize : UInt32 := 8

/-- `DYN_MIN_SPLIT_SIZE`. -/
def dynMinSplitSize : UInt32 := 16

/-- `s_act_size`. -/
def sActSize (size : UInt32) : UInt32 :=
  if size &&& (dynSizeMult - 1) ≠ 0 then ((size >>> dynSizeMultShift) + 1) <<< dynSizeMultShift
  else size

section Header

variable (m : Memory) (ptr : UInt32)

/-- `s_get_next_block`. -/
def sGetNextBlock : UInt32 := (load m ptr.toNat &&& 0x7FFFFFFF) <<< dynSizeMultShift

/-- `s_set_next_block`. -/
def sSetNextBlock (next : UInt32) : Memory :=
  store m ptr.toNat ((load m ptr.toNat &&& 0x80000000) ||| (next >>> dynSizeMultShift))

/-- `s_get_prev_block`. -/
def sGetPrevBlock : UInt32 := (load m (ptr.toNat + 4) &&& 0x7FFFFFFF) <<< dynSizeMultShift

/-- `s_set_prev_block`. -/
def sSetPrevBlock (prev : UInt32) : Memory :=
  store m (ptr.toNat + 4) ((load m (ptr.toNat + 4) &&& 0x80000000) ||| (prev >>> dynSizeMultShift))

/-- `s_get_block_size`. -/
def sGetBlockSize : UInt32 :=
  let next := sGetNextBlock m ptr
  if next ≠ 0 then next - ptr else 0

/-- `s_mark_block_taken`. -/
def sMarkBlockTaken : Memory := store m ptr.toNat (load m ptr.toNat ||| 0x80000000)

/-- `s_mark_block_free`. -/
def sMarkBlockFree : Memory := store m ptr.toNat (load m ptr.toNat &&& 0x7FFFFFFF)

/-- `s_is_block_free`. -/
def sIsBlockFree : Bool := load m ptr.toNat &&& 0x80000000 = 0

/-- `s_create_new_block`. -/
def sCreateNewBlock (next prev : UInt32) : Memory :=
  store (store m ptr.toNat (next >>> dynSizeMultShift)) (ptr.toNat + 4) (prev >>> dynSizeMultShift)

end Header

/-! ### Lists of blocks -/

/-- There is no room for as many blocks. -/
def blockLimit : ℕ := 2 ^ 29

/-- `while( s_is_block_free( temp1 ) ) temp1 = s_get_prev_block( temp1 );`. -/
def skipFreeBack (m : Memory) : ℕ → UInt32 → Option UInt32
  | 0, _ => none
  | k + 1, temp =>
      if sIsBlockFree m temp then skipFreeBack m k (sGetPrevBlock m temp) else some temp

/-- `while( s_is_block_free( temp2 ) ) temp2 = s_get_next_block( temp2 );`. -/
def skipFree (m : Memory) : ℕ → UInt32 → Option UInt32
  | 0, _ => none
  | k + 1, temp =>
      if sIsBlockFree m temp then skipFree m k (sGetNextBlock m temp) else some temp

/-- `s_compact_free`. -/
def sCompactFree (m : Memory) (ptr : UInt32) : Option Memory := do
  let m := sMarkBlockFree m ptr
  let temp1 ← skipFreeBack m blockLimit ptr
  let temp1 := sGetNextBlock m temp1
  let temp2 ← skipFree m blockLimit ptr
  if temp1 ≠ ptr ∨ sGetPrevBlock m temp2 ≠ ptr then
    let m := sSetNextBlock m temp1 temp2
    some (sSetPrevBlock m temp2 temp1)
  else some m

/-- The loop of `s_get_free_block`, from the block `temp` on. -/
def bestFit (m : Memory) (size : UInt32) : ℕ → UInt32 → UInt32 → UInt32 → Option (UInt32 × UInt32)
  | 0, _, _, _ => none
  | k + 1, temp, pblock, minsize =>
      if temp ≠ 0 then
        let bsize := sGetBlockSize m temp
        if sIsBlockFree m temp ∧ size ≤ bsize ∧ bsize < minsize then
          bestFit m size k (sGetNextBlock m temp) temp bsize
        else bestFit m size k (sGetNextBlock m temp) pblock minsize
      else some (pblock, minsize)

/-- What `s_get_free_block` and `s_shrink_block` have in common: the end of the block `pblock`, from
`size` on, becomes a free block. -/
def splitBlock (m : Memory) (pblock size : UInt32) : Option Memory :=
  let temp := pblock + size
  let next := sGetNextBlock m pblock
  let m := sSetPrevBlock m temp pblock
  let m := sSetNextBlock m temp next
  let m := sSetPrevBlock m next temp
  let m := sSetNextBlock m pblock temp
  sCompactFree m temp

/-- `s_get_free_block`. A result comes with the memory. -/
def sGetFreeBlock (m : Memory) (size pstart : UInt32) : Option (UInt32 × Memory) :=
  if size = 0 then some (0, m)
  else do
    let size := sActSize (size + dynHeaderSize)
    let (pblock, minsize) ← bestFit m size blockLimit (sGetNextBlock m pstart) 0 0xFFFFFFFF
    if pblock = 0 then some (0, m)
    else
      let m := sMarkBlockTaken m pblock
      if size < minsize ∧ dynMinSplitSize ≤ minsize - size then
        let m ← splitBlock m pblock size
        some (pblock + dynHeaderSize, m)
      else some (pblock + dynHeaderSize, m)

/-- `s_free_block`. -/
def sFreeBlock (m : Memory) (ptr : UInt32) : Option Memory := sCompactFree m (ptr - dynHeaderSize)

/-- `s_get_actual_block_size`. -/
def sGetActualBlockSize (m : Memory) (ptr : UInt32) : UInt32 :=
  sGetBlockSize m (ptr - dynHeaderSize) - dynHeaderSize

/-- `s_shrink_block`. -/
def sShrinkBlock (m : Memory) (ptr size : UInt32) : Option Memory :=
  let pblock := ptr - dynHeaderSize
  let size := sActSize (size + dynHeaderSize)
  if sGetBlockSize m pblock ≤ size ∨ sGetBlockSize m pblock - size < dynMinSplitSize then some m
  else splitBlock m pblock size

/-- What `s_init` does for a region. -/
def initRegion (m : Memory) (r : Region) : Memory :=
  let memspace := r.last - r.first
  let g1 := r.first
  let crt := g1 + dynSizeMult
  let g2 := g1 + memspace - dynSizeMult
  let m := sCreateNewBlock m g1 crt 0
  let m := sCreateNewBlock m crt g2 g1
  let m := sCreateNewBlock m g2 0 crt
  let m := sMarkBlockTaken m g1
  let m := sMarkBlockTaken m g2
  sMarkBlockFree m crt

/-! ### The functions of the allocator -/

/-- The memory, with `s_initialized`. -/
structure State where
  mem : Memory
  sInitialized : Bool := false

section Functions

variable (ram : Ram) (s : State)

/-- `s_init`, if it is to be done. -/
def sInit : Memory :=
  if s.sInitialized then s.mem else ram.regions.foldl initRegion s.mem

/-- The loop of `smalloc`. -/
def smallocLoop (m : Memory) (size : UInt32) : List Region → Option (UInt32 × Memory)
  | [] => some (0, m)
  | r :: rs => do
      let (ptr, m) ← sGetFreeBlock m size r.first
      if ptr ≠ 0 then some (ptr, m) else smallocLoop m size rs

/-- `smalloc`. -/
def smalloc (size : UInt32) : Option (UInt32 × State) :=
  (smallocLoop (sInit ram s) size ram.regions).map fun (ptr, m) =>
    (ptr, { mem := m, sInitialized := true })

/-- `sfree`. -/
def sfree (ptr : UInt32) : Option State :=
  if ptr = 0 ∨ s.sInitialized = false then some s
  else (sFreeBlock s.mem ptr).map fun m => { s with mem := m }

/-- `scalloc`. -/
def scalloc (nmemb size : UInt32) : Option (UInt32 × State) :=
  (smalloc ram s (nmemb * size)).map fun (ptr, s) =>
    if ptr ≠ 0 then
      (ptr, { s with mem := s.mem.overlay ptr.toNat (List.replicate (nmemb * size).toNat 0) })
    else (ptr, s)

/-- `srealloc`. -/
def srealloc (ptr size : UInt32) : Option (UInt32 × State) :=
  let s : State := { mem := sInit ram s, sInitialized := true }
  if ptr = 0 then smalloc ram s size
  else if size = 0 then (sfree s ptr).map fun s => (0, s)
  else if sGetActualBlockSize s.mem ptr = size then some (ptr, s)
  else if size < sGetActualBlockSize s.mem ptr then
    (sShrinkBlock s.mem ptr size).map fun m => (ptr, { s with mem := m })
  else do
    let (newptr, s) ← smalloc ram s size
    if newptr = 0 then some (0, s)
    else
      let m := s.mem.overlay newptr.toNat
        (s.mem.slice ptr.toNat (sGetActualBlockSize s.mem ptr).toNat)
      let s ← sfree { s with mem := m } ptr
      some (newptr, s)

end Functions

/-! ### A program that uses the allocator -/

/-- The calls of a program, and what it writes to its blocks. -/
inductive Call where
  | smalloc (size : UInt32)
  | sfree (ptr : UInt32)
  | scalloc (nmemb size : UInt32)
  | srealloc (ptr size : UInt32)
  | write (ptr : UInt32) (offset : ℕ) (bytes : List UInt8)

/-- The number of bytes that a call asks for. -/
def Call.request : Call → ℕ
  | .smalloc size | .srealloc _ size => size.toNat
  | .scalloc nmemb size => nmemb.toNat * size.toNat
  | _ => 0

/-- The allocator, with the blocks that the program has: for each pointer that was returned and not
freed the number of bytes that were asked for. -/
structure Client where
  state : State
  live : List (UInt32 × ℕ) := []

namespace Client

/-- A block that was returned, unless it is `NULL`. -/
def take (live : List (UInt32 × ℕ)) (ptr : UInt32) (size : ℕ) : List (UInt32 × ℕ) :=
  if ptr = 0 then live else (ptr, size) :: live

/-- The blocks without one that is given back. -/
def drop (live : List (UInt32 × ℕ)) (ptr : UInt32) : List (UInt32 × ℕ) :=
  live.filter fun x => x.1 ≠ ptr

/-- What a call returns, with the client after it. -/
def run (ram : Ram) (k : Client) : Call → Option (UInt32 × Client)
  | .smalloc size => (smalloc ram k.state size).map fun (ptr, state) =>
      (ptr, { state, live := take k.live ptr size.toNat })
  | .sfree ptr => (sfree k.state ptr).map fun state =>
      (0, { state, live := drop k.live ptr })
  | .scalloc nmemb size => (scalloc ram k.state nmemb size).map fun (ptr, state) =>
      (ptr, { state, live := take k.live ptr (nmemb.toNat * size.toNat) })
  | .srealloc ptr size => (srealloc ram k.state ptr size).map fun (newptr, state) =>
      (newptr,
        { state
          live :=
            if newptr = 0 ∧ size ≠ 0 then k.live
            else take (drop k.live ptr) newptr size.toNat })
  | .write ptr offset bytes =>
      some (0, { k with state.mem := k.state.mem.overlay (ptr.toNat + offset) bytes })

/-- One call. -/
def step (ram : Ram) (k : Client) (call : Call) : Option Client :=
  (k.run ram call).map Prod.snd

end Client

end ELuaBrain.Salloc
