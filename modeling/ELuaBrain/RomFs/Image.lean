import ELuaBrain.System.Bytes

/-!
# The ROM file system

The packer `mkfs.lua` and the reader `romfs.c`. The packer writes for each file its name with a
terminator, four bytes for its size, zeros up to a multiple of four, and what is in the file; a zero
is behind the last file. Files are packed as they are (`"verbatim"`). Addresses and sizes of the
reader have 32 bits.

## Main definitions

* `mkfs` : what the packer writes for a list of files.
* `Rom`, `romfsRead` : the array `romfiles_fs` of the target.
* `Fs`, `romfsOpenFile`, `romfsReadR` : opening a file, and reading from it.
* `romfsReaddirR` : the next entry of the directory.
-/

namespace ELuaBrain.RomFs

/-! ### The packer -/

/-- An entry of `flist`, with the data of the file. -/
structure Entry where
  fname : List UInt8
  filedata : List UInt8

/-- `maxlen`. -/
def maxlen : ℕ := 30

/-- `alignment`. -/
def alignment : ℕ := 4

/-- How many zeros the loop of `mkfs` adds to a number of bytes. -/
def padding (bytecnt : ℕ) : ℕ := (alignment - bytecnt % alignment) % alignment

/-- `string.pack( "<i", n )`. -/
def packInt (n : ℕ) : List UInt8 := u32Bytes (UInt32.ofNat n)

/-- The loop of `mkfs` for one file, after the bytes of `out`. -/
def addFile (out : List UInt8) (e : Entry) : List UInt8 :=
  if e.fname.length > maxlen then out
  else
    let out := out ++ e.fname ++ [0] ++ packInt e.filedata.length
    let out := out ++ List.replicate (padding out.length) 0
    out ++ e.filedata

/-- `mkfs`. -/
def mkfs (flist : List Entry) : List UInt8 := flist.foldl addFile [] ++ [0]

/-! ### The reader -/

/-- The array `romfiles_fs`, an object of the target. -/
structure Rom where
  bytes : List UInt8
  length_lt : bytes.length < 2 ^ 31

/-- `FS`; `p_read_func` is either `NULL` or `romfs_read`. -/
@[ext] structure Fs where
  baseaddr : UInt32 := 0
  offset : UInt32 := 0
  size : UInt32 := 0
  pReadFunc : Bool := false

/-- `DM_MAX_FNAME_LENGTH`. -/
def dmMaxFnameLength : ℕ := 30

/-- `ROMFS_ALIGN`. -/
def romfsAlign : UInt32 := 4

/-- `tolower` of the C locale. -/
def toLower (c : UInt8) : UInt8 := if 0x41 ≤ c ∧ c ≤ 0x5A then c + 0x20 else c

/-- `!strncasecmp( s, t, n )`, for strings without their terminators. -/
def strncasecmp : List UInt8 → List UInt8 → ℕ → Bool
  | _, _, 0 => true
  | [], [], _ + 1 => true
  | c :: s, d :: t, n + 1 => toLower c == toLower d && strncasecmp s t n
  | _, _, _ + 1 => false

section Reader

variable (rom : Rom)

/-- `romfs_read`. -/
def romfsRead (addr : UInt32) : Option UInt8 := rom.bytes[addr.toNat]?

/-- The size of a file at the address `j`. -/
def readSize (j : UInt32) : Option UInt32 := do
  let a ← romfsRead rom j
  let b ← romfsRead rom (j + 1)
  let c ← romfsRead rom (j + 2)
  let d ← romfsRead rom (j + 3)
  some (u32OfBytes a b c d)

/-- `( j + ROMFS_ALIGN - 1 ) & ~( ROMFS_ALIGN - 1 )`. -/
def roundUp (j : UInt32) : UInt32 := (j + romfsAlign - 1) &&& ~~~(romfsAlign - 1)

/-- The first loop of `romfs_open_file`: the characters of the name at `i`, not more than `k`. -/
def readName : ℕ → UInt32 → Option (List UInt8)
  | 0, _ => some []
  | k + 1, i => do
      let c ← romfsRead rom i
      if c = 0 then some [] else (readName k (i + 1)).map (c :: ·)

/-- There is no room for as many files. -/
def fileLimit : ℕ := 2 ^ 32

/-- The second loop of `romfs_open_file`, from the address `i` on; `none` inside for
`FS_FILE_NOT_FOUND`. -/
def openLoop (fname : List UInt8) : ℕ → UInt32 → Option (Option Fs)
  | 0, _ => none
  | k + 1, i => do
      let fsname ← readName rom dmMaxFnameLength i
      if fsname = [] then some none
      else
        let j := i + UInt32.ofNat fsname.length + 1
        let fsize ← readSize rom j
        let j := roundUp (j + 4)
        if strncasecmp fname fsname dmMaxFnameLength then
          some (some { baseaddr := j, offset := 0, size := fsize, pReadFunc := true })
        else openLoop fname k (j + fsize)

/-- `romfs_open_file`. -/
def romfsOpenFile (fname : List UInt8) : Option (Option Fs) := openLoop rom fname fileLimit 0

/-- `romfs_read_r` for the descriptor `pfs`: the bytes, and the descriptor after it. -/
def romfsReadR (pfs : Fs) (len : UInt32) : Option (List UInt8 × Fs) :=
  let actlen := if len < pfs.size - pfs.offset then len else pfs.size - pfs.offset
  let start := pfs.offset.toNat + pfs.baseaddr.toNat
  if start + actlen.toNat ≤ rom.bytes.length then
    some ((rom.bytes.drop start).take actlen.toNat, { pfs with offset := pfs.offset + actlen })
  else none

/-- `struct dm_dirent`. -/
structure DmDirent where
  fname : List UInt8
  fsize : UInt32
  ftime : UInt32

/-- The loop of `romfs_readdir_r`: the name at `off`, with the address behind its terminator, if it
has room in the `k` bytes that are left of `dm_shared_fname`. -/
def readdirName : ℕ → UInt32 → Option (List UInt8 × UInt32)
  | 0, _ => none
  | k + 1, off => do
      let c ← romfsRead rom off
      if c = 0 then some ([], off + 1)
      else (readdirName k (off + 1)).map fun (fname, off) => (c :: fname, off)

/-- `romfs_readdir_r` with `*( u32* )d`. -/
def romfsReaddirR (off : UInt32) : Option (Option DmDirent × UInt32) := do
  let c ← romfsRead rom off
  if c = 0 then some (none, off)
  else
    let (fname, off) ← readdirName rom (dmMaxFnameLength + 1) off
    let fsize ← readSize rom off
    some (some { fname, fsize, ftime := 0 }, roundUp (off + 4) + fsize)

/-- The entries that `k` calls of `romfs_readdir_r` return. -/
def readdirs : ℕ → UInt32 → Option (List (Option DmDirent))
  | 0, _ => some []
  | k + 1, off => do
      let (ent, off) ← romfsReaddirR rom off
      (readdirs k off).map (ent :: ·)

end Reader

end ELuaBrain.RomFs
