import ELuaBrain.Rpc.MemTransport
import ELuaBrain.Rpc.RemoteFs

/-!
# The server of the remote file system

The code of `server.c`. A request is in `rfs_buffer`; its handler takes the arguments out of it,
calls the system and builds the response in the same place. The server is built with an `unsigned
long` of 32 bits. What lies in memory behind `rfs_buffer` and `server_fullname` belongs to
something else, so a handler that goes behind their end is not defined.

## Main definitions

* `Os` : the functions of the system.
* `serverFullname` : the name of a file on the server.
* `serverOpen` and the other handlers, `serverExecuteRequest` : the functions of the server.
-/

namespace ELuaBrain.Rpc

/-! ### The system -/

/-- The functions of `os_io.h`, on the states of the system. What is read is `none` if there is an
error, where `os_read` returns -1, and the end of a directory is `none`. No more is read or written
than is asked for. -/
structure Os (σ : Type) where
  openFile : σ → List UInt8 → Int32 → Int32 → Int32 × σ
  write : σ → Int32 → List UInt8 → Int32 × σ
  read : σ → Int32 → UInt32 → Option (List UInt8) × σ
  close : σ → Int32 → Int32 × σ
  lseek : σ → Int32 → Int32 → Int32 → Int32 × σ
  opendir : σ → List UInt8 → UInt32 × σ
  readdir : σ → UInt32 → Option CString × σ
  closedir : σ → UInt32 → Int32 × σ
  read_length_le : ∀ st fd count, ∀ bytes ∈ (read st fd count).1, bytes.length ≤ count.toNat
  write_le : ∀ st fd data, (write st fd data).1 ≠ -1 →
    (write st fd data).1.toUInt32.toNat ≤ data.length

/-- `RFS_OPEN_FLAG_RDONLY`. -/
def rfsOpenFlagRdonly : Int32 := 0x20

/-- `RFS_LSEEK_END`. -/
def rfsLseekEnd : Int32 := 0x03

/-! ### Names of files -/

/-- `PLATFORM_MAX_FNAME_LEN`; `server_fullname` has one byte more, for the final zero. -/
def platformMaxFnameLen : ℕ := 2048

/-- `PLATFORM_PATH_SEPARATOR`. -/
def platformPathSeparator : UInt8 := 0x2F

/-- `strncat` to the string in `server_fullname`. The last argument bounds what is added. -/
def strncat (dst src : List UInt8) (n : ℕ) : Option (List UInt8) :=
  if (dst ++ src.take n).length ≤ platformMaxFnameLen then some (dst ++ src.take n) else none

/-- What the handlers leave in `server_fullname`. -/
def serverFullname (basedir name : List UInt8) : Option (List UInt8) :=
  let fullname := basedir.take platformMaxFnameLen
  if name = [] then some fullname
  else
    match fullname.getLast? with
    -- `server_fullname[ -1 ]`
    | none => none
    | some c =>
        (if c ≠ platformPathSeparator then
          strncat fullname [platformPathSeparator] platformMaxFnameLen
        else some fullname).bind fun fullname => strncat fullname name platformMaxFnameLen

/-! ### Access to the buffers -/

section Buffer

variable (size : ℕ) (m : Memory)

/-- What was taken from a packet, if nothing behind the buffer was read for it. -/
def readIn {α : Type} (fs : List Field) (v : α) : Option α :=
  if (genReadState m .bits32 fs).2.far ≤ size then some v else none

/-- A packet that is written, if it fits into the buffer. -/
def writeIn (pk : RfsPacket) : Option Memory :=
  if pk.written ≤ size then some (pk.write m) else none

/-- The string at an offset, up to its zero. -/
def stringIn (a : ℕ) : Option (List UInt8) :=
  let bytes := m.slice a (size - a)
  if 0 ∈ bytes then some (bytes.takeWhile (· ≠ 0)) else none

/-- The block at a pointer. -/
def blockIn (len : ℕ) : Option ℕ → Option (List UInt8)
  | none => if len = 0 then some [] else none
  | some a => if a + len ≤ size then some (m.slice a len) else none

end Buffer

/-! ### The handlers -/

/-- The name that `filename && strlen( filename ) > 0` is about: `NULL` is like an empty string. -/
def nameAt (m : Memory) : Option ℕ → Option (List UInt8)
  | none => some []
  | some a => stringIn rfsBufferSize m a

section Handlers

variable {σ : Type} (os : Os σ) (basedir : CString) (m : Memory) (st : σ)

/-- `server_open`. As for the other handlers, the result comes with the buffer and the state of the
system, and true stands for `SERVER_OK`. -/
def serverOpen : Option (Bool × Memory × σ) := do
  let (ok, filename, flags, mode) ←
    readIn rfsBufferSize m [.o rfsOpOpen, .p, .i, .i] (remotefsOpenReadRequest .bits32 m)
  if ok then
    let name ← nameAt m filename
    let fullname ← serverFullname basedir.bytes name
    let (fd, st) := os.openFile st fullname flags mode
    let m ← writeIn rfsBufferSize m (.openResponse fd)
    some (true, m, st)
  else some (false, m, st)

/-- `server_write`. -/
def serverWrite : Option (Bool × Memory × σ) := do
  let (ok, fd, buf, count) ←
    readIn rfsBufferSize m [.o rfsOpWrite, .i, .p] (remotefsWriteReadRequest .bits32 m)
  if ok then
    let data ← blockIn rfsBufferSize m count.toNat buf
    let (res, st) := os.write st fd data
    let m ← writeIn rfsBufferSize m (.writeResponse res.toUInt32)
    some (true, m, st)
  else some (false, m, st)

/-- `server_read`. The system puts the data where the response has it. -/
def serverRead : Option (Bool × Memory × σ) := do
  let (ok, fd, count) ← readIn rfsBufferSize m [.o rfsOpRead, .i, .l]
    (remotefsReadReadRequest .bits32 m)
  if ok then
    match os.read st fd count with
    | (none, st) =>
        let m ← writeIn rfsBufferSize m (.readResponse (-1 : Int32).toUInt32)
        some (true, m, st)
    | (some bytes, st) =>
        if readBufOffset + bytes.length ≤ rfsBufferSize then
          let m ← writeIn rfsBufferSize (m.overlay readBufOffset bytes)
            (.readResponse (UInt32.ofNat bytes.length))
          some (true, m, st)
        else none
  else some (false, m, st)

/-- `server_close`. -/
def serverClose : Option (Bool × Memory × σ) := do
  let (ok, fd) ← readIn rfsBufferSize m [.o rfsOpClose, .i] (remotefsCloseReadRequest .bits32 m)
  if ok then
    let (res, st) := os.close st fd
    let m ← writeIn rfsBufferSize m (.closeResponse res)
    some (true, m, st)
  else some (false, m, st)

/-- `server_lseek`. -/
def serverLseek : Option (Bool × Memory × σ) := do
  let (ok, fd, offset, whence) ←
    readIn rfsBufferSize m [.o rfsOpLseek, .i, .L, .i] (remotefsLseekReadRequest .bits32 m)
  if ok then
    let (res, st) := os.lseek st fd offset whence
    let m ← writeIn rfsBufferSize m (.lseekResponse res)
    some (true, m, st)
  else some (false, m, st)

/-- `server_opendir`. -/
def serverOpendir : Option (Bool × Memory × σ) := do
  let (ok, name) ← readIn rfsBufferSize m [.o rfsOpOpendir, .p]
    (remotefsOpendirReadRequest .bits32 m)
  if ok then
    let name ← nameAt m name
    let fullname ← serverFullname basedir.bytes name
    let (d, st) := os.opendir st fullname
    let m ← writeIn rfsBufferSize m (.opendirResponse d)
    some (true, m, st)
  else some (false, m, st)

/-- `server_readdir`. The size of a file is that at which a seek to its end arrives. -/
def serverReaddir : Option (Bool × Memory × σ) := do
  let (ok, d) ← readIn rfsBufferSize m [.o rfsOpReaddir, .l] (remotefsReaddirReadRequest .bits32 m)
  if ok then
    match os.readdir st d with
    | (none, st) =>
        let m ← writeIn rfsBufferSize m (.readdirResponse none 0 0)
        some (true, m, st)
    | (some name, st) =>
        let fullname ← serverFullname basedir.bytes name.bytes
        let (fd, st) := os.openFile st fullname rfsOpenFlagRdonly 0
        if fd ≠ 0 then
          let (fsize, st) := os.lseek st fd 0 rfsLseekEnd
          let (_, st) := os.close st fd
          let m ← writeIn rfsBufferSize m (.readdirResponse (some name) fsize.toUInt32 0)
          some (true, m, st)
        else
          let m ← writeIn rfsBufferSize m (.readdirResponse none 0 0)
          some (true, m, st)
  else some (false, m, st)

/-- `server_closedir`. The response has the directory, not the result. -/
def serverClosedir : Option (Bool × Memory × σ) := do
  let (ok, d) ← readIn rfsBufferSize m [.o rfsOpClosedir, .l]
    (remotefsClosedirReadRequest .bits32 m)
  if ok then
    let (_, st) := os.closedir st d
    let m ← writeIn rfsBufferSize m (.closedirResponse d.toInt32)
    some (true, m, st)
  else some (false, m, st)

/-- `server_execute_request`. -/
def serverExecuteRequest : Option (Bool × Memory × σ) :=
  match getRequestId m with
  | (false, _) => some (false, m, st)
  | (true, req) =>
      if req = rfsOpOpen then serverOpen os basedir m st
      else if req = rfsOpWrite then serverWrite os m st
      else if req = rfsOpRead then serverRead os m st
      else if req = rfsOpClose then serverClose os m st
      else if req = rfsOpLseek then serverLseek os m st
      else if req = rfsOpOpendir then serverOpendir os basedir m st
      else if req = rfsOpReaddir then serverReaddir os basedir m st
      else if req = rfsOpClosedir then serverClosedir os m st
      else some (false, m, st)

end Handlers

end ELuaBrain.Rpc
