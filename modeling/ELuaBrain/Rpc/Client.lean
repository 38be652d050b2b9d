import ELuaBrain.Rpc.Server

/-!
# The client of the remote file system

The code of `client.c`, which is also that of the functions of `elua_rfs.c` other than reading and
writing. Each function makes a request in `rfsc_buffer`, has it sent and its response read into the
same buffer, and interprets the response there. The buffer has `1 << RFS_BUFFER_SIZE` bytes, where
the exponent is one of the constants of `buf.h`.

The transport here takes every byte to the other side, and the server answers before the timeout.

## Main definitions

* `Rfsc` : what a function of the client consists of; `rfscOpen` and the others.
* `Rfs`, `rfschSendRequestReadResponse` : the client with the server, and one exchange of packets.
* `RfsCall`, `RfsCall.run` : the calls of the client.
-/

namespace ELuaBrain.Rpc

/-! ### Flags -/

/-- The values of `fcntl.h` and `unistd.h` in the C library of the client. -/
structure SysConsts where
  oAppend : UInt32
  oCreat : UInt32
  oExcl : UInt32
  oTrunc : UInt32
  oSync : UInt32
  oRdonly : UInt32
  oWronly : UInt32
  oRdwr : UInt32
  seekSet : Int32
  seekCur : Int32
  seekEnd : Int32
  deriving Inhabited

/-- `eluarpc_replace_flag`. -/
def eluarpcReplaceFlag (val origflag newflag : UInt32) : UInt32 :=
  if val &&& origflag ≠ 0 then newflag else 0

/-- `os_open_sys_flags_to_rfs_flags`. -/
def osOpenSysFlagsToRfsFlags (c : SysConsts) (sysflags : Int32) : UInt32 :=
  let val := sysflags.toUInt32
  eluarpcReplaceFlag val c.oAppend 0x01 ||| eluarpcReplaceFlag val c.oCreat 0x02 |||
    eluarpcReplaceFlag val c.oExcl 0x04 ||| eluarpcReplaceFlag val c.oTrunc 0x08 |||
    eluarpcReplaceFlag val c.oSync 0x10 ||| eluarpcReplaceFlag val c.oRdonly 0x20 |||
    eluarpcReplaceFlag val c.oWronly 0x40 ||| eluarpcReplaceFlag val c.oRdwr 0x80

/-- `os_lseek_sys_whence_to_rfs_whence`. -/
def osLseekSysWhenceToRfsWhence (c : SysConsts) (syswhence : Int32) : UInt32 :=
  if syswhence = c.seekSet then 0x01
  else if syswhence = c.seekCur then 0x02
  else if syswhence = c.seekEnd then 0x03
  else 0

/-! ### The functions of the client -/

/-- A block of bytes whose number is a `u32`. -/
structure Block where
  bytes : List UInt8
  length_lt : bytes.length < 2 ^ 32

/-- What is in memory at the block. -/
def Block.mem (b : Block) : Memory := .ofBytes b.bytes

/-- What a function of the client returns: a result code, with the bytes that were read, a
directory, or an entry with its name, size and time, where `none` is a name that is `NULL`. -/
inductive RfsResult where
  | int (res : Int32)
  | data (res : Int32) (bytes : List UInt8)
  | dir (d : UInt32)
  | entry (ent : Option (List UInt8 × UInt32 × UInt32))
  deriving DecidableEq

/-- A function of the client: the request that it makes, what it returns if there is no response,
and how it interprets a response. -/
structure Rfsc where
  request : RfsPacket
  failed : RfsResult
  interpret : Memory → Option RfsResult

section Functions

variable (c : SysConsts) (n : Fin 16)

/-- `rfsc_open`. -/
def rfscOpen (pathname : CString) (flags mode : Int32) : Rfsc where
  request := .openRequest pathname (osOpenSysFlagsToRfsFlags c flags).toInt32 mode
  failed := .int (-1)
  interpret m := readIn (2 ^ n.val) m [.r rfsOpOpen, .i]
    (match remotefsOpenReadResponse .bits32 m with
    | (false, _) => .int (-1)
    | (true, fd) => .int fd)

/-- `rfsc_write`. -/
def rfscWrite (fd : Int32) (buf : Block) : Rfsc where
  request := .writeRequest fd (some buf.mem) (UInt32.ofNat buf.bytes.length)
  failed := .int (-1)
  interpret m := readIn (2 ^ n.val) m [.r rfsOpWrite, .l]
    (match remotefsWriteReadResponse .bits32 m with
    | (false, _) => .int (-1)
    | (true, count) => .int count.toInt32)

/-- `rfsc_read`. -/
def rfscRead (fd : Int32) (count : UInt32) : Rfsc where
  request := .readRequest fd count
  failed := .data (-1) []
  interpret m := (readIn (2 ^ n.val) m [.r rfsOpRead, .p]
    (remotefsReadReadResponse .bits32 m)).bind fun
    | (false, _) => some (.data (-1) [])
    | (true, resbuf, count) =>
        (blockIn (2 ^ n.val) m count.toNat resbuf).map fun bytes => .data count.toInt32 bytes

/-- `rfsc_lseek`. -/
def rfscLseek (fd offset whence : Int32) : Rfsc where
  request := .lseekRequest fd offset (osLseekSysWhenceToRfsWhence c whence).toInt32
  failed := .int (-1)
  interpret m := readIn (2 ^ n.val) m [.r rfsOpLseek, .L]
    (match remotefsLseekReadResponse .bits32 m with
    | (false, _) => .int (-1)
    | (true, res) => .int res)

/-- `rfsc_close`. -/
def rfscClose (fd : Int32) : Rfsc where
  request := .closeRequest fd
  failed := .int (-1)
  interpret m := readIn (2 ^ n.val) m [.r rfsOpClose, .i]
    (match remotefsCloseReadResponse .bits32 m with
    | (false, _) => .int (-1)
    | (true, res) => .int res)

/-- `rfsc_opendir`. -/
def rfscOpendir (name : CString) : Rfsc where
  request := .opendirRequest name
  failed := .dir 0
  interpret m := readIn (2 ^ n.val) m [.r rfsOpOpendir, .l]
    (match remotefsOpendirReadResponse .bits32 m with
    | (false, _) => .dir 0
    | (true, res) => .dir res)

/-- `rfsc_readdir`. -/
def rfscReaddir (d : UInt32) : Rfsc where
  request := .readdirRequest d
  failed := .entry none
  interpret m := (readIn (2 ^ n.val) m [.r rfsOpReaddir, .p, .l, .l]
    (remotefsReaddirReadResponse .bits32 m)).bind fun
    | (false, _) => some (.entry none)
    | (true, none, _, _) => some (.entry none)
    | (true, some a, size, ftime) =>
        (stringIn (2 ^ n.val) m a).map fun name => .entry (some (name, size, ftime))

/-- `rfsc_closedir`. -/
def rfscClosedir (d : UInt32) : Rfsc where
  request := .closedirRequest d
  failed := .int (-1)
  interpret m := readIn (2 ^ n.val) m [.r rfsOpClosedir, .i]
    (match remotefsClosedirReadResponse .bits32 m with
    | (false, _) => .int (-1)
    | (true, res) => .int res)

end Functions

/-- The calls of the client. -/
inductive RfsCall where
  | rfscOpen (pathname : CString) (flags mode : Int32)
  | rfscWrite (fd : Int32) (buf : Block)
  | rfscRead (fd : Int32) (count : UInt32)
  | rfscLseek (fd offset whence : Int32)
  | rfscClose (fd : Int32)
  | rfscOpendir (name : CString)
  | rfscReaddir (d : UInt32)
  | rfscClosedir (d : UInt32)

/-- The function that is called, with its arguments. -/
def RfsCall.func (c : SysConsts) (n : Fin 16) : RfsCall → Rfsc
  | rfscOpen pathname flags mode => Rpc.rfscOpen c n pathname flags mode
  | rfscWrite fd buf => Rpc.rfscWrite n fd buf
  | rfscRead fd count => Rpc.rfscRead n fd count
  | rfscLseek fd offset whence => Rpc.rfscLseek c n fd offset whence
  | rfscClose fd => Rpc.rfscClose n fd
  | rfscOpendir name => Rpc.rfscOpendir n name
  | rfscReaddir d => Rpc.rfscReaddir n d
  | rfscClosedir d => Rpc.rfscClosedir n d

/-! ### Client and server -/

/-- The buffer of the client, that of the server and the state of the server's system. -/
structure Rfs (σ : Type) where
  buf : Memory := fun _ => 0
  server : Memory := fun _ => 0
  st : σ

section Exchange

variable {σ : Type} (os : Os σ) (basedir : CString) (n : Fin 16)

/-- `rfsch_send_request_read_response`, with the server at the other end of the line. A packet
shorter than its size field is one for which the other side waits in vain. -/
def rfschSendRequestReadResponse (s : Rfs σ) : Option (Bool × Rfs σ) :=
  match getPacketSize s.buf with
  | (false, _) => some (false, s)
  | (true, size) =>
      if size.toNat < startOffset then some (false, s)
      else if rfsBufferSize < size.toNat then none
      else do
        let (_, server, st) ← serverExecuteRequest os basedir
          (s.server.overlay 0 (s.buf.slice 0 size.toNat)) s.st
        match getPacketSize server with
        | (false, _) => some (false, { s with server, st })
        | (true, size) =>
            if size.toNat < startOffset then some (false, { s with server, st })
            else if 2 ^ n.val < size.toNat then none
            else some (true, { buf := s.buf.overlay 0 (server.slice 0 size.toNat), server, st })

/-- What all functions of the client do. -/
def Rfsc.run (f : Rfsc) (s : Rfs σ) : Option (RfsResult × Rfs σ) := do
  let buf ← writeIn (2 ^ n.val) s.buf f.request
  let (ok, s) ← rfschSendRequestReadResponse os basedir n { s with buf }
  if ok then
    let res ← f.interpret s.buf
    some (res, s)
  else some (f.failed, s)

end Exchange

end ELuaBrain.Rpc
