import ELuaBrain.Rpc.Exchange

/-!
# The remote file system and the local one

What the client gets from a call is compared with what the functions of the server's system return
for the same arguments. The two are the same if and only if all packets fit into the buffers, the
name of a file fits on the server, and the system does none of the things that the handlers treat in
another way: an error of `os_read`, for which the response is as long as the error code says, a file
of a directory that cannot be opened or has the descriptor zero, and the result of `os_closedir`, in
whose place the handle is sent.

## Main definitions

* `RfsCall.localResult` : what the functions of the system return.
* `RfsCall.Safe`, `AllSafe` : the condition on a call, and on the calls of a sequence.
* `Transparent` : a sequence of calls whose results are the local ones.

## Main results

* `returns_iff_safe` : one call.
* `transparent_iff_allSafe` : all calls of a sequence.
-/

namespace ELuaBrain.Rpc

section Local

variable {σ : Type} (os : Os σ) (basedir : CString) (c : SysConsts) (n : Fin 16)

/-- What the functions of the system return for the arguments of a call, and the state after them.
An entry of a directory has the size at which a seek to the end of the file arrives; where this
file cannot be opened or the seek fails, there is no entry. -/
def RfsCall.localResult (st : σ) : RfsCall → RfsResult × σ
  | rfscOpen pathname flags mode =>
      let (fd, st) := os.openFile st (joinName basedir.bytes pathname.bytes)
        (osOpenSysFlagsToRfsFlags c flags).toInt32 mode
      (.int fd, st)
  | rfscWrite fd buf =>
      let (res, st) := os.write st fd buf.bytes
      (.int res, st)
  | rfscRead fd count =>
      match os.read st fd count with
      | (none, st) => (.data (-1) [], st)
      | (some bytes, st) => (.data (Int32.ofNat bytes.length) bytes, st)
  | rfscLseek fd offset whence =>
      let (res, st) := os.lseek st fd offset (osLseekSysWhenceToRfsWhence c whence).toInt32
      (.int res, st)
  | rfscClose fd =>
      let (res, st) := os.close st fd
      (.int res, st)
  | rfscOpendir name =>
      let (d, st) := os.opendir st (joinName basedir.bytes name.bytes)
      (.dir d, st)
  | rfscReaddir d =>
      match os.readdir st d with
      | (none, st) => (.entry none, st)
      | (some name, st) =>
          let (fd, st) := os.openFile st (joinName basedir.bytes name.bytes) rfsOpenFlagRdonly 0
          if fd < 0 then (.entry none, st)
          else
            let (fsize, st) := os.lseek st fd 0 rfsLseekEnd
            let (_, st) := os.close st fd
            (.entry (if fsize < 0 then none else some (name.bytes, fsize.toUInt32, 0)), st)
  | rfscClosedir d =>
      let (res, st) := os.closedir st d
      (.int res, st)

/-- A packet of `k` bytes fits into both buffers. -/
def Fits (k : ℕ) : Prop := k ≤ 2 ^ n.val ∧ k ≤ rfsBufferSize

/-- What must be the case for an entry of a directory. The second case is the one in which nothing
comes of it that the file has the descriptor zero: it has no size, and closing it does nothing. -/
def EntrySafe (st : σ) (name : CString) : Prop :=
  let (fd, st₁) := os.openFile st (joinName basedir.bytes name.bytes) rfsOpenFlagRdonly 0
  let (fsize, st₂) := os.lseek st₁ fd 0 rfsLseekEnd
  NameSafe basedir.bytes name.bytes ∧
    (0 < fd ∧ 0 ≤ fsize ∧ 34 + name.strlen ≤ 2 ^ n.val ∨
      fd = 0 ∧ fsize < 0 ∧ (os.close st₂ fd).2 = st₁ ∧ 33 ≤ 2 ^ n.val)

/-- The condition under which a call returns what the system does. -/
def RfsCall.Safe (st : σ) : RfsCall → Prop
  | rfscOpen pathname _ _ =>
      Fits n (35 + pathname.strlen) ∧ NameSafe basedir.bytes pathname.bytes
  | rfscWrite _ buf => Fits n (29 + buf.bytes.length)
  | rfscRead fd count =>
      28 ≤ 2 ^ n.val ∧ ∃ bytes, (os.read st fd count).1 = some bytes ∧ Fits n (23 + bytes.length)
  | rfscLseek _ _ _ => 33 ≤ 2 ^ n.val
  | rfscClose _ => 23 ≤ 2 ^ n.val
  | rfscOpendir name => Fits n (25 + name.strlen) ∧ NameSafe basedir.bytes name.bytes
  | rfscReaddir d =>
      match os.readdir st d with
      | (none, _) => 33 ≤ 2 ^ n.val
      | (some name, st) => EntrySafe os basedir n st name
  | rfscClosedir d => 23 ≤ 2 ^ n.val ∧ (os.closedir st d).1 = d.toInt32

/-- Each call of the sequence returns what the system does, from the state that the calls before it
have left. -/
def Transparent : Rfs σ → List RfsCall → Prop
  | _, [] => True
  | s, call :: calls => ∃ s', (call.func c n).run os basedir n s =
        some ((call.localResult os basedir c s.st).1, s') ∧
      s'.st = (call.localResult os basedir c s.st).2 ∧ Transparent s' calls

/-- Each call of the sequence meets the condition, in the state that the system is in after the
calls before it. -/
def AllSafe : σ → List RfsCall → Prop
  | _, [] => True
  | st, call :: calls =>
      call.Safe os basedir n st ∧ AllSafe (call.localResult os basedir c st).2 calls

end Local

section Calls

variable {σ : Type} {os : Os σ} {basedir : CString} {c : SysConsts} {n : Fin 16} {s : Rfs σ}

theorem returns_open (pathname : CString) (flags mode : Int32) :
    Returns os basedir n (rfscOpen c n pathname flags mode) s
        ((RfsCall.rfscOpen pathname flags mode).localResult os basedir c s.st) ↔
      (RfsCall.rfscOpen pathname flags mode).Safe os basedir n s.st := by
  have hlen : (rfscOpen c n pathname flags mode).request.written = 35 + pathname.strlen := by
    rw [RfsPacket.written_eq]
    change 16 + (2 + (6 + (UInt32.ofNat (pathname.strlen + 1)).toNat + (5 + (5 + 0)))) = _
    rw [pathname.toNat_ofNat_strlen]
    omega
  rw [RfsCall.Safe, Fits]
  by_cases hsafe : NameSafe basedir.bytes pathname.bytes
  · have hfull := serverFullname_eq_some_iff_nameSafe.mpr ⟨hsafe, rfl⟩
    have hint : ∀ fd m, Carries m [.r rfsOpOpen, .i] ((), fd, ()) → 22 ≤ 2 ^ n.val →
        (rfscOpen c n pathname flags mode).interpret m = some (.int fd) := fun fd m hm hle => by
      change readIn _ m [.r rfsOpOpen, .i] _ = _
      rw [hm.readIn hle, remotefsOpenReadResponse, hm.genRead]
      rfl
    refine (returns_iff_fits (fun hfit m hm => ?_) (hint _)).trans ?_
    · rw [serverExecuteRequest_open hm (hlen ▸ hfit), hfull]
      exact ⟨_, rfl, carries_genWrite m [.r rfsOpOpen, .i] _, show 22 ≤ rfsBufferSize by decide⟩
    · rw [hlen]
      change (_ ∧ _ ∧ 22 ≤ 2 ^ n.val) ↔ _
      refine ⟨fun h => ⟨⟨h.1, h.2.1⟩, hsafe⟩, fun h => ⟨h.1.1, h.1.2, ?_⟩⟩
      omega
  · refine iff_of_false (not_returns_of_run <| run_eq_none_of_none fun hfit m hm => ?_) fun h =>
      hsafe h.2
    rw [serverExecuteRequest_open hm (hlen ▸ hfit), serverFullname_eq_none hsafe]
    rfl

theorem returns_opendir (name : CString) :
    Returns os basedir n (rfscOpendir n name) s
        ((RfsCall.rfscOpendir name).localResult os basedir c s.st) ↔
      (RfsCall.rfscOpendir name).Safe os basedir n s.st := by
  have hlen : (rfscOpendir n name).request.written = 25 + name.strlen := by
    rw [RfsPacket.written_eq]
    change 16 + (2 + (6 + (UInt32.ofNat (name.strlen + 1)).toNat + 0)) = _
    rw [name.toNat_ofNat_strlen]
    omega
  rw [RfsCall.Safe, Fits]
  by_cases hsafe : NameSafe basedir.bytes name.bytes
  · have hfull := serverFullname_eq_some_iff_nameSafe.mpr ⟨hsafe, rfl⟩
    have hint : ∀ d m, Carries m [.r rfsOpOpendir, .l] ((), d, ()) → 22 ≤ 2 ^ n.val →
        (rfscOpendir n name).interpret m = some (.dir d) := fun d m hm hle => by
      change readIn _ m [.r rfsOpOpendir, .l] _ = _
      rw [hm.readIn hle, remotefsOpendirReadResponse, hm.genRead]
      rfl
    refine (returns_iff_fits (fun hfit m hm => ?_) (hint _)).trans ?_
    · rw [serverExecuteRequest_opendir hm (hlen ▸ hfit), hfull]
      exact ⟨_, rfl, carries_genWrite m [.r rfsOpOpendir, .l] _,
        show 22 ≤ rfsBufferSize by decide⟩
    · rw [hlen]
      change (_ ∧ _ ∧ 22 ≤ 2 ^ n.val) ↔ _
      refine ⟨fun h => ⟨⟨h.1, h.2.1⟩, hsafe⟩, fun h => ⟨h.1.1, h.1.2, ?_⟩⟩
      omega
  · refine iff_of_false (not_returns_of_run <| run_eq_none_of_none fun hfit m hm => ?_) fun h =>
      hsafe h.2
    rw [serverExecuteRequest_opendir hm (hlen ▸ hfit), serverFullname_eq_none hsafe]
    rfl

theorem length_rfscWrite (fd : Int32) (buf : Block) :
    (rfscWrite n fd buf).request.written = 29 + buf.bytes.length := by
  rw [RfsPacket.written_eq]
  change 16 + (2 + (5 + (6 + (UInt32.ofNat buf.bytes.length).toNat + 0))) = _
  rw [UInt32.toNat_ofNat_of_lt' buf.length_lt]
  omega

theorem returns_write (fd : Int32) (buf : Block) :
    Returns os basedir n (rfscWrite n fd buf) s
        ((RfsCall.rfscWrite fd buf).localResult os basedir c s.st) ↔
      (RfsCall.rfscWrite fd buf).Safe os basedir n s.st := by
  have hlen := length_rfscWrite (n := n) fd buf
  have hint : ∀ res m, Carries m [.r rfsOpWrite, .l] ((), res, ()) → 22 ≤ 2 ^ n.val →
      (rfscWrite n fd buf).interpret m = some (.int res.toInt32) := fun res m hm hle => by
    change readIn _ m [.r rfsOpWrite, .l] _ = _
    rw [hm.readIn hle, remotefsWriteReadResponse, hm.genRead]
    rfl
  refine (returns_iff_fits (fun hfit m hm => ?_) (hint _)).trans ?_
  · rw [serverExecuteRequest_write hm (hlen ▸ hfit)]
    exact ⟨_, rfl, carries_genWrite m [.r rfsOpWrite, .l] _, show 22 ≤ rfsBufferSize by decide⟩
  · rw [hlen, RfsCall.Safe, Fits]
    change (_ ∧ _ ∧ 22 ≤ 2 ^ n.val) ↔ _
    omega

theorem returns_read (fd : Int32) (count : UInt32) :
    Returns os basedir n (rfscRead n fd count) s
        ((RfsCall.rfscRead fd count).localResult os basedir c s.st) ↔
      (RfsCall.rfscRead fd count).Safe os basedir n s.st := by
  have hlen : (rfscRead n fd count).request.written = 28 := RfsPacket.written_eq _
  rw [RfsCall.Safe, RfsCall.localResult]
  have hbound := os.read_length_le s.st fd count
  generalize hres : os.read s.st fd count = res at hbound
  rcases res with ⟨_ | bytes, st⟩
  · refine iff_of_false (not_returns_of_run <| run_eq_none_of_none fun hfit m hm => ?_) fun h => ?_
    · rw [serverExecuteRequest_read hm, hres]
    · obtain ⟨-, bytes, hbytes, -⟩ := h
      cases hbytes
  · have hlt : bytes.length < 2 ^ 32 := (hbound bytes rfl).trans_lt count.toNat_lt
    have hcount : (UInt32.ofNat bytes.length).toNat = bytes.length := UInt32.toNat_ofNat_of_lt' hlt
    have hpacket := packetLength_readResponse hlt
    have hint : ∀ m, Carries m [.r rfsOpRead, .p]
          ((), (some (.ofBytes bytes), UInt32.ofNat bytes.length), ()) →
        packetLength [.r rfsOpRead, .p]
          ((), (some (.ofBytes bytes), UInt32.ofNat bytes.length), ()) ≤ 2 ^ n.val →
        (rfscRead n fd count).interpret m =
          some (.data (Int32.ofNat bytes.length) bytes) := fun m hm hle => by
      have hread : remotefsReadReadResponse .bits32 m = (true,
          if UInt32.ofNat bytes.length = 0 then none else some 17, UInt32.ofNat bytes.length) := by
        rw [remotefsReadReadResponse, hm.genRead]
        rfl
      have hblock := hm.block_second
      rw [hcount, Memory.slice_ofBytes] at hblock
      have hdata : blockIn (2 ^ n.val) m (UInt32.ofNat bytes.length).toNat
          (if UInt32.ofNat bytes.length = 0 then none else some 17) = some bytes :=
        blockIn_of_slice hcount (by rw [hcount]; exact hblock) (by omega)
      change (readIn _ m [.r rfsOpRead, .p] _).bind _ = _
      rw [hm.readIn hle, hread, Option.bind_some]
      dsimp only
      rw [hdata]
      rfl
    simp only [Option.some_inj, exists_eq_left', Fits]
    by_cases hfits : 23 + bytes.length ≤ rfsBufferSize
    · refine (returns_iff_fits (fun _ m hm => ?_) hint).trans ?_
      · exact answer_read hres hfits hm
      · rw [hlen, hpacket]
        have hsize : rfsBufferSize = 4125 := rfl
        omega
    · refine iff_of_false (not_returns_of_run <| run_eq_none_of_none fun hfit m hm => ?_) fun h =>
        hfits h.2.2
      rw [serverExecuteRequest_read hm, hres]
      exact if_neg hfits

theorem returns_lseek (fd offset whence : Int32) :
    Returns os basedir n (rfscLseek c n fd offset whence) s
        ((RfsCall.rfscLseek fd offset whence).localResult os basedir c s.st) ↔
      (RfsCall.rfscLseek fd offset whence).Safe os basedir n s.st := by
  have hlen : (rfscLseek c n fd offset whence).request.written = 33 := RfsPacket.written_eq _
  have hint : ∀ res m, Carries m [.r rfsOpLseek, .L] ((), res, ()) → 22 ≤ 2 ^ n.val →
      (rfscLseek c n fd offset whence).interpret m = some (.int res) := fun res m hm hle => by
    change readIn _ m [.r rfsOpLseek, .L] _ = _
    rw [hm.readIn hle, remotefsLseekReadResponse, hm.genRead]
    rfl
  refine (returns_iff_fits (fun hfit m hm => ?_) (hint _)).trans ?_
  · rw [serverExecuteRequest_lseek hm]
    exact ⟨_, rfl, carries_genWrite m [.r rfsOpLseek, .L] _, show 22 ≤ rfsBufferSize by decide⟩
  · rw [hlen, RfsCall.Safe]
    have hsize : rfsBufferSize = 4125 := rfl
    change (_ ∧ _ ∧ 22 ≤ 2 ^ n.val) ↔ _
    omega

theorem returns_close (fd : Int32) :
    Returns os basedir n (rfscClose n fd) s
        ((RfsCall.rfscClose fd).localResult os basedir c s.st) ↔
      (RfsCall.rfscClose fd).Safe os basedir n s.st := by
  have hlen : (rfscClose n fd).request.written = 23 := RfsPacket.written_eq _
  have hint : ∀ res m, Carries m [.r rfsOpClose, .i] ((), res, ()) → 22 ≤ 2 ^ n.val →
      (rfscClose n fd).interpret m = some (.int res) := fun res m hm hle => by
    change readIn _ m [.r rfsOpClose, .i] _ = _
    rw [hm.readIn hle, remotefsCloseReadResponse, hm.genRead]
    rfl
  refine (returns_iff_fits (fun hfit m hm => ?_) (hint _)).trans ?_
  · rw [serverExecuteRequest_close hm]
    exact ⟨_, rfl, carries_genWrite m [.r rfsOpClose, .i] _, show 22 ≤ rfsBufferSize by decide⟩
  · rw [hlen, RfsCall.Safe]
    have hsize : rfsBufferSize = 4125 := rfl
    change (_ ∧ _ ∧ 22 ≤ 2 ^ n.val) ↔ _
    omega

/-- The handle is returned where the result should be. -/
theorem returns_closedir (d : UInt32) :
    Returns os basedir n (rfscClosedir n d) s
        ((RfsCall.rfscClosedir d).localResult os basedir c s.st) ↔
      (RfsCall.rfscClosedir d).Safe os basedir n s.st := by
  have hlen : (rfscClosedir n d).request.written = 23 := RfsPacket.written_eq _
  have hint : ∀ res m, Carries m [.r rfsOpClosedir, .i] ((), res, ()) → 22 ≤ 2 ^ n.val →
      (rfscClosedir n d).interpret m = some (.int res) := fun res m hm hle => by
    change readIn _ m [.r rfsOpClosedir, .i] _ = _
    rw [hm.readIn hle, remotefsClosedirReadResponse, hm.genRead]
    rfl
  have hans : ∀ m, Carries m (rfscClosedir n d).request.fields (rfscClosedir n d).request.args →
      ∃ server, serverExecuteRequest os basedir m s.st =
          some (true, server, (os.closedir s.st d).2) ∧
        Carries server [.r rfsOpClosedir, .i] ((), d.toInt32, ()) ∧
        packetLength [.r rfsOpClosedir, .i] ((), d.toInt32, ()) ≤ rfsBufferSize := fun m hm =>
    ⟨_, serverExecuteRequest_closedir hm, carries_genWrite m [.r rfsOpClosedir, .i] _,
      show 22 ≤ rfsBufferSize by decide⟩
  refine (returns_iff_of_answer (fun _ => hans) (hint d.toInt32)).trans ?_
  rw [hlen, RfsCall.Safe]
  have hsize : rfsBufferSize = 4125 := rfl
  change ((_ ∧ _ ∧ 22 ≤ 2 ^ n.val) ∧ (RfsResult.int _, _) = (RfsResult.int _, _)) ↔ _
  rw [Prod.mk.injEq, RfsResult.int.injEq]
  constructor
  · rintro ⟨⟨hle, -⟩, hres, -⟩
    exact ⟨hle, hres⟩
  · rintro ⟨hle, hres⟩
    exact ⟨⟨hle, by omega, by omega⟩, hres, rfl⟩

/-- A response without an entry. -/
theorem interpret_readdir_none {d : UInt32} {m : Memory}
    (hm : Carries m [.r rfsOpReaddir, .p, .l, .l] ((), (none, 0), 0, 0, ()))
    (hle : 33 ≤ 2 ^ n.val) : (rfscReaddir n d).interpret m = some (.entry none) := by
  change (readIn _ m [.r rfsOpReaddir, .p, .l, .l] _).bind _ = _
  rw [hm.readIn hle, remotefsReaddirReadResponse, hm.genRead]
  rfl

/-- A response with an entry. -/
theorem interpret_readdir_some {d : UInt32} {m : Memory} {name : CString} {size : UInt32}
    (hm : Carries m [.r rfsOpReaddir, .p, .l, .l]
      ((), (some name.mem, UInt32.ofNat (name.strlen + 1)), size, 0, ()))
    (hle : 34 + name.strlen ≤ 2 ^ n.val) :
    (rfscReaddir n d).interpret m = some (.entry (some (name.bytes, size, 0))) := by
  have hlen : packetLength [.r rfsOpReaddir, .p, .l, .l]
      ((), (some name.mem, UInt32.ofNat (name.strlen + 1)), size, 0, ()) = 34 + name.strlen := by
    simp only [packetLength, fieldsLength, fieldLength, name.toNat_ofNat_strlen, ptrHeaderSize]
    omega
  have hread : remotefsReaddirReadResponse .bits32 m = (true, some 17, size, 0) := by
    have hout := outOf_string name 11
    rw [remotefsReaddirReadResponse, hm.genRead]
    exact congrArg (fun v => (true, v.1, size, (0 : UInt32))) hout
  have hblock := hm.block_second
  have hname : stringIn (2 ^ n.val) m 17 = some name.bytes :=
    stringIn_of_slice name hblock (by omega)
  change (readIn _ m [.r rfsOpReaddir, .p, .l, .l] _).bind _ = _
  rw [hm.readIn (hlen.trans_le hle), hread, Option.bind_some]
  dsimp only
  rw [hname]
  rfl

/-- An entry whose file has the descriptor zero is taken for one that cannot be opened. -/
theorem returns_entry_zero {d : UInt32} {st st₁ : σ} {name : CString}
    (hres : os.readdir s.st d = (some name, st)) (hsafe : NameSafe basedir.bytes name.bytes)
    (hopen : os.openFile st (joinName basedir.bytes name.bytes) rfsOpenFlagRdonly 0 = (0, st₁))
    (r : RfsResult × σ) : Returns os basedir n (rfscReaddir n d) s r ↔
      33 ≤ 2 ^ n.val ∧ r = (.entry none, st₁) := by
  have hlen : (rfscReaddir n d).request.written = 23 := RfsPacket.written_eq _
  have hsize : rfsBufferSize = 4125 := rfl
  have hans : ∀ m, Carries m (rfscReaddir n d).request.fields (rfscReaddir n d).request.args →
      ∃ server, serverExecuteRequest os basedir m s.st = some (true, server, st₁) ∧
        Carries server [.r rfsOpReaddir, .p, .l, .l] ((), (none, 0), 0, 0, ()) ∧
        packetLength [.r rfsOpReaddir, .p, .l, .l] ((), (none, 0), 0, 0, ()) ≤ rfsBufferSize := by
    intro m hm
    rw [serverExecuteRequest_readdir_some hm hres,
      serverFullname_eq_some_iff_nameSafe.mpr ⟨hsafe, rfl⟩, Option.bind_some, hopen]
    exact ⟨_, rfl, carries_genWrite m [.r rfsOpReaddir, .p, .l, .l] _,
      show 33 ≤ rfsBufferSize by decide⟩
  refine (returns_iff_of_answer (fun _ => hans)
    fun m hm hle => interpret_readdir_none hm hle).trans (and_congr_left' ?_)
  rw [hlen]
  change (_ ∧ _ ∧ 33 ≤ 2 ^ n.val) ↔ _
  omega

/-- Any other entry is returned with what the seek in its file gives, also if there is no file. -/
theorem returns_entry {d : UInt32} {st st₁ st₂ : σ} {name : CString} {fd fsize : Int32}
    (hres : os.readdir s.st d = (some name, st)) (hsafe : NameSafe basedir.bytes name.bytes)
    (hopen : os.openFile st (joinName basedir.bytes name.bytes) rfsOpenFlagRdonly 0 = (fd, st₁))
    (hseek : os.lseek st₁ fd 0 rfsLseekEnd = (fsize, st₂)) (hfd : fd ≠ 0) (r : RfsResult × σ) :
    Returns os basedir n (rfscReaddir n d) s r ↔ 34 + name.strlen ≤ 2 ^ n.val ∧
      r = (.entry (some (name.bytes, fsize.toUInt32, 0)), (os.close st₂ fd).2) := by
  have hlen : (rfscReaddir n d).request.written = 23 := RfsPacket.written_eq _
  have hsize : rfsBufferSize = 4125 := rfl
  have hlen' : packetLength [.r rfsOpReaddir, .p, .l, .l] ((), (some name.mem,
      UInt32.ofNat (name.strlen + 1)), fsize.toUInt32, 0, ()) = 34 + name.strlen := by
    simp only [packetLength, fieldsLength, fieldLength, name.toNat_ofNat_strlen, ptrHeaderSize]
    omega
  have hans : ∀ m, Carries m (rfscReaddir n d).request.fields (rfscReaddir n d).request.args →
      ∃ server, serverExecuteRequest os basedir m s.st =
          some (true, server, (os.close st₂ fd).2) ∧
        Carries server [.r rfsOpReaddir, .p, .l, .l] ((), (some name.mem,
          UInt32.ofNat (name.strlen + 1)), fsize.toUInt32, 0, ()) ∧
        packetLength [.r rfsOpReaddir, .p, .l, .l] ((), (some name.mem,
          UInt32.ofNat (name.strlen + 1)), fsize.toUInt32, 0, ()) ≤ rfsBufferSize := by
    intro m hm
    rw [serverExecuteRequest_readdir_some hm hres,
      serverFullname_eq_some_iff_nameSafe.mpr ⟨hsafe, rfl⟩, Option.bind_some, hopen]
    simp only [if_neg hfd, hseek]
    exact ⟨_, rfl, carries_genWrite m [.r rfsOpReaddir, .p, .l, .l] _,
      packetLength_readdirResponse_le name _ 0 (length_le_of_nameSafe hsafe)⟩
  refine (returns_iff_of_answer (fun _ => hans)
    fun m hm hle => interpret_readdir_some hm (hlen' ▸ hle)).trans (and_congr_left' ?_)
  rw [hlen, hlen']
  omega

theorem returns_readdir (d : UInt32) :
    Returns os basedir n (rfscReaddir n d) s
        ((RfsCall.rfscReaddir d).localResult os basedir c s.st) ↔
      (RfsCall.rfscReaddir d).Safe os basedir n s.st := by
  have hlen : (rfscReaddir n d).request.written = 23 := RfsPacket.written_eq _
  have hsize : rfsBufferSize = 4125 := rfl
  rw [RfsCall.Safe, RfsCall.localResult]
  generalize hres : os.readdir s.st d = res
  rcases res with ⟨_ | name, st⟩
  · refine (returns_iff_fits (fun hfit m hm => ?_)
      fun m hm hle => interpret_readdir_none hm hle).trans ?_
    · rw [serverExecuteRequest_readdir_none hm hres]
      exact ⟨_, rfl, carries_genWrite m [.r rfsOpReaddir, .p, .l, .l] _,
        show 33 ≤ rfsBufferSize by decide⟩
    · rw [hlen]
      change (_ ∧ _ ∧ 33 ≤ 2 ^ n.val) ↔ _
      omega
  · change _ ↔ EntrySafe os basedir n st name
    rw [EntrySafe]
    by_cases hsafe : NameSafe basedir.bytes name.bytes
    · rcases hopen : os.openFile st (joinName basedir.bytes name.bytes) rfsOpenFlagRdonly 0
        with ⟨fd, st₁⟩
      rcases hseek : os.lseek st₁ fd 0 rfsLseekEnd with ⟨fsize, st₂⟩
      simp only [hopen, hseek]
      rw [and_iff_right hsafe]
      by_cases hfd : fd = 0
      · subst hfd
        rw [returns_entry_zero hres hsafe hopen, if_neg (by decide), Prod.mk.injEq,
          RfsResult.entry.injEq, ite_eq_left_iff]
        change _ ∧ _ ∧ (os.close st₂ 0).2 = st₁ ↔ _
        constructor
        · rintro ⟨hle, hneg, hst⟩
          exact .inr ⟨rfl, not_not.mp fun h => Option.some_ne_none _ (hneg h), hst, hle⟩
        · rintro (⟨hpos, -⟩ | ⟨-, hneg, hst, hle⟩)
          · exact absurd hpos (by decide)
          · exact ⟨hle, fun h => absurd hneg h, hst⟩
      · rw [returns_entry hres hsafe hopen hseek hfd]
        constructor
        · rintro ⟨hle, heq⟩
          have hneg : ¬ fd < 0 := fun h => by
            rw [if_pos h] at heq
            cases congrArg Prod.fst heq
          have hend : ¬ fsize < 0 := fun h => by
            rw [if_neg hneg, if_pos h] at heq
            cases congrArg Prod.fst heq
          exact .inl ⟨Int32.lt_of_le_of_ne (Int32.not_lt.mp hneg) (Ne.symm hfd),
            Int32.not_lt.mp hend, hle⟩
        · rintro (⟨hpos, hend, hle⟩ | ⟨hzero, -⟩)
          · rw [if_neg (Int32.lt_asymm hpos), if_neg (Int32.not_lt.mpr hend)]
            exact ⟨hle, rfl⟩
          · exact absurd hzero hfd
    · refine iff_of_false (not_returns_of_run <| run_eq_none_of_none fun hfit m hm => ?_) fun h =>
        hsafe h.1
      rw [serverExecuteRequest_readdir_some hm hres, serverFullname_eq_none hsafe]
      rfl

/-- **One call.** It returns what the system does if and only if it meets the condition. -/
theorem returns_iff_safe (call : RfsCall) :
    Returns os basedir n (call.func c n) s (call.localResult os basedir c s.st) ↔
      call.Safe os basedir n s.st := by
  cases call with
  | rfscOpen pathname flags mode => exact returns_open pathname flags mode
  | rfscWrite fd buf => exact returns_write fd buf
  | rfscRead fd count => exact returns_read fd count
  | rfscLseek fd offset whence => exact returns_lseek fd offset whence
  | rfscClose fd => exact returns_close fd
  | rfscOpendir name => exact returns_opendir name
  | rfscReaddir d => exact returns_readdir d
  | rfscClosedir d => exact returns_closedir d

end Calls

/-- **Transparency.** The calls of a sequence return what the functions of the server's system
return for the same arguments if and only if each of them meets the condition. -/
theorem transparent_iff_allSafe {σ : Type} (os : Os σ) (basedir : CString) (c : SysConsts)
    (n : Fin 16) (s : Rfs σ) (calls : List RfsCall) :
    Transparent os basedir c n s calls ↔ AllSafe os basedir c n s.st calls := by
  induction calls generalizing s with
  | nil => exact Iff.rfl
  | cons call calls ih =>
    constructor
    · rintro ⟨s', hrun, hst, hcalls⟩
      refine ⟨(returns_iff_safe call).mp ⟨s', hrun, hst⟩, ?_⟩
      rw [← hst]
      exact (ih s').mp hcalls
    · rintro ⟨hsafe, hcalls⟩
      obtain ⟨s', hrun, hst⟩ := (returns_iff_safe call).mpr hsafe
      rw [← hst] at hcalls
      exact ⟨s', hrun, hst, (ih s').mpr hcalls⟩

/-- The directory that is closed has the handle seven. -/
theorem not_transparent_closedir :
    ¬ ∀ (σ : Type) (os : Os σ) (basedir : CString) (c : SysConsts) (n : Fin 16) (s : Rfs σ)
      (calls : List RfsCall), Transparent os basedir c n s calls := by
  intro h
  obtain ⟨s', hrun, hst, -⟩ := h ℕ (oneFile []) ⟨[0x2F], by decide, by decide⟩
    ⟨0, 0, 0, 0, 0, 0, 0, 0, 0, 0, 0⟩ 9 { st := 0 } [.rfscClosedir 7]
  have hsafe := (returns_iff_safe (.rfscClosedir 7)).mp ⟨s', hrun, hst⟩
  exact absurd hsafe.2 (by decide)

end ELuaBrain.Rpc
