import ELuaBrain.Rpc.Decode
import ELuaBrain.Rpc.Server

/-!
# The memory that the server uses

A handler of the server is defined if and only if it stays inside `rfs_buffer` and
`server_fullname`. Neither the lengths in the request nor what the system reads are compared with
the size of the buffer, and the bounds of `strncat` are on what is added and not on the result.
`RequestSafe` is the condition on a request under which this does no harm.

## Main definitions

* `NameSafe` : the name of a file fits behind the base directory.
* `RequestSafe` : the lengths in a request and what the system answers fit into the buffers.

## Main results

* `serverFullname_eq_some_iff_nameSafe` : where `server_fullname` is large enough.
* `serverExecuteRequest_isSome_iff` : where the server stays inside its buffers.
-/

namespace ELuaBrain.Rpc

/-! ### Names of files -/

/-- The separator that is put behind the base directory. -/
def separator (basedir : List UInt8) : List UInt8 :=
  if basedir.getLast? = some platformPathSeparator then [] else [platformPathSeparator]

/-- A name is empty, or fits with the base directory into `server_fullname`. -/
def NameSafe (basedir name : List UInt8) : Prop :=
  name = [] ∨ basedir ≠ [] ∧ (basedir ++ separator basedir ++ name).length ≤ platformMaxFnameLen

/-- The name of a file on the server: the base directory, a separator and the name. -/
def joinName (basedir name : List UInt8) : List UInt8 :=
  if name = [] then basedir.take platformMaxFnameLen else basedir ++ separator basedir ++ name

section Names

variable {basedir name : List UInt8}

theorem strncat_eq_some_iff {dst src full : List UInt8} {n : ℕ} :
    strncat dst src n = some full ↔
      (dst ++ src.take n).length ≤ platformMaxFnameLen ∧ dst ++ src.take n = full := by
  rw [strncat, Option.ite_none_right_eq_some, Option.some_inj]

/-- What is put behind a base directory that is not empty. -/
theorem serverFullname_eq_some_iff {full : List UInt8} (hname : name ≠ [])
    (hdir : basedir.take platformMaxFnameLen ≠ []) :
    serverFullname basedir name = some full ↔
      (basedir.take platformMaxFnameLen ++ separator (basedir.take platformMaxFnameLen) ++
        name.take platformMaxFnameLen).length ≤ platformMaxFnameLen ∧
      basedir.take platformMaxFnameLen ++ separator (basedir.take platformMaxFnameLen) ++
        name.take platformMaxFnameLen = full := by
  have hlast := List.getLast?_eq_some_getLast hdir
  have hsep : [platformPathSeparator].take platformMaxFnameLen = [platformPathSeparator] := rfl
  simp only [serverFullname, if_neg hname, hlast, separator, Option.some_inj, ne_eq, ite_not]
  split_ifs with hc
  · rw [Option.bind_some, strncat_eq_some_iff, List.append_nil]
  · rw [Option.bind_eq_some_iff]
    simp only [strncat_eq_some_iff, hsep]
    constructor
    · rintro ⟨_, ⟨-, rfl⟩, h⟩
      exact h
    · rintro ⟨hlen, h⟩
      refine ⟨_, ⟨?_, rfl⟩, hlen, h⟩
      rw [List.length_append] at hlen
      exact (Nat.le_add_right _ _).trans hlen

/-- **The name on the server.** The functions for strings stay inside `server_fullname` if and only
if the name fits there, and then it is the base directory with the name. -/
theorem serverFullname_eq_some_iff_nameSafe {full : List UInt8} :
    serverFullname basedir name = some full ↔
      NameSafe basedir name ∧ joinName basedir name = full := by
  by_cases hname : name = []
  · simp only [serverFullname, NameSafe, joinName, hname, true_or, true_and, Option.some_inj,
      if_true]
  · by_cases hdir : basedir = []
    · subst hdir
      simp [serverFullname, NameSafe, hname]
    · have hmax : platformMaxFnameLen = 2048 := rfl
      have hpos : 0 < name.length := List.length_pos_of_ne_nil hname
      have hdirpos : 0 < basedir.length := List.length_pos_of_ne_nil hdir
      have hdir' : basedir.take platformMaxFnameLen ≠ [] := by
        rw [Ne, List.take_eq_nil_iff, not_or]
        exact ⟨by decide, hdir⟩
      rw [serverFullname_eq_some_iff hname hdir', NameSafe, joinName, if_neg hname]
      constructor
      · rintro ⟨hlen, rfl⟩
        simp only [List.length_append, List.length_take] at hlen
        have htake : basedir.take platformMaxFnameLen = basedir :=
          List.take_of_length_le (by omega)
        have htake' : name.take platformMaxFnameLen = name := List.take_of_length_le (by omega)
        rw [htake, htake']
        refine ⟨.inr ⟨hdir, ?_⟩, rfl⟩
        rw [htake] at hlen
        simp only [List.length_append]
        omega
      · rintro ⟨hsafe, rfl⟩
        obtain ⟨-, hlen⟩ := hsafe.resolve_left hname
        have hlen' := hlen
        simp only [List.length_append] at hlen'
        rw [List.take_of_length_le (by omega : basedir.length ≤ _),
          List.take_of_length_le (by omega : name.length ≤ _)]
        exact ⟨hlen, rfl⟩

theorem serverFullname_eq_none (h : ¬ NameSafe basedir name) :
    serverFullname basedir name = none :=
  Option.eq_none_iff_forall_ne_some.mpr fun _ hfull =>
    h (serverFullname_eq_some_iff_nameSafe.mp hfull).1

/-- A name that fits is not longer than `server_fullname`. -/
theorem length_le_of_nameSafe (h : NameSafe basedir name) :
    name.length ≤ platformMaxFnameLen := by
  rcases h with rfl | ⟨-, hlen⟩
  · exact Nat.zero_le _
  · rw [List.length_append] at hlen
    exact (Nat.le_add_left _ _).trans hlen

end Names

/-! ### Requests -/

/-- The length of the name in a request to open a file or a directory. -/
def nameLength (m : Memory) : ℕ := (u32OfBytes (m 14) (m 15) (m 16) (m 17)).toNat

/-- The length of the data in a request to write. -/
def dataLength (m : Memory) : ℕ := (u32OfBytes (m 19) (m 20) (m 21) (m 22)).toNat

/-- The name at a pointer ends inside the buffer, and fits behind the base directory. -/
def StringSafe (basedir : CString) (m : Memory) (at? : Option ℕ) : Prop :=
  ∃ name, nameAt m at? = some name ∧ NameSafe basedir.bytes name

/-- The condition on a request under which the server stays inside its buffers. The lengths in the
request do not go behind the buffer, names end in it and fit into `server_fullname`, and what is
read from a file is read without an error and fits into the buffer with the response. -/
def RequestSafe {σ : Type} (os : Os σ) (basedir : CString) (m : Memory) (st : σ) : Prop :=
  ((getRequestId m).1 = true → (getRequestId m).2 = rfsOpOpen →
    34 + nameLength m ≤ rfsBufferSize ∧ ((remotefsOpenReadRequest .bits32 m).1 = true →
      StringSafe basedir m (remotefsOpenReadRequest .bits32 m).2.1)) ∧
  ((getRequestId m).1 = true → (getRequestId m).2 = rfsOpWrite →
    29 + dataLength m ≤ rfsBufferSize) ∧
  ((getRequestId m).1 = true → (getRequestId m).2 = rfsOpRead →
    (remotefsReadReadRequest .bits32 m).1 = true →
      ∃ bytes, (os.read st (remotefsReadReadRequest .bits32 m).2.1
          (remotefsReadReadRequest .bits32 m).2.2).1 = some bytes ∧
        23 + bytes.length ≤ rfsBufferSize) ∧
  ((getRequestId m).1 = true → (getRequestId m).2 = rfsOpOpendir →
    24 + nameLength m ≤ rfsBufferSize ∧ ((remotefsOpendirReadRequest .bits32 m).1 = true →
      StringSafe basedir m (remotefsOpendirReadRequest .bits32 m).2)) ∧
  ((getRequestId m).1 = true → (getRequestId m).2 = rfsOpReaddir →
    (remotefsReaddirReadRequest .bits32 m).1 = true →
      ∀ name ∈ (os.readdir st (remotefsReaddirReadRequest .bits32 m).2).1,
        NameSafe basedir.bytes name.bytes)

section Requests

variable {m : Memory} {s : Reader}

theorem readU32_fst (m : Memory) (s : Reader) :
    (readU32 m s).1 = u32OfBytes (m (s.p + 1)) (m (s.p + 2)) (m (s.p + 3)) (m (s.p + 4)) := by
  simp only [readU32, next, readExpect_p]

theorem readPtr_fst (m : Memory) (s : Reader) :
    (readPtr m s).1 = u32OfBytes (m (s.p + 2)) (m (s.p + 3)) (m (s.p + 4)) (m (s.p + 5)) := by
  rw [readPtr]
  dsimp only
  rw [readU32_fst, readExpect_p]

/-- Where the first field is the operation of a request, the fields behind it start at 12. -/
theorem expectOpId_p (m : Memory) (id : UInt8) :
    (expectOpId m id (matchPacketStart m { p := 0 })).p = 12 := by
  have hstart := matchPacketStart_reads (m := m)
  exact (hstart.trans (expectOpId_reads id hstart.far)).p

/-- How far the request to open a file is read. -/
theorem far_open (m : Memory) :
    (genReadState m .bits32 [.o rfsOpOpen, .p, .i, .i]).2.far = 34 + nameLength m := by
  have hlen : (genRead m .bits32 [.o rfsOpOpen, .p, .i, .i]).2.2.1.2 =
      u32OfBytes (m 14) (m 15) (m 16) (m 17) := by
    change (readPtr m (expectOpId m rfsOpOpen (matchPacketStart m { p := 0 }))).1 = _
    rw [readPtr_fst, expectOpId_p]
  rw [genReadState_far, genReadState_p, nameLength, ← hlen]
  generalize genRead m .bits32 [.o rfsOpOpen, .p, .i, .i] = r
  change 16 + (2 + (6 + r.2.2.1.2.toNat + (5 + (5 + 0)))) = _
  omega

/-- How far the request to write is read. -/
theorem far_write (m : Memory) :
    (genReadState m .bits32 [.o rfsOpWrite, .i, .p]).2.far = 29 + dataLength m := by
  have hlen : (genRead m .bits32 [.o rfsOpWrite, .i, .p]).2.2.2.1.2 =
      u32OfBytes (m 19) (m 20) (m 21) (m 22) := by
    change (readPtr m (readU32 m (expectOpId m rfsOpWrite (matchPacketStart m { p := 0 }))).2).1 = _
    rw [readPtr_fst]
    simp only [readU32, next, readExpect_p, expectOpId_p]
  rw [genReadState_far, genReadState_p, dataLength, ← hlen]
  generalize genRead m .bits32 [.o rfsOpWrite, .i, .p] = r
  change 16 + (2 + (5 + (6 + r.2.2.2.1.2.toNat + 0))) = _
  omega

/-- How far the request to open a directory is read. -/
theorem far_opendir (m : Memory) :
    (genReadState m .bits32 [.o rfsOpOpendir, .p]).2.far = 24 + nameLength m := by
  have hlen : (genRead m .bits32 [.o rfsOpOpendir, .p]).2.2.1.2 =
      u32OfBytes (m 14) (m 15) (m 16) (m 17) := by
    change (readPtr m (expectOpId m rfsOpOpendir (matchPacketStart m { p := 0 }))).1 = _
    rw [readPtr_fst, expectOpId_p]
  rw [genReadState_far, genReadState_p, nameLength, ← hlen]
  generalize genRead m .bits32 [.o rfsOpOpendir, .p] = r
  change 16 + (2 + (6 + r.2.2.1.2.toNat + 0)) = _
  omega

/-- A request without a block is read inside the buffer. -/
theorem readIn_of_plain {α : Type} {fs : List Field} (v : α)
    (h : ∀ as : Args fs, packetLength fs as ≤ 33) : readIn rfsBufferSize m fs v = some v := by
  rw [readIn, genReadState_far, genReadState_p]
  exact if_pos ((h _).trans (by decide))

end Requests

/-! ### The handlers -/

section Handlers

variable {σ : Type} {os : Os σ} {basedir : CString} {m : Memory} {st : σ}

/-- A handler that responds is defined if and only if the response fits into the buffer. -/
theorem isSome_writeIn {pk : RfsPacket} :
    ((writeIn rfsBufferSize m pk).bind fun m => some (true, m, st)).isSome ↔
      packetLength pk.fields pk.args ≤ rfsBufferSize := by
  rw [writeIn, RfsPacket.written_eq]
  split_ifs with h
  · exact iff_of_true rfl h
  · exact iff_of_false Bool.false_ne_true h

/-- What a handler does with a name is defined if and only if the name is safe. -/
theorem isSome_bind_name {β : Type} {at? : Option ℕ} {f : List UInt8 → Option β}
    (hf : ∀ fullname, (f fullname).isSome) :
    ((nameAt m at?).bind fun name => (serverFullname basedir.bytes name).bind f).isSome ↔
      StringSafe basedir m at? := by
  constructor
  · intro h
    obtain ⟨b, hb⟩ := Option.isSome_iff_exists.mp h
    obtain ⟨name, hname, hb⟩ := Option.bind_eq_some_iff.mp hb
    obtain ⟨fullname, hfull, -⟩ := Option.bind_eq_some_iff.mp hb
    exact ⟨name, hname, (serverFullname_eq_some_iff_nameSafe.mp hfull).1⟩
  · rintro ⟨name, hname, hsafe⟩
    rw [hname, Option.bind_some, serverFullname_eq_some_iff_nameSafe.mpr ⟨hsafe, rfl⟩,
      Option.bind_some]
    exact hf _

theorem serverOpen_isSome_iff :
    (serverOpen os basedir m st).isSome ↔
      34 + nameLength m ≤ rfsBufferSize ∧ ((remotefsOpenReadRequest .bits32 m).1 = true →
        StringSafe basedir m (remotefsOpenReadRequest .bits32 m).2.1) := by
  rw [serverOpen, readIn, far_open]
  generalize remotefsOpenReadRequest .bits32 m = r
  obtain ⟨ok, filename, flags, mode⟩ := r
  split_ifs with hfar
  · cases ok with
    | false => simp [hfar]
    | true =>
      refine (isSome_bind_name fun fullname => ?_).trans (by simp [hfar])
      exact isSome_writeIn.mpr (show 22 ≤ rfsBufferSize by decide)
  · simp [hfar]

theorem serverOpendir_isSome_iff :
    (serverOpendir os basedir m st).isSome ↔
      24 + nameLength m ≤ rfsBufferSize ∧ ((remotefsOpendirReadRequest .bits32 m).1 = true →
        StringSafe basedir m (remotefsOpendirReadRequest .bits32 m).2) := by
  rw [serverOpendir, readIn, far_opendir]
  generalize remotefsOpendirReadRequest .bits32 m = r
  obtain ⟨ok, name⟩ := r
  split_ifs with hfar
  · cases ok with
    | false => simp [hfar]
    | true =>
      refine (isSome_bind_name fun fullname => ?_).trans (by simp [hfar])
      exact isSome_writeIn.mpr (show 22 ≤ rfsBufferSize by decide)
  · simp [hfar]

/-- A block that was read lies where the decoder was. -/
theorem isSome_blockIn_readField {s : Reader} (h : s.far ≤ s.p)
    (hle : (readField m .p s).2.p ≤ rfsBufferSize) :
    (blockIn rfsBufferSize m (readField m .p s).1.2.toNat (readField m .p s).1.1).isSome := by
  have hwithin := (readField_within (m := m) .p h).mono hle
  have hp := readPtr_p (m := m) h
  rw [readField] at hwithin ⊢
  dsimp only at hwithin ⊢
  split_ifs with hnull
  · have hlen : (readPtr m s).1.toNat = 0 := by omega
    rw [blockIn, if_pos hlen]
    rfl
  · rw [if_neg hnull] at hwithin
    rw [blockIn, if_pos (hwithin _ rfl)]
    rfl

/-- The data of a request to write is in the part of the packet that was read. -/
theorem isSome_blockIn (h : 29 + dataLength m ≤ rfsBufferSize) :
    (blockIn rfsBufferSize m (remotefsWriteReadRequest .bits32 m).2.2.2.toNat
      (remotefsWriteReadRequest .bits32 m).2.2.1).isSome := by
  have hstart := matchPacketStart_reads (m := m)
  have hop := readField_reads (m := m) (.o rfsOpWrite) hstart.far
  have hfd := readField_reads (m := m) .i hop.far
  have hblock := readField_reads (m := m) .p hfd.far
  refine isSome_blockIn_readField hfd.far (le_trans ?_ h)
  have hend := (matchMarker_reads (m := m) typeEnd
    (show ULong.bits32.compl packetSig < 2 ^ 32 by decide) hblock.far).p
  rw [← far_write, genReadState_far]
  exact Nat.le.intro hend.symm

theorem serverWrite_isSome_iff :
    (serverWrite os m st).isSome ↔ 29 + dataLength m ≤ rfsBufferSize := by
  have hblock := isSome_blockIn (m := m)
  rw [serverWrite, readIn, far_write]
  generalize remotefsWriteReadRequest .bits32 m = r at hblock
  obtain ⟨ok, fd, buf, count⟩ := r
  split_ifs with hfar
  · refine iff_of_true ?_ hfar
    cases ok with
    | false => rfl
    | true =>
      obtain ⟨data, hdata⟩ := Option.isSome_iff_exists.mp (hblock hfar)
      rw [Option.bind_eq_bind, Option.bind_some]
      dsimp only
      rw [if_pos rfl, hdata, Option.bind_eq_bind, Option.bind_some]
      exact isSome_writeIn.mpr (show 22 ≤ rfsBufferSize by decide)
  · exact iff_of_false Bool.false_ne_true hfar

theorem serverRead_isSome_iff :
    (serverRead os m st).isSome ↔ ((remotefsReadReadRequest .bits32 m).1 = true →
      ∃ bytes, (os.read st (remotefsReadReadRequest .bits32 m).2.1
          (remotefsReadReadRequest .bits32 m).2.2).1 = some bytes ∧
        23 + bytes.length ≤ rfsBufferSize) := by
  have hreq : ∀ v : Bool × Int32 × UInt32, readIn rfsBufferSize m [.o rfsOpRead, .i, .l] v =
      some v :=
    fun v => readIn_of_plain v fun as => show 28 ≤ 33 by decide
  rw [serverRead, hreq]
  generalize remotefsReadReadRequest .bits32 m = r
  obtain ⟨ok, fd, count⟩ := r
  cases ok with
  | false => simp
  | true =>
    simp only [Option.bind_eq_bind, Option.bind_some, if_true, forall_const]
    have hlen := os.read_length_le st fd count
    generalize os.read st fd count = res at hlen
    rcases res with ⟨_ | bytes, st'⟩
    · have hfit : ¬ 23 + (-1 : Int32).toUInt32.toNat ≤ rfsBufferSize := by decide
      exact iff_of_false (fun h => hfit (isSome_writeIn.mp h)) (by simp)
    · have hlt : bytes.length < 2 ^ 32 := (hlen bytes rfl).trans_lt count.toNat_lt
      have hbytes : (UInt32.ofNat bytes.length).toNat = bytes.length :=
        UInt32.toNat_ofNat_of_lt' hlt
      have hresp : ((writeIn rfsBufferSize (m.overlay readBufOffset bytes)
          (.readResponse (UInt32.ofNat bytes.length))).bind fun m => some (true, m, st')).isSome ↔
          16 + (1 + (6 + (UInt32.ofNat bytes.length).toNat + 0)) ≤ rfsBufferSize :=
        isSome_writeIn
      rw [hbytes] at hresp
      simp only [Option.some_inj, exists_eq_left']
      split_ifs with hfit
      · rw [hresp]
        omega
      · refine iff_of_false Bool.false_ne_true ?_
        rw [readBufOffset] at hfit
        omega

/-- The response with an entry whose name fits into `server_fullname`. -/
theorem packetLength_readdirResponse_le (name : CString) (size ftime : UInt32)
    (h : name.bytes.length ≤ platformMaxFnameLen) :
    packetLength (RfsPacket.readdirResponse (some name) size ftime).fields
      (RfsPacket.readdirResponse (some name) size ftime).args ≤ rfsBufferSize := by
  change 16 + (1 + (6 + (UInt32.ofNat (name.strlen + 1)).toNat + (5 + (5 + 0)))) ≤ _
  have hsize : rfsBufferSize = 4125 := rfl
  have hmax : platformMaxFnameLen = 2048 := rfl
  rw [name.toNat_ofNat_strlen, CString.strlen]
  omega

theorem serverClose_isSome : (serverClose os m st).isSome := by
  have hreq : ∀ v : Bool × Int32, readIn rfsBufferSize m [.o rfsOpClose, .i] v = some v :=
    fun v => readIn_of_plain v fun as => show 23 ≤ 33 by decide
  rw [serverClose, hreq]
  generalize remotefsCloseReadRequest .bits32 m = r
  obtain ⟨ok, fd⟩ := r
  cases ok with
  | false => rfl
  | true =>
    simp only [Option.bind_eq_bind, Option.bind_some, if_true]
    exact isSome_writeIn.mpr (show 22 ≤ rfsBufferSize by decide)

theorem serverLseek_isSome : (serverLseek os m st).isSome := by
  have hreq : ∀ v : Bool × Int32 × Int32 × Int32,
      readIn rfsBufferSize m [.o rfsOpLseek, .i, .L, .i] v = some v :=
    fun v => readIn_of_plain v fun as => show 33 ≤ 33 by decide
  rw [serverLseek, hreq]
  generalize remotefsLseekReadRequest .bits32 m = r
  obtain ⟨ok, fd, offset, whence⟩ := r
  cases ok with
  | false => rfl
  | true =>
    simp only [Option.bind_eq_bind, Option.bind_some, if_true]
    exact isSome_writeIn.mpr (show 22 ≤ rfsBufferSize by decide)

theorem serverClosedir_isSome : (serverClosedir os m st).isSome := by
  have hreq : ∀ v : Bool × UInt32, readIn rfsBufferSize m [.o rfsOpClosedir, .l] v = some v :=
    fun v => readIn_of_plain v fun as => show 23 ≤ 33 by decide
  rw [serverClosedir, hreq]
  generalize remotefsClosedirReadRequest .bits32 m = r
  obtain ⟨ok, d⟩ := r
  cases ok with
  | false => rfl
  | true =>
    simp only [Option.bind_eq_bind, Option.bind_some, if_true]
    exact isSome_writeIn.mpr (show 22 ≤ rfsBufferSize by decide)

/-- A name that fits into `server_fullname` fits into the buffer with the response. -/
theorem serverReaddir_isSome_iff :
    (serverReaddir os basedir m st).isSome ↔ ((remotefsReaddirReadRequest .bits32 m).1 = true →
      ∀ name ∈ (os.readdir st (remotefsReaddirReadRequest .bits32 m).2).1,
        NameSafe basedir.bytes name.bytes) := by
  have hreq : ∀ v : Bool × UInt32, readIn rfsBufferSize m [.o rfsOpReaddir, .l] v = some v :=
    fun v => readIn_of_plain v fun as => show 23 ≤ 33 by decide
  rw [serverReaddir, hreq]
  generalize remotefsReaddirReadRequest .bits32 m = r
  obtain ⟨ok, d⟩ := r
  cases ok with
  | false => simp
  | true =>
    simp only [Option.bind_eq_bind, Option.bind_some, if_true, forall_const]
    rcases os.readdir st d with ⟨_ | name, st'⟩
    · exact iff_of_true (isSome_writeIn.mpr (show 33 ≤ rfsBufferSize by decide)) (by simp)
    · simp only [Option.mem_def, Option.some_inj, forall_eq']
      constructor
      · intro h
        obtain ⟨b, hb⟩ := Option.isSome_iff_exists.mp h
        obtain ⟨fullname, hfull, -⟩ := Option.bind_eq_some_iff.mp hb
        exact (serverFullname_eq_some_iff_nameSafe.mp hfull).1
      · intro hsafe
        rw [serverFullname_eq_some_iff_nameSafe.mpr ⟨hsafe, rfl⟩, Option.bind_some]
        split_ifs with hfd
        · exact isSome_writeIn.mpr
            (packetLength_readdirResponse_le name _ 0 (length_le_of_nameSafe hsafe))
        · exact isSome_writeIn.mpr (show 33 ≤ rfsBufferSize by decide)

end Handlers

/-- A system with one file, which is always open, and one empty directory. The state is the place in
the file. -/
def oneFile (content : List UInt8) : Os ℕ where
  openFile st _ _ _ := (3, st)
  write st _ data := (Int32.ofNat data.length, st)
  read st _ count :=
    (some ((content.drop st).take count.toNat), min content.length (st + count.toNat))
  close st _ := (0, st)
  lseek _ _ offset _ := (offset, offset.toNatClampNeg)
  opendir st _ := (7, st)
  readdir st _ := (none, st)
  closedir st _ := (0, st)
  read_length_le st fd count bytes hbytes := by
    obtain rfl := Option.some.inj hbytes
    exact List.length_take_le _ _
  write_le st _ data _ := Nat.mod_le _ _

end ELuaBrain.Rpc
