import ELuaBrain.Rpc.Transparent

/-!
# Reading and writing in parts

`rfs_read_r` and `rfs_write_r` of `elua_rfs.c`. The bytes are transferred in parts, each with one
request, that are as long as the buffer of the client allows; the first part that is short or fails
is the last one. Together the parts make one transfer, but an error of the first one is returned as
the number zero, and the sum of the parts is a number of 32 bits with a sign.

## Main definitions

* `FileView` : an open file of the system: its bytes and the offset in it.
* `ReadsTo`, `WritesTo` : one transfer of a file.
* `rfsReadR`, `rfsWriteR` : the functions of the client.
* `ReadsAsPosix`, `WritesAsPosix` : they do what one function of POSIX would do.

## Main results

* `rfs_asPosix_iff` : when they do.
-/

namespace ELuaBrain.Rpc

/-! ### Transfers of a file -/

/-- A file that is open under a descriptor: its bytes, and the offset at which the next transfer
starts. What the functions of the system transfer is at this offset, which they move on. -/
structure FileView {σ : Type} (os : Os σ) (fd : Int32) where
  content : σ → Memory
  offset : σ → ℕ
  read_some : ∀ {st count bytes st'}, os.read st fd count = (some bytes, st') →
    bytes = (content st).slice (offset st) bytes.length ∧ content st' = content st ∧
      offset st' = offset st + bytes.length
  read_none : ∀ {st count st'}, os.read st fd count = (none, st') →
    content st' = content st ∧ offset st' = offset st
  write_some : ∀ {st data res st'}, os.write st fd data = (res, st') → res ≠ -1 →
    content st' = (content st).overlay (offset st) (data.take res.toUInt32.toNat) ∧
      offset st' = offset st + res.toUInt32.toNat
  write_none : ∀ {st data st'}, os.write st fd data = (-1, st') →
    content st' = content st ∧ offset st' = offset st

namespace FileView

variable {σ : Type} {os : Os σ} {fd : Int32} (view : FileView os fd)

/-- Nothing is transferred. -/
def Same (st st' : σ) : Prop :=
    view.content st' = view.content st ∧ view.offset st' = view.offset st

/-- The bytes are those of the file from the offset on, and the offset is then behind them. -/
def ReadsTo (st st' : σ) (bytes : List UInt8) : Prop :=
  bytes = (view.content st).slice (view.offset st) bytes.length ∧
    view.content st' = view.content st ∧ view.offset st' = view.offset st + bytes.length

/-- The bytes are put into the file from the offset on, and the offset is then behind them. -/
def WritesTo (st st' : σ) (bytes : List UInt8) : Prop :=
  view.content st' = (view.content st).overlay (view.offset st) bytes ∧
    view.offset st' = view.offset st + bytes.length

variable {view} {st st' st'' : σ} {bs cs : List UInt8}

theorem Same.readsTo (h : view.Same st st') : view.ReadsTo st st' [] := ⟨rfl, h⟩

theorem Same.writesTo (h : view.Same st st') : view.WritesTo st st' [] := by
  rw [WritesTo, Memory.overlay_nil]
  exact h

theorem same_refl (st : σ) : view.Same st st := ⟨rfl, rfl⟩

/-- Two transfers one after the other are one. -/
theorem ReadsTo.trans (h : view.ReadsTo st st' bs) (h' : view.ReadsTo st' st'' cs) :
    view.ReadsTo st st'' (bs ++ cs) := by
  obtain ⟨hbs, hcont, hoff⟩ := h
  obtain ⟨hcs, hcont', hoff'⟩ := h'
  rw [hcont, hoff] at hcs
  refine ⟨?_, hcont'.trans hcont, ?_⟩
  · rw [List.length_append, Memory.slice_add, ← hbs, ← hcs]
  · rw [hoff', hoff, List.length_append, Nat.add_assoc]

theorem WritesTo.trans (h : view.WritesTo st st' bs) (h' : view.WritesTo st' st'' cs) :
    view.WritesTo st st'' (bs ++ cs) := by
  obtain ⟨hcont, hoff⟩ := h
  obtain ⟨hcont', hoff'⟩ := h'
  refine ⟨?_, ?_⟩
  · rw [hcont', hcont, hoff, Memory.overlay_overlay]
  · rw [hoff', hoff, List.length_append, Nat.add_assoc]

end FileView

/-! ### The functions -/

/-- `RFS_REAL_BUFFER_SIZE`, as the unsigned number that a length is compared with. -/
def rfsRealBufferSize (n : Fin 16) : ℕ :=
  (UInt32.ofNat (2 ^ n.val) - UInt32.ofNat writeRequestExtra).toNat

theorem rfsRealBufferSize_pos : ∀ n : Fin 16, 0 < rfsRealBufferSize n := by decide

/-- The result code of a call. -/
def RfsResult.code : RfsResult → Int32
  | int res => res
  | data res _ => res
  | dir d => d.toInt32
  | entry _ => 0

/-- The bytes that a call has read. -/
def RfsResult.bytes : RfsResult → List UInt8
  | data _ bytes => bytes
  | _ => []

namespace Block

/-- The first bytes of a block. -/
def take (b : Block) (k : ℕ) : Block where
  bytes := b.bytes.take k
  length_lt := (List.length_take_le' _ _).trans_lt b.length_lt

/-- The bytes behind them. -/
def drop (b : Block) (k : ℕ) : Block where
  bytes := b.bytes.drop k
  length_lt := by
    rw [List.length_drop]
    exact (Nat.sub_le _ _).trans_lt b.length_lt

end Block

section Functions

variable {σ : Type} (os : Os σ) (basedir : CString) (n : Fin 16) (fd : Int32)

/-- The loop of `rfs_write_r`. -/
def rfsWriteLoop (total : Int32) (data : Block) (s : Rfs σ) : Option (Int32 × Rfs σ) :=
  if data.bytes = [] then some (total, s)
  else
    let towrite := min data.bytes.length (rfsRealBufferSize n)
    ((rfscWrite n fd (data.take towrite)).run os basedir n s).bind fun (res, s) =>
      if res.code = -1 then some (total, s)
      else if res.code.toUInt32.toNat < towrite then some (total + res.code, s)
      else rfsWriteLoop (total + res.code) (data.drop towrite) s
termination_by data.bytes.length
decreasing_by
  have hpos := List.length_pos_of_ne_nil ‹¬ data.bytes = []›
  have hreal := rfsRealBufferSize_pos n
  rw [Block.drop, List.length_drop]
  omega

/-- `rfs_write_r`. -/
def rfsWriteR (data : Block) (s : Rfs σ) : Option (Int32 × Rfs σ) :=
  rfsWriteLoop os basedir n fd 0 data s

/-- The loop of `rfs_read_r`, with the bytes that were put into the buffer of the caller. -/
def rfsReadLoop (total : Int32) (bytes : List UInt8) (len : ℕ) (s : Rfs σ) :
    Option (Int32 × List UInt8 × Rfs σ) :=
  if len = 0 then some (total, bytes, s)
  else
    let toread := min len (rfsRealBufferSize n)
    ((rfscRead n fd (UInt32.ofNat toread)).run os basedir n s).bind fun (res, s) =>
      if res.code = -1 then some (total, bytes, s)
      else if res.code.toUInt32.toNat < toread then
        some (total + res.code, bytes ++ res.bytes, s)
      else rfsReadLoop (total + res.code) (bytes ++ res.bytes) (len - toread) s
termination_by len
decreasing_by
  have hreal := rfsRealBufferSize_pos n
  omega

/-- `rfs_read_r`. -/
def rfsReadR (len : UInt32) (s : Rfs σ) : Option (Int32 × List UInt8 × Rfs σ) :=
  rfsReadLoop os basedir n fd 0 [] len.toNat s

end Functions

/-! ### What the system transfers -/

section Transferred

variable {σ : Type} (os : Os σ) (n : Fin 16) (fd : Int32)

/-- The number of bytes that `os_write` transfers, part by part, until one is short or fails. -/
def osWritten (data : Block) (st : σ) : ℕ :=
  if data.bytes = [] then 0
  else
    let towrite := min data.bytes.length (rfsRealBufferSize n)
    let (res, st) := os.write st fd (data.take towrite).bytes
    if res = -1 then 0
    else if res.toUInt32.toNat < towrite then res.toUInt32.toNat
    else towrite + osWritten (data.drop towrite) st
termination_by data.bytes.length
decreasing_by
  have hpos := List.length_pos_of_ne_nil ‹¬ data.bytes = []›
  have hreal := rfsRealBufferSize_pos n
  rw [Block.drop, List.length_drop]
  omega

/-- The bytes that `os_read` gives, part by part, until one is short. There are none if there is an
error, or if a part does not fit into the buffers with its response. -/
def osRead (len : ℕ) (st : σ) : Option (List UInt8) :=
  if len = 0 then some []
  else
    let toread := min len (rfsRealBufferSize n)
    match os.read st fd (UInt32.ofNat toread) with
    | (none, _) => none
    | (some bytes, st) =>
        if 23 + bytes.length ≤ 2 ^ n.val ∧ 23 + bytes.length ≤ rfsBufferSize then
          if bytes.length < toread then some bytes
          else (osRead (len - toread) st).map (bytes ++ ·)
        else none
termination_by len
decreasing_by
  have hreal := rfsRealBufferSize_pos n
  omega

end Transferred

/-! ### Writing -/

theorem ofNat_toNat_toUInt32 (x : Int32) : Int32.ofNat x.toUInt32.toNat = x := by
  rw [← Int32.toBitVec_inj]
  exact (BitVec.ofNat_toNat 32 _).trans (BitVec.setWidth_eq _)

section Writing

variable {σ : Type} {os : Os σ} (basedir : CString) {n : Fin 16} {fd : Int32}

/-- One part. -/
theorem run_write (buf : Block) (s : Rfs σ) (h : Fits n (29 + buf.bytes.length)) :
    ∃ s', (rfscWrite n fd buf).run os basedir n s =
        some (.int (os.write s.st fd buf.bytes).1, s') ∧
      s'.st = (os.write s.st fd buf.bytes).2 :=
  (returns_write (c := default) fd buf).mpr h

/-- A part that does not fit into the buffers. -/
theorem run_write_eq_none {data : Block} {s : Rfs σ} {towrite : ℕ}
    (hto : towrite ≤ data.bytes.length) (h : ¬ Fits n (29 + towrite)) :
    (rfscWrite n fd (data.take towrite)).run os basedir n s = none := by
  refine run_eq_none_of_unfit fun hfit => h ?_
  have hlen : (data.take towrite).bytes.length = towrite := by
    rw [Block.take, List.length_take, Nat.min_eq_left hto]
  rw [length_rfscWrite, hlen] at hfit
  exact hfit

/-- One part of what is written, and the parts behind it. -/
theorem osWritten_eq {data : Block} {st st' : σ} {res : Int32} {towrite : ℕ}
    (hnil : data.bytes ≠ []) (hto : min data.bytes.length (rfsRealBufferSize n) = towrite)
    (hres : os.write st fd (data.take towrite).bytes = (res, st')) :
    osWritten os n fd data st =
      if res = -1 then 0
      else if res.toUInt32.toNat < towrite then res.toUInt32.toNat
      else towrite + osWritten os n fd (data.drop towrite) st' := by
  rw [osWritten, if_neg hnil]
  simp only [hto, hres]

/-- The same for the loop. -/
theorem rfsWriteLoop_of_run {total : Int32} {data : Block} {s s' : Rfs σ} {res : Int32}
    {towrite : ℕ} (hnil : data.bytes ≠ [])
    (hto : min data.bytes.length (rfsRealBufferSize n) = towrite)
    (hrun : (rfscWrite n fd (data.take towrite)).run os basedir n s = some (.int res, s')) :
    rfsWriteLoop os basedir n fd total data s =
      if res = -1 then some (total, s')
      else if res.toUInt32.toNat < towrite then some (total + res, s')
      else rfsWriteLoop os basedir n fd (total + res) (data.drop towrite) s' := by
  rw [rfsWriteLoop, if_neg hnil]
  simp only [hto, hrun]
  rfl

/-- **The loop.** If the first part fits into the buffers, the others do, and what is transferred is
the beginning of the data. -/
theorem rfsWriteLoop_eq (view : FileView os fd) (total : Int32) (data : Block) (s : Rfs σ)
    (h : data.bytes ≠ [] → Fits n (29 + min data.bytes.length (rfsRealBufferSize n))) :
    ∃ s', rfsWriteLoop os basedir n fd total data s =
        some (total + Int32.ofNat (osWritten os n fd data s.st), s') ∧
      view.WritesTo s.st s'.st (data.bytes.take (osWritten os n fd data s.st)) ∧
      osWritten os n fd data s.st ≤ data.bytes.length := by
  induction hk : data.bytes.length using Nat.strong_induction_on generalizing total data s with
  | _ k ih =>
    subst hk
    by_cases hnil : data.bytes = []
    · rw [rfsWriteLoop, osWritten, if_pos hnil, if_pos hnil]
      refine ⟨s, by simp, ?_, Nat.zero_le _⟩
      rw [List.take_zero]
      exact (FileView.same_refl _).writesTo
    · have hpos := List.length_pos_of_ne_nil hnil
      have hreal := rfsRealBufferSize_pos n
      have hfits := h hnil
      generalize hto : min data.bytes.length (rfsRealBufferSize n) = towrite at hfits
      have hlen : (data.take towrite).bytes.length = towrite := by
        rw [Block.take, List.length_take]
        omega
      have hpart : Fits n (29 + (data.take towrite).bytes.length) := by rwa [hlen]
      obtain ⟨s₁, hrun, hst⟩ := run_write basedir (data.take towrite) s hpart
      have hbound := os.write_le s.st fd (data.take towrite).bytes
      rcases hres : os.write s.st fd (data.take towrite).bytes with ⟨res, st⟩
      rw [hres] at hrun hst hbound
      have hle : res ≠ -1 → res.toUInt32.toNat ≤ towrite := hlen ▸ hbound
      obtain rfl : s₁.st = st := hst
      rw [osWritten_eq hnil hto hres, rfsWriteLoop_of_run basedir hnil hto hrun]
      by_cases herr : res = -1
      · subst herr
        rw [if_pos rfl, if_pos rfl]
        refine ⟨s₁, by simp, ?_, Nat.zero_le _⟩
        rw [List.take_zero]
        exact FileView.Same.writesTo (view.write_none hres)
      · have hpart := view.write_some hres herr
        rw [Block.take, List.take_take, Nat.min_eq_left (hle herr)] at hpart
        have hle := hle herr
        rw [if_neg herr, if_neg herr]
        by_cases hshort : res.toUInt32.toNat < towrite
        · rw [if_pos hshort, if_pos hshort]
          refine ⟨s₁, by rw [ofNat_toNat_toUInt32], ⟨hpart.1, ?_⟩, by omega⟩
          rw [hpart.2, List.length_take]
          omega
        · have hfull : res.toUInt32.toNat = towrite := by omega
          have hdrop : (data.drop towrite).bytes.length = data.bytes.length - towrite := by
            rw [Block.drop, List.length_drop]
          have hnext : (data.drop towrite).bytes ≠ [] → Fits n
              (29 + min (data.drop towrite).bytes.length (rfsRealBufferSize n)) := fun _ => by
            rw [Fits] at hfits ⊢
            omega
          obtain ⟨s', hloop, hwrites, hle'⟩ := ih _ (by omega) (total + res) _ s₁ hnext rfl
          rw [hfull] at hpart
          rw [if_neg hshort, if_neg hshort]
          refine ⟨s', ?_, ?_, by omega⟩
          · rw [hloop, Int32.add_assoc, Int32.ofNat_add, ← hfull, ofNat_toNat_toUInt32]
          · rw [List.take_add]
            refine FileView.WritesTo.trans ⟨hpart.1, ?_⟩ hwrites
            rw [hpart.2, List.length_take]
            omega

end Writing

/-! ### Reading -/

section Reading

variable {σ : Type} {os : Os σ} (basedir : CString) {n : Fin 16} {fd : Int32}

/-- The request for data fits where the data does, since the size of the buffer is a power of two.
-/
theorem Fits.request {k : ℕ} (h : Fits n (23 + k)) : 28 ≤ 2 ^ n.val := by
  have hpow : ∀ n : Fin 16, 23 ≤ 2 ^ n.val → 28 ≤ 2 ^ n.val := by decide
  exact hpow n ((Nat.le_add_right _ _).trans h.1)

/-- One part. -/
theorem run_read {count : UInt32} {s : Rfs σ} {bytes : List UInt8} {st : σ}
    (hres : os.read s.st fd count = (some bytes, st)) (h : Fits n (23 + bytes.length)) :
    ∃ s', (rfscRead n fd count).run os basedir n s =
        some (.data (Int32.ofNat bytes.length) bytes, s') ∧ s'.st = st := by
  have hret : Returns os basedir n (rfscRead n fd count) s
      ((RfsCall.rfscRead fd count).localResult os basedir default s.st) :=
    (returns_read fd count).mpr ⟨h.request, bytes, congrArg Prod.fst hres, h⟩
  rw [RfsCall.localResult, hres] at hret
  exact hret

/-- A part that is read with an error, or does not fit into the buffers. -/
theorem run_read_eq_none {count : UInt32} {s : Rfs σ}
    (h : ¬ ∃ bytes st, os.read s.st fd count = (some bytes, st) ∧ Fits n (23 + bytes.length)) :
    (rfscRead n fd count).run os basedir n s = none := by
  by_cases hn : 28 ≤ 2 ^ n.val
  swap
  · exact run_eq_none_of_unfit fun hfit => hn hfit.1
  rcases hres : os.read s.st fd count with ⟨_ | bytes, st⟩
  · refine run_eq_none_of_none fun hfit m hm => ?_
    rw [serverExecuteRequest_read hm, hres]
  · have hbound := os.read_length_le s.st fd count
    rw [hres] at hbound
    have hlt : bytes.length < 2 ^ 32 := (hbound bytes rfl).trans_lt count.toNat_lt
    by_cases hfits : 23 + bytes.length ≤ rfsBufferSize
    · have hlen := packetLength_readResponse hlt
      exact run_eq_none_of_answer (fun m hm => answer_read hres hfits hm)
        fun hle => h ⟨bytes, st, hres, hlen ▸ hle, hfits⟩
    · refine run_eq_none_of_none fun hfit m hm => ?_
      rw [serverExecuteRequest_read hm, hres]
      exact if_neg hfits

/-- One part of what is read, and the parts behind it. -/
theorem osRead_eq {len : ℕ} {st st' : σ} {bytes : List UInt8} {toread : ℕ} (hzero : len ≠ 0)
    (hto : min len (rfsRealBufferSize n) = toread)
    (hres : os.read st fd (UInt32.ofNat toread) = (some bytes, st'))
    (h : Fits n (23 + bytes.length)) :
    osRead os n fd len st =
      if bytes.length < toread then some bytes
      else (osRead os n fd (len - toread) st').map (bytes ++ ·) := by
  rw [osRead, if_neg hzero]
  simp only [hto, hres]
  exact if_pos h

/-- A first part is there if something was read. -/
theorem osRead_part {len : ℕ} {st : σ} {bytes : List UInt8} {toread : ℕ} (hzero : len ≠ 0)
    (hto : min len (rfsRealBufferSize n) = toread) (h : osRead os n fd len st = some bytes) :
    ∃ part st', os.read st fd (UInt32.ofNat toread) = (some part, st') ∧
      Fits n (23 + part.length) := by
  rw [osRead, if_neg hzero] at h
  simp only [hto] at h
  rcases hres : os.read st fd (UInt32.ofNat toread) with ⟨_ | part, st'⟩
  · rw [hres] at h
    cases h
  · rw [hres] at h
    exact ⟨part, st', rfl, (Option.ite_none_right_eq_some.mp h).1⟩

/-- The same for the loop. -/
theorem rfsReadLoop_of_run {total : Int32} {acc : List UInt8} {len : ℕ} {s s' : Rfs σ}
    {bytes : List UInt8} {toread : ℕ} (hzero : len ≠ 0)
    (hto : min len (rfsRealBufferSize n) = toread) (hlt : 23 + bytes.length ≤ rfsBufferSize)
    (hrun : (rfscRead n fd (UInt32.ofNat toread)).run os basedir n s =
      some (.data (Int32.ofNat bytes.length) bytes, s')) :
    rfsReadLoop os basedir n fd total acc len s =
      if bytes.length < toread then
        some (total + Int32.ofNat bytes.length, acc ++ bytes, s')
      else rfsReadLoop os basedir n fd (total + Int32.ofNat bytes.length) (acc ++ bytes)
        (len - toread) s' := by
  have hsize : rfsBufferSize = 4125 := rfl
  have hnat : (Int32.ofNat bytes.length).toUInt32.toNat = bytes.length := by
    rw [Int32.toUInt32_ofNat', UInt32.toNat_ofNat_of_lt' (by omega : bytes.length < 2 ^ 32)]
  have hne : Int32.ofNat bytes.length ≠ -1 := fun h => by
    rw [h] at hnat
    have hlen : 4294967295 = bytes.length := hnat
    omega
  rw [rfsReadLoop, if_neg hzero]
  simp only [hto, hrun, Option.bind_some]
  change (if Int32.ofNat bytes.length = -1 then _ else
    if (Int32.ofNat bytes.length).toUInt32.toNat < toread then _ else _) = _
  rw [if_neg hne, hnat]
  rfl

/-- **The loop.** What is read are the parts that the system gives, and they are the bytes of the
file. -/
theorem rfsReadLoop_eq (view : FileView os fd) (total : Int32) (acc : List UInt8) (len : ℕ)
    (s : Rfs σ) {bytes : List UInt8} (h : osRead os n fd len s.st = some bytes) :
    ∃ s', rfsReadLoop os basedir n fd total acc len s =
        some (total + Int32.ofNat bytes.length, acc ++ bytes, s') ∧
      view.ReadsTo s.st s'.st bytes ∧ bytes.length ≤ len := by
  induction len using Nat.strong_induction_on generalizing total acc s bytes with
  | _ len ih =>
    by_cases hzero : len = 0
    · rw [osRead, if_pos hzero] at h
      obtain rfl := Option.some.inj h
      rw [rfsReadLoop, if_pos hzero]
      exact ⟨s, by simp, (FileView.same_refl _).readsTo, Nat.zero_le _⟩
    · have hreal := rfsRealBufferSize_pos n
      generalize hto : min len (rfsRealBufferSize n) = toread
      obtain ⟨part, st, hres, hfits⟩ := osRead_part hzero hto h
      obtain ⟨s₁, hrun, rfl⟩ := run_read basedir hres hfits
      have hle : part.length ≤ toread := by
        have hbound := os.read_length_le s.st fd (UInt32.ofNat toread)
        rw [hres] at hbound
        exact (hbound part rfl).trans (Nat.mod_le _ _)
      have hpart := view.read_some hres
      rw [osRead_eq hzero hto hres hfits] at h
      rw [rfsReadLoop_of_run basedir hzero hto hfits.2 hrun]
      by_cases hshort : part.length < toread
      · rw [if_pos hshort] at h
        obtain rfl := Option.some.inj h
        rw [if_pos hshort]
        exact ⟨s₁, rfl, hpart, by omega⟩
      · rw [if_neg hshort] at h
        obtain ⟨rest, hrest, rfl⟩ := Option.map_eq_some_iff.mp h
        obtain ⟨s', hloop, hreads, hle'⟩ :=
          ih (len - toread) (by omega) (total + Int32.ofNat part.length) (acc ++ part) s₁ hrest
        rw [if_neg hshort]
        refine ⟨s', ?_, FileView.ReadsTo.trans hpart hreads, ?_⟩
        · rw [hloop, List.length_append, Int32.ofNat_add, Int32.add_assoc, List.append_assoc]
        · rw [List.length_append]
          omega

/-- If a part fails or does not fit, the client does not get to an end. -/
theorem rfsReadLoop_eq_none (total : Int32) (acc : List UInt8) (len : ℕ) (s : Rfs σ)
    (h : osRead os n fd len s.st = none) :
    rfsReadLoop os basedir n fd total acc len s = none := by
  induction len using Nat.strong_induction_on generalizing total acc s with
  | _ len ih =>
    by_cases hzero : len = 0
    · rw [osRead, if_pos hzero] at h
      cases h
    · have hreal := rfsRealBufferSize_pos n
      generalize hto : min len (rfsRealBufferSize n) = toread
      by_cases hpart : ∃ part st, os.read s.st fd (UInt32.ofNat toread) = (some part, st) ∧
          Fits n (23 + part.length)
      · obtain ⟨part, st, hres, hfits⟩ := hpart
        obtain ⟨s₁, hrun, rfl⟩ := run_read basedir hres hfits
        rw [osRead_eq hzero hto hres hfits] at h
        rw [rfsReadLoop_of_run basedir hzero hto hfits.2 hrun]
        by_cases hshort : part.length < toread
        · rw [if_pos hshort] at h
          cases h
        · rw [if_neg hshort] at h ⊢
          exact ih (len - toread) (by omega) _ _ s₁ (Option.map_eq_none_iff.mp h)
      · rw [rfsReadLoop, if_neg hzero]
        simp only [hto, run_read_eq_none basedir hpart]
        rfl

end Reading

/-! ### One transfer -/

section Posix

variable {σ : Type} (os : Os σ) (basedir : CString) (n : Fin 16) (fd : Int32)

/-- `rfs_write_r` does what one function to write would do. It returns -1 if the first part fails,
and else the number of bytes that were put into the file, which are the first ones of the data. -/
def WritesAsPosix (view : FileView os fd) (data : Block) (s : Rfs σ) : Prop :=
  ∃ ret s', rfsWriteR os basedir n fd data s = some (ret, s') ∧
    if data.bytes ≠ [] ∧ (os.write s.st fd
        (data.take (min data.bytes.length (rfsRealBufferSize n))).bytes).1 = -1 then
      ret = -1 ∧ view.Same s.st s'.st
    else ∃ k ≤ data.bytes.length, ret.toInt = k ∧
      view.WritesTo s.st s'.st (data.bytes.take k)

/-- `rfs_read_r` does what one function to read would do. -/
def ReadsAsPosix (view : FileView os fd) (len : UInt32) (s : Rfs σ) : Prop :=
  ∃ ret bytes s', rfsReadR os basedir n fd len s = some (ret, bytes, s') ∧
    if len.toNat ≠ 0 ∧ (os.read s.st fd
        (UInt32.ofNat (min len.toNat (rfsRealBufferSize n)))).1 = none then
      ret = -1 ∧ view.Same s.st s'.st
    else bytes.length ≤ len.toNat ∧ ret.toInt = bytes.length ∧ view.ReadsTo s.st s'.st bytes

/-- The first part fits into the buffers and does not fail, and fewer than 2^31 bytes are written.
-/
def WriteSafe (data : Block) (st : σ) : Prop :=
  (data.bytes ≠ [] → Fits n (29 + min data.bytes.length (rfsRealBufferSize n)) ∧
    (os.write st fd (data.take (min data.bytes.length (rfsRealBufferSize n))).bytes).1 ≠ -1) ∧
  osWritten os n fd data st < 2 ^ 31

/-- No part fails, all parts fit into the buffers, and fewer than 2^31 bytes are read. -/
def ReadSafe (len : UInt32) (st : σ) : Prop :=
  ∃ bytes, osRead os n fd len.toNat st = some bytes ∧ bytes.length < 2 ^ 31

variable {os basedir n fd}

/-- On every platform the buffer has 512 bytes. Where it has between 32 and 4096, all parts fit. -/
theorem fits_part (h5 : 5 ≤ n.val) (h12 : n.val ≤ 12) {k : ℕ} (hk : k ≤ rfsRealBufferSize n) :
    Fits n (29 + k) := by
  have hreal : ∀ n : Fin 16, 5 ≤ n.val → n.val ≤ 12 →
      29 + rfsRealBufferSize n = 2 ^ n.val ∧ 2 ^ n.val ≤ rfsBufferSize := by decide
  obtain ⟨hsize, hle⟩ := hreal n h5 h12
  exact ⟨by omega, by omega⟩

theorem toInt_ofNat_eq_iff {k j : ℕ} (hj : j = k) : (Int32.ofNat k).toInt = j ↔ k < 2 ^ 31 := by
  subst hj
  refine ⟨fun h => ?_, Int32.toInt_ofNat_of_lt⟩
  have hlt := (Int32.ofNat j).toInt_lt
  rw [h] at hlt
  exact_mod_cast hlt

/-- A first part that fails is the only one. -/
theorem osWritten_of_error {data : Block} {st : σ} (hnil : data.bytes ≠ [])
    (herr : (os.write st fd
      (data.take (min data.bytes.length (rfsRealBufferSize n))).bytes).1 = -1) :
    osWritten os n fd data st = 0 := by
  rcases hres : os.write st fd
    (data.take (min data.bytes.length (rfsRealBufferSize n))).bytes with ⟨res, st'⟩
  rw [hres] at herr
  rw [osWritten_eq hnil rfl hres, if_pos herr]

theorem writesAsPosix_iff (view : FileView os fd) (data : Block) (s : Rfs σ) :
    WritesAsPosix os basedir n fd view data s ↔ WriteSafe os n fd data s.st := by
  by_cases hfit : data.bytes ≠ [] → Fits n (29 + min data.bytes.length (rfsRealBufferSize n))
  · obtain ⟨s₁, hrun, hwrites, hle⟩ := rfsWriteLoop_eq basedir view 0 data s hfit
    rw [Int32.zero_add] at hrun
    constructor
    · rintro ⟨ret, s', hs, hp⟩
      obtain ⟨rfl, rfl⟩ := Prod.mk.inj (Option.some.inj (hrun.symm.trans hs))
      split_ifs at hp with herr
      · rw [osWritten_of_error herr.1 herr.2] at hp
        exact absurd hp.1 (by decide)
      · obtain ⟨k, hk, hret, hwrites'⟩ := hp
        have hoff := hwrites.2.symm.trans hwrites'.2
        rw [List.length_take, List.length_take] at hoff
        exact ⟨fun hnil => ⟨hfit hnil, fun h => herr ⟨hnil, h⟩⟩,
          (toInt_ofNat_eq_iff (by omega)).mp hret⟩
    · rintro ⟨hfirst, hlt⟩
      refine ⟨_, s₁, hrun, ?_⟩
      rw [if_neg fun h => (hfirst h.1).2 h.2]
      exact ⟨_, hle, Int32.toInt_ofNat_of_lt hlt, hwrites⟩
  · obtain ⟨hnil, hfit⟩ := Classical.not_imp.mp hfit
    refine iff_of_false ?_ fun h => hfit (h.1 hnil).1
    rintro ⟨ret, s', hs, -⟩
    rw [rfsWriteR, rfsWriteLoop, if_neg hnil] at hs
    simp only [run_write_eq_none basedir (Nat.min_le_left _ _) hfit] at hs
    cases hs

theorem readsAsPosix_iff (view : FileView os fd) (len : UInt32) (s : Rfs σ) :
    ReadsAsPosix os basedir n fd view len s ↔ ReadSafe os n fd len s.st := by
  rw [ReadSafe]
  rcases hread : osRead os n fd len.toNat s.st with _ | bytes
  · have hrun := rfsReadLoop_eq_none basedir 0 [] len.toNat s hread
    refine iff_of_false ?_ (by simp)
    rintro ⟨ret, bytes, s', hs, -⟩
    cases hrun.symm.trans hs
  · obtain ⟨s₁, hrun, hreads, hle⟩ :=
      rfsReadLoop_eq basedir view 0 [] len.toNat s hread
    have hfirst : ¬ (len.toNat ≠ 0 ∧ (os.read s.st fd
        (UInt32.ofNat (min len.toNat (rfsRealBufferSize n)))).1 = none) := fun ⟨hzero, h⟩ => by
      obtain ⟨part, st, hres, -⟩ := osRead_part hzero rfl hread
      rw [hres] at h
      cases h
    rw [Int32.zero_add, List.nil_append] at hrun
    simp only [Option.some_inj, exists_eq_left']
    constructor
    · rintro ⟨ret, bytes', s', hs, hp⟩
      obtain ⟨rfl, htail⟩ := Prod.mk.inj (Option.some.inj (hrun.symm.trans hs))
      obtain ⟨rfl, rfl⟩ := Prod.mk.inj htail
      rw [if_neg hfirst] at hp
      exact (toInt_ofNat_eq_iff rfl).mp hp.2.1
    · intro hlt
      refine ⟨_, bytes, s₁, hrun, ?_⟩
      rw [if_neg hfirst]
      exact ⟨hle, Int32.toInt_ofNat_of_lt hlt, hreads⟩

end Posix

/-- **Reading and writing.** `rfs_write_r` does what one function to write would do if and only if
the first part does not fail and fewer than 2^31 bytes are written, and `rfs_read_r` does what one
function to read would do if and only if no part fails and fewer than 2^31 bytes are read; in either
case all packets must fit, as they do on every platform. -/
theorem rfs_asPosix_iff {σ : Type} (os : Os σ) (basedir : CString) (n : Fin 16) (fd : Int32)
    (view : FileView os fd) (s : Rfs σ) :
    (∀ data, WritesAsPosix os basedir n fd view data s ↔ WriteSafe os n fd data s.st) ∧
      (∀ len, ReadsAsPosix os basedir n fd view len s ↔ ReadSafe os n fd len s.st) ∧
      (5 ≤ n.val → n.val ≤ 12 → ∀ k ≤ rfsRealBufferSize n, Fits n (29 + k)) :=
  ⟨fun data => writesAsPosix_iff view data s, fun len => readsAsPosix_iff view len s,
    fun h5 h12 _ hk => fits_part h5 h12 hk⟩

/-- A system on which nothing can be written. -/
def fullDisk : Os ℕ where
  __ := oneFile []
  write st _ _ := (-1, st)
  write_le _ _ _ h := absurd rfl h

/-- Its file is empty. -/
def fullDiskView : FileView fullDisk 3 where
  content _ := fun _ => 0
  offset _ := 0
  read_some {st count bytes st'} h := by
    have hbytes : some ((List.drop st []).take count.toNat) = some bytes := congrArg Prod.fst h
    rw [List.drop_nil, List.take_nil] at hbytes
    obtain rfl := Option.some.inj hbytes
    exact ⟨rfl, rfl, rfl⟩
  read_none h := ⟨rfl, rfl⟩
  write_some h hres := absurd (congrArg Prod.fst h).symm hres
  write_none _ := ⟨rfl, rfl⟩

/-- One byte is written there. The result is zero, as if there had been no error. -/
theorem not_writesAsPosix_fullDisk :
    ¬ ∀ (σ : Type) (os : Os σ) (basedir : CString) (n : Fin 16) (fd : Int32)
      (view : FileView os fd) (data : Block) (s : Rfs σ),
      WritesAsPosix os basedir n fd view data s := by
  intro h
  have hwrites := h ℕ fullDisk ⟨[0x2F], by decide, by decide⟩ 9 3 fullDiskView ⟨[0x41], by decide⟩
    { st := 0 }
  exact ((writesAsPosix_iff _ _ _).mp hwrites).1 (by decide) |>.2 rfl

end ELuaBrain.Rpc
