import ELuaBrain.SemiFs.Semihost
import ELuaBrain.System.Reach
import ELuaBrain.System.Slots

/-!
# The semihosting file system

The code of `semifs.c`. For each descriptor the driver keeps the handle of the host and an offset of
its own, which it updates from what the host says was transferred; it also counts the descriptors.
A file that the program has open is a descriptor that `open` returned and that was not closed since.

A descriptor is an index of the table. Offsets are kept by their bits, as `size_t`, `int` and
`off_t` all have 32 of them.

## Main definitions

* `State`, `semifsOpenR`, `semifsCloseR`, `semifsWriteR`, `semifsReadR`, `semifsLseekR` : the static
  variables and the functions.
* `State.step` : one call, with the files that the program has open.
* `Event.Careful` : the calls after which the table is right.

## Main results

* `semifs_runs` : a refused `open`, and every run.
-/

namespace ELuaBrain.SemiFs

/-! ### The code -/

/-- `SEMIFS_MAX_FDS`. -/
def semifsMaxFds : ℕ := 4

/-- `O_RDWR`, `O_APPEND`, `O_CREAT` and `O_TRUNC`. -/
def oRdwr : UInt32 := 2
def oAppend : UInt32 := 0x0008
def oCreat : UInt32 := 0x0200
def oTrunc : UInt32 := 0x0400

/-- The values of `_errno`. -/
inductive Errno where
  | enfile
  | eio
  deriving DecidableEq

/-- `poslog`. -/
structure Poslog where
  handle : Int32
  pos : UInt32 := 0
  deriving DecidableEq

/-- The static variables after `semifs_init`, the host, and the files that the program has open:
the descriptors, and the answers of the host when they were opened. -/
structure State where
  fdTable : Fin semifsMaxFds → Poslog := fun _ => { handle := -1 }
  numFd : ℤ := 0
  host : Host := {}
  opens : List (Fin semifsMaxFds × Int32) := []

/-- The flags of `fcntl.h` as a mode of `SYS_OPEN`. -/
def semifsAflags (flags : UInt32) : UInt32 :=
  let aflags := if flags &&& oRdwr ≠ 0 then 2 else 0
  let aflags := if flags &&& oCreat ≠ 0 then aflags ||| 4 else aflags
  let aflags := if flags &&& oTrunc ≠ 0 then aflags ||| 4 else aflags
  if flags &&& oAppend ≠ 0 then (aflags &&& ~~~4) ||| 8 else aflags

/-- `whence`. -/
inductive Whence where
  | seekSet
  | seekCur
  | seekEnd
  | other
  deriving DecidableEq

/-- The bytes of a `size_t`. -/
abbrev Buffer : Type := { bytes : List UInt8 // bytes.length < 2 ^ 32 }

section Functions

variable (s : State)

/-- The elements of the table that are in use. -/
def State.used (i : Fin semifsMaxFds) : Bool := (s.fdTable i).handle ≠ -1

/-- `semifs_find_empty_fd`. -/
def semifsFindEmptyFd : Option (Fin semifsMaxFds) := Slots.firstFree s.used

/-- `semifs_open_r`, if the host answers with `fh`; there is no result if it writes outside of the
table. An error can leave `_errno` as it was. -/
def semifsOpenR (path : List UInt8) (flags : UInt32) (fh : Int32) (atEnd : Bool) :
    Option (Except (Option Errno) (Fin semifsMaxFds) × State) :=
  if s.numFd = semifsMaxFds then some (.error (some .enfile), s)
  else
    (sysOpen s.host fh path (semifsAflags flags) atEnd).bind fun host =>
      let s' := { s with numFd := s.numFd + 1, host }
      match semifsFindEmptyFd s with
      | some fd =>
          some (.ok fd,
            if 0 ≤ fh then
              { s' with fdTable := Function.update s.fdTable fd { handle := fh, pos := 0 } }
            else s')
      | none => if 0 ≤ fh then none else some (.error none, s')

/-- `semifs_close_r`. -/
def semifsCloseR (fd : Fin semifsMaxFds) : UInt32 × State :=
  let fh := (s.fdTable fd).handle
  let r := sysClose s.host fh
  (r.1, { s with
    fdTable := Function.update s.fdTable fd { s.fdTable fd with handle := -1 }
    numFd := s.numFd - 1
    host := r.2 })

/-- `semifs_write_r`, of which the host takes at most `n` bytes. -/
def semifsWriteR (fd : Fin semifsMaxFds) (ptr : Buffer) (n : ℕ) : Except Errno UInt32 × State :=
  let entry := s.fdTable fd
  let len := UInt32.ofNat ptr.1.length
  let r := sysWrite s.host entry.handle ptr.1 n
  if r.1 = -1 ∨ r.1 = len then (.error .eio, { s with host := r.2 })
  else
    (.ok (len - r.1), { s with
      fdTable := Function.update s.fdTable fd { entry with pos := entry.pos + (len - r.1) }
      host := r.2 })

/-- `semifs_read_r`, with the bytes that are read. -/
def semifsReadR (fd : Fin semifsMaxFds) (len : UInt32) (n : ℕ) :
    Except Errno UInt32 × List UInt8 × State :=
  let entry := s.fdTable fd
  let r := sysRead s.host entry.handle len n
  if r.1.toInt32 < 0 then (.error .eio, r.2.1, { s with host := r.2.2 })
  else
    (.ok (len - r.1), r.2.1, { s with
      fdTable := Function.update s.fdTable fd { entry with pos := entry.pos + (len - r.1) }
      host := r.2.2 })

/-- The position that `semifs_lseek_r` seeks, and the host after that was found out. -/
def seekTarget (fd : Fin semifsMaxFds) (off : UInt32) (whence : Whence) (flenFails : Bool) :
    Option (UInt32 × Host) :=
  match whence with
  | .seekCur => some (off + (s.fdTable fd).pos, s.host)
  | .seekEnd =>
      let r := sysFlen s.host (s.fdTable fd).handle flenFails
      some (off + r.1, r.2)
  | .seekSet => some (off, s.host)
  | .other => none

/-- `semifs_lseek_r`. -/
def semifsLseekR (fd : Fin semifsMaxFds) (off : UInt32) (whence : Whence)
    (flenFails refuses : Bool) (landing : ℕ) : Option UInt32 × State :=
  match seekTarget s fd off whence flenFails with
  | none => (none, s)
  | some (off, host) =>
      let entry := s.fdTable fd
      let r := sysSeek host entry.handle off refuses landing
      if r.1 = 0 then
        (some off, { s with
          fdTable := Function.update s.fdTable fd { entry with pos := off }
          host := r.2 })
      else (none, { s with host := r.2 })

end Functions

/-- What may happen: a call, and what the host makes of it. -/
inductive Event where
  | openR (path : List UInt8) (flags : UInt32) (fh : Int32) (atEnd : Bool)
  | closeR (fd : Fin semifsMaxFds)
  | writeR (fd : Fin semifsMaxFds) (ptr : Buffer) (n : ℕ)
  | readR (fd : Fin semifsMaxFds) (len : UInt32) (n : ℕ)
  | lseekR (fd : Fin semifsMaxFds) (off : UInt32) (whence : Whence) (flenFails refuses : Bool)
      (landing : ℕ)

/-- The descriptor of a call. -/
def Event.fd : Event → Option (Fin semifsMaxFds)
  | .openR .. => none
  | .closeR fd | .writeR fd _ _ | .readR fd _ _ | .lseekR fd _ _ _ _ _ => some fd

/-- One event. -/
def State.step (s : State) : Event → Option State
  | .openR path flags fh atEnd =>
      (semifsOpenR s path flags fh atEnd).map fun r =>
        match r.1 with
        | .ok fd => { r.2 with opens := (fd, fh) :: s.opens }
        | .error _ => r.2
  | .closeR fd => some { (semifsCloseR s fd).2 with opens := s.opens.filter (·.1 ≠ fd) }
  | .writeR fd ptr n => some (semifsWriteR s fd ptr n).2
  | .readR fd len n => some (semifsReadR s fd len n).2.2
  | .lseekR fd off whence flenFails refuses landing =>
      some (semifsLseekR s fd off whence flenFails refuses landing).2

/-! ### What is claimed -/

/-- The calls after which the table is right. The host does not refuse to open a file, and answers
with a handle that is no negative number; a file for appending is empty if the offset starts at its
end, and the offset is at its end when it is written to; only descriptors in use are closed; a read
of 2³¹ bytes or more reads nothing; and the host is not asked to seek outside of a file, which is
undefined. -/
def Event.Careful (s : State) : Event → Prop
  | .openR path flags fh atEnd =>
      s.numFd = semifsMaxFds ∨
        (0 ≤ fh ∧ (flags &&& oAppend ≠ 0 → atEnd → s.host.content path = []))
  | .closeR fd => s.used fd
  | .writeR fd ptr n =>
      ∀ f ∈ s.host.handles (s.fdTable fd).handle, f.appends → ptr.1.take n ≠ [] →
        f.offset = (s.host.content f.path).length
  | .readR _ len n => len.toNat < 2 ^ 31 ∨ n = 0
  | .lseekR fd off whence flenFails refuses _ =>
      ∀ f ∈ s.host.handles (s.fdTable fd).handle, ∀ t ∈ seekTarget s fd off whence flenFails,
        refuses = false → t.1.toNat ≤ (s.host.content f.path).length

instance Event.Careful.decidable (s : State) : (e : Event) → Decidable (e.Careful s)
  | .openR .. => inferInstanceAs (Decidable (_ ∨ (_ ∧ (_ → _ → _))))
  | .closeR _ => inferInstanceAs (Decidable (_ = true))
  | .writeR fd ptr n =>
      inferInstanceAs (Decidable (∀ f ∈ s.host.handles (s.fdTable fd).handle,
        f.appends → ptr.1.take n ≠ [] → f.offset = (s.host.content f.path).length))
  | .readR .. => inferInstanceAs (Decidable (_ ∨ _))
  | .lseekR fd off whence flenFails refuses _ =>
      inferInstanceAs (Decidable (∀ f ∈ s.host.handles (s.fdTable fd).handle,
        ∀ t ∈ seekTarget s fd off whence flenFails,
          refuses = false → t.1.toNat ≤ (s.host.content f.path).length))

/-- The descriptor count is the number of slots in use. -/
def Counted (s : State) : Prop := s.numFd = Slots.count s.used

/-- What holds in every run. -/
structure Kept (s : State) : Prop where
  counted : Counted s
  nodup : (s.opens.map Prod.fst).Nodup
  used_iff : ∀ fd, s.used fd = true ↔ fd ∈ s.opens.map Prod.fst
  /-- A handle is that of one file only. -/
  inj : ∀ p ∈ s.opens, ∀ q ∈ s.opens, p.2 = q.2 → p = q
  /-- The table has the handle and the offset of each open file. -/
  file : ∀ p ∈ s.opens, (s.fdTable p.1).handle = p.2 ∧
    ∃ f, s.host.handles p.2 = some f ∧ (s.fdTable p.1).pos = UInt32.ofNat f.offset

section Runs

variable {s s' : State} {fd : Fin semifsMaxFds} {entry : Poslog}

/-- The slots in use after an element of the table was set. -/
theorem used_update {numFd : ℤ} {host : Host} {opens : List (Fin semifsMaxFds × Int32)} :
    ({ fdTable := Function.update s.fdTable fd entry, numFd, host, opens } : State).used =
      Function.update s.used fd (entry.handle ≠ -1) := by
  funext i
  rw [State.used]
  by_cases hi : i = fd
  · subst hi
    simp only [Function.update_self]
  · simp only [Function.update_of_ne hi]
    rfl

/-- A file that is open is at its slot only. -/
theorem Kept.eq_fd (h : Kept s) {p : Fin semifsMaxFds × Int32} (hp : p ∈ s.opens)
    (hfd : p.2 = (s.fdTable fd).handle) : p.1 = fd := by
  have hused : s.used fd = true := by
    have hslot : s.used p.1 = true := (h.used_iff _).mpr (List.mem_map_of_mem hp)
    rw [State.used, (h.file p hp).1, hfd] at hslot
    exact hslot
  obtain ⟨q, hq, rfl⟩ := List.mem_map.mp ((h.used_iff fd).mp hused)
  rw [h.inj p hp q hq (hfd.trans (h.file q hq).1)]

/-- **The offset of a slot changes** as that of its file. -/
theorem Kept.setPos (h : Kept s) {pos : UInt32} {host : Host}
    (hother : ∀ fh, fh ≠ (s.fdTable fd).handle → host.handles fh = s.host.handles fh)
    (hthis : ∀ f, s.host.handles (s.fdTable fd).handle = some f →
      (s.fdTable fd).pos = UInt32.ofNat f.offset →
        ∃ f', host.handles (s.fdTable fd).handle = some f' ∧ pos = UInt32.ofNat f'.offset) :
    Kept { s with
      fdTable := Function.update s.fdTable fd { s.fdTable fd with pos }
      host } := by
  have husedEq : ({ s with
      fdTable := Function.update s.fdTable fd { s.fdTable fd with pos }
      host } : State).used = s.used := used_update.trans (Function.update_eq_self ..)
  refine ⟨?_, h.nodup, fun i => ?_, h.inj, fun p hp => ?_⟩
  · rw [Counted, husedEq]
    exact h.counted
  · rw [husedEq]
    exact h.used_iff i
  · obtain ⟨hhandle, f, hf, hpos⟩ := h.file p hp
    by_cases hpfd : p.1 = fd
    · subst hpfd
      simp only [Function.update_self]
      rw [← hhandle] at hf ⊢
      exact ⟨rfl, hthis f hf hpos⟩
    · simp only [Function.update_of_ne hpfd]
      rw [hother p.2 fun heq => hpfd (h.eq_fd hp heq)]
      exact ⟨hhandle, f, hf, hpos⟩

/-- The host changes, and no offset. -/
theorem Kept.setHost (h : Kept s) (fd : Fin semifsMaxFds) {host : Host}
    (hother : ∀ fh, fh ≠ (s.fdTable fd).handle → host.handles fh = s.host.handles fh)
    (hthis : ∀ f, s.host.handles (s.fdTable fd).handle = some f → ∃ f',
      host.handles (s.fdTable fd).handle = some f' ∧
        UInt32.ofNat f'.offset = UInt32.ofNat f.offset) : Kept { s with host } := by
  have hkept : Kept { s with
      fdTable := Function.update s.fdTable fd { s.fdTable fd with pos := (s.fdTable fd).pos }
      host } := h.setPos hother fun f hf hpos => by
    obtain ⟨f', hf', heq⟩ := hthis f hf
    exact ⟨f', hf', hpos.trans heq.symm⟩
  rwa [Function.update_eq_self] at hkept

/-- What was transferred, from what was not. -/
theorem sub_ofNat {len k : ℕ} (hk : k ≤ len) :
    UInt32.ofNat len - UInt32.ofNat (len - k) = UInt32.ofNat k := by
  rw [← UInt32.toNat_inj]
  simp only [UInt32.toNat_sub, UInt32.toNat_ofNat']
  omega

theorem Kept.write (h : Kept s) {ptr : Buffer} {n : ℕ}
    (hcareful : Event.Careful s (.writeR fd ptr n)) : Kept (semifsWriteR s fd ptr n).2 := by
  have hother : ∀ fh, fh ≠ (s.fdTable fd).handle →
      (sysWrite s.host (s.fdTable fd).handle ptr.1 n).2.handles fh = s.host.handles fh :=
    fun fh hfh => sysWrite_other ptr.1 n hfh
  rw [semifsWriteR]
  split_ifs with hfail
  · refine h.setHost fd hother fun f hf => ?_
    obtain ⟨f', k, hf', hoffset, hk, hrest⟩ := sysWrite_spec hf (hcareful f hf)
    have hnone : k = 0 := by
      have hlen := ptr.2
      rw [hrest, ← UInt32.toNat_inj, ← UInt32.toNat_inj, UInt32.toNat_ofNat',
        UInt32.toNat_ofNat'] at hfail
      have hmax : (-1 : UInt32).toNat = 2 ^ 32 - 1 := rfl
      omega
    rw [hnone, Nat.add_zero] at hoffset
    exact ⟨f', hf', congrArg _ hoffset⟩
  · refine h.setPos hother fun f hf hpos => ?_
    obtain ⟨f', k, hf', hoffset, hk, hrest⟩ := sysWrite_spec hf (hcareful f hf)
    refine ⟨f', hf', ?_⟩
    rw [hrest, hpos, hoffset, sub_ofNat hk, UInt32.ofNat_add]

theorem Kept.read (h : Kept s) {len : UInt32} {n : ℕ}
    (hcareful : Event.Careful s (.readR fd len n)) : Kept (semifsReadR s fd len n).2.2 := by
  have hother : ∀ fh, fh ≠ (s.fdTable fd).handle →
      (sysRead s.host (s.fdTable fd).handle len n).2.2.handles fh = s.host.handles fh :=
    fun fh hfh => sysRead_other len n hfh
  rw [semifsReadR]
  split_ifs with hfail
  · refine h.setHost fd hother fun f hf => ?_
    obtain ⟨f', k, hf', hoffset, hk, hrest⟩ := sysRead_spec hf len n
    have hnone : k = 0 := by
      obtain hlen | rfl := hcareful
      · rw [hrest, UInt32.toInt32_ofNat', Int32.lt_iff_toInt_lt,
          Int32.toInt_ofNat_of_lt (by omega)] at hfail
        exact absurd hfail (Int.not_lt.mpr (Int.natCast_nonneg _))
      · omega
    rw [hnone, Nat.add_zero] at hoffset
    exact ⟨f', hf', congrArg _ hoffset⟩
  · refine h.setPos hother fun f hf hpos => ?_
    obtain ⟨f', k, hf', hoffset, hk, hrest⟩ := sysRead_spec hf len n
    refine ⟨f', hf', ?_⟩
    have hsub := sub_ofNat (hk.trans (Nat.min_le_right ..))
    rw [UInt32.ofNat_toNat] at hsub
    rw [hrest, hpos, hoffset, hsub, UInt32.ofNat_add]

/-- The host of the position that is sought has the same open files. -/
theorem seekTarget_handles {off : UInt32} {whence : Whence} {flenFails : Bool}
    {t : UInt32 × Host} (h : seekTarget s fd off whence flenFails = some t) :
    t.2.handles = s.host.handles ∧ t.2.files = s.host.files := by
  cases whence with
  | other => cases h
  | seekSet | seekCur | seekEnd =>
    obtain rfl := Option.some.inj h
    exact ⟨rfl, rfl⟩

/-- The calls after one more of them that is about a handle. -/
theorem calls_concat {calls calls' : List Call} {c : Call} {fh : Int32}
    (h : calls' = calls ++ [c]) (hc : c.handle = some fh) :
    ∃ new, calls' = calls ++ new ∧ ∀ c ∈ new, c.handle = some fh :=
  ⟨[c], h, fun _ hmem => List.mem_singleton.mp hmem ▸ hc⟩

theorem seekTarget_calls {off : UInt32} {whence : Whence} {flenFails : Bool}
    {t : UInt32 × Host} (h : seekTarget s fd off whence flenFails = some t) :
    ∃ calls, t.2.calls = s.host.calls ++ calls ∧
      ∀ c ∈ calls, c.handle = some (s.fdTable fd).handle := by
  cases whence with
  | other => cases h
  | seekSet | seekCur =>
    obtain rfl := Option.some.inj h
    exact ⟨[], (List.append_nil _).symm, nofun⟩
  | seekEnd =>
    obtain rfl := Option.some.inj h
    exact calls_concat (c := .sysFlen (s.fdTable fd).handle) rfl rfl

theorem Kept.lseek (h : Kept s) {off : UInt32} {whence : Whence} {flenFails refuses : Bool}
    {landing : ℕ}
    (hcareful : Event.Careful s (.lseekR fd off whence flenFails refuses landing)) :
    Kept (semifsLseekR s fd off whence flenFails refuses landing).2 := by
  rw [semifsLseekR]
  cases htarget : seekTarget s fd off whence flenFails with
  | none => exact h
  | some t =>
    obtain ⟨hhandles, hfiles⟩ := seekTarget_handles htarget
    have hother : ∀ fh, fh ≠ (s.fdTable fd).handle →
        (sysSeek t.2 (s.fdTable fd).handle t.1 refuses landing).2.handles fh =
          s.host.handles fh :=
      fun fh hfh => (sysSeek_other t.1 refuses landing hfh).trans (congrFun hhandles fh)
    have hseek : ∀ f, s.host.handles (s.fdTable fd).handle = some f → ∃ f',
        (sysSeek t.2 (s.fdTable fd).handle t.1 refuses landing).2.handles (s.fdTable fd).handle =
          some f' ∧ f'.offset =
            if (sysSeek t.2 (s.fdTable fd).handle t.1 refuses landing).1 = 0 then t.1.toNat
            else f.offset := fun f hf => by
      refine sysSeek_spec ((congrFun hhandles _).trans hf) landing fun hok => ?_
      rw [Host.content, hfiles]
      exact hcareful f hf t htarget hok
    dsimp only
    split_ifs with hok
    · refine h.setPos hother fun f hf _ => ?_
      obtain ⟨f', hf', hoffset⟩ := hseek f hf
      rw [if_pos hok] at hoffset
      exact ⟨f', hf', by rw [hoffset, UInt32.ofNat_toNat]⟩
    · refine h.setHost fd hother fun f hf => ?_
      obtain ⟨f', hf', hoffset⟩ := hseek f hf
      rw [if_neg hok] at hoffset
      exact ⟨f', hf', congrArg _ hoffset⟩

theorem Kept.close (h : Kept s) (hused : s.used fd) :
    Kept { (semifsCloseR s fd).2 with opens := s.opens.filter (·.1 ≠ fd) } := by
  have husedEq : ({ (semifsCloseR s fd).2 with opens := s.opens.filter (·.1 ≠ fd) } : State).used =
      Function.update s.used fd false := used_update
  have hmem : ∀ {p}, p ∈ s.opens.filter (·.1 ≠ fd) ↔ p ∈ s.opens ∧ p.1 ≠ fd := fun {p} => by
    rw [List.mem_filter, decide_eq_true_eq]
  obtain ⟨q, hq, rfl⟩ := List.mem_map.mp ((h.used_iff fd).mp hused)
  obtain ⟨hhandle, f, hf, -⟩ := h.file q hq
  refine ⟨?_, h.nodup.sublist (List.filter_sublist.map _), fun i => ?_, fun p hp p' hp' => ?_,
    fun p hp => ?_⟩
  · have hcount := Slots.count_release hused
    have hcounted := h.counted
    rw [Counted, husedEq]
    change s.numFd - 1 = _
    rw [Counted] at hcounted
    omega
  · rw [husedEq]
    change _ ↔ i ∈ (s.opens.filter (·.1 ≠ q.1)).map Prod.fst
    simp only [List.mem_map, hmem]
    by_cases hi : i = q.1
    · subst hi
      rw [Function.update_self]
      exact iff_of_false Bool.false_ne_true fun ⟨p, hp, heq⟩ => hp.2 heq
    · rw [Function.update_of_ne hi, h.used_iff, List.mem_map]
      constructor
      · rintro ⟨p, hp, rfl⟩
        exact ⟨p, ⟨hp, hi⟩, rfl⟩
      · rintro ⟨p, hp, rfl⟩
        exact ⟨p, hp.1, rfl⟩
  · exact h.inj p (hmem.mp hp).1 p' (hmem.mp hp').1
  · obtain ⟨hp, hne⟩ := hmem.mp hp
    have hfh : p.2 ≠ q.2 := fun heq => hne (congrArg Prod.fst (h.inj p hp q hq heq))
    have hentry : (semifsCloseR s q.1).2.fdTable p.1 = s.fdTable p.1 :=
      Function.update_of_ne hne _ _
    have hhost : (semifsCloseR s q.1).2.host.handles p.2 = s.host.handles p.2 := by
      change (sysClose s.host (s.fdTable q.1).handle).2.handles p.2 = _
      rw [hhandle, sysClose_spec hf, Function.update_of_ne hfh]
    obtain ⟨hpHandle, f', hf', hpos⟩ := h.file p hp
    exact ⟨(congrArg Poslog.handle hentry).trans hpHandle, f', hhost.trans hf',
      (congrArg Poslog.pos hentry).trans hpos⟩

theorem semifsAflags_append (flags : UInt32) :
    semifsAflags flags &&& 8 ≠ 0 ↔ flags &&& oAppend ≠ 0 := by
  rw [semifsAflags]
  by_cases happend : flags &&& oAppend ≠ 0
  · rw [if_pos happend]
    refine iff_of_true ?_ happend
    split_ifs <;> decide
  · rw [if_neg happend]
    refine iff_of_false ?_ happend
    split_ifs <;> decide

/-- What `open` does if the host does not refuse. -/
theorem semifsOpenR_cases {path : List UInt8} {flags : UInt32} {fh : Int32} {atEnd : Bool}
    {res : Except (Option Errno) (Fin semifsMaxFds)} (hfh : s.numFd = semifsMaxFds ∨ 0 ≤ fh)
    (h : semifsOpenR s path flags fh atEnd = some (res, s')) :
    (∃ e, res = .error e ∧ s' = s) ∨
      ∃ fd host, res = .ok fd ∧ 0 ≤ fh ∧ s.used fd = false ∧
        sysOpen s.host fh path (semifsAflags flags) atEnd = some host ∧
        s' = { s with
          fdTable := Function.update s.fdTable fd { handle := fh, pos := 0 }
          numFd := s.numFd + 1
          host } := by
  rw [semifsOpenR] at h
  by_cases hfull : s.numFd = semifsMaxFds
  · rw [if_pos hfull] at h
    obtain ⟨rfl, rfl⟩ := Prod.mk.inj (Option.some.inj h)
    exact .inl ⟨_, rfl, rfl⟩
  rw [if_neg hfull] at h
  have hfh := hfh.resolve_left hfull
  obtain ⟨host, hhost, h⟩ := Option.bind_eq_some_iff.mp h
  cases hfd : semifsFindEmptyFd s with
  | none => simp only [hfd, if_pos hfh, reduceCtorEq] at h
  | some fd =>
    simp only [hfd, if_pos hfh] at h
    obtain ⟨rfl, rfl⟩ := Prod.mk.inj (Option.some.inj h)
    exact .inr ⟨fd, host, rfl, hfh, Slots.firstFree_eq_some hfd, hhost, rfl⟩

theorem Kept.openFile (h : Kept s) {path : List UInt8} {flags : UInt32} {fh : Int32} {atEnd : Bool}
    (hempty : flags &&& oAppend ≠ 0 → atEnd → s.host.content path = []) (hfh : 0 ≤ fh)
    (hfree : s.used fd = false) {host : Host}
    (hhost : sysOpen s.host fh path (semifsAflags flags) atEnd = some host) :
    Kept {
      fdTable := Function.update s.fdTable fd { handle := fh, pos := 0 }
      numFd := s.numFd + 1
      host
      opens := (fd, fh) :: s.opens } := by
  have hne : fh ≠ -1 := fun heq => absurd (heq ▸ hfh) (by decide)
  obtain ⟨hnew, f, hhandles, hoffset⟩ := sysOpen_spec hne hhost fun happend =>
    hempty ((semifsAflags_append flags).mp happend)
  have husedEq : ({
      fdTable := Function.update s.fdTable fd { handle := fh, pos := 0 }
      numFd := s.numFd + 1
      host
      opens := (fd, fh) :: s.opens } : State).used = Function.update s.used fd true := by
    rw [used_update, decide_eq_true hne]
  have hfd : fd ∉ s.opens.map Prod.fst := fun hmem => by
    rw [← h.used_iff, hfree] at hmem
    cases hmem
  have hold : ∀ p ∈ s.opens, p.2 ≠ fh := fun p hp heq => by
    obtain ⟨-, f', hf', -⟩ := h.file p hp
    rw [heq, hnew] at hf'
    cases hf'
  refine ⟨?_, List.nodup_cons.mpr ⟨hfd, h.nodup⟩, fun i => ?_, fun p hp q hq heq => ?_,
    fun p hp => ?_⟩
  · have hcounted := h.counted
    rw [Counted] at hcounted
    rw [Counted, husedEq, Slots.count_take hfree]
    change s.numFd + 1 = _
    omega
  · rw [husedEq]
    change _ ↔ i ∈ fd :: s.opens.map Prod.fst
    rw [List.mem_cons]
    by_cases hi : i = fd
    · subst hi
      rw [Function.update_self]
      exact iff_of_true rfl (.inl rfl)
    · rw [Function.update_of_ne hi, h.used_iff, or_iff_right hi]
  · obtain rfl | hp := List.mem_cons.mp hp
    · obtain rfl | hq := List.mem_cons.mp hq
      · rfl
      · exact absurd heq.symm (hold q hq)
    · obtain rfl | hq := List.mem_cons.mp hq
      · exact absurd heq (hold p hp)
      · exact h.inj p hp q hq heq
  · obtain rfl | hp := List.mem_cons.mp hp
    · simp only [Function.update_self, hhandles]
      exact ⟨trivial, f, rfl, by rw [hoffset]; rfl⟩
    · have hpfd : p.1 ≠ fd := fun heq => hfd (heq ▸ List.mem_map_of_mem hp)
      simp only [Function.update_of_ne hpfd, hhandles, Function.update_of_ne (hold p hp)]
      exact h.file p hp

theorem Kept.step (h : Kept s) {e : Event} (hcareful : e.Careful s) (hs : s.step e = some s') :
    Kept s' := by
  cases e with
  | openR path flags fh atEnd =>
    obtain ⟨⟨res, s₁⟩, hopen, rfl⟩ := Option.map_eq_some_iff.mp hs
    have hfh : s.numFd = semifsMaxFds ∨ 0 ≤ fh := hcareful.imp_right And.left
    obtain ⟨e, rfl, rfl⟩ | ⟨fd, host, rfl, hpos, hfree, hhost, rfl⟩ := semifsOpenR_cases hfh hopen
    · exact h
    · refine h.openFile ?_ hpos hfree hhost
      obtain hfull | hcareful := hcareful
      · rw [semifsOpenR, if_pos hfull] at hopen
        cases hopen
      · exact hcareful.2
  | closeR fd =>
    obtain rfl := Option.some.inj hs
    exact h.close hcareful
  | writeR fd ptr n =>
    obtain rfl := Option.some.inj hs
    exact h.write hcareful
  | readR fd len n =>
    obtain rfl := Option.some.inj hs
    exact h.read hcareful
  | lseekR fd off whence flenFails refuses landing =>
    obtain rfl := Option.some.inj hs
    exact h.lseek hcareful

/-- **A call on a descriptor** asks the host about its handle only. -/
theorem step_calls {e : Event} (hfd : e.fd = some fd) (hs : s.step e = some s') :
    ∃ calls, s'.host.calls = s.host.calls ++ calls ∧
      ∀ c ∈ calls, c.handle = some (s.fdTable fd).handle := by
  cases e with
  | openR path flags fh atEnd => cases hfd
  | closeR fd' =>
    obtain rfl := Option.some.inj hfd
    obtain rfl := Option.some.inj hs
    exact calls_concat (sysClose_calls ..) rfl
  | writeR fd' ptr n =>
    obtain rfl := Option.some.inj hfd
    obtain rfl := Option.some.inj hs
    refine calls_concat (c := .sysWrite (s.fdTable fd').handle ptr.1) ?_ rfl
    rw [semifsWriteR]
    split_ifs <;> exact sysWrite_calls ..
  | readR fd' len n =>
    obtain rfl := Option.some.inj hfd
    obtain rfl := Option.some.inj hs
    refine calls_concat (c := .sysRead (s.fdTable fd').handle len) ?_ rfl
    rw [semifsReadR]
    split_ifs <;> exact sysRead_calls ..
  | lseekR fd' off whence flenFails refuses landing =>
    obtain rfl := Option.some.inj hfd
    obtain rfl := Option.some.inj hs
    rw [semifsLseekR]
    cases htarget : seekTarget s fd' off whence flenFails with
    | none => exact ⟨[], (List.append_nil _).symm, nofun⟩
    | some t =>
      obtain ⟨calls, hcalls, hhandle⟩ := seekTarget_calls htarget
      refine ⟨calls ++ [.sysSeek (s.fdTable fd').handle t.1], ?_, fun c hc => ?_⟩
      · rw [← List.append_assoc, ← hcalls]
        dsimp only
        split_ifs <;> exact sysSeek_calls ..
      · obtain hc | hc := List.mem_append.mp hc
        · exact hhandle c hc
        · exact List.mem_singleton.mp hc ▸ rfl

end Runs

theorem Kept.init (host : Host) : Kept { host } :=
  ⟨congrArg Nat.cast Slots.count_free.symm, List.nodup_nil, fun _ => iff_of_false Bool.false_ne_true
    List.not_mem_nil, nofun, nofun⟩

/-- **The semihosting file system.** An `open` that the host refuses returns an error and changes
nothing if and only if all descriptors are in use. In every run of careful calls the descriptor
count is the number of slots in use, the files that are open have slots of their own, a call on one
of them asks the host about its handle only, and `lseek` with `SEEK_CUR` seeks from its offset. -/
theorem semifs_runs (s : State) :
    (∀ path flags atEnd,
      (∃ e, semifsOpenR s path flags (-1) atEnd = some (.error e, s)) ↔
        s.numFd = semifsMaxFds) ∧
    ∀ host, Reach State.step (fun s e => e.Careful s) { host } s →
      Counted s ∧ (s.opens.map Prod.fst).Nodup ∧ ∀ fd fh, (fd, fh) ∈ s.opens →
        (∀ e s', e.fd = some fd → s.step e = some s' →
          ∃ calls, s'.host.calls = s.host.calls ++ calls ∧ ∀ c ∈ calls, c.handle = some fh) ∧
        ∃ f, s.host.handles fh = some f ∧ ∀ off flenFails refuses landing s',
          s.step (.lseekR fd off .seekCur flenFails refuses landing) = some s' →
            s'.host.calls = s.host.calls ++ [.sysSeek fh (off + UInt32.ofNat f.offset)] := by
  refine ⟨fun path flags atEnd => ⟨fun ⟨e, h⟩ => ?_, fun h => ⟨_, if_pos h⟩⟩, fun host hreach => ?_⟩
  · by_contra hfull
    rw [semifsOpenR, if_neg hfull] at h
    obtain ⟨host, -, h⟩ := Option.bind_eq_some_iff.mp h
    have hneg : ¬(0 : Int32) ≤ -1 := by decide
    cases hfd : semifsFindEmptyFd s with
    | some fd =>
      simp only [hfd, Option.some.injEq, Prod.mk.injEq, reduceCtorEq, false_and] at h
    | none =>
      simp only [hfd, if_neg hneg, Option.some.injEq, Prod.mk.injEq] at h
      have hnum := congrArg State.numFd h.2
      dsimp only at hnum
      omega
  · have hkept : Kept s := hreach.invariant (Kept.init host) fun _ _ _ h hg hs => h.step hg hs
    refine ⟨hkept.counted, hkept.nodup, fun fd fh hopen => ?_⟩
    obtain ⟨hhandle, f, hf, hpos⟩ := hkept.file _ hopen
    dsimp only at hhandle hf hpos
    refine ⟨fun e s' hfd hs => ?_, f, hf, fun off flenFails refuses landing s' hs => ?_⟩
    · rw [← hhandle]
      exact step_calls hfd hs
    · obtain rfl := Option.some.inj hs
      rw [← hhandle, ← hpos, semifsLseekR]
      simp only [seekTarget]
      split_ifs <;> exact sysSeek_calls ..

/-- A file is created and written to, and its offset is moved back. -/
def sampleRun : List Event :=
  [.openR [102] (oRdwr ||| oCreat) 5 false, .writeR ⟨0, by decide⟩ ⟨[97, 98], by decide⟩ 2,
    .lseekR ⟨0, by decide⟩ (-1) .seekCur false false 0]

theorem semifs_runs_sample :
    ∃ s s' : State, Counted s ∧ s.numFd = 1 ∧
      s.step (.lseekR ⟨0, by decide⟩ 3 .seekCur false true 0) = some s' ∧
        s'.host.calls = s.host.calls ++ [.sysSeek 5 4] := by
  have hrun : (runAll (guarded State.step fun s e => e.Careful s) sampleRun {}).map (fun s =>
      (s.numFd, s.opens, (s.host.handles 5).map HostFile.offset)) =
        some (1, [(⟨0, by decide⟩, 5)], some 1) := by decide +kernel
  obtain ⟨s, hs, hlast⟩ := Option.map_eq_some_iff.mp hrun
  simp only [Prod.mk.injEq] at hlast
  obtain ⟨hnum, hopens, hoffset⟩ := hlast
  obtain ⟨hcounted, -, hopen⟩ := (semifs_runs s).2 {} (reach_of_runAll hs)
  obtain ⟨-, f, hf, hcur⟩ := hopen ⟨0, by decide⟩ 5 (hopens ▸ List.mem_singleton_self _)
  rw [hf, Option.map_some] at hoffset
  refine ⟨s, _, hcounted, hnum, rfl, ?_⟩
  rw [hcur 3 false true 0 _ rfl, Option.some.inj hoffset]
  rfl

/-- An `open` that the host refuses returns a descriptor, which the next one returns again; and
`SEEK_CUR` starts from the wrong offset after a file was appended to. -/
theorem not_semifs_runs :
    (¬∀ s path flags atEnd, ∃ e, semifsOpenR s path flags (-1) atEnd = some (.error e, s)) ∧
    (¬∀ host s, Reach State.step (fun _ _ => True) { host } s → Counted s) ∧
    (¬∀ host s, Reach State.step (fun _ _ => True) { host } s → (s.opens.map Prod.fst).Nodup) ∧
    ¬∀ host s, Reach State.step (fun _ _ => True) { host } s → ∀ fd fh, (fd, fh) ∈ s.opens →
      ∀ f, s.host.handles fh = some f → ∀ off flenFails refuses landing s',
        s.step (.lseekR fd off .seekCur flenFails refuses landing) = some s' →
          s'.host.calls = s.host.calls ++ [.sysSeek fh (off + UInt32.ofNat f.offset)] := by
  refine ⟨fun h => ?_, fun h => ?_, fun h => ?_, fun h => ?_⟩
  · obtain ⟨e, he⟩ := h {} [102] 0 false
    have hok : (semifsOpenR {} [102] 0 (-1) false).map (fun r => r.1.isOk) = some true := by
      decide +kernel
    rw [he] at hok
    cases hok
  · have hrun : (runAll (guarded State.step fun _ _ => True) [.openR [102] 0 (-1) false] {}).map
        (fun s => (s.numFd, Slots.count s.used)) = some (1, 0) := by decide +kernel
    obtain ⟨s, hs, hlast⟩ := Option.map_eq_some_iff.mp hrun
    have hcounted : s.numFd = Slots.count s.used := h {} s (reach_of_runAll hs)
    obtain ⟨hnum, hused⟩ := Prod.mk.inj hlast
    rw [hnum, hused] at hcounted
    exact absurd hcounted (by decide)
  · have hrun : (runAll (guarded State.step fun _ _ => True)
        [.openR [102] 0 (-1) false, .openR [102] oCreat 5 false] {}).map
        (fun s => s.opens.map Prod.fst) = some [⟨0, by decide⟩, ⟨0, by decide⟩] := by
      decide +kernel
    obtain ⟨s, hs, hlast⟩ := Option.map_eq_some_iff.mp hrun
    have hnodup := h {} s (reach_of_runAll hs)
    rw [hlast] at hnodup
    exact absurd hnodup (by decide)
  · let host : Host := { files := fun q => if q = [102] then some [104, 105] else none }
    have hrun : (runAll (guarded State.step fun _ _ => True)
        [.openR [102] oAppend 5 false, .writeR ⟨0, by decide⟩ ⟨[120], by decide⟩ 1]
        { host }).map (fun s => (s.opens, (s.host.handles 5).map HostFile.offset,
          s.host.calls.length,
          (s.step (.lseekR ⟨0, by decide⟩ 0 .seekCur false true 0)).map fun s' =>
            s'.host.calls.drop 2)) =
        some ([(⟨0, by decide⟩, 5)], some 3, 2, some [.sysSeek 5 1]) := by decide +kernel
    obtain ⟨s, hs, hlast⟩ := Option.map_eq_some_iff.mp hrun
    simp only [Prod.mk.injEq] at hlast
    obtain ⟨hopens, hoffset, hlength, hcalls⟩ := hlast
    obtain ⟨f, hf, hoffset⟩ := Option.map_eq_some_iff.mp hoffset
    obtain ⟨s', hs', hcalls⟩ := Option.map_eq_some_iff.mp hcalls
    have hcur := h host s (reach_of_runAll hs) ⟨0, by decide⟩ 5
      (hopens ▸ List.mem_singleton_self _) f hf 0 false true 0 s' hs'
    rw [hcur, hoffset, ← hlength, List.drop_left] at hcalls
    exact absurd hcalls (by decide)

end ELuaBrain.SemiFs
