import ELuaBrain.System.Heap
import ELuaBrain.System.Reach
import ELuaBrain.System.Ring
import Mathlib.Tactic.Ring

/-!
# The buffers of the character devices

The code of `buf.c` for one descriptor of `buf_desc_array`. A buffer is a ring of `2 ^ logsize`
bytes with two offsets and a count. `buf_set` resizes the memory and leaves all three as they are,
and `buf_write` still takes an element when the buffer is full. `BufDesc.Careful` is the condition
under which neither shows, and a buffer whose calls all meet it is a bounded queue.

## Main definitions

* `BufDesc`, `bufSet`, `bufFlush`, `bufWrite`, `bufRead` : the descriptor and its functions.
* `BufRun` : a buffer with the elements that it took and gave since it was last emptied.
* `BufRun.Fifo` : it is a bounded queue.

## Main results

* `buf_fifo_of_careful` : every run whose calls meet the condition is one of a bounded queue.
-/

namespace ELuaBrain.Device

/-! ### The code -/

/-- `BUF_DSIZE_U8` and the other sizes of elements. -/
inductive BufDsize where
  | u8
  | u16
  | u32
  deriving DecidableEq

/-- `log2` of the size of an element. -/
def BufDsize.log : BufDsize → ℕ
  | u8 => 0
  | u16 => 1
  | u32 => 2

/-- `BUF_SIZE_NONE`. -/
def bufSizeNone : ℕ := 0

/-- `buf_desc`. -/
structure BufDesc where
  logsize : ℕ := bufSizeNone
  wptr : ℕ := 0
  rptr : ℕ := 0
  count : ℕ := 0
  buf : Option (List UInt8) := none
  logdsize : ℕ := 0

namespace BufDesc

/-- `BUF_MOD_INCR`, where the result is a `u16`. -/
def modIncr (b : BufDesc) (p : ℕ) : ℕ := (p + 2 ^ b.logdsize) % 2 ^ b.logsize % 65536

/-- `BUF_REALSIZE`. -/
def realsize (b : BufDesc) : ℕ := 2 ^ (b.logsize - b.logdsize)

/-- `BUF_BYTESIZE`. -/
def bytesize (b : BufDesc) : ℕ := 2 ^ b.logsize

/-- `BUF_REALDSIZE`. -/
def realdsize (b : BufDesc) : ℕ := 2 ^ b.logdsize

/-- `buf_set`; `mem` is `none` if `realloc` returns `NULL`, and else what is in the memory behind
the old contents. False stands for `PLATFORM_ERR`. A shift of an `int` by 31 or more is undefined.
-/
def bufSet (logsize : ℕ) (dsize : BufDsize) (mem : Option (ℕ → UInt8)) (b : BufDesc) :
    Option (BufDesc × Bool) :=
  let b := { b with logdsize := dsize.log, logsize := (logsize % 256 + dsize.log) % 256 }
  if 31 ≤ b.logsize then none
  else
    match mem with
    | some fresh =>
        some ({ b with
          buf := some ((List.range b.bytesize).map fun i =>
            ((b.buf.getD [])[i]?).getD (fresh i)) }, true)
    | none =>
        some ({ b with buf := none, logsize := bufSizeNone, rptr := 0, wptr := 0, count := 0 },
          logsize % 256 = bufSizeNone)

/-- `buf_flush`. -/
def bufFlush (b : BufDesc) : BufDesc := { b with rptr := 0, wptr := 0, count := 0 }

/-- `buf_write` of the bytes at `data`. -/
def bufWrite (data : ℕ → UInt8) (b : BufDesc) : Option (BufDesc × Bool) :=
  if b.logsize = bufSizeNone then some (b, false)
  else if b.count > b.realsize then some (b, false)
  else
    match b.buf with
    | none => none
    | some m =>
        if b.wptr + b.realdsize ≤ m.length then
          some ({ b with
            buf := some (Heap.overwrite m b.wptr ((List.range b.realdsize).map data))
            wptr := b.modIncr b.wptr
            count := (b.count + 1) % 65536 }, true)
        else none

/-- `buf_read`, with the bytes that it copies; `none` stands for `PLATFORM_UNDERFLOW`. -/
def bufRead (b : BufDesc) : Option (BufDesc × Option (List UInt8)) :=
  if b.logsize = bufSizeNone ∨ b.count = 0 then some (b, none)
  else
    match b.buf with
    | none => none
    | some m =>
        if b.rptr + b.realdsize ≤ m.length then
          some ({ b with count := b.count - 1, rptr := b.modIncr b.rptr },
            some ((m.drop b.rptr).take b.realdsize))
        else none

/-- `buf_is_enabled`. -/
def bufIsEnabled (b : BufDesc) : Bool := b.logsize ≠ bufSizeNone

/-- `buf_get_size`. -/
def bufGetSize (b : BufDesc) : ℕ := if b.logsize = bufSizeNone then 0 else b.realsize

/-- `buf_get_count`. -/
def bufGetCount (b : BufDesc) : ℕ := b.count

end BufDesc

/-! ### Runs -/

/-- The calls for one resource. -/
inductive BufOp where
  | set (logsize : ℕ) (dsize : BufDsize) (mem : Option (ℕ → UInt8))
  /-- `buf_set` and, if it succeeds, `buf_flush`, as in `adc_setup_channel`. -/
  | setFlush (logsize : ℕ) (dsize : BufDsize) (mem : Option (ℕ → UInt8))
  | flush
  | write (data : ℕ → UInt8)
  | read

/-- A buffer, and the elements that were accepted and those that were read since it was last flushed
or resized. -/
structure BufRun where
  desc : BufDesc := {}
  accepted : List (List UInt8) := []
  taken : List (List UInt8) := []

namespace BufRun

/-- One call. -/
def step (s : BufRun) : BufOp → Option BufRun
  | .set logsize dsize mem => (s.desc.bufSet logsize dsize mem).map fun r => { desc := r.1 }
  | .setFlush logsize dsize mem =>
      (s.desc.bufSet logsize dsize mem).map fun r =>
        { desc := if r.2 then r.1.bufFlush else r.1 }
  | .flush => some { desc := s.desc.bufFlush }
  | .write data =>
      (s.desc.bufWrite data).map fun r =>
        { s with
          desc := r.1
          accepted :=
            if r.2 then s.accepted ++ [(List.range s.desc.realdsize).map data] else s.accepted }
  | .read =>
      s.desc.bufRead.map fun r =>
        { s with desc := r.1, taken := s.taken ++ r.2.toList }

/-- The buffer is a bounded queue: what was read are the first elements that were accepted, and what
it counts are the others. -/
structure Fifo (s : BufRun) : Prop where
  taken_prefix : s.taken <+: s.accepted
  count_eq : s.taken.length + s.desc.bufGetCount = s.accepted.length
  count_le : s.desc.bufGetCount ≤ s.desc.bufGetSize

/-- The call stays inside the memory of the buffer, and a write is refused if and only if the buffer
is full or disabled. -/
def Serves (s : BufRun) : BufOp → Prop
  | .write data =>
      ∃ d ok, s.desc.bufWrite data = some (d, ok) ∧
        (ok = false ↔ s.desc.bufIsEnabled = false ∨ s.desc.bufGetCount = s.desc.bufGetSize)
  | op => (s.step op).isSome

end BufRun

/-- The condition on a call under which a buffer is a bounded queue. A buffer is resized while it is
empty and its offsets lie in the new memory, and nothing is written to a full one. -/
def BufDesc.Careful (b : BufDesc) : BufOp → Prop
  | .set logsize dsize mem =>
      logsize % 256 + dsize.log < 31 ∧
        (mem.isSome → b.count = 0 ∧
          (logsize % 256 + dsize.log ≠ 0 →
            2 ^ dsize.log ∣ b.wptr ∧ b.wptr < 2 ^ (logsize % 256 + dsize.log)))
  | .setFlush logsize dsize _ => logsize % 256 + dsize.log < 31
  | .write _ =>
      b.logsize ≠ bufSizeNone →
        b.count < b.realsize ∧ b.count + 1 < 65536 ∧ (b.count + 1) * 2 ^ b.logdsize ≤ 65536
  | .flush | .read => True

instance (b : BufDesc) (op : BufOp) : Decidable (b.Careful op) := by
  cases op <;> dsimp only [BufDesc.Careful] <;> infer_instance

/-! ### The ring -/

/-- The element in the slot `k` of a memory with elements of `d` bytes. -/
def slot (m : List UInt8) (d k : ℕ) : List UInt8 := (m.drop (k * d)).take d

section slot

variable {m : List UInt8} {bs : List UInt8} {d j k : ℕ}

theorem slot_overwrite_self (hlen : bs.length = d) (hle : j * d + d ≤ m.length) :
    slot (Heap.overwrite m (j * d) bs) d j = bs := by
  subst hlen
  have htake : (m.take (j * bs.length)).length = j * bs.length := by
    rw [List.length_take]
    omega
  rw [slot, Heap.overwrite, List.append_assoc, List.drop_left' htake, List.take_left]

theorem slot_overwrite_of_ne (hlen : bs.length = d) (hle : j * d + d ≤ m.length) (hne : k ≠ j) :
    slot (Heap.overwrite m (j * d) bs) d k = slot m d k := by
  subst hlen
  have htake : (m.take (j * bs.length)).length = j * bs.length := by
    rw [List.length_take]
    omega
  rcases Nat.lt_or_gt_of_ne hne with hlt | hgt
  · -- before what was written
    have hmul : (k + 1) * bs.length ≤ j * bs.length := Nat.mul_le_mul_right _ hlt
    rw [Nat.add_mul, Nat.one_mul] at hmul
    rw [slot, slot, Heap.overwrite, List.append_assoc, List.drop_append_of_le_length (by omega),
      List.take_append_of_le_length (by rw [List.length_drop]; omega), List.drop_take,
      List.take_take, Nat.min_eq_left (by omega)]
  · obtain ⟨i, rfl⟩ := Nat.exists_eq_add_of_lt hgt
    have hmul : (j + i + 1) * bs.length = j * bs.length + bs.length + i * bs.length := by ring
    rw [slot, slot, hmul, Heap.drop_overwrite bs _ (by omega)]

end slot

/-! ### The invariant -/

/-- The number of slots that the 16-bit offsets of a buffer reach. -/
def BufDesc.slots (b : BufDesc) : ℕ := 2 ^ (min b.logsize 16 - b.logdsize)

/-- A buffer in use, with the queue `q` from the slot `r` on. -/
structure BufRun.Stores (s : BufRun) (m : List UInt8) (r : ℕ) (q : List (List UInt8)) : Prop where
  buf : s.desc.buf = some m
  length : m.length = 2 ^ s.desc.logsize
  logdsize_le : s.desc.logdsize ≤ min s.desc.logsize 16
  rptr : s.desc.rptr = r * 2 ^ s.desc.logdsize
  wptr : s.desc.wptr = (r + q.length) % s.desc.slots * 2 ^ s.desc.logdsize
  holds : Ring.Holds s.desc.slots (slot m (2 ^ s.desc.logdsize)) r q
  count : s.desc.count = q.length
  count_lt : q.length < 65536
  accepted : s.accepted = s.taken ++ q

/-- The invariant of a run. -/
inductive BufRun.Valid (s : BufRun) : Prop
  | disabled (hsize : s.desc.logsize = bufSizeNone) (hcount : s.desc.count = 0)
      (hptr : s.desc.wptr = s.desc.rptr) (hlt : s.desc.wptr < 65536) (hlog : s.accepted = s.taken)
  | enabled {m : List UInt8} {r : ℕ} {q : List (List UInt8)} (hsize : s.desc.logsize ≠ bufSizeNone)
      (h : s.Stores m r q)

section Valid

variable {s s' : BufRun} {m : List UInt8} {r : ℕ} {q : List (List UInt8)} {b : BufDesc}

theorem BufDesc.slots_mul (h : b.logdsize ≤ min b.logsize 16) :
    b.slots * 2 ^ b.logdsize = 2 ^ min b.logsize 16 := by
  rw [BufDesc.slots, ← Nat.pow_add, Nat.sub_add_cancel h]

/-- `BUF_MOD_INCR` goes on to the next slot. -/
theorem BufDesc.modIncr_eq (h : b.logdsize ≤ min b.logsize 16) (k : ℕ) :
    b.modIncr (k * 2 ^ b.logdsize) = (k + 1) % b.slots * 2 ^ b.logdsize := by
  have hmod : ∀ n, n % 2 ^ b.logsize % 65536 = n % 2 ^ min b.logsize 16 := by
    intro n
    rcases Nat.le_total b.logsize 16 with hle | hle
    · rw [Nat.min_eq_left hle]
      exact Nat.mod_eq_of_lt ((Nat.mod_lt _ (Nat.two_pow_pos _)).trans_le
        (Nat.pow_le_pow_right (by decide) hle))
    · rw [Nat.min_eq_right hle]
      exact Nat.mod_mod_of_dvd _ (Nat.pow_dvd_pow 2 hle)
  rw [BufDesc.modIncr, hmod, ← BufDesc.slots_mul h, ← Nat.succ_mul, Nat.mul_mod_mul_right]

/-- A slot lies in the memory. -/
theorem BufRun.Stores.slot_le (h : s.Stores m r q) {k : ℕ} (hk : k < s.desc.slots) :
    k * 2 ^ s.desc.logdsize + 2 ^ s.desc.logdsize ≤ m.length := by
  have hmul := Nat.mul_le_mul_right (2 ^ s.desc.logdsize) (Nat.succ_le_of_lt hk)
  rw [BufDesc.slots_mul h.logdsize_le, Nat.succ_mul] at hmul
  rw [h.length]
  exact hmul.trans (Nat.pow_le_pow_right (by decide) (Nat.min_le_left _ _))

/-- A valid buffer is a bounded queue. -/
theorem BufRun.Valid.fifo (h : s.Valid) : s.Fifo := by
  cases h with
  | disabled hsize hcount hptr hlt hlog =>
    refine ⟨hlog ▸ List.prefix_rfl, ?_, ?_⟩
    · rw [BufDesc.bufGetCount, hcount, hlog, Nat.add_zero]
    · rw [BufDesc.bufGetCount, hcount]
      exact Nat.zero_le _
  | enabled hsize h =>
    refine ⟨h.accepted ▸ List.prefix_append _ _, ?_, ?_⟩
    · rw [BufDesc.bufGetCount, h.count, h.accepted, List.length_append]
    · rw [BufDesc.bufGetCount, BufDesc.bufGetSize, if_neg hsize, h.count]
      refine h.holds.length_le.trans (Nat.pow_le_pow_right (by decide) ?_)
      exact Nat.sub_le_sub_right (Nat.min_le_left _ _) _

/-! ### Steps -/

/-- An empty buffer whose offsets are those of a slot. -/
theorem BufRun.valid_of_empty (hbuf : b.logsize ≠ bufSizeNone →
      ∃ m, b.buf = some m ∧ m.length = 2 ^ b.logsize)
    (hlog : b.logsize ≠ bufSizeNone → b.logdsize ≤ min b.logsize 16)
    (hcount : b.count = 0) (hptr : b.wptr = b.rptr) (hlt : b.wptr < 65536)
    (hslot : b.logsize ≠ bufSizeNone → ∃ r < b.slots, b.rptr = r * 2 ^ b.logdsize) :
    BufRun.Valid { desc := b } := by
  by_cases hsize : b.logsize = bufSizeNone
  · exact .disabled hsize hcount hptr hlt rfl
  · obtain ⟨m, hm, hlen⟩ := hbuf hsize
    obtain ⟨r, hr, hrptr⟩ := hslot hsize
    refine .enabled hsize ⟨hm, hlen, hlog hsize, hrptr, ?_, .nil hr, hcount, by decide, rfl⟩
    rw [List.length_nil, Nat.add_zero, Nat.mod_eq_of_lt hr, ← hrptr, hptr]

theorem BufRun.Stores.wptr_lt (h : s.Stores m r q) : s.desc.wptr < 65536 := by
  have hmod : (r + q.length) % s.desc.slots < s.desc.slots := Nat.mod_lt _ (Nat.two_pow_pos _)
  have hmul := Nat.mul_lt_mul_of_pos_right hmod (Nat.two_pow_pos s.desc.logdsize)
  rw [BufDesc.slots_mul h.logdsize_le, ← h.wptr] at hmul
  exact hmul.trans_le (Nat.pow_le_pow_right (by decide) (Nat.min_le_right _ _))

/-- The offsets of an empty buffer. -/
theorem BufRun.Valid.wptr_eq (h : s.Valid) (hcount : s.desc.count = 0) :
    s.desc.wptr = s.desc.rptr ∧ s.desc.wptr < 65536 := by
  cases h with
  | disabled _ _ hptr hlt _ => exact ⟨hptr, hlt⟩
  | enabled _ h =>
    refine ⟨?_, h.wptr_lt⟩
    rw [h.wptr, ← h.count, hcount, Nat.add_zero, Nat.mod_eq_of_lt h.holds.lt, h.rptr]

theorem BufRun.Valid.flush (h : s.Valid) : BufRun.Valid { desc := s.desc.bufFlush } := by
  refine BufRun.valid_of_empty (fun hsize => ?_) (fun hsize => ?_) rfl rfl
    (Nat.zero_lt_succ _) fun _ => ⟨0, Nat.two_pow_pos _, (Nat.zero_mul _).symm⟩ <;> cases h with
  | disabled h => exact absurd h hsize
  | enabled _ h => first | exact ⟨_, h.buf, h.length⟩ | exact h.logdsize_le

/-- What `buf_set` makes of a buffer. -/
theorem BufDesc.bufSet_eq {n : ℕ} {dsize : BufDsize} (mem : Option (ℕ → UInt8))
    (hn : n % 256 + dsize.log < 31) :
    ∃ b', b.bufSet n dsize mem = some (b', mem.isSome || (n % 256 == bufSizeNone)) ∧
      (mem = none → b'.logsize = bufSizeNone ∧ b'.count = 0 ∧ b'.wptr = 0 ∧ b'.rptr = 0) ∧
      (mem.isSome → b'.logsize = n % 256 + dsize.log ∧ b'.logdsize = dsize.log ∧
        b'.count = b.count ∧ b'.wptr = b.wptr ∧ b'.rptr = b.rptr ∧
        ∃ m, b'.buf = some m ∧ m.length = 2 ^ b'.logsize) := by
  have hmod : (n % 256 + dsize.log) % 256 = n % 256 + dsize.log := Nat.mod_eq_of_lt (by omega)
  have hshift : ¬ 31 ≤ n % 256 + dsize.log := by omega
  cases mem with
  | none =>
    refine ⟨{ b with
      logdsize := dsize.log, buf := none, logsize := bufSizeNone, rptr := 0, wptr := 0,
      count := 0 }, ?_, fun _ => ⟨rfl, rfl, rfl, rfl⟩, nofun⟩
    simp only [BufDesc.bufSet, hmod, hshift, ↓reduceIte]
    rfl
  | some fresh =>
    refine ⟨{ b with
      logdsize := dsize.log
      logsize := n % 256 + dsize.log
      buf := some ((List.range (2 ^ (n % 256 + dsize.log))).map fun i =>
        ((b.buf.getD [])[i]?).getD (fresh i)) }, ?_, nofun, fun _ =>
      ⟨rfl, rfl, rfl, rfl, rfl, _, rfl, by rw [List.length_map, List.length_range]⟩⟩
    simp only [BufDesc.bufSet, hmod, hshift, ↓reduceIte]
    rfl

theorem BufDsize.log_le (d : BufDsize) : d.log ≤ 2 := by
  cases d <;> decide

/-- Resizing an empty buffer, or one that is emptied then. -/
theorem BufRun.Valid.set (h : s.Valid) {n : ℕ} {dsize : BufDsize} {mem : Option (ℕ → UInt8)}
    (hc : s.desc.Careful (.set n dsize mem)) :
    ∃ s', s.step (.set n dsize mem) = some s' ∧ s'.Valid := by
  obtain ⟨hn, hempty⟩ := hc
  obtain ⟨b', hset, hnone, hsome⟩ := BufDesc.bufSet_eq (b := s.desc) mem hn
  refine ⟨{ desc := b' }, by rw [BufRun.step, hset]; rfl, ?_⟩
  cases mem with
  | none =>
    obtain ⟨hsize, hcount, hwptr, hrptr⟩ := hnone rfl
    exact .disabled hsize hcount (hwptr.trans hrptr.symm) (by rw [hwptr]; decide) rfl
  | some fresh =>
    obtain ⟨hsize, hdsize, hcount, hwptr, hrptr, hbuf⟩ := hsome rfl
    obtain ⟨hzero, hslot⟩ := hempty rfl
    obtain ⟨hptr, hptr_lt⟩ := h.wptr_eq hzero
    have hle := dsize.log_le
    have hlog : b'.logdsize ≤ min b'.logsize 16 := by
      rw [hsize, hdsize]
      omega
    refine BufRun.valid_of_empty (fun _ => hbuf) (fun _ => hlog) (hcount.trans hzero)
      (by rw [hwptr, hrptr, hptr]) (by rw [hwptr]; exact hptr_lt) fun hne => ?_
    rw [hsize] at hne
    obtain ⟨⟨k, hk⟩, hlt⟩ := hslot hne
    refine ⟨k, ?_, ?_⟩
    · -- the offset is below both bounds
      have hmin : s.desc.wptr < 2 ^ min b'.logsize 16 := by
        rcases Nat.le_total b'.logsize 16 with hcase | hcase
        · rwa [Nat.min_eq_left hcase, hsize]
        · rwa [Nat.min_eq_right hcase]
      rw [← BufDesc.slots_mul hlog, hk, hdsize, Nat.mul_comm] at hmin
      exact Nat.lt_of_mul_lt_mul_right hmin
    · rw [hrptr, ← hptr, hk, hdsize, Nat.mul_comm]

theorem BufRun.Valid.setFlush {n : ℕ} {dsize : BufDsize} {mem : Option (ℕ → UInt8)}
    (hn : n % 256 + dsize.log < 31) :
    ∃ s', s.step (.setFlush n dsize mem) = some s' ∧ s'.Valid := by
  obtain ⟨b', hset, hnone, hsome⟩ := BufDesc.bufSet_eq (b := s.desc) mem hn
  refine ⟨_, by rw [BufRun.step, hset]; rfl, ?_⟩
  cases mem with
  | none =>
    obtain ⟨hsize, hcount, hwptr, hrptr⟩ := hnone rfl
    dsimp only
    split
    · exact .disabled hsize rfl rfl (Nat.zero_lt_succ _) rfl
    · exact .disabled hsize hcount (hwptr.trans hrptr.symm) (by rw [hwptr]; decide) rfl
  | some fresh =>
    obtain ⟨hsize, hdsize, -, -, -, hbuf⟩ := hsome rfl
    have hle := dsize.log_le
    have hlog : b'.logdsize ≤ min b'.logsize 16 := by
      rw [hsize, hdsize]
      omega
    exact BufRun.valid_of_empty (fun _ => hbuf) (fun _ => hlog) rfl rfl
      (Nat.zero_lt_succ _) fun _ => ⟨0, Nat.two_pow_pos _, (Nat.zero_mul _).symm⟩

/-- **Writing.** An element that is accepted goes behind the others. -/
theorem BufRun.Valid.write (h : s.Valid) {data : ℕ → UInt8} (hc : s.desc.Careful (.write data)) :
    s.Serves (.write data) ∧ ∃ s', s.step (.write data) = some s' ∧ s'.Valid := by
  cases h with
  | disabled hsize hcount hptr hlt hlog =>
    have hwrite : s.desc.bufWrite data = some (s.desc, false) := if_pos hsize
    refine ⟨⟨_, _, hwrite, ?_⟩, _, by rw [BufRun.step, hwrite]; rfl,
      .disabled hsize hcount hptr hlt hlog⟩
    simp [BufDesc.bufIsEnabled, hsize]
  | @enabled m r q hsize h =>
    obtain ⟨hroom, hlt, hmul⟩ := hc hsize
    rw [h.count] at hroom hlt hmul
    have hslots : q.length < s.desc.slots := by
      rcases Nat.le_total s.desc.logsize 16 with hcase | hcase
      · rwa [BufDesc.slots, Nat.min_eq_left hcase]
      · refine Nat.lt_of_mul_lt_mul_right (a := 2 ^ s.desc.logdsize) ?_
        rw [BufDesc.slots_mul h.logdsize_le, Nat.min_eq_right hcase]
        exact (Nat.mul_lt_mul_of_pos_right (Nat.lt_succ_self _) (Nat.two_pow_pos _)).trans_le hmul
    have hle := h.slot_le (Nat.mod_lt (r + q.length) (Nat.two_pow_pos _))
    have hlen : ((List.range s.desc.realdsize).map data).length = 2 ^ s.desc.logdsize := by
      rw [List.length_map, List.length_range]
      rfl
    have hwrite : s.desc.bufWrite data = some ({ s.desc with
        buf := some (Heap.overwrite m s.desc.wptr ((List.range s.desc.realdsize).map data))
        wptr := s.desc.modIncr s.desc.wptr
        count := (s.desc.count + 1) % 65536 }, true) := by
      rw [BufDesc.bufWrite, if_neg hsize, if_neg (by rw [h.count]; omega), h.buf]
      exact if_pos (by rw [h.wptr]; exact hle)
    refine ⟨⟨_, _, hwrite, ?_⟩, _, by rw [BufRun.step, hwrite]; rfl, ?_⟩
    · have hfull : s.desc.bufGetCount ≠ s.desc.bufGetSize := by
        rw [BufDesc.bufGetCount, BufDesc.bufGetSize, if_neg hsize, h.count]
        exact hroom.ne
      simp [BufDesc.bufIsEnabled, hsize, hfull]
    · refine .enabled (r := r) (q := q ++ [(List.range s.desc.realdsize).map data]) hsize
        { buf := rfl, length := ?_, logdsize_le := h.logdsize_le, rptr := h.rptr, wptr := ?_,
          holds := ?_, count := ?_, count_lt := ?_, accepted := ?_ }
      · rw [Heap.overwrite_length (by rw [hlen, h.wptr]; exact hle)]
        exact h.length
      · change s.desc.modIncr s.desc.wptr = _
        rw [h.wptr, BufDesc.modIncr_eq h.logdsize_le, Nat.mod_add_mod, List.length_append]
        rfl
      · refine h.holds.push hslots ?_ fun k _ hne => ?_
        · rw [h.wptr]
          exact slot_overwrite_self hlen hle
        · rw [h.wptr]
          exact slot_overwrite_of_ne hlen hle hne
      · change (s.desc.count + 1) % 65536 = _
        rw [h.count, List.length_append, Nat.mod_eq_of_lt hlt]
        rfl
      · rw [List.length_append]
        exact hlt
      · change s.accepted ++ _ = _
        rw [h.accepted, List.append_assoc]

/-- **Reading.** It gives the first element that was accepted and not read yet. -/
theorem BufRun.Valid.read (h : s.Valid) : ∃ s', s.step .read = some s' ∧ s'.Valid := by
  have hempty : s.desc.bufRead = some (s.desc, none) → s.step .read = some s := by
    intro hread
    simp only [BufRun.step, hread, Option.map_some, Option.toList_none, List.append_nil]
  cases h with
  | disabled hsize hcount hptr hlt hlog =>
    exact ⟨s, hempty (if_pos (.inl hsize)), .disabled hsize hcount hptr hlt hlog⟩
  | @enabled m r q hsize h =>
    cases q with
    | nil => exact ⟨s, hempty (if_pos (.inr h.count)), .enabled hsize h⟩
    | cons a q =>
      have hne : ¬ (s.desc.logsize = bufSizeNone ∨ s.desc.count = 0) := by
        rw [h.count]
        simpa using hsize
      have hle := h.slot_le h.holds.lt
      have hhead : (m.drop s.desc.rptr).take s.desc.realdsize = a := by
        rw [h.rptr]
        exact h.holds.head
      have hread : s.desc.bufRead = some ({ s.desc with
          count := s.desc.count - 1, rptr := s.desc.modIncr s.desc.rptr }, some a) := by
        rw [BufDesc.bufRead, if_neg hne, h.buf]
        refine (if_pos (by rw [h.rptr]; exact hle)).trans ?_
        simp only [hhead, h.buf]
      have hstores : BufRun.Stores { s with
          desc := { s.desc with
            count := s.desc.count - 1, rptr := s.desc.modIncr s.desc.rptr }
          taken := s.taken ++ [a] } m ((r + 1) % s.desc.slots) q := by
        refine { buf := h.buf, length := h.length, logdsize_le := h.logdsize_le, rptr := ?_,
                 wptr := ?_, holds := h.holds.pop, count := ?_, count_lt := ?_, accepted := ?_ }
        · change s.desc.modIncr s.desc.rptr = _
          rw [h.rptr, BufDesc.modIncr_eq h.logdsize_le]
        · change s.desc.wptr = ((r + 1) % s.desc.slots + _) % s.desc.slots * _
          rw [h.wptr, Nat.mod_add_mod, List.length_cons, Nat.add_assoc, Nat.add_comm 1]
        · change s.desc.count - 1 = _
          rw [h.count]
          rfl
        · exact (Nat.lt_succ_self _).trans h.count_lt
        · change s.accepted = s.taken ++ [a] ++ q
          rw [h.accepted, List.append_assoc]
          rfl
      refine ⟨_, ?_, BufRun.Valid.enabled ?_ hstores⟩
      · rw [BufRun.step, hread]
        rfl
      · exact hsize

/-- Every call that meets the condition keeps the invariant. -/
theorem BufRun.Valid.step (h : s.Valid) {op : BufOp} (hc : s.desc.Careful op) :
    s.Serves op ∧ ∃ s', s.step op = some s' ∧ s'.Valid := by
  have hserves : ∀ {op : BufOp}, (∃ s', s.step op = some s' ∧ s'.Valid) → (s.step op).isSome :=
    fun ⟨s', hs', _⟩ => by rw [hs']; rfl
  cases op with
  | set n dsize mem => exact ⟨hserves (h.set hc), h.set hc⟩
  | setFlush n dsize mem => exact ⟨hserves (setFlush hc), setFlush hc⟩
  | flush => exact ⟨rfl, _, rfl, h.flush⟩
  | write data => exact h.write hc
  | read => exact ⟨hserves h.read, h.read⟩

end Valid

/-! ### The buffer is a queue -/

/-- **The buffers of the character devices.** As long as a buffer is resized only while it is empty
and its offsets lie in the new memory, and nothing is written to a full one, it is a bounded queue
from the start on, and every call is served. -/
theorem buf_fifo_of_careful {s : BufRun}
    (h : Reach BufRun.step (fun s op => s.desc.Careful op) {} s) :
    s.Fifo ∧ ∀ op, s.desc.Careful op → s.Serves op := by
  have hvalid : s.Valid := by
    refine h.invariant (.disabled rfl rfl rfl (by decide) rfl) fun s op s' hs hc hstep => ?_
    obtain ⟨-, s₁, hs₁, hvalid⟩ := hs.step hc
    obtain rfl := Option.some.inj (hs₁.symm.trans hstep)
    exact hvalid
  exact ⟨hvalid.fifo, fun op hc => (hvalid.step hc).1⟩

/-- A buffer of two bytes, to which one is written and from which it is read again. -/
theorem buf_fifo_of_careful_two_bytes :
    ∃ s, Reach BufRun.step (fun s op => s.desc.Careful op) {} s ∧ s.taken = [[0x61]] ∧
      s.Fifo ∧ ∀ op, s.desc.Careful op → s.Serves op := by
  have h : ∀ hrun : (runAll (guarded BufRun.step fun s op => s.desc.Careful op)
      [.set 1 .u8 (some fun _ => 0), .write fun _ => 0x61, .read] {}).isSome,
      (Option.get _ hrun).taken = [[0x61]] := by decide
  have hreach := reach_get BufRun.step (fun s op => s.desc.Careful op)
    [.set 1 .u8 (some fun _ => 0), .write fun _ => 0x61, .read] (s := {}) (by decide)
  exact ⟨_, hreach, h _, buf_fifo_of_careful hreach⟩

/-- Three bytes are written to a buffer of two. -/
theorem not_buf_fifo_full :
    ¬ ∀ s, Reach BufRun.step (fun _ _ => True) {} s → s.Fifo := by
  intro h
  have hrun : ∀ hrun : (runAll (guarded BufRun.step fun _ _ => True)
      [.set 1 .u8 (some fun _ => 0), .write fun _ => 0x61, .write fun _ => 0x62,
        .write fun _ => 0x63] ({} : BufRun)).isSome,
      ¬ (Option.get _ hrun).desc.count ≤ (Option.get _ hrun).desc.bufGetSize := by decide
  have hreach := reach_get BufRun.step (fun _ _ => True)
    [.set 1 .u8 (some fun _ => 0), .write fun _ => 0x61, .write fun _ => 0x62,
      .write fun _ => 0x63] (s := {}) (by decide)
  exact hrun _ (h _ hreach).count_le

end ELuaBrain.Device
