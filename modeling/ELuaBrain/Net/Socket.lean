import Mathlib.Data.List.Basic
import Mathlib.Data.List.GetD
import Mathlib.Logic.Function.Basic
import ELuaBrain.System.Ring

/-!
# The buffer of a socket

The circular buffer of a socket in `elua_uip.c`, with its indexes of type `elua_net_size`. What is
received is written to it in the callback of uIP. An access outside of its memory has no result.

## Main definitions

* `Sock` : the buffer in the state of a socket.
* `readToBuffer`, `setBuffer` : the functions that fill it and set it up.
* `Stores` : the bytes that it stores.

## Main results

* `Stores.readToBuffer` : what is stored after a segment.
* `Stores.load`, `Stores.release` : reading and removing the first bytes.
-/

namespace ELuaBrain.Net

/-- A value of type `elua_net_size`, a signed number of 16 bits. -/
def netSize (x : ℤ) : ℤ := if x % 65536 < 32768 then x % 65536 else x % 65536 - 65536

/-- The errors of a socket. -/
inductive NetErr where
  | ok
  | timedOut
  | closed
  | aborted
  | overflow
  | linkDown
  deriving DecidableEq

/-- `ELUA_NET_NO_SPLIT`. -/
def eluaNetNoSplit : ℤ := -1

/-- The state of a socket that has a buffer, with the memory of the buffer. -/
structure Sock where
  /-- The number of bytes that were allocated. -/
  size : ℕ
  buf : ℕ → UInt8 := fun _ => 0
  split : ℤ := eluaNetNoSplit
  total : ℤ := 0
  crt : ℤ := 0
  ridx : ℤ := 0
  widx : ℤ := 0
  res : NetErr := .ok

/-- The memory `buf` with the bytes at `pos`. -/
def withBytes (buf : ℕ → UInt8) (pos : ℕ) (bytes : List UInt8) : ℕ → UInt8 := fun i =>
  if pos ≤ i ∧ i < pos + bytes.length then bytes.getD (i - pos) 0 else buf i

namespace Sock

variable (s : Sock)

/-- `memcpy` to the buffer. -/
def store (pos : ℤ) (bytes : List UInt8) : Option Sock :=
  if 0 ≤ pos ∧ pos + bytes.length ≤ s.size then
    some { s with buf := withBytes s.buf pos.toNat bytes }
  else none

/-- `memcpy` from the buffer. -/
def load (pos len : ℤ) : Option (List UInt8) :=
  if 0 ≤ pos ∧ 0 ≤ len ∧ pos + len ≤ s.size then
    some ((List.range len.toNat).map fun i => s.buf (pos.toNat + i))
  else none

/-- The transfers of `eluah_uip_read_to_buffer`, of which the second one is to the start of the
buffer. -/
def transfer (appdata : List UInt8) (total : ℤ) : Option Sock :=
  let temp := min total (s.total - s.widx)
  if temp < 0 then none
  else
    (s.store s.widx (appdata.take temp.toNat)).bind fun s =>
      let s := { s with widx := netSize (s.widx + temp) }
      if s.widx = s.total then
        if temp < total then
          (s.store 0 ((appdata.drop temp.toNat).take (total - temp).toNat)).map fun s : Sock =>
            { s with widx := netSize (total - temp), crt := netSize (s.crt + total) }
        else some { s with widx := 0, crt := netSize (s.crt + total) }
      else some { s with crt := netSize (s.crt + total) }

/-- `eluah_uip_read_to_buffer`. -/
def readToBuffer (appdata : List UInt8) : Option Sock :=
  let available := netSize (s.total - s.crt)
  let total : ℤ := if (appdata.length : ℤ) > available then available else appdata.length
  let s := if (appdata.length : ℤ) > available then { s with res := .overflow } else s
  if available = 0 ∨ total = 0 then some s else s.transfer appdata total

/-- The end of `elua_net_set_buffer`, with `bufsize` bytes at `buf`. -/
def setBuffer (bufsize : ℕ) (buf : ℕ → UInt8) : Sock :=
  { s with size := bufsize, buf, total := netSize bufsize, crt := 0, ridx := 0, widx := 0 }

end Sock

/-- The bytes `q` are stored in the buffer, from the slot `r` on. -/
structure Stores (s : Sock) (r : ℕ) (q : List UInt8) : Prop where
  size_le : s.size ≤ 32767
  holds : Ring.Holds s.size s.buf r q
  total_eq : s.total = s.size
  crt_eq : s.crt = q.length
  widx_eq : s.widx = ((r + q.length) % s.size : ℕ)

variable {s s' : Sock} {r : ℕ} {q : List UInt8}

theorem netSize_natCast {k : ℕ} (h : k ≤ 32767) : netSize k = k := by
  rw [netSize]
  omega

theorem Sock.store_eq {pos : ℕ} {bytes : List UInt8} (h : pos + bytes.length ≤ s.size) :
    s.store pos bytes = some { s with buf := withBytes s.buf pos bytes } :=
  if_pos ⟨Int.natCast_nonneg _, by exact_mod_cast h⟩

theorem withBytes_add (buf : ℕ → UInt8) (pos : ℕ) {bytes : List UInt8} {i : ℕ}
    (hi : i < bytes.length) : withBytes buf pos bytes (pos + i) = bytes[i] := by
  rw [withBytes, if_pos ⟨Nat.le_add_right _ _, Nat.add_lt_add_left hi _⟩, Nat.add_sub_cancel_left,
    List.getD_eq_getElem _ _ hi]

theorem withBytes_of_not {buf : ℕ → UInt8} {pos : ℕ} {bytes : List UInt8} {k : ℕ}
    (hk : k < pos ∨ pos + bytes.length ≤ k) : withBytes buf pos bytes k = buf k :=
  if_neg (by omega)

/-- Bytes are written to consecutive slots of the ring from `w` on. -/
structure Written (K w : ℕ) (buf buf' : ℕ → UInt8) (bytes : List UInt8) : Prop where
  new : ∀ i (hi : i < bytes.length), buf' ((w + i) % K) = bytes[i]
  old : ∀ k, (∀ i < bytes.length, k ≠ (w + i) % K) → buf' k = buf k

/-- The bytes fit before the end of the ring. -/
theorem written_once {K w : ℕ} {buf : ℕ → UInt8} {bytes : List UInt8} (h : w + bytes.length ≤ K) :
    Written K w buf (withBytes buf w bytes) bytes := by
  refine ⟨fun i hi => ?_, fun k hk => withBytes_of_not ?_⟩
  · rw [Nat.mod_eq_of_lt (by omega)]
    exact withBytes_add buf w hi
  · by_contra hin
    obtain ⟨i, rfl⟩ := Nat.exists_eq_add_of_le (by omega : w ≤ k)
    exact hk i (by omega) (Nat.mod_eq_of_lt (by omega)).symm

/-- The bytes go on at the start of the ring. -/
theorem written_twice {K w : ℕ} {buf : ℕ → UInt8} {bytes : List UInt8} (hw : w < K)
    (hK : K ≤ w + bytes.length) (hlen : bytes.length ≤ K) :
    Written K w buf (withBytes (withBytes buf w (bytes.take (K - w))) 0 (bytes.drop (K - w)))
      bytes := by
  have htake : (bytes.take (K - w)).length = K - w := by
    rw [List.length_take]
    omega
  have hdrop : (bytes.drop (K - w)).length = bytes.length - (K - w) := List.length_drop
  refine ⟨fun i hi => ?_, fun k hk => ?_⟩
  · rcases Nat.lt_or_ge i (K - w) with hlt | hge
    · rw [Nat.mod_eq_of_lt (by omega), withBytes_of_not (by omega),
        withBytes_add _ _ (htake.symm ▸ hlt), List.getElem_take]
    · have hmod : (w + i) % K = 0 + (i - (K - w)) := by
        rw [Nat.mod_eq_sub_mod (by omega), Nat.mod_eq_of_lt (by omega)]
        omega
      rw [hmod, withBytes_add _ _ (by omega), List.getElem_drop]
      simp only [Nat.add_sub_cancel' hge]
  · have hlow : ¬ k < bytes.length - (K - w) := fun hlt => by
      refine hk (K - w + k) (by omega) ?_
      rw [Nat.mod_eq_sub_mod (by omega), Nat.mod_eq_of_lt (by omega)]
      omega
    have hhigh : k < w ∨ K ≤ k := by
      by_contra hin
      obtain ⟨i, rfl⟩ := Nat.exists_eq_add_of_le (by omega : w ≤ k)
      exact hk i (by omega) (Nat.mod_eq_of_lt (by omega)).symm
    rw [withBytes_of_not (by omega), withBytes_of_not (by omega)]

theorem holds_write {K : ℕ} {buf buf' : ℕ → UInt8} {bytes : List UInt8}
    (h : Ring.Holds K buf r q) (hlen : q.length + bytes.length ≤ K)
    (hw : Written K ((r + q.length) % K) buf buf' bytes) : Ring.Holds K buf' r (q ++ bytes) := by
  refine h.append hlen (fun i hi => ?_) fun i hi => hw.old _ fun j hj heq => ?_
  · rw [← Nat.add_assoc, ← Nat.mod_add_mod]
    exact hw.new i hi
  · rw [Nat.mod_add_mod, Nat.add_assoc] at heq
    exact Ring.mod_add_ne (Nat.lt_add_right j hi) (by omega) heq

/-- The transfers store the first bytes of a segment, if there is room for them. -/
theorem Stores.transfer (h : Stores s r q) (appdata : List UInt8) {n : ℕ} (hn : n ≤ appdata.length)
    (hroom : q.length + n ≤ s.size) :
    ∃ s', s.transfer appdata n = some s' ∧ Stores s' r (q ++ appdata.take n) ∧
      s'.size = s.size ∧ s'.ridx = s.ridx ∧ s'.split = s.split := by
  have hsize := h.size_le
  have hlen := h.holds.length_le
  obtain ⟨w, hw⟩ : ∃ w, w = (r + q.length) % s.size := ⟨_, rfl⟩
  have hwlt : w < s.size := hw ▸ Nat.mod_lt _ (Nat.zero_lt_of_lt h.holds.lt)
  have hwidx : s.widx = w := h.widx_eq.trans (congrArg Nat.cast hw.symm)
  have hbytes : (appdata.take n).length = n := by
    rw [List.length_take, Nat.min_eq_left hn]
  -- the state after the transfers, by what was written
  have hstores : ∀ {buf' : ℕ → UInt8} {widx : ℤ}, Written s.size w s.buf buf' (appdata.take n) →
      widx = ((w + n) % s.size : ℕ) →
      Stores { s with buf := buf', total := s.size, widx, crt := netSize (s.crt + n) } r
        (q ++ appdata.take n) :=
    fun hwritten hwidx' => by
      refine ⟨hsize, holds_write h.holds (hbytes.symm ▸ hroom) (hw ▸ hwritten), rfl, ?_, ?_⟩
      · dsimp only
        rw [h.crt_eq, List.length_append, hbytes, ← Int.natCast_add, netSize_natCast (by omega)]
      · rw [List.length_append, hbytes, ← Nat.add_assoc, ← Nat.mod_add_mod, ← hw]
        exact hwidx'
  rw [Sock.transfer, h.total_eq, hwidx]
  dsimp only
  rcases Nat.lt_or_ge (w + n) s.size with hfit | hover
  · have hmin : min (n : ℤ) (s.size - w) = n := by omega
    have hstore : w + (appdata.take n).length ≤ s.size := hbytes.symm ▸ hfit.le
    rw [hmin, if_neg (by omega), Int.toNat_natCast, Sock.store_eq hstore, Option.bind_some]
    dsimp only
    rw [hwidx, ← Int.natCast_add, netSize_natCast (by omega), h.total_eq, if_neg (by omega)]
    refine ⟨_, rfl, hstores (written_once hstore) ?_, rfl, rfl, rfl⟩
    rw [Nat.mod_eq_of_lt hfit]
  · have hmin : min (n : ℤ) (s.size - w) = (s.size - w : ℕ) := by omega
    have hstore : w + (appdata.take (s.size - w)).length ≤ s.size := by
      rw [List.length_take]
      omega
    rw [hmin, if_neg (by omega), Int.toNat_natCast, Sock.store_eq hstore, Option.bind_some]
    dsimp only
    have hend : (w : ℤ) + (s.size - w : ℕ) = s.size := by omega
    rw [hwidx, hend, netSize_natCast hsize, h.total_eq, if_pos rfl]
    rcases Nat.eq_or_lt_of_le hover with heq | hmore
    · -- the segment ends where the ring ends
      obtain rfl : n = s.size - w := by omega
      rw [if_neg (by omega)]
      refine ⟨_, rfl, hstores (written_once hstore) ?_, rfl, rfl, rfl⟩
      rw [← heq, Nat.mod_self]
      rfl
    · have hrest : (n : ℤ) - (s.size - w : ℕ) = (n - (s.size - w) : ℕ) := by omega
      have hfirst : (appdata.take n).take (s.size - w) = appdata.take (s.size - w) := by
        rw [List.take_take, Nat.min_eq_left (by omega)]
      have hsecond : (appdata.take n).drop (s.size - w) =
          (appdata.drop (s.size - w)).take (n - (s.size - w)) := List.drop_take ..
      have hwritten : Written s.size w s.buf
          (withBytes (withBytes s.buf w ((appdata.take n).take (s.size - w))) 0
            ((appdata.take n).drop (s.size - w))) (appdata.take n) :=
        written_twice hwlt (hbytes.symm ▸ hmore.le) (by omega)
      rw [hfirst, hsecond] at hwritten
      have hstore' : 0 + ((appdata.drop (s.size - w)).take (n - (s.size - w))).length ≤ s.size := by
        rw [List.length_take]
        omega
      have hsnd := Sock.store_eq (s := { s with
        buf := withBytes s.buf w (appdata.take (s.size - w)), total := s.size, widx :=
          s.size }) hstore'
      have hle : n - (s.size - w) ≤ 32767 := by omega
      rw [if_pos (by omega), hrest, Int.toNat_natCast, ← Int.natCast_zero, hsnd, Option.map_some,
        netSize_natCast hle]
      refine ⟨_, rfl, hstores hwritten ?_, rfl, rfl, rfl⟩
      rw [Nat.mod_eq_sub_mod hmore.le, Nat.mod_eq_of_lt (by omega)]
      omega

/-- **A segment.** Of a segment the bytes that fit are stored. -/
theorem Stores.readToBuffer (h : Stores s r q) (appdata : List UInt8) :
    ∃ s', s.readToBuffer appdata = some s' ∧ Stores s' r (q ++ appdata.take (s.size - q.length)) ∧
      s'.size = s.size ∧ s'.ridx = s.ridx ∧ s'.split = s.split := by
  have hsize := h.size_le
  have hlen := h.holds.length_le
  have havail : netSize (s.total - s.crt) = (s.size - q.length : ℕ) := by
    rw [h.total_eq, h.crt_eq, ← Int.natCast_sub hlen, netSize_natCast (by omega)]
  have htotal :
      (if (appdata.length : ℤ) > (s.size - q.length : ℕ) then ((s.size - q.length : ℕ) : ℤ)
      else appdata.length) = (min (s.size - q.length) appdata.length : ℕ) := by
    split_ifs <;> omega
  have htake : appdata.take (s.size - q.length) =
      appdata.take (min (s.size - q.length) appdata.length) := List.take_eq_take_min
  rw [Sock.readToBuffer, havail, htake, htotal]
  clear havail
  obtain ⟨res, hres⟩ : ∃ res, (if (appdata.length : ℤ) > (s.size - q.length : ℕ) then
      { s with res := .overflow } else s) = { s with res } := by
    split_ifs
    · exact ⟨_, rfl⟩
    · exact ⟨s.res, rfl⟩
  have h' : Stores { s with res } r q := ⟨hsize, h.holds, h.total_eq, h.crt_eq, h.widx_eq⟩
  rw [hres]
  split_ifs with hnone
  · have hzero : min (s.size - q.length) appdata.length = 0 := by omega
    rw [hzero, List.take_zero, List.append_nil]
    exact ⟨_, rfl, h', rfl, rfl, rfl⟩
  · exact h'.transfer appdata (Nat.min_le_right _ _) (by dsimp only; omega)

/-- **Reading.** Consecutive bytes of the memory are consecutive bytes of what is stored. -/
theorem Stores.load (h : Stores s r q) {k n : ℕ} (hend : (r + k) % s.size + n ≤ s.size)
    (hlen : k + n ≤ q.length) : s.load ((r + k) % s.size : ℕ) n = some ((q.drop k).take n) := by
  rw [Sock.load, if_pos ⟨Int.natCast_nonneg _, Int.natCast_nonneg _, by exact_mod_cast hend⟩,
    Int.toNat_natCast, Int.toNat_natCast]
  refine congrArg some (List.ext_getElem ?_ fun i hi hi' => ?_)
  · rw [List.length_map, List.length_range, List.length_take, List.length_drop]
    omega
  · rw [List.length_map, List.length_range] at hi
    have hmod : (r + (k + i)) % s.size = (r + k) % s.size + i := by
      rw [← Nat.add_assoc, ← Nat.mod_add_mod (r + k), Nat.mod_eq_of_lt (by omega)]
    rw [List.getElem_map, List.getElem_range, List.getElem_take, List.getElem_drop,
      ← h.holds.get (k + i) (by omega), hmod]

/-- The first bytes are removed, and the error of the socket is set. -/
theorem Stores.release (h : Stores s r q) {n : ℕ} (hn : n ≤ q.length) (res : NetErr) :
    Stores { s with crt := netSize (s.crt - n), res } ((r + n) % s.size) (q.drop n) := by
  have hlen := h.holds.length_le
  have hsize := h.size_le
  refine ⟨hsize, h.holds.advance n, h.total_eq, ?_, ?_⟩
  · dsimp only
    rw [h.crt_eq, List.length_drop, ← Int.natCast_sub hn, netSize_natCast (by omega)]
  · dsimp only
    rw [h.widx_eq, List.length_drop, Nat.mod_add_mod, Nat.add_assoc, Nat.add_sub_cancel' hn]

end ELuaBrain.Net
