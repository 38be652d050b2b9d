import ELuaBrain.System.Bytes
import ELuaBrain.Terminal.Console

/-!
# Reading from the console over TCP

The code of `std_read` of `stdtcp.c`. It is given the bytes of the client in packets, looks for the
end of a line in one packet at a time, and makes the length smaller while it compares it with what
has been read altogether.

The packets are what the calls of `elua_net_recv` store. The number of bytes that one of them is
asked for has 16 bits and a sign. The wait for a socket is left out.

## Main definitions

* `stdRead` : the function, which is still waiting if there is no result.
* `Received` : what is assumed of `elua_net_recv`.
* `firstStop` : when to return.
* `Plain` : the ways to cut a stream for which that is what happens.

## Main results

* `stdRead_stops` : what is stored, and what is returned.
-/

namespace ELuaBrain.Stdtcp

open Terminal (stdCtrlzCode)

/-! ### The code -/

/-- `DM_STDIN_NUM`. -/
def dmStdinNum : ℤ := 0

/-- The values of `_errno`. -/
inductive Errno where
  | einval
  deriving DecidableEq

/-- The loop of `std_read`, with the packets that are left. -/
def stdReadLoop (mem : Memory) (lptr len actsize : ℕ) :
    List (List UInt8) → Option (ℕ × Memory × List (List UInt8))
  | [] => none
  | packet :: packets =>
      let pktsize := packet.length
      let mem := mem.overlay lptr packet
      if stdCtrlzCode ∈ mem.slice lptr pktsize then some (0, mem, packets)
      else
        let actsize := actsize + pktsize
        if len ≤ actsize then some (len, mem, packets)
        else if 2 ≤ pktsize ∧ mem (lptr + (pktsize - 2)) = 13 ∧ mem (lptr + (pktsize - 1)) = 10 then
          some (actsize, mem, packets)
        else stdReadLoop mem (lptr + pktsize) (len - pktsize) actsize packets

/-- `std_read`. -/
def stdRead (mem : Memory) (fd : ℤ) (vptr len : ℕ) (packets : List (List UInt8)) :
    Option (Except Errno ℕ × Memory × List (List UInt8)) :=
  if fd ≠ dmStdinNum then some (.error .einval, mem, packets)
  else (stdReadLoop mem vptr len 0 packets).map fun r => (.ok r.1, r.2)

/-! ### What is claimed -/

/-- The number of bytes that `elua_net_recv` is asked for, an `elua_net_size`. -/
def requested (len : ℕ) : ℤ := Int.bmod len 65536

/-- Each call of `elua_net_recv` stores between 1 and the requested number of bytes. -/
def Received (len : ℕ) : List (List UInt8) → Prop
  | [] => True
  | packet :: packets =>
      (1 ≤ packet.length ∧ (packet.length : ℤ) ≤ requested len) ∧
        Received (len - packet.length) packets

/-- The bytes have the end-of-file character, fill the buffer, or end with CR LF. -/
def Stops (len : ℕ) (bytes : List UInt8) : Prop :=
  stdCtrlzCode ∈ bytes ∨ bytes.length = len ∨ [13, 10] <:+ bytes

instance Stops.decidable (len : ℕ) (bytes : List UInt8) : Decidable (Stops len bytes) :=
  inferInstanceAs (Decidable (_ ∨ _))

/-- The bytes after the first packet behind which they stop, and the packets that are left. -/
def firstStop (len : ℕ) (bytes : List UInt8) :
    List (List UInt8) → Option (List UInt8 × List (List UInt8))
  | [] => none
  | packet :: packets =>
      if Stops len (bytes ++ packet) then some (bytes ++ packet, packets)
      else firstStop len (bytes ++ packet) packets

/-- Up to where the bytes stop, each packet but the first has the end-of-file character, or what is
stored before and after it is less than the buffer in sum, and it is not just the LF of a CR LF. -/
def Plain (len : ℕ) (bytes : List UInt8) : List (List UInt8) → Prop
  | [] => True
  | packet :: packets =>
      (stdCtrlzCode ∉ packet → bytes ≠ [] → bytes.length + (bytes ++ packet).length < len ∧
        ¬(bytes.getLast? = some 13 ∧ packet = [10])) ∧
      (¬Stops len (bytes ++ packet) → Plain len (bytes ++ packet) packets)

section Packets

variable {mem : Memory} {vptr len : ℕ} {bytes packet : List UInt8} {packets : List (List UInt8)}

theorem requested_le : requested len ≤ len := by
  have hmod := @Int.bmod_def len 65536
  unfold requested
  omega

theorem length_le_of_received (h : Received len (packet :: packets)) : packet.length ≤ len := by
  have hle := h.1.2.trans requested_le
  omega

/-- The end of a line, from the last byte on. -/
theorem crlf_concat {y : UInt8} :
    [13, 10] <:+ bytes ++ [y] ↔ bytes.getLast? = some 13 ∧ y = 10 := by
  rw [List.suffix_concat_iff, ← List.singleton_suffix_iff_getLast?_eq_some]
  constructor
  · rintro (h | ⟨t, ht, hsuffix⟩)
    · cases h
    · have happend : [13] ++ [10] = t ++ [y] := ht
      obtain ⟨rfl, hy⟩ := List.append_inj' happend rfl
      exact ⟨hsuffix, (List.singleton_inj.mp hy).symm⟩
  · rintro ⟨hsuffix, rfl⟩
    exact .inr ⟨[13], rfl, hsuffix⟩

/-- The end of a line in the memory. -/
theorem crlf_iff (mem : Memory) (vptr : ℕ) (packet : List UInt8) :
    (2 ≤ packet.length ∧
      mem.overlay vptr packet (vptr + (packet.length - 2)) = 13 ∧
        mem.overlay vptr packet (vptr + (packet.length - 1)) = 10) ↔ [13, 10] <:+ packet := by
  obtain rfl | ⟨front, y, rfl⟩ := List.eq_nil_or_concat' packet
  · exact iff_of_false (fun h => absurd h.1 (by decide)) fun h => absurd h.length_le (by decide)
  obtain rfl | ⟨front, x, rfl⟩ := List.eq_nil_or_concat' front
  · rw [crlf_concat]
    exact iff_of_false (fun h => absurd h.1 (Nat.lt_irrefl 1)) fun h => nomatch h.1
  · have hlength : (front ++ [x] ++ [y]).length = front.length + 2 := by
      rw [List.length_append, List.length_append]
      rfl
    have hx : mem.overlay vptr (front ++ [x] ++ [y]) (vptr + front.length) = x := by
      rw [Memory.overlay_add (by omega)]
      simp
    have hy : mem.overlay vptr (front ++ [x] ++ [y]) (vptr + (front.length + 1)) = y := by
      rw [Memory.overlay_add (by omega)]
      simp
    rw [hlength, Nat.add_sub_cancel, hx, crlf_concat, List.getLast?_concat, Option.some.injEq]
    change 2 ≤ front.length + 2 ∧ x = 13 ∧ mem.overlay vptr _ (vptr + (front.length + 1)) = 10 ↔ _
    rw [hy]
    exact and_iff_right (Nat.le_add_left 2 _)

/-- The end of a line that is not just completed. -/
theorem crlf_append (hpacket : packet ≠ [])
    (hplain : ¬(bytes.getLast? = some 13 ∧ packet = [10])) :
    [13, 10] <:+ bytes ++ packet ↔ [13, 10] <:+ packet := by
  obtain ⟨front, y, rfl⟩ := (List.eq_nil_or_concat' packet).resolve_left hpacket
  rw [← List.append_assoc, crlf_concat, crlf_concat]
  obtain rfl | ⟨front, x, rfl⟩ := List.eq_nil_or_concat' front
  · rw [List.append_nil]
    refine iff_of_false (fun h => hplain ⟨h.1, ?_⟩) fun h => nomatch h.1
    rw [h.2]
    rfl
  · rw [← List.append_assoc, List.getLast?_concat, List.getLast?_concat]

/-- One packet, from what was stored before it. -/
theorem stdReadLoop_cons : stdReadLoop (mem.overlay vptr bytes) (vptr + bytes.length)
      (len - bytes.length) bytes.length (packet :: packets) =
    let stored := mem.overlay vptr (bytes ++ packet)
    if stdCtrlzCode ∈ packet then some (0, stored, packets)
    else if len - bytes.length ≤ (bytes ++ packet).length then
      some (len - bytes.length, stored, packets)
    else if [13, 10] <:+ packet then some ((bytes ++ packet).length, stored, packets)
    else stdReadLoop stored (vptr + (bytes ++ packet).length) (len - (bytes ++ packet).length)
      (bytes ++ packet).length packets := by
  have hcrlf := crlf_iff (mem.overlay vptr bytes) (vptr + bytes.length) packet
  rw [stdReadLoop]
  simp only [Memory.slice_overlay, hcrlf]
  simp only [Memory.overlay_overlay, List.length_append, Nat.add_assoc, Nat.sub_sub]

/-- **What is stored**, on whatever packets. -/
theorem stdReadLoop_stores (bytes : List UInt8) (hlen : bytes.length ≤ len)
    (hreceived : Received (len - bytes.length) packets) {n : ℕ} {mem' : Memory}
    {rest : List (List UInt8)}
    (h : stdReadLoop (mem.overlay vptr bytes) (vptr + bytes.length) (len - bytes.length)
      bytes.length packets = some (n, mem', rest)) :
    ∃ taken last, packets = taken ++ last :: rest ∧
      mem' = mem.overlay vptr (bytes ++ (taken.flatten ++ last)) ∧
      (bytes ++ (taken.flatten ++ last)).length ≤ len ∧
      stdCtrlzCode ∉ taken.flatten ∧ (stdCtrlzCode ∈ last → n = 0) := by
  induction packets generalizing bytes with
  | nil => cases h
  | cons packet packets ih =>
    have hfits := length_le_of_received hreceived
    have hle : (bytes ++ packet).length ≤ len := by
      rw [List.length_append]
      omega
    rw [stdReadLoop_cons] at h
    dsimp only at h
    by_cases heof : stdCtrlzCode ∈ packet
    · rw [if_pos heof] at h
      obtain ⟨rfl, hrest⟩ := Prod.mk.inj (Option.some.inj h)
      obtain ⟨rfl, rfl⟩ := Prod.mk.inj hrest
      exact ⟨[], packet, rfl, rfl, hle, List.not_mem_nil, fun _ => rfl⟩
    rw [if_neg heof] at h
    by_cases hend : len - bytes.length ≤ (bytes ++ packet).length ∨ [13, 10] <:+ packet
    · -- The number is not looked at.
      obtain ⟨m, hm⟩ : ∃ m, some (m, mem.overlay vptr (bytes ++ packet), packets) =
          some (n, mem', rest) := by
        split_ifs at h with hfull hcrlf
        · exact ⟨_, h⟩
        · exact ⟨_, h⟩
        · exact absurd hend (not_or.mpr ⟨hfull, hcrlf⟩)
      obtain ⟨rfl, rfl⟩ := Prod.mk.inj (Prod.mk.inj (Option.some.inj hm)).2
      exact ⟨[], packet, rfl, rfl, hle, List.not_mem_nil, fun h => absurd h heof⟩
    · obtain ⟨hfull, hcrlf⟩ := not_or.mp hend
      rw [if_neg hfull, if_neg hcrlf] at h
      have hreceived' : Received (len - (bytes ++ packet).length) packets := by
        rw [List.length_append, ← Nat.sub_sub]
        exact hreceived.2
      obtain ⟨taken, last, rfl, rfl, hlength, htaken, hlast⟩ := ih _ hle hreceived' h
      refine ⟨packet :: taken, last, rfl, ?_, ?_, ?_, hlast⟩
      · rw [List.flatten_cons, List.append_assoc, List.append_assoc]
      · rwa [List.flatten_cons, List.append_assoc, ← List.append_assoc]
      · rw [List.flatten_cons, List.mem_append]
        exact not_or.mpr ⟨heof, htaken⟩

/-- Reading goes on only while there is no end-of-file character. -/
theorem stdReadLoop_waits (bytes : List UInt8)
    (h : stdReadLoop (mem.overlay vptr bytes) (vptr + bytes.length) (len - bytes.length)
      bytes.length packets = none) : stdCtrlzCode ∉ packets.flatten := by
  induction packets generalizing bytes with
  | nil => exact List.not_mem_nil
  | cons packet packets ih =>
    rw [stdReadLoop_cons] at h
    dsimp only at h
    by_cases heof : stdCtrlzCode ∈ packet
    · rw [if_pos heof] at h
      cases h
    rw [if_neg heof] at h
    split_ifs at h
    rw [List.flatten_cons, List.mem_append]
    exact not_or.mpr ⟨heof, ih _ h⟩

/-- **When it returns**, on plain packets. -/
theorem stdReadLoop_stops (mem : Memory) (vptr : ℕ) (bytes : List UInt8)
    (hlen : bytes.length ≤ len) (heof : stdCtrlzCode ∉ bytes)
    (hreceived : Received (len - bytes.length) packets) (hplain : Plain len bytes packets) :
    stdReadLoop (mem.overlay vptr bytes) (vptr + bytes.length) (len - bytes.length) bytes.length
        packets =
      (firstStop len bytes packets).map fun r =>
        (if stdCtrlzCode ∈ r.1 then 0 else r.1.length, mem.overlay vptr r.1, r.2) := by
  induction packets generalizing bytes with
  | nil => rfl
  | cons packet packets ih =>
    have hfits := length_le_of_received hreceived
    have hpacket : packet ≠ [] := List.ne_nil_of_length_pos hreceived.1.1
    have hle : (bytes ++ packet).length ≤ len := by
      rw [List.length_append]
      omega
    rw [stdReadLoop_cons, firstStop]
    dsimp only
    by_cases hctrlz : stdCtrlzCode ∈ packet
    · have hmem : stdCtrlzCode ∈ bytes ++ packet := List.mem_append_right _ hctrlz
      rw [if_pos hctrlz, if_pos (.inl hmem), Option.map_some, if_pos hmem]
    have hmem : stdCtrlzCode ∉ bytes ++ packet := by
      rw [List.mem_append]
      exact not_or.mpr ⟨heof, hctrlz⟩
    rw [if_neg hctrlz]
    -- The two tests of the source are those of the stored bytes.
    have hfull : len - bytes.length ≤ (bytes ++ packet).length ↔
        len - bytes.length = (bytes ++ packet).length ∧ (bytes ++ packet).length = len := by
      by_cases hbytes : bytes = []
      · subst hbytes
        simp only [List.length_nil, Nat.sub_zero, List.nil_append] at hle ⊢
        omega
      · have hlt := (hplain.1 hctrlz hbytes).1
        omega
    have hnotFull : ¬len - bytes.length ≤ (bytes ++ packet).length →
        (bytes ++ packet).length ≠ len := fun h => by omega
    have hcrlf : [13, 10] <:+ bytes ++ packet ↔ [13, 10] <:+ packet := by
      by_cases hbytes : bytes = []
      · rw [hbytes, List.nil_append]
      · exact crlf_append hpacket (hplain.1 hctrlz hbytes).2
    by_cases hend : len - bytes.length ≤ (bytes ++ packet).length
    · obtain ⟨hcount, hlength⟩ := hfull.mp hend
      rw [if_pos hend, if_pos (.inr (.inl hlength)), Option.map_some, if_neg hmem, hcount]
    rw [if_neg hend]
    by_cases hline : [13, 10] <:+ packet
    · rw [if_pos hline, if_pos (.inr (.inr (hcrlf.mpr hline))), Option.map_some, if_neg hmem]
    · have hgo : ¬Stops len (bytes ++ packet) := fun hstop =>
        hstop.elim hmem fun hstop => hstop.elim (hnotFull hend) fun h => hline (hcrlf.mp h)
      rw [if_neg hline, if_neg hgo]
      have hreceived' : Received (len - (bytes ++ packet).length) packets := by
        rw [List.length_append, ← Nat.sub_sub]
        exact hreceived.2
      exact ih _ hle hmem hreceived' (hplain.2 hgo)

end Packets

/-- **Reading from the console over TCP.** What is stored are the bytes of the first packets, in
order, and not more than is asked for; reading ends with the packet that has the end-of-file
character, and the result is 0 then. On plain packets reading ends with the first packet behind
which the bytes stop, and without an end-of-file character the result is their number. -/
theorem stdRead_stops (mem : Memory) (vptr len : ℕ) (packets : List (List UInt8))
    (hreceived : Received len packets) :
    (∀ n mem' rest, stdRead mem dmStdinNum vptr len packets = some (.ok n, mem', rest) →
      ∃ taken last, packets = taken ++ last :: rest ∧
        mem' = mem.overlay vptr (taken.flatten ++ last) ∧ (taken.flatten ++ last).length ≤ len ∧
        stdCtrlzCode ∉ taken.flatten ∧ (stdCtrlzCode ∈ last → n = 0)) ∧
    (stdRead mem dmStdinNum vptr len packets = none → stdCtrlzCode ∉ packets.flatten) ∧
    (Plain len [] packets → stdRead mem dmStdinNum vptr len packets =
      (firstStop len [] packets).map fun r =>
        (.ok (if stdCtrlzCode ∈ r.1 then 0 else r.1.length), mem.overlay vptr r.1, r.2)) := by
  have hread : stdRead mem dmStdinNum vptr len packets =
      (stdReadLoop mem vptr len 0 packets).map fun r => (.ok r.1, r.2) := if_neg (not_not.mpr rfl)
  have hbefore : mem.overlay vptr [] = mem := Memory.overlay_nil
  refine ⟨fun n mem' rest h => ?_, fun h => ?_, fun hplain => ?_⟩
  · rw [hread] at h
    obtain ⟨⟨n', r⟩, hloop, heq⟩ := Option.map_eq_some_iff.mp h
    obtain ⟨hn, rfl⟩ := Prod.mk.inj heq
    obtain rfl := Except.ok.inj hn
    exact stdReadLoop_stores [] (Nat.zero_le _) hreceived (hbefore.symm ▸ hloop)
  · rw [hread, Option.map_eq_none_iff] at h
    exact stdReadLoop_waits [] (hbefore.symm ▸ h)
  · have hloop := stdReadLoop_stops mem vptr [] (Nat.zero_le len) List.not_mem_nil hreceived hplain
    rw [hbefore] at hloop
    rw [hread]
    refine (congrArg _ hloop).trans ?_
    rw [Option.map_map]
    rfl

/-- A line in two packets. -/
def sampleLine : List (List UInt8) := [[97, 98], [99, 13, 10]]

theorem stdRead_stops_sample : stdRead (fun _ => 0) dmStdinNum 0 100 sampleLine =
    some (.ok 5, Memory.overlay (fun _ => 0) 0 [97, 98, 99, 13, 10], []) := by
  have hplain : Plain 100 [] sampleLine :=
    ⟨fun _ h => absurd rfl h, fun _ => ⟨fun _ _ => by decide, fun _ => trivial⟩⟩
  have hreceived : Received 100 sampleLine := ⟨by decide, by decide, trivial⟩
  refine ((stdRead_stops _ _ _ _ hreceived).2.2 hplain).trans ?_
  have hstop : firstStop 100 [] sampleLine = some ([97, 98, 99, 13, 10], []) := by decide
  rw [hstop]
  rfl

/-- The result is 0 behind the end-of-file character, and what was left of the length if the sum
that it is compared with is large; and a CR LF in two packets is not seen. -/
theorem not_stdRead_stops :
    (¬∀ mem vptr len packets, Received len packets → ∀ n mem' rest,
      stdRead mem dmStdinNum vptr len packets = some (.ok n, mem', rest) →
        ∃ taken, packets = taken ++ rest ∧ n = taken.flatten.length) ∧
    (¬∀ mem vptr len packets, Received len packets → stdCtrlzCode ∉ packets.flatten →
      ∀ n mem' rest, stdRead mem dmStdinNum vptr len packets = some (.ok n, mem', rest) →
        ∃ taken, packets = taken ++ rest ∧ n = taken.flatten.length) ∧
    ¬∀ mem vptr len packets, Received len packets → packets ≠ [] → Stops len packets.flatten →
      stdRead mem dmStdinNum vptr len packets ≠ none := by
  have hresult : ∀ {len packets m}, (stdRead (fun _ => 0) dmStdinNum 0 len packets).map
      (fun r => (r.1.toOption, r.2.2)) = some (some m, []) → ∃ mem',
        stdRead (fun _ => 0) dmStdinNum 0 len packets = some (.ok m, mem', []) :=
    fun {len packets m} h => by
      obtain ⟨⟨res, mem', rest⟩, hread, heq⟩ := Option.map_eq_some_iff.mp h
      obtain ⟨hres, rfl⟩ := Prod.mk.inj heq
      cases res with
      | error e => cases hres
      | ok n => exact ⟨mem', Option.some.inj hres ▸ hread⟩
  refine ⟨fun h => ?_, fun h => ?_, fun h => ?_⟩
  · have hreceived : Received 10 [[97, 26]] := ⟨by decide, trivial⟩
    obtain ⟨mem', hread⟩ := @hresult 10 [[97, 26]] 0 (by decide)
    obtain ⟨taken, htaken, hn⟩ := h _ _ _ _ hreceived _ _ _ hread
    rw [List.append_nil] at htaken
    rw [← htaken] at hn
    exact absurd hn (by decide)
  · have hreceived : Received 10 [[97, 98, 99, 100, 101, 102], [103]] :=
      ⟨by decide, by decide, trivial⟩
    obtain ⟨mem', hread⟩ := @hresult 10 [[97, 98, 99, 100, 101, 102], [103]] 4 (by decide)
    obtain ⟨taken, htaken, hn⟩ := h _ _ _ _ hreceived (by decide) _ _ _ hread
    rw [List.append_nil] at htaken
    rw [← htaken] at hn
    exact absurd hn (by decide)
  · have hreceived : Received 100 [[97, 13], [10]] := ⟨by decide, by decide, trivial⟩
    exact h (fun _ => 0) 0 100 _ hreceived nofun (by decide) rfl

end ELuaBrain.Stdtcp
