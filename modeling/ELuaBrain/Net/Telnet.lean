import ELuaBrain.Terminal.Console
import Mathlib.Data.List.Flatten
import Mathlib.Data.Nat.Init
import Mathlib.Order.Basic

/-!
# Telnet input of the console

The filter that `elua_uip_appcall` runs over each segment of the console's connection. It skips
the commands of telnet, two bytes or three, and keeps nothing from one segment to the next: it
looks for the second byte of a command behind the segment, and takes what is left of a command for
text.

## Main definitions

* `Telnet.feed` : a stream without its commands, with what a cut leaves unfinished.
* `eluaUipTelnetHandleInput` : the filter of one segment.
* `Arrival` : a segment for which a read with enough room is pending.
* `Filtered` : the segments deliver the stream without its commands.

## Main results

* `telnetLoop_eq` : a segment is filtered as a stream of its own.
* `filtered_iff` : every cutting of a stream is filtered if and only if it has no commands;
  cuttings that leave every command whole always are.
-/

namespace ELuaBrain.Net

open Terminal (stdCtrlzCode)

/-! ### Streams -/

/-- `TELNET_IAC_CHAR`. -/
def telnetIacChar : UInt8 := 255

/-- `TELNET_IAC_3B_FIRST` and `TELNET_IAC_3B_LAST`: the commands with a third byte. -/
def telnetIac3bFirst : UInt8 := 251
def telnetIac3bLast : UInt8 := 254

/-- `TELNET_EOF`. -/
def telnetEof : UInt8 := 236

/-- The second byte of a command of three. -/
def HasOption (c : UInt8) : Prop := telnetIac3bFirst ≤ c ∧ c ≤ telnetIac3bLast

instance (c : UInt8) : Decidable (HasOption c) := inferInstanceAs (Decidable (_ ∧ _))

/-- Where a stream is: in its text, behind the first byte of a command, or before its third. -/
inductive Telnet where
  | text
  | command
  | option
  deriving DecidableEq

namespace Telnet

/-- One byte of a stream, with the character it stands for. -/
def step : Telnet → UInt8 → Telnet × List UInt8
  | .text, c => if c = telnetIacChar then (.command, []) else (.text, [c])
  | .command, c =>
      if HasOption c then (.option, [])
      else (.text, if c = telnetEof then [stdCtrlzCode] else [])
  | .option, _ => (.text, [])

/-- A stream without its commands. -/
def feed : Telnet → List UInt8 → Telnet × List UInt8
  | t, [] => (t, [])
  | t, c :: s => ((feed (step t c).1 s).1, (step t c).2 ++ (feed (step t c).1 s).2)

/-- A stream is filtered piece by piece, from where the last piece stopped. -/
theorem feed_append (t : Telnet) (s s' : List UInt8) :
    feed t (s ++ s') = ((feed (feed t s).1 s').1, (feed t s).2 ++ (feed (feed t s).1 s').2) := by
  induction s generalizing t with
  | nil => rfl
  | cons c s ih => rw [List.cons_append, feed, ih, feed, List.append_assoc]

theorem feed_cons_text {c : UInt8} (h : c ≠ telnetIacChar) (s : List UInt8) :
    feed .text (c :: s) = ((feed .text s).1, c :: (feed .text s).2) := by
  rw [feed, step, if_neg h]
  rfl

theorem feed_option (c d o : UInt8) (hc : c = telnetIacChar) (hd : HasOption d) (s : List UInt8) :
    feed .text (c :: d :: o :: s) = feed .text s := by
  simp [feed, step, hc, hd]

theorem feed_command (c d : UInt8) (hc : c = telnetIacChar) (hd : ¬ HasOption d) (s : List UInt8) :
    feed .text (c :: d :: s) = ((feed .text s).1,
      (if d = telnetEof then [stdCtrlzCode] else []) ++ (feed .text s).2) := by
  simp [feed, step, hc, hd]

/-- Text without commands. -/
theorem feed_of_not_mem {s : List UInt8} (h : telnetIacChar ∉ s) : feed .text s = (.text, s) := by
  induction s with
  | nil => rfl
  | cons c s ih =>
    rw [List.mem_cons, not_or] at h
    rw [feed_cons_text (Ne.symm h.1), ih h.2]

end Telnet

/-! ### One segment -/

/-- The loop of `elua_uip_telnet_handle_input` over the rest of a segment, with room for `room`
more characters; `behind` is the byte in memory behind the segment. The second result tells whether
that byte is examined. -/
def telnetLoop (behind : UInt8) (room : ℕ) (seg : List UInt8) : List UInt8 × Bool :=
  match seg with
  | [] => ([], false)
  | c :: rest =>
      if room = 0 then ([], false)
      else if c ≠ telnetIacChar then
        let r := telnetLoop behind (room - 1) rest
        (c :: r.1, r.2)
      else if HasOption (rest.headD behind) then
        let r := telnetLoop behind room (rest.drop 2)
        (r.1, rest.isEmpty || r.2)
      else if rest.headD behind = telnetEof then
        let r := telnetLoop behind (room - 1) (rest.drop 1)
        (stdCtrlzCode :: r.1, rest.isEmpty || r.2)
      else
        let r := telnetLoop behind room (rest.drop 1)
        (r.1, rest.isEmpty || r.2)
termination_by seg.length
decreasing_by all_goals simp only [List.length_drop, List.length_cons]; omega

/-- The characters at `ptr` and the fields of `elua_uip_state` after a segment. -/
structure TelnetRead where
  stored : List UInt8
  len : ℕ
  /-- `state` is `ELUA_UIP_STATE_IDLE`: the read is over. -/
  idle : Bool
  /-- A byte behind the segment was examined. -/
  beyond : Bool

/-- `elua_uip_telnet_handle_input` for a read of `len` bytes. -/
def eluaUipTelnetHandleInput (len : ℕ) (seg : List UInt8) (behind : UInt8) : TelnetRead :=
  let r := telnetLoop behind len seg
  if r.1 ≠ [] then
    { stored := r.1, len := len - r.1.length, idle := true, beyond := r.2 }
  else { stored := r.1, len := len, idle := false, beyond := r.2 }

/-- A segment that is not empty, and a read that is pending with room for all of it. -/
structure Arrival where
  seg : List UInt8
  seg_ne : seg ≠ []
  room : ℕ
  fits : seg.length ≤ room
  behind : UInt8

/-- What is done with the segment. -/
def Arrival.read (a : Arrival) : TelnetRead := eluaUipTelnetHandleInput a.room a.seg a.behind

/-- What the read returns, if it is over: as many bytes as `len` has become smaller by. -/
def Arrival.delivered (a : Arrival) : List UInt8 :=
  if a.read.idle then a.read.stored.take (a.room - a.read.len) else []

/-- The segment ends between commands. -/
def Arrival.Whole (a : Arrival) : Prop := (Telnet.feed .text a.seg).1 = .text

instance (a : Arrival) : Decidable a.Whole := inferInstanceAs (Decidable (_ = _))

/-- The segments are a cutting of the stream. -/
def Cuts (stream : List UInt8) (as : List Arrival) : Prop := (as.map Arrival.seg).flatten = stream

/-- The reads deliver the stream without its commands, and no byte behind a segment is examined. -/
structure Filtered (stream : List UInt8) (as : List Arrival) : Prop where
  delivered : as.flatMap Arrival.delivered = (Telnet.feed .text stream).2
  inside : ∀ a ∈ as, a.read.beyond = false

/-! ### The loop -/

/-- The byte behind the segment is examined if the segment ends with the first byte of a command.
With enough room, the characters of all its whole commands are stored otherwise. -/
theorem telnetLoop_eq (behind : UInt8) {room : ℕ} {seg : List UInt8} (h : seg.length ≤ room) :
    (telnetLoop behind room seg).2 = decide ((Telnet.feed .text seg).1 = .command) ∧
      ((Telnet.feed .text seg).1 ≠ .command →
        (telnetLoop behind room seg).1 = (Telnet.feed .text seg).2) := by
  induction hn : seg.length using Nat.strong_induction_on generalizing seg room with
  | h n ih =>
    cases seg with
    | nil => rw [telnetLoop]; exact ⟨rfl, fun _ => rfl⟩
    | cons c rest =>
      rw [List.length_cons] at h hn
      have hroom : room ≠ 0 := by omega
      rw [telnetLoop, if_neg hroom]
      by_cases hc : c = telnetIacChar
      · rw [if_neg (not_not.mpr hc)]
        cases rest with
        | nil =>
          have hend : telnetLoop behind room [] = ([], false) := by rw [telnetLoop]
          have hend' : telnetLoop behind (room - 1) [] = ([], false) := by rw [telnetLoop]
          have hfeed : (Telnet.feed .text [c]).1 = .command := by simp [Telnet.feed, Telnet.step, hc]
          simp only [List.drop_nil, hend, hend', List.isEmpty_nil, hfeed]
          split_ifs <;> exact ⟨rfl, fun hne => absurd rfl hne⟩
        | cons d rest =>
          rw [List.length_cons] at h hn
          rw [List.headD_cons]
          by_cases hd : HasOption d
          · rw [if_pos hd]
            cases rest with
            | nil =>
              have hend : telnetLoop behind room [] = ([], false) := by rw [telnetLoop]
              have hfeed : Telnet.feed .text [c, d] = (.option, []) := by
                simp [Telnet.feed, Telnet.step, hc, hd]
              rw [hfeed, List.drop_of_length_le (by simp), hend]
              exact ⟨rfl, fun _ => rfl⟩
            | cons o rest =>
              rw [List.length_cons] at h hn
              rw [Telnet.feed_option c d o hc hd]
              have hrest : rest.length ≤ room := by omega
              exact ih rest.length (by omega) hrest rfl
          · rw [if_neg hd, Telnet.feed_command c d hc hd]
            split_ifs with heof
            · have hrest : rest.length ≤ room - 1 := by omega
              obtain ⟨hbeyond, hstored⟩ := ih rest.length (by omega) hrest rfl
              exact ⟨hbeyond, fun hne => congrArg (stdCtrlzCode :: ·) (hstored hne)⟩
            · have hrest : rest.length ≤ room := by omega
              exact ih rest.length (by omega) hrest rfl
      · rw [if_pos hc, Telnet.feed_cons_text hc]
        have hrest : rest.length ≤ room - 1 := by omega
        obtain ⟨hbeyond, hstored⟩ := ih rest.length (by omega) hrest rfl
        exact ⟨hbeyond, fun hne => congrArg (c :: ·) (hstored hne)⟩

/-! ### Segments -/

/-- No more characters than bytes. -/
theorem Telnet.feed_length_le (t : Telnet) (s : List UInt8) :
    (Telnet.feed t s).2.length ≤ s.length := by
  induction s generalizing t with
  | nil => exact Nat.le_refl _
  | cons c s ih =>
    have hstep : (Telnet.step t c).2.length ≤ 1 := by
      cases t with
      | text => rw [Telnet.step]; split_ifs <;> simp
      | command => rw [Telnet.step]; split_ifs <;> simp
      | option => exact Nat.zero_le 1
    have := ih (Telnet.step t c).1
    rw [Telnet.feed, List.length_append, List.length_cons]
    omega

theorem Arrival.beyond_eq (a : Arrival) :
    a.read.beyond = decide ((Telnet.feed .text a.seg).1 = .command) := by
  rw [← (telnetLoop_eq a.behind a.fits).1, Arrival.read, eluaUipTelnetHandleInput]
  by_cases hstored : (telnetLoop a.behind a.room a.seg).1 ≠ []
  · rw [if_pos hstored]
  · rw [if_neg hstored]

/-- A segment of whole commands is filtered as a stream of its own. -/
theorem Arrival.delivered_eq {a : Arrival} (h : a.Whole) :
    a.delivered = (Telnet.feed .text a.seg).2 := by
  have hne : (Telnet.feed .text a.seg).1 ≠ .command := by
    rw [Arrival.Whole] at h
    rw [h]
    nofun
  have hstored := (telnetLoop_eq a.behind a.fits).2 hne
  rw [Arrival.delivered, Arrival.read, eluaUipTelnetHandleInput]
  simp only [hstored]
  by_cases hnil : (Telnet.feed .text a.seg).2 = []
  · simp [hnil]
  · have hlen := Nat.le_trans (Telnet.feed_length_le .text a.seg) a.fits
    rw [if_pos hnil]
    simp only [↓reduceIte]
    rw [Nat.sub_sub_self hlen, List.take_length]

/-- Segments of whole commands. -/
theorem filtered_of_whole {stream : List UInt8} {as : List Arrival} (hcuts : Cuts stream as)
    (hwhole : ∀ a ∈ as, a.Whole) : Filtered stream as := by
  subst hcuts
  refine ⟨?_, fun a ha => ?_⟩
  · induction as with
    | nil => rfl
    | cons a as ih =>
      have ha := hwhole a List.mem_cons_self
      have hfeed : (Telnet.feed .text a.seg).1 = .text := ha
      rw [List.flatMap_cons, List.map_cons, List.flatten_cons, Telnet.feed_append, hfeed,
        Arrival.delivered_eq ha, ih fun a' ha' => hwhole a' (List.mem_cons_of_mem a ha')]
  · have hfeed : (Telnet.feed .text a.seg).1 = .text := hwhole a ha
    rw [Arrival.beyond_eq, hfeed]
    rfl

/-- A cutting behind the first byte of the first command. -/
def cutInCommand (p q : List UInt8) : List Arrival :=
  { seg := p ++ [telnetIacChar], seg_ne := by simp, room := (p ++ [telnetIacChar]).length,
    fits := Nat.le_refl _, behind := 0 } ::
  if hq : q ≠ [] then [{ seg := q, seg_ne := hq, room := q.length, fits := Nat.le_refl _, behind := 0 }]
  else []

theorem cuts_cutInCommand (p q : List UInt8) :
    Cuts (p ++ telnetIacChar :: q) (cutInCommand p q) := by
  rw [Cuts, cutInCommand]
  split_ifs with hq
  · simp
  · rw [not_not] at hq
    simp [hq]

/-- **Telnet input.** All cuttings of a stream are filtered if and only if it has no commands, and
a cutting is filtered if it leaves every command whole. -/
theorem filtered_iff (stream : List UInt8) :
    ((∀ as, Cuts stream as → Filtered stream as) ↔ telnetIacChar ∉ stream) ∧
      ∀ as, Cuts stream as → (∀ a ∈ as, a.Whole) → Filtered stream as := by
  refine ⟨⟨fun h hmem => ?_, fun h as hcuts => filtered_of_whole hcuts fun a ha => ?_⟩,
    fun as => filtered_of_whole⟩
  · obtain ⟨p, q, rfl, hp⟩ := List.eq_append_cons_of_mem hmem
    have hfirst := (h _ (cuts_cutInCommand p q)).inside _ List.mem_cons_self
    rw [Arrival.beyond_eq] at hfirst
    have hend : (Telnet.feed .text (p ++ [telnetIacChar])).1 = .command := by
      rw [Telnet.feed_append, Telnet.feed_of_not_mem hp]
      rfl
    simp [hend] at hfirst
  · have hseg : telnetIacChar ∉ a.seg := fun hmem =>
      h (hcuts ▸ List.mem_flatten_of_mem (List.mem_map_of_mem ha) hmem)
    rw [Arrival.Whole, Telnet.feed_of_not_mem hseg]

/-- The option of a negotiation that was cut is taken for text. -/
theorem not_filtered_option :
    ¬ ∀ (stream : List UInt8) (as : List Arrival), Cuts stream as → Filtered stream as := by
  intro h
  have hdelivered := (h [255, 253, 1]
    [{ seg := [255, 253], seg_ne := by decide, room := 128, fits := by decide, behind := 0 },
     { seg := [1], seg_ne := by decide, room := 128, fits := by decide, behind := 0 }] rfl).delivered
  have hfeed : (Telnet.feed .text [255, 253, 1]).2 = [] := by decide
  rw [hfeed] at hdelivered
  simp [Arrival.delivered, Arrival.read, eluaUipTelnetHandleInput, telnetLoop, telnetIacChar,
    HasOption, telnetIac3bFirst, telnetIac3bLast] at hdelivered

end ELuaBrain.Net
