import ELuaBrain.System.Float
import ELuaBrain.System.Words

/-!
# The connections of `luarpc.c` and the numbers on them

The two sides of a connection agree on a byte order, a number of bytes for a `lua_Number`, and
whether numbers are sent as integers. A `lua_Number` is given by its bits. Where the code reads or
writes behind a number in memory, the bytes there are a parameter, and so is the result of a
conversion to an integer that does not fit.

## Main definitions

* `Endpoint`, `Transport` : a side of a connection, and what it has negotiated.
* `clientNegotiate`, `serverNegotiate`, `Connected` : the exchange of the headers.
* `writeNumber`, `readNumber` : the numbers on the wire.

## Main results

* `Joined.wire` : what the two sides of a connection agree on.
-/

namespace ELuaBrain.LuaRpc

/-! ### The two sides -/

/-- A side of a connection: its byte order, whether `sizeof( lua_Number )` is 8 and not 4, and
whether `lua_Number` is an integer. -/
structure Endpoint where
  little : Bool
  wide : Bool
  integral : Bool
  deriving DecidableEq

def binary32 : FloatFormat := ⟨23, 8, by decide⟩

def binary64 : FloatFormat := ⟨52, 11, by decide⟩

namespace Endpoint

variable (e : Endpoint)

/-- `sizeof( lua_Number )`. -/
def bytes : ℕ := if e.wide then 8 else 4

def format : FloatFormat := if e.wide then binary64 else binary32

/-- A `lua_Number`. -/
abbrev Num : Type := BitVec (8 * e.bytes)

/-- The value of a number that is neither infinite nor a NaN. -/
def value (x : e.Num) : Option ℚ := if e.integral then some x.toInt else e.format.value x.toNat

/-- `luai_numisnan`. -/
def IsNaN (x : e.Num) : Prop := e.integral = false ∧ e.format.IsNaN x.toNat

instance (x : e.Num) : Decidable (e.IsNaN x) := inferInstanceAs (Decidable (_ ∧ _))

/-- `luai_numeq`. -/
def numEq (x y : e.Num) : Bool :=
  match e.value x, e.value y with
  | some p, some q => p == q
  | none, none => x == y && !e.IsNaN x
  | _, _ => false

/-- `( lua_Number )y` for an integer. -/
def ofInt (z : ℤ) : e.Num :=
  if e.integral then BitVec.ofInt _ z else BitVec.ofNat _ (e.format.ofInt z)

end Endpoint

/-- What is in memory behind a number, given the bytes that are sent or still to be read, and what a
conversion to an integer gives that cannot hold the number. -/
structure Machine where
  behind : List UInt8 → ℕ
  outside : ℕ → ℤ
  deriving Inhabited

/-! ### Negotiation -/

/-- The fields of a `Transport` that are negotiated. All but `lnum_bytes` have one bit. -/
structure Transport where
  netLittle : Bool
  locLittle : Bool
  lnumBytes : UInt8
  netIntnum : Bool
  locIntnum : Bool

/-- `RPC_PROTOCOL_VERSION`. -/
def protocolVersion : UInt8 := 3

/-- A flag as a byte of the header. -/
def flag (b : Bool) : UInt8 := if b then 1 else 0

/-- The low bit of a byte of the header. -/
def bit (b : UInt8) : Bool := b &&& 1 == 1

/-- The test of `header[0]` to `header[4]`: the letters `LRPC` and the version. -/
def badHeader (l r p c v : UInt8) : Bool :=
  l != 0x4C || r != 0x52 || p != 0x50 || c != 0x43 || v != protocolVersion

/-- The header that `client_negotiate` writes. -/
def clientHeader (e : Endpoint) : List UInt8 :=
  [0x4C, 0x52, 0x50, 0x43, protocolVersion, flag e.little, UInt8.ofNat e.bytes, flag e.integral]

/-- `server_negotiate`: the negotiated fields and the header that is sent back. -/
def serverNegotiate (e : Endpoint) : List UInt8 → Option (Transport × List UInt8)
  | [l, r, p, c, v, little, bytes, intnum] =>
    if badHeader l r p c v then none
    else
      let sameLittle := little == flag e.little
      let lnum := UInt8.ofNat e.bytes
      let bytes := if lnum < bytes then lnum else bytes
      let sameIntnum := intnum == flag e.integral
      some (⟨if sameLittle then e.little else false, e.little, if bytes < lnum then bytes else lnum,
          if sameIntnum then e.integral else true, e.integral⟩,
        [l, r, p, c, v, if sameLittle then little else 0, bytes, if sameIntnum then intnum else 1])
  | _ => none

/-- `client_negotiate` from the answer on. -/
def clientNegotiate (e : Endpoint) : List UInt8 → Option Transport
  | [l, r, p, c, v, little, bytes, intnum] =>
    if badHeader l r p c v then none
    else some ⟨bit little, e.little, bytes, bit intnum, e.integral⟩
  | _ => none

/-- A client and a server have exchanged their headers. -/
def Connected (c : Endpoint) (tc : Transport) (s : Endpoint) (ts : Transport) : Prop :=
  ∃ reply, serverNegotiate s (clientHeader c) = some (ts, reply) ∧ clientNegotiate c reply = some tc

/-- A side that writes and a side that reads. Either may be the client. -/
def Joined (w : Endpoint) (tw : Transport) (r : Endpoint) (tr : Transport) : Prop :=
  Connected w tw r tr ∨ Connected r tr w tw

/-- What two sides have agreed on. -/
structure Wire (w : Endpoint) (tw : Transport) (r : Endpoint) (tr : Transport) : Prop where
  little : tw.netLittle = tr.netLittle
  bytes : tw.lnumBytes = tr.lnumBytes
  intnum : tw.netIntnum = tr.netIntnum
  locLittle : tw.locLittle = w.little ∧ tr.locLittle = r.little
  locIntnum : tw.locIntnum = w.integral ∧ tr.locIntnum = r.integral
  lnumBytes : tw.lnumBytes.toNat = min w.bytes r.bytes
  netIntnum : tw.netIntnum = (w.integral || r.integral)

variable {w r : Endpoint} {tw tr : Transport}

/-- The outcome of the negotiation. -/
theorem connected_iff {c s : Endpoint} {tc ts : Transport} : Connected c tc s ts ↔
    tc = ⟨c.little && s.little, c.little, UInt8.ofNat (min c.bytes s.bytes),
      c.integral || s.integral,
      c.integral⟩ ∧
    ts = ⟨c.little && s.little, s.little, UInt8.ofNat (min c.bytes s.bytes),
      c.integral || s.integral,
      s.integral⟩ := by
  obtain ⟨tc', reply, hserver, hclient, htc⟩ : ∃ (tc' : Transport) (reply : List UInt8),
      serverNegotiate s (clientHeader c) = some (⟨c.little && s.little, s.little,
        UInt8.ofNat (min c.bytes s.bytes), c.integral || s.integral, s.integral⟩, reply) ∧
      clientNegotiate c reply = some tc' ∧ tc' = ⟨c.little && s.little, c.little,
        UInt8.ofNat (min c.bytes s.bytes), c.integral || s.integral, c.integral⟩ := by
    obtain ⟨_ | _, _ | _, _ | _⟩ := c <;> obtain ⟨_ | _, _ | _, _ | _⟩ := s <;>
      exact ⟨_, _, rfl, rfl, rfl⟩
  constructor
  · rintro ⟨reply', hs, hc⟩
    obtain ⟨rfl, rfl⟩ := Prod.mk.inj (Option.some.inj (hserver.symm.trans hs))
    exact ⟨(Option.some.inj (hclient.symm.trans hc)).symm.trans htc, rfl⟩
  · rintro ⟨rfl, rfl⟩
    exact ⟨reply, hserver, htc ▸ hclient⟩

theorem toNat_bytes (n : ℕ) (e : Endpoint) : (UInt8.ofNat (min e.bytes n)).toNat =
    min e.bytes n := by
  refine UInt8.toNat_ofNat_of_lt' (Nat.lt_of_le_of_lt (Nat.min_le_left _ _) ?_)
  rw [Endpoint.bytes]
  split_ifs <;> decide

/-- **Negotiation.** Two sides that are connected agree on the wire format. -/
theorem Joined.wire (h : Joined w tw r tr) : Wire w tw r tr := by
  rcases h with h | h
  · obtain ⟨rfl, rfl⟩ := connected_iff.mp h
    exact ⟨rfl, rfl, rfl, ⟨rfl, rfl⟩, ⟨rfl, rfl⟩, toNat_bytes _ _, rfl⟩
  · obtain ⟨rfl, rfl⟩ := connected_iff.mp h
    exact ⟨rfl, rfl, rfl, ⟨rfl, rfl⟩, ⟨rfl, rfl⟩, (toNat_bytes _ _).trans (Nat.min_comm _ _),
      Bool.or_comm _ _⟩

/-! ### Words on the wire -/

namespace Transport

/-- `swap_bytes` where the byte orders differ. -/
def swap (t : Transport) (bs : List UInt8) : List UInt8 :=
  if t.netLittle = t.locLittle then bs else bs.reverse

@[simp] theorem length_swap (t : Transport) (bs : List UInt8) : (t.swap bs).length = bs.length := by
  rw [swap]
  split_ifs
  · rfl
  · exact List.length_reverse

theorem swap_wordBytes (t : Transport) (n x : ℕ) :
    t.swap (wordBytes t.locLittle n x) = wordBytes t.netLittle n x := by
  rw [swap]
  split_ifs with h
  · rw [h]
  · rw [wordBytes_reverse, Bool.eq_not.mpr h]

theorem swap_netBytes (t : Transport) (n x : ℕ) :
    t.swap (wordBytes t.netLittle n x) = wordBytes t.locLittle n x := by
  rw [swap]
  split_ifs with h
  · rw [h]
  · rw [wordBytes_reverse, Bool.eq_not.mpr h, Bool.not_not]

end Transport

/-- `transport_read_buffer`. -/
def readBuffer (n : ℕ) (input : List UInt8) : Option (List UInt8 × List UInt8) :=
  if n ≤ input.length then some (input.take n, input.drop n) else none

/-- `transport_write_u32`. -/
def writeU32 (e : Endpoint) (t : Transport) (x : ℕ) : List UInt8 := t.swap (wordBytes e.little 4 x)

/-- `transport_read_u32`. -/
def readU32 (e : Endpoint) (t : Transport) (input : List UInt8) : Option (ℕ × List UInt8) :=
  (readBuffer 4 input).map fun (bs, rest) => (wordOf e.little (t.swap bs), rest)

/-- `( intN_t )x` with `n` bytes. -/
def Endpoint.toInt (m : Machine) (e : Endpoint) (n : ℕ) (x : e.Num) : ℤ :=
  if e.integral then x.toInt
  else
    match e.value x with
    | some q =>
      let z := q.num.tdiv q.den
      if -2 ^ (8 * n - 1) ≤ z ∧ z < 2 ^ (8 * n - 1) then z else m.outside x.toNat
    | none => m.outside x.toNat

/-- `transport_write_number`. Floating-point numbers always have eight bytes. -/
def writeNumber (m : Machine) (e : Endpoint) (t : Transport) (x : e.Num) : List UInt8 :=
  if t.netIntnum then
    let n := t.lnumBytes.toNat
    let y := wordBytes e.little n (BitVec.ofInt (8 * n) (e.toInt m n x)).toNat
    if n = 1 then y
    else if n = 2 ∨ n = 4 ∨ n = 8 then t.swap y
    else []
  else t.swap ((wordBytes e.little e.bytes x.toNat ++
    leBytes 4 (m.behind (wordBytes e.little e.bytes x.toNat))).take 8)

/-- `transport_read_number`. A number of the type of this side is read with all its bytes. -/
def readNumber (m : Machine) (e : Endpoint) (t : Transport) (input : List UInt8) :
    Option (e.Num × List UInt8) :=
  let n := t.lnumBytes.toNat
  (readBuffer n input).map fun (bs, rest) =>
    let b := t.swap bs
    let x : e.Num :=
      if t.netIntnum ≠ t.locIntnum then
        if n = 1 ∨ n = 2 ∨ n = 4 ∨
          n = 8 then e.ofInt (BitVec.ofNat (8 * n) (wordOf e.little b)).toInt
        else 0
      else BitVec.ofNat _ (wordOf e.little ((b ++ leBytes 4 (m.behind rest)).take e.bytes))
    (x, rest)

/-! ### Numbers on the wire -/

/-- The same number, or the same bits of the same type. -/
def SameNum (w r : Endpoint) (x : w.Num) (y : r.Num) : Prop :=
  (∃ q, w.value x = some q ∧ r.value y = some q) ∨
    w.integral = r.integral ∧ w.wide = r.wide ∧ x.toNat = y.toNat

/-- Numbers that are the same have the same value. -/
theorem SameNum.value_eq {x : w.Num} {y : r.Num} (h : SameNum w r x y) :
    r.value y = w.value x ∧ (w.value x = none → x.toNat = y.toNat ∧ (r.IsNaN y ↔ w.IsNaN x)) := by
  rcases h with ⟨q, hx, hy⟩ | ⟨hint, hwide, hbits⟩
  · exact ⟨hy.trans hx.symm, fun hnone => nomatch hx.symm.trans hnone⟩
  · obtain ⟨wl, ww, wi⟩ := w
    obtain ⟨rl, rw', ri⟩ := r
    obtain rfl : wi = ri := hint
    obtain rfl : ww = rw' := hwide
    obtain rfl : x = y := BitVec.eq_of_toNat_eq hbits
    exact ⟨rfl, fun _ => ⟨rfl, Iff.rfl⟩⟩

/-- A number that the other side has as well. -/
def Representable (w r : Endpoint) (x : w.Num) : Prop := ∃ y, SameNum w r x y

/-- Floating-point numbers are sent with all the bytes that are read. -/
def Steady (w r : Endpoint) : Prop := w.integral ∨ r.integral ∨ w.wide ∧ r.wide

/-- Integers of `n` bytes. -/
def FitsBytes (n : ℕ) (z : ℤ) : Prop := -2 ^ (8 * n - 1) ≤ z ∧ z < 2 ^ (8 * n - 1)

/-- A number that is sent as an integer fits the bytes on the wire, and a side with integers does
not read more bytes than these. -/
def Exact (w r : Endpoint) (x : w.Num) : Prop :=
  w.integral ∨ r.integral → (r.integral → r.bytes ≤ w.bytes) ∧
    ∃ z : ℤ, w.value x = some (z : ℚ) ∧ FitsBytes (min w.bytes r.bytes) z

namespace Endpoint

variable {e : Endpoint} {n : ℕ} {z : ℤ} {m : Machine}

theorem bytes_eq (e : Endpoint) : e.bytes = 4 ∨ e.bytes = 8 := by
  rw [bytes]
  split_ifs
  · exact Or.inr rfl
  · exact Or.inl rfl

theorem toInt_of_fits {x : e.Num} (hx : e.value x = some (z : ℚ)) (hz : FitsBytes n z) :
    e.toInt m n x = z := by
  rw [toInt]
  split_ifs with hint
  · rw [value, if_pos hint] at hx
    exact_mod_cast Option.some.inj hx
  · rw [hx]
    have htrunc : (z : ℚ).num.tdiv (z : ℚ).den = z := by
      rw [Rat.num_intCast, Rat.den_intCast, Int.ofNat_one, Int.tdiv_one]
    simp only [htrunc]
    exact if_pos hz

/-- An integer of at most eight bytes as a floating-point number. -/
theorem value_ofInt_of_floating (h : e.integral = false) {k : ℕ} (hz : z.natAbs ≤ 2 ^ k)
    (hk : k ≤ 63) :
    e.value (e.ofInt z) = e.format.value (e.format.ofInt z) ∧
      ∃ q, e.value (e.ofInt z) = some q ∧ |q| ≤ 2 ^ k ∧ (z < 0 → q ≤ 0) := by
  have hlog := FloatFormat.log2_le_of_le_pow hz
  have hwidth : e.format.frac + e.format.ebits + 1 = 8 * e.bytes := by
    rw [format, bytes]
    split_ifs <;> rfl
  have hmax : k + e.format.bias + 1 < 2 ^ e.format.ebits - 1 := by
    have hformat : e.format.bias + 65 < 2 ^ e.format.ebits - 1 := by
      rw [format]
      split_ifs <;> decide
    omega
  have hlt := FloatFormat.ofInt_lt (f := e.format) (z := z) (by omega)
  have hvalue : e.value (e.ofInt z) = e.format.value (e.format.ofInt z) := by
    rw [value, ofInt, if_neg (by rw [h]; decide), if_neg (by rw [h]; decide), BitVec.toNat_ofNat,
      Nat.mod_eq_of_lt (by rwa [hwidth] at hlt)]
  exact ⟨hvalue, hvalue ▸ FloatFormat.value_ofInt_le hz hmax⟩

theorem value_of_integral (h : e.integral) (x : e.Num) : e.value x = some (x.toInt : ℚ) := if_pos h

theorem not_isNaN_of_integral (h : e.integral) (x : e.Num) : ¬e.IsNaN x := fun hnan =>
  Bool.noConfusion (h.symm.trans hnan.1)

end Endpoint

theorem toNat_lt_pow {n : ℕ} (y : BitVec (8 * n)) : y.toNat < 256 ^ n := by
  have h := y.isLt
  rwa [Nat.pow_mul] at h

theorem readBuffer_append {n : ℕ} {bs rest : List UInt8} (h : bs.length = n) :
    readBuffer n (bs ++ rest) = some (bs, rest) := by
  rw [readBuffer, if_pos (by rw [List.length_append]; omega), ← h, List.take_left, List.drop_left]

section Wire

variable (hwire : Wire w tw r tr) {m m' : Machine}
include hwire

theorem readU32_writeU32 {x : ℕ} (hx : x < 256 ^ 4) (rest : List UInt8) :
    readU32 r tr (writeU32 w tw x ++ rest) = some (x, rest) := by
  rw [readU32, writeU32, ← hwire.locLittle.1, tw.swap_wordBytes, hwire.little,
    readBuffer_append (length_wordBytes _ _ _), Option.map_some]
  simp only
  rw [tr.swap_netBytes, hwire.locLittle.2, wordOf_wordBytes hx]

theorem lnumBytes_eq : tw.lnumBytes.toNat = 4 ∨ tw.lnumBytes.toNat = 8 := by
  have hw := w.bytes_eq
  have hr := r.bytes_eq
  rw [hwire.lnumBytes]
  omega

/-- What is written where numbers are sent as integers. -/
theorem writeNumber_of_integral (h : w.integral ∨ r.integral) (x : w.Num) :
    writeNumber m w tw x = wordBytes tw.netLittle tw.lnumBytes.toNat
      (BitVec.ofInt (8 * tw.lnumBytes.toNat) (w.toInt m tw.lnumBytes.toNat x)).toNat := by
  have hn := lnumBytes_eq hwire
  have hnet : tw.netIntnum = true := by rwa [hwire.netIntnum, Bool.or_eq_true]
  rw [writeNumber, if_pos hnet, if_neg (by omega), if_pos (by omega), ← hwire.locLittle.1,
    tw.swap_wordBytes]

/-- A side with floating-point numbers reads an integer. -/
theorem readNumber_of_floating (h : w.integral) (hr : r.integral = false) {n : ℕ}
    (hn : tw.lnumBytes.toNat = n) (y : BitVec (8 * n)) (rest : List UInt8) :
    readNumber m r tr (wordBytes tw.netLittle n y.toNat ++ rest) =
      some (r.ofInt y.toInt, rest) := by
  have hcases := lnumBytes_eq hwire
  have hlen : tr.lnumBytes.toNat = n := by rw [← hwire.bytes, hn]
  have hdiff : tr.netIntnum ≠ tr.locIntnum := by
    rw [← hwire.intnum, hwire.netIntnum, hwire.locIntnum.2, h, hr]
    decide
  rw [readNumber, hlen, readBuffer_append (length_wordBytes _ _ _), Option.map_some]
  simp only
  rw [if_pos hdiff, if_pos (by omega), hwire.little, tr.swap_netBytes, hwire.locLittle.2,
    wordOf_wordBytes (toNat_lt_pow y), BitVec.ofNat_toNat, BitVec.setWidth_eq]

/-- A side with integers reads one, with the bytes behind it where it reads too many. -/
theorem readNumber_of_integral (hr : r.integral) {n : ℕ} (hn : tw.lnumBytes.toNat = n) (x : ℕ)
    (rest : List UInt8) :
    readNumber m r tr (wordBytes tw.netLittle n x ++ rest) = some (BitVec.ofNat _
      (wordOf r.little ((wordBytes r.little n x ++ leBytes 4 (m.behind rest)).take r.bytes)),
        rest) := by
  have hlen : tr.lnumBytes.toNat = n := by rw [← hwire.bytes, hn]
  have hsame : tr.netIntnum = tr.locIntnum := by
    rw [← hwire.intnum, hwire.netIntnum, hwire.locIntnum.2, hr, Bool.or_true]
  rw [readNumber, hlen, readBuffer_append (length_wordBytes _ _ _), Option.map_some]
  simp only
  rw [if_neg (not_not.mpr hsame), hwire.little, tr.swap_netBytes, hwire.locLittle.2]

omit hwire in
theorem natAbs_toInt_le {n : ℕ} (y : BitVec (8 * n)) :
    y.toInt.natAbs ≤ 2 ^ (8 * n - 1) := by
  have hle := BitVec.le_toInt y
  have hlt := BitVec.toInt_lt (x := y)
  have hpow : ((2 ^ (8 * n - 1) : ℕ) : ℤ) = 2 ^ (8 * n - 1) := Nat.cast_pow 2 _
  omega

/-- **Numbers.** A number is read with all its bytes, it is no NaN if it was none, and it is the
number that was written if it fits the wire. -/
theorem readNumber_writeNumber (hsteady : Steady w r) (x : w.Num) (rest : List UInt8) :
    ∃ y, readNumber m' r tr (writeNumber m w tw x ++ rest) = some (y, rest) ∧
      (¬w.IsNaN x → ¬r.IsNaN y) ∧ (Representable w r x → Exact w r x → SameNum w r x y) := by
  obtain ⟨n, hn⟩ : ∃ n, tw.lnumBytes.toNat = n := ⟨_, rfl⟩
  have hmin : n = min w.bytes r.bytes := hn ▸ hwire.lnumBytes
  have hpos : n = 4 ∨ n = 8 := hn ▸ lnumBytes_eq hwire
  have hself : ∀ z : ℤ, FitsBytes n z → (BitVec.ofInt (8 * n) z).toInt = z := fun z hz =>
    BitVec.toInt_ofInt_eq_self (by omega) hz.1 hz.2
  by_cases hint : w.integral ∨ r.integral
  · rw [writeNumber_of_integral hwire hint, hn]
    rcases hr : r.integral with _ | _
    · have hw : w.integral := hint.resolve_right (by rw [hr]; decide)
      refine ⟨_, readNumber_of_floating hwire hw hr hn _ _, fun _ hnan => ?_, fun hrep hexact => ?_⟩
      · obtain ⟨hvalue, q, hq, -⟩ := Endpoint.value_ofInt_of_floating hr
          (natAbs_toInt_le (BitVec.ofInt (8 * n) (w.toInt m n x))) (by omega)
        rw [Endpoint.value, if_neg (by rw [hr]; decide)] at hq
        exact FloatFormat.not_isNaN_of_value hq hnan.2
      · obtain ⟨-, z, hz, hfits⟩ := hexact hint
        rw [← hmin] at hfits
        obtain ⟨y, ⟨q, hq, hy⟩ | ⟨hsame, -⟩⟩ := hrep
        · rw [hz, Option.some.injEq] at hq
          rw [← hq, Endpoint.value, if_neg (by rw [hr]; decide)] at hy
          rw [Endpoint.toInt_of_fits hz hfits, hself z hfits]
          refine Or.inl ⟨z, hz, ?_⟩
          rw [(Endpoint.value_ofInt_of_floating hr (k := 63) ?_ le_rfl).1,
            FloatFormat.value_ofInt hy]
          have hle := natAbs_toInt_le (BitVec.ofInt (8 * n) z)
          rw [hself z hfits] at hle
          exact hle.trans (Nat.pow_le_pow_right Nat.two_pos (by omega))
        · exact Bool.noConfusion (hw.symm.trans (hsame.trans hr))
    · refine ⟨_, readNumber_of_integral hwire hr hn _ _,
        fun _ => Endpoint.not_isNaN_of_integral hr _,
        fun _ hexact => ?_⟩
      obtain ⟨hle, z, hz, hfits⟩ := hexact hint
      rw [← hmin] at hfits
      have hbytes : r.bytes = n := by
        rw [hmin, Nat.min_eq_right (hle hr)]
      rw [Endpoint.toInt_of_fits hz hfits]
      refine Or.inl ⟨z, hz, ?_⟩
      rw [Endpoint.value_of_integral hr, hbytes, List.take_left' (length_wordBytes _ _ _),
        wordOf_wordBytes (toNat_lt_pow _), BitVec.ofNat_toNat, BitVec.setWidth_eq, hself z hfits]
  · -- both sides have the same type
    obtain ⟨hw, hr⟩ : w.integral = false ∧ r.integral = false :=
      ⟨Bool.eq_false_of_not_eq_true fun h => hint (Or.inl h),
        Bool.eq_false_of_not_eq_true fun h => hint (Or.inr h)⟩
    obtain ⟨hww, hrw⟩ : w.wide ∧ r.wide := by
      rcases hsteady with h | h | h
      · exact absurd (Or.inl h) hint
      · exact absurd (Or.inr h) hint
      · exact h
    have hbytes : w.bytes = 8 ∧ r.bytes = 8 := ⟨if_pos hww, if_pos hrw⟩
    have hlt : x.toNat < 256 ^ 8 := (toNat_lt_pow x).trans_eq (by rw [hbytes.1])
    have hnet : tw.netIntnum = false := by rw [hwire.netIntnum, hw, hr, Bool.or_self]
    have hsent : writeNumber m w tw x = wordBytes tw.netLittle 8 x.toNat := by
      obtain ⟨k, hk⟩ : ∃ k, k = x.toNat := ⟨_, rfl⟩
      rw [writeNumber, hnet, if_neg Bool.false_ne_true, ← hk, hbytes.1,
        List.take_left' (length_wordBytes _ _ _), ← hwire.locLittle.1, tw.swap_wordBytes]
    have hread : readNumber m' r tr (wordBytes tw.netLittle 8 x.toNat ++ rest) =
        some (BitVec.ofNat _ x.toNat, rest) := by
      have hlen : tr.lnumBytes.toNat = 8 := by
        rw [← hwire.bytes, hwire.lnumBytes, hbytes.1, hbytes.2, Nat.min_self]
      have hsame : tr.netIntnum = tr.locIntnum := by rw [← hwire.intnum, hnet, hwire.locIntnum.2,
          hr]
      rw [readNumber, hlen, readBuffer_append (length_wordBytes _ _ _), Option.map_some]
      simp only
      rw [if_neg (not_not.mpr hsame), hwire.little, tr.swap_netBytes, hwire.locLittle.2,
        List.take_left' ((length_wordBytes _ _ _).trans hbytes.2.symm), wordOf_wordBytes hlt]
    have hbits : (BitVec.ofNat (8 * r.bytes) x.toNat).toNat = x.toNat := by
      rw [BitVec.toNat_ofNat, hbytes.2]
      exact Nat.mod_eq_of_lt hlt
    refine ⟨_, hsent ▸ hread, fun hnan hnan' => hnan ⟨hw, ?_⟩, fun _ _ =>
      Or.inr ⟨hw.trans hr.symm, hww.trans hrw.symm, hbits.symm⟩⟩
    have hformat : w.format = r.format := (if_pos hww).trans (if_pos hrw).symm
    rw [hformat, ← hbits]
    exact hnan'.2

/-- A number that is read with all its bytes has a type for which these are sent. -/
theorem steady_of_read {x : w.Num} {y : r.Num} {rest : List UInt8}
    (h : readNumber m' r tr (writeNumber m w tw x ++ rest) = some (y, rest)) : Steady w r := by
  by_contra hsteady
  rw [Steady, not_or, not_or] at hsteady
  obtain ⟨hw, hr, hwide⟩ := hsteady
  have hnet : tw.netIntnum = false := by
    rw [hwire.netIntnum, Bool.eq_false_of_not_eq_true hw, Bool.eq_false_of_not_eq_true hr,
      Bool.or_self]
  have hlnum : tw.lnumBytes.toNat = 4 := by
    rw [hwire.lnumBytes, Endpoint.bytes, Endpoint.bytes]
    split_ifs with hww hrw
    · exact absurd ⟨hww, hrw⟩ hwide
    all_goals rfl
  have hlen : (writeNumber m w tw x).length = 8 := by
    have hbytes := w.bytes_eq
    rw [writeNumber, hnet, if_neg Bool.false_ne_true, Transport.length_swap, List.length_take,
      List.length_append, length_wordBytes, length_leBytes]
    omega
  rw [readNumber, ← hwire.bytes, hlnum, readBuffer, if_pos (by rw [List.length_append]; omega),
    Option.map_some, Option.some.injEq, Prod.mk.injEq] at h
  have hrest := congrArg List.length h.2
  rw [List.length_drop, List.length_append] at hrest
  omega

/-- A side with integers that reads more bytes than there are reads what is behind them. -/
theorem bytes_le_of_read (hr : r.integral) {x : w.Num}
    (h : ∀ m' : Machine, ∃ y, readNumber m' r tr (writeNumber m w tw x ++ []) = some (y, []) ∧
      SameNum w r x y) : r.bytes ≤ w.bytes := by
  by_contra hlt
  obtain ⟨hw, hrb⟩ : w.bytes = 4 ∧ r.bytes = 8 := by
    have := w.bytes_eq
    have := r.bytes_eq
    omega
  have hlnum : tw.lnumBytes.toNat = 4 := by
    rw [hwire.lnumBytes, hw, hrb]
    rfl
  obtain ⟨bs, hbs⟩ : ∃ bs, bs = wordBytes r.little 4
      (BitVec.ofInt (8 * 4) (w.toInt m 4 x)).toNat := ⟨_, rfl⟩
  have hread : ∀ k : ℕ, ∃ y : r.Num, y.toNat = wordOf r.little (bs ++ leBytes 4 k) ∧
      SameNum w r x y := by
    intro k
    obtain ⟨y, hy, hsame⟩ := h ⟨fun _ => k, fun _ => 0⟩
    have hlen : (bs ++ leBytes 4 k).length = 8 := by
      rw [hbs, List.length_append, length_wordBytes, length_leBytes]
    rw [writeNumber_of_integral hwire (Or.inr hr), hlnum, readNumber_of_integral hwire hr hlnum,
      ← hbs,
      Option.some.injEq, Prod.mk.injEq] at hy
    refine ⟨y, ?_, hsame⟩
    rw [← hy.1, List.take_of_length_le (by rw [hlen, hrb]), BitVec.toNat_ofNat, hrb]
    exact Nat.mod_eq_of_lt (wordOf_lt.trans_eq (by rw [hlen]; rfl))
  obtain ⟨y, hy, hsame⟩ := hread 0
  obtain ⟨y', hy', hsame'⟩ := hread 1
  have hvalue : r.value y = r.value y' := hsame.value_eq.1.trans hsame'.value_eq.1.symm
  rw [Endpoint.value_of_integral hr, Endpoint.value_of_integral hr, Option.some.injEq,
    Int.cast_inj] at hvalue
  have hbytes : bs ++ leBytes 4 0 = bs ++ leBytes 4 1 := by
    refine wordOf_inj (by rw [List.length_append, List.length_append]; rfl)
      (?_ : wordOf r.little _ = wordOf r.little _)
    rw [← hy, ← hy', BitVec.eq_of_toInt_eq hvalue]
  exact absurd (List.append_cancel_left hbytes) (by decide)

/-- A number that the other side has and reads is exact. -/
theorem exact_of_read {x : w.Num} (hrep : Representable w r x)
    (h : ∀ m' : Machine, ∃ y, readNumber m' r tr (writeNumber m w tw x ++ []) = some (y, []) ∧
      SameNum w r x y) : Exact w r x := by
  intro hint
  refine ⟨fun hr => bytes_le_of_read hwire hr h, ?_⟩
  have hwb := w.bytes_eq
  have hrb := r.bytes_eq
  rcases hr : r.integral with _ | _
  · have hw : w.integral := hint.resolve_right (by rw [hr]; decide)
    refine ⟨x.toInt, Endpoint.value_of_integral hw x, ?_⟩
    by_contra hfits
    have hle := BitVec.le_toInt x
    have hlt := BitVec.toInt_lt (x := x)
    have hnarrow : w.bytes = 8 ∧ r.bytes = 4 := by
      by_contra hne
      have hmin : min w.bytes r.bytes = w.bytes := by omega
      rw [hmin] at hfits
      exact hfits ⟨hle, hlt⟩
    have hlnum : tw.lnumBytes.toNat = 4 := by
      rw [hwire.lnumBytes, hnarrow.1, hnarrow.2]
      rfl
    obtain ⟨y, hread, hsame⟩ := h m
    rw [writeNumber_of_integral hwire hint, hlnum, readNumber_of_floating hwire hw hr hlnum,
      Option.some.injEq, Prod.mk.injEq, Endpoint.toInt, if_pos hw] at hread
    obtain ⟨-, q, hq, hbound, hsign⟩ := Endpoint.value_ofInt_of_floating hr
      (natAbs_toInt_le (BitVec.ofInt (8 * 4) x.toInt)) (by decide)
    rw [hread.1, hsame.value_eq.1, Endpoint.value_of_integral hw, Option.some.injEq] at hq
    -- rounding does not leave the range of the bytes, and its upper bound is sent as the lower one
    have hle31 : |x.toInt| ≤ 2 ^ 31 := by
      rw [← hq] at hbound
      exact_mod_cast hbound
    have hz : x.toInt = 2 ^ 31 := by
      have hmin : min w.bytes r.bytes = 4 := by rw [hnarrow.1, hnarrow.2]; rfl
      rw [hmin, FitsBytes] at hfits
      have := abs_le.mp hle31
      omega
    rw [hz] at hsign
    have hle0 := hsign (by decide)
    rw [← hq, hz] at hle0
    exact absurd hle0 (by norm_num)
  · obtain ⟨y, hsame⟩ := hrep
    refine ⟨y.toInt, by rw [← hsame.value_eq.1, Endpoint.value_of_integral hr], ?_⟩
    rw [Nat.min_eq_right (bytes_le_of_read hwire hr h)]
    exact ⟨BitVec.le_toInt y, BitVec.toInt_lt⟩

end Wire

end ELuaBrain.LuaRpc
