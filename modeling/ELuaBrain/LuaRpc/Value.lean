import ELuaBrain.LuaRpc.Number

/-!
# Lua values on a connection

`write_variable` and `read_variable` of `luarpc.c`. A table is given by its entries in the order of
`lua_next`, so it does not contain itself, and of a function the prototype is kept and whether an
upvalue holds a value. The dump of a prototype and its loading are parameters. The userdata of the
module itself, which are sent by their names, are left out.

## Main definitions

* `LuaValue`, `LuaTable` : values, with the read-only tables and light functions of eLua.
* `writeVariable`, `readVariable` : the code.
* `Same`, `Conveyed` : equal values, and what is expected of the code.
* `Sendable`, `Faithful` : what the code can send, and what arrives as the same value.

## Main results

* `readString_writeU32` : a string is read as it was sent.
* `SameTable.rawset` : an entry with a new key keeps tables the same.
-/

namespace ELuaBrain.LuaRpc

/-! ### Values -/

mutual

/-- A Lua value. Prototypes of functions have the type `P`, and objects outside Lua are given by
their addresses. -/
inductive LuaValue (e : Endpoint) (P : Type) where
  | nil
  | boolean (b : Bool)
  | number (x : e.Num)
  | string (s : List UInt8)
  | table (entries : LuaTable e P)
  | function (p : P) (captured : Bool)
  | cfunction
  | rotable (address : ℕ)
  | lightfunction (address : ℕ)
  | userdata
  | thread
  | lightuserdata

/-- The entries of a table. -/
inductive LuaTable (e : Endpoint) (P : Type) where
  | done
  | entry (key value : LuaValue e P) (next : LuaTable e P)

end

variable {P : Type} {e : Endpoint}

namespace LuaValue

def isNil : LuaValue e P → Bool
  | nil => true
  | _ => false

/-- A value that is accepted as a key. -/
def isKey : LuaValue e P → Bool
  | nil => false
  | number x => !e.IsNaN x
  | _ => true

/-- Raw equality. Tables and functions that were made one after the other are different. -/
def rawEq : LuaValue e P → LuaValue e P → Bool
  | nil, nil => true
  | boolean a, boolean b => a == b
  | number x, number y => e.numEq x y
  | string s, string s' => s == s'
  | rotable a, rotable b => a == b
  | lightfunction a, lightfunction b => a == b
  | _, _ => false

end LuaValue

namespace LuaTable

def hasKey (j : LuaValue e P) : LuaTable e P → Bool
  | done => false
  | entry k _ next => k.rawEq j || next.hasKey j

/-- `lua_rawset` with a value that is accepted as a key. -/
def rawset (j v : LuaValue e P) : LuaTable e P → LuaTable e P
  | done => if v.isNil then done else entry j v done
  | entry k v' next =>
    if k.rawEq j then if v.isNil then next else entry k v next
    else entry k v' (next.rawset j v)

def append : LuaTable e P → LuaTable e P → LuaTable e P
  | done, t => t
  | entry k v next, t => entry k v (next.append t)

/-- The keys have a property. -/
def KeysAll (p : LuaValue e P → Prop) : LuaTable e P → Prop
  | done => True
  | entry k _ next => p k ∧ next.KeysAll p

end LuaTable

mutual

/-- The tables in a value have keys that are different and accepted, and values that are not nil. -/
def LuaValue.Wf : LuaValue e P → Prop
  | .table t => t.Wf
  | _ => True

def LuaTable.Wf : LuaTable e P → Prop
  | .done => True
  | .entry k v next =>
    k.Wf ∧ v.Wf ∧ k.isKey ∧ v.isNil = false ∧ next.KeysAll (fun j => k.rawEq j = false) ∧ next.Wf

end

/-! ### Writing -/

/-- `RPC_NIL` and the other types. -/
def rpcNil : UInt8 := 0
def rpcNumber : UInt8 := 1
def rpcBoolean : UInt8 := 2
def rpcString : UInt8 := 3
def rpcTable : UInt8 := 4
def rpcTableEnd : UInt8 := 5
def rpcFunction : UInt8 := 6
def rpcFunctionEnd : UInt8 := 7

/-- What `luaU_dump` or `luaU_dump_crosscompile` gives for a prototype, and what `luaL_loadbuffer`
makes of a chunk: a prototype, or the text of an error. -/
structure Chunks (P : Type) where
  dump : Endpoint → Transport → P → List UInt8
  load : Endpoint → List UInt8 → Except (List UInt8) P

/-- How a function of the code ends: it returns, it raises an error, or what it does is undefined.
-/
inductive Ending where
  | returned
  | raised (message : String)
  | undefined
  deriving DecidableEq

/-- The bytes that were sent, and the end. -/
abbrev Written : Type := List UInt8 × Ending

def put (bs : List UInt8) : Written := (bs, .returned)

def Written.andThen (a b : Written) : Written :=
  match a.2 with
  | .returned => (a.1 ++ b.1, b.2)
  | _ => a

/-- A string as far as it is sent: its length has 32 bits. -/
def cut (s : List UInt8) : List UInt8 := s.take (s.length % 2 ^ 32)

/-- A string in `write_variable`. The length is passed on as an `int`. -/
def writeString (e : Endpoint) (t : Transport) (s : List UInt8) : Written :=
  let len := s.length % 2 ^ 32
  (put (rpcString :: writeU32 e t len)).andThen
    (if len < 2 ^ 31 then put (s.take len) else ([], .undefined))

mutual

/-- `write_variable`. Read-only tables and light functions are in none of its cases, and a C
function has no prototype. -/
def writeVariable (m : Machine) (c : Chunks P) (e : Endpoint) (t : Transport) :
    LuaValue e P → Written
  | .number x => put (rpcNumber :: writeNumber m e t x)
  | .string s => writeString e t s
  | .table tab => (put [rpcTable]).andThen ((writeTable m c e t tab).andThen (put [rpcTableEnd]))
  | .nil => put [rpcNil]
  | .boolean b => put [rpcBoolean, flag b]
  | .function p _ =>
    (put [rpcFunction]).andThen ((writeString e t (c.dump e t p)).andThen (put [rpcFunctionEnd]))
  | .cfunction => ([rpcFunction], .undefined)
  | .userdata => ([], .raised "userdata transmission unsupported")
  | .thread => ([], .raised "thread transmission unsupported")
  | .lightuserdata => ([], .raised "light userdata transmission unsupported")
  | .rotable _ => put []
  | .lightfunction _ => put []

/-- `write_table`. -/
def writeTable (m : Machine) (c : Chunks P) (e : Endpoint) (t : Transport) : LuaTable e P → Written
  | .done => put []
  | .entry k v next =>
    (writeVariable m c e t k).andThen ((writeVariable m c e t v).andThen (writeTable m c e t next))

end

/-! ### Reading -/

/-- A string in `read_variable`. -/
def readString (e : Endpoint) (t : Transport) (input : List UInt8) :
    Option (List UInt8 × List UInt8) :=
  (readU32 e t input).bind fun (len, rest) => if len < 2 ^ 31 then readBuffer len rest else none

/-- A chunk in `read_function`. The text of an error takes the place of the function. -/
def loadChunk (c : Chunks P) (e : Endpoint) (s : List UInt8) : LuaValue e P :=
  match c.load e s with
  | .ok p => .function p false
  | .error message => .string message

mutual

/-- `read_variable`, with no value for the ends of tables and functions. There is no result when an
exception is thrown or an error raised, when bytes are missing, and where a value that is not there
would be used. -/
def readVariable (m : Machine) (c : Chunks P) (e : Endpoint) (t : Transport) :
    ℕ → List UInt8 → Option (Option (LuaValue e P) × List UInt8)
  | 0, _ => none
  | _, [] => none
  | fuel + 1, type :: input =>
    if type = rpcNil then some (some .nil, input)
    else if type = rpcBoolean then
      (readBuffer 1 input).map fun (b, rest) => (some (.boolean (b != [0])), rest)
    else if type = rpcNumber then
      (readNumber m e t input).map fun (x, rest) => (some (.number x), rest)
    else if type = rpcString then
      (readString e t input).map fun (s, rest) => (some (.string s), rest)
    else if type = rpcTable then
      (readTable m c e t fuel .done input).map fun (tab, rest) => (some (.table tab), rest)
    else if type = rpcTableEnd then some (none, input)
    else if type = rpcFunction then
      (readFunction m c e t fuel input).map fun (f, rest) => (some f, rest)
    else if type = rpcFunctionEnd then some (none, input)
    else none

/-- `read_table`, with the entries so far. -/
def readTable (m : Machine) (c : Chunks P) (e : Endpoint) (t : Transport) :
    ℕ → LuaTable e P → List UInt8 → Option (LuaTable e P × List UInt8)
  | 0, _, _ => none
  | fuel + 1, tab, input =>
    match readVariable m c e t fuel input with
    | none => none
    | some (none, rest) => some (tab, rest)
    | some (some k, rest) =>
      match readVariable m c e t fuel rest with
      | some (some v, rest) =>
        if k.isKey then readTable m c e t fuel (tab.rawset k v) rest else none
      | _ => none

/-- `read_function`, for one chunk. -/
def readFunction (m : Machine) (c : Chunks P) (e : Endpoint) (t : Transport) :
    ℕ → List UInt8 → Option (LuaValue e P × List UInt8)
  | 0, _ => none
  | fuel + 1, input =>
    match readVariable m c e t fuel input with
    | some (some (.string s), rest) =>
      match readVariable m c e t fuel rest with
      | some (none, rest) => some (loadChunk c e s, rest)
      | _ => none
    | _ => none

end

/-- `read_variable` on all bytes that are there. A value takes at least one byte, and so does the
end of a table. -/
def receive (m : Machine) (c : Chunks P) (e : Endpoint) (t : Transport) (input : List UInt8) :
    Option (Option (LuaValue e P) × List UInt8) :=
  readVariable m c e t (2 * input.length) input

/-! ### What is expected -/

section Values

variable (c : Chunks P) (w : Endpoint) (tw : Transport) (r : Endpoint)

mutual

/-- Equal values. Numbers may have different types. -/
def Same (w r : Endpoint) : LuaValue w P → LuaValue r P → Prop
  | .nil, .nil => True
  | .boolean a, .boolean b => a = b
  | .number x, .number y => SameNum w r x y
  | .string s, .string s' => s = s'
  | .table a, .table b => SameTable w r a b
  | .function p a, .function p' b => p = p' ∧ a = b
  | _, _ => False

/-- Tables with equal entries in the same order. -/
def SameTable (w r : Endpoint) : LuaTable w P → LuaTable r P → Prop
  | .done, .done => True
  | .entry k v next, .entry k' v' next' => Same w r k k' ∧ Same w r v v' ∧ SameTable w r next next'
  | _, _ => False

end

mutual

/-- The other side has the numbers of a value. -/
def LuaValue.Rep (w r : Endpoint) : LuaValue w P → Prop
  | .number x => Representable w r x
  | .table t => t.Rep w r
  | _ => True

def LuaTable.Rep (w r : Endpoint) : LuaTable w P → Prop
  | .done => True
  | .entry k v next => k.Rep w r ∧ v.Rep w r ∧ next.Rep w r

end

/-- A string whose length is read as it was sent. -/
def Short (s : List UInt8) : Prop := s.length % 2 ^ 32 < 2 ^ 31

mutual

/-- A value without read-only tables, light functions, C functions and what is not supported, whose
strings are short, and without floating-point numbers if these are not read with all their bytes. -/
def LuaValue.Sendable (c : Chunks P) (w : Endpoint) (tw : Transport) (r : Endpoint) :
    LuaValue w P → Prop
  | .nil => True
  | .boolean _ => True
  | .number _ => Steady w r
  | .string s => Short s
  | .table t => t.Sendable c w tw r
  | .function p _ => Short (c.dump w tw p)
  | _ => False

def LuaTable.Sendable (c : Chunks P) (w : Endpoint) (tw : Transport) (r : Endpoint) :
    LuaTable w P → Prop
  | .done => True
  | .entry k v next => k.Sendable c w tw r ∧ v.Sendable c w tw r ∧ next.Sendable c w tw r

end

mutual

/-- A value whose numbers are exact on the wire, whose strings have no more than 32 bits of length,
and whose functions are loaded as what they were and hold nothing in their upvalues. -/
def LuaValue.Faithful (c : Chunks P) (w : Endpoint) (tw : Transport) (r : Endpoint) :
    LuaValue w P → Prop
  | .number x => Exact w r x
  | .string s => s.length < 2 ^ 32
  | .table t => t.Faithful c w tw r
  | .function p captured => captured = false ∧ c.load r (cut (c.dump w tw p)) = .ok p
  | _ => True

def LuaTable.Faithful (c : Chunks P) (w : Endpoint) (tw : Transport) (r : Endpoint) :
    LuaTable w P → Prop
  | .done => True
  | .entry k v next => k.Faithful c w tw r ∧ v.Faithful c w tw r ∧ next.Faithful c w tw r

end

/-- Values that are refused with an error. -/
def LuaValue.Refused : LuaValue w P → Prop
  | .userdata => True
  | .thread => True
  | .lightuserdata => True
  | _ => False

/-- An error is raised before a byte is sent, or what is sent is read to its end, whatever follows
it, and as an equal value if the other side has its numbers. -/
def Conveyed (tr : Transport) (v : LuaValue w P) : Prop :=
  ∀ m m' : Machine,
    (∃ message, writeVariable m c w tw v = ([], .raised message)) ∨
      ∃ bs, writeVariable m c w tw v = (bs, .returned) ∧ ∀ rest, ∃ v',
        receive m' c r tr (bs ++ rest) = some (some v', rest) ∧ (v.Rep w r → Same w r v v')

/-- A value that is refused, or one that can be sent and arrives as the same value if the other
side has its numbers. -/
def Careful (v : LuaValue w P) : Prop :=
  v.Refused ∨ v.Sendable c w tw r ∧ (v.Rep w r → v.Faithful c w tw r)

end Values

/-! ### Strings -/

section Strings

variable {w r : Endpoint} {tw tr : Transport} {s : List UInt8} {b : Written} {bs cs : List UInt8}
  {ending : Ending}

@[simp] theorem put_andThen : (put bs).andThen b = (bs ++ b.1, b.2) := rfl

@[simp] theorem returned_andThen :
    Written.andThen (bs, Ending.returned) (cs, ending) = (bs ++ cs, ending) := rfl

theorem length_cut (s : List UInt8) : (cut s).length = s.length % 2 ^ 32 := by
  rw [cut, List.length_take]
  exact Nat.min_eq_left (Nat.mod_le _ _)

theorem cut_eq_iff : cut s = s ↔ s.length < 2 ^ 32 := by
  constructor
  · intro h
    have hlen := length_cut s
    rw [h] at hlen
    rw [hlen]
    exact Nat.mod_lt _ (by decide)
  · intro h
    rw [cut, Nat.mod_eq_of_lt h, List.take_length]

/-- The bytes of a string that is short. -/
def stringBytes (e : Endpoint) (t : Transport) (s : List UInt8) : List UInt8 :=
  rpcString :: (writeU32 e t (s.length % 2 ^ 32) ++ cut s)

theorem writeString_of_short (h : Short s) :
    writeString w tw s = (stringBytes w tw s, .returned) := by
  rw [writeString, if_pos (show s.length % 2 ^ 32 < 2 ^ 31 from h), put_andThen]
  rfl

theorem writeString_of_long (h : ¬Short s) :
    writeString w tw s = (rpcString :: (writeU32 w tw (s.length % 2 ^ 32) ++ []), .undefined) := by
  rw [writeString, if_neg (show ¬s.length % 2 ^ 32 < 2 ^ 31 from h), put_andThen]
  rfl

theorem readString_writeU32 (hwire : Wire w tw r tr) (h : Short s) (rest : List UInt8) :
    readString r tr (writeU32 w tw (s.length % 2 ^ 32) ++ cut s ++ rest) = some (cut s, rest) := by
  have hlt : s.length % 2 ^ 32 < 256 ^ 4 := Nat.mod_lt _ (by decide)
  rw [readString, List.append_assoc, readU32_writeU32 hwire hlt, Option.bind_some]
  simp only
  rw [if_pos (show s.length % 2 ^ 32 < 2 ^ 31 from h), readBuffer_append (length_cut s)]

end Strings

/-! ### Equal keys -/

section Same

variable {w r : Endpoint}

theorem numEq_of_same {x y : w.Num} {x' y' : r.Num} (hx : SameNum w r x x') (hy : SameNum w r y y')
    (h : r.numEq x' y') : w.numEq x y := by
  obtain ⟨hvx, hbx⟩ := hx.value_eq
  obtain ⟨hvy, hby⟩ := hy.value_eq
  rw [Endpoint.numEq, hvx, hvy] at h
  rw [Endpoint.numEq]
  rcases hp : w.value x with _ | p <;> rcases hq : w.value y with _ | q <;> rw [hp, hq] at h
  · -- neither has a value: the bits are compared
    simp only [Bool.and_eq_true, beq_iff_eq, Bool.not_eq_true', decide_eq_false_iff_not] at h ⊢
    obtain ⟨hxy, hnan⟩ := h
    refine ⟨BitVec.eq_of_toNat_eq ?_, fun hx => hnan ((hbx hp).2.mpr hx)⟩
    rw [(hbx hp).1, (hby hq).1, hxy]
  · exact h
  · exact h
  · exact h

theorem rawEq_of_same {a b : LuaValue w P} {a' b' : LuaValue r P} (ha : Same w r a a')
    (hb : Same w r b b') (h : a'.rawEq b') : a.rawEq b := by
  cases a' <;> cases b' <;> first | exact absurd h Bool.false_ne_true | skip
  all_goals
    cases a <;> first | exact ha.elim | cases b <;> first | exact hb.elim | skip
  · rfl
  · obtain rfl : _ = _ := ha
    obtain rfl : _ = _ := hb
    exact h
  · exact numEq_of_same ha hb h
  · obtain rfl : _ = _ := ha
    obtain rfl : _ = _ := hb
    exact h

/-- An entry with a new key is put behind the others. -/
theorem SameTable.rawset {k v : LuaValue w P} {k' v' : LuaValue r P} (hk : Same w r k k')
    (hv : Same w r v v') (hnil : v'.isNil = false) : ∀ {a : LuaTable w P} {b : LuaTable r P},
      SameTable w r a b → a.hasKey k = false →
        SameTable w r (a.append (.entry k v .done)) (b.rawset k' v')
  | .done, .done, _, _ => by
    rw [LuaTable.rawset, hnil]
    exact ⟨hk, hv, trivial⟩
  | .entry k₁ v₁ a, .entry k₁' v₁' b, ⟨hk₁, hv₁, hnext⟩, hnew => by
    obtain ⟨hne, hnew⟩ := Bool.or_eq_false_iff.mp hnew
    have hne' : k₁'.rawEq k' = false := Bool.eq_false_of_not_eq_true fun heq =>
      Bool.false_ne_true (hne.symm.trans (rawEq_of_same hk₁ hk heq))
    rw [LuaTable.rawset, hne', if_neg Bool.false_ne_true]
    exact ⟨hk₁, hv₁, SameTable.rawset hk hv hnil hnext hnew⟩

end Same

namespace LuaTable

variable {k v : LuaValue e P} {t t' : LuaTable e P} {p q : LuaValue e P → Prop}

theorem append_entry : ∀ t : LuaTable e P, (t.append (entry k v done)).append t' =
    t.append (entry k v t')
  | done => rfl
  | entry k₁ v₁ t => congrArg (entry k₁ v₁) (append_entry t)

theorem hasKey_append_entry {j : LuaValue e P} : ∀ t : LuaTable e P,
    (t.append (entry k v done)).hasKey j = (t.hasKey j || k.rawEq j)
  | done => by rw [append, hasKey, hasKey, hasKey, Bool.or_false, Bool.false_or]
  | entry k₁ v₁ t => by
    rw [append, hasKey, hasKey, hasKey_append_entry t, Bool.or_assoc]

theorem KeysAll.and : ∀ {t : LuaTable e P}, t.KeysAll p → t.KeysAll q → t.KeysAll fun j => p j ∧ q j
  | done, _, _ => trivial
  | entry _ _ _, hp, hq => ⟨⟨hp.1, hq.1⟩, hp.2.and hq.2⟩

theorem KeysAll.imp (h : ∀ j, p j → q j) : ∀ {t : LuaTable e P}, t.KeysAll p → t.KeysAll q
  | done, _ => trivial
  | entry _ _ _, hp => ⟨h _ hp.1, hp.2.imp h⟩

theorem keysAll_of_forall (h : ∀ j, p j) : ∀ {t : LuaTable e P}, t.KeysAll p
  | done => trivial
  | entry _ _ _ => ⟨h _, keysAll_of_forall h⟩

end LuaTable

end ELuaBrain.LuaRpc
