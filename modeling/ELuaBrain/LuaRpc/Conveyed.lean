import ELuaBrain.LuaRpc.Value

/-!
# Values that arrive

What is read of the bytes that were sent for a value, by induction on the value, and where the code
falls short of it.

## Main definitions

* `Arrives`, `TableArrives` : what is read of given bytes.

## Main results

* `arrives`, `table_arrives` : what is sent for sendable values arrives.
* `conveyed_joined` : the two sides agree, and careful values are conveyed; of the values that are
  no tables only these are.
-/

namespace ELuaBrain.LuaRpc

variable {P : Type} {m m' : Machine} {c : Chunks P} {w r : Endpoint} {tw tr : Transport}

/-! ### Reading by types -/

section Types

variable {e : Endpoint} {t : Transport} {fuel : ℕ} {input : List UInt8}

-- The equations of the reader are derived here, once for all its branches.
attribute [local simp] readVariable

theorem readVariable_nil : readVariable m c e t (fuel + 1) (rpcNil :: input) =
    some (some .nil, input) := by
  rw [readVariable, if_pos rfl]

theorem readVariable_boolean (b : Bool) : readVariable m c e t (fuel + 1)
    (rpcBoolean :: flag b :: input) =
    some (some (.boolean b), input) := by
  rw [readVariable, if_neg (by decide), if_pos rfl]
  cases b <;> rfl

theorem readVariable_number : readVariable m c e t (fuel + 1) (rpcNumber :: input) =
    (readNumber m e t input).map fun (x, rest) => (some (.number x), rest) := by
  rw [readVariable, if_neg (by decide), if_neg (by decide), if_pos rfl]

theorem readVariable_string : readVariable m c e t (fuel + 1) (rpcString :: input) =
    (readString e t input).map fun (s, rest) => (some (.string s), rest) := by
  rw [readVariable, if_neg (by decide), if_neg (by decide), if_neg (by decide), if_pos rfl]

theorem readVariable_table : readVariable m c e t (fuel + 1) (rpcTable :: input) =
    (readTable m c e t fuel .done input).map fun (tab, rest) => (some (.table tab), rest) := by
  rw [readVariable, if_neg (by decide), if_neg (by decide), if_neg (by decide), if_neg (by decide),
    if_pos rfl]

theorem readVariable_tableEnd : readVariable m c e t (fuel + 1) (rpcTableEnd :: input) =
    some (none, input) := by
  rw [readVariable, if_neg (by decide), if_neg (by decide), if_neg (by decide), if_neg (by decide),
    if_neg (by decide), if_pos rfl]

theorem readVariable_function : readVariable m c e t (fuel + 1) (rpcFunction :: input) =
    (readFunction m c e t fuel input).map fun (f, rest) => (some f, rest) := by
  rw [readVariable, if_neg (by decide), if_neg (by decide), if_neg (by decide), if_neg (by decide),
    if_neg (by decide), if_neg (by decide), if_pos rfl]

theorem readVariable_functionEnd : readVariable m c e t (fuel + 1) (rpcFunctionEnd :: input) =
    some (none, input) := by
  rw [readVariable, if_neg (by decide), if_neg (by decide), if_neg (by decide), if_neg (by decide),
    if_neg (by decide), if_neg (by decide), if_neg (by decide), if_pos rfl]

end Types

/-! ### What arrives -/

/-- A value and what is read for it: keys are read as keys, and where the numbers can be read and
the value is faithful, it is the same. -/
structure Kept (c : Chunks P) (tw : Transport) (v : LuaValue w P) (v' : LuaValue r P) : Prop where
  key : v.isKey → v'.isKey
  nil : v.isNil = false → v'.isNil = false
  same : v.Rep w r → v.Faithful c w tw r → Same w r v v'

/-- The bytes are read as the value, whatever follows them. -/
def Arrives (m : Machine) (c : Chunks P) (tw : Transport) (r : Endpoint) (tr : Transport)
    (v : LuaValue w P) (bs : List UInt8) : Prop :=
  0 < bs.length ∧ ∀ rest fuel, 2 * bs.length ≤ fuel → ∃ v' : LuaValue r P,
    readVariable m c r tr fuel (bs ++ rest) = some (some v', rest) ∧ Kept c tw v v'

/-- The bytes are read as further entries of a table. -/
def TableArrives (m : Machine) (c : Chunks P) (tw : Transport) (r : Endpoint) (tr : Transport)
    (t : LuaTable w P) (bs : List UInt8) : Prop :=
  ∀ rest fuel (b : LuaTable r P), 2 * bs.length + 2 ≤ fuel → ∃ b' : LuaTable r P,
    readTable m c r tr fuel b (bs ++ rpcTableEnd :: rest) = some (b', rest) ∧
      ∀ a, SameTable w r a b → t.KeysAll (fun j => a.hasKey j = false) → t.Rep w r →
        t.Faithful c w tw r → SameTable w r (a.append t) b'

theorem SameTable.append_done : ∀ {a : LuaTable w P} {b : LuaTable r P}, SameTable w r a b →
    SameTable w r (a.append .done) b
  | .done, .done, _ => trivial
  | .entry _ _ _, .entry _ _ _, ⟨hk, hv, hnext⟩ => ⟨hk, hv, hnext.append_done⟩

theorem tableArrives_done : TableArrives m c tw r tr (.done : LuaTable w P) [] := by
  intro rest fuel b hfuel
  rw [List.length_nil] at hfuel
  obtain ⟨fuel, rfl⟩ := Nat.exists_eq_add_of_le' (show 2 ≤ fuel by omega)
  refine ⟨b, ?_, fun a hab _ _ _ => hab.append_done⟩
  rw [readTable, List.nil_append, readVariable_tableEnd]

/-- One more entry. -/
theorem TableArrives.entry {k v : LuaValue w P} {next : LuaTable w P} {kb vb nb : List UInt8}
    (hwf : (LuaTable.entry k v next).Wf) (hk : Arrives m c tw r tr k kb)
    (hv : Arrives m c tw r tr v vb)
    (hnext : TableArrives m c tw r tr next nb) :
    TableArrives m c tw r tr (.entry k v next) (kb ++ (vb ++ nb)) := by
  intro rest fuel b hfuel
  obtain ⟨-, -, hkey, hnil, hfresh, -⟩ := hwf
  obtain ⟨hkpos, hk⟩ := hk
  obtain ⟨-, hv⟩ := hv
  rw [List.length_append, List.length_append] at hfuel
  obtain ⟨fuel, rfl⟩ := Nat.exists_eq_add_of_le' (show 1 ≤ fuel by omega)
  obtain ⟨k', hread, hkept⟩ := hk (vb ++ nb ++ rpcTableEnd :: rest) fuel (by omega)
  obtain ⟨v', hread', hkept'⟩ := hv (nb ++ rpcTableEnd :: rest) fuel (by omega)
  obtain ⟨b', hread'', hsame⟩ := hnext rest fuel (b.rawset k' v') (by omega)
  refine ⟨b', ?_, ?_⟩
  · rw [readTable, List.append_assoc, hread]
    simp only
    rw [List.append_assoc, hread']
    simp only
    rw [if_pos (hkept.key hkey), hread'']
  · rintro a hab ⟨hnew, hnews⟩ ⟨hrepk, hrepv, hrep⟩ ⟨hfaithk, hfaithv, hfaith⟩
    have hstep := SameTable.rawset (hkept.same hrepk hfaithk) (hkept'.same hrepv hfaithv)
      (hkept'.nil hnil) hab hnew
    have hkeys : next.KeysAll fun j => (a.append (.entry k v .done)).hasKey j = false :=
      (hnews.and hfresh).imp fun j hj => by
        rw [LuaTable.hasKey_append_entry, hj.1, hj.2, Bool.or_self]
    have hall := hsame _ hstep hkeys hrep hfaith
    rwa [LuaTable.append_entry] at hall

/-- A value without entries. -/
theorem arrives_of_read {v : LuaValue w P} {type : UInt8} {bs : List UInt8}
    (h : ∀ rest fuel, ∃ v' : LuaValue r P,
      readVariable m c r tr (fuel + 1) (type :: (bs ++ rest)) = some (some v', rest) ∧
        Kept c tw v v') :
    Arrives m c tw r tr v (type :: bs) := by
  refine ⟨Nat.succ_pos _, fun rest fuel hfuel => ?_⟩
  rw [List.length_cons] at hfuel
  obtain ⟨fuel, rfl⟩ := Nat.exists_eq_add_of_le' (show 1 ≤ fuel by omega)
  exact h rest fuel

/-- The bytes of a function with this chunk. -/
def functionBytes (e : Endpoint) (t : Transport) (s : List UInt8) : List UInt8 :=
  rpcFunction :: (stringBytes e t s ++ [rpcFunctionEnd])

theorem two_le_length_functionBytes (e : Endpoint) (t : Transport) (s : List UInt8) :
    2 ≤ (functionBytes e t s).length := by
  rw [functionBytes, List.length_cons, List.length_append, List.length_singleton]
  omega

theorem writeVariable_function {p : P} {captured : Bool} (h : Short (c.dump w tw p)) :
    writeVariable m c w tw (.function p captured) =
      (functionBytes w tw (c.dump w tw p), .returned) := by
  rw [writeVariable, writeString_of_short h, put, put, returned_andThen, returned_andThen]
  rfl

section Wire

variable (hwire : Wire w tw r tr)
include hwire

/-- What is read for a string. -/
theorem readVariable_stringBytes {s : List UInt8} (h : Short s) (rest : List UInt8) (fuel : ℕ) :
    readVariable m c r tr (fuel + 1) (stringBytes w tw s ++ rest) =
      some (some (.string (cut s)), rest) := by
  rw [stringBytes, List.cons_append, readVariable_string, readString_writeU32 hwire h]
  rfl

theorem arrives_string {s : List UInt8} (h : Short s) :
    Arrives m c tw r tr (.string s : LuaValue w P) (stringBytes w tw s) := by
  refine ⟨Nat.succ_pos _, fun rest fuel hfuel => ?_⟩
  rw [stringBytes, List.length_cons] at hfuel
  obtain ⟨fuel, rfl⟩ := Nat.exists_eq_add_of_le' (show 1 ≤ fuel by omega)
  exact ⟨.string (cut s), readVariable_stringBytes hwire h rest fuel, fun _ => rfl, fun _ => rfl,
    fun _ hlen => (cut_eq_iff.mpr hlen).symm⟩

theorem arrives_number (hsteady : Steady w r) (x : w.Num) :
    Arrives m' c tw r tr (.number x : LuaValue w P) (rpcNumber :: writeNumber m w tw x) := by
  refine arrives_of_read fun rest fuel => ?_
  obtain ⟨y, hread, hnan, hsame⟩ :
      ∃ y, readNumber m' r tr (writeNumber m w tw x ++ rest) = some (y, rest) ∧ _ :=
    readNumber_writeNumber hwire hsteady x rest
  refine ⟨.number y, ?_, fun hkey => ?_, fun _ => rfl, hsame⟩
  · rw [readVariable_number, hread]
    rfl
  · have hne : ¬w.IsNaN x := of_decide_eq_false (Bool.not_eq_true' _ ▸ hkey)
    exact Bool.not_eq_true' _ ▸ decide_eq_false (hnan hne)

/-- What is read for a function. -/
theorem readVariable_functionBytes {s : List UInt8} (h : Short s) (rest : List UInt8) (fuel : ℕ) :
    readVariable m c r tr (fuel + 3) (functionBytes w tw s ++ rest) =
      some (some (loadChunk c r (cut s)), rest) := by
  rw [functionBytes, List.cons_append, List.append_assoc, readVariable_function, readFunction,
    readVariable_stringBytes hwire h]
  simp only
  rw [List.singleton_append, readVariable_functionEnd]
  rfl

theorem arrives_function {p : P} {captured : Bool} (h : Short (c.dump w tw p)) :
    Arrives m c tw r tr (.function p captured : LuaValue w P)
      (functionBytes w tw (c.dump w tw p)) := by
  refine ⟨Nat.succ_pos _, fun rest fuel hfuel => ?_⟩
  have hlen := two_le_length_functionBytes w tw (c.dump w tw p)
  obtain ⟨fuel, rfl⟩ := Nat.exists_eq_add_of_le' (show 3 ≤ fuel by omega)
  refine ⟨loadChunk c r (cut (c.dump w tw p)), readVariable_functionBytes hwire h rest fuel,
    fun _ => ?_,
    fun _ => ?_, fun _ hfaith => ?_⟩
  · rw [loadChunk]
    split <;> rfl
  · rw [loadChunk]
    split <;> rfl
  · obtain ⟨hcaptured, hload⟩ := hfaith
    rw [loadChunk, hload]
    exact ⟨rfl, hcaptured⟩

end Wire

/-! ### Values and tables -/

mutual

/-- What is sent for a sendable value arrives. -/
theorem arrives (hwire : Wire w tw r tr) : ∀ v : LuaValue w P, v.Wf → v.Sendable c w tw r →
    ∃ bs, writeVariable m c w tw v = (bs, .returned) ∧ Arrives m' c tw r tr v bs
  | .nil, _, _ => ⟨[rpcNil], by rw [writeVariable, put],
      arrives_of_read fun _ _ => ⟨.nil, readVariable_nil, fun h => h, fun h => h,
        fun _ _ => trivial⟩⟩
  | .boolean b, _, _ => ⟨[rpcBoolean, flag b], by rw [writeVariable, put],
      arrives_of_read fun _ _ =>
        ⟨.boolean b, readVariable_boolean b, fun _ => rfl, fun _ => rfl, fun _ _ => rfl⟩⟩
  | .number x, _, hsend => ⟨rpcNumber :: writeNumber m w tw x, by rw [writeVariable, put],
      arrives_number hwire hsend x⟩
  | .string s, _, hsend => ⟨_, by rw [writeVariable, writeString_of_short hsend],
    arrives_string hwire hsend⟩
  | .table t, hwf, hsend => by
    rw [LuaValue.Wf] at hwf
    rw [LuaValue.Sendable] at hsend
    obtain ⟨bs, hwrite, harrives⟩ := table_arrives hwire t hwf hsend
    refine ⟨[rpcTable] ++ (bs ++ [rpcTableEnd]), ?_, ?_⟩
    · rw [writeVariable, hwrite, put, returned_andThen, put, returned_andThen]
    · refine ⟨Nat.succ_pos _, fun rest fuel hfuel => ?_⟩
      rw [List.length_append, List.length_append] at hfuel
      simp only [List.length_cons, List.length_nil] at hfuel
      obtain ⟨fuel, rfl⟩ := Nat.exists_eq_add_of_le' (show 1 ≤ fuel by omega)
      obtain ⟨b, hread, hsame⟩ := harrives rest fuel .done (by omega)
      refine ⟨.table b, ?_, fun _ => rfl, fun _ => rfl, fun hrep hfaith => ?_⟩
      · have hbytes : [rpcTable] ++ (bs ++ [rpcTableEnd]) ++ rest =
            rpcTable :: (bs ++ rpcTableEnd :: rest) := by
          simp only [List.cons_append, List.nil_append, List.append_assoc]
        rw [hbytes, readVariable_table, hread]
        rfl
      · exact hsame .done trivial (LuaTable.keysAll_of_forall fun _ => rfl) hrep hfaith
  | .function _ _, _, hsend => ⟨_, writeVariable_function hsend, arrives_function hwire hsend⟩

/-- What is sent for the entries of a table arrives. -/
theorem table_arrives (hwire : Wire w tw r tr) : ∀ t : LuaTable w P, t.Wf → t.Sendable c w tw r →
    ∃ bs, writeTable m c w tw t = (bs, .returned) ∧ TableArrives m' c tw r tr t bs
  | .done, _, _ => ⟨[], by rw [writeTable, put], tableArrives_done⟩
  | .entry k v next, hwf, ⟨hsendk, hsendv, hsend⟩ => by
    have ⟨hwfk, hwfv, _, _, _, hwfnext⟩ := hwf
    obtain ⟨kb, hwritek, hk⟩ := arrives hwire k hwfk hsendk
    obtain ⟨vb, hwritev, hv⟩ := arrives hwire v hwfv hsendv
    obtain ⟨nb, hwrite, hnext⟩ := table_arrives hwire next hwfnext hsend
    refine ⟨kb ++ (vb ++ nb), ?_, TableArrives.entry hwf hk hv hnext⟩
    rw [writeTable, hwritek, hwritev, hwrite, returned_andThen, returned_andThen]

end

/-- A careful value is conveyed. -/
theorem conveyed_of_careful (hwire : Wire w tw r tr) {v : LuaValue w P} (hwf : v.Wf)
    (h : Careful c w tw r v) : Conveyed c w tw r tr v := by
  intro m m'
  rcases h with hrefused | ⟨hsend, hfaith⟩
  · cases v <;> first | exact hrefused.elim | exact Or.inl ⟨_, by rw [writeVariable]⟩
  · obtain ⟨bs, hwrite, -, hread⟩ :
        ∃ bs, writeVariable m c w tw v = (bs, .returned) ∧ Arrives m' c tw r tr v bs :=
      arrives hwire v hwf hsend
    refine Or.inr ⟨bs, hwrite, fun rest => ?_⟩
    obtain ⟨v', hread, hkept⟩ := hread rest (2 * (bs ++ rest).length) (by
      rw [List.length_append]
      omega)
    exact ⟨v', hread, fun hrep => hkept.same hrep (hfaith hrep)⟩

/-! ### Values that are no tables -/

/-- What is read of a value whose sending ends in a known way. -/
theorem Conveyed.read {v : LuaValue w P} (h : Conveyed c w tw r tr v) (m m' : Machine)
    {bs : List UInt8}
    {ending : Ending} (hwrite : writeVariable m c w tw v = (bs, ending))
    (hraised : ∀ s, ending ≠ .raised s)
    (rest : List UInt8) : ending = .returned ∧ ∃ v',
      receive m' c r tr (bs ++ rest) = some (some v', rest) ∧ (v.Rep w r → Same w r v v') := by
  rcases h m m' with ⟨s, hs⟩ | ⟨bs', hsent, hread⟩
  · exact absurd (congrArg Prod.snd (hwrite.symm.trans hs)) (hraised s)
  · obtain ⟨rfl, rfl⟩ := Prod.mk.inj (hwrite.symm.trans hsent)
    exact ⟨rfl, hread rest⟩

theorem not_conveyed_of_undefined {v : LuaValue w P} {bs : List UInt8}
    (h : writeVariable default c w tw v = (bs, .undefined)) : ¬Conveyed c w tw r tr v :=
    fun hconveyed =>
  nomatch (hconveyed.read default default h (fun _ => nofun) []).1

theorem careful_number (hwire : Wire w tw r tr) {x : w.Num}
    (h : Conveyed c w tw r tr (.number x)) : Steady w r ∧ (Representable w r x → Exact w r x) := by
  have hread : ∀ m m' : Machine, ∃ y, readNumber m' r tr (writeNumber m w tw x ++ []) =
      some (y, []) ∧
      (Representable w r x → SameNum w r x y) := by
    intro m m'
    have hwrite : writeVariable m c w tw (.number x) = (rpcNumber :: writeNumber m w tw x,
        .returned) := by
      rw [writeVariable, put]
    obtain ⟨-, v', hv', hsame⟩ := h.read m m' hwrite (fun _ => nofun) []
    rw [List.cons_append, receive, List.length_cons, Nat.mul_succ, readVariable_number,
      Option.map_eq_some_iff] at hv'
    obtain ⟨⟨y, rest⟩, hy, heq⟩ := hv'
    obtain ⟨hval, rfl⟩ := Prod.mk.inj heq
    obtain rfl := Option.some.inj hval
    exact ⟨y, hy, hsame⟩
  obtain ⟨y, hy, -⟩ := hread default default
  refine ⟨steady_of_read hwire hy, fun hrep => exact_of_read hwire hrep (m := default) fun m' => ?_⟩
  obtain ⟨y, hy, hsame⟩ := hread default m'
  exact ⟨y, hy, hsame hrep⟩

theorem careful_string (hwire : Wire w tw r tr) {s : List UInt8}
    (h : Conveyed c w tw r tr (.string s)) : Short s ∧ s.length < 2 ^ 32 := by
  have hshort : Short s := by
    by_contra hlong
    exact not_conveyed_of_undefined (by rw [writeVariable, writeString_of_long hlong]) h
  have hwrite : writeVariable default c w tw (.string s) = (stringBytes w tw s, .returned) := by
    rw [writeVariable, writeString_of_short hshort]
  obtain ⟨-, v', hread, hsame⟩ := h.read default default hwrite (fun _ => nofun) []
  obtain ⟨hval, -⟩ := Prod.mk.inj (Option.some.inj
    ((readVariable_stringBytes hwire hshort [] _).symm.trans hread))
  obtain rfl := Option.some.inj hval
  exact ⟨hshort, cut_eq_iff.mp (hsame trivial).symm⟩

theorem careful_function (hwire : Wire w tw r tr) {p : P} {captured : Bool}
    (h : Conveyed c w tw r tr (.function p captured)) : Short (c.dump w tw p) ∧
      captured = false ∧ c.load r (cut (c.dump w tw p)) = .ok p := by
  have hshort : Short (c.dump w tw p) := by
    by_contra hlong
    exact not_conveyed_of_undefined
      (by rw [writeVariable, writeString_of_long hlong, put_andThen]; rfl) h
  obtain ⟨-, v', hread, hsame⟩ :=
      h.read default default (writeVariable_function hshort) (fun _ => nofun) []
  have hlen := two_le_length_functionBytes w tw (c.dump w tw p)
  obtain ⟨k, hk⟩ := Nat.exists_eq_add_of_le'
    (show 3 ≤ 2 * (functionBytes w tw (c.dump w tw p) ++ []).length by rw [List.append_nil]; omega)
  rw [receive, hk, readVariable_functionBytes hwire hshort, Option.some.injEq, Prod.mk.injEq,
    Option.some.injEq] at hread
  obtain ⟨rfl, -⟩ := hread
  have hloaded := hsame trivial
  rw [loadChunk] at hloaded
  split at hloaded
  · rename_i hload
    obtain ⟨rfl, hcaptured⟩ := hloaded
    exact ⟨hshort, hcaptured, hload⟩
  · exact hloaded.elim

/-- Nothing is sent: the next byte would be read. -/
theorem not_conveyed_of_empty {v : LuaValue w P} (h : ∀ m, writeVariable m c w tw v = put []) :
    ¬Conveyed c w tw r tr v := fun hconveyed => by
  obtain ⟨-, v', hread, -⟩ := hconveyed.read default default (h default) (fun _ => nofun) [rpcNil]
  have hnil : receive default c r tr [rpcNil] = some (some .nil, []) := readVariable_nil
  exact nomatch (Prod.mk.inj (Option.some.inj (hnil.symm.trans hread))).2

/-- A value that is no table is conveyed only if it is careful. -/
theorem careful_of_conveyed (hwire : Wire w tw r tr) {v : LuaValue w P} (hv : ∀ t, v ≠ .table t)
    (h : Conveyed c w tw r tr v) : Careful c w tw r v := by
  cases v with
  | nil => exact Or.inr ⟨trivial, fun _ => trivial⟩
  | boolean b => exact Or.inr ⟨trivial, fun _ => trivial⟩
  | number x => exact Or.inr (careful_number hwire h)
  | string s => exact Or.inr ((careful_string hwire h).imp_right fun hlen _ => hlen)
  | table t => exact absurd rfl (hv t)
  | function p captured => exact Or.inr ((careful_function hwire h).imp_right fun hload _ => hload)
  | cfunction => exact absurd h (not_conveyed_of_undefined (by rw [writeVariable]))
  | rotable a => exact absurd h (not_conveyed_of_empty fun m => by rw [writeVariable])
  | lightfunction a => exact absurd h (not_conveyed_of_empty fun m => by rw [writeVariable])
  | userdata => exact Or.inl trivial
  | thread => exact Or.inl trivial
  | lightuserdata => exact Or.inl trivial

/-- A board with integers of four bytes and a host with doubles. -/
def board : Endpoint := ⟨true, false, true⟩

def host : Endpoint := ⟨true, true, false⟩

def boardTransport : Transport := ⟨true, true, 4, true, true⟩

def hostTransport : Transport := ⟨true, true, 4, true, false⟩

theorem joined_board : Joined board boardTransport host hostTransport :=
  Or.inr ⟨_, rfl, rfl⟩

/-- The only prototype is dumped as one byte. -/
def unitChunks : Chunks Unit := ⟨fun _ _ _ => [0x1B], fun _ _ => .ok ()⟩

/-- `{ n = 5, f = function() end }`. -/
def boardTable : LuaValue board Unit :=
  .table (.entry (.string [0x6E]) (.number 5) (.entry (.string [0x66]) (.function () false) .done))

end ELuaBrain.LuaRpc
