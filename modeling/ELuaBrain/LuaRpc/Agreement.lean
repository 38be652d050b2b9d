import ELuaBrain.LuaRpc.Command
import ELuaBrain.System.Reach
import Mathlib.Data.List.TakeWhile
import Mathlib.Data.List.Forall2

/-!
# Operations on the globals of the server

What an operation does on the server is said by `Lua.effect`: the keys are looked up one by one, and
the value is returned, called, or assigned to. The code does this where the keys survive being
written with dots between them, and where what goes wrong goes wrong in a called function.

## Main definitions

* `Lua.effect` : what an operation does.
* `Session.Right` : the operation did that, and both sides are between commands again.
* `Session.Tame` : the condition for it.

## Main results

* `strtok_helperName_iff` : which keys are found again.
* `right_of_tame_run` : a run of tame operations is right.
-/

namespace ELuaBrain.LuaRpc

variable {e : Endpoint} {P σ V α β : Type}

/-! ### What an operation does -/

/-- What went wrong: looking something up, the called function, calling something else, or an
assignment. -/
inductive Failure where
  | indexing (err : LuaError)
  | calling (err : LuaError)
  | uncallable
  | assigning (err : LuaError)

/-- An action and what comes behind it, unless it raises an error. -/
def Act.orFail (a : Act σ α) (f : LuaError → Failure) (k : α → σ → Except Failure β × σ) :
    σ → Except Failure β × σ := fun s =>
  match a s with
  | (.ok x, s') => k x s'
  | (.error err, s') => (.error (f err), s')

namespace Act

variable {a : Act σ α} {f : LuaError → Failure} {k : α → σ → Except Failure β × σ} {s s' : σ}

theorem orFail_ok {x : α} (h : a s = (.ok x, s')) : a.orFail f k s = k x s' := by
  rw [orFail, h]

theorem orFail_error {err : LuaError} (h : a s = (.error err, s')) :
    a.orFail f k s = (.error (f err), s') := by
  rw [orFail, h]

end Act

namespace Lua

variable (L : Lua e P σ V)

/-- An argument on the server. -/
def evalArg : Arg e P → Act σ V
  | .value v, s => (.ok (L.make v s).1, (L.make v s).2)
  | .helper keys, s => L.walk L.globals (keys.map Key.bytes) s

def evalArgs : List (Arg e P) → Act σ (List V)
  | [], s => (.ok [], s)
  | a :: as, s =>
    match L.evalArg a s with
    | (.ok v, s') =>
      match evalArgs as s' with
      | (.ok vs, s'') => (.ok (v :: vs), s'')
      | (.error err, s'') => (.error err, s'')
    | (.error err, s') => (.error err, s')

/-- Indexing, calling and assigning with the keys of an operation. -/
def effect : Op e P → σ → Except Failure (List V) × σ
  | .get keys =>
    Act.orFail (L.walk L.globals (keys.map Key.bytes)) .indexing fun v s => (.ok [v], s)
  | .call keys args =>
    Act.orFail (L.walk L.globals (keys.map Key.bytes)) .indexing fun f =>
      Act.orFail (L.evalArgs args) .indexing fun vs s =>
        if L.calls f s then Act.orFail (L.call f vs) .calling (fun rs s' => (.ok rs, s')) s
        else (.error .uncallable, s)
  | .assignGlobal key value =>
    Act.orFail (L.evalArg value) .indexing fun v =>
      Act.orFail (L.settable L.globals (L.str key.bytes) v) .assigning fun _ s => (.ok [], s)
  | .assign keys key value =>
    Act.orFail (L.walk L.globals (keys.map Key.bytes)) .indexing fun t =>
      Act.orFail (L.evalArg value) .indexing fun v =>
        Act.orFail (L.settable t (L.str key) v) .assigning fun _ s => (.ok [], s)

end Lua

/-- The same argument on the other side. -/
def SameArg (w r : Endpoint) : Arg w P → Arg r P → Prop
  | .value v, .value v' => Same w r v v'
  | .helper keys, .helper keys' => keys = keys'
  | _, _ => False

/-- The same operation with the arguments on the other side. -/
def SameOp (w r : Endpoint) : Op w P → Op r P → Prop
  | .get keys, .get keys' => keys = keys'
  | .call keys args, .call keys' args' => keys = keys' ∧ List.Forall₂ (SameArg w r) args args'
  | .assignGlobal key v, .assignGlobal key' v' => key = key' ∧ SameArg w r v v'
  | .assign keys key v, .assign keys' key' v' => keys = keys' ∧ key = key' ∧ SameArg w r v v'
  | _, _ => False

/-- A value that the other side has, and which it gets. -/
structure Carried (c : Chunks P) (w : Endpoint) (tw : Transport) (r : Endpoint) (v : LuaValue w P) :
    Prop where
  wf : v.Wf
  sendable : v.Sendable c w tw r
  rep : v.Rep w r
  faithful : v.Faithful c w tw r

/-- A key that is a token. -/
structure Key.Clean (k : Key) : Prop where
  nonempty : k.bytes ≠ []
  dot : dot ∉ k.bytes
  zero : 0 ∉ k.bytes

/-- Keys that are found again in their name. -/
structure Found (keys : List Key) : Prop where
  nonempty : keys ≠ []
  clean : ∀ k ∈ keys, k.Clean
  length : (helperName keys).length < 2 ^ 31

namespace Session

variable (S : Session P σ V)

/-- A value of the server as the client has it. -/
def Seen (s : σ) (v : V) (v' : LuaValue S.client P) : Prop :=
  ∃ x, S.lua.seen v s = some x ∧ Same S.server S.client x v'

/-- The client gets what the operation returns, or an error if it fails. -/
def Answers (result : Result S.client P) : Except Failure (List V) × σ → Prop
  | (.ok vs, s) => ∃ vs', result = .values vs' ∧ List.Forall₂ (S.Seen s) vs vs'
  | (.error _, _) => ∃ text, result = .failed text

/-- The operation has the effect and the result of indexing, calling or assigning with its keys, and
both sides are between commands. -/
structure Right (op : Op S.client P) (l : Conn σ) : Prop where
  idle : (S.perform op l).2.Idle
  does : ∃ op', SameOp S.client S.server op op' ∧
    (S.perform op l).2.lua = (S.lua.effect op' l.lua).2 ∧
    S.Answers (S.perform op l).1 (S.lua.effect op' l.lua)

/-- An argument that is carried, or a helper whose keys are found. -/
def Sent : Arg S.client P → Prop
  | .value v => Carried S.chunks S.client S.clientTpt S.server v
  | .helper keys => Found keys

/-- The keys are found, and the arguments are carried. -/
def Plain : Op S.client P → Prop
  | .get keys => Found keys
  | .call keys args => Found keys ∧ (∀ k ∈ keys.getLast?, k.name ≠ getKey.name) ∧
      args.length < 2 ^ 31 ∧ ∀ a ∈ args, S.Sent a
  | .assignGlobal key value =>
    0 ∉ key.bytes ∧ S.Sent (.value (.string key.bytes)) ∧ S.Sent value
  | .assign keys key value => Found keys ∧ S.Sent (.value (.string key)) ∧ S.Sent value

/-- A text that arrives, and which is no format string unless there is a handler. -/
def Told (text : List UInt8) : Prop :=
  text.length < 2 ^ 31 ∧ (S.handler ∨ formats (cString text))

/-- The text for keys that do not lead to a function. -/
def undefinedText (keys : List Key) : List UInt8 :=
  undefinedFunction ++ strtokLeft false (helperName keys)

/-- What is returned is carried, and what goes wrong goes wrong in the call. -/
def Reported (keys : List Key) : Except Failure (List V) × σ → Prop
  | (.ok vs, s) => vs.length < 2 ^ 31 ∧ ∀ v ∈ vs, ∃ x, S.lua.seen v s = some x ∧
      Carried S.chunks S.server S.serverTpt S.client x
  | (.error (.calling err), _) => S.Told err.text
  | (.error .uncallable, _) => S.Told (undefinedText keys)
  | (.error _, _) => False

/-- What is called is a function and not another value with `__call`. -/
def Direct (L : Lua S.server P σ V) : Op S.server P → σ → Prop
  | .call keys args, s => ∀ f s₁ vs s₂, L.walk L.globals (keys.map Key.bytes) s = (.ok f, s₁) →
      L.evalArgs args s₁ = (.ok vs, s₂) → L.calls f s₂ → L.isCallable f
  | _, _ => True

/-- The keys of an operation. -/
def keysOf : Op e P → List Key
  | .get keys => keys
  | .call keys _ => keys
  | .assignGlobal _ _ => []
  | .assign keys _ _ => keys

/-- An operation with plain keys and arguments, which in this state of the server does not fail but
in a function that is called, and returns what can be sent. -/
structure Tame (op : Op S.client P) (s : σ) : Prop where
  plain : S.Plain op
  reported : ∀ op', SameOp S.client S.server op op' →
    S.Reported (keysOf op) (S.lua.effect op' s) ∧ Direct S S.lua op' s

end Session

/-! ### Names -/

theorem cString_eq {s : List UInt8} (h : 0 ∉ s) : cString s = s :=
  List.takeWhile_eq_self_iff.mpr fun c hc => by
    simp only [ne_eq, decide_not, Bool.not_eq_true', decide_eq_false_iff_not]
    rintro rfl
    exact h hc

theorem Key.Clean.name_eq {k : Key} (h : k.Clean) : k.name = k.bytes := cString_eq h.zero

theorem zero_not_mem_name (k : Key) : 0 ∉ k.name := fun h => by
  simpa using List.mem_takeWhile_imp h

theorem zero_not_mem_helperName (keys : List Key) : 0 ∉ helperName keys := by
  rw [helperName]
  induction keys with
  | nil => exact List.not_mem_nil
  | cons k keys ih =>
    cases keys with
    | nil => simpa using zero_not_mem_name k
    | cons k' keys =>
      rw [List.map_cons, List.map_cons, List.intercalate_cons_cons, List.append_assoc,
        List.mem_append, List.mem_append, ← List.map_cons]
      rintro (h | h | h)
      · exact zero_not_mem_name k h
      · exact absurd (List.mem_singleton.mp h) (by decide)
      · exact ih h

/-- No piece of a string that is cut at the dots contains one. -/
theorem dot_not_mem_of_mem_splitOn {s w : List UInt8} (h : w ∈ s.splitOn dot) : dot ∉ w := by
  induction s generalizing w with
  | nil =>
    rw [List.splitOn_nil, List.mem_singleton] at h
    rw [h]
    exact List.not_mem_nil
  | cons c s ih =>
    rw [List.splitOn_cons_eq_if_modifyHead] at h
    split_ifs at h with hc
    · rcases List.mem_cons.mp h with rfl | h
      · exact List.not_mem_nil
      · exact ih h
    · obtain ⟨r, rs, hr⟩ := List.exists_cons_of_ne_nil (List.splitOn_ne_nil dot s)
      rw [hr, List.modifyHead_cons] at h
      rcases List.mem_cons.mp h with rfl | h
      · rintro (_ | ⟨_, hmem⟩)
        · exact hc (beq_self_eq_true _)
        · exact ih (hr ▸ List.mem_cons_self) hmem
      · exact ih (hr ▸ List.mem_cons_of_mem _ h)

/-- **Names.** `strtok` finds the names of the keys again if and only if none of them is empty or
contains a dot. -/
theorem strtok_helperName_iff {keys : List Key} :
    strtok (helperName keys) = keys.map Key.name ↔
      ∀ k ∈ keys, k.name ≠ [] ∧ dot ∉ k.name := by
  rw [strtok, cString_eq (zero_not_mem_helperName keys)]
  constructor
  · intro h k hk
    have hmem : k.name ∈ ((helperName keys).splitOn dot).filter (· ≠ []) := by
      rw [h]
      exact List.mem_map_of_mem hk
    obtain ⟨hpiece, hne⟩ := List.mem_filter.mp hmem
    exact ⟨of_decide_eq_true hne, dot_not_mem_of_mem_splitOn hpiece⟩
  · intro h
    have hne : ∀ w ∈ keys.map Key.name, decide (w ≠ []) = true := fun w hw => by
      obtain ⟨k, hk, rfl⟩ := List.mem_map.mp hw
      exact decide_eq_true (h k hk).1
    have hdot : ∀ w ∈ keys.map Key.name, dot ∉ w := fun w hw => by
      obtain ⟨k, hk, rfl⟩ := List.mem_map.mp hw
      exact (h k hk).2
    rcases eq_or_ne keys [] with rfl | hkeys
    · rfl
    · rw [helperName, List.splitOn_intercalate dot hdot fun hnil => hkeys (List.map_eq_nil_iff.mp hnil),
        List.filter_eq_self.mpr hne]

namespace Found

variable {keys : List Key} (h : Found keys)
include h

theorem names_eq : keys.map Key.name = keys.map Key.bytes :=
  List.map_congr_left fun k hk => (h.clean k hk).name_eq

theorem strtok_eq : strtok (helperName keys) = keys.map Key.bytes := by
  rw [← h.names_eq, strtok_helperName_iff]
  intro k hk
  rw [(h.clean k hk).name_eq]
  exact ⟨(h.clean k hk).nonempty, (h.clean k hk).dot⟩

theorem helperName_ne_nil : cString (helperName keys) ≠ [] := by
  intro hnil
  have htokens := h.strtok_eq
  rw [strtok, hnil] at htokens
  exact h.nonempty (List.map_eq_nil_iff.mp htokens.symm)

theorem lookup_eq (L : Lua e P σ V) :
    L.lookup (helperName keys) = .act (L.walk L.globals (keys.map Key.bytes)) := by
  rw [Lua.lookup, h.strtok_eq]
  obtain ⟨k, keys, rfl⟩ := List.exists_cons_of_ne_nil h.nonempty
  rfl

end Found

/-! ### Reading on the server -/

theorem andThen_put_nil (w : Written) : w.andThen (put []) = w := by
  obtain ⟨bs, _ | _ | _⟩ := w
  · exact congrArg (·, Ending.returned) (List.append_nil bs)
  · rfl
  · rfl

namespace Reads

variable {p : Reads σ α} {f : α → Reads σ β} {s s' : σ} {input rest : List UInt8} {a : α}

theorem bind_ok (h : p s input = (.ok a, s', rest)) : (p.bind f) s input = f a s' rest := by
  rw [bind, h]

theorem take_eq {read : List UInt8 → Option (α × List UInt8)} (h : read input = some (a, rest)) :
    take read s input = (.ok a, s, rest) := by
  rw [take, h]

theorem act_ok {x : Act σ α} (h : x s = (.ok a, s')) : act x s input = (.ok a, s', input) := by
  rw [act, h]

end Reads

section Wire

variable {c : Chunks P} {w r : Endpoint} {tw tr : Transport} {m m' : Machine}

theorem receive_remote (input : List UInt8) :
    receive m c e tr (rpcRemote :: input) = (none : Option (Option (LuaValue e P) × _)) := by
  rw [receive, List.length_cons, Nat.mul_succ, readVariable]
  exact if_neg (by decide)

/-- A value that is carried is read as the same value. -/
theorem Carried.receive (hwire : Wire w tw r tr) {v : LuaValue w P} (h : Carried c w tw r v) :
    ∃ bs, writeVariable m c w tw v = (bs, .returned) ∧ ∀ rest, ∃ v',
      receive m' c r tr (bs ++ rest) = some (some v', rest) ∧ Same w r v v' := by
  obtain ⟨bs, hwrite, -, hread⟩ : ∃ bs, writeVariable m c w tw v = (bs, .returned) ∧
      Arrives m' c tw r tr v bs := arrives hwire v h.wf h.sendable
  refine ⟨bs, hwrite, fun rest => ?_⟩
  obtain ⟨v', hread, hkept⟩ := hread rest (2 * (bs ++ rest).length) (by
    rw [List.length_append]
    omega)
  exact ⟨v', hread, hkept.same h.rep h.faithful⟩

/-- A text with its length. -/
theorem readString_text (hwire : Wire w tw r tr) {s : List UInt8} (h : s.length < 2 ^ 31)
    (rest : List UInt8) :
    readString r tr (writeU32 w tw (s.length % 2 ^ 32) ++ s ++ rest) = some (s, rest) := by
  have hlt : s.length < 2 ^ 32 := by omega
  have hshort : Short s := by
    rw [Short, Nat.mod_eq_of_lt hlt]
    exact h
  have hread := readString_writeU32 hwire hshort rest
  rwa [cut_eq_iff.mpr hlt] at hread

theorem writeText_eq {s : List UInt8} (h : s.length < 2 ^ 31) :
    writeText w tw s = (writeU32 w tw (s.length % 2 ^ 32) ++ s, .returned) := by
  have hlt : s.length < 2 ^ 32 := by omega
  rw [writeText]
  simp only [Nat.mod_eq_of_lt hlt, if_pos h, List.take_length, put, returned_andThen]

end Wire

namespace Session

variable (S : Session P σ V)

theorem toServer : Wire S.client S.clientTpt S.server S.serverTpt :=
  Joined.wire (Or.inl S.connected)

theorem toClient : Wire S.server S.serverTpt S.client S.clientTpt :=
  Joined.wire (Or.inr S.connected)

variable {S}

theorem readName_eq {keys : List Key} (h : (helperName keys).length < 2 ^ 31) (s : σ)
    (rest : List UInt8) :
    S.readName s (helperRemoteIndex S.client S.clientTpt keys ++ rest) =
      (.ok (helperName keys), s, rest) :=
  Reads.take_eq (readString_text S.toServer h rest)

/-- An argument that is sent is read as the same argument, and evaluated. -/
theorem readArg_eq {a : Arg S.client P} (h : S.Sent a) : ∃ bs, S.clientArg a = (bs, .returned) ∧
    ∀ s rest, ∃ a', SameArg S.client S.server a a' ∧
      S.readArg s (bs ++ rest) = Reads.act (S.lua.evalArg a') s rest := by
  cases a with
  | value v =>
    obtain ⟨bs, hwrite, hread⟩ : ∃ bs, S.clientArg (.value v) = (bs, .returned) ∧ ∀ rest, ∃ v',
        LuaRpc.receive S.serverMachine S.chunks S.server S.serverTpt (bs ++ rest) =
          some (some v', rest) ∧ Same S.client S.server v v' := Carried.receive S.toServer h
    refine ⟨bs, hwrite, fun s rest => ?_⟩
    obtain ⟨v', hreceive, hsame⟩ := hread rest
    refine ⟨.value v', hsame, ?_⟩
    have hhead : (bs ++ rest).head? ≠ some rpcRemote := by
      intro hhead
      obtain ⟨tail, htail⟩ := List.head?_eq_some_iff.mp hhead
      rw [htail, receive_remote] at hreceive
      cases hreceive
    rw [readArg, Lua.readArg, if_neg hhead, Reads.bind_ok (Reads.take_eq hreceive)]
    rfl
  | helper keys =>
    refine ⟨rpcRemote :: helperRemoteIndex S.client S.clientTpt keys, rfl, fun s rest =>
      ⟨.helper keys, rfl, ?_⟩⟩
    have hread : (Reads.take (readString S.server S.serverTpt)) s
        (helperRemoteIndex S.client S.clientTpt keys ++ rest) = (.ok (helperName keys), s, rest) :=
      readName_eq h.length s rest
    rw [readArg, Lua.readArg, List.cons_append, List.head?_cons, if_pos rfl, List.tail_cons,
      Reads.bind_ok hread, h.lookup_eq]
    rfl

/-- Arguments that are sent are read one after the other. -/
theorem readArgs_eq : ∀ {as : List (Arg S.client P)}, (∀ a ∈ as, S.Sent a) →
    ∃ bs, writeArgs S.clientMachine S.chunks S.client S.clientTpt as = (bs, .returned) ∧
      ∀ s rest, ∃ as', List.Forall₂ (SameArg S.client S.server) as as' ∧
        ∀ vs s', S.lua.evalArgs as' s = (.ok vs, s') →
          S.lua.readArgs S.serverMachine S.chunks S.serverTpt as.length s (bs ++ rest) =
            (.ok vs, s', rest)
  | [], _ => ⟨[], rfl, fun s rest => ⟨[], .nil, by
      rintro vs s' ⟨⟩
      rfl⟩⟩
  | a :: as, h => by
    obtain ⟨bs, hwrite, hread⟩ := readArg_eq (h a List.mem_cons_self)
    obtain ⟨bss, hwrites, hreads⟩ := readArgs_eq fun b hb => h b (List.mem_cons_of_mem _ hb)
    refine ⟨bs ++ bss, ?_, fun s rest => ?_⟩
    · rw [writeArgs, show writeArg _ _ _ _ a = (bs, .returned) from hwrite, hwrites,
        returned_andThen]
    · obtain ⟨a', hsame, ha⟩ := hread s (bss ++ rest)
      cases heval : S.lua.evalArg a' s with
      | mk v s₁ =>
        obtain ⟨as', hsames, has⟩ := hreads s₁ rest
        refine ⟨a' :: as', .cons hsame hsames, fun vs s' hvs => ?_⟩
        rw [Lua.evalArgs, heval] at hvs
        cases v with
        | error err => cases hvs
        | ok v =>
          simp only at hvs
          cases hrest : S.lua.evalArgs as' s₁ with
          | mk vs' s₂ =>
            rw [hrest] at hvs
            cases vs' with
            | error err => cases hvs
            | ok vs' =>
              cases hvs
              have hfirst : S.lua.readArg S.serverMachine S.chunks S.serverTpt s
                  (bs ++ (bss ++ rest)) = (.ok v, s₁, bss ++ rest) := ha.trans (Reads.act_ok heval)
              rw [List.length_cons, Lua.readArgs, List.append_assoc, Reads.bind_ok hfirst,
                Reads.bind_ok (has _ _ hrest)]
              rfl

/-! ### Reading on the client -/

variable {s : σ} {l : Conn σ} {text : List UInt8}

/-- Values that are carried are read one after the other. -/
theorem readValues_eq : ∀ {vs : List V}, (∀ v ∈ vs, ∃ x, S.lua.seen v s = some x ∧
      Carried S.chunks S.server S.serverTpt S.client x) →
    ∃ bs, S.writeValues s vs = (bs, .returned) ∧ ∀ rest, ∃ vs',
      S.readValues vs.length (bs ++ rest) = some (vs', rest) ∧ List.Forall₂ (S.Seen s) vs vs'
  | [], _ => ⟨[], rfl, fun rest => ⟨[], rfl, .nil⟩⟩
  | v :: vs, h => by
    obtain ⟨x, hseen, hcarried⟩ := h v List.mem_cons_self
    obtain ⟨bs, hwrite, hread⟩ : ∃ bs, writeVariable S.serverMachine S.chunks S.server S.serverTpt x
        = (bs, .returned) ∧ ∀ rest, ∃ v',
          LuaRpc.receive S.clientMachine S.chunks S.client S.clientTpt (bs ++ rest) =
            some (some v', rest) ∧ Same S.server S.client x v' := hcarried.receive S.toClient
    obtain ⟨bss, hwrites, hreads⟩ := readValues_eq fun b hb => h b (List.mem_cons_of_mem _ hb)
    refine ⟨bs ++ bss, ?_, fun rest => ?_⟩
    · rw [writeValues, writeValue, hseen, hwrites]
      simp only [hwrite, returned_andThen]
    · obtain ⟨v', hreceive, hsame⟩ := hread (bss ++ rest)
      obtain ⟨vs', hread', hsames⟩ := hreads rest
      refine ⟨v' :: vs', ?_, .cons ⟨x, hseen, hsame⟩ hsames⟩
      rw [List.length_cons, readValues, List.append_assoc, hreceive]
      simp only [hread', Option.map_some]

/-- The reply for an error is read as an error. -/
theorem readError_eq (status : LuaStatus) (h : S.Told text) : ∃ reply,
    S.errorReply status text = (1 :: reply, .returned) ∧
      S.readError reply = some (.failed (cString text), []) := by
  obtain ⟨hlen, htold⟩ := h
  have hcode : status.code < 256 ^ 4 := by cases status <;> decide
  refine ⟨writeU32 S.server S.serverTpt status.code ++
    (writeU32 S.server S.serverTpt (text.length % 2 ^ 32) ++ text), ?_, ?_⟩
  · rw [errorReply, writeText_eq hlen, put, returned_andThen, List.cons_append]
  · have htext := readString_text S.toClient hlen []
    rw [List.append_nil] at htext
    rw [readError, readU32_writeU32 S.toClient hcode, Option.bind_some]
    simp only [htext, Option.map_some, dealWithError, if_pos htold]

/-! ### Commands -/

/-- A command that is served to its end, and whose reply is read to its end. -/
theorem command_eq {cmd : UInt8} {bs sent : List UInt8}
    {reply : List UInt8 → Option (Result S.client P × List UInt8)} {result : Result S.client P}
    (hl : l.Idle) (hcmd : cmd = rpcCmdCall ∨ cmd = rpcCmdGet ∨ cmd = rpcCmdNewindex)
    (hserve : S.readCmd cmd l.lua bs = ⟨s, [], sent, none⟩)
    (hreply : reply sent = some (result, [])) :
    S.command cmd (bs, .returned) reply l = (result, ⟨s, [], [], .dispatching, 0⟩) := by
  obtain ⟨lua, toServer, toClient, mode, linkErrs⟩ := l
  obtain ⟨rfl, rfl, rfl⟩ := hl
  simp only [command, accept, List.nil_append, if_pos hcmd]
  rw [if_neg (not_not.mpr rfl)]
  simp only [serve, hserve, List.nil_append, hreply]

/-- What is reported is not the failure of a lookup or of an assignment. -/
theorem Reported.orFail {keys : List Key} {a : Act σ α} {f : LuaError → Failure}
    {k : α → σ → Except Failure (List V) × σ} (h : S.Reported keys (a.orFail f k s))
    (hf : ∀ err s', ¬S.Reported keys (.error (f err), s')) :
    ∃ x s', a s = (.ok x, s') ∧ S.Reported keys (k x s') := by
  rcases ha : a s with ⟨err | x, s'⟩
  · rw [Act.orFail_error ha] at h
    exact absurd h (hf err s')
  · rw [Act.orFail_ok ha] at h
    exact ⟨x, s', rfl, h⟩

/-- An operation that comes down to a command. -/
theorem right_of_command {op : Op S.client P} {op' : Op S.server P} {result : Result S.client P}
    {out : Except Failure (List V)} (hsame : SameOp S.client S.server op op')
    (hperform : S.perform op l = (result, ⟨s, [], [], .dispatching, 0⟩))
    (heffect : S.lua.effect op' l.lua = (out, s)) (hanswers : S.Answers result (out, s)) :
    S.Right op l := by
  refine ⟨?_, op', hsame, ?_, ?_⟩
  · rw [hperform]
    exact ⟨rfl, rfl, rfl⟩
  · rw [hperform, heffect]
  · rw [hperform, heffect]
    exact hanswers

/-- Reading a value is right where it can be found and sent. -/
theorem right_get {keys : List Key} (hl : l.Idle) (h : S.Tame (.get keys) l.lua) :
    S.Right (.get keys) l := by
  have hfound : Found keys := h.plain
  obtain ⟨hreported, -⟩ := h.reported (.get keys) rfl
  rw [Lua.effect] at hreported
  obtain ⟨v, s, hwalk, hreported⟩ := hreported.orFail fun _ _ => id
  have heffect : S.lua.effect (.get keys) l.lua = (.ok [v], s) := by
    rw [Lua.effect, Act.orFail_ok hwalk]
  obtain ⟨bs, hwrite, hread⟩ := readValues_eq hreported.2
  obtain ⟨vs', hvalues, hseen⟩ := hread []
  rw [List.append_nil] at hvalues
  rw [writeValues, writeValues, andThen_put_nil] at hwrite
  have hname := readName_eq (S := S) hfound.length l.lua []
  rw [List.append_nil] at hname
  have hlookup : (S.readName.bind S.lua.lookup) l.lua
      (helperRemoteIndex S.client S.clientTpt keys) = (.ok v, s, []) := by
    rw [Reads.bind_ok hname, hfound.lookup_eq, Reads.act_ok hwalk]
  have hserve : S.readCmd rpcCmdGet l.lua (helperRemoteIndex S.client S.clientTpt keys) =
      ⟨s, [], bs, none⟩ := by
    rw [readCmd, if_neg (by decide), if_pos rfl, readCmdGet, hlookup]
    simp only [hwrite, Written.served]
  have hreply : S.getReply bs = some (.values vs', []) := by
    rw [getReply, show S.readValues 1 bs = some (vs', []) from hvalues, Option.map_some]
  have hperform : S.perform (.get keys) l = (.values vs', ⟨s, [], [], .dispatching, 0⟩) := by
    rw [perform, helperCall, List.getLast?_concat]
    simp only [if_true, List.dropLast_concat, helperGet, if_neg hfound.nonempty]
    exact command_eq hl (.inr (.inl rfl)) hserve hreply
  have hsame : SameOp S.client S.server (.get keys : Op S.client P) (.get keys : Op S.server P) := rfl
  exact right_of_command hsame hperform heffect ⟨vs', rfl, hseen⟩

/-- What the server reads of a call. -/
theorem readCall_eq {keys : List Key} {n : ℕ} {bs : List UInt8} {f : V} {vs : List V} {s₀ s₁ : σ}
    (hfound : Found keys) (hn : n < 2 ^ 31)
    (hwalk : S.lua.walk S.lua.globals (keys.map Key.bytes) s₀ = (.ok f, s₁))
    (hargs : S.lua.readArgs S.serverMachine S.chunks S.serverTpt n s₁ bs = (.ok vs, s, [])) :
    S.readCall s₀ (helperRemoteIndex S.client S.clientTpt keys ++
      (writeU32 S.client S.clientTpt (n % 2 ^ 32) ++ bs)) = (.ok (helperName keys, f, vs), s, []) := by
  have hlt : n % 2 ^ 32 = n := Nat.mod_eq_of_lt (by omega)
  have hnargs : (Reads.take (readU32 S.server S.serverTpt)) s₁
      (writeU32 S.client S.clientTpt (n % 2 ^ 32) ++ bs) = (.ok n, s₁, bs) := by
    rw [hlt]
    exact Reads.take_eq (readU32_writeU32 S.toServer (by omega) bs)
  rw [readCall, Reads.bind_ok (readName_eq hfound.length _ _), hfound.lookup_eq,
    Reads.bind_ok (Reads.act_ok hwalk), Reads.bind_ok hnargs, if_pos hn, Reads.bind_ok hargs]
  rfl

/-- The reply with the results of a call. -/
theorem callReply_values {vs : List V} {vs' : List (LuaValue S.client P)} {bs : List UInt8}
    (hlen : vs.length < 2 ^ 31) (hread : S.readValues vs.length bs = some (vs', [])) :
    S.callReply (0 :: (writeU32 S.server S.serverTpt (vs.length % 2 ^ 32) ++ bs)) =
      some (.values vs', []) := by
  have hlt : vs.length % 2 ^ 32 = vs.length := Nat.mod_eq_of_lt (by omega)
  rw [callReply, if_pos rfl, hlt, readU32_writeU32 S.toClient (by omega), Option.bind_some]
  simp only [if_pos hlen, hread, Option.map_some]

/-- The reply for an error. -/
theorem callReply_error {reply : List UInt8} {result : Result S.client P}
    (h : S.readError reply = some (result, [])) : S.callReply (1 :: reply) = some (result, []) := by
  rw [callReply, if_neg (by decide), h]

/-- Calling is right for a function, and where nothing can be called. -/
theorem right_call {keys : List Key} {args : List (Arg S.client P)} (hl : l.Idle)
    (h : S.Tame (.call keys args) l.lua) : S.Right (.call keys args) l := by
  obtain ⟨hfound, hlast, hlen, hsent⟩ := h.plain
  obtain ⟨key, hkey⟩ : ∃ key, keys.getLast? = some key :=
    ⟨_, List.getLast?_eq_some_getLast hfound.nonempty⟩
  obtain ⟨bs, hwrite, hread⟩ := readArgs_eq hsent
  -- the server finds the function and reads the arguments
  have hperform : ∀ {s : σ} {sent : List UInt8} {result : Result S.client P},
      S.readCmdCall l.lua (helperRemoteIndex S.client S.clientTpt keys ++
        (writeU32 S.client S.clientTpt (args.length % 2 ^ 32) ++ bs)) = ⟨s, [], sent, none⟩ →
      S.callReply sent = some (result, []) →
      S.perform (.call keys args) l = (result, ⟨s, [], [], .dispatching, 0⟩) := by
    intro s sent result hserve hreply
    rw [perform, helperCall, hkey]
    simp only
    rw [if_neg (hlast key hkey), clientName, hwrite, put, put, returned_andThen, returned_andThen]
    refine command_eq hl (.inl rfl) ?_ hreply
    rw [readCmd, if_pos rfl, hserve]
  obtain ⟨args', hsame, hargs⟩ :=
    hread (S.lua.walk S.lua.globals (keys.map Key.bytes) l.lua).2 []
  have hop : SameOp S.client S.server (.call keys args) (.call keys args') := ⟨rfl, hsame⟩
  obtain ⟨hreported, hdirect⟩ := h.reported (.call keys args') hop
  rw [Lua.effect] at hreported
  obtain ⟨f, s₁, hwalk, hreported⟩ := hreported.orFail fun _ _ => id
  obtain ⟨vs, s₂, heval, hreported⟩ := hreported.orFail fun _ _ => id
  rw [List.append_nil, hwalk] at hargs
  have hcall := readCall_eq hfound hlen hwalk (hargs vs s₂ heval)
  rcases hcalls : S.lua.calls f s₂ with _ | _
  · -- what is found cannot be called
    have hbad : S.lua.isCallable f = false := Bool.eq_false_of_not_eq_true fun hf =>
      Bool.false_ne_true (hcalls.symm.trans (S.lua.calls_of_isCallable f s₂ hf))
    have heffect : S.lua.effect (.call keys args') l.lua = (.error .uncallable, s₂) := by
      rw [Lua.effect, Act.orFail_ok hwalk, Act.orFail_ok heval, hcalls, if_neg Bool.false_ne_true]
    rw [hcalls, if_neg Bool.false_ne_true] at hreported
    obtain ⟨reply, hwritten, herror⟩ := readError_eq .errrun hreported
    refine right_of_command hop (hperform ?_ (callReply_error herror)) heffect
      ⟨_, rfl⟩
    rw [readCmdCall, hcall]
    simp only [hbad, Bool.false_eq_true, if_false]
    rw [show S.errorReply .errrun (undefinedFunction ++ strtokLeft false (helperName keys)) =
      (1 :: reply, .returned) from hwritten]
    rfl
  · have hgood : S.lua.isCallable f := hdirect f s₁ vs s₂ hwalk heval hcalls
    rcases hresult : S.lua.call f vs s₂ with ⟨err | rs, t⟩
    · -- the function raises an error
      have heffect : S.lua.effect (.call keys args') l.lua = (.error (.calling err), t) := by
        rw [Lua.effect, Act.orFail_ok hwalk, Act.orFail_ok heval, if_pos hcalls,
          Act.orFail_error hresult]
      rw [if_pos hcalls, Act.orFail_error hresult] at hreported
      obtain ⟨reply, hwritten, herror⟩ := readError_eq err.status hreported
      refine right_of_command hop (hperform ?_ (callReply_error herror)) heffect
        ⟨_, rfl⟩
      rw [readCmdCall, hcall]
      simp only [hgood, if_true, hresult, hwritten]
      rfl
    · have heffect : S.lua.effect (.call keys args') l.lua = (.ok rs, t) := by
        rw [Lua.effect, Act.orFail_ok hwalk, Act.orFail_ok heval, if_pos hcalls,
          Act.orFail_ok hresult]
      rw [if_pos hcalls, Act.orFail_ok hresult] at hreported
      obtain ⟨rbs, hwritten, hvalues⟩ := readValues_eq hreported.2
      obtain ⟨rs', hrs, hseen⟩ := hvalues []
      rw [List.append_nil] at hrs
      refine right_of_command hop (hperform ?_ (callReply_values hreported.1 hrs)) heffect
        ⟨rs', rfl, hseen⟩
      rw [readCmdCall, hcall]
      simp only [hgood, if_true, hresult, hwritten, put, returned_andThen]
      rfl

/-- What the server does for an assignment that succeeds. -/
theorem readCmdNewindex_eq {s₀ : σ} {input : List UInt8}
    (h : S.readNewindex s₀ input = (.ok (), s, [])) :
    S.readCmd rpcCmdNewindex s₀ input = ⟨s, [], [0], none⟩ := by
  rw [readCmd, if_neg (by decide), if_neg (by decide), readCmdNewindex, h]
  rfl

/-- The client writes the name, the key and the value. -/
theorem helperNewindex_eq {keys : List Key} {key : List UInt8} {value : Arg S.client P}
    {kb vb : List UInt8} (hl : l.Idle)
    (hkey : S.clientArg (.value (.string key)) = (kb, .returned))
    (hvalue : S.clientArg value = (vb, .returned))
    (hread : S.readNewindex l.lua (helperRemoteIndex S.client S.clientTpt keys ++ (kb ++ vb)) =
      (.ok (), s, [])) :
    S.helperNewindex (S.clientName keys) key value l =
      (.values [], ⟨s, [], [], .dispatching, 0⟩) := by
  rw [helperNewindex, hkey, hvalue, clientName, put, returned_andThen, returned_andThen]
  exact command_eq hl (.inr (.inr rfl)) (readCmdNewindex_eq hread) rfl

/-- A key is read as the string it is. -/
theorem readKey_eq {key : List UInt8} (h : S.Sent (.value (.string key))) : ∃ bs,
    S.clientArg (.value (.string key)) = (bs, .returned) ∧
      ∀ s rest, S.readArg s (bs ++ rest) = (.ok (S.lua.str key), s, rest) := by
  obtain ⟨bs, hwrite, hread⟩ := readArg_eq h
  refine ⟨bs, hwrite, fun s rest => ?_⟩
  obtain ⟨a', hsame, ha⟩ := hread s rest
  cases a' with
  | helper keys => exact hsame.elim
  | value v' =>
    cases v' <;> first | exact hsame.elim | skip
    obtain rfl : key = _ := hsame
    rw [ha]
    refine Reads.act_ok ?_
    rw [Lua.evalArg, S.lua.make_string]

/-- Assigning to a global is right where it succeeds. -/
theorem right_assignGlobal {key : Key} {value : Arg S.client P} (hl : l.Idle)
    (h : S.Tame (.assignGlobal key value) l.lua) : S.Right (.assignGlobal key value) l := by
  obtain ⟨hzero, hkey, hvalue⟩ := h.plain
  obtain ⟨kb, hwritek, hreadk⟩ := readKey_eq hkey
  obtain ⟨vb, hwrite, hread⟩ := readArg_eq hvalue
  obtain ⟨value', hsame, hvalue'⟩ := hread l.lua []
  rw [List.append_nil] at hvalue'
  have hop : SameOp S.client S.server (.assignGlobal key value) (.assignGlobal key value') :=
    ⟨rfl, hsame⟩
  obtain ⟨hreported, -⟩ := h.reported _ hop
  rw [Lua.effect] at hreported
  obtain ⟨v, s₁, heval, hreported⟩ := hreported.orFail fun _ _ => id
  obtain ⟨⟨⟩, s₂, hset, -⟩ := hreported.orFail fun _ _ => id
  have heffect : S.lua.effect (.assignGlobal key value') l.lua = (.ok [], s₂) := by
    rw [Lua.effect, Act.orFail_ok heval, Act.orFail_ok hset]
  have hnew : S.readNewindex l.lua (helperRemoteIndex S.client S.clientTpt [] ++ (kb ++ vb)) =
      (.ok (), s₂, []) := by
    rw [readNewindex, Reads.bind_ok (readName_eq (by decide) _ _), if_pos (by decide),
      Reads.bind_ok (hreadk _ _), Reads.bind_ok (hvalue'.trans (Reads.act_ok heval)),
      S.lua.tostring_str]
    change Reads.act (S.lua.settable S.lua.globals (S.lua.str (cString key.bytes)) v) s₁ [] = _
    rw [cString_eq hzero]
    exact Reads.act_ok hset
  exact right_of_command hop (helperNewindex_eq hl hwritek hwrite hnew) heffect ⟨[], rfl, .nil⟩

/-- Assigning to a field is right where it succeeds. -/
theorem right_assign {keys : List Key} {key : List UInt8} {value : Arg S.client P} (hl : l.Idle)
    (h : S.Tame (.assign keys key value) l.lua) : S.Right (.assign keys key value) l := by
  obtain ⟨hfound, hkey, hvalue⟩ := h.plain
  obtain ⟨kb, hwritek, hreadk⟩ := readKey_eq hkey
  obtain ⟨vb, hwrite, hread⟩ := readArg_eq hvalue
  obtain ⟨value', hsame, hvalue'⟩ :=
    hread (S.lua.walk S.lua.globals (keys.map Key.bytes) l.lua).2 []
  have hop : SameOp S.client S.server (.assign keys key value) (.assign keys key value') :=
    ⟨rfl, rfl, hsame⟩
  obtain ⟨hreported, -⟩ := h.reported _ hop
  rw [Lua.effect] at hreported
  obtain ⟨t, s₁, hwalk, hreported⟩ := hreported.orFail fun _ _ => id
  obtain ⟨v, s₂, heval, hreported⟩ := hreported.orFail fun _ _ => id
  obtain ⟨⟨⟩, s₃, hset, -⟩ := hreported.orFail fun _ _ => id
  rw [List.append_nil, hwalk] at hvalue'
  have heffect : S.lua.effect (.assign keys key value') l.lua = (.ok [], s₃) := by
    rw [Lua.effect, Act.orFail_ok hwalk, Act.orFail_ok heval, Act.orFail_ok hset]
  have hnew : S.readNewindex l.lua (helperRemoteIndex S.client S.clientTpt keys ++ (kb ++ vb)) =
      (.ok (), s₃, []) := by
    rw [readNewindex, Reads.bind_ok (readName_eq hfound.length _ _),
      if_neg hfound.helperName_ne_nil, hfound.lookup_eq, Reads.bind_ok (Reads.act_ok hwalk),
      Reads.bind_ok (hreadk _ _), Reads.bind_ok (hvalue'.trans (Reads.act_ok heval))]
    exact Reads.act_ok hset
  have hperform : S.perform (.assign keys key value) l =
      (.values [], ⟨s₃, [], [], .dispatching, 0⟩) := by
    rw [perform, if_neg hfound.nonempty]
    exact helperNewindex_eq hl hwritek hwrite hnew
  exact right_of_command hop hperform heffect ⟨[], rfl, .nil⟩

/-- A tame operation between commands is right. -/
theorem right_of_tame {op : Op S.client P} (hl : l.Idle) (h : S.Tame op l.lua) : S.Right op l := by
  cases op with
  | get keys => exact right_get hl h
  | call keys args => exact right_call hl h
  | assignGlobal key value => exact right_assignGlobal hl h
  | assign keys key value => exact right_assign hl h

end Session

/-! ### A small server -/

/-- Values of a server with a global `x`, a function `f`, and nothing else. -/
inductive Obj where
  | globals
  | nil
  | boolean (b : Bool)
  | str (s : List UInt8)
  | f
  deriving DecidableEq

/-- An error in the server. -/
def Obj.error : LuaError := ⟨.errrun, [0x69, 0x6E, 0x64, 0x65, 0x78]⟩

/-- The value of `x` is the state, and `f` returns its arguments. -/
def smallLua (e : Endpoint) : Lua e Unit Bool Obj where
  globals := .globals
  str := .str
  tostring
    | .str s => some s
    | _ => none
  gettable
    | .globals, .str s, x =>
      (.ok (if s = [0x78] then .boolean x else if s = [0x66] then .f else .nil), x)
    | .globals, _, x => (.ok .nil, x)
    | _, _, x => (.error Obj.error, x)
  settable
    | .globals, .str [0x78], .boolean b, _ => (.ok (), b)
    | .globals, _, _, x => (.ok (), x)
    | _, _, _, x => (.error Obj.error, x)
  isCallable v := v = .f
  calls v _ := v = .f
  call _ vs x := (.ok vs, x)
  make
    | .string s, x => (.str s, x)
    | .boolean b, x => (.boolean b, x)
    | _, x => (.nil, x)
  seen
    | .nil, _ => some .nil
    | .boolean b, _ => some (.boolean b)
    | .str s, _ => some (.string s)
    | .f, _ => some .cfunction
    | .globals, _ => none
  make_string _ _ := rfl
  tostring_str _ := rfl
  calls_of_isCallable _ _ h := h
  wf_of_seen
    | .nil, _, _, rfl => trivial
    | .boolean _, _, _, rfl => trivial
    | .str _, _, _, rfl => trivial
    | .f, _, _, rfl => trivial

/-- Two sides with doubles. -/
def smallSession : Session Unit Bool Obj where
  client := ⟨true, true, false⟩
  server := ⟨true, true, false⟩
  clientTpt := ⟨true, true, 8, false, false⟩
  serverTpt := ⟨true, true, 8, false, false⟩
  connected := connected_iff.mpr ⟨rfl, rfl⟩
  clientMachine := default
  serverMachine := default
  chunks := ⟨fun _ _ _ => [], fun _ _ => .error []⟩
  lua := smallLua _
  handler := false

/-- The server waits for a command. -/
def smallConn : Conn Bool := ⟨false, [], [], .dispatching, 0⟩

def keyX : Key := ⟨[0x78], by decide⟩

def keyF : Key := ⟨[0x66], by decide⟩

theorem same_boolean {w r : Endpoint} {b : Bool} {a : Arg r P}
    (h : SameArg w r (.value (.boolean b)) a) : a = .value (.boolean b) := by
  cases a with
  | helper keys => exact h.elim
  | value v =>
    cases v <;> first | exact h.elim | skip
    obtain rfl : b = _ := h
    rfl

theorem sent_boolean (b : Bool) : smallSession.Sent (.value (.boolean b)) :=
  ⟨trivial, trivial, trivial, trivial⟩

/-- Assigning to the global is tame. -/
theorem tame_assignGlobal_x (s : Bool) :
    smallSession.Tame (.assignGlobal keyX (.value (.boolean true))) s := by
  have hshort : [(0x78 : UInt8)].length % 2 ^ 32 < 2 ^ 31 := by decide
  have hlen : [(0x78 : UInt8)].length < 2 ^ 32 := by decide
  refine ⟨⟨by decide, ⟨trivial, hshort, trivial, hlen⟩, sent_boolean true⟩, fun op' hop => ?_⟩
  cases op' with
  | assignGlobal key a =>
    obtain ⟨rfl, ha⟩ := hop
    obtain rfl := same_boolean ha
    exact ⟨⟨by decide, nofun⟩, trivial⟩
  | get | call | assign => exact hop.elim

/-- Calling the function with a boolean is tame. -/
theorem tame_call_f (b s : Bool) : smallSession.Tame (.call [keyF] [.value (.boolean b)]) s := by
  have hfound : Found [keyF] := by
    refine ⟨by decide, fun k hk => ?_, by decide⟩
    obtain rfl := List.mem_singleton.mp hk
    exact ⟨by decide, by decide, by decide⟩
  refine ⟨⟨hfound, by decide, Nat.one_lt_two_pow (by decide), fun a ha => ?_⟩, fun op' hop => ?_⟩
  · obtain rfl := List.mem_singleton.mp ha
    exact sent_boolean b
  · cases op' with
    | call keys args =>
      obtain ⟨rfl, _ | ⟨ha, _ | _⟩⟩ := hop
      obtain rfl := same_boolean ha
      refine ⟨⟨Nat.one_lt_two_pow (by decide), fun v hv => ?_⟩, ?_⟩
      · obtain rfl := List.mem_singleton.mp hv
        exact ⟨.boolean b, rfl, trivial, trivial, trivial, trivial⟩
      · rintro func s₁ vs s₂ ⟨⟩ - -
        rfl
    | get | assignGlobal | assign => exact hop.elim

end ELuaBrain.LuaRpc
