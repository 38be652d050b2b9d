import ELuaBrain.LuaRpc.Conveyed

/-!
# The commands of `luarpc.c`

The client makes helpers out of keys and sends them as one string with dots; the server cuts the
string at the dots and looks the pieces up. The Lua state of the server is a parameter. The stacks
of Lua and of C are taken to be large enough for what is sent, and memory does not run out.

Reading waits for the bytes. The server therefore runs when all that it reads has been written, and
the client reads when the server has come to its end.

## Main definitions

* `Lua` : the state of the server as seen through the functions of the Lua library.
* `Key`, `Arg`, `Op` : keys that the client accepts, arguments, operations.
* `Session`, `Conn` : two connected sides, and the state of the connection.
* `readCmdCall`, `readCmdGet`, `readCmdNewindex` : the commands on the server.
* `Session.perform` : an operation of the client.
-/

namespace ELuaBrain.LuaRpc

/-! ### Strings of C -/

/-- A string up to its first zero. -/
def cString (s : List UInt8) : List UInt8 := s.takeWhile (· ≠ 0)

/-- `'.'`. -/
def dot : UInt8 := 0x2E

/-- The tokens that calls of `strtok` with `"."` find one after the other. -/
def strtok (s : List UInt8) : List (List UInt8) := ((cString s).splitOn dot).filter (· ≠ [])

/-- What these calls leave of the string: the dot that ends a token becomes a zero. -/
def strtokLeft (token : Bool) : List UInt8 → List UInt8
  | [] => []
  | c :: s =>
    if c = 0 then c :: s
    else if c = dot then (if token then 0 else dot) :: strtokLeft false s
    else c :: strtokLeft true s

/-- `luaO_pushvfstring` without further arguments: no conversion asks for one, and the string does
not end behind a `%`. -/
def formats : List UInt8 → Bool
  | [] => true
  | [c] => c != 0x25
  | c :: d :: s =>
    if c = 0x25 then !([0x73, 0x63, 0x64, 0x66, 0x70] : List UInt8).contains d && formats s
    else formats (d :: s)

/-! ### The Lua state of the server -/

/-- What `lua_pcall` returns for an error. -/
inductive LuaStatus where
  | errrun
  | errmem
  | errerr

/-- `LUA_ERRRUN`, `LUA_ERRMEM`, `LUA_ERRERR`. -/
def LuaStatus.code : LuaStatus → ℕ
  | errrun => 2
  | errmem => 4
  | errerr => 5

/-- An error, with what `lua_tolstring` gives for its object: nothing if that is not a string or a
number. -/
structure LuaError where
  status : LuaStatus
  text : List UInt8

/-- What may raise an error. -/
abbrev Act (σ α : Type) : Type := σ → Except LuaError α × σ

/-- Lua on the server. Metamethods may do anything to the state. -/
structure Lua (e : Endpoint) (P σ V : Type) where
  /-- The table of `LUA_GLOBALSINDEX`. -/
  globals : V
  /-- The value of a string. -/
  str : List UInt8 → V
  /-- `lua_tostring`. -/
  tostring : V → Option (List UInt8)
  gettable : V → V → Act σ V
  settable : V → V → V → Act σ Unit
  /-- `LUA_ISCALLABLE`: a function or a light function. -/
  isCallable : V → Bool
  /-- A value that can be called, if only by its metatable. -/
  calls : V → σ → Bool
  call : V → List V → Act σ (List V)
  /-- A value that is put together anew. -/
  make : LuaValue e P → σ → V × σ
  /-- A value as it is to be seen in its entries, unless a table contains itself. -/
  seen : V → σ → Option (LuaValue e P)
  make_string : ∀ s t, make (.string s) t = (str s, t)
  tostring_str : ∀ s, tostring (str s) = some s
  calls_of_isCallable : ∀ v t, isCallable v → calls v t
  wf_of_seen : ∀ v t x, seen v t = some x → x.Wf

/-- One `lua_getfield` after the other. -/
def Lua.walk {e : Endpoint} {P σ V : Type} (L : Lua e P σ V) : V → List (List UInt8) → Act σ V
  | v, [], s => (.ok v, s)
  | v, k :: ks, s =>
    match L.gettable v (L.str k) s with
    | (.ok v', s') => L.walk v' ks s'
    | (.error err, s') => (.error err, s')

/-! ### Operations -/

/-- `NUM_FUNCNAME_CHARS`. -/
def numFuncnameChars : ℕ := 20

/-- A key that is accepted by `handle_index`, `helper_index` and `handle_newindex`. -/
structure Key where
  bytes : List UInt8
  accepted : (cString bytes).length ≤ numFuncnameChars - 1

/-- `funcname` in the helper. -/
def Key.name (k : Key) : List UInt8 := cString k.bytes

/-- The key `get`. -/
def getKey : Key := ⟨[0x67, 0x65, 0x74], by decide⟩

/-- An argument: a value, or a helper, which stands for a value of the server. -/
inductive Arg (e : Endpoint) (P : Type) where
  | value (v : LuaValue e P)
  | helper (keys : List Key)

/-- What is done with a handle: `h.k.….get()`, `h.k.…(args)`, `h.key = value`, and
`h.k.….key = value`. -/
inductive Op (e : Endpoint) (P : Type) where
  | get (keys : List Key)
  | call (keys : List Key) (args : List (Arg e P))
  | assignGlobal (key : Key) (value : Arg e P)
  | assign (keys : List Key) (key : List UInt8) (value : Arg e P)

/-! ### The connection -/

/-- A client and a server that are connected. -/
structure Session (P σ V : Type) where
  client : Endpoint
  server : Endpoint
  clientTpt : Transport
  serverTpt : Transport
  connected : Connected client clientTpt server serverTpt
  clientMachine : Machine
  serverMachine : Machine
  chunks : Chunks P
  lua : Lua server P σ V
  /-- `global_error_handler` is set on the client. -/
  handler : Bool

/-- Where the server is: it waits for a command, it has announced that it is ready for the rest of
one, it has closed the connection, or it does not come back to waiting for a command. -/
inductive Mode where
  | dispatching
  | ready (cmd : UInt8)
  | closed
  | away
  deriving DecidableEq

/-- The Lua state of the server, the bytes on their way, and where the server is. -/
structure Conn (σ : Type) where
  lua : σ
  toServer : List UInt8
  toClient : List UInt8
  mode : Mode
  linkErrs : ℕ

/-- Between commands. -/
structure Conn.Idle {σ : Type} (l : Conn σ) : Prop where
  toServer : l.toServer = []
  toClient : l.toClient = []
  mode : l.mode = .dispatching

/-- What the client gets. -/
inductive Result (e : Endpoint) (P : Type) where
  | values (vs : List (LuaValue e P))
  | failed (text : List UInt8)
  /-- The client waits for bytes, or what it reads is not what it expects. -/
  | stuck
  | undefined

def rpcCmdCall : UInt8 := 1
def rpcCmdGet : UInt8 := 2
def rpcCmdCon : UInt8 := 3
def rpcCmdNewindex : UInt8 := 4
def rpcReady : UInt8 := 64
def rpcUnsupportedCmd : UInt8 := 65
def rpcRemote : UInt8 := 8

/-- `MAX_LINK_ERRS`. -/
def maxLinkErrs : ℕ := 2

/-! ### Writing -/

variable {e : Endpoint} {P σ V α β : Type}

/-- A length and as many bytes. Lengths are passed on as an `int`. -/
def writeText (e : Endpoint) (t : Transport) (s : List UInt8) : Written :=
  let len := s.length % 2 ^ 32
  (put (writeU32 e t len)).andThen (if len < 2 ^ 31 then put (s.take len) else ([], .undefined))

/-- The names of a helper and its parents, with dots between them. -/
def helperName (keys : List Key) : List UInt8 := [dot].intercalate (keys.map Key.name)

/-- `helper_remote_index`. -/
def helperRemoteIndex (e : Endpoint) (t : Transport) (keys : List Key) : List UInt8 :=
  writeU32 e t ((helperName keys).length % 2 ^ 32) ++ helperName keys

/-- `write_variable` with helpers. -/
def writeArg (m : Machine) (c : Chunks P) (e : Endpoint) (t : Transport) : Arg e P → Written
  | .value v => writeVariable m c e t v
  | .helper keys => put (rpcRemote :: helperRemoteIndex e t keys)

def writeArgs (m : Machine) (c : Chunks P) (e : Endpoint) (t : Transport) : List (Arg e P) → Written
  | [] => put []
  | a :: as => (writeArg m c e t a).andThen (writeArgs m c e t as)

/-! ### Reading on the server -/

/-- Why a command is not served to its end: an error of Lua is raised, the behaviour is undefined,
or the bytes are not there or not those of a value, which is not followed further. -/
inductive Stop where
  | raised
  | undefined
  | stuck

/-- Reading with the Lua state at hand. -/
def Reads (σ α : Type) : Type := σ → List UInt8 → Except Stop α × σ × List UInt8

namespace Reads

def pure (a : α) : Reads σ α := fun s input => (.ok a, s, input)

def stop (h : Stop) : Reads σ α := fun s input => (.error h, s, input)

def bind (p : Reads σ α) (f : α → Reads σ β) : Reads σ β := fun s input =>
  match p s input with
  | (.ok a, s', rest) => f a s' rest
  | (.error h, s', rest) => (.error h, s', rest)

/-- The next bytes. -/
def take (read : List UInt8 → Option (α × List UInt8)) : Reads σ α := fun s input =>
  match read input with
  | some (a, rest) => (.ok a, s, rest)
  | none => (.error .stuck, s, input)

/-- Outside of a protected call. -/
def act (a : Act σ α) : Reads σ α := fun s input =>
  match a s with
  | (.ok x, s') => (.ok x, s', input)
  | (.error _, s') => (.error .raised, s', input)

end Reads

/-- `lua_getglobal` and `lua_getfield` for the tokens of a name. Without a token the name of the
global is `NULL`. -/
def Lua.lookup (L : Lua e P σ V) (name : List UInt8) : Reads σ V :=
  match strtok name with
  | [] => .stop .undefined
  | tokens => .act (L.walk L.globals tokens)

/-- `read_variable` with helpers, which `read_index` looks up. -/
def Lua.readArg (L : Lua e P σ V) (m : Machine) (c : Chunks P) (t : Transport) : Reads σ V :=
  fun s input =>
    if input.head? = some rpcRemote then
      ((Reads.take (readString e t)).bind L.lookup) s input.tail
    else
      ((Reads.take (receive m c e t)).bind fun
        | some v => Reads.act fun s' => (.ok (L.make v s').1, (L.make v s').2)
        | none => Reads.stop .stuck) s input

def Lua.readArgs (L : Lua e P σ V) (m : Machine) (c : Chunks P) (t : Transport) :
    ℕ → Reads σ (List V)
  | 0 => .pure []
  | n + 1 => (L.readArg m c t).bind fun v => (L.readArgs m c t n).bind fun vs => .pure (v :: vs)

/-! ### Serving -/

/-- What the server has done for a command: the state, the bytes that it has not read, those that
it has sent, and why it did not come to the end, if so. -/
structure Served (σ : Type) where
  lua : σ
  unread : List UInt8
  sent : List UInt8
  stop : Option Stop

/-- The end of what is written last. -/
def Written.served (w : Written) (s : σ) (unread : List UInt8) : Served σ :=
  ⟨s, unread, w.1,
    match w.2 with
    | .returned => none
    | .raised _ => some .raised
    | .undefined => some .undefined⟩

namespace Session

variable (S : Session P σ V)

/-- `write_variable` for a value of the server. -/
def writeValue (s : σ) (v : V) : Written :=
  match S.lua.seen v s with
  | some x => writeVariable S.serverMachine S.chunks S.server S.serverTpt x
  | none => ([], .undefined)

def writeValues (s : σ) : List V → Written
  | [] => put []
  | v :: vs => (S.writeValue s v).andThen (writeValues s vs)

/-- `read_variable` on the server. -/
def readArg : Reads σ V := S.lua.readArg S.serverMachine S.chunks S.serverTpt

def readName : Reads σ (List UInt8) := .take (readString S.server S.serverTpt)

/-- The name and the value of the function, and the arguments. -/
def readCall : Reads σ (List UInt8 × V × List V) :=
  S.readName.bind fun name =>
    (S.lua.lookup name).bind fun f =>
      (Reads.take (readU32 S.server S.serverTpt)).bind fun nargs =>
        if nargs < 2 ^ 31 then
          (S.lua.readArgs S.serverMachine S.chunks S.serverTpt nargs).bind fun args =>
            .pure (name, f, args)
        else .stop .undefined

/-- `"undefined function: "`. -/
def undefinedFunction : List UInt8 :=
  [0x75, 0x6E, 0x64, 0x65, 0x66, 0x69, 0x6E, 0x65, 0x64, 0x20, 0x66, 0x75, 0x6E, 0x63, 0x74, 0x69,
    0x6F, 0x6E, 0x3A, 0x20]

/-- The reply for an error. -/
def errorReply (status : LuaStatus) (text : List UInt8) : Written :=
  (put (1 :: writeU32 S.server S.serverTpt status.code)).andThen
    (writeText S.server S.serverTpt text)

/-- `read_cmd_call`. -/
def readCmdCall (s : σ) (input : List UInt8) : Served σ :=
  match S.readCall s input with
  | (.error h, s', rest) => ⟨s', rest, [], some h⟩
  | (.ok (name, f, args), s', rest) =>
    if S.lua.isCallable f then
      match S.lua.call f args s' with
      | (.ok vs, t) =>
        ((put (0 :: writeU32 S.server S.serverTpt (vs.length % 2 ^ 32))).andThen
          (S.writeValues t vs)).served t rest
      | (.error err, t) => (S.errorReply err.status err.text).served t rest
    else (S.errorReply .errrun (undefinedFunction ++ strtokLeft false name)).served s' rest

/-- `read_cmd_get`. -/
def readCmdGet (s : σ) (input : List UInt8) : Served σ :=
  match (S.readName.bind S.lua.lookup) s input with
  | (.error h, s', rest) => ⟨s', rest, [], some h⟩
  | (.ok v, s', rest) => (S.writeValue s' v).served s' rest

/-- The assignment in `read_cmd_newindex`: to a field of the value that was looked up, or to a
global. -/
def readNewindex : Reads σ Unit :=
  S.readName.bind fun name =>
    if cString name = [] then
      S.readArg.bind fun key =>
        S.readArg.bind fun value =>
          match S.lua.tostring key with
          | some s => .act (S.lua.settable S.lua.globals (S.lua.str (cString s)) value)
          | none => .stop .undefined
    else
      (S.lua.lookup name).bind fun table =>
        S.readArg.bind fun key => S.readArg.bind fun value => .act (S.lua.settable table key value)

/-- `read_cmd_newindex`. -/
def readCmdNewindex (s : σ) (input : List UInt8) : Served σ :=
  match S.readNewindex s input with
  | (.error h, s', rest) => ⟨s', rest, [], some h⟩
  | (.ok (), s', rest) => (put [0]).served s' rest

/-- `rpc_dispatch_helper` up to `RPC_READY`. A client on an open connection does not negotiate
again. -/
def accept (l : Conn σ) : Conn σ :=
  match l.mode, l.toServer with
  | .dispatching, cmd :: rest =>
    if cmd = rpcCmdCall ∨ cmd = rpcCmdGet ∨ cmd = rpcCmdNewindex then
      { l with mode := .ready cmd, toServer := rest, toClient := l.toClient ++ [rpcReady] }
    else if cmd = rpcCmdCon then l
    else if l.linkErrs + 1 > maxLinkErrs then
      { l with
        mode := .closed, toServer := rest, toClient := l.toClient ++ [rpcUnsupportedCmd],
        linkErrs := 0 }
    else
      { l with
        toServer := rest, toClient := l.toClient ++ [rpcUnsupportedCmd],
        linkErrs := l.linkErrs + 1 }
  | _, _ => l

/-- The command that is read. -/
def readCmd (cmd : UInt8) (s : σ) (input : List UInt8) : Served σ :=
  if cmd = rpcCmdCall then S.readCmdCall s input
  else if cmd = rpcCmdGet then S.readCmdGet s input
  else S.readCmdNewindex s input

/-- `rpc_dispatch_helper` behind `RPC_READY`. -/
def serve (l : Conn σ) : Conn σ :=
  match l.mode with
  | .ready cmd =>
    let d := S.readCmd cmd l.lua l.toServer
    match d.stop with
    | none => ⟨d.lua, d.unread, l.toClient ++ d.sent, .dispatching, 0⟩
    | some _ => ⟨d.lua, d.unread, l.toClient ++ d.sent, .away, l.linkErrs⟩
  | _ => l

/-! ### The client -/

/-- `deal_with_error`. The text is the format string of `luaL_error`. -/
def dealWithError (text : List UInt8) : Result S.client P :=
  if S.handler ∨ formats (cString text) then .failed (cString text) else .undefined

/-- `read_variable` for each value of a reply. -/
def readValues : ℕ → List UInt8 → Option (List (LuaValue S.client P) × List UInt8)
  | 0, input => some ([], input)
  | n + 1, input =>
    match receive S.clientMachine S.chunks S.client S.clientTpt input with
    | some (some v, rest) => (readValues n rest).map fun (vs, rest) => (v :: vs, rest)
    | _ => none

/-- The code and the text of an error. -/
def readError (input : List UInt8) : Option (Result S.client P × List UInt8) :=
  (readU32 S.client S.clientTpt input).bind fun (_, rest) =>
    (readString S.client S.clientTpt rest).map fun (text, rest) => (S.dealWithError text, rest)

/-- The reply in `helper_call`. -/
def callReply : List UInt8 → Option (Result S.client P × List UInt8)
  | [] => none
  | code :: input =>
    if code = 0 then
      (readU32 S.client S.clientTpt input).bind fun (nret, rest) =>
        if nret < 2 ^ 31 then (S.readValues nret rest).map fun (vs, rest) => (.values vs, rest)
        else none
    else S.readError input

/-- The reply in `helper_get`. -/
def getReply (input : List UInt8) : Option (Result S.client P × List UInt8) :=
  (S.readValues 1 input).map fun (vs, rest) => (.values vs, rest)

/-- The reply in `helper_newindex`. -/
def newindexReply : List UInt8 → Option (Result S.client P × List UInt8)
  | [] => none
  | code :: input => if code = 0 then some (.values [], input) else S.readError input

/-- `errorString( ERR_PROTOCOL )`: `error in the received protocol`. -/
def errProtocol : List UInt8 :=
  [0x65, 0x72, 0x72, 0x6F, 0x72, 0x20, 0x69, 0x6E, 0x20, 0x74, 0x68, 0x65, 0x20, 0x72, 0x65, 0x63,
    0x65, 0x69, 0x76, 0x65, 0x64, 0x20, 0x70, 0x72, 0x6F, 0x74, 0x6F, 0x63, 0x6F, 0x6C]

/-- A command of the client from `helper_wait_ready` on: the rest of the command is written when the
server is ready, and the reply is read when the server has come to its end. -/
def command (cmd : UInt8) (body : Written)
    (reply : List UInt8 → Option (Result S.client P × List UInt8)) (l : Conn σ) :
    Result S.client P × Conn σ :=
  let l := accept { l with toServer := l.toServer ++ [cmd] }
  match l.toClient with
  | [] => (.stuck, l)
  | resp :: rest =>
    if resp ≠ rpcReady then (S.dealWithError errProtocol, { l with toClient := rest })
    else
      let l := { l with toClient := rest, toServer := l.toServer ++ body.1 }
      match body.2 with
      | .raised message => (.failed message.toUTF8.data.toList, l)
      | .undefined => (.undefined, l)
      | .returned =>
        let l := S.serve l
        match reply l.toClient with
        | none => (.stuck, l)
        | some (result, rest) => (result, { l with toClient := rest })

/-- `write_variable` on the client. -/
def clientArg : Arg S.client P → Written :=
  writeArg S.clientMachine S.chunks S.client S.clientTpt

/-- The name of a helper. -/
def clientName (keys : List Key) : Written := put (helperRemoteIndex S.client S.clientTpt keys)

/-- `helper_get`. A helper that comes directly from the handle has no parent. -/
def helperGet (keys : List Key) (l : Conn σ) : Result S.client P × Conn σ :=
  if keys = [] then (.undefined, l)
  else S.command rpcCmdGet (S.clientName keys) S.getReply l

/-- `helper_call`. There is no helper without a key. -/
def helperCall (keys : List Key) (args : List (Arg S.client P)) (l : Conn σ) :
    Result S.client P × Conn σ :=
  match keys.getLast? with
  | none => (.undefined, l)
  | some key =>
    if key.name = getKey.name then S.helperGet keys.dropLast l
    else
      S.command rpcCmdCall
        ((S.clientName keys).andThen
          ((put (writeU32 S.client S.clientTpt (args.length % 2 ^ 32))).andThen
            (writeArgs S.clientMachine S.chunks S.client S.clientTpt args)))
        S.callReply l

/-- `helper_newindex` with the name of the helper. -/
def helperNewindex (name : Written) (key : List UInt8) (value : Arg S.client P) (l : Conn σ) :
    Result S.client P × Conn σ :=
  S.command rpcCmdNewindex
    (name.andThen ((S.clientArg (.value (.string key))).andThen (S.clientArg value)))
    S.newindexReply l

/-- An operation of the client. The helper of `handle_newindex` has an empty name. -/
def perform : Op S.client P → Conn σ → Result S.client P × Conn σ
  | .get keys, l => S.helperCall (keys ++ [getKey]) [] l
  | .call keys args, l => S.helperCall keys args l
  | .assignGlobal key value, l => S.helperNewindex (S.clientName []) key.bytes value l
  | .assign keys key value, l =>
    if keys = [] then (.undefined, l) else S.helperNewindex (S.clientName keys) key value l

end Session

end ELuaBrain.LuaRpc
