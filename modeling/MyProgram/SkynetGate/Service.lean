import MyProgram.SkynetGate.Hashid
import MyProgram.SkynetGate.Databuffer
import MyProgram.SkynetGate.Control

/-! The gate service (`service_gate.c`). One call of the service callback is one
step; the answers of the socket layer and the name service come with the input. -/
namespace MyProgram.SkynetGate
open Lib

def PTYPE_TEXT : Int := 0
def PTYPE_CLIENT : Int := 3
def PTYPE_TAG_DONTCOPY : Nat := 0x10000
def BACKLOG : Int := 32

structure Connection where
  id : Int
  agent : UInt32
  client : UInt32
  remoteName : Bytes
  buffer : Databuffer
  deriving DecidableEq, Repr

/-- A connection record in zeroed memory, apart from its id. -/
def Connection.cleared : Connection := ⟨-1,0,0,[],.zero⟩

structure Gate where
  listenId : Int
  watchdog : UInt32
  broker : UInt32
  clientTag : Int
  headerSize : Int
  maxConnection : Int
  hash : Hashid
  conn : List Connection
  mp : Messagepool
  bind : Bytes

/-- What the library calls of one step return. -/
structure Answers where
  listen : Int
  connect : Int
  queryname : UInt32
  deriving DecidableEq, Repr

/-- A message of the socket layer, `ACCEPT` with the address text behind it. -/
inductive SocketMessage where
  | data (id : Int) (buffer : Buffer)
  | connect (id : Int)
  | close (id : Int)
  | error (id : Int)
  | accept (id ud : Int) (name : Bytes)
  | warning (id ud : Int)
  | udp (id : Int)
  deriving DecidableEq, Repr

/-- The messages the callback distinguishes; all other types are ignored. -/
inductive Incoming where
  | text (source : UInt32) (msg : Bytes)
  | client (source : UInt32) (msg : Bytes)
  | socket (message : SocketMessage)
  | other
  deriving DecidableEq, Repr

structure Input where
  answers : Answers
  incoming : Incoming
  deriving DecidableEq, Repr

/-- `skynet_socket_close`. -/
def socketClose (id : Int) : GateM Unit := Act.emit (.socketClose id)

/-- `skynet_send`. -/
def skynetSend (source destination : UInt32) (type session : Int) (msg : Bytes) : GateM Unit :=
  Act.emit (.send source destination type session msg)

namespace Gate

def connAt (g : Gate) (id : Int) : GateM Connection := Act.read .connection g.conn id

def setConn (g : Gate) (id : Int) (c : Connection) : Gate := { g with conn := g.conn.set id.toNat c }

/-- `g->client_tag | PTYPE_TAG_DONTCOPY`. -/
def dontcopyTag (g : Gate) : Int := ((g.clientTag.toNat ||| PTYPE_TAG_DONTCOPY : Nat) : Int)

end Gate

def forwardAgent (g : Gate) (fd : Int) (agentaddr clientaddr : UInt32) : GateM Gate := do
  let id ← hashidLookup g.hash fd
  skynetError (ascii "_forward_agent id = " ++ signedDecimal id)
  if id ≥ 0 then do
    let agent ← g.connAt id
    pure (g.setConn id { agent with agent := agentaddr, client := clientaddr })
  else pure g

/-- The host and port of a listen address with the address as `start_listen` leaves
it: the colon becomes the end of the host. -/
def listenAddress (addr : Bytes) : GateM (Bytes × Int × Bytes) :=
  match cstring addr 0 with
  | none => .fail .outOfBounds .bind
  | some s => match s.idxOf? 58 with
    | none => pure ([],atoi s,addr)
    | some j =>
      let port := atoi (s.drop (j + 1))
      if port ≤ 0 then pure ([],port,addr) else pure (s.take j,port,addr.set j 0)

/-- `start_listen` on an address array, which it returns as edited. -/
def startListen (answer : Int) (g : Gate) (addr : Bytes) : GateM (Gate × Bytes × Int) := do
  let (host,port,addr') ← listenAddress addr
  let text := addr'.takeWhile (· ≠ 0)
  if port ≤ 0 then do
    skynetError (ascii "Invalid gate address " ++ text)
    pure (g,addr',1)
  else do
    Act.emit (.socketListen host port BACKLOG answer)
    let g := { g with listenId := answer }
    if answer < 0 then pure (g,addr',1)
    else do
      Act.emit (.socketStart answer)
      skynetError (ascii "start listen address " ++ text)
      pure (g,addr',0)

/-- The branches of `_ctrl`. -/
def ctrlRun (answers : Answers) (g : Gate) (source : UInt32) : Command → GateM Gate
  | .kick uid => do
    let id ← hashidLookup g.hash uid
    if id ≥ 0 then socketClose uid
    pure g
  | .forward id agent client => forwardAgent g id agent client
  | .broker _ => pure { g with broker := answers.queryname }
  | .start uid => do
    let id ← hashidLookup g.hash uid
    if id ≥ 0 then Act.emit (.socketStart uid)
    pure g
  | .close =>
    if g.listenId ≥ 0 then do
      socketClose g.listenId
      pure { g with listenId := -1 }
    else pure g
  | .connect ip port =>
    if hashidFull g.hash then pure g
    else do
      Act.emit (.socketConnect ip port answers.connect)
      let fd := answers.connect
      let (hash,_) ← hashidInsert g.hash fd
      let g ← forwardAgent { g with hash } fd source 0
      skynetError (ascii "connect to " ++ ip ++ ascii " port " ++ signedDecimal port)
      pure g
  | .listen => do
    let (g,addr,_) ← startListen answers.listen g g.bind
    pure { g with bind := addr }
  | .empty | .forwardIncomplete | .unknown => pure g

def ctrl (answers : Answers) (g : Gate) (msg : Bytes) (source : UInt32) : GateM Gate := do
  ctrlRun answers g source (← ctrlParse msg)

/-- `_report`, with its text already formatted; `htonl(19)` precedes it. -/
def report (g : Gate) (text : Bytes) : GateM Unit :=
  if g.watchdog = 0 then pure ()
  else skynetSend 0 g.watchdog PTYPE_TEXT 0 (toBytes 4 19 ++ text)

/-- `_forward` of a frame body of `size` bytes. -/
def forward (g : Gate) (c : Connection) (mp : Messagepool) (size : Int) : GateM (Connection × Messagepool) :=
  if g.broker ≠ 0 then do
    let (buffer,mp,temp) ← databufferRead c.buffer mp size
    skynetSend 0 g.broker g.dontcopyTag 0 temp
    pure ({ c with buffer },mp)
  else if c.agent ≠ 0 then do
    let (buffer,mp,temp) ← databufferRead c.buffer mp size
    skynetSend c.client c.agent g.dontcopyTag 0 temp
    pure ({ c with buffer },mp)
  else if g.watchdog ≠ 0 then do
    let label := signedDecimal c.id ++ [32]
    let (buffer,mp,body) ← databufferRead c.buffer mp size
    skynetSend 0 g.watchdog g.dontcopyTag 0 (label ++ body)
    pure ({ c with buffer },mp)
  else pure (c,mp)

/-- The loop of `dispatch_message`; from the second round on each one reads a header. -/
def dispatchLoop (g : Gate) (id : Int) : Nat → Connection → Messagepool → GateM (Connection × Messagepool)
  | 0, _, _ => .fail .diverges .dispatch
  | fuel+1, c, mp => do
    let (buffer,mp,size) ← databufferReadheader c.buffer mp g.headerSize
    let c := { c with buffer }
    if size < 0 then pure (c,mp)
    else if size > 0 then
      if size ≥ 0x1000000 then do
        let (buffer,mp) ← databufferClear c.buffer mp
        socketClose id
        skynetError (ascii "Recv socket message > 16M")
        pure ({ c with buffer },mp)
      else do
        let (c,mp) ← forward g c mp size
        dispatchLoop g id fuel { c with buffer := databufferReset c.buffer } mp
    else dispatchLoop g id fuel c mp

def dispatchMessage (g : Gate) (c : Connection) (mp : Messagepool) (id : Int) (data : Buffer) :
    GateM (Connection × Messagepool) := do
  let (buffer,mp) ← databufferPush c.buffer mp data
  dispatchLoop g id (buffer.size.toNat + 2) { c with buffer } mp

def dispatchSocketMessage (g : Gate) : SocketMessage → GateM Gate
  | .data mid buffer => do
    let id ← hashidLookup g.hash mid
    if id ≥ 0 then do
      let c ← g.connAt id
      let (c,mp) ← dispatchMessage g c g.mp mid buffer
      pure ({ g with mp }.setConn id c)
    else do
      socketClose mid
      skynetFree (some buffer)
      pure g
  | .connect mid =>
    if mid = g.listenId then do
      skynetError (ascii "listen ok")
      pure g
    else do
      let id ← hashidLookup g.hash mid
      if id < 0 then socketClose mid
      else do
        let c ← g.connAt id
        -- the decimal number is htonl(19) on a little-endian machine
        skynetSend 0 c.agent PTYPE_TEXT 0 (decimal 0x13000000 ++ ascii " connected " ++ signedDecimal mid)
      pure g
  | .close mid | .error mid => do
    let (hash,id) ← hashidRemove g.hash mid
    let g := { g with hash }
    if id ≥ 0 then do
      let c ← g.connAt id
      skynetError (ascii "socket close: " ++ signedDecimal c.id ++ ascii ", msg id:" ++ signedDecimal mid)
      let (_,mp) ← databufferClear c.buffer g.mp
      let g := { g with mp }.setConn id .cleared
      report g (ascii "gate close " ++ signedDecimal mid ++ ascii " " ++ decimal c.agent.toNat)
      pure g
    else pure g
  | .accept mid ud name =>
    if g.listenId = mid then
      if hashidFull g.hash then do
        socketClose ud
        pure g
      else do
        let (hash,id) ← hashidInsert g.hash ud
        let g := { g with hash }
        let c ← g.connAt id
        let c := { c with id := ud, remoteName := name.take 31 }
        report g (ascii "gate accept " ++ signedDecimal c.id ++ ascii " " ++ c.remoteName.takeWhile (· ≠ 0))
        skynetError (ascii "socket open: " ++ signedDecimal c.id)
        pure (g.setConn id c)
    else .fail .assertion .accept
  | .warning mid ud => do
    skynetError (ascii "fd (" ++ signedDecimal mid ++ ascii ") send buffer (" ++ signedDecimal ud ++ ascii ")K")
    pure g
  | .udp _ => pure g

/-- The `PTYPE_CLIENT` branch: the last four bytes name the socket to write to. -/
def clientMessage (g : Gate) (source : UInt32) (msg : Bytes) : GateM Int :=
  if msg.length ≤ 4 then do
    skynetError (ascii "Invalid client message from " ++ hexadecimal source.toNat)
    pure 0
  else do
    let body := msg.take (msg.length - 4)
    let uid := wrap32 (ofBytes (msg.drop (msg.length - 4)).reverse)
    skynetError (ascii "uid is " ++ signedDecimal uid)
    let id ← hashidLookup g.hash uid
    if id ≥ 0 then do
      skynetError (ascii "gate accept client msg uid = " ++ signedDecimal uid)
      Act.emit (.socketSend uid body)
      pure 1
    else do
      skynetError (ascii "Invalid client id " ++ signedDecimal uid ++ ascii " from " ++ hexadecimal source.toNat)
      pure 0

/-- The service callback. -/
def cb (g : Gate) (x : Input) : GateM (Gate × Int) :=
  match x.incoming with
  | .text source msg => do
    pure (← ctrl x.answers g msg source,0)
  | .client source msg => do
    pure (g,← clientMessage g source msg)
  | .socket message => do
    pure (← dispatchSocketMessage g message,0)
  | .other => pure (g,0)

/-- One step of the service. -/
def gateStep (g : Gate) (x : Input) : GateM Gate := do
  let (g,_) ← cb g x
  pure g

/-- The gate as `gate_create` leaves it. The hash has no arrays yet. -/
def gateCreate : Gate where
  listenId := -1
  watchdog := 0
  broker := 0
  clientTag := 0
  headerSize := 0
  maxConnection := 0
  hash := ⟨0,0,0,[],[]⟩
  conn := []
  mp := .zero
  bind := List.replicate 200 0

/-- What `gate_init` takes from its surroundings: the configured `max_online`, the
answer to its listen call and the value of the uninitialised local `watchdog`. -/
structure Setup where
  maxOnline : Bytes
  listen : Int
  watchdog : UInt32
  deriving DecidableEq, Repr

/-- `sscanf(parm, "%s %u", binding, &watchdog)`: the word, and the number if there is one. -/
def scanParm (parm : Bytes) : Bytes × Option UInt32 :=
  let s := parm.dropWhile isSpace
  let binding := s.takeWhile (fun b => !isSpace b)
  let rest := (s.dropWhile (fun b => !isSpace b)).dropWhile isSpace
  let digits := (signed rest).2
  (binding,if (digits.head?.bind (digit 10)).isSome then some (UInt32.ofNat (strtoul 10 rest)) else none)

def gateInit (setup : Setup) (g : Gate) (parm : Option Bytes) : GateM (Gate × Int) :=
  match parm with
  | none => pure (g,1)
  | some parm => do
    let sz := parm.length + 1
    let (binding,watchdog) := scanParm parm
    let max := atoi setup.maxOnline
    let hash ← hashidInit max
    let g := { g with
      watchdog := watchdog.getD setup.watchdog
      hash
      conn := List.replicate max.toNat .cleared
      maxConnection := max
      clientTag := PTYPE_CLIENT
      headerSize := 4 }
    match binding with
    | [] => .fail .uninitialised .init
    | first :: _ =>
      if first = 33 then pure (g,0)
      else if sz > 200 then .fail .outOfBounds .bind
      else do
        -- the bytes behind the word's NUL are copied too, and never read
        let g := { g with bind := binding ++ List.replicate (200 - binding.length) 0 }
        let (g,_,code) ← startListen setup.listen g (binding ++ [0])
        pure (g,code)

/-- The loop of `gate_release` from `i` on, with `left` records to go. -/
def releaseLoop (g : Gate) (i : Nat) : Nat → GateM Unit
  | 0 => pure ()
  | left+1 => do
    let c ← g.connAt i
    if c.id ≥ 0 then socketClose c.id
    releaseLoop g (i + 1) left

/-- `gate_release`; what remains is the memory it hands back. -/
def gateRelease (g : Gate) : GateM Gate := do
  releaseLoop g 0 g.maxConnection.toNat
  if g.listenId ≥ 0 then socketClose g.listenId
  pure { g with mp := messagepoolFree g.mp, hash := hashidClear g.hash, conn := [] }

end MyProgram.SkynetGate
