import MyProgram.Lib.Act
import MyProgram.Lib.Assoc
import MyProgram.Lib.CInt
import Mathlib.Tactic.Simps.Basic

/-! A cluster of processes with a master, each with a slave service: `service/cmaster.lua` and
`service/cslave.lua`. The packages between them are in flight in order. -/
namespace MyProgram.Harbor
open Lib

/-- A process. It is also the address its slave listens at, and the socket to it. -/
abbrev Proc := Nat

/-- A harbor id. -/
abbrev Id := Nat

abbrev Name := Bytes
abbrev Handle := Nat

/-- A closure from `skynet.response`. -/
abbrev Resp := Nat

inductive ToMaster where
  | H (slaveId : Id) (slaveAddr : Proc)
  | R (name : Name) (address : Handle)
  | Q (name : Name)
  deriving DecidableEq, Repr

inductive ToSlave where
  | W (n : Nat)
  | C (slaveId : Id) (slaveAddr : Proc)
  | N (name : Name) (address : Handle)
  | D (slaveId : Id)
  deriving DecidableEq, Repr

/-- An entry of `slave_node`; a slave that is down has no `fd`. -/
structure SlaveNode where
  fd : Option Proc
  addr : Proc
  deriving DecidableEq, Repr

/-- What the master does with a connection. -/
inductive Conn where
  | none | handshaking | monitored (slaveId : Id) | closed
  deriving DecidableEq, Repr

def Conn.isMonitored : Conn → Bool
  | .monitored _ => true
  | .none | .handshaking | .closed => false

/-- Where the main coroutine of a slave is: before its start, at its first package, waiting for
the harbors before it, at the `socket.close` behind that, with the socket to others open or not,
or done; or the handshake has failed. -/
inductive Phase where
  | off | shaking | waiting (n : Nat) | closing (listening : Bool) | serving | failed
  deriving DecidableEq, Repr

/-- The tables of a slave, and the calls of `socket.open` under way: in `ready`, with what is left
of its queue, and in `monitor_master`. -/
structure Slave where
  phase : Phase
  slaveId : Id
  slaves : List (Id × Option Proc)
  connectQueue : Option (List (Id × Proc))
  readyQueue : List (Id × Proc)
  readyDial : Option (Id × Proc)
  monitorDial : Option (Id × Proc)
  masterFd : Bool
  monitoring : Bool
  globalname : List (Name × Handle)
  queryname : List (Name × List Resp)
  monitor : List (Id × List Resp)
  monitorMasterSet : List Resp
  deriving DecidableEq, Repr

/-- The master, the slaves, the packages under way, and the connections between slaves: those the
other side has not taken yet (in `dials`), and those it reads the id from (in `pending`). -/
structure Cluster where
  slaveNode : List (Id × SlaveNode)
  globalName : List (Name × Handle)
  conn : Proc → Conn
  slave : Proc → Slave
  up : Proc → List ToMaster
  down : Proc → List ToSlave
  dials : List (Proc × Proc)
  pending : List (Proc × Proc)

/-- What a slave tells its clients and the harbor service, and what it logs. -/
inductive Effect where
  | answer (p : Proc) (r : Resp) (name : Name) (address : Handle)
  | localname (p : Proc) (r : Resp)
  | linked (p : Proc) (id : Id) (r : Resp)
  | masterDown (p : Proc) (r : Resp)
  | redirect (p : Proc) (name : Name) (address : Handle)
  | harborS (p : Proc) (fd : Proc) (slaveId : Id)
  | harborA (p : Proc) (fd : Proc) (slaveId : Id)
  | exist (p : Proc) (slaveId : Id)
  | error (p : Proc)
  deriving DecidableEq, Repr

abbrev HarborM := Act Empty Effect

namespace Slave

def fresh : Slave := ⟨.off,0,[],some [],[],none,none,false,false,[],[],[],[]⟩

/-- `monitor_clear`. -/
def monitorClear (s : Slave) (p : Proc) (id : Id) : HarborM Slave :=
  match tableIndex s.monitor id with
  | none => pure s
  | some v => .ok { s with monitor := assign s.monitor id none } (v.map (.linked p id))

/-- `connect_slave` behind a `socket.open` that has not failed. -/
def connected (s : Slave) (p : Proc) (id : Id) (fd : Proc) : HarborM Slave := do
  let s ← monitorClear { s with slaves := assign s.slaves id (some (some fd)) } p id
  .ok s [.harborS p fd id]

/-- The rest of `connect_slave`; `socket.open` may have failed. -/
def opened (s : Slave) (p : Proc) (id : Id) (fd : Proc) (ok : Bool) : HarborM Slave :=
  if ok then s.connected p id fd else .ok s [.error p]

/-- The loops of `ready`, up to the next call of `socket.open`. -/
def readyLoop (p : Proc) : List (Id × Proc) → Slave → HarborM Slave
  | [], s => .ok { s with readyQueue := [] } (s.globalname.map fun e => .redirect p e.1 e.2)
  | (id,addr) :: l, s =>
    if (tableIndex s.slaves id).isNone then pure { s with readyDial := some (id,addr), readyQueue := l } else readyLoop p l s

/-- `response_name`. -/
def responseName (s : Slave) (p : Proc) (name : Name) : HarborM Slave :=
  match tableIndex s.globalname name, tableIndex s.queryname name with
  | some address, some tmp => .ok { s with queryname := assign s.queryname name none } (tmp.map fun r => .answer p r name address)
  | _, _ => pure s

/-- A round of `monitor_master`. -/
def monitorMaster (s : Slave) (p : Proc) : ToSlave → HarborM Slave
  | .C id addr =>
    match s.connectQueue with
    | some queue => pure { s with connectQueue := some (assign queue id (some addr)) }
    | none => if (tableIndex s.slaves id).isNone then pure { s with monitorDial := some (id,addr) } else pure s
  | .N name address => do
    let s ← responseName { s with globalname := assign s.globalname name (some address) } p name
    if s.connectQueue.isNone then .ok s [.redirect p name address] else pure s
  | .D id => do
    let fd := (tableIndex s.slaves id).join
    let s := { s with slaves := assign s.slaves id (some none) }
    if fd.isSome then s.monitorClear p id else pure s
  | .W _ => pure s

/-- `accept_slave`; a connection that is closed brings no id. -/
def acceptSlave (s : Slave) (q p : Proc) : Option Id → HarborM Slave
  | none => .ok s [.error q]
  | some id =>
    if (tableIndex s.slaves id).isSome then .ok s [.exist q id]
    else do
      let s ← monitorClear { s with slaves := assign s.slaves id (some (some p)) } q id
      .ok s [.harborA q p id]

/-- The callback of the socket that listens. -/
def accepted (s : Slave) : Slave :=
  match s.phase with
  | .waiting n => if s.slaves.length ≥ n then { s with phase := .closing true } else s
  | _ => s

/-- Behind the first package. -/
def shaken (s : Slave) (n : Nat) : Slave :=
  { s with phase := if n > 0 then .waiting n else .closing false, monitoring := true }

def isListening (s : Slave) : Bool :=
  match s.phase with
  | .waiting _ | .closing true => true
  | .off | .shaking | .closing false | .serving | .failed => false

def isClosing (s : Slave) : Bool :=
  match s.phase with
  | .closing _ => true
  | .off | .shaking | .waiting _ | .serving | .failed => false

/-- The service was started and goes on. -/
def isUp (s : Slave) : Bool :=
  match s.phase with
  | .shaking | .waiting _ | .closing _ | .serving => true
  | .off | .failed => false

end Slave

/-- Which coroutine waits for `socket.open`. -/
inductive Dialer where
  | ready | monitor
  deriving DecidableEq, Repr

/-- Steps of the master with the socket to a process, steps of a slave, and what its clients and
the harbor service send to it. -/
inductive Event where
  | start (p : Proc) (id : Id)
  | handshake (p : Proc)
  | dispatch (p : Proc)
  | drop (p : Proc)
  | shake (p : Proc)
  | receive (p : Proc)
  | lost (p : Proc)
  | dialed (p : Proc) (d : Dialer) (ok : Bool)
  | incoming (q p : Proc)
  | accept (q p : Proc) (id : Option Id)
  | ready (p : Proc) (order : List (Id × Proc))
  | register (p : Proc) (name : Name) (handle : Handle)
  | queryName (p : Proc) (name : Name) (r : Resp)
  | link (p : Proc) (id : Id) (r : Resp)
  | connect (p : Proc) (id : Id) (r : Resp)
  | linkMaster (p : Proc) (r : Resp)
  | harborQuery (p : Proc) (name : Name)
  | harborDown (p : Proc) (id : Id)
  deriving DecidableEq, Repr

namespace Cluster

def init : Cluster := ⟨[],[],fun _ => .none,fun _ => .fresh,fun _ => [],fun _ => [],[],[]⟩

/-- The sockets in `slave_node`. -/
def fds (c : Cluster) : List Proc := c.slaveNode.filterMap (·.2.fd)

@[simps] def send (c : Cluster) (p : Proc) (m : ToSlave) : Cluster := { c with down := Function.update c.down p (c.down p ++ [m]) }

/-- One package to each socket in a list. -/
@[simps] def sendAll (c : Cluster) (l : List Proc) (m : ToSlave) : Cluster :=
  { c with down := fun p => c.down p ++ List.replicate (l.count p) m }

@[simps] def setSlave (c : Cluster) (p : Proc) (s : Slave) : Cluster := { c with slave := Function.update c.slave p s }

@[simps] def setConn (c : Cluster) (p : Proc) (v : Conn) : Cluster := { c with conn := Function.update c.conn p v }

@[simps] def setUp (c : Cluster) (p : Proc) (l : List ToMaster) : Cluster := { c with up := Function.update c.up p l }

@[simps] def setDown (c : Cluster) (p : Proc) (l : List ToSlave) : Cluster := { c with down := Function.update c.down p l }

/-- `socket.write(master_fd, m)`. -/
def post (c : Cluster) (p : Proc) (m : ToMaster) : Cluster :=
  if (c.slave p).masterFd = true then c.setUp p (c.up p ++ [m]) else c

/-- `handshake` and, without an error, the start of `monitor_slave`. -/
def handshake (c : Cluster) (p : Proc) : ToMaster → Cluster
  | .H id addr =>
    if id = 0 ∨ (tableIndex c.slaveNode id).isSome = true then c.setConn p .closed
    else
      { ((c.sendAll c.fds (.C id addr)).send p (.W c.fds.length)).setConn p (.monitored id) with
        slaveNode := assign c.slaveNode id (some ⟨some p,addr⟩) }
  | .R _ _ | .Q _ => c.setConn p .closed

/-- `dispatch_slave`; the package with a name is as long as the one that has registered it. -/
def dispatchSlave (c : Cluster) (p : Proc) : ToMaster → Cluster
  | .R name address =>
    let globalName := if (tableIndex c.globalName name).isNone then assign c.globalName name (some address) else c.globalName
    sendAll { c with globalName := globalName } c.fds (.N name address)
  | .Q name =>
    match tableIndex c.globalName name with
    | some address => c.send p (.N name address)
    | none => c
  | .H _ _ => c

/-- The end of `monitor_slave`. -/
def dropSlave (c : Cluster) (p : Proc) (id : Id) : Cluster :=
  let c := { c with slaveNode := c.slaveNode.map fun (e : Id × SlaveNode) => (e.1,if e.1 = id then { e.2 with fd := none } else e.2) }
  (c.sendAll c.fds (.D id)).setConn p .closed

/-- What a slave does without a package to the master. -/
def act (c : Cluster) (p : Proc) (f : Slave → HarborM Slave) : HarborM Cluster := do
  let s ← f (c.slave p)
  pure (c.setSlave p s)

/-- `socket.open` has returned. -/
def dialed (c : Cluster) (p : Proc) (ok : Bool) : Dialer → HarborM Cluster
  | .monitor =>
    match (c.slave p).monitorDial with
    | none => pure c
    | some (id,addr) => do
      let s ← Slave.opened { c.slave p with monitorDial := none } p id addr ok
      pure { c.setSlave p s with dials := if ok then c.dials ++ [(p,addr)] else c.dials }
  | .ready =>
    match (c.slave p).readyDial with
    | none => pure c
    | some (id,addr) => do
      let s ← Slave.opened { c.slave p with readyDial := none } p id addr ok
      let s ← Slave.readyLoop p s.readyQueue s
      pure { c.setSlave p s with dials := if ok then c.dials ++ [(p,addr)] else c.dials }

section
/- Whether a package with a name and an address, or with a name only, fits into 255 bytes. The letter
before them does not matter. -/
variable (fits : Name → Option Handle → Bool)

/-- `harbor.REGISTER`. A name that does not fit into a package raises an error behind the
changes of the tables. -/
def register (c : Cluster) (p : Proc) (name : Name) (handle : Handle) : HarborM Cluster :=
  if (tableIndex (c.slave p).globalname name).isSome then .ok c [.error p]
  else do
    let s ← Slave.responseName { c.slave p with globalname := assign (c.slave p).globalname name (some handle) } p name
    let c := c.setSlave p s
    if fits name (some handle) then .ok (c.post p (.R name handle)) [.redirect p name handle] else .ok c [.error p]

/-- `harbor.QUERYNAME`. -/
def queryName (c : Cluster) (p : Proc) (name : Name) (r : Resp) : HarborM Cluster :=
  if name.head? = some 46 then .ok c [.localname p r]
  else
    match tableIndex (c.slave p).globalname name with
    | some address => .ok c [.answer p r name address]
    | none =>
      match tableIndex (c.slave p).queryname name with
      | some queue => pure (c.setSlave p { c.slave p with queryname := assign (c.slave p).queryname name (some (queue ++ [r])) })
      | none =>
        if fits name none then
          pure ((c.post p (.Q name)).setSlave p { c.slave p with queryname := assign (c.slave p).queryname name (some [r]) })
        else .ok c [.error p]

/-- A closure for `harbor.LINK` or `harbor.CONNECT`. -/
def monitorLater (s : Slave) (id : Id) (r : Resp) : Slave :=
  { s with monitor := assign s.monitor id (some ((tableIndex s.monitor id).getD [] ++ [r])) }

def step (c : Cluster) : Event → HarborM Cluster
  | .start p id =>
    let c := (c.setSlave p { c.slave p with phase := .shaking, slaveId := id, masterFd := true }).setConn p .handshaking
    pure ((c.setUp p [.H id p]).setDown p [])
  | .handshake p =>
    match c.up p with
    | m :: rest => pure ((c.setUp p rest).handshake p m)
    | [] => pure c
  | .dispatch p =>
    match c.up p with
    | m :: rest => pure ((c.setUp p rest).dispatchSlave p m)
    | [] => pure c
  | .drop p =>
    match c.conn p with
    | .monitored id => pure (c.dropSlave p id)
    | .none | .handshaking | .closed => pure (c.setConn p .closed)
  | .shake p =>
    match c.down p with
    | .W n :: rest => pure ((c.setDown p rest).setSlave p ((c.slave p).shaken n))
    | _ => .ok (c.setSlave p { c.slave p with phase := .failed }) [.error p]
  | .receive p =>
    match c.down p with
    | m :: rest => (c.setDown p rest).act p fun s => s.monitorMaster p m
    | [] => pure c
  | .lost p =>
    .ok ((c.setDown p []).setSlave p { c.slave p with masterFd := false, monitoring := false })
      ((c.slave p).monitorMasterSet.map (.masterDown p))
  | .dialed p d ok => c.dialed p ok d
  | .incoming q p => pure { c with dials := c.dials.erase (p,q), pending := c.pending ++ [(p,q)] }
  | .accept q p id =>
    act { c with pending := c.pending.erase (p,q) } q fun s => do
      let s ← s.acceptSlave q p id
      pure s.accepted
  | .ready p order => c.act p fun s => Slave.readyLoop p order { s with phase := .serving, connectQueue := none }
  | .register p name handle => c.register fits p name handle
  | .queryName p name r => c.queryName fits p name r
  | .link p id r =>
    if (tableIndex (c.slave p).slaves id).join.isSome then pure (c.setSlave p (monitorLater (c.slave p) id r)) else .ok c [.linked p id r]
  | .connect p id r =>
    if (tableIndex (c.slave p).slaves id).join.isNone then pure (c.setSlave p (monitorLater (c.slave p) id r)) else .ok c [.linked p id r]
  | .linkMaster p r => pure (c.setSlave p { c.slave p with monitorMasterSet := (c.slave p).monitorMasterSet ++ [r] })
  | .harborQuery p name =>
    match tableIndex (c.slave p).globalname name with
    | some address => .ok c [.redirect p name address]
    | none => if fits name none then pure (c.post p (.Q name)) else .ok c [.error p]
  | .harborDown p id =>
    c.act p fun s => do
      let s ← if (tableIndex s.slaves id).join.isSome then s.monitorClear p id else pure s
      pure { s with slaves := assign s.slaves id (some none) }

end

/-- What can happen next. A process is started once, packages are read when they are there, a
coroutine goes on when it has what it waits for, and `pairs` goes through a table in any
order. Any connection can break. -/
def Allowed (c : Cluster) : Event → Prop
  | .start p _ => (c.slave p).phase = .off
  | .handshake p => c.conn p = .handshaking ∧ c.up p ≠ []
  | .dispatch p => (c.conn p).isMonitored = true ∧ c.up p ≠ []
  | .drop p => c.conn p ≠ .none ∧ c.conn p ≠ .closed
  | .shake p => (c.slave p).phase = .shaking ∧ (c.down p ≠ [] ∨ c.conn p = .closed)
  | .receive p => (c.slave p).monitoring = true ∧ (c.slave p).monitorDial = none ∧ c.down p ≠ []
  | .lost p => (c.slave p).monitoring = true ∧ (c.slave p).monitorDial = none
  | .dialed p .ready _ => (c.slave p).readyDial ≠ none
  | .dialed p .monitor _ => (c.slave p).monitorDial ≠ none
  | .incoming q p => (c.slave q).isListening = true ∧ (p,q) ∈ c.dials
  | .accept q p _ => (p,q) ∈ c.pending
  | .ready p order => (c.slave p).isClosing = true ∧ (c.slave p).connectQueue.any (fun queue => decide (order.Perm queue)) = true
  | .register p _ _ | .queryName p _ _ | .link p _ _ | .connect p _ _ | .linkMaster p _ | .harborQuery p _ | .harborDown p _ =>
    (c.slave p).isUp = true

instance (c : Cluster) : (e : Event) → Decidable (c.Allowed e)
  | .dialed _ .ready _ | .dialed _ .monitor _ => inferInstanceAs (Decidable (_ ≠ _))
  | .handshake _ | .dispatch _ | .drop _ | .shake _ | .receive _ | .lost _ | .incoming _ _ | .ready _ _ => inferInstanceAs (Decidable (_ ∧ _))
  | .accept _ _ _ => inferInstanceAs (Decidable (_ ∈ _))
  | .start _ _ | .register _ _ _ | .queryName _ _ _ | .link _ _ _ | .connect _ _ _ | .linkMaster _ _ | .harborQuery _ _
  | .harborDown _ _ => inferInstanceAs (Decidable (_ = _))

end Cluster
end MyProgram.Harbor
