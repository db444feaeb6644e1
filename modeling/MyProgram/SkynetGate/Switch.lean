import MyProgram.SkynetGate.Framing

/-! The gate without its tables: a switch between socket ids and the sessions on
them. Its steps have the effects of the service except for log lines and frees. -/
namespace MyProgram.SkynetGate
open Lib

/-- What the gate knows about a connected socket. `label` is the id it puts in front
of frames for the watchdog. -/
structure Session where
  label : Int
  agent : UInt32
  client : UInt32
  stream : ByteStream
  deriving DecidableEq, Repr

structure Switch where
  listenId : Int
  watchdog : UInt32
  broker : UInt32
  clientTag : Int
  bind : Bytes
  session : Int → Option Session

/-- The effects of a step that are not log lines or frees. -/
def external (fx : List Effect) : List Effect :=
  fx.filter fun
    | .free _ | .error _ => false
    | _ => true

@[simp] theorem external_nil : external [] = [] := rfl

@[simp] theorem external_append (fx fx' : List Effect) : external (fx ++ fx') = external fx ++ external fx' :=
  List.filter_append ..

@[simp] theorem external_free (b : Buffer) (fx : List Effect) : external (.free b :: fx) = external fx := rfl

@[simp] theorem external_error (text : Bytes) (fx : List Effect) : external (.error text :: fx) = external fx := rfl

@[simp] theorem external_socketClose (id : Int) (fx : List Effect) :
    external (.socketClose id :: fx) = .socketClose id :: external fx := rfl

@[simp] theorem external_socketStart (id : Int) (fx : List Effect) :
    external (.socketStart id :: fx) = .socketStart id :: external fx := rfl

@[simp] theorem external_socketListen (host : Bytes) (port backlog answer : Int) (fx : List Effect) :
    external (.socketListen host port backlog answer :: fx) = .socketListen host port backlog answer :: external fx := rfl

@[simp] theorem external_socketConnect (ip : Bytes) (port answer : Int) (fx : List Effect) :
    external (.socketConnect ip port answer :: fx) = .socketConnect ip port answer :: external fx := rfl

@[simp] theorem external_socketSend (id : Int) (msg : Bytes) (fx : List Effect) :
    external (.socketSend id msg :: fx) = .socketSend id msg :: external fx := rfl

@[simp] theorem external_send (source destination : UInt32) (type session : Int) (msg : Bytes) (fx : List Effect) :
    external (.send source destination type session msg :: fx) =
      .send source destination type session msg :: external fx := rfl

namespace Session

/-- A socket that the peer opened. -/
def accepted (id : Int) : Session := ⟨id,0,0,⟨0,[]⟩⟩

/-- A socket that a service asked for. Its label stays unset. -/
def connected (source : UInt32) : Session := ⟨-1,source,0,⟨0,[]⟩⟩

end Session

namespace Switch

def tag (f : Switch) : Int := ((f.clientTag.toNat ||| PTYPE_TAG_DONTCOPY : Nat) : Int)

/-- The message for a frame body. -/
def message (f : Switch) (s : Session) (body : Bytes) : Option Effect :=
  if f.broker ≠ 0 then some (.send 0 f.broker f.tag 0 body)
  else if s.agent ≠ 0 then some (.send s.client s.agent f.tag 0 body)
  else if f.watchdog ≠ 0 then some (.send 0 f.watchdog f.tag 0 (signedDecimal s.label ++ [32] ++ body))
  else none

def routes (f : Switch) (s : Session) : Bool := f.broker ≠ 0 ∨ s.agent ≠ 0 ∨ f.watchdog ≠ 0

def set (f : Switch) (id : Int) (s : Option Session) : Switch := { f with session := Function.update f.session id s }

def report (f : Switch) (text : Bytes) : List Effect :=
  if f.watchdog = 0 then [] else [.send 0 f.watchdog PTYPE_TEXT 0 (toBytes 4 19 ++ text)]

/-- An effect for registered sockets only. -/
def onSession (f : Switch) (id : Int) (e : Effect) : List Effect := if (f.session id).isSome then [e] else []

def listen (f : Switch) (answer : Int) : Switch × List Effect :=
  match listenAddress f.bind with
  | .fail _ _ => (f,[])
  | .ok (host,port,bind) _ =>
    if port ≤ 0 then ({ f with bind },[])
    else ({ f with bind, listenId := answer },
      .socketListen host port BACKLOG answer :: if answer < 0 then [] else [.socketStart answer])

def command (f : Switch) (full : Bool) (answers : Answers) (source : UInt32) : Command → Switch × List Effect
  | .kick uid => (f,f.onSession uid (.socketClose uid))
  | .forward id agent client => (f.set id ((f.session id).map fun s => { s with agent, client }),[])
  | .broker _ => ({ f with broker := answers.queryname },[])
  | .start uid => (f,f.onSession uid (.socketStart uid))
  | .close => if f.listenId ≥ 0 then ({ f with listenId := -1 },[.socketClose f.listenId]) else (f,[])
  | .connect ip port =>
    if full then (f,[])
    else (f.set answers.connect (some (.connected source)),[.socketConnect ip port answers.connect])
  | .listen => f.listen answers.listen
  | .empty | .forwardIncomplete | .unknown => (f,[])

def data (f : Switch) (id : Int) (chunk : Bytes) : Switch × List Effect :=
  match f.session id with
  | none => (f,[.socketClose id])
  | some s =>
    let d := s.stream.feed (f.routes s) chunk
    (f.set id (some { s with stream := d.stream }),
      d.bodies.filterMap (f.message s) ++ if d.closed then [.socketClose id] else [])

def drop (f : Switch) (id : Int) : Switch × List Effect :=
  match f.session id with
  | none => (f,[])
  | some s => (f.set id none,f.report (ascii "gate close " ++ signedDecimal id ++ ascii " " ++ decimal s.agent.toNat))

def socket (f : Switch) (full : Bool) : SocketMessage → Switch × List Effect
  | .data id buffer => f.data id buffer.bytes
  | .connect id =>
    (f,if id = f.listenId then [] else match f.session id with
      | none => [.socketClose id]
      | some s => [.send 0 s.agent PTYPE_TEXT 0 (decimal 0x13000000 ++ ascii " connected " ++ signedDecimal id)])
  | .close id | .error id => f.drop id
  | .accept _ ud name =>
    if full then (f,[.socketClose ud])
    else (f.set ud (some (.accepted ud)),
      f.report (ascii "gate accept " ++ signedDecimal ud ++ ascii " " ++ (name.take 31).takeWhile (· ≠ 0)))
  | .warning _ _ | .udp _ => (f,[])

def client (f : Switch) (msg : Bytes) : List Effect :=
  if msg.length ≤ 4 then []
  else
    let uid := wrap32 (ofBytes (msg.drop (msg.length - 4)).reverse)
    f.onSession uid (.socketSend uid (msg.take (msg.length - 4)))

/-- One input, with a table that is `full` or not. -/
def step (f : Switch) (full : Bool) (x : Input) : Switch × List Effect :=
  match x.incoming with
  | .text source msg => match ctrlParse msg with
    | .ok command _ => f.command full x.answers source command
    | .fail _ _ => (f,[])
  | .client _ msg => (f,f.client msg)
  | .socket message => f.socket full message
  | .other => (f,[])

end Switch

/-- The id that a step hands to `hashid_insert`. -/
def introduced (full : Bool) (x : Input) : Option Int :=
  match full, x.incoming with
  | false, .text _ msg => match ctrlParse msg with
    | .ok (.connect _ _) _ => some x.answers.connect
    | _ => none
  | false, .socket (.accept _ ud _) => some ud
  | _, _ => none

/-- What happens to one socket. -/
inductive SocketEvent where
  | register (s : Session)
  | data (chunk : Bytes)
  | route (agent client : UInt32)
  | drop
  deriving DecidableEq, Repr

def commandEvent (A : Int) (full : Bool) (answers : Answers) (source : UInt32) : Command → Option SocketEvent
  | .forward id agent client => if id = A then some (.route agent client) else none
  | .connect _ _ => if full = false ∧ answers.connect = A then some (.register (.connected source)) else none
  | _ => none

def messageEvent (A : Int) (full : Bool) : SocketMessage → Option SocketEvent
  | .data id buffer => if id = A then some (.data buffer.bytes) else none
  | .close id | .error id => if id = A then some .drop else none
  | .accept _ ud _ => if full = false ∧ ud = A then some (.register (.accepted A)) else none
  | _ => none

/-- The event of an input for the socket `A`. -/
def eventOf (A : Int) (full : Bool) (x : Input) : Option SocketEvent :=
  match x.incoming with
  | .text source msg => match ctrlParse msg with
    | .ok command _ => commandEvent A full x.answers source command
    | .fail _ _ => none
  | .socket message => messageEvent A full message
  | _ => none

/-- The session after an event. -/
def SocketEvent.next (f : Switch) (o : Option Session) : SocketEvent → Option Session
  | .register s => some s
  | .data chunk => o.map fun s => { s with stream := (s.stream.feed (f.routes s) chunk).stream }
  | .route agent client => o.map fun s => { s with agent, client }
  | .drop => none

private theorem commandEvent_cases {A : Int} {full : Bool} {answers : Answers} {source : UInt32} {command : Command} {e : SocketEvent}
    (h : commandEvent A full answers source command = some e) :
    (∃ agent client, command = .forward A agent client ∧ e = .route agent client) ∨
    (∃ ip port, command = .connect ip port ∧ full = false ∧ answers.connect = A ∧ e = .register (.connected source)) := by
  cases command with
  | forward id agent client =>
    simp only [commandEvent] at h
    split at h
    · rename_i hid
      cases h
      exact .inl ⟨agent,client,by rw [hid],rfl⟩
    · cases h
  | connect ip port =>
    simp only [commandEvent] at h
    split at h
    · rename_i hc
      cases h
      exact .inr ⟨ip,port,rfl,hc.1,hc.2,rfl⟩
    · cases h
  | kick _ | broker _ | start _ | close | listen | empty | forwardIncomplete | unknown => cases h

private theorem messageEvent_cases {A : Int} {full : Bool} {message : SocketMessage} {e : SocketEvent}
    (h : messageEvent A full message = some e) :
    (∃ buffer, message = .data A buffer ∧ e = .data buffer.bytes) ∨
    ((message = .close A ∨ message = .error A) ∧ e = .drop) ∨
    ∃ mid name, message = .accept mid A name ∧ full = false ∧ e = .register (.accepted A) := by
  cases message with
  | data id buffer =>
    simp only [messageEvent] at h
    split at h
    · rename_i hid
      cases h
      exact .inl ⟨buffer,by rw [hid],rfl⟩
    · cases h
  | close id =>
    simp only [messageEvent] at h
    split at h
    · rename_i hid
      cases h
      exact .inr (.inl ⟨.inl (by rw [hid]),rfl⟩)
    · cases h
  | error id =>
    simp only [messageEvent] at h
    split at h
    · rename_i hid
      cases h
      exact .inr (.inl ⟨.inr (by rw [hid]),rfl⟩)
    · cases h
  | accept mid ud name =>
    simp only [messageEvent] at h
    split at h
    · rename_i hc
      cases h
      exact .inr (.inr ⟨mid,name,by rw [hc.2],hc.1,rfl⟩)
    · cases h
  | connect _ | warning _ _ | udp _ => cases h

/-- The inputs behind the events of a socket. -/
theorem eventOf_cases {A : Int} {full : Bool} {x : Input} {e : SocketEvent} (h : eventOf A full x = some e) :
    (∃ buffer, x.incoming = .socket (.data A buffer) ∧ e = .data buffer.bytes) ∨
    ((x.incoming = .socket (.close A) ∨ x.incoming = .socket (.error A)) ∧ e = .drop) ∨
    (∃ mid name, x.incoming = .socket (.accept mid A name) ∧ full = false ∧ e = .register (.accepted A)) ∨
    (∃ source msg agent client fx, x.incoming = .text source msg ∧ ctrlParse msg = .ok (.forward A agent client) fx ∧
      e = .route agent client) ∨
    (∃ source msg ip port fx, x.incoming = .text source msg ∧ ctrlParse msg = .ok (.connect ip port) fx ∧ full = false ∧
      x.answers.connect = A ∧ e = .register (.connected source)) := by
  unfold eventOf at h
  cases hx : x.incoming with
  | text source msg =>
    rw [hx] at h
    cases hp : ctrlParse msg with
    | fail k s => simp [hp] at h
    | ok command fx =>
      simp only [hp] at h
      rcases commandEvent_cases h with ⟨agent,client,rfl,rfl⟩ | ⟨ip,port,rfl,hfull,hA,rfl⟩
      · exact .inr (.inr (.inr (.inl ⟨source,msg,agent,client,fx,rfl,hp,rfl⟩)))
      · exact .inr (.inr (.inr (.inr ⟨source,msg,ip,port,fx,rfl,hp,hfull,hA,rfl⟩)))
  | socket message =>
    rw [hx] at h
    rcases messageEvent_cases h with ⟨buffer,rfl,rfl⟩ | ⟨rfl | rfl,rfl⟩ | ⟨mid,name,rfl,hfull,rfl⟩
    · exact .inl ⟨buffer,rfl,rfl⟩
    · exact .inr (.inl ⟨.inl rfl,rfl⟩)
    · exact .inr (.inl ⟨.inr rfl,rfl⟩)
    · exact .inr (.inr (.inl ⟨mid,name,rfl,hfull,rfl⟩))
  | client _ _ | other =>
    rw [hx] at h
    cases h

namespace Switch
variable {f : Switch} {A id : Int} {o : Option Session}

private theorem set_session (f : Switch) (id : Int) (o : Option Session) (A : Int) :
    (f.set id o).session A = if id = A then o else f.session A := by
  rw [set]
  by_cases h : id = A
  · subst h
    rw [if_pos rfl]
    exact Function.update_self ..
  · rw [if_neg h]
    exact Function.update_of_ne (Ne.symm h) ..

private theorem listen_session (f : Switch) (answer A : Int) : (f.listen answer).1.session A = f.session A := by
  unfold listen
  split
  · rfl
  · split <;> rfl

private theorem data_session (f : Switch) (id : Int) (chunk : Bytes) (A : Int) :
    (f.data id chunk).1.session A = if id = A then (SocketEvent.data chunk).next f (f.session A) else f.session A := by
  unfold data
  by_cases h : id = A
  · subst h
    rw [if_pos rfl]
    cases hs : f.session id with
    | none => exact hs
    | some s =>
      rw [set_session,if_pos rfl]
      rfl
  · rw [if_neg h]
    split
    · rfl
    · rw [set_session,if_neg h]

private theorem drop_session (f : Switch) (id : Int) (A : Int) :
    (f.drop id).1.session A = if id = A then none else f.session A := by
  unfold drop
  by_cases h : id = A
  · subst h
    rw [if_pos rfl]
    cases hs : f.session id with
    | none => exact hs
    | some s => rw [set_session,if_pos rfl]
  · rw [if_neg h]
    split
    · rfl
    · rw [set_session,if_neg h]

private theorem command_session (f : Switch) (full : Bool) (answers : Answers) (source : UInt32) (command : Command)
    (A : Int) :
    (f.command full answers source command).1.session A = match commandEvent A full answers source command with
      | none => f.session A
      | some e => e.next f (f.session A) := by
  cases command with
  | forward id agent client =>
    rw [Switch.command,commandEvent,set_session]
    by_cases h : id = A
    · subst h
      simp [SocketEvent.next]
    · simp [h]
  | connect ip port =>
    rw [Switch.command,commandEvent]
    cases full with
    | true => rfl
    | false =>
      by_cases h : answers.connect = A
      · simp [h,set_session,SocketEvent.next]
      · simp [h,set_session]
  | close =>
    rw [Switch.command]
    split <;> rfl
  | listen => exact listen_session f answers.listen A
  | kick _ | broker _ | start _ | empty | forwardIncomplete | unknown => rfl

private theorem socket_session (f : Switch) (full : Bool) (message : SocketMessage) (A : Int) :
    (f.socket full message).1.session A = match messageEvent A full message with
      | none => f.session A
      | some e => e.next f (f.session A) := by
  cases message with
  | data id buffer =>
    rw [socket,data_session,messageEvent]
    split <;> rfl
  | close id | error id =>
    rw [socket,drop_session,messageEvent]
    split <;> rfl
  | accept mid ud name =>
    rw [socket,messageEvent]
    cases full with
    | true => rfl
    | false =>
      by_cases h : ud = A
      · simp [h,set_session,SocketEvent.next]
      · simp [h,set_session]
  | connect _ | warning _ _ | udp _ => rfl

/-- The session of a socket depends on the events for this socket only. -/
theorem step_session (f : Switch) (full : Bool) (x : Input) (A : Int) :
    (f.step full x).1.session A = match eventOf A full x with
      | none => f.session A
      | some e => e.next f (f.session A) := by
  rw [step,eventOf]
  cases x.incoming with
  | text source msg =>
    cases hp : ctrlParse msg with
    | fail k s => simp only [hp]
    | ok command fx =>
      simp only [hp]
      exact command_session f full x.answers source command A
  | client source msg => rfl
  | socket message => exact socket_session f full message A
  | other => rfl

end Switch
end MyProgram.SkynetGate
