import MyProgram.Lib.Act
import MyProgram.Lib.CInt

/-! The edge-triggered server (`epoll_test/server.cpp`) together with the part of the
kernel it talks to: the queue of pending connections, the receive buffers and the
descriptors that `epoll_wait` will report. -/
namespace MyProgram.Epoll
open Lib

def MAXLINE : Nat := 250

/-- The number of events one `epoll_wait` returns at most. -/
def MAXEVENTS : Nat := 20

/-- A connection with what has been received on it and not yet read. It is `ready` when
something has arrived since it was last reported. -/
structure Conn where
  fd : Nat
  unread : Bytes
  eof : Bool
  ready : Bool
  deriving DecidableEq, Repr

/-- A connection that has just been made. -/
def Conn.pending (fd : Nat) : Conn := ⟨fd,[],false,false⟩

/-- A read would not block. -/
def Conn.readable (c : Conn) : Bool := !c.unread.isEmpty || c.eof

inductive Desc where
  | listener
  | conn (fd : Nat)
  deriving DecidableEq, Repr

/-- The server with its sockets. `events` are the events of the last `epoll_wait` that the
loop still has to handle; when there are none it waits. -/
structure Server where
  backlog : List Conn
  listenReady : Bool
  conns : List Conn
  events : List Desc
  line : Bytes
  exited : Bool
  deriving DecidableEq, Repr

/-- The errors that the loop tells apart. -/
inductive Errno where
  | connReset | other
  deriving DecidableEq, Repr

/-- What can happen next: something arrives, `epoll_wait` returns, or the loop handles
its next event, with the error of its system call if there is one. -/
inductive Input where
  | connect (fd : Nat)
  | receive (fd : Nat) (bytes : Bytes)
  | hangUp (fd : Nat)
  | wake (events : List Desc)
  | handle (error : Option Errno)
  deriving DecidableEq, Repr

inductive Site where
  | accept | read | line
  deriving DecidableEq, Repr

/-- The array `line` as it is printed after a read. -/
inductive Effect where
  | print (line : Bytes)
  deriving DecidableEq, Repr

abbrev ServerM := Act Site Effect

namespace Server

def start : Server := ⟨[],false,[],[],List.replicate MAXLINE 0,false⟩

/-- `epoll_wait` may report the descriptor. -/
def isReady (s : Server) : Desc → Bool
  | .listener => s.listenReady && !s.backlog.isEmpty
  | .conn fd => s.conns.any fun c => c.fd == fd && c.ready && c.readable

/-- Something arrives on a connection, accepted or not. -/
def update (s : Server) (fd : Nat) (f : Conn → Conn) : Server :=
  { s with
    backlog := s.backlog.map fun c => if c.fd = fd then f c else c
    conns := s.conns.map fun c => if c.fd = fd then f c else c }

/-- `epoll_wait` returns these descriptors. -/
def report (s : Server) (events : List Desc) : Server :=
  { s with
    listenReady := s.listenReady && !events.contains .listener
    conns := s.conns.map fun c => if events.contains (.conn c.fd) then { c with ready := false } else c
    events }

/-- A new connection is registered. What it has received already makes it ready. -/
def acceptOne (s : Server) (error : Option Errno) : ServerM Server :=
  match error with
  | some _ => pure { s with exited := true }
  | none => match s.backlog with
    | [] => .fail .diverges .accept
    | c :: backlog => pure { s with backlog, conns := s.conns ++ [{ c with ready := c.readable }] }

/-- `line[n] = '\n'` and printing. -/
def endLine (s : Server) (data : Bytes) : ServerM Server :=
  if data.length < MAXLINE then do
    let line := (data ++ s.line.drop data.length).set data.length 10
    Act.emit (.print line)
    pure { s with line }
  else .fail .outOfBounds .line

/-- One read of at most `MAXLINE` bytes; nothing to read is the end of the stream. -/
def readOne (s : Server) (error : Option Errno) (fd : Nat) : ServerM Server :=
  match error, s.conns.find? (·.fd = fd) with
  | none, some c =>
    if c.readable then
      let data := c.unread.take MAXLINE
      if data.isEmpty then endLine { s with conns := s.conns.filter (·.fd ≠ fd) } data
      else endLine { s with
        conns := s.conns.map fun c => if c.fd = fd then { c with unread := c.unread.drop MAXLINE } else c } data
    else .fail .diverges .read
  -- after a failed read the loop still writes line[-1]
  | _, _ => .fail .outOfBounds .line

def handleEvent (s : Server) (error : Option Errno) : Desc → ServerM Server
  | .listener => s.acceptOne error
  | .conn fd => s.readOne error fd

end Server

def serverStep (s : Server) : Input → ServerM Server
  | .connect fd => pure { s with backlog := s.backlog ++ [.pending fd], listenReady := true }
  | .receive fd bytes => pure (s.update fd fun c => { c with unread := c.unread ++ bytes, ready := true })
  | .hangUp fd => pure (s.update fd fun c => { c with eof := true, ready := true })
  | .wake events => pure (s.report events)
  | .handle error => match s.events with
    | [] => pure s
    | d :: events => { s with events }.handleEvent error d

end MyProgram.Epoll
