import MyProgram.Lib.Act
import MyProgram.Lib.CInt

/-! What the gate service exchanges with its surroundings. -/
namespace MyProgram.SkynetGate
open Lib

/-- The places of the gate's code that a fault is reported at. -/
inductive Site where
  | hashid | databuffer | connection | accept | control | bind | init | dispatch
  deriving DecidableEq, Repr

/-- A data buffer delivered by the socket layer. Its length is passed on in the
`int` field `ud` of the socket message, so it fits one. -/
structure Buffer where
  addr : Nat
  bytes : Bytes
  fits : bytes.length < 2^31
  deriving DecidableEq, Repr

/-- The library calls through which the gate acts on the outside. Listening and
connecting record the answer of the socket layer. -/
inductive Effect where
  | socketClose (id : Int)
  | socketStart (id : Int)
  | socketListen (host : Bytes) (port backlog : Int) (answer : Int)
  | socketConnect (ip : Bytes) (port : Int) (answer : Int)
  | socketSend (id : Int) (msg : Bytes)
  | send (source destination : UInt32) (type session : Int) (msg : Bytes)
  | free (buffer : Buffer)
  | error (text : Bytes)
  deriving DecidableEq, Repr

abbrev GateM (α : Type) := Act Site Effect α

end MyProgram.SkynetGate
