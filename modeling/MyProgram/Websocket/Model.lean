import MyProgram.Lib.LuaPack
import MyProgram.Lib.Streams

/-! Frames and messages of a web socket: `lualib/http/websocket.lua`. -/
namespace MyProgram.Websocket
open Lib LuaPack

def MAX_FRAME_SIZE : Nat := 256 * 1024

/-- The names in `op_code`. -/
inductive Op where
  | frame | text | binary | close | ping | pong
  deriving DecidableEq, Repr

namespace Op

def code : Op → Nat
  | frame => 0x00
  | text => 0x01
  | binary => 0x02
  | close => 0x08
  | ping => 0x09
  | pong => 0x0A

/-- `op_code[op]` for a number. -/
def ofCode (n : Nat) : Option Op := [frame,text,binary,close,ping,pong].find? (·.code = n)

end Op

/-- Where an error is raised. -/
inductive Site where
  | socketError | tooLarge | opCode | maskingKey | rounds
  deriving DecidableEq, Repr

/-- Bytes that are written, and the calls of the handler. -/
inductive Effect where
  | write (s : Bytes)
  | message (data : Bytes) (op : Op)
  | ping
  | pong
  | close (code : Option Nat) (reason : Option Bytes)
  deriving DecidableEq, Repr

abbrev WsM := Act Site Effect

/-- `self.read(n)`. -/
def read (n : Nat) (s : Bytes) : WsM (Bytes × Bytes) := takeBytes .socketError n s

/-- The first two bytes and the length. -/
def header (v1 mask len : Nat) : Bytes :=
  if len < 126 then [UInt8.ofNat v1,UInt8.ofNat (mask ||| len)]
  else if len ≤ 0xffff then [UInt8.ofNat v1,UInt8.ofNat (mask ||| 126)] ++ toBytes 2 len
  else [UInt8.ofNat v1,UInt8.ofNat (mask ||| 127)] ++ toBytes 8 len

/-- `string.pack(">I4", masking_key)`, which raises an error for a number with more bytes. -/
def packKey (key : Nat) : WsM Bytes := if key < 2^32 then pure (toBytes 4 key) else .fail .assertion .maskingKey

section
variable (xorStr : Bytes → Bytes → Bytes)

/-- The masking key is written before the payload is masked with it. -/
def maskPayload (payload : Bytes) : Option Nat → WsM Bytes
  | none => pure payload
  | some key => do
    let s ← packKey key
    Act.emit (.write s)
    pure (xorStr payload s)

def writeFrame (op : Op) (payload : Bytes) (maskingKey : Option Nat) : WsM Unit := do
  Act.emit (.write (header (0x80 ||| op.code) (if maskingKey.isSome then 0x80 else 0x00) payload.length))
  let payloadData ← maskPayload xorStr payload maskingKey
  if payload.length > 0 then Act.emit (.write payloadData) else pure ()

/-- The status code and the reason behind it. -/
def readClose (payload : Bytes) : Option Nat × Option Bytes :=
  if payload.length > 2 then (some (ofBytes (payload.take 2)),some (payload.drop 2)) else (none,none)

/-- The length from the second byte, or from the bytes that it announces. A length of 8
bytes is read as a signed number. -/
def readLength (len : Nat) (s : Bytes) : WsM (Int × Bytes) :=
  if len = 126 then do
    let (l,s) ← read 2 s
    pure (unpackUint l,s)
  else if len = 127 then do
    let (l,s) ← read 8 s
    pure (unpackUint l,s)
  else pure (len,s)

def readKey (mask : Bool) (s : Bytes) : WsM (Option Bytes × Bytes) :=
  if mask = true then do
    let (k,s) ← read 4 s
    pure (some k,s)
  else pure (none,s)

def readPayload (len : Int) (s : Bytes) : WsM (Bytes × Bytes) := if len > 0 then read len.toNat s else pure ([],s)

/-- The payload without its mask. -/
def unmask (key : Option Bytes) (payload : Bytes) : Bytes :=
  match key with
  | some k => xorStr payload k
  | none => payload

def readFrame (server : Bool) (s : Bytes) : WsM ((Bool × Op × Bytes) × Bytes) := do
  let (h,s) ← read 2 s
  let v1 := (h.getD 0 0).toNat
  let v2 := (h.getD 1 0).toNat
  let (len,s) ← readLength (v2 &&& 0x7f) s
  if server = true ∧ len > MAX_FRAME_SIZE then .fail .assertion .tooLarge
  else do
    let (key,s) ← readKey (v2 &&& 0x80 ≠ 0) s
    let (payload,s) ← readPayload len s
    match Op.ofCode (v1 &&& 0x0f) with
    | some op => pure ((decide (v1 &&& 0x80 ≠ 0),op,unmask xorStr key payload),s)
    | none => .fail .assertion .opCode

/-- `recv_buf`, `recv_count` and `first_op`. -/
structure Received where
  recvBuf : List Bytes
  recvCount : Nat
  firstOp : Option Op
  deriving DecidableEq, Repr

def nothing : Received := ⟨[],0,none⟩

/-- A frame of a message. -/
def receive (r : Received) (fin : Bool) (op : Op) (payload : Bytes) : WsM Received :=
  if fin = true ∧ r.recvBuf.length = 0 then .ok r [.message payload op]
  else if r.recvCount + payload.length > MAX_FRAME_SIZE then .fail .assertion .tooLarge
  else if fin = true then .ok nothing [.message (r.recvBuf ++ [payload]).flatten (r.firstOp.getD op)]
  else pure ⟨r.recvBuf ++ [payload],r.recvCount + payload.length,some (r.firstOp.getD op)⟩

/-- The loop of `resolve_accept`. `closed` says in each round whether the socket was closed. -/
def acceptLoop : List Bool → Received → Bytes → WsM Bytes
  | [], _, _ => .fail .diverges .rounds
  | true :: _, _, s => .ok s [.close none none]
  | false :: closed, r, s => do
    let ((fin,op,payload),s) ← readFrame xorStr true s
    match op with
    | .close => do
      writeFrame xorStr .close [] none
      .ok s [.close (readClose payload).1 (readClose payload).2]
    | .ping => do
      writeFrame xorStr .pong payload none
      Act.emit .ping
      acceptLoop closed r s
    | .pong => do
      Act.emit .pong
      acceptLoop closed r s
    | .frame | .text | .binary => do
      let r ← receive r fin op payload
      acceptLoop closed r s

/-- What `M.read` returns: a message, or `false` with the payload of a close frame. -/
inductive Reply where
  | message (data : Bytes)
  | closed (payload : Bytes)
  deriving DecidableEq, Repr

/-- The loop of `M.read` at the side of a client. -/
def readLoop : Nat → Option (List Bytes) → Bytes → WsM (Reply × Bytes)
  | 0, _, _ => .fail .diverges .rounds
  | rounds+1, recvBuf, s => do
    let ((fin,op,payload),s) ← readFrame xorStr false s
    match op with
    | .close => pure (.closed payload,s)
    | .ping => do
      writeFrame xorStr .pong payload none
      readLoop rounds recvBuf s
    | .pong => readLoop rounds recvBuf s
    | .frame | .text | .binary =>
      match fin, recvBuf with
      | true, none => pure (.message payload,s)
      | true, some l => pure (.message (l ++ [payload]).flatten,s)
      | false, l => readLoop rounds (some (l.getD [] ++ [payload])) s

/-- The payload of the close frame in `M.close`. -/
def closePayload (code : Option Nat) (reason : Bytes) : Option Bytes :=
  match code with
  | none => some []
  | some code => (packUint 2 code).map (· ++ reason)

end
end MyProgram.Websocket
