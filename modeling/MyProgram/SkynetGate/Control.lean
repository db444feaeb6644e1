import MyProgram.SkynetGate.Basic
import MyProgram.Lib.CString

/-! How the gate reads a control message: the parsing half of `_ctrl`, which
works on a copy `tmp` of the message with a NUL behind it. -/
namespace MyProgram.SkynetGate
open Lib

/-- What a control message asks for, with the arguments its branch extracts. -/
inductive Command where
  | empty
  | kick (uid : Int)
  | forward (id : Int) (agent client : UInt32)
  | forwardIncomplete
  | broker (name : Bytes)
  | start (uid : Int)
  | close
  | connect (ip : Bytes) (port : Int)
  | listen
  | unknown
  deriving DecidableEq, Repr

/-- The C string at `p`, a fault when it runs out of the copy. -/
def stringAt (mem : Bytes) (p : Nat) : GateM Bytes :=
  match cstring mem p with
  | some s => pure s
  | none => .fail .outOfBounds .control

/-- Move the argument behind a command of `commandSz` bytes to the front. -/
def parm (msg : Bytes) (sz commandSz : Nat) : Bytes :=
  let arg := ((msg.take sz).drop commandSz).dropWhile (· = 32)
  arg ++ [0] ++ msg.drop (arg.length + 1)

/-- `memcmp(command, keyword, i) == 0` for a string literal. -/
def memcmpZero : Nat → Bytes → Bytes → GateM Bool
  | 0, _, _ => pure true
  | i+1, a :: command, b :: keyword => if a = b then memcmpZero i command keyword else pure false
  | _+1, _, _ => .fail .outOfBounds .control

def isCommand (tmp : Bytes) (i : Nat) (keyword : String) : GateM Bool :=
  memcmpZero i tmp (ascii keyword ++ [0])

/-- Log one line with `skynet_error`. -/
def skynetError (text : Bytes) : GateM Unit := Act.emit (.error text)

/-- A field of the forward command. -/
def fieldAt (mem : Bytes) (p : Nat) : GateM (Bytes × Option Nat) :=
  match strsep mem p with
  | some r => pure r
  | none => .fail .outOfBounds .control

def parseForward (tmp : Bytes) (sz i : Nat) : GateM Command := do
  skynetError (ascii "forward i  = " ++ decimal i)
  let tmp := parm tmp sz i
  let (tmp,client) ← fieldAt tmp 0
  match client with
  | none => pure .forwardIncomplete
  | some agent => do
    let idstr ← stringAt tmp 0
    let id := atoi idstr
    skynetError (ascii "forward id  = " ++ signedDecimal id)
    let (tmp,client) ← fieldAt tmp agent
    match client with
    | none => pure .forwardIncomplete
    | some client => do
      let agentHandle := UInt32.ofNat (strtoul 16 (← stringAt tmp (agent + 1)))
      skynetError (ascii "forward agent_handle = " ++ decimal agentHandle.toNat)
      let clientHandle := UInt32.ofNat (strtoul 16 (← stringAt tmp (client + 1)))
      skynetError (ascii "forward client_handle = " ++ decimal clientHandle.toNat)
      pure (.forward id agentHandle clientHandle)

/-- Skip blanks and copy the word behind them into a `char` array of `limit` bytes. -/
def copyWord (tmp : Bytes) (p limit : Nat) : GateM (Bytes × Nat) := do
  let s ← stringAt tmp p
  let word := (s.dropWhile (· = 32)).takeWhile (· ≠ 32)
  if word.length < limit then pure (word,p + (s.takeWhile (· = 32)).length + word.length)
  else .fail .outOfBounds .control

def parseConnect (tmp : Bytes) (i : Nat) : GateM Command := do
  let (ip,p) ← copyWord tmp (i + 1) 100
  let (port,_) ← copyWord tmp p 50
  pure (.connect ip (atoi port))

/-- The command of a control message, the keywords tried in the source's order. -/
def ctrlParse (msg : Bytes) : GateM Command := do
  let sz := msg.length
  let tmp := msg ++ [0]
  if sz = 0 then pure .empty
  else
    let i := (msg.takeWhile (· ≠ 32)).length
    if ← isCommand tmp i "kick" then do
      pure (.kick (atoi (← stringAt (parm tmp sz i) 0)))
    else if ← isCommand tmp i "forward" then parseForward tmp sz i
    else if ← isCommand tmp i "broker" then do
      pure (.broker (← stringAt (parm tmp sz i) 0))
    else if ← isCommand tmp i "start" then do
      pure (.start (atoi (← stringAt (parm tmp sz i) 0)))
    else if ← isCommand tmp i "close" then pure .close
    else if ← isCommand tmp i "connect" then parseConnect tmp i
    else if ← isCommand tmp i "listen" then pure .listen
    else do
      skynetError (ascii "[gate] Unkown command : " ++ (← stringAt tmp 0))
      pure .unknown

end MyProgram.SkynetGate
