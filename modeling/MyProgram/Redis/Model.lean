import MyProgram.Lib.LuaString
import MyProgram.Lib.Streams

/-! The protocol of Redis at the side of a client: `lualib/skynet/db/redis.lua`. -/
namespace MyProgram.Redis
open Lib

/-- What a response is in Lua. In a table `null` is a field that is not there. -/
inductive Value where
  | null
  | str (s : Bytes)
  | int (n : Int)
  | table (l : List Value)

/-- Where an error is raised. -/
inductive Site where
  | socketError | header | type | pipeline | depth
  deriving DecidableEq, Repr

abbrev RespM := Act Site Empty

/-- The two results of a reader, and what it leaves in the stream. -/
abbrev Result := (Bool × Value) × Bytes

/-- `tonumber` of a decimal integer. -/
def toInteger (s : Bytes) : Option Int := (tonumber 10 s).filter fun n => -2^63 ≤ n ∧ n < 2^63

/-- `redcmd[36]`. -/
def readBulk (data s : Bytes) : RespM Result :=
  match toInteger data with
  | none => .fail .assertion .header
  | some n =>
    if n < 0 then pure ((true,.null),s)
    else do
      let (firstline,s) ← takeBytes .socketError (n.toNat + 2) s
      pure ((true,.str (firstline.take (firstline.length - 2))),s)

/-- The loop of `redcmd[42]`. -/
def readEach (f : Bytes → RespM Result) : Nat → Bytes → RespM ((Bool × List Value) × Bytes)
  | 0, s => pure ((true,[]),s)
  | n+1, s => do
    let ((ok,v),s) ← f s
    let ((noerr,bulk),s) ← readEach f n s
    pure ((ok && noerr,v :: bulk),s)

/-- `redcmd[42]`. -/
def readArray (f : Bytes → RespM Result) (data s : Bytes) : RespM Result :=
  match toInteger data with
  | none => .fail .assertion .header
  | some n =>
    if n < 0 then pure ((true,.null),s)
    else do
      let ((noerr,bulk),s) ← readEach f n.toNat s
      pure ((noerr,.table bulk),s)

/-- `redcmd[firstchar](fd,data)`. -/
def redcmd (f : Bytes → RespM Result) (result s : Bytes) : RespM Result :=
  match result with
  | [] => .fail .nullDereference .type
  | firstchar :: data =>
    if firstchar = 36 then readBulk data s
    else if firstchar = 43 then pure ((true,.str data),s)
    else if firstchar = 45 then pure ((false,.str data),s)
    else if firstchar = 58 then pure ((true,(toInteger data).elim .null .int),s)
    else if firstchar = 42 then readArray f data s
    else .fail .nullDereference .type

/-- `depth` bounds how deep arrays are nested. -/
def readResponse : Nat → Bytes → RespM Result
  | 0, _ => .fail .diverges .depth
  | depth+1, s => do
    let (result,s) ← takeLine .socketError s
    redcmd (fun s => readResponse depth s) result s

/-- `string.upper`. -/
def upper (cmd : Bytes) : Bytes := cmd.map fun b => if 97 ≤ b ∧ b ≤ 122 then b - 32 else b

/-- `header_cache[k]`. -/
def headerCache (k : Nat) : Bytes := crlf ++ 36 :: decimal k ++ crlf

/-- `command_cache[cmd]`. -/
def commandCache (cmd : Bytes) : Bytes := crlf ++ 36 :: decimal cmd.length ++ crlf ++ upper cmd

/-- `count_cache[k]`. -/
def countCache (k : Nat) : Bytes := 42 :: decimal k

/-- `command_np_cache[cmd]`. -/
def commandNpCache (cmd : Bytes) : Bytes := countCache 1 ++ commandCache cmd ++ crlf

/-- The arguments of a command, on which `tostring` was called: none, a table of a known length,
in which fields may be `nil`, or a single one. -/
inductive Msg where
  | none
  | table (l : List (Option Bytes))
  | single (s : Bytes)
  deriving DecidableEq, Repr

/-- The lines for an argument in a table. -/
def argument : Option Bytes → List Bytes
  | none => [crlf ++ ascii "$-1"]
  | some v => [headerCache v.length,v]

def composeMessage (cmd : Bytes) : Msg → List Bytes
  | .none => [commandNpCache cmd]
  | .table l => countCache (l.length + 1) :: commandCache cmd :: (l.flatMap argument ++ [crlf])
  | .single msg => [countCache 2,commandCache cmd,headerCache msg.length,msg,crlf]

def composeTable (lines msg : List Bytes) : List Bytes :=
  lines ++ countCache msg.length :: (msg.flatMap fun v => [headerCache v.length,v]) ++ [crlf]

/-- The request of `command:pipeline`. -/
def pipelineRequest (ops : List (List Bytes)) : RespM (List Bytes) :=
  if ops.length > 0 then pure (ops.foldl composeTable []) else .fail .assertion .pipeline

/-- The response function of `command:pipeline` with a table for the responses. -/
def pipelineResponses (depth : Nat) : Nat → Bytes → RespM (List (Bool × Value) × Bytes)
  | 0, s => pure ([],s)
  | n+1, s => do
    let (r,s) ← readResponse depth s
    let (resp,s) ← pipelineResponses depth n s
    pure (r :: resp,s)

/-- The response function without such a table: the last response is returned. -/
def pipelineLast (depth : Nat) : Nat → Bool × Value → Bytes → RespM Result
  | 0, r, s => pure (r,s)
  | n+1, _, s => do
    let (r,s) ← readResponse depth s
    pipelineLast depth n r s

end MyProgram.Redis
