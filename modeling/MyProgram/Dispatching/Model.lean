import MyProgram.Lib.LuaPattern
import MyProgram.Lib.Assoc
import MyProgram.Lib.Memo
import MyProgram.Protopack.Pack
import Mathlib.Logic.Function.Basic

/-! The message dispatcher (`lua/lib/dispatcher.lua`): handlers by message name, and the
context of the workload log. -/
namespace MyProgram.Dispatching
open Lib LuaPattern

/-- A Lua value that is not nil. The dispatcher does not look into the others. -/
inductive Val (P : Type) where
  | bool (b : Bool) | num (n : Int) | str (s : Bytes) | other (p : P)
  deriving DecidableEq, Repr

variable {F P : Type}

def truthy : Option (Val P) → Bool
  | none => false
  | some (.bool b) => b
  | some _ => true

structure Handler (F P : Type) where
  f : F
  obj : Option (Val P)
  deriving DecidableEq, Repr

/-- The table that `set_yunlog_ctx` gets, known by its reference. -/
structure Context (P : Type) where
  log_address : Option (Val P)
  protobuf : Option (Val P)
  service_name : Option (Val P)
  swtich : Option (Val P)
  deriving DecidableEq, Repr

structure Dispatcher (F P : Type) where
  map : List (Bytes × Handler F P)
  ftable : List (Bytes × F)
  last_name : Bytes
  yunlog_ctx : Option Nat
  deriving DecidableEq, Repr

/-- `M.new`. -/
def Dispatcher.new (ftable : List (Bytes × F)) : Dispatcher F P := ⟨[],ftable,[],none⟩

/-- What the dispatcher does to others: it calls a handler and sends messages. -/
inductive Effect (F P : Type) where
  | call (f : F) (args : List (Option (Val P)))
  | warning (name : Bytes)
  | redirect (source session : Option (Val P)) (data : Bytes)
  | send (address : Option (Val P)) (data : Bytes)
  deriving DecidableEq, Repr

structure World (F P : Type) where
  dispatcher : Dispatcher F P
  contexts : Nat → Context P
  log : List (Effect F P)

/-- The record of one dispatched message. -/
structure SendLog (P : Type) where
  service_name : Option (Val P)
  harborid : Int
  pb_name : Bytes
  time_start_us : Int
  time_end_us : Int

/-- The messages that are encoded. -/
inductive Payload (P : Type) where
  | response (rsp : Option (Val P))
  | workload (send_log : SendLog P)

/-- What surrounds the dispatcher: the handlers, which may change it and the contexts, the
protobuf modules, the clock and the harbor. -/
structure Services (F P : Type) where
  run : F → List (Option (Val P)) → Dispatcher F P → (Nat → Context P) →
    Except LuaError (Option (Val P) × Option (Val P)) × Dispatcher F P × (Nat → Context P)
  protobuf : Option (Val P) → Option (Protopack.Protobuf (Payload P) Unit)
  time_start_us : Int
  time_end_us : Int
  harbor : Int

abbrev Lua (F P α : Type) := Prog (World F P) LuaError α

def emit (e : Effect F P) : Lua F P Unit := Prog.modify fun w => { w with log := w.log ++ [e] }

/-- A field of the dispatcher. -/
def self {α : Type} (p : Dispatcher F P → α) : Lua F P α := Prog.read fun w => .ok (p w.dispatcher)

def setSelf (f : Dispatcher F P → Dispatcher F P) : Lua F P Unit := Prog.modify fun w => { w with dispatcher := f w.dispatcher }

def register (name : Bytes) (f : F) (obj : Option (Val P)) : Lua F P Unit :=
  setSelf fun d => { d with map := assign d.map name (some ⟨f,obj⟩) }

/-- `self.yunlog_ctx.swtich = status`. -/
def setSwtich (status : Option (Val P)) : Lua F P Unit := do
  match ← self (·.yunlog_ctx) with
  | some r => Prog.modify fun w => { w with contexts := Function.update w.contexts r { w.contexts r with swtich := status } }
  | none => Prog.throw "attempt to index a nil value (field 'yunlog_ctx')"

def set_yunlog_ctx (yunlog_ctx : Option Nat) : Lua F P Unit := do
  let status ← Prog.read fun w => .ok (w.dispatcher.yunlog_ctx.bind fun r => (w.contexts r).swtich)
  setSelf fun d => { d with yunlog_ctx }
  if status.isSome then setSwtich status else pure ()

def set_yunlog_switch (status : Option (Val P)) : Lua F P Unit := do
  if (← self (·.yunlog_ctx)).isSome then setSwtich status else pure ()

/-- The last match is the name of the function. -/
def _reg (name : Bytes) (obj : Option (Val P)) : Lua F P (Bool × Option Bytes) := do
  let found ← Prog.read fun _ => gmatch name (ascii "%a+")
  let funcname := found.getLast?
  match ← self fun d => funcname.bind fun i => tableIndex d.ftable i with
  | some f => do
    setSelf fun d => { d with map := assign d.map name (some ⟨f,obj⟩) }
    pure (true,funcname)
  | none => pure (false,funcname)

/-- The loop of `regs` with the names collected so far. -/
def regsLoop (obj : Option (Val P)) : List Bytes → List Bytes → Lua F P (List Bytes)
  | [], client_names => pure client_names
  | v :: names, client_names => do
    let (ret,funcname) ← _reg v obj
    if ret then pure () else emit (.warning v)
    match funcname with
    | none => Prog.throw "bad argument #1 to 'sub' (string expected, got nil)"
    | some funcname => regsLoop obj names (if funcname.take 1 ≠ ascii "i" then client_names ++ [v] else client_names)

def regs (_protobuf : Option (Val P)) (names : List Bytes) (obj : Option (Val P)) : Lua F P Unit := do
  let _ ← regsLoop obj names []
  pure ()

/-- `session > 0`. -/
def positive : Option (Val P) → Except LuaError Bool
  | some (.num n) => .ok (0 < n)
  | some (.str _) => .error "attempt to compare number with string"
  | some (.bool _) => .error "attempt to compare number with boolean"
  | _ => .error "attempt to compare two values"

/-- `"pb." .. name`. -/
def pbName : Option (Val P) → Except LuaError Bytes
  | some (.str s) => .ok (ascii "pb." ++ s)
  | some (.num n) => .ok (ascii "pb." ++ signedDecimal n)
  | some (.bool _) => .error "attempt to concatenate a boolean value (local 'rsp_pb_name')"
  | _ => .error "attempt to concatenate a value (local 'rsp_pb_name')"

/-- `protopack.pack_raw` with the values it gets. -/
def pack_raw (sv : Services F P) (type : Int) (uid : Option (Val P)) (name : Bytes) (msg : Payload P) (protobuf : Option (Val P)) :
    Except LuaError Bytes :=
  match uid, sv.protobuf protobuf with
  | some (.num uid), some pb => Prog.orError "bad argument to 'pack'" (Protopack.packRaw type uid name msg pb none)
  | some (.num _), none => .error "attempt to index a value (local 'protobuf')"
  | _, _ => .error "bad argument to 'pack' (number expected)"

/-- `handler.f` is called. -/
def invoke (sv : Services F P) (f : F) (args : List (Option (Val P))) : Lua F P (Option (Val P) × Option (Val P)) := do
  emit (.call f args)
  fun w => match sv.run f args w.dispatcher w.contexts with
    | (r,dispatcher,contexts) => (r,{ w with dispatcher, contexts })

/-- The answer to a call that expects one. -/
def respond (sv : Services F P) (uid session source protobuf rsp_pb_name rsp : Option (Val P)) : Lua F P Unit := do
  if truthy rsp_pb_name && truthy rsp && truthy session then do
    if ← Prog.read (fun _ => positive session) then do
      let name ← Prog.read fun _ => pbName rsp_pb_name
      let rpc_data ← Prog.read fun _ => pack_raw sv 17 uid name (.response rsp) protobuf
      emit (.redirect source session rpc_data)
    else pure ()
  else pure ()

/-- The record of the message for the workload log, if it is switched on. -/
def postLog (sv : Services F P) (name : Bytes) : Lua F P Unit := do
  match ← Prog.read (fun w => .ok (w.dispatcher.yunlog_ctx.map w.contexts)) with
  | some ctx =>
    if truthy ctx.log_address && truthy ctx.protobuf && (ctx.swtich matches none | some (.bool true)) then do
      let send_log : SendLog P := ⟨ctx.service_name,sv.harbor,name,sv.time_start_us,sv.time_end_us⟩
      let data ← Prog.read fun _ => pack_raw sv 21 (some (.num 0)) (ascii "pb.iPostYunLogWorkload") (.workload send_log) ctx.protobuf
      emit (.send ctx.log_address data)
    else pure ()
  | none => pure ()

def dispatch (sv : Services F P) (uid : Option (Val P)) (name : Bytes) (msg session source protobuf : Option (Val P)) : Lua F P Unit := do
  setSelf fun d => { d with last_name := name }
  match ← self fun d => tableIndex d.map name with
  | none => pure ()
  | some handler => do
    let args := [uid,msg,session,source,protobuf]
    let (rsp_pb_name,rsp) ← invoke sv handler.f (if truthy handler.obj then handler.obj :: args else args)
    respond sv uid session source protobuf rsp_pb_name rsp
    postLog sv name

end MyProgram.Dispatching
