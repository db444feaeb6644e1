import MyProgram.Lib.CString
import MyProgram.SkynetLua.Sleepers

/-! The names of unique services: `service/service_mgr.lua`. -/
namespace MyProgram.SkynetLua.ServiceMgr
open Lib

/-- A coroutine with the request it handles. -/
structure Task where
  co : Co
  session : Option Nat
  source : Option Nat
  deriving DecidableEq, Repr

/-- An entry of `service`: a table while nobody knows better, a handle or the text of an error. -/
inductive Entry where
  | querying (launch : Option Task) (queue : List Task)
  | handle (h : Nat)
  | failed (text : Bytes)
  deriving DecidableEq, Repr

/-- What a function of the program returns: a handle or `nil`, or an error. -/
abbrev Result := Except Bytes (Option Nat)

/-- Where a coroutine stands: not in `waitfor`, in the function that launches the service,
or at the `skynet.wait` behind which it reads the entry again. -/
inductive Place where
  | outside
  | launching (name : Bytes)
  | waiting (name : Bytes)
  deriving DecidableEq, Repr

def Place.isWaiting : Place → Bool
  | .waiting _ => true
  | .outside | .launching _ => false

inductive Site where
  | sched (site : SkynetLua.Site)
  | request | call
  deriving DecidableEq, Repr

/-- The scheduler's, the call of a function that launches a service, the end of a call of
`waitfor`, and the error of its last assertion. -/
inductive Effect where
  | sched (e : SkynetLua.Effect)
  | launch (co : Co) (name : Bytes)
  | returned (co : Co) (name : Bytes) (r : Result)
  | assertion (co : Co) (name : Bytes)
  deriving DecidableEq

abbrev MgrM := Act Site Effect

/-- `standalone` is whether the service is `SERVICE` itself. -/
structure Mgr where
  sched : Sched
  service : Bytes → Option Entry
  place : Co → Place
  standalone : Bool

inductive Command where
  | LAUNCH | QUERY | GLAUNCH | GQUERY
  deriving DecidableEq, Repr

/-- A leading `@` is dropped. -/
def readName (serviceName : Bytes) : Bytes := if serviceName.head? = some 64 then serviceName.drop 1 else serviceName

/-- The name in `cmd.LAUNCH` and `cmd.QUERY`. -/
def realName (serviceName subname : Bytes) : Bytes :=
  if readName serviceName = ascii "snaxd" then serviceName ++ ascii "." ++ subname else serviceName

/-- The name in `waitfor_remote`. -/
def remoteName (name subname : Bytes) : Bytes :=
  if name = ascii "snaxd" then ascii "@" ++ name ++ ascii "." ++ subname else ascii "@" ++ name

namespace Command

/-- The name that a command is about. -/
def name (standalone : Bool) (serviceName subname : Bytes) : Command → Bytes
  | .LAUNCH | .QUERY => realName serviceName subname
  | .GLAUNCH | .GQUERY => if standalone then realName (ascii "@" ++ serviceName) subname else remoteName serviceName subname

/-- Whether it brings a function. -/
def func (standalone : Bool) : Command → Bool
  | .LAUNCH | .GLAUNCH => true
  | .QUERY => false
  | .GQUERY => !standalone

end Command

/-- What the scheduler does is done below the table. -/
def below {α : Type} (x : LuaM α) : MgrM α := x.within .sched .sched

/-- The loop of `skynet.wakeup`. -/
def wakeAll (co : Co) : List Co → Sched → LuaM Sched
  | [], s => pure s
  | c :: l, s => do
    let s ← s.perform co (.wakeup (.thread c))
    wakeAll co l s

namespace Mgr

def fresh (standalone : Bool) (session : Nat) (co : Co) : Mgr := ⟨Sched.started session co,fun _ => none,fun _ => .outside,standalone⟩

def setEntry (m : Mgr) (name : Bytes) (e : Option Entry) : Mgr := { m with service := Function.update m.service name e }

def setPlace (m : Mgr) (co : Co) (p : Place) : Mgr := { m with place := Function.update m.place co p }

/-- `skynet.context()`. -/
def context (m : Mgr) (co : Co) : Task := ⟨co,m.sched.sessionCoroutineId.lookup co,m.sched.sessionCoroutineAddress co⟩

def returns (m : Mgr) (co : Co) (name : Bytes) (r : Result) : MgrM Mgr := .ok (m.setPlace co .outside) [.returned co name r]

/-- The end of `waitfor` for a name whose service is not known: the first who brings a function
calls it, all others wait. -/
def join (m : Mgr) (co : Co) (name : Bytes) (func : Bool) (session : Nat) (launch : Option Task) (queue : List Task) : MgrM Mgr :=
  if launch = none ∧ func = true then
    .ok ((m.setEntry name (some (.querying (some (m.context co)) queue))).setPlace co (.launching name)) [.launch co name]
  else do
    let m := m.setEntry name (some (.querying launch (queue ++ [m.context co])))
    let s ← below (m.sched.perform co (.wait session none))
    pure ({ m with sched := s }.setPlace co (.waiting name))

def waitfor (m : Mgr) (co : Co) (name : Bytes) (func : Bool) (session : Nat) : MgrM Mgr :=
  match m.service name with
  | some (.handle h) => m.returns co name (.ok (some h))
  | some (.failed text) => m.returns co name (.error text)
  | none => m.join co name func session none []
  | some (.querying launch queue) => m.join co name func session launch queue

/-- What the entry becomes. -/
def outcome : Result → Option Entry
  | .ok h => h.map .handle
  | .error text => some (.failed text)

/-- `request` behind the call of the function. -/
def request (m : Mgr) (co : Co) (name : Bytes) (r : Result) : MgrM Mgr :=
  match m.service name with
  | some (.querying _ queue) => do
    let m := m.setEntry name (outcome r)
    let s ← below (wakeAll co (queue.map (·.co)) m.sched)
    { m with sched := s }.returns co name r
  | none | some (.handle _) | some (.failed _) => .fail .assertion .request

/-- `waitfor` behind `skynet.wait`. -/
def resumed (m : Mgr) (co : Co) (name : Bytes) : MgrM Mgr :=
  match m.service name with
  | some (.failed text) => m.returns co name (.error text)
  | some (.handle h) => m.returns co name (.ok (some h))
  | none | some (.querying _ _) => .ok (m.setPlace co .outside) [.assertion co name]

end Mgr

/-- A step of the scheduler, a command that a coroutine begins to handle, the end of the
function that launches the service, and the way on behind `skynet.wait`. -/
inductive Event where
  | other (e : SkynetLua.Event)
  | command (cmd : Command) (serviceName subname : Bytes) (session : Nat)
  | launched (r : Result)
  | resumed

/-- The end of a coroutine's main function. -/
def ends : SkynetLua.Event → Bool
  | .finish | .raise _ => true
  | _ => false

namespace Mgr

def step (m : Mgr) : Event → MgrM Mgr
  | .other e => do
    let s ← below (m.sched.step e)
    pure { m with sched := s }
  | .command cmd serviceName subname session =>
    match m.sched.control with
    | .running co => m.waitfor co (cmd.name m.standalone serviceName subname) (cmd.func m.standalone) session
    | .idle | .exited => .fail .assertion .call
  | .launched r =>
    match m.sched.control with
    | .running co =>
      match m.place co with
      | .launching name => m.request co name r
      | .outside | .waiting _ => .fail .assertion .call
    | .idle | .exited => .fail .assertion .call
  | .resumed =>
    match m.sched.control with
    | .running co =>
      match m.place co with
      | .waiting name => m.resumed co name
      | .outside | .launching _ => .fail .assertion .call
    | .idle | .exited => .fail .assertion .call

/-- Whether the coroutine that has the control is at such a place. -/
def runsAt (m : Mgr) (p : Place → Bool) (nobody : Bool) : Bool :=
  match m.sched.control with
  | .running co => p (m.place co)
  | .idle | .exited => nobody

/-- The coroutine that runs is not at `skynet.wait`, and it ends outside of `waitfor`: errors
are caught. -/
def inProgram (m : Mgr) (e : SkynetLua.Event) : Bool :=
  m.runsAt (fun p => if ends e then p = .outside else !p.isWaiting) true

/-- No coroutine is woken from elsewhere while it waits for a service. -/
def unwoken (m : Mgr) : SkynetLua.Event → Bool
  | .wakeup (.thread co) => !(m.place co).isWaiting
  | _ => true

def Allowed (m : Mgr) : Event → Prop
  | .other e => m.sched.Allowed e ∧ m.sched.Orderly e ∧ m.inProgram e = true ∧ m.unwoken e = true
  | .command _ _ _ session => m.sched.FreshSession session ∧ m.runsAt (· = .outside) false = true
  | .launched _ => m.runsAt (fun p => p ≠ .outside && !p.isWaiting) false = true
  | .resumed => m.runsAt Place.isWaiting false = true

instance (m : Mgr) (e : Event) : Decidable (m.Allowed e) :=
  match e with
  | .other e => inferInstanceAs (Decidable (m.sched.Allowed e ∧ m.sched.Orderly e ∧ m.inProgram e = true ∧ m.unwoken e = true))
  | .command _ _ _ session => inferInstanceAs (Decidable (m.sched.FreshSession session ∧ m.runsAt (· = .outside) false = true))
  | .launched _ => inferInstanceAs (Decidable (m.runsAt (fun p => p ≠ .outside && !p.isWaiting) false = true))
  | .resumed => inferInstanceAs (Decidable (m.runsAt Place.isWaiting false = true))

end Mgr
end MyProgram.SkynetLua.ServiceMgr
