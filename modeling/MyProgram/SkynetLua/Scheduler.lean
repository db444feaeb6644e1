import Mathlib.Logic.Function.Basic
import MyProgram.Lib.Act
import MyProgram.Lib.Assoc

/-! The coroutine scheduler of a service: `lualib/skynet.lua`. -/
namespace MyProgram.SkynetLua
open Lib

/-- A coroutine object. -/
abbrev Co := Nat

/-- What a sleeping coroutine is woken by: itself, or a value of the program. -/
inductive Token where
  | thread (co : Co)
  | value (v : Nat)
  deriving DecidableEq, Repr

/-- An entry of `session_id_coroutine`. -/
inductive Slot where
  | thread (co : Co)
  | broken
  deriving DecidableEq, Repr

/-- Where a coroutine stands: not created, created for the fork queue or for a timer,
running, at the yield of `yield_call`, `skynet.sleep` or `skynet.wait`, in the pool,
or closed. -/
inductive Status where
  | unborn
  | ready
  | timer (session : Nat)
  | running
  | call (session : Nat)
  | sleep (session : Nat) (token : Token)
  | wait (session : Nat) (token : Token)
  | pooled
  | dead
  deriving DecidableEq, Repr

/-- The session under which a suspended coroutine is found. -/
def Status.session : Status → Option Nat
  | .timer session | .call session | .sleep session _ | .wait session _ => some session
  | .unborn | .ready | .running | .pooled | .dead => none

/-- Who has the control: the C side between two messages, a coroutine, or nobody behind
`skynet.exit`. -/
inductive Control where
  | idle
  | running (co : Co)
  | exited
  deriving DecidableEq, Repr

/-- What a coroutine is resumed with. -/
inductive Wake where
  | start
  | response (session : Nat)
  | wakeup (session : Nat)
  | failure (session : Nat)
  deriving DecidableEq, Repr

inductive Site where
  | resume | dispatchWakeup | dispatchErrorQueue | coCreate | schedule
  deriving DecidableEq, Repr

/-- What a step does outside the tables. An answer is handed to `c.send`; without success
it is a `PTYPE_ERROR`. -/
inductive Effect where
  | resume (co : Co) (how : Wake)
  | answer (addr session : Nat) (ok : Bool)
  | forgot (addr session : Nat)
  | unknownResponse (session : Nat)
  deriving DecidableEq, Repr

/-- The result of `c.send`: a true value, `false` for a package that is too large, `nil`
without a receiver. -/
inductive Sent where
  | delivered | tooLarge | noReceiver
  deriving DecidableEq, Repr

abbrev LuaM := Act Site Effect

/-- The upvalues of a closure from `skynet.response`; `pack` is set to `nil` by its use. -/
structure Response where
  session : Nat
  addr : Nat
  pack : Bool
  deriving DecidableEq, Repr

/-- The tables of the module, and where its coroutines stand. -/
structure Sched where
  sessionIdCoroutine : Nat → Option Slot
  sessionCoroutineId : List (Co × Nat)
  sessionCoroutineAddress : Co → Option Nat
  unresponse : List (Nat × Nat)
  responses : Nat → Option Response
  wakeupQueue : List Token
  sleepSession : Token → Option Nat
  watchingSession : List (Nat × Nat)
  errorQueue : List Nat
  forkQueue : List Co
  status : Co → Status
  control : Control

namespace Sched

/-- The module after it was loaded. -/
def fresh : Sched where
  sessionIdCoroutine := fun _ => none
  sessionCoroutineId := []
  sessionCoroutineAddress := fun _ => none
  unresponse := []
  responses := fun _ => none
  wakeupQueue := []
  sleepSession := fun _ => none
  watchingSession := []
  errorQueue := []
  forkQueue := []
  status := fun _ => .unborn
  control := .idle

def setSession (s : Sched) (session : Nat) (v : Option Slot) : Sched :=
  { s with sessionIdCoroutine := Function.update s.sessionIdCoroutine session v }

def setStatus (s : Sched) (co : Co) (v : Status) : Sched := { s with status := Function.update s.status co v }

def setSleep (s : Sched) (token : Token) (v : Option Nat) : Sched :=
  { s with sleepSession := Function.update s.sleepSession token v }

def unwatch (s : Sched) (session : Nat) : Sched := { s with watchingSession := assign s.watchingSession session none }

/-- `session_coroutine_id[co] = nil`. -/
def clearId (s : Sched) (co : Co) : Sched := { s with sessionCoroutineId := assign s.sessionCoroutineId co none }

/-- `session_coroutine_id[co] = session` and `session_coroutine_address[co] = source`. -/
def setRequest (s : Sched) (co : Co) (session source : Nat) : Sched := { s with
  sessionCoroutineId := assign s.sessionCoroutineId co (some session)
  sessionCoroutineAddress := Function.update s.sessionCoroutineAddress co (some source) }

/-- A coroutine for a new function: one from the pool or a new one. Which one depends on
what the collector left in the weak table. -/
def coCreate (s : Sched) (co : Co) (v : Status) : LuaM Sched :=
  match s.status co with
  | .unborn | .pooled => pure (s.setStatus co v)
  | _ => .fail .assertion .coCreate

/-- `coroutine_resume`, with what the coroutine does behind its yield before it gets
back to its caller. -/
def coroutineResume (s : Sched) (co : Co) (how : Wake) : LuaM Sched :=
  let run (s : Sched) : LuaM Sched := .ok { s.setStatus co .running with control := .running co } [.resume co how]
  match s.status co with
  | .ready | .timer _ => run s
  | .call session => run (s.unwatch session)
  | .sleep _ token => run (s.setSleep token none)
  | .wait session token => run ((s.setSleep token none).setSession session none)
  | .unborn | .running | .pooled | .dead => .fail .assertion .resume

/-- The loop of `dispatch_message` over the fork queue. -/
def dispatchForks (s : Sched) : LuaM Sched :=
  match s.forkQueue with
  | [] => pure { s with control := .idle }
  | co :: q => { s with forkQueue := q }.coroutineResume co .start

def dispatchErrorQueue (s : Sched) : LuaM Sched :=
  match s.errorQueue with
  | [] => s.dispatchForks
  | session :: q =>
    match s.sessionIdCoroutine session with
    | some (.thread co) => ({ s with errorQueue := q }.setSession session none).coroutineResume co (.failure session)
    | _ => .fail .nullDereference .dispatchErrorQueue

/-- The tokens from the front of the queue that nobody sleeps on are dropped. -/
def dispatchWakeup (s : Sched) : List Token → LuaM Sched
  | [] => { s with wakeupQueue := [] }.dispatchErrorQueue
  | token :: q =>
    match s.sleepSession token with
    | none => s.dispatchWakeup q
    | some session =>
      match s.sessionIdCoroutine session with
      | some (.thread co) =>
        ({ s with wakeupQueue := q }.setSession session (some .broken)).coroutineResume co (.wakeup session)
      | _ => .fail .nullDereference .dispatchWakeup

/-- `suspend` behind `coroutine_yield "SUSPEND"`. -/
def suspend (s : Sched) (co : Co) (v : Status) : LuaM Sched := (s.setStatus co v).dispatchWakeup s.wakeupQueue

def pushFork (s : Sched) (co : Co) : Sched := { s with forkQueue := s.forkQueue ++ [co] }

/-- `pairs` goes through a table in any order. -/
def watched (s : Sched) (source : Nat) : List Nat := (s.watchingSession.filter (·.2 = source)).map (·.1)

/-- What `_error_dispatch` does behind `skynet.ignoreret`; `order` is how `pairs` goes
through the calls to the source. -/
def errorDispatch (s : Sched) (session source : Nat) (order : List Nat) : Sched :=
  if session = 0 then
    { s with unresponse := s.unresponse.filter (·.2 ≠ source), errorQueue := s.errorQueue ++ order }
  else if session ∈ s.watchingSession.map (·.1) then { s with errorQueue := s.errorQueue ++ [session] }
  else s

/-- The request that a coroutine has not answered, with the address it came from. -/
def unanswered (s : Sched) (co : Co) : Option (Nat × Nat) :=
  match s.sessionCoroutineId.lookup co, s.sessionCoroutineAddress co with
  | some session, some addr => if session ≠ 0 then some (addr,session) else none
  | _, _ => none

/-- Both entries of a coroutine are removed. -/
def clearRequest (s : Sched) (co : Co) : Sched :=
  { s.clearId co with sessionCoroutineAddress := Function.update s.sessionCoroutineAddress co none }

/-- The end of the main function in `co_create`, with its warning. -/
def finish (s : Sched) (co : Co) : LuaM Sched := do
  Act.ok () ((s.unanswered co).toList.map fun r => .forgot r.1 r.2)
  (if (s.sessionCoroutineAddress co).isSome then s.clearRequest co else s).suspend co .pooled

/-- `suspend` with an error of the coroutine: the caller gets an error unless it was
answered, an empty function is forked and the error goes up to `dispatch_message`. -/
def suspendError (s : Sched) (co co' : Co) : LuaM Sched := do
  Act.ok () ((s.unanswered co).toList.map fun r => .answer r.1 r.2 false)
  let s ← (s.clearRequest co).coCreate co' .ready
  ((s.pushFork co').setStatus co .dead).dispatchForks

/-- `skynet.ret`. Without a session an error is raised in the coroutine. -/
def ret (s : Sched) (co : Co) (sent : Sent) : LuaM Sched :=
  match s.sessionCoroutineId.lookup co with
  | none => pure s
  | some session => do
    let s := s.clearId co
    if session = 0 then pure s
    else
      match s.sessionCoroutineAddress co, sent with
      | some addr, .delivered => .ok s [.answer addr session true]
      | some addr, .tooLarge => .ok s [.answer addr session false]
      | _, _ => pure s

/-- A new closure, which `unresponse` knows. -/
def addResponse (s : Sched) (r : Nat) (c : Response) : Sched := { s with
  unresponse := assign s.unresponse r (some c.addr)
  responses := Function.update s.responses r (some c) }

/-- `pack = nil` and `unresponse[response] = nil`. -/
def useResponse (s : Sched) (r : Nat) (c : Response) : Sched := { s with
  unresponse := assign s.unresponse r none
  responses := Function.update s.responses r (some { c with pack := false }) }

/-- `skynet.response`. For a message that wants no answer the closure does nothing. -/
def response (s : Sched) (co : Co) (r : Nat) : LuaM Sched :=
  match s.sessionCoroutineId.lookup co, s.sessionCoroutineAddress co with
  | some session, some addr =>
    if session = 0 then pure (s.clearId co) else pure ((s.clearId co).addResponse r ⟨session,addr,true⟩)
  | _, _ => pure s

/-- A call of the closure. Behind the first an error is raised. -/
def respond (s : Sched) (r : Nat) (ok : Bool) (sent : Sent) : LuaM Sched :=
  match s.responses r with
  | none => pure s
  | some c =>
    if c.pack = true then
      match s.unresponse.lookup r, ok, sent with
      | none, _, _ | some _, _, .noReceiver => pure (s.useResponse r c)
      | some _, true, .delivered => .ok (s.useResponse r c) [.answer c.addr c.session true]
      | some _, true, .tooLarge | some _, false, _ => .ok (s.useResponse r c) [.answer c.addr c.session false]
    else pure s

/-- `skynet.exit`: all who wait for an answer get an error, and the suspended coroutines
are closed. -/
def exit (s : Sched) : LuaM Sched :=
  .ok { s with
      forkQueue := []
      unresponse := []
      responses := fun r => if (s.unresponse.lookup r).isSome then (s.responses r).map ({ · with pack := false }) else s.responses r
      status := fun co => if (s.status co).session.bind s.sessionIdCoroutine = some (.thread co) then .dead else s.status co
      control := .exited }
    ((s.sessionCoroutineId.filterMap fun e => if e.2 = 0 then none else
        (s.sessionCoroutineAddress e.1).map fun addr => .answer addr e.2 false) ++
      s.unresponse.filterMap fun e => (s.responses e.1).map fun c => .answer c.addr c.session false)

end Sched

/-- Messages from outside, and what a running coroutine does. Session numbers, coroutines
and closures that a step makes are given with it. -/
inductive Event where
  | response (session : Nat)
  | request (co : Co) (session source : Nat)
  | unknownPrototype (session source : Nat)
  | error (co : Co) (session source : Nat) (order : List Nat)
  | call (session addr : Nat)
  | sleep (session : Nat) (token : Option Token)
  | wait (session : Nat) (token : Option Token)
  | wakeup (token : Token)
  | fork (co' : Co)
  | timeout (session : Nat) (co' : Co)
  | ret (sent : Sent)
  | ignoreret
  | makeResponse (r : Nat)
  | respond (r : Nat) (ok : Bool) (sent : Sent)
  | term (service : Nat) (order : List Nat)
  | finish
  | raise (co' : Co)
  | exit
  deriving DecidableEq, Repr

namespace Sched

/-- `raw_dispatch_message`. -/
def receive (s : Sched) : Event → LuaM Sched
  | .response session =>
    match s.sessionIdCoroutine session with
    | none => .ok s [.unknownResponse session]
    | some .broken => pure (s.setSession session none)
    | some (.thread co) => (s.setSession session none).coroutineResume co (.response session)
  | .request co session source => do
    let s ← s.coCreate co .ready
    (s.setRequest co session source).coroutineResume co .start
  | .unknownPrototype session source => if session ≠ 0 then .ok s [.answer source session false] else pure s
  | .error co session source order => do
    let s ← s.coCreate co .ready
    let s ← (s.setRequest co session source).coroutineResume co .start
    ((s.clearId co).errorDispatch session source order).finish co
  | _ => .fail .assertion .schedule

/-- A call from a coroutine into the module. -/
def perform (s : Sched) (co : Co) : Event → LuaM Sched
  | .call session addr =>
    ({ s with watchingSession := assign s.watchingSession session (some addr) }.setSession session (some (.thread co))).suspend
      co (.call session)
  | .sleep session token =>
    ((s.setSession session (some (.thread co))).setSleep (token.getD (.thread co)) (some session)).suspend co
      (.sleep session (token.getD (.thread co)))
  | .wait session token =>
    ((s.setSession session (some (.thread co))).setSleep (token.getD (.thread co)) (some session)).suspend co
      (.wait session (token.getD (.thread co)))
  | .wakeup token =>
    match s.sleepSession token with
    | some _ => pure { s with wakeupQueue := s.wakeupQueue ++ [token] }
    | none => pure s
  | .fork co' => do
    let s ← s.coCreate co' .ready
    pure (s.pushFork co')
  | .timeout session co' => do
    let s ← s.coCreate co' (.timer session)
    pure (s.setSession session (some (.thread co')))
  | .ret sent => s.ret co sent
  | .ignoreret => pure (s.clearId co)
  | .makeResponse r => s.response co r
  | .respond r ok sent => s.respond r ok sent
  | .term service order => pure ((s.clearId co).errorDispatch 0 service order)
  | .finish => s.finish co
  | .raise co' => s.suspendError co co'
  | .exit => s.exit
  | _ => .fail .assertion .schedule

def step (s : Sched) (e : Event) : LuaM Sched :=
  match s.control with
  | .idle => s.receive e
  | .running co => s.perform co e
  | .exited => pure s

/-- A number that no message is expected under. -/
def FreshSession (s : Sched) (session : Nat) : Prop := session ≠ 0 ∧ s.sessionIdCoroutine session = none

instance (s : Sched) (session : Nat) : Decidable (s.FreshSession session) :=
  inferInstanceAs (Decidable (session ≠ 0 ∧ s.sessionIdCoroutine session = none))

/-- A coroutine that `co_create` can return. -/
def Available (s : Sched) (co : Co) : Prop := s.status co = .unborn ∨ s.status co = .pooled

instance (s : Sched) (co : Co) : Decidable (s.Available co) :=
  inferInstanceAs (Decidable (s.status co = .unborn ∨ s.status co = .pooled))

/-- A coroutine runs and may sleep on the token. -/
def MaySleep (s : Sched) (token : Option Token) : Prop :=
  match s.control with
  | .running co => s.sleepSession (token.getD (.thread co)) = none
  | .idle | .exited => False

instance (s : Sched) (token : Option Token) : Decidable (s.MaySleep token) :=
  match h : s.control with
  | .running co =>
    decidable_of_iff (s.sleepSession (token.getD (.thread co)) = none) (by rw [MaySleep,h])
  | .idle | .exited => isFalse (by rw [MaySleep,h]; exact id)

theorem MaySleep.free {s : Sched} {token : Option Token} {co : Co} (h : s.MaySleep token) (hc : s.control = .running co) :
    s.sleepSession (token.getD (.thread co)) = none := by
  rwa [MaySleep,hc] at h

/-- `order` is one of the orders in which `pairs` goes through the calls to a source. -/
def InSomeOrder (s : Sched) (source : Nat) (order : List Nat) : Prop := order.isPerm (s.watched source) = true

instance (s : Sched) (source : Nat) (order : List Nat) : Decidable (s.InSomeOrder source order) :=
  inferInstanceAs (Decidable (order.isPerm (s.watched source) = true))

/-- What the C side guarantees: the numbers it hands out are not in use. What the program
guarantees: nobody sleeps on a token that is taken, closures are made before their
use, and `skynet.term` is not called while its failures are pending. -/
def Allowed (s : Sched) : Event → Prop
  | .response _ | .unknownPrototype _ _ => s.control = .idle
  | .request co _ _ => s.control = .idle ∧ s.Available co
  | .error co session source order => s.control = .idle ∧ s.Available co ∧ (session = 0 → s.InSomeOrder source order)
  | .call session _ => s.control ≠ .idle ∧ s.FreshSession session
  | .sleep session token | .wait session token => s.FreshSession session ∧ s.MaySleep token
  | .fork co' | .raise co' => s.control ≠ .idle ∧ s.Available co'
  | .timeout session co' => s.control ≠ .idle ∧ s.FreshSession session ∧ s.Available co'
  | .makeResponse r => s.control ≠ .idle ∧ s.responses r = none
  | .term service order => s.control ≠ .idle ∧ s.InSomeOrder service order ∧ ∀ session ∈ s.errorQueue, session ∉ order
  | .wakeup _ | .ret _ | .ignoreret | .respond _ _ _ | .finish | .exit => s.control ≠ .idle

instance (s : Sched) (e : Event) : Decidable (s.Allowed e) :=
  match e with
  | .response _ | .unknownPrototype _ _ => inferInstanceAs (Decidable (s.control = .idle))
  | .request co _ _ => inferInstanceAs (Decidable (s.control = .idle ∧ s.Available co))
  | .error co session source order =>
    inferInstanceAs (Decidable (s.control = .idle ∧ s.Available co ∧ (session = 0 → s.InSomeOrder source order)))
  | .call session _ => inferInstanceAs (Decidable (s.control ≠ .idle ∧ s.FreshSession session))
  | .sleep session token | .wait session token => inferInstanceAs (Decidable (s.FreshSession session ∧ s.MaySleep token))
  | .fork co' | .raise co' => inferInstanceAs (Decidable (s.control ≠ .idle ∧ s.Available co'))
  | .timeout session co' => inferInstanceAs (Decidable (s.control ≠ .idle ∧ s.FreshSession session ∧ s.Available co'))
  | .makeResponse r => inferInstanceAs (Decidable (s.control ≠ .idle ∧ s.responses r = none))
  | .term service order =>
    inferInstanceAs (Decidable (s.control ≠ .idle ∧ s.InSomeOrder service order ∧ ∀ session ∈ s.errorQueue, session ∉ order))
  | .wakeup _ | .ret _ | .ignoreret | .respond _ _ _ | .finish | .exit => inferInstanceAs (Decidable (s.control ≠ .idle))

end Sched
end MyProgram.SkynetLua
