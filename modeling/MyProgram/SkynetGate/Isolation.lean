import MyProgram.SkynetGate.ConnectionTable

/-! What the gate forwards for one socket depends on the events for this socket and
on the broker, whatever the other sockets do. -/
namespace MyProgram.SkynetGate
open Lib

/-- Source, destination and bytes of a message. -/
abbrev Sending := UInt32 × UInt32 × Bytes

def sending : Effect → Option Sending
  | .send source destination _ _ msg => some (source,destination,msg)
  | _ => none

/-- The messages `_forward` sent for the socket `A` in a step. -/
def forwarded (A : Int) (e : Input × List Effect) : List Sending :=
  match e.1.incoming with
  | .socket (.data id _) => if id = A then e.2.filterMap sending else []
  | _ => []

/-- The handle that a broker command sets. -/
def brokerOf (x : Input) : Option UInt32 :=
  match x.incoming with
  | .text _ msg => match ctrlParse msg with
    | .ok (.broker _) _ => some x.answers.queryname
    | _ => none
  | _ => none

/-- The part of the gate that one socket depends on. -/
structure Lane where
  session : Option Session
  broker : UInt32

inductive LaneEvent where
  | socket (e : SocketEvent)
  | broker (handle : UInt32)
  deriving DecidableEq, Repr

/-- The messages for the frames that a chunk completes. -/
def Switch.forwards (f : Switch) (o : Option Session) : SocketEvent → List Sending
  | .data chunk => match o with
    | some s => ((s.stream.feed (f.routes s) chunk).bodies.filterMap (f.message s)).filterMap sending
    | none => []
  | _ => []

def Lane.step (f : Switch) (l : Lane) : LaneEvent → Lane × List Sending
  | .socket e => ({ l with session := e.next { f with broker := l.broker } l.session },
      { f with broker := l.broker }.forwards l.session e)
  | .broker handle => ({ l with broker := handle },[])

/-- The inputs that concern the socket `A`. -/
def view (A : Int) (x : Input) : Option LaneEvent :=
  match brokerOf x with
  | some handle => some (.broker handle)
  | none => (eventOf A false x).map .socket

/-- The input is an ACCEPT event or a connect command that brings up the socket `A`. -/
def admits (A : Int) (x : Input) : Bool :=
  match eventOf A false x with
  | some (.register _) => true
  | _ => false

/-- Ids are fresh, and the table has room whenever the socket `A` comes up. -/
def Admitting (A : Int) (_ : Trace Input Effect) (g : Gate) (x : Input) : Prop :=
  Fresh g x ∧ (admits A x → hashidFull g.hash = false)

instance (A : Int) (tr : Trace Input Effect) (g : Gate) (x : Input) : Decidable (Admitting A tr g x) :=
  inferInstanceAs (Decidable (_ ∧ _))

variable {A : Int} {f : Switch} {full : Bool} {x : Input} {fx : List Effect}

private theorem filterMap_sending (fx : List Effect) : fx.filterMap sending = (external fx).filterMap sending := by
  rw [external,List.filterMap_filter]
  congr 1
  funext e
  cases e <;> rfl

/-- What is forwarded for a socket in a step of the switch. -/
theorem forwarded_eq (h : external fx = (f.step full x).2) :
    forwarded A (x,fx) = match eventOf A full x with
      | some e => f.forwards (f.session A) e
      | none => [] := by
  rw [forwarded,eventOf]
  cases hx : x.incoming with
  | text source msg =>
    simp only
    cases ctrlParse msg with
    | fail k s => rfl
    | ok command fx =>
      cases command with
      | forward id agent client =>
        by_cases hid : id = A <;> simp [commandEvent,hid,Switch.forwards]
      | connect ip port =>
        by_cases hid : full = false ∧ x.answers.connect = A <;> simp [commandEvent,hid,Switch.forwards]
      | kick _ | broker _ | start _ | close | listen | empty | forwardIncomplete | unknown => rfl
  | client source msg => rfl
  | other => rfl
  | socket message =>
    cases message with
    | data id buffer =>
      by_cases hid : id = A
      · subst hid
        simp only [messageEvent,if_true]
        rw [filterMap_sending,h,Switch.step,hx]
        simp only [Switch.socket,Switch.data,Switch.forwards]
        cases f.session id with
        | none => rfl
        | some s =>
          simp only [List.filterMap_append]
          split <;> simp [sending]
      · simp [messageEvent,hid]
    | close id | error id =>
      by_cases hid : id = A <;> simp [messageEvent,hid,Switch.forwards]
    | accept mid ud name =>
      by_cases hid : full = false ∧ ud = A <;> simp [messageEvent,hid,Switch.forwards]
    | connect _ | warning _ _ | udp _ => rfl

/-- A full table makes a difference to sockets that come up only. -/
theorem eventOf_full (h : admits A x → full = false) : eventOf A full x = eventOf A false x := by
  cases full with
  | false => rfl
  | true =>
    have hno : ¬ admits A x := fun ha => by cases h ha
    unfold admits at hno
    revert hno
    unfold eventOf
    cases x.incoming with
    | text source msg =>
      cases hp : ctrlParse msg with
      | fail k s => simp [hp]
      | ok command fx =>
        cases command with
        | connect ip port => by_cases hc : x.answers.connect = A <;> simp [hp,commandEvent,hc]
        | forward _ _ _ | kick _ | broker _ | start _ | close | listen | empty | forwardIncomplete | unknown =>
          simp [hp,commandEvent]
    | socket message =>
      cases message with
      | accept mid ud name => by_cases hc : ud = A <;> simp [messageEvent,hc]
      | data _ _ | close _ | error _ | connect _ | warning _ _ | udp _ => simp [messageEvent]
    | client _ _ | other => simp

private theorem command_static (f : Switch) (full : Bool) (answers : Answers) (source : UInt32) (command : Command) :
    (f.command full answers source command).1.watchdog = f.watchdog ∧
      (f.command full answers source command).1.clientTag = f.clientTag ∧
      ((∀ name, command ≠ .broker name) → (f.command full answers source command).1.broker = f.broker) := by
  cases command with
  | broker name => exact ⟨rfl,rfl,fun h => absurd rfl (h name)⟩
  | close =>
    rw [Switch.command]
    split <;> exact ⟨rfl,rfl,fun _ => rfl⟩
  | connect ip port =>
    rw [Switch.command]
    split <;> exact ⟨rfl,rfl,fun _ => rfl⟩
  | listen =>
    rw [Switch.command,Switch.listen]
    split
    · exact ⟨rfl,rfl,fun _ => rfl⟩
    · split <;> exact ⟨rfl,rfl,fun _ => rfl⟩
  | forward _ _ _ | kick _ | start _ | empty | forwardIncomplete | unknown => exact ⟨rfl,rfl,fun _ => rfl⟩

private theorem socket_static (f : Switch) (full : Bool) (message : SocketMessage) :
    (f.socket full message).1.watchdog = f.watchdog ∧ (f.socket full message).1.clientTag = f.clientTag ∧
      (f.socket full message).1.broker = f.broker := by
  cases message with
  | data id buffer =>
    rw [Switch.socket,Switch.data]
    split <;> exact ⟨rfl,rfl,rfl⟩
  | close id | error id =>
    rw [Switch.socket,Switch.drop]
    split <;> exact ⟨rfl,rfl,rfl⟩
  | accept mid ud name =>
    rw [Switch.socket]
    split <;> exact ⟨rfl,rfl,rfl⟩
  | connect _ | warning _ _ | udp _ => exact ⟨rfl,rfl,rfl⟩

/-- Only broker commands change where frames of all sockets go. -/
theorem step_static (f : Switch) (full : Bool) (x : Input) :
    (f.step full x).1.watchdog = f.watchdog ∧ (f.step full x).1.clientTag = f.clientTag ∧
      (f.step full x).1.broker = (brokerOf x).getD f.broker := by
  rw [Switch.step,brokerOf]
  cases x.incoming with
  | text source msg =>
    cases hp : ctrlParse msg with
    | fail k s => simp [hp]
    | ok command fx =>
      obtain ⟨h1,h2,h3⟩ := command_static f full x.answers source command
      simp only [hp]
      refine ⟨h1,h2,?_⟩
      cases command with
      | broker name => rfl
      | forward _ _ _ | kick _ | start _ | close | connect _ _ | listen | empty | forwardIncomplete | unknown =>
        exact h3 (by simp)
  | socket message => exact socket_static f full message
  | client _ _ | other => exact ⟨rfl,rfl,rfl⟩

private theorem eventOf_broker {handle : UInt32} (h : brokerOf x = some handle) : eventOf A full x = none := by
  unfold brokerOf at h
  unfold eventOf
  cases hx : x.incoming with
  | text source msg =>
    rw [hx] at h
    cases hp : ctrlParse msg with
    | fail k s => simp [hp]
    | ok command fx =>
      cases command with
      | broker name => simp [hp,commandEvent]
      | forward _ _ _ | kick _ | start _ | close | connect _ _ | listen | empty | forwardIncomplete | unknown =>
        simp [hp] at h
  | socket message =>
    rw [hx] at h
    cases h
  | client _ _ | other => rfl

private theorem next_congr {f f' : Switch} (hb : f.broker = f'.broker) (hw : f.watchdog = f'.watchdog) (o : Option Session)
    (e : SocketEvent) : e.next f o = e.next f' o := by
  have hr : f.routes = f'.routes := by
    funext s
    rw [Switch.routes,Switch.routes,hb,hw]
  cases e with
  | data chunk => rw [SocketEvent.next,SocketEvent.next,hr]
  | register _ | route _ _ | drop => rfl

private theorem forwards_congr {f f' : Switch} (hb : f.broker = f'.broker) (hw : f.watchdog = f'.watchdog)
    (ht : f.clientTag = f'.clientTag) (o : Option Session) (e : SocketEvent) : f.forwards o e = f'.forwards o e := by
  have hr : f.routes = f'.routes := by
    funext s
    rw [Switch.routes,Switch.routes,hb,hw]
  have hm : f.message = f'.message := by
    funext s body
    rw [Switch.message,Switch.message,Switch.tag,Switch.tag,hb,hw,ht]
  cases e with
  | data chunk => simp only [Switch.forwards,hr,hm]
  | register _ | route _ _ | drop => rfl

/-- The lane of a socket in a gate that was started as `g₀`. -/
private structure Follows (g₀ : Gate) (A : Int) (g : Gate) (l : Lane) : Prop where
  inv : g.Inv
  session : l.session = g.session A
  broker : l.broker = g.broker
  watchdog : g.watchdog = g₀.watchdog
  clientTag : g.clientTag = g₀.clientTag

variable {setup : Setup} {parm : Bytes} {g₀ g g' g₁ g₂ : Gate} {tr tr₁ tr₂ : Trace Input Effect} {l : Lane}

private theorem follows_step (h : Follows g₀ A g l) (hk : Admitting A tr g x) (he : gateStep g x = .ok g' fx) :
    (∀ k, view A x = some k →
      Follows g₀ A g' (l.step g₀.switch k).1 ∧ forwarded A (x,fx) = (l.step g₀.switch k).2) ∧
    (view A x = none → Follows g₀ A g' l ∧ forwarded A (x,fx) = []) := by
  obtain ⟨hinv,hsw,hext⟩ := gateStep_refines h.inv hk.1 he
  obtain ⟨hw,ht,hb⟩ := step_static g.switch (hashidFull g.hash) x
  have hses := Switch.step_session g.switch (hashidFull g.hash) x A
  have hfor := forwarded_eq (A := A) hext
  rw [eventOf_full hk.2] at hses hfor
  rw [← hsw] at hw ht hb hses
  have hw' : g'.watchdog = g₀.watchdog := hw.trans h.watchdog
  have ht' : g'.clientTag = g₀.clientTag := ht.trans h.clientTag
  rw [view]
  cases hbr : brokerOf x with
  | some handle =>
    rw [hbr] at hb
    rw [eventOf_broker hbr] at hses hfor
    refine ⟨fun k hk => ?_,fun hk => by cases hk⟩
    cases hk
    exact ⟨⟨hinv,h.session.trans hses.symm,hb.symm,hw',ht'⟩,hfor⟩
  | none =>
    rw [hbr] at hb
    cases hev : eventOf A false x with
    | none =>
      rw [hev] at hses hfor
      exact ⟨fun k hk => (by cases hk),
        fun _ => ⟨⟨hinv,h.session.trans hses.symm,h.broker.trans hb.symm,hw',ht'⟩,hfor⟩⟩
    | some e =>
      rw [hev] at hses hfor
      have hbl : g.switch.broker = ({ g₀.switch with broker := l.broker } : Switch).broker := h.broker.symm
      refine ⟨fun k hk => ?_,fun hk => by cases hk⟩
      cases hk
      refine ⟨⟨hinv,?_,h.broker.trans hb.symm,hw',ht'⟩,?_⟩
      · rw [Lane.step,h.session]
        exact (next_congr hbl h.watchdog _ e).symm.trans hses.symm
      · rw [hfor,Lane.step,h.session]
        exact forwards_congr hbl h.watchdog h.clientTag _ e

/-- Two runs from the same start that agree on the events for the socket `A` and on
the broker commands forward the same messages for `A`. -/
theorem forwarding_isolated (A : Int) (hs : Started setup parm g₀) (hr₁ : Run gateStep (Admitting A) g₀ tr₁ g₁)
    (hr₂ : Run gateStep (Admitting A) g₀ tr₂ g₂)
    (hv : tr₁.filterMap (fun e => view A e.1) = tr₂.filterMap (fun e => view A e.1)) :
    tr₁.flatMap (forwarded A) = tr₂.flatMap (forwarded A) := by
  obtain ⟨code,fx,hi⟩ := hs
  have h0 : Follows g₀ A g₀ ⟨g₀.session A,g₀.broker⟩ := ⟨(gateInit_spec hi).1,rfl,rfl,rfl,rfl⟩
  have hproj {tr : Trace Input Effect} {g : Gate} (hr : Run gateStep (Admitting A) g₀ tr g) :
      tr.flatMap (forwarded A) = (replay (Lane.step g₀.switch) ⟨g₀.session A,g₀.broker⟩
        (tr.filterMap fun e => view A e.1)).2 := by
    refine (hr.project (Follows g₀ A) (view A) (forwarded A) (Lane.step g₀.switch) h0 ?_).2
    intro tr g x g' fx l h hk he
    exact follows_step h hk he
  rw [hproj hr₁,hproj hr₂,hv]

/-- The socket 4 alone, with a frame in two chunks. -/
def aloneInputs : List Input :=
  [event (.accept 7 4 []),event (.data 4 ⟨0,[0,0,0,1],by decide⟩),event (.data 4 ⟨1,[5],by decide⟩)]

/-- The same after socket 6 has used its slot, with foreign traffic in between. -/
def crowdedInputs : List Input :=
  [event (.accept 7 6 []),event (.data 6 ⟨2,[0,0,0,9,1],by decide⟩),control "forward 6 :f :0" (-1),event (.close 6),
    event (.accept 7 4 []),event (.data 4 ⟨0,[0,0,0,1],by decide⟩),control "connect 1.1.1.1 80" 3,
    event (.data 3 ⟨3,[0,0,0,1,8],by decide⟩),event (.data 4 ⟨1,[5],by decide⟩)]

private theorem filterMap_view {inputs : List Input} (h : tr.map (·.1) = inputs) :
    tr.filterMap (fun e => view A e.1) = inputs.filterMap (view A) := by
  rw [← h,List.filterMap_map]
  rfl

theorem forwarding_isolated_reused_slot : ∃ g₀ tr₁ g₁ tr₂ g₂, Started twoOnline (ascii "127.0.0.1:8888 9") g₀ ∧
    Run gateStep (Admitting 4) g₀ tr₁ g₁ ∧ tr₁.map (·.1) = aloneInputs ∧
    Run gateStep (Admitting 4) g₀ tr₂ g₂ ∧ tr₂.map (·.1) = crowdedInputs ∧
    tr₁.flatMap (forwarded 4) = [(0,9,ascii "4 " ++ [5])] ∧ tr₂.flatMap (forwarded 4) = [(0,9,ascii "4 " ++ [5])] := by
  obtain ⟨g₀,code,fx,tr₁,g₁,hi,hr₁,hm₁,hp₁⟩ := gateRun_of_start (fun _ => Admitting 4)
    (fun _ tr _ => tr.flatMap (forwarded 4) = [(0,9,ascii "4 " ++ [5])]) twoOnline (ascii "127.0.0.1:8888 9") aloneInputs
    (by decide)
  obtain ⟨g₀',code',fx',tr₂,g₂,hi',hr₂,hm₂,_⟩ := gateRun_of_start (fun _ => Admitting 4) (fun _ _ _ => True) twoOnline
    (ascii "127.0.0.1:8888 9") crowdedInputs (by decide)
  have hs : Started twoOnline (ascii "127.0.0.1:8888 9") g₀ := ⟨code,fx,hi⟩
  obtain rfl := Started.unique ⟨code',fx',hi'⟩ hs
  have hv := (filterMap_view (A := 4) hm₁).trans (Eq.trans (by decide) (filterMap_view (A := 4) hm₂).symm)
  have heq := forwarding_isolated 4 hs hr₁ hr₂ hv
  exact ⟨_,tr₁,g₁,tr₂,g₂,hs,hr₁,hm₁,hr₂,hm₂,hp₁,heq.symm.trans hp₁⟩

end MyProgram.SkynetGate
