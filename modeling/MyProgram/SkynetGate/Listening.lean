import MyProgram.SkynetGate.ConnectionTable

/-! The listener of the gate: when the socket layer's ACCEPT events are about it, and
which address it listens on after close and listen commands. -/
namespace MyProgram.SkynetGate
open Lib

/-- The answer to a listen call. -/
def Effect.listener : Effect → Option Int
  | .socketListen _ _ _ answer => some answer
  | _ => none

/-- The computation makes no listen call. -/
abbrev Steady {α : Type} (Q : α → Prop) (x : GateM α) : Prop := x.Ensures (fun e => e.listener = none) Q

section
variable {α : Type} {Q : α → Prop}

private theorem steady_error (text : Bytes) : Steady (fun _ => True) (skynetError text) := .emit rfl

private theorem steady_silent {x : GateM α} (h : Silent x) : Steady (fun _ => True) x := h.mono (fun _ h => h.elim) fun _ h => h

private theorem steady_frees {x : GateM α} (h : Frees Q x) : Steady (fun _ => True) x := by
  apply h.mono
  · rintro e ⟨b,rfl⟩
    rfl
  · exact fun _ _ => trivial

private theorem steady_lookup (hi : Hashid) (id : Int) : Steady (fun _ => True) (hashidLookup hi id) :=
  steady_silent (silent_lookup hi id)

private theorem steady_insert (hi : Hashid) (id : Int) : Steady (fun _ => True) (hashidInsert hi id) :=
  steady_silent (silent_insert hi id)

private theorem steady_read (db : Databuffer) (mp : Messagepool) (sz : Int) :
    Steady (fun _ => True) (databufferRead db mp sz) := steady_frees (frees_databufferRead db mp sz)

private theorem steady_clear (db : Databuffer) (mp : Messagepool) : Steady (fun _ => True) (databufferClear db mp) :=
  steady_frees (frees_databufferClear db mp)

private theorem steady_dispatchMessage (g : Gate) (c : Connection) (mp : Messagepool) (id : Int) (data : Buffer) :
    Steady (fun _ => True) (dispatchMessage g c mp id data) := by
  have hforward (c : Connection) (mp : Messagepool) (size : Int) : Steady (fun _ => True) (forward g c mp size) := by
    refine .ite ?_ (.ite ?_ (.ite ?_ (.pure trivial)))
    all_goals exact .bind (steady_read _ _ _) fun _ _ => .bind (.emit rfl) fun _ _ => .pure trivial
  have hloop (fuel : Nat) (c : Connection) (mp : Messagepool) : Steady (fun _ => True) (dispatchLoop g id fuel c mp) := by
    induction fuel generalizing c mp with
    | zero => exact .fail _ _
    | succ fuel ih =>
      refine .bind (steady_frees (frees_databufferReadheader _ _ _)) fun _ _ => .ite (.pure trivial) (.ite (.ite ?_ ?_) (ih _ _))
      · exact .bind (steady_clear _ _) fun _ _ => .bind (.emit rfl) fun _ _ =>
          .bind (steady_error _) fun _ _ => .pure trivial
      · exact .bind (hforward _ _ _) fun _ _ => ih _ _
  exact .bind ((silent_databufferPush _ _ _).mono (fun _ h => h.elim) fun _ h => h) fun _ _ => hloop _ _ _

variable {g : Gate}

private theorem steady_connAt (g : Gate) (id : Int) : Steady (fun _ => True) (g.connAt id) := .read _ _ _

private theorem steady_report (g : Gate) (text : Bytes) : Steady (fun _ => True) (report g text) :=
  .ite (.pure trivial) (.emit rfl)

private theorem steady_forwardAgent {l : Int} (hl : g.listenId = l) (fd : Int) (agent client : UInt32) :
    Steady (fun g' => g'.listenId = l) (forwardAgent g fd agent client) :=
  .bind (steady_lookup _ _) fun _ _ => .bind (steady_error _) fun _ _ =>
    .ite (.bind (steady_connAt _ _) fun _ _ => .pure hl) (.pure hl)

/-- Socket events make no listen call and leave the listener alone. -/
private theorem steady_socket (message : SocketMessage) :
    Steady (fun g' => g'.listenId = g.listenId) (dispatchSocketMessage g message) := by
  have hdrop (id : Int) : Steady (fun g' => g'.listenId = g.listenId) (dispatchSocketMessage g (.close id)) :=
    .bind (steady_silent (silent_remove _ _)) fun _ _ => .ite (.bind (steady_connAt _ _) fun _ _ => .bind (steady_error _) fun _ _ =>
      .bind (steady_clear _ _) fun _ _ => .bind (steady_report _ _) fun _ _ => .pure rfl) (.pure rfl)
  cases message with
  | data id buffer =>
    refine .bind (steady_lookup _ _) fun _ _ => .ite ?_ ?_
    · exact .bind (steady_connAt _ _) fun _ _ => .bind (steady_dispatchMessage _ _ _ _ _) fun _ _ => .pure rfl
    · exact .bind (.emit rfl) fun _ _ => .bind (.emit rfl) fun _ _ => .pure rfl
  | connect id =>
    refine .ite (.bind (steady_error _) fun _ _ => .pure rfl) (.bind (steady_lookup _ _) fun _ _ => ?_)
    refine .ite (.bind (.emit rfl) fun _ _ => .pure rfl) ?_
    exact .bind (steady_connAt _ _) fun _ _ => .bind (.emit rfl) fun _ _ => .pure rfl
  | close id => exact hdrop id
  | error id => exact hdrop id
  | accept mid ud name =>
    refine .ite (.ite (.bind (.emit rfl) fun _ _ => .pure rfl) ?_) (.fail _ _)
    exact .bind (steady_insert _ _) fun _ _ => .bind (steady_connAt _ _) fun _ _ => .bind (steady_report _ _) fun _ _ =>
      .bind (steady_error _) fun _ _ => .pure rfl
  | warning id ud => exact .bind (steady_error _) fun _ _ => .pure rfl
  | udp id => exact .pure rfl

private theorem steady_client (source : UInt32) (msg : Bytes) : Steady (fun _ => True) (clientMessage g source msg) := by
  refine .ite (.bind (steady_error _) fun _ _ => .pure trivial) (.bind (steady_error _) fun _ _ =>
    .bind (steady_lookup _ _) fun _ _ => .ite ?_ ?_)
  · exact .bind (steady_error _) fun _ _ => .bind (.emit rfl) fun _ _ => .pure trivial
  · exact .bind (steady_error _) fun _ _ => .pure trivial

/-- Neither do commands other than close and listen. -/
private theorem steady_command {answers : Answers} {source : UInt32} {command : Command} (hc : command ≠ .close)
    (hl : command ≠ .listen) : Steady (fun g' => g'.listenId = g.listenId) (ctrlRun answers g source command) := by
  cases command with
  | kick uid | start uid =>
    exact .bind (steady_lookup _ _) fun _ _ => .ite (.bind (.emit rfl) fun _ _ => .pure rfl) (.pure rfl)
  | forward id agent client => exact steady_forwardAgent rfl _ _ _
  | broker name => exact .pure rfl
  | close => exact absurd rfl hc
  | connect ip port =>
    exact .ite (.pure rfl) (.bind (.emit rfl) fun _ _ => .bind (steady_insert _ _) fun _ _ =>
      .bind (steady_forwardAgent rfl _ _ _) fun _ h => .bind (steady_error _) fun _ _ => .pure h)
  | listen => exact absurd rfl hl
  | empty | forwardIncomplete | unknown => exact .pure rfl

end

/-- The command of a control message. -/
def commandOf (x : Input) : Option Command :=
  match x.incoming with
  | .text _ msg => match ctrlParse msg with
    | .ok command _ => some command
    | .fail _ _ => none
  | _ => none

/-- The stored address has a port, so that a listen command calls the socket layer. -/
def relistens (g : Gate) : Bool :=
  match listenAddress g.bind with
  | .ok (_,port,_) _ => 0 < port
  | .fail _ _ => false

/-- The listeners among the sockets that a step opened. -/
def listenersOf (fx : List Effect) : List Int := (fx.filterMap Effect.listener).filter (0 ≤ ·)

/-- The sockets that a step asked to close, or that were reported closed. -/
def closedBy (e : Input × List Effect) : List Int :=
  (match e.1.incoming with
    | .socket (.close id) | .socket (.error id) => [id]
    | _ => []) ++
  e.2.filterMap fun
    | .socketClose id => some id
    | _ => none

/-- What remains open of `ids` after a step that opened `opened`. -/
def stillOpen (ids opened : List Int) (e : Input × List Effect) : List Int :=
  (ids ++ opened).filter fun id => id ∉ closedBy e

variable {g g' : Gate} {x : Input} {fx : List Effect}

private theorem listenersOf_eq_nil (h : ∀ e ∈ fx, e.listener = none) : listenersOf fx = [] := by
  rw [listenersOf,List.filterMap_eq_nil_iff.mpr h]
  rfl

theorem listenersOf_external (fx : List Effect) : listenersOf fx = listenersOf (external fx) := by
  rw [listenersOf,listenersOf,external,List.filterMap_filter]
  congr 2
  funext e
  cases e <;> rfl

/-- What a step can do to the listener: nothing, or give it up in a close command, or
replace it in a listen command. -/
theorem gateStep_listener (h : gateStep g x = .ok g' fx) :
    (g'.listenId = g.listenId ∧ listenersOf fx = []) ∨
    (commandOf x = some .close ∧ 0 ≤ g.listenId ∧ g'.listenId = -1 ∧ listenersOf fx = [] ∧ g.listenId ∈ closedBy (x,fx)) ∨
    (commandOf x = some .listen ∧ relistens g = true ∧ g'.listenId = x.answers.listen ∧
      ∀ id ∈ listenersOf fx, id = x.answers.listen) := by
  have hsteady {y : GateM Gate} {fx : List Effect} (hy : Steady (fun g' => g'.listenId = g.listenId) y) (he : y = .ok g' fx) :
      g'.listenId = g.listenId ∧ listenersOf fx = [] :=
    ⟨(hy g' fx he).1,listenersOf_eq_nil (hy g' fx he).2⟩
  cases hx : x.incoming with
  | text source msg =>
    rw [gateStep_text hx,ctrl] at h
    obtain ⟨command,fx₁,fx₂,hp,hr,rfl⟩ := Act.bind_eq_ok.mp h
    have hcmd : commandOf x = some command := by simp [commandOf,hx,hp]
    have hlis : listenersOf (fx₁ ++ fx₂) = listenersOf fx₂ := by
      rw [listenersOf_external,external_append,(quiet_ctrlParse msg).external hp,List.nil_append,← listenersOf_external]
    rw [hcmd,hlis]
    by_cases hc : command = .close
    · subst hc
      rw [ctrlRun] at hr
      split at hr
      · rename_i h0
        cases hr
        exact .inr (.inl ⟨rfl,h0,rfl,rfl,by simp [closedBy]⟩)
      · cases hr
        exact .inl ⟨rfl,rfl⟩
    by_cases hl : command = .listen
    · subst hl
      rw [ctrlRun] at hr
      obtain ⟨⟨g₁,addr,code⟩,fx₃,fx₄,hs,he,rfl⟩ := Act.bind_eq_ok.mp hr
      cases he
      obtain ⟨host,port,ha,⟨_,rfl,hext⟩ | ⟨hp,rfl,hext⟩⟩ := startListen_cases hs
      · refine .inl ⟨rfl,?_⟩
        rw [List.append_nil,listenersOf_external,hext]
        rfl
      · refine .inr (.inr ⟨rfl,by simp [relistens,ha,hp],rfl,?_⟩)
        rw [List.append_nil,listenersOf_external,hext]
        intro id hid
        split at hid <;> simp_all [listenersOf,Effect.listener]
    · exact .inl (hsteady (steady_command hc hl) hr)
  | socket message =>
    rw [gateStep_socket hx] at h
    exact .inl (hsteady (steady_socket message) h)
  | client source msg =>
    rw [gateStep,cb,hx] at h
    exact .inl (hsteady (.bind (Q := fun (r : Gate × Int) => r.1.listenId = g.listenId)
      (.bind (steady_client source msg) fun _ _ => .pure rfl) fun _ h => .pure h) h)
  | other =>
    rw [gateStep,cb,hx] at h
    cases h
    exact .inl ⟨rfl,rfl⟩

/-- An ACCEPT event of the socket layer: the listener, the new socket and its address. -/
structure Accept where
  listener : Int
  socket : Int
  name : Bytes
  deriving DecidableEq, Repr

def acceptOf (x : Input) : Option Accept :=
  match x.incoming with
  | .socket (.accept mid ud name) => some ⟨mid,ud,name⟩
  | _ => none

/-- The gate with the listeners it opened and has not closed, and the ACCEPT events
that wait for it. -/
structure World where
  gate : Gate
  listeners : List Int
  queue : List Accept

/-- The socket layer queues an ACCEPT event, or the gate handles a message. -/
inductive Move where
  | arrive (a : Accept)
  | handle (x : Input)

def worldStep (w : World) : Move → GateM World
  | .arrive a => pure { w with queue := w.queue ++ [a] }
  | .handle x => match gateStep w.gate x with
    | .ok gate fx => .ok ⟨gate,stillOpen w.listeners (listenersOf fx) (x,fx),
        match acceptOf x with
        | some a => w.queue.erase a
        | none => w.queue⟩ fx
    | .fail kind site => .fail kind site

/-- What the socket layer may do: ACCEPT events come from open listeners, and those
delivered were queued, in any order. -/
def Possible (_ : Trace Move Effect) (w : World) : Move → Prop
  | .arrive a => a.listener ∈ w.listeners
  | .handle x => ∀ a ∈ acceptOf x, a ∈ w.queue

/-- The listener is given up only when no ACCEPT event is queued, and replaced only
when no listener is open besides. -/
def Orderly (tr : Trace Move Effect) (w : World) (m : Move) : Prop :=
  Possible tr w m ∧ match m with
    | .arrive _ => True
    | .handle x => (commandOf x = some .close → 0 ≤ w.gate.listenId → w.queue = []) ∧
      (commandOf x = some .listen → relistens w.gate = true → w.listeners = [] ∧ w.queue = [])

instance (tr : Trace Move Effect) (w : World) (m : Move) : Decidable (Possible tr w m) :=
  match m with
  | .arrive _ => inferInstanceAs (Decidable (_ ∈ _))
  | .handle _ => inferInstanceAs (Decidable (∀ a ∈ _, _))

instance (tr : Trace Move Effect) (w : World) (m : Move) : Decidable (Orderly tr w m) :=
  match m with
  | .arrive _ => inferInstanceAs (Decidable (_ ∧ True))
  | .handle _ => inferInstanceAs (Decidable (_ ∧ (_ → _ → _) ∧ (_ → _ → _)))

/-- Open listeners and queued ACCEPT events are about the gate's listener. -/
private structure Listening (w : World) : Prop where
  listeners : ∀ id ∈ w.listeners, id = w.gate.listenId
  queue : ∀ a ∈ w.queue, a.listener = w.gate.listenId

theorem mem_stillOpen {ids opened : List Int} {e : Input × List Effect} {id : Int} :
    id ∈ stillOpen ids opened e ↔ (id ∈ ids ∨ id ∈ opened) ∧ id ∉ closedBy e := by
  simp [stillOpen,or_and_right]

private theorem listening_step {tr : Trace Move Effect} {w w' : World} {m : Move} (h : Listening w) (hk : Orderly tr w m)
    (he : worldStep w m = .ok w' fx) : Listening w' := by
  cases m with
  | arrive a =>
    cases he
    refine ⟨h.listeners,fun b hb => ?_⟩
    rcases List.mem_append.mp hb with hb | hb
    · exact h.queue b hb
    · rw [List.mem_singleton.mp hb]
      exact h.listeners _ hk.1
  | handle x =>
    rw [worldStep] at he
    split at he
    · rename_i gate fx' hg
      cases he
      have hqueue (b : Accept) (hb : b ∈ match acceptOf x with
          | some a => w.queue.erase a
          | none => w.queue) : b ∈ w.queue := by
        split at hb
        · exact List.mem_of_mem_erase hb
        · exact hb
      rcases gateStep_listener hg with ⟨hl,hn⟩ | ⟨hc,h0,hl,hn,hcl⟩ | ⟨hc,hr,hl,hn⟩
      · refine ⟨fun id hid => ?_,fun b hb => ?_⟩
        · rw [hn] at hid
          obtain ⟨hid | hid,_⟩ := mem_stillOpen.mp hid
          · exact (h.listeners id hid).trans hl.symm
          · cases hid
        · exact (h.queue b (hqueue b hb)).trans hl.symm
      · have hempty := hk.2.1 hc h0
        refine ⟨fun id hid => ?_,fun b hb => ?_⟩
        · rw [hn] at hid
          obtain ⟨hid | hid,hnot⟩ := mem_stillOpen.mp hid
          · rw [h.listeners id hid] at hnot
            exact absurd hcl hnot
          · cases hid
        · have hb := hqueue b hb
          rw [hempty] at hb
          cases hb
      · obtain ⟨hnone,hempty⟩ := hk.2.2 hc hr
        refine ⟨fun id hid => ?_,fun b hb => ?_⟩
        · obtain ⟨hid | hid,_⟩ := mem_stillOpen.mp hid
          · rw [hnone] at hid
            cases hid
          · exact (hn id hid).trans hl.symm
        · have hb := hqueue b hb
          rw [hempty] at hb
          cases hb
    · cases he

/-- In every run in which the gate gives its listener up or replaces it only while no
event of it can be on the way, the assertion holds for every ACCEPT event that waits. -/
theorem accept_assertion_holds {setup : Setup} {parm : Bytes} {g₀ : Gate} {code : Int} {tr : Trace Move Effect} {w : World}
    (hi : gateInit setup gateCreate (some parm) = .ok (g₀,code) fx)
    (hr : Run worldStep Orderly ⟨g₀,listenersOf fx,[]⟩ tr w) : ∀ a ∈ w.queue, w.gate.listenId = a.listener := by
  have h : Listening w := by
    refine hr.invariant (fun _ w => Listening w) ⟨fun id hid => ?_,fun a ha => by cases ha⟩ ?_
    · rw [listenersOf_external] at hid
      rcases (gateInit_spec hi).2.2 with ⟨_,hext⟩ | ⟨host,port,hl,hext⟩
      · rw [hext] at hid
        cases hid
      · rw [hext] at hid
        rw [hl]
        split at hid <;> simp_all [listenersOf,Effect.listener]
    · intro tr w m w' fx h hk he
      exact listening_step h hk he
  exact fun a ha => (h.queue a ha).symm

/-- A listen command, with the answer to its listen call. -/
def relisten (answer : Int) : Input := ⟨⟨answer,-1,0⟩,.text 1 (ascii "listen")⟩

private theorem worldRun_of_start (guard : Trace Move Effect → World → Move → Prop) [∀ tr w m, Decidable (guard tr w m)]
    (p : Trace Move Effect → World → Prop) [∀ tr w, Decidable (p tr w)] (setup : Setup) (parm : Bytes) (moves : List Move)
    (h : (gateInit setup gateCreate (some parm)).holds
      (fun r fx => runCheck worldStep guard p moves [] ⟨r.1,listenersOf fx,[]⟩) = true) :
    ∃ g₀ code fx tr w, gateInit setup gateCreate (some parm) = .ok (g₀,code) fx ∧
      Run worldStep guard ⟨g₀,listenersOf fx,[]⟩ tr w ∧ tr.map (·.1) = moves ∧ p tr w := by
  obtain ⟨⟨g₀,code⟩,fx,tr,w,hi,hr,hm,hp⟩ := Run.of_start (fun (r : Gate × Int) fx => ⟨r.1,listenersOf fx,[]⟩) (fun _ => guard)
    (fun _ => p) moves h
  exact ⟨g₀,code,fx,tr,w,hi,hr,hm,hp⟩

theorem accept_assertion_holds_relisten : ∃ g₀ code fx tr w,
    gateInit twoOnline gateCreate (some (ascii "127.0.0.1:8888 9")) = .ok (g₀,code) fx ∧
    Run worldStep Orderly ⟨g₀,listenersOf fx,[]⟩ tr w ∧
    tr.map (·.1) = [.arrive ⟨7,4,[]⟩,.handle (event (.accept 7 4 [])),.handle (control "close" (-1)),.handle (relisten 8),
      .arrive ⟨8,5,[]⟩] ∧
    w.queue = [⟨8,5,[]⟩] ∧ w.gate.listenId = 8 := by
  obtain ⟨g₀,code,fx,tr,w,hi,hr,hm,hq⟩ := worldRun_of_start Orderly (fun _ (w : World) => w.queue = [⟨8,5,[]⟩]) twoOnline
    (ascii "127.0.0.1:8888 9") [.arrive ⟨7,4,[]⟩,.handle (event (.accept 7 4 [])),.handle (control "close" (-1)),
      .handle (relisten 8),.arrive ⟨8,5,[]⟩] (by decide)
  exact ⟨g₀,code,fx,tr,w,hi,hr,hm,hq,accept_assertion_holds hi hr ⟨8,5,[]⟩ (by simp [hq])⟩

/-- The assertion fails for an ACCEPT event that was queued before the close command. -/
theorem accept_after_close_fails : ∃ g₀ code fx tr w,
    gateInit twoOnline gateCreate (some (ascii "127.0.0.1:8888 9")) = .ok (g₀,code) fx ∧
    Run worldStep Possible ⟨g₀,listenersOf fx,[]⟩ tr w ∧
    tr.map (·.1) = [.arrive ⟨7,4,[]⟩,.handle (control "close" (-1))] ∧
    Possible tr w (.handle (event (.accept 7 4 []))) ∧ w.gate.listenId ≠ 7 ∧
    gateStep w.gate (event (.accept 7 4 [])) = .fail .assertion .accept := by
  obtain ⟨g₀,code,fx,tr,w,hi,hr,hm,hposs,hne,hf⟩ := worldRun_of_start Possible
    (fun tr (w : World) => Possible tr w (.handle (event (.accept 7 4 []))) ∧ w.gate.listenId ≠ 7 ∧
      (gateStep w.gate (event (.accept 7 4 []))).fault = some (.assertion,.accept))
    twoOnline (ascii "127.0.0.1:8888 9") [.arrive ⟨7,4,[]⟩,.handle (control "close" (-1))] (by decide)
  exact ⟨g₀,code,fx,tr,w,hi,hr,hm,hposs,hne,Act.fault_eq_some.mp hf⟩

end MyProgram.SkynetGate
