import MyProgram.SkynetGate.Effects
import MyProgram.SkynetGate.Table
import MyProgram.Lib.Runs

/-! Every step of the gate is a step of the switch and keeps the tables in order. -/
namespace MyProgram.SkynetGate
open Lib

/-- A step from `g` ends in a state for `y.1` with the effects `y.2`. -/
def Refines (y : Switch × List Effect) (g' : Gate) (fx : List Effect) : Prop :=
  g'.Inv ∧ g'.switch = y.1 ∧ external fx = y.2

/-- Ids that come from the socket layer are no ids of registered sockets. -/
def Fresh (g : Gate) (x : Input) : Prop :=
  ∀ id ∈ introduced (hashidFull g.hash) x, 0 ≤ id ∧ g.session id = none

instance (g : Gate) (x : Input) : Decidable (Fresh g x) := inferInstanceAs (Decidable (∀ id ∈ _, _))

/-- The computation only writes log lines. -/
abbrev Quiet {α : Type} (x : GateM α) : Prop := x.Ensures (fun e => external [e] = []) (fun _ => True)

theorem Quiet.external {α : Type} {x : GateM α} {a : α} {fx : List Effect} (hq : Quiet x) (h : x = .ok a fx) :
    external fx = [] := by
  have hall := (hq a fx h).2
  clear h
  induction fx with
  | nil => rfl
  | cons e fx ih =>
    rw [← List.singleton_append,external_append,hall e List.mem_cons_self]
    exact ih fun e he => hall e (List.mem_cons_of_mem _ he)

/-- Reading a control message has no effect but log lines. -/
theorem quiet_ctrlParse (msg : Bytes) : Quiet (ctrlParse msg) := by
  apply (logs_ctrlParse msg).mono
  · rintro e ⟨text,rfl⟩
    rfl
  · exact fun _ h => h

variable {g g' : Gate} {x : Input} {fx : List Effect} {id : Int}

theorem gateStep_text {source : UInt32} {msg : Bytes} (hx : x.incoming = .text source msg) :
    gateStep g x = ctrl x.answers g msg source := by
  rw [gateStep,cb,hx]
  cases h : ctrl x.answers g msg source <;> simp [h]

theorem gateStep_socket {message : SocketMessage} (hx : x.incoming = .socket message) :
    gateStep g x = dispatchSocketMessage g message := by
  rw [gateStep,cb,hx]
  cases h : dispatchSocketMessage g message <;> simp [h]

/-- Steps that leave the tables alone. -/
private theorem quiet_refines (h : g.Inv) {y : Switch × List Effect} (hh : g'.hash = g.hash) (hc : g'.conn = g.conn)
    (hm : g'.mp = g.mp) (hx : g'.maxConnection = g.maxConnection) (hs : g'.headerSize = g.headerSize)
    (hy : (⟨g'.listenId,g'.watchdog,g'.broker,g'.clientTag,g'.bind,g.session⟩ : Switch) = y.1) (ho : external fx = y.2) :
    Refines y g' fx := by
  have hsession : g'.session = g.session := by
    funext k
    rw [Gate.session,Gate.session,hh,hc,hm]
  refine ⟨⟨?_,?_,?_,?_,?_,?_⟩,by rw [Gate.switch,hsession,hy],ho⟩
  · rw [hh]; exact h.wf
  · rw [hc,hh]; exact h.length
  · rw [hx,hc]; exact h.max
  · rw [hs]; exact h.headerSize
  · rw [hm,hc]; exact h.sharing
  · rw [hh,hc]; exact h.free

/-- A step that does nothing but write log lines. -/
private theorem refines_self (h : g.Inv) {out : List Effect} (ho : external fx = out) : Refines (g.switch,out) g fx :=
  quiet_refines h rfl rfl rfl rfl rfl rfl ho

private theorem setConn_switch {f : Switch} (h : g'.session = f.session) (h1 : g'.listenId = f.listenId)
    (h2 : g'.watchdog = f.watchdog) (h3 : g'.broker = f.broker) (h4 : g'.clientTag = f.clientTag) (h5 : g'.bind = f.bind) :
    g'.switch = f := by
  rw [Gate.switch,h,h1,h2,h3,h4,h5]

/-- `_forward_agent` redirects the session of a registered socket. -/
theorem forwardAgent_refines (h : g.Inv) (fd : Int) (agent client : UInt32) :
    ∃ g' fx, forwardAgent g fd agent client = .ok g' fx ∧
      Refines (g.switch.set fd ((g.session fd).map fun s => { s with agent, client }),[]) g' fx := by
  rw [forwardAgent]
  rcases h.lookup fd with ⟨s,c,hl,hs,hc,he⟩ | ⟨hl,hs,he⟩
  · obtain ⟨rest,bs,hcar,hset⟩ := h.focus hc
    have hread : g.connAt s = .ok c [] := Act.read_natCast hc
    refine ⟨g.setConn s { c with agent, client },[.error (ascii "_forward_agent id = " ++ signedDecimal s)],?_,?_⟩
    · rw [hl]
      simp [skynetError,hread]
    · obtain ⟨hinv,hses⟩ := hset _ fd { c with agent, client } true bs _ (h.touches_record hs _ g.mp) hcar (fun _ _ => rfl)
      refine ⟨hinv,setConn_switch ?_ rfl rfl rfl rfl rfl,rfl⟩
      rw [he]
      exact hses
  · refine ⟨g,[.error (ascii "_forward_agent id = " ++ signedDecimal (-1))],?_,h,?_,rfl⟩
    · rw [hl]
      simp [skynetError]
    · rw [he,Option.map_none,Switch.set]
      have : Function.update g.session fd none = g.session := by
        rw [← he,Function.update_eq_self]
      simp [Gate.switch,this]

/-- An effect guarded by a lookup is one on the session. -/
private theorem lookup_then (h : g.Inv) (uid : Int) (e : Effect) :
    (do
      let id ← hashidLookup g.hash uid
      if id ≥ 0 then Act.emit e
      pure g : GateM Gate) = .ok g (g.switch.onSession uid e) := by
  rcases h.lookup uid with ⟨s,c,hl,_,_,he⟩ | ⟨hl,_,he⟩
  · rw [hl,Switch.onSession,show g.switch.session uid = g.session uid from rfl,he]
    simp
  · rw [hl,Switch.onSession,show g.switch.session uid = g.session uid from rfl,he]
    simp

/-- The connect command registers the new socket for the service that asked. -/
private theorem connect_refines (h : g.Inv) {answers : Answers} {source : UInt32} {ip : Bytes} {port : Int}
    (hf : hashidFull g.hash = false → 0 ≤ answers.connect ∧ g.session answers.connect = none)
    (he : ctrlRun answers g source (.connect ip port) = .ok g' fx) :
    Refines (g.switch.command (hashidFull g.hash) answers source (.connect ip port)) g' fx := by
  rw [ctrlRun] at he
  rw [Switch.command]
  cases hfull : hashidFull g.hash with
  | true =>
    rw [hfull,if_pos rfl] at he
    cases he
    exact refines_self h rfl
  | false =>
    obtain ⟨h0,hnew⟩ := hf hfull
    rw [hfull,if_neg (by simp)] at he
    simp only [Act.emit_eq,Act.bind_ok] at he
    obtain ⟨fx₁,he₁,rfl⟩ := Act.after_eq_ok.mp he
    obtain ⟨⟨hash,r⟩,fx₂,fx₃,hi,he₂,rfl⟩ := Act.bind_eq_ok.mp he₁
    obtain ⟨s,rfl,rfl,hc,hset⟩ := h.register h0 hnew hi
    obtain ⟨hinv,hses⟩ := hset .cleared rfl
    have hsame : ({ g with hash }.setConn s .cleared) = { g with hash } := by
      obtain ⟨hlt,hc⟩ := List.getElem?_eq_some_iff.mp hc
      rw [Gate.setConn,Int.toNat_natCast,← hc,List.set_getElem_self]
    rw [hsame] at hinv hses
    obtain ⟨g₁,fx₄,ha,hinv₁,hsw,hext⟩ := forwardAgent_refines hinv answers.connect source 0
    rw [ha] at he₂
    simp only [skynetError,Act.emit_eq,Act.bind_ok,Act.pure_eq,Act.after_ok] at he₂
    cases he₂
    refine ⟨hinv₁,?_,by simp [hext]⟩
    rw [hsw,hses,Function.update_self,Switch.set,Gate.switch,hses,Function.update_idem]
    rfl

private theorem listenAddress_silent {addr : Bytes} {r : Bytes × Int × Bytes} (h : listenAddress addr = .ok r fx) : fx = [] := by
  unfold listenAddress at h
  split at h
  · cases h
  · split at h
    · cases h
      rfl
    · dsimp only at h
      split at h
      · cases h
        rfl
      · cases h
        rfl

/-- `start_listen` asks the socket layer for a listener if the address has a port,
and remembers the answer whatever it is. -/
theorem startListen_cases {answer code : Int} {addr addr' : Bytes} (h : startListen answer g addr = .ok (g',addr',code) fx) :
    ∃ host port, listenAddress addr = .ok (host,port,addr') [] ∧
      (port ≤ 0 ∧ g' = g ∧ external fx = [] ∨
        0 < port ∧ g' = { g with listenId := answer } ∧
          external fx = .socketListen host port BACKLOG answer :: if answer < 0 then [] else [.socketStart answer]) := by
  rw [startListen] at h
  obtain ⟨⟨host,port,addr₁⟩,fx₁,fx₂,ha,h₁,rfl⟩ := Act.bind_eq_ok.mp h
  obtain rfl := listenAddress_silent ha
  dsimp only at h₁
  by_cases hp : port ≤ 0
  · rw [if_pos hp] at h₁
    cases h₁
    exact ⟨host,port,ha,.inl ⟨hp,rfl,rfl⟩⟩
  · rw [if_neg hp] at h₁
    simp only [skynetError,Act.emit_eq,Act.bind_ok,Act.pure_eq,Act.after_ok] at h₁
    by_cases hn : answer < 0
    · rw [if_pos hn] at h₁ ⊢
      cases h₁
      exact ⟨host,port,ha,.inr ⟨by omega,rfl,rfl⟩⟩
    · rw [if_neg hn] at h₁ ⊢
      cases h₁
      exact ⟨host,port,ha,.inr ⟨by omega,rfl,rfl⟩⟩

/-- The listen command listens on the stored address. -/
private theorem listen_refines (h : g.Inv) {answers : Answers} {source : UInt32}
    (he : ctrlRun answers g source .listen = .ok g' fx) : Refines (g.switch.listen answers.listen) g' fx := by
  rw [ctrlRun] at he
  obtain ⟨⟨g₁,addr,code⟩,fx₁,fx₂,hs,he₁,rfl⟩ := Act.bind_eq_ok.mp he
  obtain ⟨host,port,ha,hcase⟩ := startListen_cases hs
  cases he₁
  rw [Switch.listen,show g.switch.bind = g.bind from rfl,ha,List.append_nil]
  rcases hcase with ⟨hp,rfl,hext⟩ | ⟨hp,rfl,hext⟩
  · simp only [if_pos hp]
    exact quiet_refines h rfl rfl rfl rfl rfl rfl hext
  · simp only [if_neg (show ¬ port ≤ 0 by omega)]
    exact quiet_refines h rfl rfl rfl rfl rfl rfl hext

theorem ctrlRun_refines (h : g.Inv) {answers : Answers} {source : UInt32} {command : Command}
    (hf : ∀ ip port, command = .connect ip port → hashidFull g.hash = false →
      0 ≤ answers.connect ∧ g.session answers.connect = none)
    (he : ctrlRun answers g source command = .ok g' fx) :
    Refines (g.switch.command (hashidFull g.hash) answers source command) g' fx := by
  cases command with
  | kick uid =>
    have hl := lookup_then h uid (.socketClose uid)
    rw [ctrlRun] at he
    cases hl.symm.trans he
    exact refines_self h (by rw [Switch.onSession]; split <;> rfl)
  | forward id agent client =>
    obtain ⟨g₁,fx₁,ha,hr⟩ := forwardAgent_refines h id agent client
    cases ha.symm.trans he
    exact hr
  | broker name =>
    cases he
    exact quiet_refines h rfl rfl rfl rfl rfl rfl rfl
  | start uid =>
    have hl := lookup_then h uid (.socketStart uid)
    rw [ctrlRun] at he
    cases hl.symm.trans he
    exact refines_self h (by rw [Switch.onSession]; split <;> rfl)
  | close =>
    rw [ctrlRun] at he
    rw [Switch.command,show g.switch.listenId = g.listenId from rfl]
    split at he
    · rename_i h0
      rw [if_pos h0]
      cases he
      exact quiet_refines h rfl rfl rfl rfl rfl rfl rfl
    · rename_i h0
      rw [if_neg h0]
      cases he
      exact refines_self h rfl
  | connect ip port => exact connect_refines h (hf ip port rfl) he
  | listen => exact listen_refines h he
  | empty | forwardIncomplete | unknown =>
    cases he
    exact refines_self h rfl

private theorem external_visible (fx : List Effect) : external fx = external (visible fx) := by
  rw [external,external,visible,List.filter_filter]
  congr 1
  funext e
  cases e <;> rfl

private theorem external_filterMap (f : Switch) (s : Session) (bodies : List Bytes) :
    external (bodies.filterMap (f.message s)) = bodies.filterMap (f.message s) := by
  rw [external,List.filter_eq_self]
  intro e he
  obtain ⟨body,_,hm⟩ := List.mem_filterMap.mp he
  unfold Switch.message at hm
  repeat' split at hm
  all_goals cases hm
  all_goals rfl

private theorem external_rejection (id : Int) (closed : Bool) :
    external (if closed then rejection id else []) = if closed then [.socketClose id] else [] := by
  cases closed <;> rfl

/-- A DATA event always returns and feeds the session of a registered socket. -/
theorem data_returns (h : g.Inv) (id : Int) (buffer : Buffer) :
    ∃ g' fx, dispatchSocketMessage g (.data id buffer) = .ok g' fx ∧ Refines (g.switch.data id buffer.bytes) g' fx ∧
      visible fx = match g.session id with
        | none => [.socketClose id]
        | some s => (s.stream.feed (g.switch.routes s) buffer.bytes).bodies.filterMap (g.switch.message s) ++
          if (s.stream.feed (g.switch.routes s) buffer.bytes).closed then rejection id else [] := by
  rw [Switch.data,show g.switch.session id = g.session id from rfl]
  rcases h.lookup id with ⟨s,c,hl,hs,hc,hses⟩ | ⟨hl,hs,hses⟩
  · have hread : g.connAt s = .ok c [] := Act.read_natCast hc
    obtain ⟨rest,bs,hcar,hset⟩ := h.focus hc
    obtain ⟨db,mp,bs',fx,hd,hleave,_⟩ := dispatchMessage_leaves h.headerSize id buffer hcar
    obtain ⟨hinv,hupd⟩ := hset _ id { c with buffer := db } true bs' _ (h.touches_record hs _ mp) hleave.carries hleave.keeps
    rw [hses]
    refine ⟨{ g with mp }.setConn s { c with buffer := db },fx,?_,⟨hinv,setConn_switch hupd rfl rfl rfl rfl rfl,?_⟩,hleave.out⟩
    · rw [dispatchSocketMessage,hl]
      simp [hread,hd]
    · rw [external_visible,hleave.out,external_append]
      exact congrArg₂ (· ++ ·) (external_filterMap g.switch (sessionOf g.mp c) _) (external_rejection id _)
  · rw [hses]
    refine ⟨g,[.socketClose id,.free buffer],?_,refines_self h rfl,rfl⟩
    rw [dispatchSocketMessage,hl]
    rfl

private theorem report_eq (g : Gate) (text : Bytes) : report g text = .ok () (g.switch.report text) := by
  unfold report Switch.report
  split
  · rename_i h
    rw [if_pos (show g.switch.watchdog = 0 from h)]
    rfl
  · rename_i h
    rw [if_neg (show ¬ g.switch.watchdog = 0 from h)]
    rfl

private theorem external_report (f : Switch) (text : Bytes) : external (f.report text) = f.report text := by
  unfold Switch.report
  split <;> rfl

/-- CLOSE and ERROR events drop the session. -/
private theorem drop_refines (h : g.Inv) (he : dispatchSocketMessage g (.close id) = .ok g' fx) :
    Refines (g.switch.drop id) g' fx := by
  rw [dispatchSocketMessage] at he
  rw [Switch.drop,show g.switch.session id = g.session id from rfl]
  obtain ⟨hash,hr,hm⟩ := h.remove id
  rcases h.lookup id with ⟨s,c,_,hs,hc,hses⟩ | ⟨_,hs,hses⟩
  · rw [hs] at hr hm
    obtain ⟨mp,fx₁,hclear,hvis,hinv,hupd⟩ := hm c hc
    have hread : ({ g with hash }).connAt s = .ok c [] := Act.read_natCast hc
    have hext : external fx₁ = [] := by rw [external_visible,hvis]; rfl
    rw [hr] at he
    simp only [Act.bind_ok,Hashid.ret,ge_iff_le,Int.natCast_nonneg,if_true,hread,skynetError,Act.emit_eq,
      hclear,report_eq,Act.pure_eq,Act.after_ok] at he
    cases he
    rw [hses]
    refine ⟨hinv,setConn_switch hupd rfl rfl rfl rfl rfl,?_⟩
    simp only [external_append,hext,List.append_nil,external_report]
    rfl
  · rw [hs] at hr hm
    rw [hr] at he
    cases hm
    rw [hses]
    cases he
    exact refines_self h rfl

/-- An ACCEPT event registers the new socket unless the table is full. -/
private theorem accept_refines (h : g.Inv) {mid ud : Int} {name : Bytes}
    (hf : hashidFull g.hash = false → 0 ≤ ud ∧ g.session ud = none)
    (he : dispatchSocketMessage g (.accept mid ud name) = .ok g' fx) :
    Refines (g.switch.socket (hashidFull g.hash) (.accept mid ud name)) g' fx := by
  rw [dispatchSocketMessage] at he
  rw [Switch.socket]
  split at he
  · cases hfull : hashidFull g.hash with
    | true =>
      rw [hfull,if_pos rfl] at he
      cases he
      exact refines_self h rfl
    | false =>
      obtain ⟨h0,hnew⟩ := hf hfull
      rw [hfull,if_neg (by simp)] at he
      obtain ⟨⟨hash,r⟩,fx₁,fx₂,hi,he₁,rfl⟩ := Act.bind_eq_ok.mp he
      obtain ⟨s,rfl,rfl,hc,hset⟩ := h.register h0 hnew hi
      have hread : ({ g with hash }).connAt s = .ok .cleared [] := Act.read_natCast hc
      simp only [hread,Act.bind_ok,skynetError,Act.emit_eq,report_eq,Act.pure_eq,Act.after_ok] at he₁
      cases he₁
      obtain ⟨hinv,hupd⟩ := hset { Connection.cleared with id := ud, remoteName := name.take 31 } rfl
      refine ⟨hinv,setConn_switch hupd rfl rfl rfl rfl rfl,?_⟩
      simp only [external_append,external_report,external_error,external_nil,List.nil_append,List.append_nil]
      rfl
  · cases he

private theorem socket_refines (h : g.Inv) {message : SocketMessage}
    (hf : ∀ mid ud name, message = .accept mid ud name → hashidFull g.hash = false → 0 ≤ ud ∧ g.session ud = none)
    (he : dispatchSocketMessage g message = .ok g' fx) :
    Refines (g.switch.socket (hashidFull g.hash) message) g' fx := by
  cases message with
  | data id buffer =>
    obtain ⟨g₁,fx₁,hd,hr,_⟩ := data_returns h id buffer
    cases hd.symm.trans he
    exact hr
  | connect id =>
    rw [dispatchSocketMessage] at he
    rw [Switch.socket,show g.switch.listenId = g.listenId from rfl,show g.switch.session id = g.session id from rfl]
    split at he
    · rename_i hid
      rw [if_pos hid]
      cases he
      exact refines_self h rfl
    · rename_i hid
      rw [if_neg hid]
      rcases h.lookup id with ⟨s,c,hl,_,hc,hses⟩ | ⟨hl,_,hses⟩
      · have hread : g.connAt s = .ok c [] := Act.read_natCast hc
        have hneg : ¬ ((s : Nat) : Int) < 0 := by omega
        rw [hl] at he
        simp only [Act.bind_ok,hneg,if_false,hread,skynetSend,Act.emit_eq,Act.pure_eq,Act.after_ok] at he
        cases he
        rw [hses]
        exact refines_self h rfl
      · rw [hl] at he
        rw [hses]
        cases he
        exact refines_self h rfl
  | close id => exact drop_refines h he
  | error id => exact drop_refines h he
  | accept mid ud name => exact accept_refines h (hf mid ud name rfl) he
  | warning id ud =>
    cases he
    exact refines_self h rfl
  | udp id =>
    cases he
    exact refines_self h rfl

private theorem client_refines (h : g.Inv) {source : UInt32} {msg : Bytes} {code : Int}
    (he : clientMessage g source msg = .ok code fx) : external fx = g.switch.client msg := by
  rw [clientMessage] at he
  rw [Switch.client]
  split at he
  · rename_i hlen
    rw [if_pos hlen]
    cases he
    rfl
  · rename_i hlen
    rw [if_neg hlen,Switch.onSession]
    dsimp only at he ⊢
    generalize wrap32 (ofBytes (msg.drop (msg.length - 4)).reverse) = uid at *
    rw [show g.switch.session uid = g.session uid from rfl]
    rcases h.lookup uid with ⟨s,c,hl,_,_,hses⟩ | ⟨hl,_,hses⟩
    · rw [hl] at he
      rw [hses]
      cases he
      rfl
    · rw [hl] at he
      rw [hses]
      cases he
      rfl

/-- One step of the gate is one step of the switch. -/
theorem gateStep_refines (h : g.Inv) (hf : Fresh g x) (he : gateStep g x = .ok g' fx) :
    Refines (g.switch.step (hashidFull g.hash) x) g' fx := by
  rw [Switch.step]
  cases hx : x.incoming with
  | text source msg =>
    rw [gateStep_text hx,ctrl] at he
    obtain ⟨command,fx₁,fx₂,hp,hr,rfl⟩ := Act.bind_eq_ok.mp he
    have hq := (quiet_ctrlParse msg).external hp
    have href := ctrlRun_refines h (fun ip port hc hfull => hf _ (by
      subst hc
      simp [introduced,hfull,hx,hp])) hr
    simp only [hp]
    exact ⟨href.1,href.2.1,by rw [external_append,hq,List.nil_append,href.2.2]⟩
  | client source msg =>
    rw [gateStep,cb,hx] at he
    obtain ⟨⟨g₁,code⟩,fx₁,fx₂,hc,hr,rfl⟩ := Act.bind_eq_ok.mp he
    obtain ⟨code',fx₃,fx₄,hc',hr',rfl⟩ := Act.bind_eq_ok.mp hc
    cases hr
    cases hr'
    have hext := client_refines h hc'
    exact refines_self h (by simpa using hext)
  | socket message =>
    rw [gateStep_socket hx] at he
    refine socket_refines h (fun mid ud name hm hfull => hf _ ?_) he
    subst hm
    simp [introduced,hfull,hx]
  | other =>
    rw [gateStep,cb,hx] at he
    cases he
    exact refines_self h rfl

/-- `gate_init` returned with the gate `g` for the parameter string `parm`. -/
def Started (setup : Setup) (parm : Bytes) (g : Gate) : Prop :=
  ∃ code fx, gateInit setup gateCreate (some parm) = .ok (g,code) fx

theorem Started.unique {setup : Setup} {parm : Bytes} (h : Started setup parm g) (h' : Started setup parm g') : g = g' := by
  obtain ⟨code,fx,he⟩ := h
  obtain ⟨code',fx',he'⟩ := h'
  rw [he] at he'
  cases he'
  rfl

/-- `gate_init` leaves empty tables, and no listener or the one it asked for. -/
theorem gateInit_spec {setup : Setup} {parm : Bytes} {code : Int} (h : gateInit setup gateCreate (some parm) = .ok (g,code) fx) :
    g.Inv ∧ (∀ id, g.session id = none) ∧
      (g.listenId = -1 ∧ external fx = [] ∨
        ∃ host port, g.listenId = setup.listen ∧ external fx =
          .socketListen host port BACKLOG setup.listen :: if setup.listen < 0 then [] else [.socketStart setup.listen]) := by
  rw [gateInit] at h
  dsimp only at h
  obtain ⟨hash,fx₁,fx₂,hi,h₁,rfl⟩ := Act.bind_eq_ok.mp h
  obtain ⟨hw,h0,hcap,hfree,rfl⟩ := Hashid.init_spec hi
  have hlen : hash.id.length = (atoi setup.maxOnline).toNat := by
    have := hw.cap
    omega
  have hslot (id : Int) : hash.slot id = none := by
    rw [hw.slot_eq_none]
    by_cases h1 : id = -1
    · exact .inl h1
    · refine .inr fun s hs => ?_
      have hlt := Hashid.idAt_lt hs
      rw [hfree s (by omega)] at hs
      exact h1 (Option.some.inj hs).symm
  have hinv (g' : Gate) (hh : g'.hash = hash) (hc : g'.conn = List.replicate (atoi setup.maxOnline).toNat .cleared)
      (hm : g'.maxConnection = atoi setup.maxOnline) (hs : g'.headerSize = 4) (hp : g'.mp = .zero) :
      g'.Inv ∧ ∀ id, g'.session id = none := by
    refine ⟨⟨by rwa [hh],?_,?_,hs,?_,fun s hs => ?_⟩,fun id => ?_⟩
    · rw [hc,hh,hlen,List.length_replicate]
    · rw [hm,hc,List.length_replicate]
      omega
    · rw [hp,hc,List.map_replicate]
      exact Sharing.zero _
    · rw [hh] at hs
      have hlt := Hashid.idAt_lt hs
      rw [hc,List.getElem?_replicate_of_lt (by omega)]
    · rw [Gate.session,hh,hslot]
      rfl
  split at h₁
  · cases h₁
  · rename_i first word hb
    split at h₁
    · cases h₁
      exact and_assoc.mp ⟨hinv _ rfl rfl rfl rfl rfl,.inl ⟨rfl,rfl⟩⟩
    · split at h₁
      · cases h₁
      · obtain ⟨⟨g₁,addr,code₁⟩,fx₃,fx₄,hs,h₂,rfl⟩ := Act.bind_eq_ok.mp h₁
        cases h₂
        obtain ⟨host,port,_,⟨_,rfl,hext⟩ | ⟨_,rfl,hext⟩⟩ := startListen_cases hs
        · exact and_assoc.mp ⟨hinv _ rfl rfl rfl rfl rfl,.inl ⟨rfl,by simpa using hext⟩⟩
        · exact and_assoc.mp ⟨hinv _ rfl rfl rfl rfl rfl,.inr ⟨host,port,rfl,by simpa using hext⟩⟩

variable {setup : Setup} {parm : Bytes} {g₀ : Gate} {tr : Trace Input Effect} {guard : Trace Input Effect → Gate → Input → Prop}

/-- The tables are in order along every run with fresh ids. -/
theorem gateRun_inv (hs : Started setup parm g₀) (hg : ∀ tr g x, guard tr g x → Fresh g x)
    (hr : Run gateStep guard g₀ tr g) : g.Inv := by
  obtain ⟨code,fx,hi⟩ := hs
  refine hr.invariant (fun _ g => g.Inv) (gateInit_spec hi).1 ?_
  intro tr g x g' fx h hk he
  exact (gateStep_refines h (hg tr g x hk) he).1

/-- A property of the switch that no step breaks. The guard sees the gate, the steps
are those of the switch. -/
theorem gateRun_switch (hs : Started setup parm g₀) (hg : ∀ tr g x, guard tr g x → Fresh g x)
    (P : Trace Input Effect → Switch → Prop) (h0 : P [] g₀.switch)
    (hstep : ∀ tr g x fx, g.Inv → guard tr g x → P tr g.switch → external fx = (g.switch.step (hashidFull g.hash) x).2 →
      P (tr ++ [(x,fx)]) (g.switch.step (hashidFull g.hash) x).1)
    (hr : Run gateStep guard g₀ tr g) : P tr g.switch := by
  obtain ⟨code,fx,hi⟩ := hs
  have h := hr.invariant (fun tr g => g.Inv ∧ P tr g.switch) ⟨(gateInit_spec hi).1,h0⟩ (fun tr g x g' fx h hk he => by
    obtain ⟨hinv,hsw,hext⟩ := gateStep_refines h.1 (hg tr g x hk) he
    refine ⟨hinv,?_⟩
    rw [hsw]
    exact hstep tr g x fx h.1 hk h.2 hext)
  exact h.2

/-- A start and a run that can be executed. -/
theorem gateRun_of_start (guard : List Effect → Trace Input Effect → Gate → Input → Prop)
    [∀ fx tr g x, Decidable (guard fx tr g x)] (p : List Effect → Trace Input Effect → Gate → Prop)
    [∀ fx tr g, Decidable (p fx tr g)] (setup : Setup) (parm : Bytes) (inputs : List Input)
    (h : (gateInit setup gateCreate (some parm)).holds
      (fun r fx => runCheck gateStep (guard fx) (p fx) inputs [] r.1) = true) :
    ∃ g₀ code fx tr g, gateInit setup gateCreate (some parm) = .ok (g₀,code) fx ∧
      Run gateStep (guard fx) g₀ tr g ∧ tr.map (·.1) = inputs ∧ p fx tr g := by
  obtain ⟨⟨g₀,code⟩,fx,tr,g,hi,hr,hm,hp⟩ := Run.of_start (fun (r : Gate × Int) _ => r.1) guard p inputs h
  exact ⟨g₀,code,fx,tr,g,hi,hr,hm,hp⟩

end MyProgram.SkynetGate
