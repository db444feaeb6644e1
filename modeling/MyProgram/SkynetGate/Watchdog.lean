import MyProgram.SkynetGate.Isolation

/-! What the watchdog (`Watchdog.cpp`) makes of the messages that the gate sends it
about a socket. -/
namespace MyProgram.SkynetGate
open Lib

/-- The field that `strsep(&c, " ")` returns, or nothing when the memory ends before a
blank and before a NUL. -/
def firstField (mem : Bytes) : Option Bytes :=
  if mem.any (fun b => b = 32 || b = 0) then some (mem.takeWhile fun b => b ≠ 32 && b ≠ 0) else none

/-- `Watchdog::watchdog_poll`: the `fd` that it obtains from a message. Other types are
ignored. -/
def watchdogPoll (data : Bytes) (type : Int) : Option Int :=
  if type = PTYPE_TEXT ∨ type = PTYPE_CLIENT then (firstField data).map atoi else none

/-- The type that `skynet_send` delivers is the one it is given without its tags. -/
structure Delivers (deliver : Int → Int) : Prop where
  text : deliver PTYPE_TEXT = PTYPE_TEXT
  client : deliver ((PTYPE_CLIENT.toNat ||| PTYPE_TAG_DONTCOPY : Nat) : Int) = PTYPE_CLIENT

/-- The socket that a step tells the watchdog about: one that is accepted or closed, or
has a frame and neither a broker nor an agent to send it to. -/
def reported (g : Gate) (x : Input) : Option Int :=
  match x.incoming with
  | .socket (.accept _ ud _) => some ud
  | .socket (.close id) | .socket (.error id) => some id
  | .socket (.data id _) => (g.session id).bind fun s => if g.broker = 0 ∧ s.agent = 0 then some id else none
  | _ => none

/-- The input delivers data of a socket. -/
def isData (x : Input) : Bool :=
  match x.incoming with
  | .socket (.data _ _) => true
  | _ => false

variable {f : Switch} {g g' g₀ : Gate} {x : Input} {fx : List Effect} {full : Bool} {fd type session : Int} {msg : Bytes}
  {source destination : UInt32}

/-- A report starts with the NUL of its binary sub type. -/
private theorem poll_report (text : Bytes) : watchdogPoll (toBytes 4 19 ++ text) PTYPE_TEXT = some 0 := by
  have hfield : firstField (toBytes 4 19 ++ text) = some [] := rfl
  rw [watchdogPoll,if_pos (.inl rfl),hfield,Option.map_some]
  decide

private theorem firstField_label (n : Int) (rest : Bytes) : firstField (signedDecimal n ++ 32 :: rest) = some (signedDecimal n) := by
  have hall : ∀ b ∈ signedDecimal n, (b ≠ 32 && b ≠ 0) = true := by
    intro b hb
    have h33 := mem_signedDecimal hb
    have h32 : b ≠ 32 := by rintro rfl; exact absurd h33 (by decide)
    have h0 : b ≠ 0 := by rintro rfl; exact absurd h33 (by decide)
    simp [h32,h0]
  rw [firstField,if_pos (by simp),List.takeWhile_append_of_pos hall]
  simp

private theorem mem_report {text : Bytes} (h : .send source destination type session msg ∈ f.report text) :
    type = PTYPE_TEXT ∧ ∃ text, msg = toBytes 4 19 ++ text := by
  rw [Switch.report] at h
  split at h
  · cases h
  · have h := List.mem_singleton.mp h
    cases h
    exact ⟨rfl,text,rfl⟩

/-- The two kinds of messages in a step that tells the watchdog about a socket. -/
private theorem reported_cases (hr : reported g x = some fd)
    (hm : .send source destination type session msg ∈ (g.switch.step full x).2) :
    (isData x = false ∧ type = PTYPE_TEXT ∧ ∃ text, msg = toBytes 4 19 ++ text) ∨
    (isData x = true ∧ type = g.switch.tag ∧
      ∃ s body, g.session fd = some s ∧ msg = signedDecimal s.label ++ 32 :: body) := by
  rw [Switch.step] at hm
  rw [reported] at hr
  rw [isData]
  cases hx : x.incoming with
  | socket message =>
    rw [hx] at hm hr
    dsimp only at hm
    cases message with
    | accept mid ud name =>
      rw [Switch.socket] at hm
      split at hm
      · simp at hm
      · exact .inl ⟨rfl,mem_report hm⟩
    | close id | error id =>
      rw [Switch.socket,Switch.drop] at hm
      split at hm
      · simp at hm
      · exact .inl ⟨rfl,mem_report hm⟩
    | data id buffer =>
      right
      obtain ⟨s,hs,hr⟩ := Option.bind_eq_some_iff.mp hr
      split at hr
      · rename_i hroute
        have hid := Option.some.inj hr
        subst hid
        rw [Switch.socket,Switch.data,show g.switch.session id = g.session id from rfl,hs] at hm
        obtain ⟨body,_,hbody⟩ : ∃ body ∈ (s.stream.feed (g.switch.routes s) buffer.bytes).bodies,
            g.switch.message s body = some (.send source destination type session msg) := by
          rcases List.mem_append.mp hm with hm | hm
          · exact List.mem_filterMap.mp hm
          · split at hm <;> simp at hm
        have hbroker : ¬g.switch.broker ≠ 0 := not_not.mpr hroute.1
        rw [Switch.message,if_neg hbroker,if_neg (not_not.mpr hroute.2)] at hbody
        split at hbody
        · cases hbody
          exact ⟨rfl,rfl,s,body,hs,by simp⟩
        · cases hbody
      · cases hr
    | connect _ | warning _ _ | udp _ => cases hr
  | text _ _ | client _ _ | other =>
    rw [hx] at hr
    cases hr

/-- A session has the label of its socket, or none. -/
private def LabelledOrUnset (f : Switch) : Prop :=
  f.clientTag = PTYPE_CLIENT ∧ ∀ id s, f.session id = some s → s.label = id ∨ s.label = -1

private theorem labelledOrUnset_step (h : LabelledOrUnset f) : LabelledOrUnset (f.step full x).1 := by
  refine ⟨(step_static f full x).2.1.trans h.1,fun A s hs => ?_⟩
  rw [Switch.step_session] at hs
  cases he : eventOf A full x with
  | none =>
    rw [he] at hs
    exact h.2 A s hs
  | some e =>
    rw [he] at hs
    cases e with
    | register s' =>
      cases hs
      obtain ⟨_,_,rfl | ⟨_,source,rfl⟩⟩ := register_cases he
      · exact .inl rfl
      · exact .inr rfl
    | data chunk | route agent client =>
      obtain ⟨s',hs',rfl⟩ := Option.map_eq_some_iff.mp hs
      exact h.2 A s' hs'
    | drop => cases hs

variable {setup : Setup} {parm : Bytes} {tr : Trace Input Effect} {deliver : Int → Int}

private theorem gateInit_clientTag {code : Int} (h : gateInit setup gateCreate (some parm) = .ok (g,code) fx) :
    g.clientTag = PTYPE_CLIENT := by
  rw [gateInit] at h
  dsimp only at h
  obtain ⟨hash,fx₁,fx₂,_,h₁,rfl⟩ := Act.bind_eq_ok.mp h
  split at h₁
  · cases h₁
  · split at h₁
    · cases h₁
      rfl
    · split at h₁
      · cases h₁
      · obtain ⟨⟨g₁,addr,code₁⟩,fx₃,fx₄,hs,h₂,rfl⟩ := Act.bind_eq_ok.mp h₁
        cases h₂
        obtain ⟨host,port,_,⟨_,rfl,_⟩ | ⟨_,rfl,_⟩⟩ := startListen_cases hs <;> rfl

private theorem labelledOrUnset_run (hs : Started setup parm g₀) (hr : Run gateStep (fun _ g x => Fresh g x) g₀ tr g) :
    LabelledOrUnset g.switch := by
  apply gateRun_switch hs (fun _ _ _ h => h) (fun _ f => LabelledOrUnset f) ?_ ?_ hr
  · obtain ⟨code,fx,hi⟩ := hs
    refine ⟨gateInit_clientTag hi,fun id s h => ?_⟩
    rw [show g₀.switch.session id = g₀.session id from rfl,(gateInit_spec hi).2.1 id] at h
    cases h
  · intro tr g x fx _ _ h _
    exact labelledOrUnset_step h

private theorem mem_external (h : .send source destination type session msg ∈ fx) :
    .send source destination type session msg ∈ external fx := List.mem_filter.mpr ⟨h,rfl⟩

/-- From a message about a socket the watchdog obtains the socket's id exactly when the
message is a frame and the gate has the id in its record, or a report and the id is 0.
Frames come in the gate's own memory, with anything behind them. -/
theorem watchdog_obtains_fd_iff (hd : Delivers deliver) (hs : Started setup parm g₀)
    (hr : Run gateStep (fun _ g x => Fresh g x) g₀ tr g) (hf : Fresh g x) (he : gateStep g x = .ok g' fx)
    (hfd : reported g x = some fd) (h0 : 0 ≤ fd) (h31 : fd < 2^31)
    (hm : .send source g.watchdog type session msg ∈ fx) (tail : Bytes) :
    watchdogPoll (msg ++ tail) (deliver type) = some fd ↔
      if isData x then (g.session fd).map (·.label) = some fd else fd = 0 := by
  obtain ⟨htag,hlabel⟩ := labelledOrUnset_run hs hr
  obtain ⟨_,_,hext⟩ := gateStep_refines (gateRun_inv hs (fun _ _ _ h => h) hr) hf he
  have hm := mem_external hm
  rw [hext] at hm
  rcases reported_cases hfd hm with ⟨hx,rfl,text,rfl⟩ | ⟨hx,rfl,s,body,hses,rfl⟩
  · rw [hx,hd.text,List.append_assoc,poll_report]
    simp [eq_comm]
  · have htype : deliver g.switch.tag = PTYPE_CLIENT := by
      rw [Switch.tag,htag]
      exact hd.client
    have hint : -2^31 ≤ s.label ∧ s.label < 2^31 := by
      rcases hlabel fd s hses with h | h <;> omega
    rw [hx,htype,watchdogPoll,if_pos (.inr rfl),List.append_assoc,List.cons_append,firstField_label,hses,Option.map_some,
      atoi_signedDecimal hint.1 hint.2]
    simp

/-- `skynet_send` keeps the lowest byte of the type. -/
private theorem delivers_byte : Delivers (· % 256) := ⟨rfl,by decide⟩

def frameEvent : Input := event (.data 4 ⟨0,[0,0,0,1,65],by decide⟩)

theorem watchdog_obtains_fd_iff_frame : ∃ g₀ tr g g' fx, Started twoOnline (ascii "127.0.0.1:8888 9") g₀ ∧
    Run gateStep (fun _ g x => Fresh g x) g₀ tr g ∧ tr.map (·.1) = [event (.accept 7 4 [])] ∧
    gateStep g frameEvent = .ok g' fx ∧ .send 0 g.watchdog 0x10003 0 (ascii "4 A") ∈ fx ∧
    watchdogPoll (ascii "4 A" ++ [7]) (0x10003 % 256) = some 4 := by
  obtain ⟨g₀,code,fx₀,tr,g,hi,hr,hm,hf,hrep,hlabel,hstep⟩ := gateRun_of_start (fun _ _ g x => Fresh g x)
    (fun _ _ (g : Gate) => Fresh g frameEvent ∧ reported g frameEvent = some 4 ∧ (g.session 4).map (·.label) = some 4 ∧
      (gateStep g frameEvent).holds (fun _ fx => .send 0 g.watchdog 0x10003 0 (ascii "4 A") ∈ fx) = true)
    twoOnline (ascii "127.0.0.1:8888 9") [event (.accept 7 4 [])] (by decide)
  obtain ⟨g',fx,he,hsend⟩ := Act.exists_of_holds hstep
  have hsend := of_decide_eq_true hsend
  refine ⟨g₀,tr,g,g',fx,⟨code,fx₀,hi⟩,hr,hm,he,hsend,?_⟩
  exact (watchdog_obtains_fd_iff delivers_byte ⟨code,fx₀,hi⟩ hr hf he hrep (by decide) (by decide) hsend [7]).mpr hlabel

/-- The report of an accepted socket is read as one about socket 0. -/
theorem watchdog_misreads_report : ∃ g₀ g' fx msg, Started twoOnline (ascii "127.0.0.1:8888 9") g₀ ∧
    Fresh g₀ (event (.accept 7 4 (ascii "1.2.3.4:5"))) ∧
    gateStep g₀ (event (.accept 7 4 (ascii "1.2.3.4:5"))) = .ok g' fx ∧ .send 0 g₀.watchdog PTYPE_TEXT 0 msg ∈ fx ∧
    ∀ tail, watchdogPoll (msg ++ tail) PTYPE_TEXT = some 0 := by
  obtain ⟨⟨g₀,code⟩,fx₀,hi,hp⟩ := Act.exists_of_holds (x := gateInit twoOnline gateCreate (some (ascii "127.0.0.1:8888 9")))
    (p := fun (r : Gate × Int) _ => decide (Fresh r.1 (event (.accept 7 4 (ascii "1.2.3.4:5")))) &&
      (gateStep r.1 (event (.accept 7 4 (ascii "1.2.3.4:5")))).holds fun _ fx =>
        .send 0 r.1.watchdog PTYPE_TEXT 0 (toBytes 4 19 ++ ascii "gate accept 4 1.2.3.4:5") ∈ fx) (by decide)
  obtain ⟨hf,hstep⟩ := Bool.and_eq_true_iff.mp hp
  obtain ⟨g',fx,he,hsend⟩ := Act.exists_of_holds hstep
  refine ⟨g₀,g',fx,_,⟨code,fx₀,hi⟩,of_decide_eq_true hf,he,of_decide_eq_true hsend,fun tail => ?_⟩
  rw [List.append_assoc]
  exact poll_report _

end MyProgram.SkynetGate
