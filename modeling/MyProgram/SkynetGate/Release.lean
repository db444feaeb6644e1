import MyProgram.SkynetGate.Listening

/-! Which sockets are still open when the gate is released, and which of them
`gate_release` closes. -/
namespace MyProgram.SkynetGate
open Lib

/-- The sockets from connect calls that succeeded. -/
def connectsOf (fx : List Effect) : List Int :=
  fx.filterMap fun
    | .socketConnect _ _ answer => if 0 ≤ answer then some answer else none
    | _ => none

/-- The sockets that a step accepted or opened. -/
def openedBy (e : Input × List Effect) : List Int :=
  (match e.1.incoming with
    | .socket (.accept _ ud _) => [ud]
    | _ => []) ++ listenersOf e.2 ++ connectsOf e.2

/-- The sockets of a run whose start had the effects `fx` that nobody asked to close
and no event reported closed. -/
def openSockets (fx : List Effect) (tr : Trace Input Effect) : List Int :=
  tr.foldl (fun ids e => stillOpen ids (openedBy e) e) (listenersOf fx)

/-- Ids are fresh, a connect command meets a full table, and a listen command no open
listener. -/
def Accounted (fx : List Effect) (tr : Trace Input Effect) (g : Gate) (x : Input) : Prop :=
  AcceptOnly tr g x ∧ (commandOf x = some .listen → relistens g = true → g.listenId ∉ openSockets fx tr)

instance (fx : List Effect) (tr : Trace Input Effect) (g : Gate) (x : Input) : Decidable (Accounted fx tr g x) :=
  inferInstanceAs (Decidable (_ ∧ (_ → _ → _)))

variable {f : Switch} {full : Bool} {x : Input} {fx fx₀ : List Effect} {g g₀ : Gate} {id : Int}

private theorem openSockets_snoc (fx : List Effect) (tr : Trace Input Effect) (e : Input × List Effect) :
    openSockets fx (tr ++ [e]) = stillOpen (openSockets fx tr) (openedBy e) e := by
  rw [openSockets,List.foldl_append]
  rfl

private theorem connectsOf_external (fx : List Effect) : connectsOf fx = connectsOf (external fx) := by
  rw [connectsOf,connectsOf,external,List.filterMap_filter]
  congr 1
  funext e
  cases e <;> rfl

private theorem mem_closedBy_external : id ∈ closedBy (x,external fx) → id ∈ closedBy (x,fx) := by
  simp only [closedBy,external,List.filterMap_filter,List.mem_append,List.mem_filterMap]
  rintro (h | ⟨e,he,hid⟩)
  · exact .inl h
  · refine .inr ⟨e,he,?_⟩
    cases e <;> simp_all

/-- A session ends with the CLOSE or ERROR event of its socket only. -/
private theorem session_kept (hs : (f.session id).isSome) (hc : id ∉ closedBy (x,fx)) :
    ((f.step full x).1.session id).isSome := by
  rw [Switch.step_session]
  cases he : eventOf id full x with
  | none => exact hs
  | some e =>
    cases e with
    | register s => rfl
    | data chunk => simpa [SocketEvent.next] using hs
    | route agent client => simpa [SocketEvent.next] using hs
    | drop =>
      refine absurd ?_ hc
      rcases eventOf_cases he with ⟨_,_,he⟩ | ⟨hx | hx,_⟩ | ⟨_,_,_,_,he⟩ | ⟨_,_,_,_,_,_,_,he⟩ | ⟨_,_,_,_,_,_,_,_,_,he⟩
      · cases he
      · simp [closedBy,hx]
      · simp [closedBy,hx]
      all_goals cases he

private theorem connectsOf_message (s : Session) (bodies : List Bytes) : connectsOf (bodies.filterMap (f.message s)) = [] := by
  rw [connectsOf,List.filterMap_eq_nil_iff]
  intro e he
  obtain ⟨body,_,hm⟩ := List.mem_filterMap.mp he
  unfold Switch.message at hm
  repeat' split at hm
  all_goals cases hm
  all_goals rfl

private theorem connectsOf_report (text : Bytes) : connectsOf (f.report text) = [] := by
  unfold Switch.report
  split <;> rfl

private theorem connectsOf_onSession {e : Effect} (he : connectsOf [e] = []) : connectsOf (f.onSession id e) = [] := by
  unfold Switch.onSession
  split
  · exact he
  · rfl

private theorem connectsOf_socket (message : SocketMessage) : connectsOf (f.socket full message).2 = [] := by
  cases message with
  | data id buffer =>
    rw [Switch.socket,Switch.data]
    split
    · rfl
    · rename_i s _
      have hm := connectsOf_message (f := f) s (s.stream.feed (f.routes s) buffer.bytes).bodies
      rw [connectsOf] at hm ⊢
      rw [List.filterMap_append,hm]
      split <;> rfl
  | connect id =>
    rw [Switch.socket]
    dsimp only
    split
    · rfl
    · split <;> rfl
  | close id | error id =>
    rw [Switch.socket,Switch.drop]
    split
    · rfl
    · exact connectsOf_report _
  | accept mid ud name =>
    rw [Switch.socket]
    split
    · rfl
    · exact connectsOf_report _
  | warning _ _ | udp _ => rfl

/-- Without a connect command in a table with room there is no connect call. -/
private theorem connectsOf_step (h : connecting x → full) : connectsOf (f.step full x).2 = [] := by
  rw [Switch.step]
  cases hx : x.incoming with
  | text source msg =>
    cases hp : ctrlParse msg with
    | fail k s => simp only [hp]; rfl
    | ok command fx =>
      simp only [hp]
      cases command with
      | kick uid | start uid => exact connectsOf_onSession rfl
      | connect ip port =>
        rw [Switch.command,if_pos (h (by simp [connecting,hx,hp]))]
        rfl
      | close =>
        rw [Switch.command]
        split <;> rfl
      | listen =>
        rw [Switch.command,Switch.listen]
        split
        · rfl
        · split
          · rfl
          · simp only
            split <;> rfl
      | forward _ _ _ | broker _ | empty | forwardIncomplete | unknown => rfl
  | client source msg =>
    change connectsOf (f.client msg) = []
    rw [Switch.client]
    split
    · rfl
    · exact connectsOf_onSession rfl
  | socket message => exact connectsOf_socket message
  | other => rfl

/-- A socket that was accepted has a session, or was closed at once. -/
private theorem accepted_kept {mid ud : Int} {name : Bytes} (hx : x.incoming = .socket (.accept mid ud name))
    (hext : external fx = (f.step full x).2) (hc : ud ∉ closedBy (x,fx)) : ((f.step full x).1.session ud).isSome := by
  cases full with
  | true =>
    refine absurd (mem_closedBy_external ?_) hc
    rw [hext,Switch.step,hx]
    simp [Switch.socket,closedBy]
  | false =>
    rw [Switch.step_session,eventOf,hx]
    simp [messageEvent,SocketEvent.next]

theorem releaseLoop_closes (i n : Nat) (h : i + n ≤ g.conn.length) :
    ∃ fx, releaseLoop g i n = .ok () fx ∧
      ∀ j c, i ≤ j → j < i + n → g.conn[j]? = some c → 0 ≤ c.id → .socketClose c.id ∈ fx := by
  induction n generalizing i with
  | zero => exact ⟨[],rfl,fun j c h₁ h₂ => by omega⟩
  | succ n ih =>
    obtain ⟨fx,hrec,hall⟩ := ih (i + 1) (by omega)
    have hlt : i < g.conn.length := by omega
    have hread : g.connAt i = .ok g.conn[i] [] := Act.read_natCast (List.getElem?_eq_getElem hlt)
    refine ⟨(if g.conn[i].id ≥ 0 then [Effect.socketClose g.conn[i].id] else []) ++ fx,?_,fun j c h₁ h₂ hj hc => ?_⟩
    · rw [releaseLoop,hread]
      by_cases h0 : 0 ≤ g.conn[i].id
      · simp [socketClose,hrec,h0]
      · simp [hrec,h0]
    · rcases Nat.eq_or_lt_of_le h₁ with rfl | h₁
      · obtain rfl : g.conn[i] = c := Option.some.inj ((List.getElem?_eq_getElem hlt).symm.trans hj)
        simp [hc]
      · exact List.mem_append_right _ (hall j c h₁ (by omega) hj hc)

/-- `gate_release` closes the listener and every socket that has its id in its record. -/
private theorem release_closes (h : g.Inv) :
    ∃ g' fx, gateRelease g = .ok g' fx ∧ (0 ≤ g.listenId → .socketClose g.listenId ∈ fx) ∧
      ∀ (s : Nat) (c : Connection), g.conn[s]? = some c → 0 ≤ c.id → .socketClose c.id ∈ fx := by
  have hmax : g.maxConnection.toNat = g.conn.length := by rw [h.max,Int.toNat_natCast]
  obtain ⟨fx,hloop,hall⟩ := releaseLoop_closes (g := g) 0 g.conn.length (by omega)
  refine ⟨{ g with mp := messagepoolFree g.mp, hash := hashidClear g.hash, conn := [] },
    fx ++ if g.listenId ≥ 0 then [Effect.socketClose g.listenId] else [],?_,fun h0 => ?_,fun s c hc h0 => ?_⟩
  · rw [gateRelease,hmax,hloop]
    split
    · rfl
    · rfl
  · simp [h0]
  · have hlt := (List.getElem?_eq_some_iff.mp hc).1
    exact List.mem_append_left _ (hall s c (by omega) (by omega) hc h0)

/-- Every open socket is the listener or has a session. -/
private def Covered (g : Gate) (ids : List Int) : Prop :=
  ∀ id ∈ ids, (id = g.listenId ∧ 0 ≤ id) ∨ (g.session id).isSome

private theorem covered_step {tr : Trace Input Effect} {g' : Gate} (h : g.Inv) (hc : Covered g (openSockets fx₀ tr))
    (hk : Accounted fx₀ tr g x) (he : gateStep g x = .ok g' fx) : Covered g' (openSockets fx₀ (tr ++ [(x,fx)])) := by
  obtain ⟨_,hsw,hext⟩ := gateStep_refines h hk.1.1 he
  have hses (A : Int) : g'.session A = (g.switch.step (hashidFull g.hash) x).1.session A := by rw [← hsw]; rfl
  intro id hid
  rw [openSockets_snoc,mem_stillOpen] at hid
  obtain ⟨hid | hid,hnot⟩ := hid
  · rcases hc id hid with ⟨rfl,h0⟩ | hs
    · rcases gateStep_listener he with ⟨hl,_⟩ | ⟨_,_,_,_,hcl⟩ | ⟨hcmd,hr,_⟩
      · exact .inl ⟨hl.symm,h0⟩
      · exact absurd hcl hnot
      · exact absurd hid (hk.2 hcmd hr)
    · right
      rw [hses]
      exact session_kept hs hnot
  · rw [openedBy,connectsOf_external,hext,connectsOf_step hk.1.2,List.append_nil,List.mem_append] at hid
    rcases hid with hid | hid
    · right
      rw [hses]
      split at hid
      · rename_i mid ud name hx
        obtain rfl := List.mem_singleton.mp hid
        exact accepted_kept hx hext hnot
      · cases hid
    · left
      rcases gateStep_listener he with ⟨_,hn⟩ | ⟨_,_,_,hn,_⟩ | ⟨_,_,hl,hn⟩
      · rw [hn] at hid
        cases hid
      · rw [hn] at hid
        cases hid
      · exact ⟨(hn id hid).trans hl.symm,by simpa using (List.mem_filter.mp hid).2⟩

variable {setup : Setup} {parm : Bytes} {code : Int} {tr : Trace Input Effect}

/-- In every run in which no socket comes from a connect command and no listen command
finds a listener open, `gate_release` closes all sockets that are open. -/
theorem release_closes_open (hi : gateInit setup gateCreate (some parm) = .ok (g₀,code) fx)
    (hr : Run gateStep (Accounted fx) g₀ tr g) :
    ∃ g' fx', gateRelease g = .ok g' fx' ∧ ∀ id ∈ openSockets fx tr, .socketClose id ∈ fx' := by
  obtain ⟨hinv₀,hnone,hinit⟩ := gateInit_spec hi
  have h0 : Covered g₀ (listenersOf fx) := by
    intro id hid
    have hge : 0 ≤ id := by simpa using (List.mem_filter.mp hid).2
    rw [listenersOf_external] at hid
    rcases hinit with ⟨_,hext⟩ | ⟨host,port,hl,hext⟩
    · rw [hext] at hid
      cases hid
    · rw [hext] at hid
      refine .inl ⟨?_,hge⟩
      rw [hl]
      split at hid <;> simp_all [listenersOf,Effect.listener]
  have hlab₀ : Labelled g₀.switch := fun id s hs => by
    rw [show g₀.switch.session id = g₀.session id from rfl,hnone id] at hs
    cases hs
  obtain ⟨hinv,hlab,hcov⟩ := hr.invariant (fun tr g => g.Inv ∧ Labelled g.switch ∧ Covered g (openSockets fx tr))
    ⟨hinv₀,hlab₀,h0⟩ (by
      rintro tr g x g' fx' ⟨hinv,hlab,hcov⟩ hk he
      obtain ⟨hinv',hsw,_⟩ := gateStep_refines hinv hk.1.1 he
      refine ⟨hinv',?_,covered_step hinv hcov hk he⟩
      rw [hsw]
      exact labelled_step hlab hk.1.2)
  obtain ⟨g',fx',he,hlis,hrec⟩ := release_closes hinv
  refine ⟨g',fx',he,fun id hid => ?_⟩
  rcases hcov id hid with ⟨rfl,hge⟩ | hs
  · exact hlis hge
  · rcases hinv.lookup id with ⟨s,c,_,hslot,hc,hses⟩ | ⟨_,_,hses⟩
    · have hcid : c.id = id := hlab id _ hses
      obtain ⟨hne,hat⟩ := hinv.wf.slot_eq_some.mp hslot
      have hge := hinv.wf.ids s id hat
      have hclose := hrec s c hc (by omega)
      rwa [hcid] at hclose
    · rw [hses] at hs
      cases hs

theorem release_closes_open_relisten : ∃ g₀ code fx tr g g' fx',
    gateInit twoOnline gateCreate (some (ascii "127.0.0.1:8888 9")) = .ok (g₀,code) fx ∧
    Run gateStep (Accounted fx) g₀ tr g ∧
    tr.map (·.1) = [event (.accept 7 4 []),control "close" (-1),relisten 8,event (.accept 8 5 []),control "kick 4" (-1)] ∧
    openSockets fx tr = [8,5] ∧ gateRelease g = .ok g' fx' ∧ .socketClose 8 ∈ fx' ∧ .socketClose 5 ∈ fx' := by
  obtain ⟨g₀,code,fx,tr,g,hi,hr,hm,hopen⟩ := gateRun_of_start Accounted (fun fx tr _ => openSockets fx tr = [8,5])
    twoOnline (ascii "127.0.0.1:8888 9") [event (.accept 7 4 []),control "close" (-1),relisten 8,event (.accept 8 5 []),
      control "kick 4" (-1)] (by decide)
  obtain ⟨g',fx',he,hall⟩ := release_closes_open hi hr
  rw [hopen] at hall
  exact ⟨g₀,code,fx,tr,g,g',fx',hi,hr,hm,hopen,he,hall 8 (by simp),hall 5 (by simp)⟩

/-- A socket from a connect command stays open. -/
theorem release_leaves_connected_open : ∃ g₀ code fx tr g g' fx',
    gateInit twoOnline gateCreate (some (ascii "127.0.0.1:8888 9")) = .ok (g₀,code) fx ∧
    Run gateStep (fun _ g x => Fresh g x) g₀ tr g ∧ tr.map (·.1) = [control "connect 1.1.1.1 80" 5] ∧
    gateRelease g = .ok g' fx' ∧ 5 ∈ openSockets fx tr ∧ .socketClose 5 ∉ fx' := by
  obtain ⟨g₀,code,fx,tr,g,hi,hr,hm,hp⟩ := gateRun_of_start (fun _ _ g x => Fresh g x)
    (fun fx tr (g : Gate) => (gateRelease g).holds
      (fun _ (fx' : List Effect) => decide (5 ∈ openSockets fx tr ∧ .socketClose 5 ∉ fx')) = true)
    twoOnline (ascii "127.0.0.1:8888 9") [control "connect 1.1.1.1 80" 5] (by decide)
  obtain ⟨g',fx',he,hp⟩ := Act.exists_of_holds hp
  obtain ⟨hopen,hnot⟩ := of_decide_eq_true hp
  exact ⟨g₀,code,fx,tr,g,g',fx',hi,hr,hm,he,hopen,hnot⟩

end MyProgram.SkynetGate
