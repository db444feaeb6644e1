import MyProgram.SkynetGate.GateRefinement

/-! Agreement of the hash and the connection records over whole runs, and the
survival of the hash. -/
namespace MyProgram.SkynetGate
open Lib

/-- The input is a connect command. -/
def connecting (x : Input) : Bool :=
  match x.incoming with
  | .text _ msg => match ctrlParse msg with
    | .ok (.connect _ _) _ => true
    | _ => false
  | _ => false

/-- Each slot holds a socket and its record has the socket's id, or the slot is free
and its record is cleared. -/
def Agrees (g : Gate) : Prop :=
  ∀ s < g.hash.id.length,
    (∃ fd c, 0 ≤ fd ∧ g.hash.idAt s = some fd ∧ g.conn[s]? = some c ∧ c.id = fd) ∨
    (g.hash.idAt s = some (-1) ∧ g.conn[s]? = some .cleared)

/-- Ids are fresh, and a connect command meets a full table. -/
def AcceptOnly (_ : Trace Input Effect) (g : Gate) (x : Input) : Prop :=
  Fresh g x ∧ (connecting x → hashidFull g.hash)

instance (tr : Trace Input Effect) (g : Gate) (x : Input) : Decidable (AcceptOnly tr g x) :=
  inferInstanceAs (Decidable (_ ∧ _))

/-- Every session has the label of its socket. -/
def Labelled (f : Switch) : Prop := ∀ id s, f.session id = some s → s.label = id

variable {setup : Setup} {parm : Bytes} {g₀ g : Gate} {tr : Trace Input Effect}

/-- A session starts as accepted, or as connected by a connect command. -/
theorem register_cases {A : Int} {full : Bool} {x : Input} {s : Session} (h : eventOf A full x = some (.register s)) :
    full = false ∧ introduced full x = some A ∧
      (s = .accepted A ∨ connecting x = true ∧ ∃ source, s = .connected source) := by
  rcases eventOf_cases h with ⟨_,_,he⟩ | ⟨_,he⟩ | ⟨mid,name,hx,rfl,he⟩ | ⟨_,_,_,_,_,_,_,he⟩ | ⟨source,msg,ip,port,fx,hx,hp,rfl,hc,he⟩
  · cases he
  · cases he
  · cases he
    exact ⟨rfl,by simp [introduced,hx],.inl rfl⟩
  · cases he
  · cases he
    exact ⟨rfl,by simp [introduced,hx,hp,hc],.inr ⟨by simp [connecting,hx,hp],source,rfl⟩⟩

theorem labelled_step {f : Switch} {full : Bool} {x : Input} (h : Labelled f) (hx : connecting x → full) :
    Labelled (f.step full x).1 := by
  intro A s hs
  rw [Switch.step_session] at hs
  cases he : eventOf A full x with
  | none =>
    rw [he] at hs
    exact h A s hs
  | some e =>
    rw [he] at hs
    cases e with
    | register s' =>
      obtain ⟨hfull,_,rfl | ⟨hc,_⟩⟩ := register_cases he
      · cases hs
        rfl
      · simp [hx hc] at hfull
    | data chunk =>
      obtain ⟨s',hs',rfl⟩ := Option.map_eq_some_iff.mp hs
      exact h A s' hs'
    | route agent client =>
      obtain ⟨s',hs',rfl⟩ := Option.map_eq_some_iff.mp hs
      exact h A s' hs'
    | drop => cases hs

/-- Labelled sessions in well-formed tables agree slot by slot. -/
theorem agrees_of_labelled (h : g.Inv) (hl : Labelled g.switch) : Agrees g := by
  intro s hs
  have hid : g.hash.idAt s = some g.hash.id[s].id := by simp [Hashid.idAt,hs]
  generalize g.hash.id[s].id = i at hid
  by_cases hi : i = -1
  · subst hi
    exact .inr ⟨hid,h.free s hid⟩
  · have hge := h.wf.ids s i hid
    obtain ⟨c,hc⟩ := h.record hid
    have hslot : g.hash.slot i = some s := h.wf.slot_eq_some.mpr ⟨hi,hid⟩
    have hses : g.session i = some (sessionOf g.mp c) := by rw [Gate.session,hslot]; simp [hc]
    exact .inl ⟨i,c,by omega,hid,hc,hl i _ hses⟩

/-- In every run in which no socket comes from a connect command, the hash and the
connection records agree. -/
theorem accepted_sockets_agree (hs : Started setup parm g₀) (hr : Run gateStep AcceptOnly g₀ tr g) : Agrees g := by
  have hfresh : ∀ tr g x, AcceptOnly tr g x → Fresh g x := fun _ _ _ h => h.1
  refine agrees_of_labelled (gateRun_inv hs hfresh hr) ?_
  refine gateRun_switch hs hfresh (fun _ f => Labelled f) ?_ ?_ hr
  · obtain ⟨code,fx,hi⟩ := hs
    intro id s h
    rw [show g₀.switch.session id = g₀.session id from rfl,(gateInit_spec hi).2.1 id] at h
    cases h
  · intro tr g x fx _ hk h _
    exact labelled_step h hk.2

/-- A gate for two connections whose listener has the id 7. -/
def twoOnline : Setup := ⟨ascii "2",7,0⟩

/-- A control message from service 1, with the answer to a connect call. -/
def control (text : String) (connect : Int) : Input := ⟨⟨-1,connect,0⟩,.text 1 (ascii text)⟩

def event (message : SocketMessage) : Input := ⟨⟨-1,-1,0⟩,.socket message⟩

theorem accepted_sockets_agree_reused_slot : ∃ g₀ tr g, Started twoOnline (ascii "127.0.0.1:8888 9") g₀ ∧
    Run gateStep AcceptOnly g₀ tr g ∧
    tr.map (·.1) = [event (.accept 7 4 []),event (.accept 7 6 []),control "connect 1.1.1.1 80" 8,event (.close 4),
      event (.accept 7 9 [])] ∧ Agrees g := by
  obtain ⟨g₀,code,fx,tr,g,hi,hr,hm,_⟩ := gateRun_of_start (fun _ => AcceptOnly) (fun _ _ _ => True) twoOnline
    (ascii "127.0.0.1:8888 9") [event (.accept 7 4 []),event (.accept 7 6 []),control "connect 1.1.1.1 80" 8,
      event (.close 4),event (.accept 7 9 [])] (by decide)
  exact ⟨g₀,tr,g,⟨code,fx,hi⟩,hr,hm,accepted_sockets_agree ⟨code,fx,hi⟩ hr⟩

/-- A connect command that succeeds leaves the record of its slot without the id. -/
theorem connected_socket_disagrees : ∃ g₀ tr g, Started twoOnline (ascii "127.0.0.1:8888 9") g₀ ∧
    Run gateStep (fun _ g x => Fresh g x) g₀ tr g ∧ tr.map (·.1) = [control "connect 1.1.1.1 80" 5] ∧
    g.hash.idAt 1 = some 5 ∧ g.conn[1]?.map Connection.id = some (-1) ∧ ¬ Agrees g := by
  obtain ⟨g₀,code,fx,tr,g,hi,hr,hm,hid,hc⟩ := gateRun_of_start (fun _ _ g x => Fresh g x)
    (fun _ _ (g : Gate) => g.hash.idAt 1 = some 5 ∧ g.conn[1]?.map Connection.id = some (-1))
    twoOnline (ascii "127.0.0.1:8888 9") [control "connect 1.1.1.1 80" 5] (by decide)
  refine ⟨g₀,tr,g,⟨code,fx,hi⟩,hr,hm,hid,hc,fun h => ?_⟩
  rcases h 1 (Hashid.idAt_lt hid) with ⟨fd,c,h0,hf,hcc,he⟩ | ⟨hf,_⟩
  · rw [hcc] at hc
    have := Option.some.inj hc
    omega
  · rw [hid] at hf
    cases hf

/-- Ids are fresh, and a free slot is probed for each before the sum of id and probe
number overflows. -/
def Connectable (_ : Trace Input Effect) (g : Gate) (x : Input) : Prop :=
  Fresh g x ∧ ∀ id ∈ introduced (hashidFull g.hash) x, g.hash.ProbeFits id

instance (tr : Trace Input Effect) (g : Gate) (x : Input) : Decidable (Connectable tr g x) :=
  inferInstanceAs (Decidable (_ ∧ ∀ id ∈ _, _))

/-- What the operations of the hash rely on: every bucket's chain ends, and the
elements are counted. -/
structure HashSound (g : Gate) : Prop where
  acyclic : ∀ h < g.hash.hash.length, ∃ l, Chain g.hash.next (g.hash.head h) l ∧ l.Nodup
  count : g.hash.count = g.hash.id.countP (fun n => n.id ≠ -1)
  lookup : ∀ id, ∃ r, hashidLookup g.hash id = .ok r []
  remove : ∀ id, ∃ hash r, hashidRemove g.hash id = .ok (hash,r) []

private theorem hashSound_of_wf (w : g.hash.Wf) : HashSound g where
  acyclic h hh := by
    obtain ⟨l,hc,_⟩ := w.chains h hh
    exact ⟨l,hc,hc.nodup⟩
  count := w.count
  lookup id := ⟨_,w.lookup_eq id⟩
  remove id := by
    obtain ⟨hash,hr,_⟩ := w.remove_spec id
    exact ⟨hash,_,hr⟩

/-- In every run in which no connect fails and no probe overflows, the hash is sound
in every state, and each id that is handed to `hashid_insert` enters a slot of the
array: no assertion fails and no probe leaves the array, which would be a fault. -/
theorem hash_survives_connects (hs : Started setup parm g₀) (hr : Run gateStep Connectable g₀ tr g) :
    HashSound g ∧ ∀ x, Connectable tr g x → ∀ id ∈ introduced (hashidFull g.hash) x,
      ∃ hash s, hashidInsert g.hash id = .ok (hash,s) [] ∧ 0 ≤ s ∧ s < g.hash.cap := by
  have hinv := gateRun_inv hs (fun _ _ _ h => h.1) hr
  refine ⟨hashSound_of_wf hinv.wf,fun x hx id hid => ?_⟩
  obtain ⟨h0,hnew⟩ := hx.1 id hid
  obtain ⟨hash,r,hi⟩ := hinv.wf.insert_progress h0 (hx.2 id hid)
  obtain ⟨s,rfl,_,hslot,_⟩ := hinv.wf.insert_spec h0 (hinv.slot_eq_none.mpr hnew) hi
  have hlt := Hashid.idAt_lt hslot
  have hcap := hinv.wf.cap
  exact ⟨hash,s,hi,by omega,by omega⟩

theorem hash_survives_connects_refused : ∃ g₀ tr g, Started twoOnline (ascii "127.0.0.1:8888 9") g₀ ∧
    Run gateStep Connectable g₀ tr g ∧
    tr.map (·.1) = [control "connect 1.1.1.1 80" 5,event (.accept 7 3 []),control "connect 1.1.1.1 80" (-1),
      event (.error 5)] ∧ HashSound g := by
  obtain ⟨g₀,code,fx,tr,g,hi,hr,hm,_⟩ := gateRun_of_start (fun _ => Connectable) (fun _ _ _ => True) twoOnline
    (ascii "127.0.0.1:8888 9") [control "connect 1.1.1.1 80" 5,event (.accept 7 3 []),control "connect 1.1.1.1 80" (-1),
      event (.error 5)] (by decide)
  exact ⟨g₀,tr,g,⟨code,fx,hi⟩,hr,hm,(hash_survives_connects ⟨code,fx,hi⟩ hr).1⟩

/-- A connect call that fails makes `hashid_insert` read in front of the slots. -/
theorem failed_connect_faults : ∃ g₀, Started twoOnline (ascii "127.0.0.1:8888 9") g₀ ∧ hashidFull g₀.hash = false ∧
    gateStep g₀ (control "connect 1.1.1.1 80" (-1)) = .fail .outOfBounds .hashid := by
  obtain ⟨⟨g₀,code⟩,fx,hi,hp⟩ := Act.exists_of_holds (x := gateInit twoOnline gateCreate (some (ascii "127.0.0.1:8888 9")))
    (p := fun (r : Gate × Int) _ => decide (hashidFull r.1.hash = false ∧
      (gateStep r.1 (control "connect 1.1.1.1 80" (-1))).fault = some (.outOfBounds,.hashid))) (by decide)
  obtain ⟨hfull,hf⟩ := of_decide_eq_true hp
  exact ⟨g₀,⟨code,fx,hi⟩,hfull,Act.fault_eq_some.mp hf⟩

end MyProgram.SkynetGate
