import MyProgram.Harbor.Waiting

/-! A name that a slave with a connection to the master has registered is found by every client
that asks for it. -/
namespace MyProgram.Harbor
open Lib

/-- The master reads from the connection, or will. -/
def Conn.isOpen : Conn → Bool
  | .handshaking | .monitored _ => true
  | .none | .closed => false

/-- The events at the master, and the start of a slave. -/
def Event.atMaster : Event → Bool
  | .start _ _ | .handshake _ | .dispatch _ | .drop _ => true
  | .shake _ | .receive _ | .lost _ | .dialed _ _ _ | .incoming _ _ | .accept _ _ _ | .ready _ _ | .register _ _ _ | .queryName _ _ _
  | .link _ _ _ | .connect _ _ _ | .linkMaster _ _ | .harborQuery _ _ | .harborDown _ _ => false

namespace Cluster
variable {fits : Name → Option Handle → Bool} {c c' : Cluster} {p q : Proc} {e : Event} {name : Name} {address : Handle}
  {fx : List Effect} {tr : Trace Event Effect}

/-- The slave and the master have a connection. -/
def Linked (c : Cluster) (p : Proc) : Prop := (c.slave p).masterFd = true ∧ (c.conn p).isOpen = true

/-- The slave will hear of the name: the question is under way, or the answer, or the master will tell
it when the name is registered. -/
def Coming (c : Cluster) (p : Proc) (name : Name) : Prop :=
  .Q name ∈ c.up p ∨ (∃ address, .N name address ∈ c.down p) ∨ ((c.conn p).isMonitored = true ∧ tableIndex c.globalName name = none)

/-- The master knows a name, or will when it has read what the slave has sent. -/
def Sent (c : Cluster) (p : Proc) (name : Name) : Prop := (∃ address, .R name address ∈ c.up p) ∨ tableIndex c.globalName name ≠ none

/-- A monitored connection is in the table of slaves. -/
def Listed (c : Cluster) : Prop := ∀ p id, c.conn p = .monitored id → ∃ addr, tableIndex c.slaveNode id = some ⟨some p,addr⟩

/-- What a step of a slave does to its connection. -/
structure SlaveSide (c c' : Cluster) : Prop where
  slaveNode : c'.slaveNode = c.slaveNode
  globalName : c'.globalName = c.globalName
  conn : c'.conn = c.conn
  up : ∀ q, c.up q <+: c'.up q
  masterFd : ∀ q, (c'.slave q).masterFd = true → (c.slave q).masterFd = true
  down : ∀ q name address, .N name address ∈ c.down q →
    .N name address ∈ c'.down q ∨ tableIndex (c'.slave q).queryname name = none ∨ (c'.slave q).masterFd = false

theorem SameNames.slaveSide (h : c.SameNames c') : c.SlaveSide c' :=
  ⟨h.slaveNode,h.globalName,h.conn,fun q => by rw [h.up],fun q hq => (h.slave q).masterFd ▸ hq,fun q name address hm => .inl (by rwa [h.down])⟩

/-- A package is read. -/
theorem slaveSide_receive {s : Slave} {m : ToSlave} {rest : List ToSlave} (hd : c.down p = m :: rest) (hf : s.masterFd = (c.slave p).masterFd)
    (hm : ∀ name address, m = .N name address → tableIndex s.queryname name = none) : c.SlaveSide ((c.setDown p rest).setSlave p s) := by
  refine ⟨rfl,rfl,rfl,fun q => List.prefix_refl _,fun q hq => ?_,fun q name address hn => ?_⟩
  · simp only [setSlave_slave,setDown_slave,Function.update_apply] at hq
    split at hq
    · rename_i hqp
      rw [hqp,← hf]
      exact hq
    · exact hq
  · simp only [setSlave_slave,setSlave_down,setDown_down,Function.update_apply]
    by_cases hqp : q = p
    · rw [if_pos hqp,if_pos hqp]
      rw [hqp,hd] at hn
      rcases List.mem_cons.mp hn with hn | hn
      · exact .inr (.inl (hm name address hn.symm))
      · exact .inl hn
    · rw [if_neg hqp]
      exact .inl hn

/-- A package is sent, or none, and the tables change. -/
theorem slaveSide_post {s : Slave} {us : List ToMaster} (hf : s.masterFd = (c.slave p).masterFd) :
    c.SlaveSide ((c.setSlave p s).setUp p (c.up p ++ us)) := by
  refine ⟨rfl,rfl,rfl,fun q => ?_,fun q hq => ?_,fun q name address hn => .inl hn⟩
  · simp only [setUp_up,setSlave_up,Function.update_apply]
    split
    · rename_i hqp
      rw [hqp]
      exact List.prefix_append _ _
    · exact List.prefix_refl _
  · simp only [setSlave_slave,setUp_slave,Function.update_apply] at hq
    split at hq
    · rename_i hqp
      rw [hqp,← hf]
      exact hq
    · exact hq

theorem post_eq_append (c : Cluster) (p : Proc) (m : ToMaster) :
    c.post p m = c.setUp p (c.up p ++ if (c.slave p).masterFd = true then [m] else []) := by
  rw [post_eq]
  split
  · rfl
  · rw [List.append_nil]

theorem step_slaveSide (hm : e.atMaster = false) (h : step fits c e = .ok c' fx) : c.SlaveSide c' := by
  have hrefl : c.SlaveSide c := SameNames.slaveSide ⟨rfl,rfl,rfl,rfl,rfl,fun _ => .refl _⟩
  have hset {p : Proc} {s : Slave} (hf : s.masterFd = (c.slave p).masterFd) : c.SlaveSide (c.setSlave p s) := by
    have h : c.SlaveSide ((c.setSlave p s).setUp p (c.up p ++ [])) := slaveSide_post hf
    refine ⟨rfl,rfl,rfl,fun q => List.prefix_refl _,h.masterFd,h.down⟩
  by_cases hq : e.quiet = true
  · exact (step_quiet hq h).1.slaveSide
  cases e with
  | shake p =>
    simp only [step] at h
    split at h
    · rename_i n rest hd
      cases h
      exact slaveSide_receive hd rfl (by simp)
    · cases h
      exact hset rfl
  | receive p =>
    simp only [step] at h
    split at h
    · rename_i m rest hd
      obtain ⟨s,hs,rfl⟩ := act_eq_ok.mp h
      by_cases hn : ∃ name address, m = .N name address
      · obtain ⟨name,address,rfl⟩ := hn
        rw [Slave.monitorMaster_N] at hs
        cases hs
        refine slaveSide_receive hd rfl fun name' address' hn => ?_
        cases hn
        rw [Slave.named,tableIndex_assign_option,if_pos rfl]
      · obtain ⟨hs,_⟩ := Slave.monitorMaster_sameNames (fun name address h => hn ⟨name,address,h⟩) hs
        exact slaveSide_receive hd hs.masterFd fun name address h => absurd ⟨name,address,h⟩ hn
    · cases h
      exact hrefl
  | lost p =>
    cases h
    refine ⟨rfl,rfl,rfl,fun q => List.prefix_refl _,fun q hq => ?_,fun q name address hn => ?_⟩
    · simp only [setSlave_slave,setDown_slave,Function.update_apply] at hq
      split at hq
      · cases hq
      · exact hq
    · simp only [setSlave_slave,setSlave_down,setDown_down,Function.update_apply]
      by_cases hqp : q = p
      · simp [hqp]
      · simp [hqp,hn]
  | register p name address =>
    simp only [step] at h
    cases hl : tableIndex (c.slave p).globalname name with
    | some a =>
      rw [register,hl] at h
      cases h
      exact hrefl
    | none =>
      rw [register_eq hl] at h
      split at h
      · cases h
        rw [post_eq_append]
        exact slaveSide_post rfl
      · cases h
        exact hset rfl
  | queryName p name r =>
    simp only [step,queryName] at h
    split at h
    · cases h
      exact hrefl
    · split at h
      · cases h
        exact hrefl
      · split at h
        · cases h
          exact hset rfl
        · split at h
          · cases h
            rw [post_eq_append]
            exact slaveSide_post rfl
          · cases h
            exact hrefl
  | harborQuery p name =>
    simp only [step] at h
    split at h
    · cases h
      exact hrefl
    · split at h
      · cases h
        rw [post_eq_append]
        have h (us : List ToMaster) : c.SlaveSide ((c.setSlave p (c.slave p)).setUp p (c.up p ++ us)) := slaveSide_post rfl
        have hs : c.setSlave p (c.slave p) = c := congrArg (fun slave => ({ c with slave := slave } : Cluster)) (Function.update_eq_self p c.slave)
        rw [hs] at h
        exact h _
      · cases h
        exact hrefl
  | start _ _ | handshake _ | dispatch _ | drop _ => cases hm
  | dialed _ _ _ | incoming _ _ | accept _ _ _ | ready _ _ | link _ _ _ | connect _ _ _ | linkMaster _ _ | harborDown _ _ =>
    exact absurd rfl hq

theorem SlaveSide.linked (h : c.SlaveSide c') (hl : c'.Linked p) : c.Linked p := ⟨h.masterFd p hl.1,h.conn ▸ hl.2⟩

theorem SlaveSide.listed (h : c.SlaveSide c') (hl : c.Listed) : c'.Listed := by
  intro p id hc
  rw [h.conn] at hc
  rw [h.slaveNode]
  exact hl p id hc

theorem SlaveSide.coming (h : c.SlaveSide c') (hl : c'.Linked p) (hc : c.Coming p name) :
    c'.Coming p name ∨ tableIndex (c'.slave p).queryname name = none := by
  rcases hc with hc | ⟨address,hc⟩ | ⟨hc,hn⟩
  · exact .inl (.inl ((h.up p).subset hc))
  · rcases h.down p name address hc with hd | hd | hd
    · exact .inl (.inr (.inl ⟨address,hd⟩))
    · exact .inr hd
    · rw [hl.1] at hd
      cases hd
  · rw [← h.conn] at hc
    rw [← h.globalName] at hn
    exact .inl (.inr (.inr ⟨hc,hn⟩))

theorem SlaveSide.sent (h : c.SlaveSide c') (hs : c.Sent p name) : c'.Sent p name := by
  rcases hs with ⟨address,hs⟩ | hs
  · exact .inl ⟨address,(h.up p).subset hs⟩
  · rw [← h.globalName] at hs
    exact .inr hs

theorem Listed.mem_fds (hl : c.Listed) (h : (c.conn p).isMonitored = true) : p ∈ c.fds := by
  cases hc : c.conn p with
  | monitored id =>
    obtain ⟨addr,he⟩ := hl p id hc
    exact List.mem_filterMap.mpr ⟨_,mem_of_tableIndex he,rfl⟩
  | none | handshaking | closed =>
    rw [hc] at h
    cases h

/-- What a step at the master keeps for a slave that has a connection behind it. -/
def Keeps (c c' : Cluster) (q : Proc) : Prop :=
  c'.Linked q → c.Linked q ∧ ∀ name, (c.Coming q name → c'.Coming q name) ∧ (c.Sent q name → c'.Sent q name)

theorem keeps_of (hs : c'.slave = c.slave) (hg : c'.globalName = c.globalName)
    (h : ∀ q, (c'.conn q).isOpen = true → (c.conn q).isOpen = true ∧ ((c.conn q).isMonitored = true → (c'.conn q).isMonitored = true) ∧
      (∀ m ∈ c.up q, m ∈ c'.up q ∨ ∃ id addr, m = .H id addr) ∧ ∀ m ∈ c.down q, m ∈ c'.down q) (q : Proc) : c.Keeps c' q := by
  rintro ⟨hf,ho⟩
  obtain ⟨ho,hm,hu,hd⟩ := h q ho
  refine ⟨⟨hs ▸ hf,ho⟩,fun name => ⟨fun hk => ?_,fun hk => ?_⟩⟩
  · rcases hk with hk | ⟨address,hk⟩ | ⟨hk,hn⟩
    · rcases hu _ hk with hk | ⟨id,addr,he⟩
      · exact .inl hk
      · cases he
    · exact .inr (.inl ⟨address,hd _ hk⟩)
    · exact .inr (.inr ⟨hm hk,hg ▸ hn⟩)
  · rcases hk with ⟨address,hk⟩ | hk
    · rcases hu _ hk with hk | ⟨id,addr,he⟩
      · exact .inl ⟨address,hk⟩
      · cases he
    · exact .inr (hg ▸ hk)

/-- A connection is given up. -/
theorem setConn_closed_keeps (hs : c'.slave = c.slave) (hg : c'.globalName = c.globalName) (hc : c'.conn = Function.update c.conn p .closed)
    (hu : ∀ q, q ≠ p → c'.up q = c.up q) (hd : ∀ q, ∀ m ∈ c.down q, m ∈ c'.down q) (q : Proc) : c.Keeps c' q := by
  refine keeps_of hs hg (fun q hq => ?_) q
  rw [hc,Function.update_apply] at hq ⊢
  split at hq
  · cases hq
  · rename_i hqp
    rw [if_neg hqp,hu q hqp]
    exact ⟨hq,id,fun m hm => .inl hm,hd q⟩

theorem handshake_keeps {m : ToMaster} {rest : List ToMaster} (hl : c.Listed) (hc : c.conn p = .handshaking) (hu : c.up p = m :: rest) :
    ((c.setUp p rest).handshake p m).Listed ∧ ∀ q, c.Keeps ((c.setUp p rest).handshake p m) q := by
  have hclosed : ((c.setUp p rest).setConn p .closed).Listed ∧ ∀ q, c.Keeps ((c.setUp p rest).setConn p .closed) q := by
    refine ⟨fun q id hq => ?_,setConn_closed_keeps rfl rfl rfl (fun q hq => Function.update_of_ne hq _ _) fun _ _ h => h⟩
    simp only [setConn_conn,setUp_conn,Function.update_apply] at hq
    split at hq
    · cases hq
    · exact hl q id hq
  unfold handshake
  split
  · rename_i id addr
    split
    · exact hclosed
    · rename_i hnew
      have hnone : tableIndex c.slaveNode id = none := by
        by_contra hne
        exact hnew (.inr (Option.isSome_iff_ne_none.mpr hne))
      refine ⟨fun q id' hq => ?_,keeps_of rfl rfl fun q hq => ?_⟩
      · have hs : tableIndex (assign c.slaveNode id (some ⟨some p,addr⟩)) id' = if id' = id then some ⟨some p,addr⟩ else tableIndex c.slaveNode id' :=
          tableIndex_assign
        have hq : Function.update c.conn p (.monitored id) q = .monitored id' := hq
        rw [Function.update_apply] at hq
        split at hq
        · rename_i hqp
          cases hq
          rw [if_pos rfl] at hs
          exact ⟨addr,by rw [hqp]; exact hs⟩
        · obtain ⟨addr',he⟩ := hl q id' hq
          rw [if_neg fun h => by rw [h,hnone] at he; cases he] at hs
          exact ⟨addr',hs.trans he⟩
      · refine ⟨?_,fun hm => ?_,fun m hm => ?_,fun m hm => ?_⟩
        · have hq : (Function.update c.conn p (.monitored id) q).isOpen = true := hq
          rw [Function.update_apply] at hq
          split at hq
          · rename_i hqp
            rw [hqp,hc]
            rfl
          · exact hq
        · show (Function.update c.conn p (.monitored id) q).isMonitored = true
          rw [Function.update_apply]
          split
          · rfl
          · exact hm
        · show m ∈ Function.update c.up p rest q ∨ _
          rw [Function.update_apply]
          split
          · rename_i hqp
            rw [hqp,hu] at hm
            exact (List.mem_cons.mp hm).symm.imp (fun h => h) fun h => ⟨id,addr,h⟩
          · exact .inl hm
        · show m ∈ (send (sendAll (c.setUp p rest) _ _) p _).down q
          rw [send_down,Function.update_apply]
          split
          · rename_i hqp
            rw [hqp] at hm
            exact List.mem_append_left _ (List.mem_append_left _ hm)
          · exact List.mem_append_left _ hm
  · exact hclosed
  · exact hclosed

theorem dropSlave_keeps {id : Id} (hl : c.Listed) (hc : c.conn p = .monitored id) :
    (c.dropSlave p id).Listed ∧ ∀ q, c.Keeps (c.dropSlave p id) q := by
  refine ⟨fun q id' hq => ?_,setConn_closed_keeps rfl rfl rfl (fun _ _ => rfl) fun q m hm => List.mem_append_left _ hm⟩
  have hq : Function.update c.conn p .closed q = .monitored id' := hq
  rw [Function.update_apply] at hq
  split at hq
  · cases hq
  · rename_i hqp
    obtain ⟨addr,he⟩ := hl q id' hq
    have hne : id' ≠ id := by
      rintro rfl
      obtain ⟨addr',he'⟩ := hl p id' hc
      cases he.symm.trans he'
      exact hqp rfl
    have hs := tableIndex_map_entries (fun k (v : SlaveNode) => if k = id then { v with fd := none } else v) c.slaveNode id'
    rw [he,Option.map_some,if_neg hne] at hs
    exact ⟨addr,hs⟩

theorem known_after (l : List (Name × Handle)) (name : Name) (address : Handle) :
    tableIndex (if (tableIndex l name).isNone then assign l name (some address) else l) name ≠ none ∧
      ∀ name', name' ≠ name → tableIndex (if (tableIndex l name).isNone then assign l name (some address) else l) name' = tableIndex l name' := by
  split
  · exact ⟨by simp [tableIndex_assign],fun name' hne => by rw [tableIndex_assign,if_neg hne]⟩
  · rename_i h
    exact ⟨fun hn => h (by rw [hn]; rfl),fun _ _ => rfl⟩

theorem dispatchSlave_keeps {m : ToMaster} {rest : List ToMaster} (hl : c.Listed) (hc : (c.conn p).isMonitored = true) (hu : c.up p = m :: rest) :
    ((c.setUp p rest).dispatchSlave p m).Listed ∧ ∀ q, c.Keeps ((c.setUp p rest).dispatchSlave p m) q := by
  have hup (q : Proc) (m' : ToMaster) (hm : m' ∈ c.up q) : m' ∈ (c.setUp p rest).up q ∨ q = p ∧ m' = m := by
    rw [setUp_up,Function.update_apply]
    split
    · rename_i hqp
      rw [hqp,hu] at hm
      exact (List.mem_cons.mp hm).symm.imp (fun h => h) fun h => ⟨hqp,h⟩
    · exact .inl hm
  unfold dispatchSlave
  split
  · rename_i n a
    refine ⟨hl,fun q hq => ⟨hq,fun name => ⟨fun h => ?_,fun h => ?_⟩⟩⟩
    · rcases h with h | ⟨address,h⟩ | ⟨hm,hn⟩
      · rcases hup q _ h with h | ⟨_,h⟩
        · exact .inl h
        · cases h
      · exact .inr (.inl ⟨address,List.mem_append_left _ h⟩)
      · by_cases hname : name = n
        · have hpos : 0 < c.fds.count q := List.count_pos_iff.mpr (hl.mem_fds hm)
          exact .inr (.inl ⟨a,hname ▸ List.mem_append_right _ (List.mem_replicate.mpr ⟨hpos.ne',rfl⟩)⟩)
        · exact .inr (.inr ⟨hm,(known_after c.globalName n a).2 name hname ▸ hn⟩)
    · by_cases hname : name = n
      · exact .inr (hname ▸ (known_after c.globalName n a).1)
      · rcases h with ⟨address,h⟩ | h
        · rcases hup q _ h with h | ⟨_,h⟩
          · exact .inl ⟨address,h⟩
          · cases h
            exact absurd rfl hname
        · exact .inr fun hk => h ((known_after c.globalName n a).2 name hname ▸ hk)
  · rename_i n
    cases hk : tableIndex c.globalName n with
    | some address =>
      have hk' : tableIndex (c.setUp p rest).globalName n = some address := hk
      rw [hk']
      refine ⟨hl,fun q hq => ⟨hq,fun name => ⟨fun h => ?_,fun h => ?_⟩⟩⟩
      · rcases h with h | ⟨address',h⟩ | h
        · rcases hup q _ h with h | ⟨hqp,h⟩
          · exact .inl h
          · cases h
            exact .inr (.inl ⟨address,by simp [hqp]⟩)
        · have hd : ToSlave.N name address' ∈ (send (c.setUp p rest) p (.N n address)).down q := by
            rw [send_eq]
            exact List.mem_append_left _ h
          exact .inr (.inl ⟨address',hd⟩)
        · exact .inr (.inr h)
      · rcases h with ⟨address',h⟩ | h
        · rcases hup q _ h with h | ⟨_,h⟩
          · exact .inl ⟨address',h⟩
          · cases h
        · exact .inr h
    | none =>
      have hk' : tableIndex (c.setUp p rest).globalName n = none := hk
      rw [hk']
      refine ⟨hl,fun q hq => ⟨hq,fun name => ⟨fun h => ?_,fun h => ?_⟩⟩⟩
      · rcases h with h | h
        · rcases hup q _ h with h | ⟨hqp,h⟩
          · exact .inl h
          · cases h
            exact .inr (.inr ⟨hqp ▸ hc,hk⟩)
        · exact .inr h
      · rcases h with ⟨address,h⟩ | h
        · rcases hup q _ h with h | ⟨_,h⟩
          · exact .inl ⟨address,h⟩
          · cases h
        · exact .inr h
  · rename_i id addr
    refine ⟨hl,keeps_of rfl rfl fun q hq => ⟨hq,fun h => h,fun m hm => ?_,fun _ h => h⟩⟩
    exact (hup q m hm).imp (fun h => h) fun h => ⟨id,addr,h.2⟩

/-- A step at the master, for every slave but one that it starts. -/
theorem step_keeps (hm : e.atMaster = true) (hl : c.Listed) (ha : c.Allowed e) (h : step fits c e = .ok c' fx) :
    c'.Listed ∧ ∀ q, (∀ id, e ≠ .start q id) → c.Keeps c' q := by
  cases e with
  | start p id =>
    cases h
    refine ⟨fun q id' hq => ?_,fun q hq hlq => ?_⟩
    · simp only [setDown_conn,setUp_conn,setConn_conn,setSlave_conn,Function.update_apply] at hq
      split at hq
      · cases hq
      · exact hl q id' hq
    · have hqp : q ≠ p := by
        rintro rfl
        exact hq id rfl
      have hlq : c.Linked q := by simpa [Linked,hqp] using hlq
      exact ⟨hlq,fun name => ⟨fun hk => by simpa [Coming,Function.update_apply,hqp] using hk,
        fun hk => by simpa [Sent,Function.update_apply,hqp] using hk⟩⟩
  | handshake p =>
    obtain ⟨hc,_⟩ := ha
    simp only [step] at h
    split at h
    · rename_i m rest hu
      cases h
      obtain ⟨hl',hk⟩ := handshake_keeps hl hc hu
      exact ⟨hl',fun q _ => hk q⟩
    · cases h
      exact ⟨hl,fun q _ hq => ⟨hq,fun name => ⟨fun hk => hk,fun hk => hk⟩⟩⟩
  | dispatch p =>
    obtain ⟨hc,_⟩ := ha
    simp only [step] at h
    split at h
    · rename_i m rest hu
      cases h
      obtain ⟨hl',hk⟩ := dispatchSlave_keeps hl hc hu
      exact ⟨hl',fun q _ => hk q⟩
    · cases h
      exact ⟨hl,fun q _ hq => ⟨hq,fun name => ⟨fun hk => hk,fun hk => hk⟩⟩⟩
  | drop p =>
    simp only [step] at h
    split at h
    · rename_i id hc
      cases h
      obtain ⟨hl',hk⟩ := dropSlave_keeps hl hc
      exact ⟨hl',fun q _ => hk q⟩
    all_goals
      cases h
      have hk : ∀ q, c.Keeps (c.setConn p .closed) q := setConn_closed_keeps rfl rfl rfl (fun _ _ => rfl) fun _ _ h => h
      refine ⟨fun q id hq => ?_,fun q _ => hk q⟩
      simp only [setConn_conn,Function.update_apply] at hq
      split at hq
      · cases hq
      · exact hl q id hq
  | shake _ | receive _ | lost _ | register _ _ _ | queryName _ _ _ | harborQuery _ _ | dialed _ _ _ | incoming _ _ | accept _ _ _
  | ready _ _ | link _ _ _ | connect _ _ _ | linkMaster _ _ | harborDown _ _ => cases hm

/-- A slave that was started stays so. -/
theorem step_off (h : step fits c e = .ok c' fx) (ho : (c'.slave p).phase = .off) : (c.slave p).phase = .off := by
  have hset {q : Proc} {s : Slave} (ho : (Function.update c.slave q s p).phase = .off)
      (hs : s.phase = .off → (c.slave q).phase = .off) : (c.slave p).phase = .off := by
    rw [Function.update_apply] at ho
    split at ho
    · rename_i hpq
      rw [hpq]
      exact hs ho
    · exact ho
  by_cases hq : e.quiet = true
  · exact ((step_quiet hq h).1.slave p).off ho
  cases e with
  | start q id =>
    cases h
    exact hset ho fun h => by cases h
  | handshake q =>
    simp only [step] at h
    split at h
    · cases h
      unfold handshake at ho
      split at ho
      · split at ho <;> exact ho
      · exact ho
      · exact ho
    · cases h
      exact ho
  | dispatch q =>
    simp only [step] at h
    split at h
    · cases h
      unfold dispatchSlave at ho
      split at ho
      · exact ho
      · split at ho <;> exact ho
      · exact ho
    · cases h
      exact ho
  | drop q =>
    simp only [step] at h
    split at h <;> cases h <;> exact ho
  | shake q =>
    simp only [step] at h
    split at h
    · rename_i n rest hd
      cases h
      refine hset ho fun hs => ?_
      simp only [Slave.shaken] at hs
      split at hs <;> cases hs
    · cases h
      exact hset ho fun h => by cases h
  | receive q =>
    simp only [step] at h
    split at h
    · rename_i m rest hd
      obtain ⟨s,hs,rfl⟩ := act_eq_ok.mp h
      refine hset ho fun hso => ?_
      by_cases hm : ∃ name address, m = .N name address
      · obtain ⟨name,address,rfl⟩ := hm
        rw [Slave.monitorMaster_N] at hs
        cases hs
        exact hso
      · exact (Slave.monitorMaster_sameNames (fun name address hn => hm ⟨name,address,hn⟩) hs).1.off hso
    · cases h
      exact ho
  | lost q =>
    cases h
    exact hset ho fun h => h
  | register q name address =>
    simp only [step] at h
    cases hl : tableIndex (c.slave q).globalname name with
    | some a =>
      rw [register,hl] at h
      cases h
      exact ho
    | none =>
      rw [register_eq hl] at h
      split at h
      · cases h
        rw [post_eq] at ho
        exact hset ho fun h => h
      · cases h
        exact hset ho fun h => h
  | queryName q name r =>
    simp only [step,queryName] at h
    split at h
    · cases h
      exact ho
    · split at h
      · cases h
        exact ho
      · split at h
        · cases h
          exact hset ho fun h => h
        · split at h
          · cases h
            rw [post_eq] at ho
            exact hset ho fun h => h
          · cases h
            exact ho
  | harborQuery q name =>
    simp only [step] at h
    split at h
    · cases h
      exact ho
    · split at h
      · cases h
        rw [post_eq] at ho
        exact ho
      · cases h
        exact ho
  | dialed _ _ _ | incoming _ _ | accept _ _ _ | ready _ _ | link _ _ _ | connect _ _ _ | linkMaster _ _ | harborDown _ _ =>
    exact absurd rfl hq

/-- Who waits has waited before, or asks. -/
theorem step_waits (h : step fits c e = .ok c' fx) (hw : tableIndex (c'.slave p).queryname name ≠ none) :
    tableIndex (c.slave p).queryname name ≠ none ∨ ∃ r, e = .queryName p name r ∧ tableIndex (c.slave p).globalname name = none ∧ fx = [] := by
  have hq {c'' : Cluster} (hn : c'.names = c''.names) : (c'.slave p).queryname = (c''.slave p).queryname := congrArg Prod.snd (congrFun hn p)
  rcases step_names h with ⟨hn,_,_⟩ | ⟨q,name',address,fx',hn,_,_,_⟩ | ⟨q,name',r,address,rfl,hl,hc,rfl⟩ | ⟨q,name',r,rfl,hl,rfl,hn⟩
  · rw [hq hn] at hw
    exact .inl hw
  · rw [hq hn,setSlave_slave,Function.update_apply] at hw
    split at hw
    · rename_i hp
      rw [Slave.named,tableIndex_assign_option] at hw
      split at hw
      · exact absurd rfl hw
      · exact .inl (hp ▸ hw)
    · exact .inl hw
  · rw [hc] at hw
    exact .inl hw
  · rw [hq hn,setSlave_slave,Function.update_apply] at hw
    split at hw
    · rename_i hp
      rw [tableIndex_assign] at hw
      split at hw
      · rename_i hname
        rw [hp,hname]
        exact .inr ⟨r,rfl,hl,rfl⟩
      · exact .inl (hp ▸ hw)
    · exact .inl hw

/-- The first client that waits for a name makes the slave ask. -/
theorem queryName_posts {r : Resp} (h : step fits c (.queryName p name r) = .ok c' []) (hg : tableIndex (c.slave p).globalname name = none)
    (hq : tableIndex (c.slave p).queryname name = none) (hl : c'.Linked p) : c'.Coming p name := by
  simp only [step,queryName,hg,hq] at h
  split at h
  · cases h
  · split at h
    · cases h
      have hf : (c.slave p).masterFd = true := by simpa [Linked,post_eq] using hl.1
      refine .inl ?_
      rw [post_eq,if_pos hf]
      simp
    · cases h

theorem register_posts (h : step fits c (.register p name address) = .ok c' fx) (hr : .redirect p name address ∈ fx) (hl : c'.Linked p) :
    c'.Sent p name := by
  simp only [step] at h
  cases hg : tableIndex (c.slave p).globalname name with
  | some a =>
    rw [register,hg] at h
    cases h
    simp at hr
  | none =>
    rw [register_eq hg] at h
    split at h
    · cases h
      have hf : (c.slave p).masterFd = true := by simpa [Linked,post_eq,Slave.named] using hl.1
      refine .inl ⟨address,?_⟩
      rw [post_eq]
      simp [Slave.named,hf]
    · cases h
      simp [Slave.answers] at hr

theorem isUp_ne_off {s : Slave} (h : s.isUp = true) : s.phase ≠ .off := by
  intro ho
  simp [Slave.isUp,ho] at h

/-- What the packages under way and the master know for the slaves that have a connection. -/
structure Heard (tr : Trace Event Effect) (c : Cluster) : Prop where
  listed : c.Listed
  off : ∀ p, (c.slave p).phase = .off → ∀ name, tableIndex (c.slave p).queryname name = none
  coming : ∀ p name, tableIndex (c.slave p).queryname name ≠ none → c.Linked p → c.Coming p name
  running : ∀ p name address fx, (.register p name address,fx) ∈ tr → (c.slave p).phase ≠ .off
  sent : ∀ p name address fx, (.register p name address,fx) ∈ tr → .redirect p name address ∈ fx → c.Linked p → c.Sent p name

theorem step_heard (hi : Heard tr c) (ha : c.Allowed e) (h : step fits c e = .ok c' fx) : Heard (tr ++ [(e,fx)]) c' := by
  have hlisted : c'.Listed := by
    cases hm : e.atMaster with
    | true => exact (step_keeps hm hi.listed ha h).1
    | false => exact (step_slaveSide hm h).listed hi.listed
  have hmem {e' : Event} {fx' : List Effect} (h : (e',fx') ∈ tr ++ [(e,fx)]) : (e',fx') ∈ tr ∨ e' = e ∧ fx' = fx :=
    (List.mem_append.mp h).imp (fun h => h) fun h => Prod.mk.inj (List.mem_singleton.mp h)
  refine ⟨hlisted,fun p ho name => ?_,fun p name hw hl => ?_,fun p name address fx' hr ho => ?_,fun p name address fx' hr hd hl => ?_⟩
  · by_contra hw
    rcases step_waits h hw with hw | ⟨r,rfl,_,_⟩
    · exact hw (hi.off p (step_off h ho) name)
    · exact isUp_ne_off ha (step_off h ho)
  · rcases step_waits h hw with hc | ⟨r,rfl,hg,rfl⟩
    · cases hm : e.atMaster with
      | true =>
        have hne (id : Id) : e ≠ .start p id := by
          rintro rfl
          exact hc (hi.off p ha name)
        obtain ⟨hl,hk⟩ := (step_keeps hm hi.listed ha h).2 p hne hl
        exact (hk name).1 (hi.coming p name hc hl)
      | false =>
        have hs := step_slaveSide hm h
        exact (hs.coming hl (hi.coming p name hc (hs.linked hl))).resolve_right hw
    · by_cases hq : tableIndex (c.slave p).queryname name = none
      · exact queryName_posts h hg hq hl
      · have hs := step_slaveSide rfl h
        exact (hs.coming hl (hi.coming p name hq (hs.linked hl))).resolve_right hw
  · rcases hmem hr with hr | ⟨rfl,rfl⟩
    · exact hi.running p name address fx' hr (step_off h ho)
    · exact isUp_ne_off ha (step_off h ho)
  · rcases hmem hr with hm | ⟨rfl,rfl⟩
    · have hrun := hi.running p name address fx' hm
      have hr := hm
      cases hm : e.atMaster with
      | true =>
        have hne (id : Id) : e ≠ .start p id := by
          rintro rfl
          exact hrun ha
        obtain ⟨hl,hk⟩ := (step_keeps hm hi.listed ha h).2 p hne hl
        exact (hk name).2 (hi.sent p name address fx' hr hd hl)
      | false =>
        have hs := step_slaveSide hm h
        exact hs.sent (hi.sent p name address fx' hr hd (hs.linked hl))
    · exact register_posts h hd hl

/-- When a slave with a connection to the master has registered a name, and the packages between
it, the master and a second such slave have all been read, no client of the second waits for the name. -/
theorem name_found (hr : Run (step fits) (fun _ c e => c.Allowed e) init tr c) (hp : c.Linked p) (hq : c.Linked q) (hup : c.up p = [])
    (hdown : c.down p = []) (huq : c.up q = []) (hreg : (.register q name address,fx) ∈ tr) (hfx : .redirect q name address ∈ fx) :
    c.waiting p name = [] := by
  have hi : Heard tr c := by
    refine hr.invariant Heard ?_ fun tr c e c' fx hi ha he => step_heard hi ha he
    refine ⟨fun _ _ h => (by cases h),fun _ _ _ => rfl,fun _ _ h => absurd rfl h,fun _ _ _ _ h => (by cases h),fun _ _ _ _ h => (by cases h)⟩
  have hknown : tableIndex c.globalName name ≠ none := by
    rcases hi.sent q name address fx hreg hfx hq with ⟨a,h⟩ | h
    · rw [huq] at h
      cases h
    · exact h
  have hnone : tableIndex (c.slave p).queryname name = none := by
    by_contra hw
    rcases hi.coming p name hw hp with h | ⟨a,h⟩ | ⟨_,h⟩
    · rw [hup] at h
      cases h
    · rw [hdown] at h
      cases h
    · exact hknown h
  rw [waiting,hnone]
  rfl

theorem name_found_two : ∃ tr c, Run (step fun _ _ => true) (fun _ c e => c.Allowed e) init tr c ∧ tr.map Prod.fst = twoSlaves ∧
    c.waiting 2 [65] = [] := by
  have hcheck : runCheck (step fun _ _ => true) (fun _ c e => c.Allowed e)
      (fun tr c => ((c.slave 2).masterFd = true ∧ (c.conn 2).isOpen = true) ∧ ((c.slave 1).masterFd = true ∧ (c.conn 1).isOpen = true) ∧
        c.up 2 = [] ∧ c.down 2 = [] ∧ c.up 1 = [] ∧ (.register 1 [65] 9,[.redirect 1 [65] 9]) ∈ tr) twoSlaves [] init = true := by decide
  obtain ⟨tr,c,hr,hm,hp,hq,hup,hdown,huq,hreg⟩ := Run.of_runCheck hcheck
  exact ⟨tr,c,hr,hm,name_found hr hp hq hup hdown huq hreg (List.mem_singleton.mpr rfl)⟩

end Cluster
end MyProgram.Harbor
