import MyProgram.Harbor.Model

/-! What the functions of a slave and the steps of a cluster return, and what they leave alone. -/
namespace MyProgram.Harbor
open Lib

/-- An address that an effect tells for a name. -/
def Effect.told : Effect → Option (Name × Handle)
  | .answer _ _ name address | .redirect _ name address => some (name,address)
  | .localname _ _ | .linked _ _ _ | .masterDown _ _ | .harborS _ _ _ | .harborA _ _ _ | .exist _ _ | .error _ => none

namespace Slave
variable {s s' : Slave} {p q : Proc} {id : Id} {name : Name} {address : Handle} {fx : List Effect}

theorem monitorClear_eq : s.monitorClear p id =
    .ok { s with monitor := assign s.monitor id none } (((tableIndex s.monitor id).getD []).map (.linked p id)) := by
  unfold monitorClear
  cases hl : tableIndex s.monitor id with
  | none => simp [assign_none hl]
  | some v => rfl

theorem connected_eq : s.connected p id q =
    .ok { s with slaves := assign s.slaves id (some (some q)), monitor := assign s.monitor id none }
      (((tableIndex s.monitor id).getD []).map (Effect.linked p id) ++ [Effect.harborS p q id]) := by
  simp [connected,monitorClear_eq]

theorem responseName_eq (h : tableIndex s.globalname name = some address) : s.responseName p name =
    .ok { s with queryname := assign s.queryname name none }
      (((tableIndex s.queryname name).getD []).map fun r => .answer p r name address) := by
  unfold responseName
  rw [h]
  cases hl : tableIndex s.queryname name with
  | none => simp [assign_none hl]
  | some v => rfl

theorem opened_true : s.opened p id q true = s.connected p id q := rfl

/-- A slave that has learnt an address; nobody waits for it any longer. -/
def named (s : Slave) (name : Name) (address : Handle) : Slave :=
  { s with globalname := assign s.globalname name (some address), queryname := assign s.queryname name none }

/-- The answers to the clients that wait for a name. -/
def answers (s : Slave) (p : Proc) (name : Name) (address : Handle) : List Effect :=
  ((tableIndex s.queryname name).getD []).map fun r => .answer p r name address

theorem responseName_assign :
    responseName { s with globalname := assign s.globalname name (some address) } p name = .ok (s.named name address) (s.answers p name address) := by
  have h : tableIndex (assign s.globalname name (some address)) name = some address := by simp [tableIndex_assign]
  exact responseName_eq h

theorem monitorMaster_N : s.monitorMaster p (.N name address) =
    .ok (s.named name address) (s.answers p name address ++ if s.connectQueue.isNone then [Effect.redirect p name address] else []) := by
  have h : (s.named name address).connectQueue = s.connectQueue := rfl
  simp only [monitorMaster,responseName_assign,Act.bind_ok,h]
  split <;> simp

/-- `ready` goes on to the next harbor it has to connect to, or to the end. -/
theorem readyLoop_eq (l : List (Id × Proc)) : ∃ l' dial fx, readyLoop p l s = .ok { s with readyQueue := l', readyDial := dial } fx ∧
    ∀ e ∈ fx, ∃ x ∈ s.globalname, e = .redirect p x.1 x.2 := by
  induction l with
  | nil => exact ⟨[],s.readyDial,_,rfl,fun e he => by
      obtain ⟨x,hx,rfl⟩ := List.mem_map.mp he
      exact ⟨x,hx,rfl⟩⟩
  | cons x l ih =>
    rw [readyLoop]
    split
    · exact ⟨l,some (x.1,x.2),[],rfl,by simp⟩
    · exact ih

/-- What the names of a slave depend on. -/
structure SameNames (s s' : Slave) : Prop where
  globalname : s'.globalname = s.globalname
  queryname : s'.queryname = s.queryname
  masterFd : s'.masterFd = s.masterFd
  off : s'.phase = .off → s.phase = .off

theorem SameNames.refl (s : Slave) : s.SameNames s := ⟨rfl,rfl,rfl,fun h => h⟩

theorem SameNames.trans {s₁ s₂ s₃ : Slave} (h : s₁.SameNames s₂) (h' : s₂.SameNames s₃) : s₁.SameNames s₃ :=
  ⟨h'.globalname.trans h.globalname,h'.queryname.trans h.queryname,h'.masterFd.trans h.masterFd,fun h₃ => h.off (h'.off h₃)⟩

theorem linked_told {l : List Resp} {e : Effect} (h : e ∈ l.map (.linked p id)) : e.told = none := by
  obtain ⟨r,_,rfl⟩ := List.mem_map.mp h
  rfl

theorem opened_sameNames {ok : Bool} (h : s.opened p id q ok = .ok s' fx) : s.SameNames s' ∧ ∀ e ∈ fx, e.told = none := by
  unfold opened at h
  split at h
  · rw [connected_eq] at h
    cases h
    refine ⟨⟨rfl,rfl,rfl,fun h => h⟩,fun e he => ?_⟩
    rcases List.mem_append.mp he with he | he
    · exact linked_told he
    · rw [List.mem_singleton.mp he]
      rfl
  · cases h
    exact ⟨.refl s,by simp [Effect.told]⟩

theorem acceptSlave_sameNames {o : Option Id} (h : s.acceptSlave q p o = .ok s' fx) : s.SameNames s' ∧ ∀ e ∈ fx, e.told = none := by
  unfold acceptSlave at h
  split at h
  · cases h
    exact ⟨.refl s,by simp [Effect.told]⟩
  · split at h
    · cases h
      exact ⟨.refl s,by simp [Effect.told]⟩
    · rw [monitorClear_eq,Act.bind_ok,Act.after_ok] at h
      cases h
      refine ⟨⟨rfl,rfl,rfl,fun h => h⟩,fun e he => ?_⟩
      rcases List.mem_append.mp he with he | he
      · exact linked_told he
      · rw [List.mem_singleton.mp he]
        rfl

theorem monitorMaster_sameNames {m : ToSlave} (hm : ∀ name address, m ≠ .N name address) (h : s.monitorMaster p m = .ok s' fx) :
    s.SameNames s' ∧ ∀ e ∈ fx, e.told = none := by
  cases m with
  | N name address => exact absurd rfl (hm name address)
  | W n =>
    cases h
    exact ⟨.refl s,by simp⟩
  | C id q =>
    simp only [monitorMaster] at h
    split at h
    · cases h
      exact ⟨⟨rfl,rfl,rfl,fun h => h⟩,by simp⟩
    · split at h
      · cases h
        exact ⟨⟨rfl,rfl,rfl,fun h => h⟩,by simp⟩
      · cases h
        exact ⟨.refl s,by simp⟩
  | D id =>
    simp only [monitorMaster,monitorClear_eq] at h
    split at h
    · cases h
      exact ⟨⟨rfl,rfl,rfl,fun h => h⟩,fun e he => linked_told he⟩
    · cases h
      exact ⟨⟨rfl,rfl,rfl,fun h => h⟩,by simp⟩

theorem accepted_sameNames : s.SameNames s.accepted := by
  unfold accepted
  split
  · split
    · exact ⟨rfl,rfl,rfl,fun h => by cases h⟩
    · exact .refl s
  · exact .refl s

end Slave

/-- The events with no part in the names. -/
def Event.quiet : Event → Bool
  | .dialed _ _ _ | .incoming _ _ | .accept _ _ _ | .ready _ _ | .link _ _ _ | .connect _ _ _ | .linkMaster _ _ | .harborDown _ _ => true
  | .start _ _ | .handshake _ | .dispatch _ | .drop _ | .shake _ | .receive _ | .lost _ | .register _ _ _ | .queryName _ _ _
  | .harborQuery _ _ => false

namespace Cluster
variable {c c' : Cluster} {p q : Proc} {id : Id} {s : Slave} {l : List Proc} {fx : List Effect} {e : Event}

theorem post_eq {m : ToMaster} : c.post p m = c.setUp p (if (c.slave p).masterFd = true then c.up p ++ [m] else c.up p) := by
  unfold post
  split
  · rfl
  · exact (congrArg (fun up => ({ c with up := up } : Cluster)) (Function.update_eq_self p c.up)).symm

theorem send_eq {m : ToSlave} : c.send p m = c.sendAll [p] m := by
  have h : (c.send p m).down = (c.sendAll [p] m).down := by
    funext q
    by_cases hq : q = p
    · simp [hq]
    · simp [hq,Ne.symm hq]
  exact congrArg (fun down => ({ c with down := down } : Cluster)) h

theorem act_eq_ok {f : Slave → HarborM Slave} : c.act p f = .ok c' fx ↔ ∃ s, f (c.slave p) = .ok s fx ∧ c' = c.setSlave p s := by
  rw [act,Act.bind_eq_ok]
  constructor
  · rintro ⟨s,fx₁,fx₂,hf,hp,rfl⟩
    cases hp
    exact ⟨s,by simpa using hf,rfl⟩
  · rintro ⟨s,hf,rfl⟩
    exact ⟨s,fx,[],hf,rfl,by simp⟩

theorem register_eq {fits : Name → Option Handle → Bool} {name : Name} {handle : Handle}
    (h : tableIndex (c.slave p).globalname name = none) : c.register fits p name handle =
      if fits name (some handle) = true then
        .ok ((c.setSlave p ((c.slave p).named name handle)).post p (.R name handle))
          ((c.slave p).answers p name handle ++ [Effect.redirect p name handle])
      else .ok (c.setSlave p ((c.slave p).named name handle)) ((c.slave p).answers p name handle ++ [Effect.error p]) := by
  rw [register,if_neg (by simp [h]),Slave.responseName_assign,Act.bind_ok]
  split
  · rfl
  · rfl

/-- All the names depend on. -/
structure SameNames (c c' : Cluster) : Prop where
  slaveNode : c'.slaveNode = c.slaveNode
  globalName : c'.globalName = c.globalName
  conn : c'.conn = c.conn
  up : c'.up = c.up
  down : c'.down = c.down
  slave : ∀ p, (c.slave p).SameNames (c'.slave p)

theorem setSlave_sameNames (h : (c.slave p).SameNames s) : c.SameNames (c.setSlave p s) := by
  refine ⟨rfl,rfl,rfl,rfl,rfl,fun q => ?_⟩
  simp only [setSlave_slave,Function.update_apply]
  split
  · rename_i hq
    exact hq ▸ h
  · exact .refl _

/-- What such an event tells was known to the slave. -/
theorem step_quiet {fits : Name → Option Handle → Bool} (hq : e.quiet = true) (h : step fits c e = .ok c' fx) :
    c.SameNames c' ∧ ∀ f ∈ fx, f.told = none ∨ ∃ p, ∃ x ∈ (c.slave p).globalname, f = .redirect p x.1 x.2 := by
  cases e with
  | dialed p d ok =>
    cases d with
    | monitor =>
      simp only [step,dialed] at h
      split at h
      · cases h
        exact ⟨⟨rfl,rfl,rfl,rfl,rfl,fun _ => .refl _⟩,by simp⟩
      · obtain ⟨s,fx₁,fx₂,ho,hp,rfl⟩ := Act.bind_eq_ok.mp h
        cases hp
        obtain ⟨hs,ht⟩ := Slave.opened_sameNames ho
        have h0 : (c.slave p).SameNames { c.slave p with monitorDial := none } := ⟨rfl,rfl,rfl,fun h => h⟩
        have hc := setSlave_sameNames (h0.trans hs)
        exact ⟨⟨rfl,rfl,rfl,rfl,rfl,hc.slave⟩,fun f hf => .inl (ht f (by simpa using hf))⟩
    | ready =>
      simp only [step,dialed] at h
      split at h
      · cases h
        exact ⟨⟨rfl,rfl,rfl,rfl,rfl,fun _ => .refl _⟩,by simp⟩
      · obtain ⟨s,fx₁,fx₂,ho,hp,rfl⟩ := Act.bind_eq_ok.mp h
        obtain ⟨s',fx₃,fx₄,hr,hp',rfl⟩ := Act.bind_eq_ok.mp hp
        cases hp'
        obtain ⟨hs,ht⟩ := Slave.opened_sameNames ho
        obtain ⟨l',dial,fx',he,hk⟩ := Slave.readyLoop_eq (p := p) (s := s) s.readyQueue
        cases he.symm.trans hr
        have h0 : (c.slave p).SameNames { c.slave p with readyDial := none } := ⟨rfl,rfl,rfl,fun h => h⟩
        have h1 : s.SameNames { s with readyQueue := l', readyDial := dial } := ⟨rfl,rfl,rfl,fun h => h⟩
        have hc := setSlave_sameNames ((h0.trans hs).trans h1)
        refine ⟨⟨rfl,rfl,rfl,rfl,rfl,hc.slave⟩,fun f hf => ?_⟩
        rw [List.append_nil] at hf
        rcases List.mem_append.mp hf with hf | hf
        · exact .inl (ht f hf)
        · obtain ⟨x,hx,rfl⟩ := hk f hf
          exact .inr ⟨p,x,hs.globalname ▸ hx,rfl⟩
  | incoming q p =>
    cases h
    exact ⟨⟨rfl,rfl,rfl,rfl,rfl,fun _ => .refl _⟩,by simp⟩
  | accept q p o =>
    simp only [step,act_eq_ok] at h
    obtain ⟨s,hb,rfl⟩ := h
    obtain ⟨s',fx₁,fx₂,ha,hp,rfl⟩ := Act.bind_eq_ok.mp hb
    cases hp
    obtain ⟨hs,ht⟩ := Slave.acceptSlave_sameNames ha
    have hc := setSlave_sameNames (hs.trans s'.accepted_sameNames)
    exact ⟨⟨rfl,rfl,rfl,rfl,rfl,hc.slave⟩,fun f hf => .inl (ht f (by simpa using hf))⟩
  | ready p order =>
    simp only [step,act_eq_ok] at h
    obtain ⟨s,hr,rfl⟩ := h
    obtain ⟨l',dial,fx',he,hk⟩ := Slave.readyLoop_eq (p := p) (s := { c.slave p with phase := .serving, connectQueue := none }) order
    cases he.symm.trans hr
    exact ⟨setSlave_sameNames ⟨rfl,rfl,rfl,fun h => by cases h⟩,fun f hf => .inr ⟨p,hk f hf⟩⟩
  | link p id r =>
    simp only [step] at h
    split at h
    · cases h
      exact ⟨setSlave_sameNames ⟨rfl,rfl,rfl,fun h => h⟩,by simp⟩
    · cases h
      exact ⟨⟨rfl,rfl,rfl,rfl,rfl,fun _ => .refl _⟩,by simp [Effect.told]⟩
  | connect p id r =>
    simp only [step] at h
    split at h
    · cases h
      exact ⟨setSlave_sameNames ⟨rfl,rfl,rfl,fun h => h⟩,by simp⟩
    · cases h
      exact ⟨⟨rfl,rfl,rfl,rfl,rfl,fun _ => .refl _⟩,by simp [Effect.told]⟩
  | linkMaster p r =>
    cases h
    exact ⟨setSlave_sameNames ⟨rfl,rfl,rfl,fun h => h⟩,by simp⟩
  | harborDown p id =>
    simp only [step,act_eq_ok] at h
    obtain ⟨s,hs,rfl⟩ := h
    simp only [Slave.monitorClear_eq] at hs
    split at hs
    · cases hs
      exact ⟨setSlave_sameNames ⟨rfl,rfl,rfl,fun h => h⟩,fun f hf => .inl (Slave.linked_told (by simpa using hf))⟩
    · cases hs
      exact ⟨setSlave_sameNames ⟨rfl,rfl,rfl,fun h => h⟩,by simp⟩
  | start _ _ | handshake _ | dispatch _ | drop _ | shake _ | receive _ | lost _ | register _ _ _ | queryName _ _ _ | harborQuery _ _ =>
    cases hq

end Cluster
end MyProgram.Harbor
