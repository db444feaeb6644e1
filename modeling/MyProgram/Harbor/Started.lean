import MyProgram.Harbor.Mesh

/-! The start of a cluster without failures: every two processes come to be connected. -/
namespace MyProgram.Harbor
open Lib

/-- The events without failures: every process has an id of its own, which it sends first on each
connection, and no connection is refused or breaks. -/
def Event.Faultless (ident : Proc → Id) : Event → Prop
  | .start p id => id = ident p
  | .drop _ | .lost _ | .harborDown _ _ => False
  | .dialed _ _ ok => ok = true
  | .accept _ p id => id = some (ident p)
  | .handshake _ | .dispatch _ | .shake _ | .receive _ | .incoming _ _ | .ready _ _ | .register _ _ _ | .queryName _ _ _
  | .link _ _ _ | .connect _ _ _ | .linkMaster _ _ | .harborQuery _ _ => True

instance (ident : Proc → Id) : (e : Event) → Decidable (e.Faultless ident)
  | .start _ _ | .dialed _ _ _ | .accept _ _ _ => inferInstanceAs (Decidable (_ = _))
  | .drop _ | .lost _ | .harborDown _ _ => inferInstanceAs (Decidable False)
  | .handshake _ | .dispatch _ | .shake _ | .receive _ | .incoming _ _ | .ready _ _ | .register _ _ _ | .queryName _ _ _
  | .link _ _ _ | .connect _ _ _ | .linkMaster _ _ | .harborQuery _ _ => inferInstanceAs (Decidable True)

/-- What a package asks a slave to connect to. -/
def ToSlave.entry : ToSlave → Option (Id × Proc)
  | .C id addr => some (id,addr)
  | .W _ | .N _ _ | .D _ => none

/-- The slaves that a slave is to connect to. -/
def Slave.duty (s : Slave) : List (Id × Proc) := s.connectQueue.getD [] ++ s.readyQueue ++ s.readyDial.toList ++ s.monitorDial.toList

namespace Cluster
variable {fits : Name → Option Handle → Bool} {ident : Proc → Id} {c c' : Cluster} {p q : Proc} {e : Event} {fx : List Effect}
  {tr : Trace Event Effect} {s s' : Slave}

def duty (c : Cluster) (p : Proc) : List (Id × Proc) := (c.slave p).duty ++ (c.down p).filterMap ToSlave.entry

def view (c : Cluster) : View :=
  ⟨c.fds,fun p id => tableIndex (c.slave p).slaves id,c.duty,c.dials ++ c.pending,fun p => (c.slave p).connectQueue.isSome⟩

/-- How far the main coroutine of a slave is, and what its tables and the packages to it are then. -/
def Stage (ident : Proc → Id) (c : Cluster) (p : Proc) : Prop :=
  match (c.slave p).phase with
  | .off => (c.slave p).slaves = [] ∧ (c.slave p).connectQueue.isSome = true ∧ (c.slave p).monitoring = false ∧ p ∉ c.fds ∧ c.conn p = .none
  | .shaking =>
    (c.slave p).slaves = [] ∧ (c.slave p).connectQueue.isSome = true ∧ (c.slave p).monitoring = false ∧
      (c.conn p = .handshaking ∧ p ∉ c.fds ∧ c.down p = [] ∧ (∃ us, c.up p = .H (ident p) p :: us) ∨
        p ∈ c.fds ∧ (c.conn p).isMonitored = true ∧ ∃ ds, c.down p = .W (c.view.before p).length :: ds)
  | .waiting n =>
    (c.slave p).connectQueue.isSome = true ∧ (c.slave p).monitoring = true ∧ p ∈ c.fds ∧ (c.conn p).isMonitored = true ∧
      n = (c.view.before p).length ∧ (c.slave p).slaves.length < n
  | .closing _ =>
    (c.slave p).connectQueue.isSome = true ∧ (c.slave p).monitoring = true ∧ p ∈ c.fds ∧ (c.conn p).isMonitored = true ∧
      ∀ q, c.view.Older q p → tableIndex (c.slave p).slaves (ident q) ≠ none
  | .serving =>
    (c.slave p).connectQueue = none ∧ (c.slave p).monitoring = true ∧ p ∈ c.fds ∧ (c.conn p).isMonitored = true ∧
      ∀ q, c.view.Older q p → tableIndex (c.slave p).slaves (ident q) ≠ none
  | .failed => False

structure Mesh (ident : Proc → Id) (c : Cluster) : Prop where
  inv : c.view.Inv ident
  stage : ∀ p, c.Stage ident p
  idle : ∀ p, (c.slave p).connectQueue.isSome = true → (c.slave p).readyQueue = [] ∧ (c.slave p).readyDial = none ∧ (c.slave p).monitorDial = none
  queued : ∀ p, (c.slave p).readyQueue ≠ [] → (c.slave p).readyDial ≠ none
  keys : ∀ p, ((c.slave p).slaves.map Prod.fst).Nodup
  known : ∀ id, tableIndex c.slaveNode id ≠ none → ∃ q ∈ c.fds, id = ident q
  down : ∀ p id, .D id ∉ c.down p
  listened : ∀ p q, (p,q) ∈ c.pending → (c.slave q).monitoring = true

/-- A step that has nothing to do with the connections. -/
structure SameMesh (c c' : Cluster) : Prop where
  slaveNode : c'.slaveNode = c.slaveNode
  conn : c'.conn = c.conn
  dials : c'.dials = c.dials
  pending : c'.pending = c.pending
  slaves : ∀ p, (c'.slave p).slaves = (c.slave p).slaves
  phase : ∀ p, (c'.slave p).phase = (c.slave p).phase
  connectQueue : ∀ p, (c'.slave p).connectQueue = (c.slave p).connectQueue
  readyQueue : ∀ p, (c'.slave p).readyQueue = (c.slave p).readyQueue
  readyDial : ∀ p, (c'.slave p).readyDial = (c.slave p).readyDial
  monitorDial : ∀ p, (c'.slave p).monitorDial = (c.slave p).monitorDial
  monitoring : ∀ p, (c'.slave p).monitoring = (c.slave p).monitoring
  up : ∀ p m us, c.conn p = .handshaking → c.up p = m :: us → ∃ us', c'.up p = m :: us'
  entries : ∀ p, (c'.down p).filterMap ToSlave.entry = (c.down p).filterMap ToSlave.entry
  first : ∀ p n ds, (c.slave p).phase = .shaking → c.down p = .W n :: ds → ∃ ds', c'.down p = .W n :: ds'
  none : ∀ p, c.conn p = .handshaking → c.down p = [] → c'.down p = []
  down : ∀ p id, .D id ∈ c'.down p → .D id ∈ c.down p

theorem SameMesh.fds (h : c.SameMesh c') : c'.fds = c.fds := by
  unfold Cluster.fds
  rw [h.slaveNode]

theorem SameMesh.view (h : c.SameMesh c') : c'.view = c.view := by
  unfold Cluster.view
  have hduty : c'.duty = c.duty := by
    funext p
    unfold duty Slave.duty
    rw [h.entries,h.connectQueue,h.readyQueue,h.readyDial,h.monitorDial]
  simp only [h.fds,h.slaves,hduty,h.dials,h.pending,h.connectQueue]

theorem SameMesh.stage (h : c.SameMesh c') (hs : c.Stage ident p) : c'.Stage ident p := by
  unfold Stage at *
  rw [h.phase p]
  cases hp : (c.slave p).phase with
  | shaking =>
    rw [hp] at hs
    dsimp only at hs ⊢
    rw [h.slaves,h.connectQueue,h.monitoring,h.conn,h.fds,h.view]
    obtain ⟨h1,h2,h3,h4⟩ := hs
    refine ⟨h1,h2,h3,?_⟩
    rcases h4 with ⟨hc,hf,hd,us,hu⟩ | ⟨hf,hc,ds,hd⟩
    · exact .inl ⟨hc,hf,h.none p hc hd,h.up p _ us hc hu⟩
    · exact .inr ⟨hf,hc,h.first p _ ds hp hd⟩
  | failed =>
    rw [hp] at hs
    exact hs.elim
  | off | waiting n | closing b | serving =>
    rw [hp] at hs
    simpa only [h.slaves,h.connectQueue,h.monitoring,h.conn,h.fds,h.view] using hs

theorem SameMesh.mesh (h : c.SameMesh c') (hm : c.Mesh ident) : c'.Mesh ident where
  inv := h.view ▸ hm.inv
  stage p := h.stage (hm.stage p)
  idle p := by
    rw [h.connectQueue,h.readyQueue,h.readyDial,h.monitorDial]
    exact hm.idle p
  queued p := by
    rw [h.readyQueue,h.readyDial]
    exact hm.queued p
  keys p := by
    rw [h.slaves]
    exact hm.keys p
  known id := by
    rw [h.slaveNode,h.fds]
    exact hm.known id
  down p id hd := hm.down p id (h.down p id hd)
  listened p q hq := by
    rw [h.monitoring]
    exact hm.listened p q (h.pending ▸ hq)

theorem stage_congr (hslave : c'.slave q = c.slave q) (hdown : c'.down q = c.down q) (hup : c'.up q = c.up q) (hconn : c'.conn q = c.conn q)
    (hfds : c'.fds = c.fds) (hs : c.Stage ident q) : c'.Stage ident q := by
  have hb : c'.view.before = c.view.before := congrArg (fun l (p : Proc) => List.takeWhile (fun x => decide (x ≠ p)) l) hfds
  have ho : c'.view.Older = c.view.Older := by
    funext r r'
    exact congrArg₂ (fun l b => r' ∈ l ∧ r ∈ b) hfds (congrFun hb r')
  unfold Stage at *
  rwa [hslave,hdown,hup,hconn,hfds,hb,ho]

/-- A step that changes nothing but at one slave. -/
theorem Mesh.update (hm : c.Mesh ident) (hinv : c'.view.Inv ident) (hnode : c'.slaveNode = c.slaveNode)
    (hother : ∀ q, q ≠ p → c'.slave q = c.slave q ∧ c'.down q = c.down q ∧ c'.up q = c.up q ∧ c'.conn q = c.conn q)
    (hstage : c'.Stage ident p)
    (hidle : (c'.slave p).connectQueue.isSome = true → (c'.slave p).readyQueue = [] ∧ (c'.slave p).readyDial = none ∧ (c'.slave p).monitorDial = none)
    (hqueued : (c'.slave p).readyQueue ≠ [] → (c'.slave p).readyDial ≠ none) (hkeys : ((c'.slave p).slaves.map Prod.fst).Nodup)
    (hdown : ∀ id, .D id ∉ c'.down p) (hpending : ∀ r q, (r,q) ∈ c'.pending → (r,q) ∈ c.pending ∨ q = p)
    (hnew : ∀ r, (r,p) ∈ c'.pending → (c'.slave p).monitoring = true) :
    c'.Mesh ident := by
  have hfds : c'.fds = c.fds := by
    unfold fds
    rw [hnode]
  have hat {P : Slave → Prop} (hp : P (c'.slave p)) (hc : ∀ q, P (c.slave q)) (q : Proc) : P (c'.slave q) := by
    by_cases hq : q = p
    · rwa [hq]
    · rw [(hother q hq).1]
      exact hc q
  refine ⟨hinv,fun q => ?_,hat (P := fun s => s.connectQueue.isSome = true → s.readyQueue = [] ∧ s.readyDial = none ∧ s.monitorDial = none) hidle hm.idle,
    hat (P := fun s => s.readyQueue ≠ [] → s.readyDial ≠ none) hqueued hm.queued,hat (P := fun s => (s.slaves.map Prod.fst).Nodup) hkeys hm.keys,
    fun id hid => ?_,fun q id => ?_,fun r q hq => ?_⟩
  · by_cases hq : q = p
    · rwa [hq]
    · obtain ⟨h1,h2,h3,h4⟩ := hother q hq
      exact stage_congr h1 h2 h3 h4 hfds (hm.stage q)
  · rw [hfds]
    exact hm.known id (hnode ▸ hid)
  · by_cases hq : q = p
    · rw [hq]
      exact hdown id
    · rw [(hother q hq).2.1]
      exact hm.down q id
  · by_cases hqp : q = p
    · rw [hqp] at hq ⊢
      exact hnew r hq
    · rw [(hother q hqp).1]
      exact hm.listened r q ((hpending r q hq).resolve_right hqp)

/-- Nobody has a duty before it has joined. -/
theorem Mesh.duty_eq_nil (hm : c.Mesh ident) (hp : p ∉ c.fds) : c.duty p = [] := by
  refine List.eq_nil_iff_forall_not_mem.mpr fun x hx => ?_
  obtain ⟨q,_,ho⟩ := hm.inv.duty_mem p x hx
  exact hp ho.mem

theorem Mesh.off (hm : c.Mesh ident) (hp : (c.slave p).phase = .off) :
    (c.slave p).slaves = [] ∧ (c.slave p).connectQueue.isSome = true ∧ (c.slave p).monitoring = false ∧ p ∉ c.fds ∧ c.conn p = .none := by
  have hs := hm.stage p
  unfold Stage at hs
  rwa [hp] at hs

theorem Mesh.serving (hm : c.Mesh ident) (hp : (c.slave p).phase = .serving) :
    (c.slave p).connectQueue = none ∧ (c.slave p).monitoring = true ∧ p ∈ c.fds ∧ (c.conn p).isMonitored = true ∧
      ∀ q, c.view.Older q p → tableIndex (c.slave p).slaves (ident q) ≠ none := by
  have hs := hm.stage p
  unfold Stage at hs
  rwa [hp] at hs

theorem Mesh.start {id : Id} (hm : c.Mesh ident) (ho : (c.slave p).phase = .off) (hid : id = ident p) :
    ((((c.setSlave p { c.slave p with phase := .shaking, slaveId := id, masterFd := true }).setConn p .handshaking).setUp p [.H id p]).setDown p []).Mesh
      ident := by
  obtain ⟨hslaves,hqueue,hmon,hfds,hconn⟩ := hm.off ho
  have hduty := hm.duty_eq_nil hfds
  have hnil := List.append_eq_nil_iff.mp hduty
  refine hm.update (p := p) ?_ rfl (fun q hq => ?_) ?_ ?_ ?_ ?_ ?_ (fun r q hq => .inl hq) fun r hr => ?_
  · refine hm.inv.congr rfl (fun q id => ?_) (fun q => ?_) (.refl _) fun q hq => ?_
    · by_cases hq : q = p
      · simp [view,hq]
      · simp [view,hq]
    · by_cases hq : q = p
      · simp only [view,duty,setDown_slave,setDown_down,setUp_slave,setConn_slave,setSlave_slave,hq,Function.update_self]
        exact (List.Perm.of_eq hnil.2.symm).append_left _
      · simp [view,duty,hq]
    · by_cases hqp : q = p
      · rw [hqp]
        exact hqueue
      · simpa [view,hqp] using hq
  · simp [hq]
  · have hf : p ∉ c.fds := hfds
    unfold Stage
    simp only [setDown_slave,setUp_slave,setConn_slave,setSlave_slave,Function.update_self]
    exact ⟨hslaves,hqueue,hmon,.inl ⟨by simp,hf,by simp,[],by simp [hid]⟩⟩
  · simpa using hm.idle p
  · simpa using hm.queued p
  · simpa using hm.keys p
  · simp
  · have h := hm.listened r p hr
    rw [hmon] at h
    cases h

theorem Mesh.handshaking (hm : c.Mesh ident) (hc : c.conn p = .handshaking) : (c.slave p).phase = .shaking ∧ (c.slave p).slaves = [] ∧
    (c.slave p).connectQueue.isSome = true ∧ (c.slave p).monitoring = false ∧ p ∉ c.fds ∧ c.down p = [] ∧
      ∃ us, c.up p = .H (ident p) p :: us := by
  have hs := hm.stage p
  unfold Stage at hs
  cases hp : (c.slave p).phase with
  | shaking =>
    rw [hp] at hs
    obtain ⟨h1,h2,h3,⟨_,h4,h5,h6⟩ | ⟨_,h4,_⟩⟩ := hs
    · exact ⟨rfl,h1,h2,h3,h4,h5,h6⟩
    · rw [hc] at h4
      cases h4
  | off =>
    rw [hp,hc] at hs
    cases hs.2.2.2.2
  | waiting n | closing b | serving =>
    rw [hp,hc] at hs
    cases hs.2.2.2.1
  | failed =>
    rw [hp] at hs
    exact hs.elim

/-- The table of slaves gets an entry at its end. -/
theorem fds_assign {id : Id} (hn : tableIndex c.slaveNode id = none) (hc : c'.slaveNode = assign c.slaveNode id (some ⟨some p,q⟩)) :
    c'.fds = c.fds ++ [p] := by
  have hnot : id ∉ c.slaveNode.map Prod.fst := by
    intro hm
    obtain ⟨e,he,rfl⟩ := List.mem_map.mp hm
    have h := List.lookup_eq_none_iff.mp hn e he
    simp at h
  unfold fds
  rw [hc,assign_of_notMem hnot,List.filterMap_append]
  rfl

theorem Mesh.handshake (hi : Function.Injective ident) (h0 : ∀ p, ident p ≠ 0) (hm : c.Mesh ident) (hc : c.conn p = .handshaking) {m : ToMaster}
    {rest : List ToMaster} (hu : c.up p = m :: rest) : ((c.setUp p rest).handshake p m).Mesh ident := by
  obtain ⟨hphase,hslaves,hqueue,hmon,hfds,hdown,us,hup⟩ := hm.handshaking hc
  cases hup.symm.trans hu
  have hnone : tableIndex c.slaveNode (ident p) = none := by
    by_contra hne
    obtain ⟨q,hq,he⟩ := hm.known _ hne
    exact hfds (hi he ▸ hq)
  have hif : ¬(ident p = 0 ∨ (tableIndex (c.setUp p rest).slaveNode (ident p)).isSome = true) := by
    rintro (h | h)
    · exact h0 p h
    · have h : (tableIndex c.slaveNode (ident p)).isSome = true := h
      simp [hnone] at h
  rw [Cluster.handshake,if_neg hif]
  generalize hc' : ({ ((((c.setUp p rest).sendAll (c.setUp p rest).fds (.C (ident p) p)).send p (.W (c.setUp p rest).fds.length)).setConn p
      (.monitored (ident p))) with slaveNode := assign (c.setUp p rest).slaveNode (ident p) (some ⟨some p,p⟩) } : Cluster) = c'
  have hslave : c'.slave = c.slave := by rw [← hc']; rfl
  have hnode : c'.slaveNode = assign c.slaveNode (ident p) (some ⟨some p,p⟩) := by rw [← hc']; rfl
  have hconn (q : Proc) : c'.conn q = if q = p then .monitored (ident p) else c.conn q := by
    rw [← hc']
    exact Function.update_apply ..
  have hup' (q : Proc) : q ≠ p → c'.up q = c.up q := by
    intro hq
    rw [← hc']
    exact Function.update_of_ne hq ..
  have hdown' (q : Proc) : c'.down q = c.down q ++ List.replicate (c.fds.count q) (.C (ident p) p) ++ if q = p then [.W c.fds.length] else [] := by
    rw [← hc']
    have h : (send (sendAll (c.setUp p rest) (c.setUp p rest).fds (.C (ident p) p)) p (.W (c.setUp p rest).fds.length)).down q = _ := send_down ..
    refine h.trans ?_
    rw [Function.update_apply]
    split
    · rename_i hq
      rw [hq]
      rfl
    · rw [List.append_nil]
      rfl
  have hlinks : c'.dials = c.dials ∧ c'.pending = c.pending := by rw [← hc']; exact ⟨rfl,rfl⟩
  clear hc'
  have hfds' := fds_assign hnone hnode
  have hcount (q : Proc) (hq : q ∈ c.fds) : c.fds.count q = 1 := List.count_eq_one_of_mem hm.inv.nodup hq
  have hview : c'.view.Inv ident := by
    refine (hm.inv.join hi hfds fun id => ?_).congr hfds' (fun q id => by simp [view,hslave,View.join]) (fun q => ?_) ?_ fun q hq => ?_
    · show tableIndex (c.slave p).slaves id = none
      rw [hslaves]
      rfl
    · show (c'.duty q).Perm (if q ∈ c.fds then c.duty q ++ [(ident p,p)] else c.duty q)
      have hw : (if q = p then [ToSlave.W c.fds.length] else []).filterMap ToSlave.entry = [] := by
        split <;> rfl
      unfold duty
      rw [hslave,hdown',List.filterMap_append,List.filterMap_append,hw,List.append_nil]
      split
      · rename_i hq
        rw [hcount q hq,List.append_assoc]
        exact .refl _
      · rename_i hq
        rw [List.count_eq_zero_of_not_mem hq,List.replicate_zero,List.filterMap_nil,List.append_nil]
    · exact .of_eq (congrArg₂ (· ++ ·) hlinks.1 hlinks.2)
    · have hq : (c'.slave q).connectQueue.isSome = true := hq
      rw [hslave] at hq
      exact hq
  have hb (q : Proc) (hq : q ∈ c.fds) : c'.view.before q = c.view.before q := by
    have h : c'.view.before q = (c.view.join ident p).before q := congrArg (fun l => List.takeWhile (fun x => decide (x ≠ q)) l) hfds'
    exact h.trans (View.before_join hq)
  have hbp : c'.view.before p = c.fds := by
    have h : c'.view.before p = (c.view.join ident p).before p := congrArg (fun l => List.takeWhile (fun x => decide (x ≠ p)) l) hfds'
    exact h.trans (View.before_join_self hfds)
  refine ⟨hview,fun q => ?_,fun q => by rw [hslave]; exact hm.idle q,fun q => by rw [hslave]; exact hm.queued q,
    fun q => by rw [hslave]; exact hm.keys q,fun id hid => ?_,fun q id hd => ?_,fun r q hq => ?_⟩
  · by_cases hq : q = p
    · rw [hq]
      unfold Stage
      rw [hslave,hphase]
      have hmem : p ∈ c'.fds := by simp [hfds']
      refine ⟨hslaves,hqueue,hmon,.inr ⟨hmem,by rw [hconn,if_pos rfl]; rfl,[],?_⟩⟩
      rw [hdown',hdown,List.count_eq_zero_of_not_mem hfds,if_pos rfl,hbp]
      rfl
    · have hs := hm.stage q
      unfold Stage at hs ⊢
      have hin (h : q ∈ c.fds) : q ∈ c'.fds := by simp [hfds',h]
      have hout (h : q ∉ c.fds) : q ∉ c'.fds := by simp [hfds',h,hq]
      have ho (r : Proc) (h : c'.view.Older r q) (hqf : q ∈ c.fds) : c.view.Older r q := ⟨hqf,hb q hqf ▸ h.2⟩
      rw [hslave,hconn,if_neg hq,hup' q hq,hdown',if_neg hq,List.append_nil]
      cases hp : (c.slave q).phase with
      | off =>
        rw [hp] at hs
        obtain ⟨h1,h2,h3,h4,h5⟩ := hs
        exact ⟨h1,h2,h3,hout h4,h5⟩
      | shaking =>
        rw [hp] at hs
        obtain ⟨h1,h2,h3,⟨h4,h5,h6,h7⟩ | ⟨h4,h5,ds,h6⟩⟩ := hs
        · refine ⟨h1,h2,h3,.inl ⟨h4,hout h5,?_,h7⟩⟩
          rw [h6,List.count_eq_zero_of_not_mem h5]
          rfl
        · refine ⟨h1,h2,h3,.inr ⟨hin h4,h5,ds ++ List.replicate (c.fds.count q) (.C (ident p) p),?_⟩⟩
          rw [h6,hb q h4]
          rfl
      | waiting n =>
        rw [hp] at hs
        obtain ⟨h1,h2,h3,h4,h5,h6⟩ := hs
        exact ⟨h1,h2,hin h3,h4,by rw [hb q h3]; exact h5,h6⟩
      | closing b =>
        rw [hp] at hs
        obtain ⟨h1,h2,h3,h4,h5⟩ := hs
        exact ⟨h1,h2,hin h3,h4,fun r hr => h5 r (ho r hr h3)⟩
      | serving =>
        rw [hp] at hs
        obtain ⟨h1,h2,h3,h4,h5⟩ := hs
        exact ⟨h1,h2,hin h3,h4,fun r hr => h5 r (ho r hr h3)⟩
      | failed =>
        rw [hp] at hs
        exact hs.elim
  · rw [hnode,tableIndex_assign] at hid
    split at hid
    · rename_i he
      exact ⟨p,by simp [hfds'],he⟩
    · obtain ⟨q,hq,he⟩ := hm.known id hid
      exact ⟨q,by simp [hfds',hq],he⟩
  · rw [hdown'] at hd
    rcases List.mem_append.mp hd with hd | hd
    · rcases List.mem_append.mp hd with hd | hd
      · exact hm.down q id hd
      · cases List.eq_of_mem_replicate hd
    · split at hd
      · cases List.mem_singleton.mp hd
      · cases hd
  · rw [hslave]
    exact hm.listened r q (hlinks.2 ▸ hq)

theorem Mesh.shake (hm : c.Mesh ident) (hp : (c.slave p).phase = .shaking) (hd : c.down p ≠ [] ∨ c.conn p = .closed) :
    ∃ n ds, c.down p = .W n :: ds ∧ ((c.setDown p ds).setSlave p ((c.slave p).shaken n)).Mesh ident := by
  have hs := hm.stage p
  unfold Stage at hs
  rw [hp] at hs
  obtain ⟨hslaves,hqueue,hmon,⟨hc,_,hnil,_⟩ | ⟨hfds,hc,ds,hdown⟩⟩ := hs
  · rcases hd with hd | hd
    · exact absurd hnil hd
    · rw [hc] at hd
      cases hd
  refine ⟨_,ds,hdown,hm.update (p := p) ?_ rfl (fun q hq => by simp [hq]) ?_ ?_ ?_ ?_ ?_ (fun r q hq => .inl hq) fun r hr => ?_⟩
  · refine hm.inv.congr rfl (fun q id => ?_) (fun q => ?_) (.refl _) fun q hq => ?_
    · by_cases hq : q = p
      · simp [view,hq,Slave.shaken]
      · simp [view,hq]
    · by_cases hq : q = p
      · simp [view,duty,Slave.duty,hq,Slave.shaken,hdown,ToSlave.entry,List.filterMap_cons]
      · simp [view,duty,hq]
    · by_cases hqp : q = p
      · rw [hqp]
        exact hqueue
      · simpa [view,hqp] using hq
  · have hf : p ∈ c.fds := hfds
    have hmon : ((c.slave p).shaken (c.view.before p).length).monitoring = true := rfl
    unfold Stage
    simp only [setSlave_slave,Function.update_self]
    by_cases hn : (c.view.before p).length > 0
    · have hph : ((c.slave p).shaken (c.view.before p).length).phase = .waiting (c.view.before p).length := if_pos hn
      rw [hph]
      refine ⟨hqueue,rfl,hf,hc,rfl,?_⟩
      show (c.slave p).slaves.length < _
      rw [hslaves]
      exact hn
    · have hph : ((c.slave p).shaken (c.view.before p).length).phase = .closing false := if_neg hn
      rw [hph]
      refine ⟨hqueue,rfl,hf,hc,fun q hq => absurd ?_ hn⟩
      exact List.length_pos_of_mem hq.2
  · simpa [Slave.shaken] using hm.idle p
  · simpa [Slave.shaken] using hm.queued p
  · simpa [Slave.shaken] using hm.keys p
  · intro id hid
    have hid : ToSlave.D id ∈ ds := by simpa using hid
    exact hm.down p id (by simp [hdown,hid])
  · simp [Slave.shaken]

/-- The entries that a slave has to deal with are those of the processes that joined later. -/
theorem Mesh.entry (hm : c.Mesh ident) {x : Id × Proc} (hx : x ∈ c.duty p) :
    ∃ q, x = (ident q,q) ∧ c.view.Older p q ∧ tableIndex (c.slave p).slaves (ident q) = none := by
  obtain ⟨q,rfl,ho⟩ := hm.inv.duty_mem p x hx
  exact ⟨q,rfl,ho,hm.inv.duty_new p q hx⟩

/-- A stage that a slave keeps when its packages are read. -/
theorem stage_read {s : Slave} {ds : List ToSlave} (hmon : (c.slave p).monitoring = true) (hs : c.Stage ident p) (hphase : s.phase = (c.slave p).phase)
    (hslaves : s.slaves = (c.slave p).slaves) (hqueue : s.connectQueue.isSome = (c.slave p).connectQueue.isSome)
    (hmon' : s.monitoring = true) : ((c.setDown p ds).setSlave p s).Stage ident p := by
  unfold Stage at hs ⊢
  simp only [setSlave_slave,Function.update_self]
  rw [hphase,hslaves,hqueue,hmon']
  cases hp : (c.slave p).phase with
  | off =>
    rw [hp,hmon] at hs
    cases hs.2.2.1
  | shaking =>
    rw [hp,hmon] at hs
    cases hs.2.2.1
  | waiting n =>
    rw [hp,hmon] at hs
    exact hs
  | closing b =>
    rw [hp,hmon] at hs
    exact hs
  | serving =>
    rw [hp,hmon] at hs
    obtain ⟨h1,h2⟩ := hs
    refine ⟨?_,h2⟩
    rw [← Option.not_isSome_iff_eq_none,hqueue,h1]
    simp
  | failed =>
    rw [hp] at hs
    exact hs.elim

/-- A package is read. -/
theorem Mesh.read (hm : c.Mesh ident) (hmon : (c.slave p).monitoring = true) {m : ToSlave} {ds : List ToSlave} (hd : c.down p = m :: ds)
    (hs : s.slaves = (c.slave p).slaves) (hp : s.phase = (c.slave p).phase) (hq : s.connectQueue.isSome = (c.slave p).connectQueue.isSome)
    (hm' : s.monitoring = true) (hs' : (s.duty ++ ds.filterMap ToSlave.entry).Perm (c.duty p))
    (hidle : s.connectQueue.isSome = true → s.readyQueue = [] ∧ s.readyDial = none ∧ s.monitorDial = none)
    (hqueued : s.readyQueue ≠ [] → s.readyDial ≠ none) : ((c.setDown p ds).setSlave p s).Mesh ident := by
  refine hm.update (p := p) ?_ rfl (fun q hq => by simp [hq]) (stage_read hmon (hm.stage p) hp hs hq hm') ?_ ?_ ?_ ?_ (fun r q hq => .inl hq) fun r hr => ?_
  · refine hm.inv.congr rfl (fun q id => ?_) (fun q => ?_) (.refl _) fun q hb => ?_
    · by_cases hqp : q = p
      · simp [view,hqp,hs]
      · simp [view,hqp]
    · by_cases hqp : q = p
      · rw [hqp]
        simpa [view,duty] using hs'
      · simp [view,duty,hqp]
    · by_cases hqp : q = p
      · have hb : s.connectQueue.isSome = true := by simpa [view,hqp] using hb
        rw [hqp]
        exact hq.symm.trans hb
      · simpa [view,hqp] using hb
  · simpa using hidle
  · simpa using hqueued
  · simpa [hs] using hm.keys p
  · intro id hid
    have hid : ToSlave.D id ∈ ds := by simpa using hid
    exact hm.down p id (by simp [hd,hid])
  · simpa using hm'

theorem Mesh.receive_C (hi : Function.Injective ident) (hm : c.Mesh ident) (hmon : (c.slave p).monitoring = true) (hdial : (c.slave p).monitorDial = none)
    {id : Id} {a : Proc} {ds : List ToSlave} (hd : c.down p = .C id a :: ds) (h : (c.slave p).monitorMaster p (.C id a) = .ok s fx) :
    ((c.setDown p ds).setSlave p s).Mesh ident := by
  have hduty : c.duty p = (c.slave p).duty ++ (id,a) :: ds.filterMap ToSlave.entry := by
    unfold duty
    rw [hd]
    rfl
  obtain ⟨q,hq,ho,hnone⟩ := hm.entry (by rw [hduty]; simp : (id,a) ∈ c.duty p)
  cases hq
  simp only [Slave.monitorMaster] at h
  split at h
  · rename_i queue hqueue
    cases h
    have hsome : (c.slave p).connectQueue.isSome = true := by simp [hqueue]
    obtain ⟨h1,h2,h3⟩ := hm.idle p hsome
    have hqduty : (c.slave p).duty = queue := by simp [Slave.duty,hqueue,h1,h2,h3]
    have hnot : ident a ∉ queue.map Prod.fst := by
      intro hmem
      obtain ⟨x,hx,hxq⟩ := List.mem_map.mp hmem
      obtain ⟨q',rfl,_⟩ := hm.inv.duty_mem p x (by show x ∈ c.duty p; rw [hduty,hqduty]; exact List.mem_append_left _ hx)
      cases hi hxq
      have hnd : (c.duty p).Nodup := hm.inv.duty_nodup p
      rw [hduty,hqduty] at hnd
      exact (List.nodup_append.mp hnd).2.2 _ hx _ List.mem_cons_self rfl
    refine hm.read hmon hd rfl rfl (by simp [hsome]) hmon ?_ (fun _ => ⟨h1,h2,h3⟩) fun hne => absurd h1 hne
    rw [hduty,hqduty]
    simp [Slave.duty,h1,h2,h3,assign_of_notMem hnot]
  · rename_i hqueue
    rw [if_pos (by simp [hnone])] at h
    cases h
    refine hm.read hmon hd rfl rfl (by simp) hmon ?_ (fun hsome => by simp [hqueue] at hsome) (hm.queued p)
    rw [hduty]
    simp [Slave.duty,hqueue,hdial]

/-- `connect_slave` has opened a connection. -/
theorem Mesh.dial (hi : Function.Injective ident) (hm : c.Mesh ident) {a : Proc} (hqueue : (c.slave p).connectQueue = none)
    (hduty : (c.duty p).Perm ((ident a,a) :: (s.duty ++ (c.down p).filterMap ToSlave.entry)))
    (hslaves : s.slaves = assign (c.slave p).slaves (ident a) (some (some a))) (hphase : s.phase = (c.slave p).phase) (hq : s.connectQueue = none)
    (hmon : s.monitoring = (c.slave p).monitoring) (hqueued : s.readyQueue ≠ [] → s.readyDial ≠ none) :
    ({ c.setSlave p s with dials := c.dials ++ [(p,a)] } : Cluster).Mesh ident := by
  have hinv := hm.inv.dial hi (by show (c.slave p).connectQueue.isSome = false; simp [hqueue]) hduty
  refine hm.update (p := p) ?_ rfl (fun q hq => by simp [hq]) ?_ ?_ ?_ ?_ ?_ (fun r q hq => .inl hq) fun r hr => ?_
  · refine hinv.congr rfl (fun r id => ?_) (fun r => ?_) ?_ fun r hb => ?_
    · show tableIndex ((c.setSlave p s).slave r).slaves id = View.enter _ p (ident a) a r id
      unfold View.enter
      rw [setSlave_slave,Function.update_apply]
      by_cases hr : r = p
      · rw [if_pos hr,hslaves,tableIndex_assign,hr]
        simp [view]
      · simp [hr,view]
    · by_cases hr : r = p
      · simp [view,duty,hr]
      · simp [view,duty,hr]
    · show (c.dials ++ [(p,a)] ++ c.pending).Perm (c.dials ++ c.pending ++ [(p,a)])
      rw [List.append_assoc,List.append_assoc]
      exact List.perm_append_comm.append_left _
    · by_cases hr : r = p
      · have hb : s.connectQueue.isSome = true := by simpa [view,hr] using hb
        simp [hq] at hb
      · simpa [view,hr] using hb
  · have hs := hm.stage p
    unfold Stage at hs ⊢
    simp only [setSlave_slave,Function.update_self]
    rw [hphase,hmon,hq,hslaves]
    rw [hqueue] at hs
    cases hp : (c.slave p).phase with
    | off =>
      rw [hp] at hs
      cases hs.2.1
    | shaking =>
      rw [hp] at hs
      cases hs.2.1
    | waiting n =>
      rw [hp] at hs
      cases hs.1
    | closing b =>
      rw [hp] at hs
      cases hs.1
    | serving =>
      rw [hp] at hs
      obtain ⟨h1,h2,h3,h4,h5⟩ := hs
      refine ⟨rfl,h2,h3,h4,fun q ho => ?_⟩
      rw [tableIndex_assign]
      split
      · simp
      · exact h5 q ho
    | failed =>
      rw [hp] at hs
      exact hs.elim
  · simp [hq]
  · simpa using hqueued
  · have h := nodup_keys_assign (hm.keys p) (ident a) (some (some a))
    simpa [hslaves] using h
  · simpa using hm.down p
  · have h := hm.listened r p hr
    simpa [hmon] using h

/-- The listening socket has a new connection. -/
theorem Mesh.incoming (hm : c.Mesh ident) (hl : (c.slave q).isListening = true) (hd : (p,q) ∈ c.dials) :
    ({ c with dials := c.dials.erase (p,q), pending := c.pending ++ [(p,q)] } : Cluster).Mesh ident := by
  have hmon : (c.slave q).monitoring = true := by
    have hs := hm.stage q
    unfold Stage at hs
    unfold Slave.isListening at hl
    cases hp : (c.slave q).phase with
    | waiting n =>
      rw [hp] at hs
      exact hs.2.1
    | closing b =>
      rw [hp] at hs
      exact hs.2.1
    | off | shaking | serving | failed =>
      rw [hp] at hl
      cases hl
  refine ⟨hm.inv.congr rfl (fun _ _ => rfl) (fun _ => .refl _) ?_ fun _ h => h,fun r => stage_congr rfl rfl rfl rfl rfl (hm.stage r),hm.idle,hm.queued,
    hm.keys,hm.known,hm.down,fun r r' hr => ?_⟩
  · show (c.dials.erase (p,q) ++ (c.pending ++ [(p,q)])).Perm (c.dials ++ c.pending)
    have h1 : (c.dials.erase (p,q) ++ (c.pending ++ [(p,q)])).Perm ((p,q) :: (c.dials.erase (p,q) ++ c.pending)) := by
      rw [← List.append_assoc]
      exact List.perm_append_comm
    exact h1.trans ((List.perm_cons_erase hd).symm.append_right _)
  · rcases List.mem_append.mp hr with hr | hr
    · exact hm.listened r r' hr
    · cases List.mem_singleton.mp hr
      exact hmon

/-- A table with as many entries as processes joined before has them all. -/
theorem tableIndex_full {l : List (Id × Option Proc)}
    (hkeys : (l.map Prod.fst).Nodup) (hl : ∀ id, tableIndex l id ≠ none → ∃ q, c.view.Older q p ∧ id = ident q)
    (hlen : (c.view.before p).length ≤ l.length) (ho : c.view.Older q p) : tableIndex l (ident q) ≠ none := by
  have hsub : (l.map Prod.fst) ⊆ (c.view.before p).map ident := by
    intro id hid
    obtain ⟨e,he,rfl⟩ := List.mem_map.mp hid
    have hne : tableIndex l e.1 ≠ none := by
      rw [tableIndex,lookup_of_mem hkeys he]
      simp
    obtain ⟨q,ho,hq⟩ := hl e.1 hne
    exact List.mem_map.mpr ⟨q,ho.2,hq.symm⟩
  have hperm := (hkeys.subperm hsub).perm_of_length_le (by simpa using hlen)
  have hmem : ident q ∈ l.map Prod.fst := hperm.mem_iff.mpr (List.mem_map.mpr ⟨q,ho.2,rfl⟩)
  obtain ⟨e,he,heq⟩ := List.mem_map.mp hmem
  rw [tableIndex,← heq,lookup_of_mem hkeys he]
  simp

theorem acceptSlave_new {id : Id} (h : tableIndex s.slaves id = none) : s.acceptSlave q p (some id) =
    .ok { s with slaves := assign s.slaves id (some (some p)), monitor := assign s.monitor id none }
      (((tableIndex s.monitor id).getD []).map (Effect.linked q id) ++ [Effect.harborA q p id]) := by
  simp [Slave.acceptSlave,h,Slave.monitorClear_eq]

/-- Nothing is known of the other side of a connection before its id is read. -/
theorem Mesh.pending_none (hm : c.Mesh ident) (hp : (p,q) ∈ c.pending) : tableIndex (c.slave q).slaves (ident p) = none := by
  obtain ⟨_,_,hnone⟩ := hm.inv.links_mem p q (List.mem_append_right c.dials hp)
  exact hnone

/-- The id is read from a connection. -/
theorem Mesh.accept (hi : Function.Injective ident) (hm : c.Mesh ident) (hp : (p,q) ∈ c.pending) {m : List (Id × List Resp)} :
    (({ c with pending := c.pending.erase (p,q) } : Cluster).setSlave q
      (Slave.accepted { c.slave q with slaves := assign (c.slave q).slaves (ident p) (some (some p)), monitor := m })).Mesh ident := by
  have hperm : (c.dials ++ c.pending).Perm ((p,q) :: (c.dials ++ c.pending.erase (p,q))) := by
    have h1 : (c.dials ++ c.pending).Perm (c.dials ++ (p,q) :: c.pending.erase (p,q)) := (List.perm_cons_erase hp).append_left _
    exact h1.trans List.perm_middle
  obtain ⟨ho,_,hnone⟩ := hm.inv.links_mem p q (by show (p,q) ∈ c.dials ++ c.pending; exact List.mem_append_right _ hp)
  have hmon := hm.listened p q hp
  have hinv := hm.inv.accept hi hperm
  generalize hs' : ({ c.slave q with slaves := assign (c.slave q).slaves (ident p) (some (some p)), monitor := m } : Slave) = s
  have hslaves : s.slaves = assign (c.slave q).slaves (ident p) (some (some p)) := by rw [← hs']
  have hkeys : (s.slaves.map Prod.fst).Nodup := by
    rw [hslaves]
    exact nodup_keys_assign (hm.keys q) _ _
  have hsame : s.phase = (c.slave q).phase ∧ s.connectQueue = (c.slave q).connectQueue ∧ s.readyQueue = (c.slave q).readyQueue ∧
      s.readyDial = (c.slave q).readyDial ∧ s.monitorDial = (c.slave q).monitorDial ∧ s.monitoring = (c.slave q).monitoring := by
    rw [← hs']
    exact ⟨rfl,rfl,rfl,rfl,rfl,rfl⟩
  clear hs'
  obtain ⟨hphase,hcq,hrq,hrd,hmd,hmon'⟩ := hsame
  have hacc : s.accepted.slaves = s.slaves ∧ s.accepted.connectQueue = s.connectQueue ∧ s.accepted.readyQueue = s.readyQueue ∧
      s.accepted.readyDial = s.readyDial ∧ s.accepted.monitorDial = s.monitorDial ∧ s.accepted.monitoring = s.monitoring := by
    unfold Slave.accepted
    split
    · split <;> exact ⟨rfl,rfl,rfl,rfl,rfl,rfl⟩
    · exact ⟨rfl,rfl,rfl,rfl,rfl,rfl⟩
  obtain ⟨ha1,ha2,ha3,ha4,ha5,ha6⟩ := hacc
  have htable (id : Id) : tableIndex s.slaves id = if id = ident p then some (some p) else tableIndex (c.slave q).slaves id := by
    rw [hslaves,tableIndex_assign]
  have hold (r : Proc) (h : tableIndex (c.slave q).slaves (ident r) ≠ none) : tableIndex s.slaves (ident r) ≠ none := by
    rw [htable]
    split
    · simp
    · exact h
  refine hm.update (p := q) ?_ rfl (fun r hr => by simp [hr]) ?_ ?_ ?_ ?_ ?_ (fun r r' hr => .inl (List.mem_of_mem_erase hr)) fun r hr => ?_
  · refine hinv.congr rfl (fun r id => ?_) (fun r => ?_) (.refl _) fun r hb => ?_
    · unfold View.enter
      by_cases hr : r = q
      · simp [view,hr,ha1,htable]
      · simp [view,hr]
    · by_cases hr : r = q
      · simp [view,duty,Slave.duty,hr,ha2,ha3,ha4,ha5,hcq,hrq,hrd,hmd]
      · simp [view,duty,hr]
    · by_cases hr : r = q
      · simpa [view,hr,ha2,hcq] using hb
      · simpa [view,hr] using hb
  · have hs := hm.stage q
    unfold Stage at hs ⊢
    simp only [setSlave_slave,Function.update_self]
    rw [ha1,ha2,ha6,hcq,hmon']
    cases hp' : (c.slave q).phase with
    | off =>
      rw [hp',hmon] at hs
      cases hs.2.2.1
    | shaking =>
      rw [hp',hmon] at hs
      cases hs.2.2.1
    | waiting n =>
      rw [hp'] at hs
      obtain ⟨h1,h2,h3,h4,h5,h6⟩ := hs
      by_cases hn : s.slaves.length ≥ n
      · have hph : s.accepted.phase = .closing true := by simp [Slave.accepted,hphase,hp',hn]
        rw [hph]
        refine ⟨h1,h2,h3,h4,fun r hr => ?_⟩
        refine tableIndex_full (c := c) (p := q) hkeys (fun id hid => ?_) (by rw [← h5]; exact hn) hr
        rw [htable] at hid
        split at hid
        · rename_i he
          exact ⟨p,ho,he⟩
        · obtain ⟨x,hx⟩ := Option.ne_none_iff_exists'.mp hid
          obtain ⟨r',he,_,hor⟩ := hm.inv.table_mem q id x hx
          refine ⟨r',hor.resolve_left fun hor => hid ?_,he⟩
          rw [he]
          exact hm.inv.bound q r' h1 hor
      · have hph : s.accepted.phase = .waiting n := by simp [Slave.accepted,hphase,hp',hn]
        rw [hph]
        exact ⟨h1,h2,h3,h4,h5,by omega⟩
    | closing b =>
      rw [hp'] at hs
      obtain ⟨h1,h2,h3,h4,h5⟩ := hs
      have hph : s.accepted.phase = .closing b := by simp [Slave.accepted,hphase,hp']
      rw [hph]
      exact ⟨h1,h2,h3,h4,fun r hr => hold r (h5 r hr)⟩
    | serving =>
      rw [hp'] at hs
      obtain ⟨h1,h2,h3,h4,h5⟩ := hs
      have hph : s.accepted.phase = .serving := by simp [Slave.accepted,hphase,hp']
      rw [hph]
      exact ⟨h1,h2,h3,h4,fun r hr => hold r (h5 r hr)⟩
    | failed =>
      rw [hp'] at hs
      exact hs.elim
  · simpa [ha2,ha3,ha4,ha5,hcq,hrq,hrd,hmd] using hm.idle q
  · simpa [ha3,ha4,hrq,hrd] using hm.queued q
  · simpa [ha1] using hkeys
  · simpa using hm.down q
  · simpa [ha6,hmon'] using hmon

/-- All the harbors before it have connected, and the slave connects to those behind it. -/
theorem Mesh.ready (hm : c.Mesh ident) {queue order : List (Id × Proc)} (hc : (c.slave p).isClosing = true)
    (hq : (c.slave p).connectQueue = some queue) (ho : order.Perm queue) :
    (c.setSlave p { c.slave p with phase := .serving, connectQueue := none, readyQueue := order.tail, readyDial := order.head? }).Mesh ident := by
  have hsome : (c.slave p).connectQueue.isSome = true := by simp [hq]
  obtain ⟨h1,h2,h3⟩ := hm.idle p hsome
  have hs := hm.stage p
  unfold Stage at hs
  have hclosing : ∃ b, (c.slave p).phase = .closing b := by
    unfold Slave.isClosing at hc
    split at hc
    · rename_i b hb
      exact ⟨b,hb⟩
    all_goals cases hc
  obtain ⟨b,hb⟩ := hclosing
  rw [hb] at hs
  obtain ⟨_,hmon,hfds,hconn,hold⟩ := hs
  refine hm.update (p := p) ?_ rfl (fun q hq => by simp [hq]) ?_ ?_ ?_ ?_ ?_ (fun r q hq => .inl hq) fun r hr => ?_
  · refine hm.inv.congr rfl (fun r id => ?_) (fun r => ?_) (.refl _) fun r hb => ?_
    · by_cases hr : r = p
      · simp [view,hr]
      · simp [view,hr]
    · by_cases hr : r = p
      · have hcons : (order.tail ++ order.head?.toList).Perm queue := by
          cases order with
          | nil => exact ho
          | cons x l =>
            have hx : (l ++ [x]).Perm ([x] ++ l) := List.perm_append_comm
            exact hx.trans ho
        simpa [view,duty,Slave.duty,hr,hq,h1,h2,h3] using hcons.append_right _
      · simp [view,duty,hr]
    · by_cases hr : r = p
      · simp [view,hr] at hb
      · simpa [view,hr] using hb
  · unfold Stage
    simp only [setSlave_slave,Function.update_self]
    exact ⟨trivial,hmon,hfds,hconn,hold⟩
  · simp
  · cases order <;> simp
  · simpa using hm.keys p
  · simpa using hm.down p
  · simpa using hmon

/-- What a slave knows about its connections is not changed. -/
def SameSlave (s s' : Slave) : Prop :=
  s'.slaves = s.slaves ∧ s'.phase = s.phase ∧ s'.connectQueue = s.connectQueue ∧ s'.readyQueue = s.readyQueue ∧ s'.readyDial = s.readyDial ∧
    s'.monitorDial = s.monitorDial ∧ s'.monitoring = s.monitoring

/-- Packages are sent to the master, or none, and other tables change. -/
theorem sameMesh_post {us : List ToMaster} (h : SameSlave (c.slave p) s) : c.SameMesh ((c.setSlave p s).setUp p (c.up p ++ us)) := by
  obtain ⟨h1,h2,h3,h4,h5,h6,h7⟩ := h
  have hat {α : Type} (f : Slave → α) (hf : f s = f (c.slave p)) (q : Proc) : f (((c.setSlave p s).setUp p (c.up p ++ us)).slave q) = f (c.slave q) := by
    rw [setUp_slave,setSlave_slave,Function.update_apply]
    split
    · rename_i hq
      rw [hq]
      exact hf
    · rfl
  refine ⟨rfl,rfl,rfl,rfl,hat _ h1,hat _ h2,hat _ h3,hat _ h4,hat _ h5,hat _ h6,hat _ h7,fun q m us' _ hu => ?_,fun _ => rfl,fun _ _ ds _ hd => ⟨ds,hd⟩,
    fun _ _ hd => hd,fun _ _ hd => hd⟩
  rw [setUp_up,Function.update_apply]
  split
  · rename_i hq
    exact ⟨us' ++ us,by rw [← hq,hu]; rfl⟩
  · exact ⟨us',hu⟩

theorem sameMesh_refl (c : Cluster) : c.SameMesh c :=
  ⟨rfl,rfl,rfl,rfl,fun _ => rfl,fun _ => rfl,fun _ => rfl,fun _ => rfl,fun _ => rfl,fun _ => rfl,fun _ => rfl,fun _ _ us _ hu => ⟨us,hu⟩,fun _ => rfl,
    fun _ _ ds _ hd => ⟨ds,hd⟩,fun _ _ hd => hd,fun _ _ hd => hd⟩

theorem sameMesh_set (h : SameSlave (c.slave p) s) : c.SameMesh (c.setSlave p s) := by
  have h' : c.SameMesh ((c.setSlave p s).setUp p (c.up p ++ [])) := sameMesh_post h
  have he : (c.setSlave p s).setUp p (c.up p ++ []) = c.setSlave p s := by
    rw [List.append_nil]
    exact congrArg (fun up => ({ c.setSlave p s with up := up } : Cluster)) (Function.update_eq_self p c.up)
  rwa [he] at h'

theorem post_append (c : Cluster) (p : Proc) (m : ToMaster) :
    c.post p m = c.setUp p (c.up p ++ if (c.slave p).masterFd = true then [m] else []) := by
  rw [post_eq]
  split
  · rfl
  · rw [List.append_nil]

/-- The master reads a package that is no handshake. -/
theorem Mesh.dispatch (hm : c.Mesh ident) (hc : (c.conn p).isMonitored = true) {m : ToMaster} {us : List ToMaster} :
    c.SameMesh ((c.setUp p us).dispatchSlave p m) := by
  have hup (q : Proc) (m' : ToMaster) (us' : List ToMaster) (hq : c.conn q = .handshaking) (hu : c.up q = m' :: us') :
      ∃ us'', (c.setUp p us).up q = m' :: us'' := by
    have hqp : q ≠ p := by
      rintro rfl
      rw [hq] at hc
      cases hc
    exact ⟨us',by simpa [hqp] using hu⟩
  have hnot (q : Proc) (hq : c.conn q = .handshaking) : c.fds.count q = 0 := List.count_eq_zero_of_not_mem (hm.handshaking hq).2.2.2.2.1
  have hsend (l : List Proc) (g : List (Name × Handle)) (name : Name) (address : Handle) (hl : ∀ q, c.conn q = .handshaking → l.count q = 0) :
      c.SameMesh (sendAll { c.setUp p us with globalName := g } l (.N name address)) := by
    refine ⟨rfl,rfl,rfl,rfl,fun _ => rfl,fun _ => rfl,fun _ => rfl,fun _ => rfl,fun _ => rfl,fun _ => rfl,fun _ => rfl,hup,fun q => ?_,fun q n ds _ hd => ?_,
      fun q hq hd => ?_,fun q id hd => ?_⟩
    · show (c.down q ++ List.replicate (l.count q) (ToSlave.N name address)).filterMap _ = _
      rw [List.filterMap_append,List.filterMap_replicate_of_none rfl,List.append_nil]
    · exact ⟨ds ++ List.replicate (l.count q) (.N name address),by show c.down q ++ _ = _; rw [hd]; rfl⟩
    · show c.down q ++ List.replicate (l.count q) (ToSlave.N name address) = []
      rw [hd,hl q hq]
      rfl
    · exact (List.mem_append.mp hd).resolve_right fun h => by cases List.eq_of_mem_replicate h
  have hsame : c.SameMesh (c.setUp p us) :=
    ⟨rfl,rfl,rfl,rfl,fun _ => rfl,fun _ => rfl,fun _ => rfl,fun _ => rfl,fun _ => rfl,fun _ => rfl,fun _ => rfl,hup,fun _ => rfl,fun _ _ ds _ hd => ⟨ds,hd⟩,
      fun _ _ hd => hd,fun _ _ hd => hd⟩
  unfold dispatchSlave
  split
  · exact hsend c.fds _ _ _ hnot
  · split
    · rw [send_eq]
      refine hsend [p] c.globalName _ _ fun q hq => List.count_eq_zero_of_not_mem fun h => ?_
      rw [List.mem_singleton.mp h] at hq
      rw [hq] at hc
      cases hc
    · exact hsame
  · exact hsame

theorem readyLoop_new {l : List (Id × Proc)} (h : ∀ x ∈ l, tableIndex s.slaves x.1 = none) (hd : s.readyDial = none) :
    ∃ fx, Slave.readyLoop p l s = .ok { s with readyQueue := l.tail, readyDial := l.head? } fx := by
  cases l with
  | nil => exact ⟨_,by rw [Slave.readyLoop,List.tail_nil,List.head?_nil,← hd]⟩
  | cons x l =>
    refine ⟨[],?_⟩
    rw [Slave.readyLoop,if_pos (by rw [h x List.mem_cons_self]; rfl)]
    rfl

theorem Mesh.dialed (hi : Function.Injective ident) (hm : c.Mesh ident) {d : Dialer} (h : c.dialed p true d = .ok c' fx) : c'.Mesh ident := by
  have hbound (hn : (c.slave p).readyDial ≠ none ∨ (c.slave p).monitorDial ≠ none) : (c.slave p).connectQueue = none := by
    by_contra hne
    obtain ⟨_,h2,h3⟩ := hm.idle p (Option.isSome_iff_ne_none.mpr hne)
    exact hn.elim (fun h => h h2) fun h => h h3
  cases d with
  | monitor =>
    simp only [Cluster.dialed] at h
    split at h
    · cases h
      exact hm
    · rename_i id a hdial
      have hq := hbound (.inr (by simp [hdial]))
      have hmem : (id,a) ∈ c.duty p := by simp [duty,Slave.duty,hdial]
      obtain ⟨q,he,_,_⟩ := hm.entry hmem
      cases he
      simp only [Slave.opened_true,Slave.connected_eq,Act.bind_ok,Act.pure_eq,Act.after_ok,if_true] at h
      cases h
      refine hm.dial hi hq ?_ rfl rfl hq rfl (hm.queued p)
      have hp : (c.duty p).Perm ((c.slave p).readyQueue ++ (c.slave p).readyDial.toList ++ (ident a,a) :: (c.down p).filterMap ToSlave.entry) :=
        .of_eq (by simp [duty,Slave.duty,hq,hdial])
      refine hp.trans (List.perm_middle.trans (.of_eq ?_))
      simp [Slave.duty,hq]
  | ready =>
    simp only [Cluster.dialed] at h
    split at h
    · cases h
      exact hm
    · rename_i id a hdial
      have hq := hbound (.inl (by simp [hdial]))
      have hmem : (id,a) ∈ c.duty p := by simp [duty,Slave.duty,hdial]
      obtain ⟨q,he,_,_⟩ := hm.entry hmem
      cases he
      simp only [Slave.opened_true,Slave.connected_eq,Act.bind_ok,if_true] at h
      have hdl : c.duty p = (c.slave p).readyQueue ++ (ident a,a) :: ((c.slave p).monitorDial.toList ++ (c.down p).filterMap ToSlave.entry) := by
        simp [duty,Slave.duty,hq,hdial]
      have hfree (x : Id × Proc) (hx : x ∈ (c.slave p).readyQueue) :
          tableIndex (assign (c.slave p).slaves (ident a) (some (some a))) x.1 = none := by
        have hxm : x ∈ c.duty p := by
          rw [hdl]
          exact List.mem_append_left _ hx
        obtain ⟨q,rfl,_,hn⟩ := hm.entry hxm
        have hnd : (c.duty p).Nodup := hm.inv.duty_nodup p
        rw [hdl] at hnd
        have hne := (List.nodup_append.mp hnd).2.2 _ hx _ List.mem_cons_self
        rw [tableIndex_assign,if_neg fun he => hne (by rw [hi he]),hn]
      generalize hs : ({ c.slave p with
        readyDial := none
        slaves := assign (c.slave p).slaves (ident a) (some (some a))
        monitor := assign (c.slave p).monitor (ident a) none } : Slave) = s at h
      have hloop : ∃ fx', Slave.readyLoop p (c.slave p).readyQueue s =
          .ok { s with readyQueue := (c.slave p).readyQueue.tail, readyDial := (c.slave p).readyQueue.head? } fx' := by
        refine readyLoop_new (fun x hx => ?_) ?_
        · rw [← hs]
          exact hfree x hx
        · rw [← hs]
      obtain ⟨fx',hloop⟩ := hloop
      rw [hloop] at h
      cases h
      refine hm.dial hi hq ?_ (by rw [← hs]) (by rw [← hs]) (by rw [← hs]; exact hq) (by rw [← hs]) ?_
      · rw [hdl]
        refine List.perm_middle.trans (.cons _ ?_)
        have hr : ((c.slave p).readyQueue.tail ++ (c.slave p).readyQueue.head?.toList).Perm (c.slave p).readyQueue := by
          cases (c.slave p).readyQueue with
          | nil => exact .refl _
          | cons x l =>
            have hx : (l ++ [x]).Perm ([x] ++ l) := List.perm_append_comm
            exact hx
        have he : ((c.slave p).readyQueue.tail ++ (c.slave p).readyQueue.head?.toList ++
            ((c.slave p).monitorDial.toList ++ (c.down p).filterMap ToSlave.entry)).Perm
            ((c.slave p).readyQueue ++ ((c.slave p).monitorDial.toList ++ (c.down p).filterMap ToSlave.entry)) := hr.append_right _
        refine he.symm.trans (.of_eq ?_)
        rw [← hs]
        simp [Slave.duty,hq]
      · cases (c.slave p).readyQueue <;> simp

/-- Every step without a failure keeps the mesh. -/
theorem step_mesh (hi : Function.Injective ident) (h0 : ∀ p, ident p ≠ 0) (hm : c.Mesh ident) (ha : c.Allowed e) (hf : e.Faultless ident)
    (h : step fits c e = .ok c' fx) : c'.Mesh ident := by
  cases e with
  | start p id =>
    cases h
    exact hm.start ha hf
  | handshake p =>
    simp only [step] at h
    split at h
    · rename_i m rest hu
      cases h
      exact hm.handshake hi h0 ha.1 hu
    · cases h
      exact hm
  | dispatch p =>
    simp only [step] at h
    split at h
    · cases h
      exact (hm.dispatch ha.1).mesh hm
    · cases h
      exact hm
  | shake p =>
    obtain ⟨n,ds,hd,hm'⟩ := hm.shake ha.1 ha.2
    simp only [step,hd] at h
    cases h
    exact hm'
  | receive p =>
    obtain ⟨hmon,hdial,_⟩ := ha
    simp only [step] at h
    split at h
    · rename_i m rest hd
      obtain ⟨s,hs,rfl⟩ := act_eq_ok.mp h
      have hskip (hn : m.entry = none) : ((c.slave p).duty ++ rest.filterMap ToSlave.entry).Perm (c.duty p) :=
        .of_eq (by simp [duty,hd,hn])
      cases m with
      | W n =>
        cases hs
        exact hm.read hmon hd rfl rfl rfl hmon (hskip rfl) (hm.idle p) (hm.queued p)
      | C id a => exact hm.receive_C hi hmon hdial hd hs
      | N name address =>
        rw [Slave.monitorMaster_N] at hs
        cases hs
        exact hm.read hmon hd rfl rfl rfl hmon (hskip rfl) (hm.idle p) (hm.queued p)
      | D id => exact absurd (by simp [hd]) (hm.down p id)
    · cases h
      exact hm
  | dialed p d ok =>
    have hok : ok = true := hf
    rw [hok] at h
    exact hm.dialed hi h
  | incoming q p =>
    cases h
    exact hm.incoming ha.1 ha.2
  | accept q p o =>
    have ho : o = some (ident p) := hf
    simp only [step,act_eq_ok,ho,acceptSlave_new (hm.pending_none ha)] at h
    obtain ⟨s,hs,rfl⟩ := h
    cases hs
    exact hm.accept hi ha
  | ready p order =>
    obtain ⟨hc,ho⟩ := ha
    cases hq : (c.slave p).connectQueue with
    | none =>
      rw [hq] at ho
      cases ho
    | some queue =>
      have ho : order.Perm queue := by simpa [hq] using ho
      obtain ⟨_,h2,_⟩ := hm.idle p (by simp [hq])
      have hloop := readyLoop_new (p := p) (l := order) (s := { c.slave p with phase := .serving, connectQueue := none }) (fun x hx => ?_) h2
      · obtain ⟨fx',hloop⟩ := hloop
        simp only [step,act_eq_ok,hloop] at h
        obtain ⟨s,hs,rfl⟩ := h
        cases hs
        exact hm.ready hc hq ho
      · have hxm : x ∈ c.duty p := by simp [duty,Slave.duty,hq,ho.mem_iff.mp hx]
        obtain ⟨q,rfl,_,hn⟩ := hm.entry hxm
        exact hn
  | register p name address =>
    simp only [step] at h
    cases hl : tableIndex (c.slave p).globalname name with
    | some a =>
      rw [register,hl] at h
      cases h
      exact hm
    | none =>
      rw [register_eq hl] at h
      split at h
      · cases h
        rw [post_append]
        refine (sameMesh_post ?_).mesh hm
        exact ⟨rfl,rfl,rfl,rfl,rfl,rfl,rfl⟩
      · cases h
        refine (sameMesh_set ?_).mesh hm
        exact ⟨rfl,rfl,rfl,rfl,rfl,rfl,rfl⟩
  | queryName p name r =>
    simp only [step,queryName] at h
    split at h
    · cases h
      exact hm
    · split at h
      · cases h
        exact hm
      · split at h
        · cases h
          refine (sameMesh_set ?_).mesh hm
          exact ⟨rfl,rfl,rfl,rfl,rfl,rfl,rfl⟩
        · split at h
          · cases h
            rw [post_append]
            have hs (us : List ToMaster) : c.SameMesh ((c.setSlave p { c.slave p with queryname := assign (c.slave p).queryname name (some [r]) }).setUp p (c.up p ++ us)) :=
              sameMesh_post ⟨rfl,rfl,rfl,rfl,rfl,rfl,rfl⟩
            exact (hs _).mesh hm
          · cases h
            exact hm
  | link p id r | connect p id r =>
    simp only [step] at h
    split at h
    · cases h
      refine (sameMesh_set ?_).mesh hm
      exact ⟨rfl,rfl,rfl,rfl,rfl,rfl,rfl⟩
    · cases h
      exact hm
  | linkMaster p r =>
    cases h
    refine (sameMesh_set ?_).mesh hm
    exact ⟨rfl,rfl,rfl,rfl,rfl,rfl,rfl⟩
  | harborQuery p name =>
    simp only [step] at h
    split at h
    · cases h
      exact hm
    · split at h
      · cases h
        rw [post_append]
        have hs : c.setSlave p (c.slave p) = c := congrArg (fun slave => ({ c with slave := slave } : Cluster)) (Function.update_eq_self p c.slave)
        have h' (us : List ToMaster) : c.SameMesh ((c.setSlave p (c.slave p)).setUp p (c.up p ++ us)) := sameMesh_post ⟨rfl,rfl,rfl,rfl,rfl,rfl,rfl⟩
        rw [hs] at h'
        exact (h' _).mesh hm
      · cases h
        exact hm
  | drop _ | lost _ | harborDown _ _ => cases hf

theorem init_mesh : init.Mesh ident := by
  refine ⟨⟨List.nodup_nil,fun _ => List.nodup_nil,fun _ _ h => (by cases h),fun _ _ h => (by cases h),fun _ _ h => (by cases h.1),
    fun _ _ _ _ => rfl,List.nodup_nil,fun _ _ h => (by cases h),fun _ _ h => (by cases h.1),fun _ _ h => (by cases h.1),fun _ _ _ h => (by cases h)⟩,
    fun p => ⟨rfl,rfl,rfl,fun h => (by cases h),rfl⟩,fun _ _ => ⟨rfl,rfl,rfl⟩,fun _ h => absurd rfl h,fun _ => List.nodup_nil,fun _ h => absurd rfl h,
    fun _ _ h => (by cases h),fun _ _ h => (by cases h)⟩

end Cluster

/-- The events that the cluster brings about itself. -/
def Event.isInternal : Event → Bool
  | .handshake _ | .dispatch _ | .shake _ | .receive _ | .dialed _ _ _ | .incoming _ _ | .accept _ _ _ | .ready _ _ => true
  | .start _ _ | .drop _ | .lost _ | .register _ _ _ | .queryName _ _ _ | .link _ _ _ | .connect _ _ _ | .linkMaster _ _ | .harborQuery _ _
  | .harborDown _ _ => false

/-- The process whose slave, or whose socket of the master, goes on. -/
def Event.proc : Event → Proc
  | .start p _ | .handshake p | .dispatch p | .drop p | .shake p | .receive p | .lost p | .dialed p _ _ | .incoming p _ | .accept p _ _ | .ready p _
  | .register p _ _ | .queryName p _ _ | .link p _ _ | .connect p _ _ | .linkMaster p _ | .harborQuery p _ | .harborDown p _ => p

namespace Cluster
variable {fits : Name → Option Handle → Bool} {ident : Proc → Id} {c c' : Cluster} {p q : Proc} {tr : Trace Event Effect} {e : Event}
  {fx : List Effect} {s : Slave}

theorem setSlave_of_ne (h : p ≠ q) : (c.setSlave q s).slave p = c.slave p := Function.update_of_ne h _ _

theorem post_slave {m : ToMaster} : (c.post q m).slave = c.slave := by
  unfold post
  split <;> rfl

/-- A step changes one slave. -/
theorem step_frame (hp : p ≠ e.proc) (h : step fits c e = .ok c' fx) : c'.slave p = c.slave p := by
  cases e with
  | start q id =>
    cases h
    exact setSlave_of_ne hp
  | handshake q =>
    simp only [step] at h
    split at h
    · rename_i m rest _
      cases h
      cases m with
      | H id addr =>
        rw [handshake]
        split <;> rfl
      | R _ _ | Q _ => rfl
    · cases h
      rfl
  | dispatch q =>
    simp only [step] at h
    split at h
    · rename_i m rest _
      cases h
      cases m with
      | Q name =>
        rw [dispatchSlave]
        split <;> rfl
      | R _ _ | H _ _ => rfl
    · cases h
      rfl
  | drop q =>
    simp only [step] at h
    split at h <;> cases h <;> rfl
  | shake q | lost q | linkMaster q r =>
    simp only [step] at h
    try split at h
    all_goals
      cases h
      exact setSlave_of_ne hp
  | receive q =>
    simp only [step] at h
    split at h
    · obtain ⟨s,_,rfl⟩ := act_eq_ok.mp h
      exact setSlave_of_ne hp
    · cases h
      rfl
  | dialed q d ok =>
    cases d with
    | monitor =>
      simp only [step,dialed] at h
      split at h
      · cases h
        rfl
      · obtain ⟨s,_,_,_,hs,_⟩ := Act.bind_eq_ok.mp h
        cases hs
        exact setSlave_of_ne hp
    | ready =>
      simp only [step,dialed] at h
      split at h
      · cases h
        rfl
      · obtain ⟨s,_,_,_,hs,_⟩ := Act.bind_eq_ok.mp h
        obtain ⟨s',_,_,_,hs',_⟩ := Act.bind_eq_ok.mp hs
        cases hs'
        exact setSlave_of_ne hp
  | incoming q p' =>
    cases h
    rfl
  | accept q p' o | ready q order | harborDown q id =>
    simp only [step] at h
    obtain ⟨s,_,rfl⟩ := act_eq_ok.mp h
    exact setSlave_of_ne hp
  | register q name address =>
    simp only [step,register] at h
    split at h
    · cases h
      rfl
    · obtain ⟨s,_,_,_,hs,_⟩ := Act.bind_eq_ok.mp h
      split at hs
      · cases hs
        rw [post_slave]
        exact setSlave_of_ne hp
      · cases hs
        exact setSlave_of_ne hp
  | queryName q name r =>
    simp only [step,queryName] at h
    repeat' split at h
    all_goals cases h
    · rfl
    · rfl
    · exact setSlave_of_ne hp
    · exact (setSlave_of_ne hp).trans (congrFun post_slave p)
    · rfl
  | link q id r | connect q id r =>
    simp only [step] at h
    split at h
    · cases h
      exact setSlave_of_ne hp
    · cases h
      rfl
  | harborQuery q name =>
    simp only [step] at h
    repeat' split at h
    all_goals cases h
    · rfl
    · rw [post_slave]
    · rfl

/-- Nothing has happened to a slave that no event was for. -/
theorem fresh_of_notMem {guard : Trace Event Effect → Cluster → Event → Prop} (hrun : Run (step fits) guard init tr c)
    (hp : ∀ e ∈ tr.map Prod.fst, p ≠ e.proc) : c.slave p = .fresh := by
  refine hrun.invariant (fun tr c => (∀ e ∈ tr.map Prod.fst, p ≠ e.proc) → c.slave p = .fresh) (fun _ => rfl) (fun tr c e c' fx ih _ h hp => ?_) hp
  rw [List.map_append] at hp
  rw [step_frame (hp e (List.mem_append_right _ List.mem_cons_self)) h]
  exact ih fun e he => hp e (List.mem_append_left _ he)

/-- The cluster waits for its clients, or for another process to be started. -/
def Resting (c : Cluster) : Prop := ∀ e : Event, e.isInternal = true → ¬c.Allowed e

theorem Mesh.duty_of_serving (hm : c.Mesh ident) (hr : c.Resting) (hs : (c.slave p).phase = .serving) : c.duty p = [] := by
  obtain ⟨hq,hmon,_⟩ := hm.serving hs
  have hrd : (c.slave p).readyDial = none := by
    by_contra h
    exact hr (.dialed p .ready true) rfl h
  have hmd : (c.slave p).monitorDial = none := by
    by_contra h
    exact hr (.dialed p .monitor true) rfl h
  have hrq : (c.slave p).readyQueue = [] := by
    by_contra h
    exact hm.queued p h hrd
  have hd : c.down p = [] := by
    by_contra h
    exact hr (.receive p) rfl ⟨hmon,hmd,h⟩
  simp [duty,Slave.duty,hq,hrd,hmd,hrq,hd]

/-- A younger slave that can be reached is in the table of a slave at rest, and has it in its own. -/
theorem Mesh.reached (hm : c.Mesh ident) (hr : c.Resting) (hs : (c.slave p).phase = .serving) (ho : c.view.Older p q) :
    tableIndex (c.slave p).slaves (ident q) = some (some q) ∧ ((c.slave q).isListening = true → tableIndex (c.slave q).slaves (ident p) = some (some p)) := by
  have hnone := hm.duty_of_serving hr hs
  have ht : tableIndex (c.slave p).slaves (ident q) = some (some q) := by
    rcases hm.inv.duty_or p q ho with h | h
    · have h : (ident q,q) ∈ c.duty p := h
      rw [hnone] at h
      cases h
    · exact h
  refine ⟨ht,fun hl => ?_⟩
  have hne : c.view.table p (ident q) ≠ none := by
    show tableIndex (c.slave p).slaves (ident q) ≠ none
    simp [ht]
  rcases hm.inv.links_or p q ho hne with h | h
  · rcases List.mem_append.mp h with h | h
    · exact absurd ⟨hl,h⟩ (hr (.incoming q p) rfl)
    · exact absurd h (hr (.accept q p none) rfl)
  · exact h

/-- A slave that was started has joined, since nothing is left of its handshake. -/
theorem Mesh.joined_of_resting (hm : c.Mesh ident) (hr : c.Resting) (hp : (c.slave p).phase ≠ .off) : p ∈ c.fds := by
  have hs := hm.stage p
  unfold Stage at hs
  cases hph : (c.slave p).phase with
  | off => exact absurd hph hp
  | failed =>
    rw [hph] at hs
    exact hs.elim
  | shaking =>
    rw [hph] at hs
    obtain ⟨_,_,_,⟨hc,_,_,us,hu⟩ | ⟨hf,_⟩⟩ := hs
    · exact absurd ⟨hc,by simp [hu]⟩ (hr (.handshake p) rfl)
    · exact hf
  | waiting n | closing b | serving =>
    rw [hph] at hs
    exact hs.2.2.1

theorem Mesh.all_serving (hi : Function.Injective ident) (hm : c.Mesh ident) (hr : c.Resting) (hp : p ∈ c.fds) : (c.slave p).phase = .serving := by
  generalize hn : (c.view.before p).length = n
  induction n using Nat.strongRecOn generalizing p with
  | _ n ih =>
    have hold (q : Proc) (ho : c.view.Older q p) : (c.slave q).phase = .serving := ih _ (hn ▸ ho.before_lt) ho.mem rfl
    have hs := hm.stage p
    unfold Stage at hs
    cases hph : (c.slave p).phase with
    | serving => rfl
    | off =>
      rw [hph] at hs
      exact absurd hp hs.2.2.2.1
    | failed =>
      rw [hph] at hs
      exact hs.elim
    | shaking =>
      rw [hph] at hs
      obtain ⟨_,_,_,⟨_,hnot,_⟩ | ⟨_,_,ds,hd⟩⟩ := hs
      · exact absurd hp hnot
      · exact absurd ⟨hph,.inl (by simp [hd])⟩ (hr (.shake p) rfl)
    | closing b =>
      rw [hph] at hs
      obtain ⟨queue,hq⟩ := Option.isSome_iff_exists.mp hs.1
      exact absurd ⟨by simp [Slave.isClosing,hph],by simp [hq]⟩ (hr (.ready p queue) rfl)
    | waiting n =>
      rw [hph] at hs
      obtain ⟨_,_,_,_,hlen,hlt⟩ := hs
      have hl : (c.slave p).isListening = true := by simp [Slave.isListening,hph]
      have hsub : (c.view.before p).map ident ⊆ (c.slave p).slaves.map Prod.fst := by
        intro id hid
        obtain ⟨q,hq,rfl⟩ := List.mem_map.mp hid
        have ho : c.view.Older q p := ⟨hp,hq⟩
        exact List.mem_map.mpr ⟨_,mem_of_tableIndex ((hm.reached hr (hold q ho) ho).2 hl),rfl⟩
      have hnd : ((c.view.before p).map ident).Nodup := (hm.inv.nodup.sublist (List.takeWhile_sublist _)).map hi
      have hle := (hnd.subperm hsub).length_le
      simp at hle
      omega

/-- A slave that serves, with nothing under way from or to it. -/
def Settled (c : Cluster) (p : Proc) : Prop :=
  (c.slave p).phase = .serving ∧ c.up p = [] ∧ c.down p = [] ∧ (c.slave p).readyDial = none ∧ (c.slave p).monitorDial = none

instance (c : Cluster) (p : Proc) : Decidable (c.Settled p) := inferInstanceAs (Decidable (_ ∧ _))

/-- A cluster is at rest when every slave that was started serves and nothing is under way. -/
theorem Mesh.resting (hm : c.Mesh ident) (hd : c.dials = []) (hpd : c.pending = [])
    (h : ∀ p, (c.slave p).phase = .off ∨ c.Settled p) : c.Resting := by
  have hup (p : Proc) (hc : c.conn p ≠ .none) : c.up p = [] := by
    rcases h p with hp | ⟨_,hu,_⟩
    · obtain ⟨_,_,_,_,hnone⟩ := hm.off hp
      exact absurd hnone hc
    · exact hu
  intro e he ha
  cases e with
  | handshake p => exact ha.2 (hup p (by simp [ha.1]))
  | dispatch p =>
    refine ha.2 (hup p fun hc => ?_)
    have ha := ha.1
    rw [hc] at ha
    cases ha
  | shake p =>
    rcases h p with hp | ⟨hp,_⟩
    · cases hp.symm.trans ha.1
    · cases hp.symm.trans ha.1
  | receive p =>
    rcases h p with hp | ⟨_,_,hdn,_⟩
    · obtain ⟨_,_,hmon,_⟩ := hm.off hp
      cases hmon.symm.trans ha.1
    · exact ha.2.2 hdn
  | dialed p d ok =>
    have hnone : (c.slave p).readyDial = none ∧ (c.slave p).monitorDial = none := by
      rcases h p with hp | ⟨_,_,_,hdials⟩
      · obtain ⟨_,hq,_⟩ := hm.off hp
        exact (hm.idle p hq).2
      · exact hdials
    cases d with
    | ready => exact ha hnone.1
    | monitor => exact ha hnone.2
  | incoming q p => exact List.not_mem_nil (hd ▸ ha.2)
  | accept q p id => exact List.not_mem_nil (hpd ▸ (show (p,q) ∈ c.pending from ha))
  | ready p order =>
    have ha := ha.1
    rcases h p with hp | ⟨hp,_⟩ <;> simp [Slave.isClosing,hp] at ha
  | start _ _ | drop _ | lost _ | register _ _ _ | queryName _ _ _ | link _ _ _ | connect _ _ _ | linkMaster _ _ | harborQuery _ _
  | harborDown _ _ => cases he

/-- A run without failures keeps the mesh. -/
theorem run_mesh (hi : Function.Injective ident) (h0 : ∀ p, ident p ≠ 0)
    (hrun : Run (step fits) (fun _ c e => c.Allowed e ∧ e.Faultless ident) init tr c) : c.Mesh ident :=
  hrun.invariant (fun _ c => c.Mesh ident) init_mesh fun _ _ _ _ _ hm hg h => step_mesh hi h0 hm hg.1 hg.2 h

/-- The other side takes each connection. -/
theorem connection_taken (hi : Function.Injective ident) (h0 : ∀ p, ident p ≠ 0)
    (hrun : Run (step fits) (fun _ c e => c.Allowed e ∧ e.Faultless ident) init tr c) {o : Option Id} (hx : (.accept q p o,fx) ∈ tr) :
    .harborA q p (ident p) ∈ fx := by
  have hinv : c.Mesh ident ∧ ∀ q p o fx, (.accept q p o,fx) ∈ tr → .harborA q p (ident p) ∈ fx := by
    refine hrun.invariant (fun tr c => c.Mesh ident ∧ ∀ q p o fx, (.accept q p o,fx) ∈ tr → .harborA q p (ident p) ∈ fx)
      ⟨init_mesh,fun _ _ _ _ h => (by cases h)⟩ fun tr c e c' fx hm hg h => ⟨step_mesh hi h0 hm.1 hg.1 hg.2 h,fun q p o fx' hx => ?_⟩
    rcases List.mem_append.mp hx with hx | hx
    · exact hm.2 q p o fx' hx
    · obtain ⟨rfl,rfl⟩ := Prod.mk.inj (List.mem_singleton.mp hx)
      have ho : o = some (ident p) := hg.2
      simp only [step,act_eq_ok,ho,acceptSlave_new (hm.1.pending_none hg.1)] at h
      obtain ⟨s,hs,rfl⟩ := h
      cases hs
      simp
  exact hinv.2 q p o fx hx

/-- In a run without failures, whatever the order of its steps: when the cluster has come to rest,
every process that was started serves, and every two of them have each other's connection in their tables; no
connection was refused on the way. -/
theorem mesh_complete (hi : Function.Injective ident) (h0 : ∀ p, ident p ≠ 0)
    (hrun : Run (step fits) (fun _ c e => c.Allowed e ∧ e.Faultless ident) init tr c) (hr : c.Resting) :
    (∀ p, (c.slave p).phase = .off ∨ (c.slave p).phase = .serving) ∧
      (∀ p q, (c.slave p).phase ≠ .off → (c.slave q).phase ≠ .off → p ≠ q → tableIndex (c.slave p).slaves (ident q) = some (some q)) ∧
      ∀ q p o fx, (.accept q p o,fx) ∈ tr → .harborA q p (ident p) ∈ fx := by
  have hm := run_mesh hi h0 hrun
  have hjoined (p : Proc) (hp : (c.slave p).phase ≠ .off) : p ∈ c.fds := hm.joined_of_resting hr hp
  have hserving (p : Proc) (hp : (c.slave p).phase ≠ .off) : (c.slave p).phase = .serving := hm.all_serving hi hr (hjoined p hp)
  refine ⟨fun p => ?_,fun p q hp hq hne => ?_,fun q p o fx hx => connection_taken hi h0 hrun hx⟩
  · by_cases hp : (c.slave p).phase = .off
    · exact .inl hp
    · exact .inr (hserving p hp)
  · rcases View.older_total (v := c.view) (hjoined p hp) (hjoined q hq) hne with ho | ho
    · exact (hm.reached hr (hserving p hp) ho).1
    · obtain ⟨_,_,_,_,hold⟩ := hm.serving (hserving p hp)
      obtain ⟨x,hx⟩ := Option.ne_none_iff_exists'.mp (hold q ho)
      obtain ⟨q',he,rfl,_⟩ := hm.inv.table_mem p (ident q) x hx
      rw [hx,hi he]

/-- Two slaves are started; the second connects to the first. -/
def started : List Event :=
  [.start 1 2,.handshake 1,.shake 1,.ready 1 [],.start 2 3,.handshake 2,.shake 2,.receive 1,.dialed 1 .monitor true,.incoming 2 1,
    .accept 2 1 (some 2),.ready 2 []]

theorem mesh_complete_two : ∃ tr c, Run (step fun _ _ => true) (fun _ c e => c.Allowed e ∧ e.Faultless (· + 1)) init tr c ∧
    tr.map Prod.fst = started ∧ tableIndex (c.slave 1).slaves 3 = some (some 2) ∧ tableIndex (c.slave 2).slaves 2 = some (some 1) := by
  have hcheck : runCheck (step fun _ _ => true) (fun _ c e => c.Allowed e ∧ e.Faultless (· + 1))
      (fun _ c => c.dials = [] ∧ c.pending = [] ∧ c.Settled 1 ∧ c.Settled 2) started [] init = true := by decide
  obtain ⟨tr,c,hr,hm,hd,hpd,hs1,hs2⟩ := Run.of_runCheck hcheck
  have hi : Function.Injective (· + 1 : Proc → Id) := fun _ _ h => Nat.succ.inj h
  have hrest : c.Resting := by
    refine (run_mesh hi Nat.succ_ne_zero hr).resting hd hpd fun p => ?_
    by_cases hp : p ∈ [1,2]
    · rcases List.mem_pair.mp hp with rfl | rfl
      · exact .inr hs1
      · exact .inr hs2
    · have hf : ∀ e ∈ started, p ≠ e.proc := by
        have hmem : ∀ e ∈ started, e.proc ∈ [1,2] := by decide
        intro e he hpe
        exact hp (hpe ▸ hmem e he)
      exact .inl (by rw [fresh_of_notMem hr (hm ▸ hf)]; rfl)
  obtain ⟨_,hall,_⟩ := mesh_complete hi Nat.succ_ne_zero hr hrest
  have h1 : (c.slave 1).phase ≠ .off := by simp [hs1.1]
  have h2 : (c.slave 2).phase ≠ .off := by simp [hs2.1]
  exact ⟨tr,c,hr,hm,hall 1 2 h1 h2 (by decide),hall 2 1 h2 h1 (by decide)⟩

end Cluster
end MyProgram.Harbor
