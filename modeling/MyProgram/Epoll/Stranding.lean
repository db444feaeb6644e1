import MyProgram.Epoll.Server
import MyProgram.Lib.Runs

/-! Whether input can stay behind when the server waits and nothing will wake it. -/
namespace MyProgram.Epoll
open Lib

/-- What the kernel can do next: descriptors are fresh, data arrives on connections whose
peer has not hung up, `epoll_wait` returns ready descriptors, and calls succeed. -/
def Possible (s : Server) : Input → Prop
  | .connect fd => fd ∉ (s.backlog ++ s.conns).map Conn.fd
  | .receive fd bytes => bytes ≠ [] ∧ ∃ c ∈ s.backlog ++ s.conns, c.fd = fd ∧ c.eof = false
  | .hangUp _ => True
  | .wake events => s.exited = false ∧ s.events = [] ∧ events ≠ [] ∧ events.Nodup ∧ events.length ≤ MAXEVENTS ∧
      ∀ d ∈ events, s.isReady d = true
  | .handle error => s.exited = false ∧ s.events ≠ [] ∧ error = none

/-- No connection arrives before the one ahead of it has been reported, and a read finds
fewer bytes than fill the line. -/
def Paced (s : Server) : Input → Prop
  | .connect _ => s.listenReady = false
  | .handle _ => ∀ c ∈ s.conns, s.events.head? = some (.conn c.fd) → c.unread.length < MAXLINE
  | _ => True

/-- The server waits and no report is outstanding. -/
def Quiet (s : Server) : Prop := s.events = [] ∧ ∀ d, s.isReady d = false

/-- Every connection has been accepted and every byte on an open connection read. -/
def NothingStranded (s : Server) : Prop := s.backlog = [] ∧ ∀ c ∈ s.conns, c.unread = []

/-- The reports of the listener that are still to be handled. -/
def owed (s : Server) : Nat := (if s.listenReady then 1 else 0) + if .listener ∈ s.events then 1 else 0

/-- What holds in every state, however connections arrive. -/
structure Inv (s : Server) : Prop where
  distinct : ((s.backlog ++ s.conns).map Conn.fd).Nodup
  covered : ∀ c ∈ s.conns, c.unread ≠ [] → c.ready = true ∨ .conn c.fd ∈ s.events
  live : ∀ fd, .conn fd ∈ s.events → ∃ c ∈ s.conns, c.fd = fd ∧ c.readable = true
  once : s.events.Nodup
  owed : owed s ≤ s.backlog.length

/-- The connection comes while an earlier one has not been reported. -/
def late (s : Server) : Input → Nat
  | .connect _ => if s.listenReady then 1 else 0
  | _ => 0

/-- A step keeps the invariant; only late connections outgrow the reports. -/
structure Advances (s s' : Server) (more : Nat) : Prop where
  inv : Inv s'
  surplus : s'.backlog.length + Epoll.owed s = s.backlog.length + Epoll.owed s' + more

variable {s s' : Server} {x : Input} {fx : List Effect} {f : Conn → Conn} {c : Conn} {fd : Nat} {es : List Desc}

private theorem connect_advances (h : Inv s) (hp : Possible s (.connect fd)) :
    Advances s { s with backlog := s.backlog ++ [.pending fd], listenReady := true } (late s (.connect fd)) := by
  have hsur : (s.backlog ++ [Conn.pending fd]).length + owed s =
      s.backlog.length + owed { s with backlog := s.backlog ++ [.pending fd], listenReady := true } +
        late s (.connect fd) := by
    simp only [List.length_append,List.length_singleton,owed,late,if_true]
    omega
  refine ⟨⟨?_,h.covered,h.live,h.once,?_⟩,hsur⟩
  · have hd := h.distinct
    simp only [List.map_append,List.map_cons,List.append_assoc,List.singleton_append] at hd ⊢
    refine List.nodup_middle.mpr (List.nodup_cons.mpr ⟨?_,hd⟩)
    simpa [Possible,Conn.pending] using hp
  · have ho := h.owed
    show owed _ ≤ (s.backlog ++ [Conn.pending fd]).length
    simp only [late] at hsur
    split at hsur <;> omega

/-- Something arrives on a connection. -/
private theorem update_advances (h : Inv s) (hfd : ∀ c, (f c).fd = c.fd) (hready : ∀ c, (f c).ready = true)
    (hread : ∀ c : Conn, c.readable = true → (f c).readable = true) : Advances s (s.update fd f) 0 := by
  have hmap (l : List Conn) : (l.map fun c => if c.fd = fd then f c else c).map Conn.fd = l.map Conn.fd := by
    rw [List.map_map]
    refine List.map_congr_left fun c _ => ?_
    simp only [Function.comp]
    split
    · exact hfd c
    · rfl
  have hlen : (s.update fd f).backlog.length = s.backlog.length := List.length_map _
  have howed : owed (s.update fd f) = owed s := rfl
  refine ⟨⟨?_,?_,?_,h.once,?_⟩,?_⟩
  · have hd := h.distinct
    rw [List.map_append] at hd ⊢
    rw [Server.update,hmap,hmap]
    exact hd
  · intro c' hc' hu
    obtain ⟨c,hc,rfl⟩ := List.mem_map.mp hc'
    by_cases he : c.fd = fd
    · rw [if_pos he]
      exact .inl (hready c)
    · rw [if_neg he] at hu ⊢
      exact h.covered c hc hu
  · intro fd' hfd'
    obtain ⟨c,hc,he,hr⟩ := h.live fd' hfd'
    refine ⟨_,List.mem_map.mpr ⟨c,hc,rfl⟩,?_⟩
    split
    · exact ⟨(hfd c).trans he,hread c hr⟩
    · exact ⟨he,hr⟩
  · rw [howed,hlen]
    exact h.owed
  · rw [howed,hlen]
    omega

private theorem wake_advances (h : Inv s) (hp : Possible s (.wake es)) : Advances s (s.report es) 0 := by
  obtain ⟨_,hev,_,hnd,_,hall⟩ := hp
  have hmap : (s.report es).conns.map Conn.fd = s.conns.map Conn.fd := by
    rw [Server.report,List.map_map]
    refine List.map_congr_left fun c _ => ?_
    simp only [Function.comp]
    split <;> rfl
  have howed : owed (s.report es) = owed s := by
    by_cases hl : Desc.listener ∈ es
    · have hready : s.listenReady = true := (Bool.and_eq_true_iff.mp (hall _ hl)).1
      simp [owed,Server.report,hl,hready,hev]
    · simp [owed,Server.report,hl,hev]
  refine ⟨⟨?_,?_,?_,hnd,?_⟩,?_⟩
  · have hd := h.distinct
    rw [List.map_append] at hd ⊢
    rw [hmap]
    exact hd
  · intro c' hc' hu
    obtain ⟨c,hc,rfl⟩ := List.mem_map.mp hc'
    by_cases he : Desc.conn c.fd ∈ es
    · rw [if_pos (by simpa using he)]
      exact .inr he
    · rw [if_neg (by simpa using he)] at hu ⊢
      refine .inl ((h.covered c hc hu).resolve_right ?_)
      rw [hev]
      exact List.not_mem_nil
  · intro fd hfd
    obtain ⟨c,hc,hr⟩ := List.any_eq_true.mp (hall _ hfd)
    simp only [Bool.and_eq_true,beq_iff_eq] at hr
    refine ⟨_,List.mem_map.mpr ⟨c,hc,rfl⟩,?_⟩
    split
    · exact ⟨hr.1.1,hr.2⟩
    · exact ⟨hr.1.1,hr.2⟩
  · rw [howed]
    exact h.owed
  · rw [howed]
    rfl

/-- One connection is accepted for one report. -/
private theorem accept_advances {backlog : List Conn} (h : Inv s) (hev : s.events = .listener :: es) (hb : s.backlog = c :: backlog) :
    Advances s { s with events := es, backlog, conns := s.conns ++ [{ c with ready := c.readable }] } 0 := by
  have honce := h.once
  rw [hev] at honce
  obtain ⟨hno,hnd⟩ := List.nodup_cons.mp honce
  have hsur : backlog.length + owed s = s.backlog.length +
      owed { s with events := es, backlog, conns := s.conns ++ [{ c with ready := c.readable }] } := by
    simp only [owed,hev,hb,hno,List.mem_cons_self,if_true,if_false,List.length_cons]
    omega
  refine ⟨⟨?_,?_,?_,hnd,?_⟩,hsur⟩
  · have hd := h.distinct
    rw [hb] at hd
    refine (List.Perm.nodup_iff ?_).mp hd
    simp only [List.map_append,List.map_cons,List.map_nil,List.cons_append]
    rw [← List.append_assoc]
    exact (List.perm_append_singleton _ _).symm
  · intro c' hc' hu
    rcases List.mem_append.mp hc' with hc' | hc'
    · refine (h.covered c' hc' hu).imp_right fun hm => ?_
      rw [hev] at hm
      simpa using hm
    · rw [List.mem_singleton.mp hc'] at hu ⊢
      exact .inl (by simpa [Conn.readable] using .inl hu)
  · intro fd hfd
    obtain ⟨c',hc',hr⟩ := h.live fd (by rw [hev]; exact List.mem_cons_of_mem _ hfd)
    exact ⟨c',List.mem_append_left _ hc',hr⟩
  · have ho := h.owed
    show owed _ ≤ backlog.length
    omega

/-- Connections have different descriptors. -/
private theorem conn_unique (h : Inv s) {c' : Conn} (hc : c ∈ s.conns) (hc' : c' ∈ s.conns) (he : c'.fd = c.fd) : c' = c := by
  have hd := h.distinct
  rw [List.map_append] at hd
  exact List.inj_on_of_nodup_map (List.nodup_append.mp hd).2.1 hc' hc he

/-- What a read leaves of the connections. -/
private def afterRead (s : Server) (c : Conn) : List Conn :=
  if c.unread = [] then s.conns.filter (·.fd ≠ c.fd)
  else s.conns.map fun c' => if c'.fd = c.fd then { c' with unread := c'.unread.drop MAXLINE } else c'

private theorem afterRead_fds (s : Server) (c : Conn) : ((afterRead s c).map Conn.fd).Sublist (s.conns.map Conn.fd) := by
  unfold afterRead
  split
  · exact List.Sublist.map _ List.filter_sublist
  · have hsame : (s.conns.map fun c' => if c'.fd = c.fd then { c' with unread := c'.unread.drop MAXLINE } else c').map Conn.fd =
        s.conns.map Conn.fd := by
      rw [List.map_map]
      refine List.map_congr_left fun c' _ => ?_
      simp only [Function.comp]
      split <;> rfl
    rw [hsame]

private theorem mem_afterRead {c' : Conn} (hc' : c' ∈ s.conns) (hne : c'.fd ≠ c.fd) : c' ∈ afterRead s c := by
  unfold afterRead
  split
  · exact List.mem_filter.mpr ⟨hc',by simpa using hne⟩
  · exact List.mem_map.mpr ⟨c',hc',if_neg hne⟩

/-- Bytes that are left after a read are on other connections. -/
private theorem of_mem_afterRead (h : Inv s) (hc : c ∈ s.conns) (hlt : c.unread.length < MAXLINE) {c' : Conn}
    (hc' : c' ∈ afterRead s c) (hu : c'.unread ≠ []) : c' ∈ s.conns ∧ c'.fd ≠ c.fd := by
  unfold afterRead at hc'
  split at hc'
  · exact ⟨(List.mem_filter.mp hc').1,by simpa using (List.mem_filter.mp hc').2⟩
  · obtain ⟨d,hd,rfl⟩ := List.mem_map.mp hc'
    by_cases hdc : d.fd = c.fd
    · rw [if_pos hdc] at hu
      rw [conn_unique h hc hd hdc] at hu
      exact absurd (List.drop_eq_nil_of_le (Nat.le_of_lt hlt)) hu
    · rw [if_neg hdc]
      exact ⟨hd,hdc⟩

private theorem readOne_eq (h : Inv s) (hc : c ∈ s.conns) (hr : c.readable = true) {error : Option Errno} (he : error = none)
    {t : Server} (ht : t.conns = s.conns) :
    (c.unread.length < MAXLINE → ∃ line, t.readOne error c.fd = .ok { t with conns := afterRead s c, line } [.print line]) ∧
      (¬c.unread.length < MAXLINE → t.readOne error c.fd = .fail .outOfBounds .line) := by
  subst he
  have hfind : s.conns.find? (·.fd = c.fd) = some c := by
    cases hf : s.conns.find? (·.fd = c.fd) with
    | none => exact absurd (List.find?_eq_none.mp hf c hc) (by simp)
    | some c' =>
      have hc' := conn_unique h hc (List.mem_of_find?_eq_some hf) (by simpa using List.find?_some hf)
      rw [hc']
  refine ⟨fun hlt => ?_,fun hge => ?_⟩
  · have htake : c.unread.take MAXLINE = c.unread := List.take_of_length_le (Nat.le_of_lt hlt)
    simp only [Server.readOne,ht,hfind,hr,if_true,htake,Server.endLine,hlt,List.isEmpty_iff,afterRead]
    split
    · exact ⟨_,rfl⟩
    · exact ⟨_,rfl⟩
  · have htake : ¬(c.unread.take MAXLINE).length < MAXLINE := by
      rw [List.length_take]
      omega
    simp only [Server.readOne,ht,hfind,hr,if_true,Server.endLine,htake,if_false,ite_self]

/-- One read takes everything that fits in the line. -/
private theorem read_advances {line : Bytes} (h : Inv s) (hev : s.events = .conn c.fd :: es) (hc : c ∈ s.conns)
    (hlt : c.unread.length < MAXLINE) : Advances s { s with events := es, conns := afterRead s c, line } 0 := by
  have honce := h.once
  rw [hev] at honce
  obtain ⟨hno,hnd⟩ := List.nodup_cons.mp honce
  have howed : owed { s with events := es, conns := afterRead s c, line } = owed s := by
    simp [owed,hev]
  refine ⟨⟨?_,?_,?_,hnd,?_⟩,?_⟩
  · have hd := h.distinct
    rw [List.map_append] at hd ⊢
    exact hd.sublist ((List.Sublist.refl _).append (afterRead_fds s c))
  · intro c' hc' hu
    obtain ⟨hm,hne⟩ := of_mem_afterRead h hc hlt hc' hu
    refine (h.covered c' hm hu).imp_right fun hmem => ?_
    rw [hev] at hmem
    exact (List.mem_cons.mp hmem).resolve_left fun e => hne (Desc.conn.inj e)
  · intro fd hfd
    obtain ⟨c',hc',hfd',hr⟩ := h.live fd (by rw [hev]; exact List.mem_cons_of_mem _ hfd)
    refine ⟨c',mem_afterRead hc' fun e => ?_,hfd',hr⟩
    exact hno (by rw [← e,hfd']; exact hfd)
  · rw [howed]
    exact h.owed
  · rw [howed]
    rfl

/-- A step that the kernel allows either advances, or is a read that fills the line. -/
private theorem step_cases (h : Inv s) (hp : Possible s x) :
    (∃ s' fx, serverStep s x = .ok s' fx ∧ Advances s s' (late s x)) ∨
      (serverStep s x = .fail .outOfBounds .line ∧ ¬Paced s x) := by
  cases x with
  | connect fd => exact .inl ⟨_,_,rfl,connect_advances h hp⟩
  | receive fd bytes =>
    refine .inl ⟨_,_,rfl,update_advances h (fun _ => rfl) (fun _ => rfl) fun c hc => ?_⟩
    simp only [Conn.readable,Bool.or_eq_true,Bool.not_eq_true',List.isEmpty_eq_false_iff] at hc ⊢
    exact hc.imp_left fun hu e => hu (List.append_eq_nil_iff.mp e).1
  | hangUp fd =>
    refine .inl ⟨_,_,rfl,update_advances h (fun _ => rfl) (fun _ => rfl) fun c _ => ?_⟩
    simp [Conn.readable]
  | wake es => exact .inl ⟨_,_,rfl,wake_advances h hp⟩
  | handle error =>
    obtain ⟨_,hne,rfl⟩ := hp
    obtain ⟨d,es,hev⟩ := List.exists_cons_of_ne_nil hne
    have hstep : serverStep s (.handle none) = { s with events := es }.handleEvent none d := by
      rw [serverStep,hev]
    rw [hstep]
    cases d with
    | listener =>
      have hpos : 0 < s.backlog.length := by
        have ho := h.owed
        simp only [owed,hev,List.mem_cons_self,if_true] at ho
        omega
      obtain ⟨c,backlog,hb⟩ := List.exists_cons_of_ne_nil (List.ne_nil_of_length_pos hpos)
      refine .inl ⟨_,[],?_,accept_advances h hev hb⟩
      simp only [Server.handleEvent,Server.acceptOne,hb,Act.pure_eq]
    | conn fd =>
      obtain ⟨c,hc,rfl,hr⟩ := h.live fd (by rw [hev]; exact List.mem_cons_self)
      have hread := readOne_eq h hc hr rfl (t := { s with events := es }) rfl
      by_cases hlt : c.unread.length < MAXLINE
      · obtain ⟨line,hl⟩ := hread.1 hlt
        exact .inl ⟨_,_,hl,read_advances h hev hc hlt⟩
      · refine .inr ⟨hread.2 hlt,fun hpc => hlt ?_⟩
        exact hpc c hc (by rw [hev]; rfl)

private theorem start_inv : Inv .start :=
  ⟨List.nodup_nil,fun _ hc => absurd hc List.not_mem_nil,fun _ hc => absurd hc List.not_mem_nil,List.nodup_nil,Nat.le_refl _⟩

private theorem ok_advances (h : Inv s) (hp : Possible s x) (hs : serverStep s x = .ok s' fx) : Advances s s' (late s x) := by
  rcases step_cases h hp with ⟨t,fx',ht,ha⟩ | ⟨hf,_⟩
  · rw [ht] at hs
    cases hs
    exact ha
  · rw [hf] at hs
    cases hs

/-- A read that returns has found less than a full line. -/
private theorem handle_paced {error : Option Errno} (h : Inv s) (hp : Possible s (.handle error))
    (hs : serverStep s (.handle error) = .ok s' fx) : Paced s (.handle error) := by
  obtain ⟨_,_,rfl⟩ := hp
  intro c hc hfd
  obtain ⟨es,hev⟩ := List.head?_eq_some_iff.mp hfd
  obtain ⟨c',hc',he,hr⟩ := h.live c.fd (by rw [hev]; exact List.mem_cons_self)
  rw [conn_unique h hc hc' he] at hr
  by_contra hlt
  have hf := (readOne_eq h hc hr rfl (t := { s with events := es }) rfl).2 hlt
  rw [serverStep,hev] at hs
  cases hs.symm.trans hf

/-- While connections come one at a time, each pending one has its report. -/
private theorem paced_run {tr : Trace Input Effect} (hr : Run serverStep (fun _ s x => Possible s x ∧ Paced s x) .start tr s) :
    Inv s ∧ s.backlog.length = owed s := by
  refine hr.invariant (P := fun _ s => Inv s ∧ s.backlog.length = owed s) ⟨start_inv,rfl⟩ ?_
  intro _ s x s' fx ⟨hi,he⟩ ⟨hp,hpc⟩ hs
  have ha := ok_advances hi hp hs
  have hl : late s x = 0 := by
    cases x with
    | connect fd => exact if_neg (by rw [show s.listenReady = false from hpc]; exact Bool.false_ne_true)
    | _ => rfl
  have hsur := ha.surplus
  exact ⟨ha.inv,by omega⟩

/-- Connections beyond the reports stay so, whatever happens later. -/
private theorem surplus_run {tr : Trace Input Effect} (h : Inv s) (hlt : owed s < s.backlog.length)
    (hr : Run serverStep (fun _ s x => Possible s x) s tr s') : owed s' < s'.backlog.length := by
  refine (hr.invariant (P := fun _ s => Inv s ∧ owed s < s.backlog.length) ⟨h,hlt⟩ ?_).2
  intro _ t x t' fx ⟨hi,he⟩ hp hs
  have ha := ok_advances hi hp hs
  have hsur := ha.surplus
  exact ⟨ha.inv,by omega⟩

/-- In a quiet state nothing on an open connection waits. -/
private theorem quiet_read (h : Inv s) (hq : Quiet s) : ∀ c ∈ s.conns, c.unread = [] := by
  intro c hc
  by_contra hu
  have hready : c.ready = true := (h.covered c hc hu).resolve_right fun hm => by
    rw [hq.1] at hm
    exact List.not_mem_nil hm
  have hread : c.readable = true := by simp [Conn.readable,hu]
  have hrep : s.isReady (.conn c.fd) = true := List.any_eq_true.mpr ⟨c,hc,by simp [hready,hread]⟩
  rw [hq.2] at hrep
  cases hrep

/-- In a quiet state with pending connections no report is owed. -/
private theorem quiet_owed (hq : Quiet s) (hb : s.backlog ≠ []) : owed s = 0 := by
  have hl := hq.2 .listener
  have hready : s.listenReady = false := by
    simpa [Server.isReady,hb] using hl
  rw [owed,hready,hq.1]
  rfl

/-- As long as connections come one for each report and lines are shorter than the buffer,
the server answers every input and a quiet server has left nothing behind. A second
connection for one report is left behind for good, and a longer line overruns the buffer. -/
theorem nothing_stranded {tr : Trace Input Effect} (hr : Run serverStep (fun _ s x => Possible s x ∧ Paced s x) .start tr s) :
    (Quiet s → NothingStranded s) ∧
      (∀ x, Possible s x → Paced s x → ∃ s' fx, serverStep s x = .ok s' fx) ∧
      ∀ x, Possible s x → ¬Paced s x →
        serverStep s x = .fail .outOfBounds .line ∨
          ∃ s' fx, serverStep s x = .ok s' fx ∧
            ∀ tr' s'', Run serverStep (fun _ s x => Possible s x) s' tr' s'' → Quiet s'' → s''.backlog ≠ [] := by
  obtain ⟨hi,howed⟩ := paced_run hr
  refine ⟨fun hq => ⟨?_,quiet_read hi hq⟩,fun x hp hpc => ?_,fun x hp hpc => ?_⟩
  · by_contra hb
    rw [quiet_owed hq hb] at howed
    exact hb (List.length_eq_zero_iff.mp howed)
  · rcases step_cases hi hp with ⟨s',fx,hs,_⟩ | ⟨_,hn⟩
    · exact ⟨s',fx,hs⟩
    · exact absurd hpc hn
  · cases x with
    | connect fd =>
      have hl : s.listenReady = true := by simpa [Paced] using hpc
      obtain ⟨hinv,hsur⟩ := connect_advances hi hp
      have hlate : late s (.connect fd) = 1 := if_pos hl
      refine .inr ⟨_,_,rfl,fun tr' s'' hr' _ => List.ne_nil_of_length_pos ?_⟩
      have hlt := surplus_run hinv (by omega) hr'
      omega
    | handle error =>
      rcases step_cases hi hp with ⟨s',fx,hs,_⟩ | ⟨hf,_⟩
      · exact absurd (handle_paced hi hp hs) hpc
      · exact .inl hf
    | receive fd bytes => exact absurd trivial hpc
    | hangUp fd => exact absurd trivial hpc
    | wake es => exact absurd trivial hpc

instance : ∀ (s : Server) (x : Input), Decidable (Possible s x)
  | s, .connect fd => inferInstanceAs (Decidable (fd ∉ (s.backlog ++ s.conns).map Conn.fd))
  | s, .receive fd bytes => inferInstanceAs (Decidable (bytes ≠ [] ∧ ∃ c ∈ s.backlog ++ s.conns, c.fd = fd ∧ c.eof = false))
  | _, .hangUp _ => inferInstanceAs (Decidable True)
  | s, .wake events => inferInstanceAs (Decidable (s.exited = false ∧ s.events = [] ∧ events ≠ [] ∧ events.Nodup ∧
      events.length ≤ MAXEVENTS ∧ ∀ d ∈ events, s.isReady d = true))
  | s, .handle error => inferInstanceAs (Decidable (s.exited = false ∧ s.events ≠ [] ∧ error = none))

instance : ∀ (s : Server) (x : Input), Decidable (Paced s x)
  | s, .connect _ => inferInstanceAs (Decidable (s.listenReady = false))
  | s, .handle _ => inferInstanceAs (Decidable (∀ c ∈ s.conns, s.events.head? = some (.conn c.fd) → c.unread.length < MAXLINE))
  | _, .receive _ _ => inferInstanceAs (Decidable True)
  | _, .hangUp _ => inferInstanceAs (Decidable True)
  | _, .wake _ => inferInstanceAs (Decidable True)

/-- A state is quiet when neither the listener nor a connection is ready. -/
private theorem quiet_of_ready (hev : s.events = []) (hl : s.isReady .listener = false)
    (hc : ∀ c ∈ s.conns, c.ready = false) : Quiet s := by
  refine ⟨hev,fun d => ?_⟩
  cases d with
  | listener => exact hl
  | conn fd =>
    refine List.any_eq_false.mpr fun c hm => ?_
    simp [hc c hm]

/-- A second connection comes between the report of the first and its `accept`, and its
line before it is accepted. -/
theorem nothing_stranded_two_clients :
    ∃ tr s, Run serverStep (fun _ s x => Possible s x ∧ Paced s x) .start tr s ∧
      tr.map (·.1) = [.connect 5,.wake [.listener],.connect 6,.receive 6 [104,105],.handle none,.wake [.listener],.handle none,
        .wake [.conn 6],.handle none] ∧ s.conns.length = 2 ∧ Quiet s ∧ NothingStranded s := by
  have hcheck : runCheck serverStep (fun _ s x => Possible s x ∧ Paced s x)
      (fun _ s => (s.events = [] ∧ s.isReady .listener = false ∧ ∀ c ∈ s.conns, c.ready = false) ∧ s.conns.length = 2)
      [.connect 5,.wake [.listener],.connect 6,.receive 6 [104,105],.handle none,.wake [.listener],.handle none,
        .wake [.conn 6],.handle none] [] .start = true := by decide
  obtain ⟨tr,s,hr,hm,hp⟩ := Run.of_runCheck hcheck
  obtain ⟨⟨hev,hl,hc⟩,hlen⟩ := hp
  have hq := quiet_of_ready hev hl hc
  exact ⟨tr,s,hr,hm,hlen,hq,(nothing_stranded hr).1 hq⟩

/-- Two connections that arrive before the server wakes get one `accept`. -/
theorem second_connection_stranded :
    ∃ tr s, Run serverStep (fun _ s x => Possible s x) .start tr s ∧
      tr.map (·.1) = [.connect 5,.connect 6,.wake [.listener],.handle none] ∧ Quiet s ∧ ¬NothingStranded s := by
  have hcheck : runCheck serverStep (fun _ s x => Possible s x)
      (fun _ s => (s.events = [] ∧ s.isReady .listener = false ∧ ∀ c ∈ s.conns, c.ready = false) ∧ s.backlog ≠ [])
      [.connect 5,.connect 6,.wake [.listener],.handle none] [] .start = true := by decide
  obtain ⟨tr,s,hr,hm,hp⟩ := Run.of_runCheck hcheck
  obtain ⟨⟨hev,hl,hc⟩,hb⟩ := hp
  exact ⟨tr,s,hr,hm,quiet_of_ready hev hl hc,fun hn => hb hn.1⟩

end MyProgram.Epoll
