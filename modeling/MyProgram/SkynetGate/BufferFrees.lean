import MyProgram.SkynetGate.Release

/-! What becomes of the buffers that DATA events deliver: each is freed, or still
queued on a connection. -/
namespace MyProgram.SkynetGate
open Lib

/-- The buffers that DATA events delivered, to known and unknown sockets. -/
def delivered (tr : Trace Input Effect) : List Buffer :=
  tr.filterMap fun e => match e.1.incoming with
    | .socket (.data _ buffer) => some buffer
    | _ => none

/-- The buffers that the steps of a run freed. -/
def freedIn (tr : Trace Input Effect) : List Buffer := tr.flatMap fun e => frees e.2

/-- The buffers, the pool and the number of records are as they were. -/
structure Idle (g g' : Gate) : Prop where
  mp : g'.mp = g.mp
  buffers : g'.conn.map (·.buffer) = g.conn.map (·.buffer)
  max : g'.maxConnection = g.maxConnection
  headerSize : g'.headerSize = g.headerSize

/-- The computation frees nothing. -/
abbrev FreesNone {α : Type} (Q : α → Prop) (x : GateM α) : Prop := x.Ensures (fun e => frees [e] = []) Q

variable {g g' : Gate} {x : Input} {fx : List Effect} {α : Type}

private theorem Idle.refl (g : Gate) : Idle g g := ⟨rfl,rfl,rfl,rfl⟩

private theorem frees_eq_nil (h : ∀ e ∈ fx, frees [e] = []) : frees fx = [] := by
  induction fx with
  | nil => rfl
  | cons e fx ih =>
    rw [← List.singleton_append,frees_append,h e List.mem_cons_self]
    exact ih fun e he => h e (List.mem_cons_of_mem _ he)

private theorem freesNone_silent {y : GateM α} (h : Silent y) : FreesNone (fun _ => True) y := h.mono (fun _ h => h.elim) fun _ h => h

private theorem freesNone_error (text : Bytes) : FreesNone (fun _ => True) (skynetError text) := .emit rfl

/-- Writing back a record with its buffer. -/
private theorem Idle.setConn {id : Int} {c c' : Connection} (h : Idle g g') (hc : g'.conn[id.toNat]? = some c)
    (hb : c'.buffer = c.buffer) : Idle g (g'.setConn id c') := by
  obtain ⟨hlt,rfl⟩ := List.getElem?_eq_some_iff.mp hc
  refine ⟨h.mp,?_,h.max,h.headerSize⟩
  calc (g'.conn.set id.toNat c').map (·.buffer) = (g'.conn.map (·.buffer)).set id.toNat c'.buffer := List.map_set
    _ = (g'.conn.set id.toNat g'.conn[id.toNat]).map (·.buffer) := by rw [hb,List.map_set]
    _ = g.conn.map (·.buffer) := by rw [List.set_getElem_self,h.buffers]

private theorem freesNone_forwardAgent (h : Idle g g') (fd : Int) (agent client : UInt32) :
    FreesNone (Idle g) (forwardAgent g' fd agent client) := by
  apply Act.Ensures.bind (freesNone_silent (silent_lookup _ _))
  intro id _
  apply Act.Ensures.bind (freesNone_error _)
  intro _ _
  refine .ite ?_ (.pure h)
  apply Act.Ensures.bind (.read_some _ _ _)
  intro c hc
  exact .pure (h.setConn hc rfl)

private theorem freesNone_startListen (h : Idle g g') (answer : Int) (addr : Bytes) :
    FreesNone (fun r => Idle g r.1) (startListen answer g' addr) := by
  have haddr : FreesNone (fun _ => True) (listenAddress addr) := by
    unfold listenAddress
    split
    · exact .fail _ _
    · split
      · exact .pure trivial
      · exact .ite (.pure trivial) (.pure trivial)
  have hl : Idle g { g' with listenId := answer } := ⟨h.mp,h.buffers,h.max,h.headerSize⟩
  apply Act.Ensures.bind haddr
  intro _ _
  refine .ite (.bind (freesNone_error _) fun _ _ => .pure h) (.bind (.emit rfl) fun _ _ => .ite (.pure hl) ?_)
  exact .bind (.emit rfl) fun _ _ => .bind (freesNone_error _) fun _ _ => .pure hl

/-- Commands leave the buffers alone. -/
private theorem freesNone_command (answers : Answers) (source : UInt32) (command : Command) :
    FreesNone (Idle g) (ctrlRun answers g source command) := by
  cases command with
  | kick uid | start uid =>
    exact .bind (freesNone_silent (silent_lookup _ _)) fun _ _ => .ite (.bind (.emit rfl) fun _ _ => .pure (.refl g)) (.pure (.refl g))
  | forward id agent client => exact freesNone_forwardAgent (.refl g) _ _ _
  | broker name => exact .pure ⟨rfl,rfl,rfl,rfl⟩
  | close => exact .ite (.bind (.emit rfl) fun _ _ => .pure ⟨rfl,rfl,rfl,rfl⟩) (.pure (.refl g))
  | connect ip port =>
    refine .ite (.pure (.refl g)) (.bind (.emit rfl) fun _ _ => .bind (freesNone_silent (silent_insert _ _)) fun r _ => ?_)
    have h : Idle g { g with hash := r.1 } := ⟨rfl,rfl,rfl,rfl⟩
    apply Act.Ensures.bind (freesNone_forwardAgent h _ _ _)
    intro g' h'
    exact .bind (freesNone_error _) fun _ _ => .pure h'
  | listen =>
    apply Act.Ensures.bind (freesNone_startListen (.refl g) _ _)
    intro r h
    exact .pure ⟨h.mp,h.buffers,h.max,h.headerSize⟩
  | empty | forwardIncomplete | unknown => exact .pure (.refl g)

private theorem freesNone_report (text : Bytes) : FreesNone (fun _ => True) (report g text) := .ite (.pure trivial) (.emit rfl)

/-- So do socket messages that carry no data and close nothing. -/
private theorem freesNone_socket {message : SocketMessage} (hd : ∀ id buffer, message ≠ .data id buffer)
    (hc : ∀ id, message ≠ .close id) (he : ∀ id, message ≠ .error id) :
    FreesNone (Idle g) (dispatchSocketMessage g message) := by
  cases message with
  | data id buffer => exact absurd rfl (hd id buffer)
  | close id => exact absurd rfl (hc id)
  | error id => exact absurd rfl (he id)
  | connect id =>
    refine .ite (.bind (freesNone_error _) fun _ _ => .pure (.refl g)) (.bind (freesNone_silent (silent_lookup _ _)) fun _ _ => ?_)
    refine .ite (.bind (.emit rfl) fun _ _ => .pure (.refl g)) ?_
    exact .bind (.read _ _ _) fun _ _ => .bind (.emit rfl) fun _ _ => .pure (.refl g)
  | accept mid ud name =>
    refine .ite (.ite (.bind (.emit rfl) fun _ _ => .pure (.refl g)) ?_) (.fail _ _)
    apply Act.Ensures.bind (freesNone_silent (silent_insert _ _))
    intro r _
    have h : Idle g { g with hash := r.1 } := ⟨rfl,rfl,rfl,rfl⟩
    apply Act.Ensures.bind (.read_some _ _ _)
    intro c hc
    exact .bind (freesNone_report _) fun _ _ => .bind (freesNone_error _) fun _ _ => .pure (h.setConn hc rfl)
  | warning id ud => exact .bind (freesNone_error _) fun _ _ => .pure (.refl g)
  | udp id => exact .pure (.refl g)

private theorem freesNone_client (source : UInt32) (msg : Bytes) : FreesNone (fun _ => True) (clientMessage g source msg) := by
  refine .ite (.bind (freesNone_error _) fun _ _ => .pure trivial) (.bind (freesNone_error _) fun _ _ =>
    .bind (freesNone_silent (silent_lookup _ _)) fun _ _ => .ite ?_ ?_)
  · exact .bind (freesNone_error _) fun _ _ => .bind (.emit rfl) fun _ _ => .pure trivial
  · exact .bind (freesNone_error _) fun _ _ => .pure trivial

/-- What a step can do to the buffers: nothing, or take one in a DATA event, or let go of
those of a connection in a CLOSE or ERROR event. -/
private theorem gateStep_idle (hd : ∀ id buffer, x.incoming ≠ .socket (.data id buffer))
    (hc : ∀ id, x.incoming ≠ .socket (.close id)) (he : ∀ id, x.incoming ≠ .socket (.error id)) :
    FreesNone (Idle g) (gateStep g x) := by
  cases hx : x.incoming with
  | text source msg =>
    rw [gateStep_text hx,ctrl]
    apply Act.Ensures.bind ((logs_ctrlParse msg).mono (by rintro e ⟨text,rfl⟩; rfl) fun _ h => h)
    intro command _
    exact freesNone_command _ _ _
  | client source msg =>
    rw [gateStep,cb,hx]
    apply Act.Ensures.bind (Q := fun (r : Gate × Int) => r.1 = g)
    · exact .bind (freesNone_client source msg) fun _ _ => .pure rfl
    · rintro _ rfl
      exact .pure (.refl _)
  | socket message =>
    rw [gateStep_socket hx]
    rw [hx] at hd hc he
    exact freesNone_socket (fun id buffer h => hd id buffer (by rw [h])) (fun id h => hc id (by rw [h])) fun id h => he id (by rw [h])
  | other =>
    rw [gateStep,cb,hx]
    exact .pure (.refl g)

/-- The buffers of a gate: the queued ones in `qs`, which with those freed so far are all
that were delivered. -/
structure Custody (arrived freed : List Buffer) (g : Gate) (qs : List Queue) : Prop where
  headerSize : g.headerSize = 4
  max : g.maxConnection.toNat = g.conn.length
  pooled : Pooled g.mp (g.conn.map (·.buffer)) qs
  all : (freed ++ qs.flatMap (·.chunks)).Perm arrived

variable {arrived freed : List Buffer} {qs : List Queue} {c : Connection} {id : Int} {mp' : Messagepool}

private theorem Custody.idle (h : Custody arrived freed g qs) (hi : Idle g g') : Custody arrived freed g' qs := by
  refine ⟨hi.headerSize.trans h.headerSize,?_,?_,h.all⟩
  · have hl := congrArg List.length hi.buffers
    rw [List.length_map,List.length_map] at hl
    rw [hi.max,hl,h.max]
  · rw [hi.mp,hi.buffers]
    exact h.pooled

/-- A call on one connection that freed what it did not leave queued there. -/
private theorem Custody.leaves (h : Custody arrived freed g qs) (c' : Connection) (hc : g.conn[id.toNat]? = some c) {q : Queue}
    (hq : qs[id.toNat]? = some q) {new bs' : List Buffer} {st : ByteStream} {out : List Effect}
    (hl : Leaves g.mp mp' c'.buffer (others qs id.toNat) (q.chunks ++ new) bs' st fx out) (hash : Hashid) :
    ∃ qs', Custody (arrived ++ new) (freed ++ frees fx) ({ g with mp := mp', hash }.setConn id c') qs' := by
  have hbuf : (g.conn.map (·.buffer))[id.toNat]? = some c.buffer := by rw [List.getElem?_map,hc]; rfl
  obtain ⟨q',hq',hp⟩ := h.pooled.set hbuf hl.carries hl.keeps
  have hlt := (List.getElem?_eq_some_iff.mp hq).1
  refine ⟨qs.set id.toNat q',h.headerSize,?_,?_,?_⟩
  · change g.maxConnection.toNat = (g.conn.set _ _).length
    rw [List.length_set,h.max]
  · change Pooled mp' ((g.conn.set _ _).map _) _
    rw [List.map_set]
    exact hp
  · have hset := flatMap_perm_eraseIdx Queue.chunks (List.getElem?_set_self (a := q') hlt)
    rw [List.eraseIdx_set_eq,hq'] at hset
    have hold := flatMap_perm_eraseIdx Queue.chunks hq
    calc ((freed ++ frees fx) ++ (qs.set id.toNat q').flatMap (·.chunks)).Perm
          ((freed ++ frees fx) ++ (bs' ++ (qs.eraseIdx id.toNat).flatMap (·.chunks))) := hset.append_left _
      _ = freed ++ (q.chunks ++ (new ++ (qs.eraseIdx id.toNat).flatMap (·.chunks))) := by
        rw [List.append_assoc,← List.append_assoc (frees fx),hl.freed,List.append_assoc]
      List.Perm _ (freed ++ ((q.chunks ++ (qs.eraseIdx id.toNat).flatMap (·.chunks)) ++ new)) := by
        rw [List.append_assoc q.chunks]
        exact (List.perm_append_comm.append_left _).append_left _
      List.Perm _ (freed ++ (qs.flatMap (·.chunks) ++ new)) := (hold.symm.append_right _).append_left _
      _ = (freed ++ qs.flatMap (·.chunks)) ++ new := by rw [List.append_assoc]
      List.Perm _ (arrived ++ new) := h.all.append_right _

/-- A DATA event: the new buffer is freed or queued. -/
private theorem Custody.data (h : Custody arrived freed g qs) {buffer : Buffer}
    (he : dispatchSocketMessage g (.data id buffer) = .ok g' fx) :
    ∃ qs', Custody (arrived ++ [buffer]) (freed ++ frees fx) g' qs' := by
  obtain ⟨slot,fx₁,fx₂,hl,hs,rfl⟩ := Act.bind_eq_ok.mp he
  have h₁ : frees fx₁ = [] := frees_eq_nil fun e hm => ((silent_lookup _ _ _ _ hl).2 e hm).elim
  rw [frees_append,h₁,List.nil_append]
  split at hs
  · obtain ⟨c,fx₃,fx₄,hread,ht,rfl⟩ := Act.bind_eq_ok.mp hs
    obtain ⟨_,hc,rfl⟩ := Act.read_eq_ok.mp hread
    have hbuf : (g.conn.map (·.buffer))[slot.toNat]? = some c.buffer := by rw [List.getElem?_map,hc]; rfl
    obtain ⟨q,hq⟩ := h.pooled.queue hbuf
    obtain ⟨db',mp',bs',fx₅,hd,hlv,_⟩ := dispatchMessage_leaves h.headerSize id buffer (h.pooled.carries hbuf hq)
    rw [hd] at ht
    cases ht
    rw [List.nil_append,List.append_nil]
    exact h.leaves { c with buffer := db' } hc hq hlv g.hash
  · cases hs
    refine ⟨qs,h.headerSize,h.max,h.pooled,?_⟩
    calc ((freed ++ [buffer]) ++ qs.flatMap (·.chunks)).Perm (freed ++ (qs.flatMap (·.chunks) ++ [buffer])) := by
          rw [List.append_assoc]
          exact List.perm_append_comm.append_left _
      _ = (freed ++ qs.flatMap (·.chunks)) ++ [buffer] := by rw [List.append_assoc]
      List.Perm _ (arrived ++ [buffer]) := h.all.append_right _

/-- A CLOSE or ERROR event: what the connection had queued is freed. -/
private theorem Custody.close (h : Custody arrived freed g qs) (he : dispatchSocketMessage g (.close id) = .ok g' fx) :
    ∃ qs', Custody arrived (freed ++ frees fx) g' qs' := by
  obtain ⟨⟨hash,slot⟩,fx₁,fx₂,hl,hs,rfl⟩ := Act.bind_eq_ok.mp he
  have h₁ : frees fx₁ = [] := frees_eq_nil fun e hm => ((silent_remove _ _ _ _ hl).2 e hm).elim
  rw [frees_append,h₁,List.nil_append]
  dsimp only at hs
  split at hs
  · obtain ⟨c,fx₃,fx₄,hread,ht,rfl⟩ := Act.bind_eq_ok.mp hs
    obtain ⟨_,hc,rfl⟩ := Act.read_eq_ok.mp hread
    have hbuf : (g.conn.map (·.buffer))[slot.toNat]? = some c.buffer := by rw [List.getElem?_map,hc]; rfl
    obtain ⟨q,hq⟩ := h.pooled.queue hbuf
    obtain ⟨mp',fx₅,hd,hlv⟩ := clear_leaves (h.pooled.carries hbuf hq)
    obtain ⟨_,fx₆,fx₇,herr,hu,rfl⟩ := Act.bind_eq_ok.mp ht
    cases herr
    rw [hd,Act.bind_ok,Act.after_eq_ok] at hu
    obtain ⟨fx₈,hv,rfl⟩ := hu
    obtain ⟨_,fx₉,fx₁₀,hr,hw,rfl⟩ := Act.bind_eq_ok.mp hv
    cases hw
    have h₉ : frees fx₉ = [] := frees_eq_nil (freesNone_report _ _ _ hr).2
    rw [← List.append_nil q.chunks] at hlv
    obtain ⟨qs',hq'⟩ := h.leaves .cleared hc hq hlv hash
    refine ⟨qs',?_⟩
    rw [List.append_nil] at hq'
    simp only [List.nil_append,List.append_nil,frees_append,h₉]
    exact hq'
  · cases hs
    rw [frees_nil,List.append_nil]
    exact ⟨qs,h.idle ⟨rfl,rfl,rfl,rfl⟩⟩

private theorem Queues.chunks_eq_nil {mp : Messagepool} {db : Databuffer} {q : Queue} (h : Queues mp db q) :
    q.chunks = [] ↔ db.head = none := by
  rw [← List.length_eq_zero_iff,← h.linked.length_eq,List.length_eq_zero_iff]
  constructor
  · intro hn
    have hc := h.linked.chain
    rwa [hn] at hc
  · intro hn
    have hc := h.linked.chain
    rwa [hn,Chain.none_iff] at hc

/-- Nothing is queued when all chains are empty. -/
private theorem queued_eq_nil {mp : Messagepool} {dbs : List Databuffer} (h : Pooled mp dbs qs) :
    qs.flatMap (·.chunks) = [] ↔ ∀ db ∈ dbs, db.head = none := by
  rw [List.flatMap_eq_nil_iff]
  constructor
  · intro hall db hdb
    obtain ⟨i,hi⟩ := List.getElem?_of_mem hdb
    obtain ⟨q,hq⟩ := h.queue hi
    exact (h.each i db q hi hq).chunks_eq_nil.mp (hall q (List.mem_of_getElem? hq))
  · intro hall q hq
    obtain ⟨i,hi⟩ := List.getElem?_of_mem hq
    have hlt := (List.getElem?_eq_some_iff.mp hi).1
    have hdb := List.getElem?_eq_getElem (h.length ▸ hlt)
    exact (h.each i _ q hdb hi).chunks_eq_nil.mpr (hall _ (List.mem_of_getElem? hdb))

/-- Before the first session all records are cleared. -/
private theorem cleared_of_no_session (h : g.Inv) (hs : ∀ id, g.session id = none) : ∀ c ∈ g.conn, c = .cleared := by
  intro c hc
  obtain ⟨s,hs'⟩ := List.getElem?_of_mem hc
  have hlt := (List.getElem?_eq_some_iff.mp hs').1
  obtain ⟨i,hat⟩ : ∃ i, g.hash.idAt s = some i := by
    rw [Hashid.idAt,List.getElem?_eq_getElem (h.length ▸ hlt)]
    exact ⟨_,rfl⟩
  by_cases hi : i = -1
  · subst hi
    exact Option.some.inj (hs'.symm.trans (h.free s hat))
  · have hslot := h.wf.slot_eq_some.mpr ⟨hi,hat⟩
    rw [h.slot_eq_none.mpr (hs i)] at hslot
    cases hslot

variable {setup : Setup} {parm : Bytes} {code : Int} {tr : Trace Input Effect} {g₀ : Gate}
  {guard : Trace Input Effect → Gate → Input → Prop}

private theorem custody_step (h : Custody (delivered tr) (freedIn tr) g qs) (he : gateStep g x = .ok g' fx) :
    ∃ qs', Custody (delivered (tr ++ [(x,fx)])) (freedIn (tr ++ [(x,fx)])) g' qs' := by
  rw [delivered,List.filterMap_append,freedIn,List.flatMap_append,List.flatMap_singleton]
  by_cases hd : ∃ id buffer, x.incoming = .socket (.data id buffer)
  · obtain ⟨id,buffer,hx⟩ := hd
    rw [gateStep_socket hx] at he
    rw [List.filterMap_cons,hx]
    exact h.data he
  by_cases hc : ∃ id, x.incoming = .socket (.close id) ∨ x.incoming = .socket (.error id)
  · obtain ⟨id,hx⟩ := hc
    have he' : dispatchSocketMessage g (.close id) = .ok g' fx := by
      rcases hx with hx | hx
      · rwa [gateStep_socket hx] at he
      · rwa [gateStep_socket hx] at he
    have hnone : (match x.incoming with | .socket (.data _ buffer) => some buffer | _ => none) = none := by
      rcases hx with hx | hx <;> rw [hx]
    rw [List.filterMap_cons,hnone,List.filterMap_nil,List.append_nil]
    exact h.close he'
  · simp only [not_exists,not_or] at hd hc
    obtain ⟨hidle,hfx⟩ := gateStep_idle hd (fun id => (hc id).1) (fun id => (hc id).2) g' fx he
    have hnone : (match x.incoming with | .socket (.data _ buffer) => some buffer | _ => none) = none := by
      split
      · rename_i id buffer hx
        exact absurd hx (hd id buffer)
      · rfl
    rw [List.filterMap_cons,hnone,List.filterMap_nil,List.append_nil,frees_eq_nil hfx,List.append_nil]
    exact ⟨qs,h.idle hidle⟩

/-- Along every run the freed and the queued buffers are those that were delivered. -/
private theorem custody_run (hi : gateInit setup gateCreate (some parm) = .ok (g₀,code) fx) (hr : Run gateStep guard g₀ tr g) :
    ∃ qs, Custody (delivered tr) (freedIn tr) g qs := by
  apply hr.invariant fun tr g => ∃ qs, Custody (delivered tr) (freedIn tr) g qs
  · obtain ⟨hinv,hs,_⟩ := gateInit_spec hi
    obtain ⟨qs,hp⟩ := hinv.sharing
    have hempty : qs.flatMap (·.chunks) = [] := by
      apply (queued_eq_nil hp).mpr
      intro db hdb
      obtain ⟨c,hc,rfl⟩ := List.mem_map.mp hdb
      rw [cleared_of_no_session hinv hs c hc]
      rfl
    refine ⟨qs,hinv.headerSize,by rw [hinv.max,Int.toNat_natCast],hp,?_⟩
    rw [hempty]
    rfl
  · intro tr g x g' fx h _ he
    obtain ⟨qs,h⟩ := h
    exact custody_step h he

private theorem releaseLoop_freesNone (g : Gate) (i n : Nat) : FreesNone (fun _ => True) (releaseLoop g i n) := by
  induction n generalizing i with
  | zero => exact .pure trivial
  | succ n ih =>
    apply Act.Ensures.bind (.read _ _ _)
    intro c _
    exact .ite (.bind (.emit rfl) fun _ _ => ih _) (ih _)

/-- `gate_release` returns and frees no chunk. -/
private theorem release_freesNone (h : g.maxConnection.toNat = g.conn.length) :
    ∃ g' fx, gateRelease g = .ok g' fx ∧ frees fx = [] := by
  obtain ⟨fx,hloop,_⟩ := releaseLoop_closes (g := g) 0 g.conn.length (by omega)
  have hnone := frees_eq_nil (releaseLoop_freesNone g _ _ _ _ hloop).2
  rw [gateRelease,h,hloop]
  split
  · refine ⟨_,_,rfl,?_⟩
    rw [frees_append,hnone]
    rfl
  · refine ⟨_,_,rfl,?_⟩
    rw [frees_append,hnone]
    rfl

/-- When the gate is released, every buffer that DATA events delivered has been freed
exactly once if and only if no connection has a chunk queued. -/
theorem release_frees_delivered_iff (hi : gateInit setup gateCreate (some parm) = .ok (g₀,code) fx)
    (hr : Run gateStep (fun _ _ _ => True) g₀ tr g) :
    ∃ g' fx', gateRelease g = .ok g' fx' ∧
      ((freedIn tr ++ frees fx').Perm (delivered tr) ↔ ∀ c ∈ g.conn, c.buffer.head = none) := by
  obtain ⟨qs,h⟩ := custody_run hi hr
  obtain ⟨g',fx',he,hnone⟩ := release_freesNone h.max
  refine ⟨g',fx',he,?_⟩
  have hall := h.all
  rw [hnone,List.append_nil,← List.forall_mem_map (P := fun db : Databuffer => db.head = none),← queued_eq_nil h.pooled]
  constructor
  · intro hp
    have hlen := (hall.trans hp.symm).length_eq
    rw [List.length_append] at hlen
    exact List.length_eq_zero_iff.mp (by omega)
  · intro hq
    rwa [hq,List.append_nil] at hall

theorem release_frees_delivered_iff_complete : ∃ g₀ code fx tr g g' fx',
    gateInit twoOnline gateCreate (some (ascii "127.0.0.1:8888 9")) = .ok (g₀,code) fx ∧
    Run gateStep (fun _ _ _ => True) g₀ tr g ∧
    tr.map (·.1) = [event (.accept 7 4 []),event (.data 4 ⟨0,[0,0],by decide⟩),event (.data 4 ⟨1,[0,1,7],by decide⟩),
      event (.data 5 ⟨2,[1],by decide⟩)] ∧
    gateRelease g = .ok g' fx' ∧ (freedIn tr ++ frees fx').Perm (delivered tr) := by
  obtain ⟨g₀,code,fx,tr,g,hi,hr,hm,hp⟩ := gateRun_of_start (fun _ _ _ _ => True) (fun _ _ g => ∀ c ∈ g.conn, c.buffer.head = none)
    twoOnline (ascii "127.0.0.1:8888 9") [event (.accept 7 4 []),event (.data 4 ⟨0,[0,0],by decide⟩),
      event (.data 4 ⟨1,[0,1,7],by decide⟩),event (.data 5 ⟨2,[1],by decide⟩)] (by decide)
  obtain ⟨g',fx',he,hiff⟩ := release_frees_delivered_iff hi hr
  exact ⟨g₀,code,fx,tr,g,g',fx',hi,hr,hm,he,hiff.mpr hp⟩

/-- The two bytes of an incomplete header are never freed. -/
theorem release_leaks_queued : ∃ g₀ code fx tr g g' fx',
    gateInit twoOnline gateCreate (some (ascii "127.0.0.1:8888 9")) = .ok (g₀,code) fx ∧
    Run gateStep (fun _ g x => Fresh g x) g₀ tr g ∧
    tr.map (·.1) = [event (.accept 7 4 []),event (.data 4 ⟨0,[0,0],by decide⟩)] ∧
    gateRelease g = .ok g' fx' ∧ delivered tr = [⟨0,[0,0],by decide⟩] ∧ freedIn tr ++ frees fx' = [] := by
  obtain ⟨g₀,code,fx,tr,g,hi,hr,hm,hp⟩ := gateRun_of_start (fun _ _ g x => Fresh g x)
    (fun _ tr (g : Gate) => (gateRelease g).holds (fun _ (fx' : List Effect) =>
      decide (delivered tr = [⟨0,[0,0],by decide⟩] ∧ freedIn tr ++ frees fx' = [])) = true)
    twoOnline (ascii "127.0.0.1:8888 9") [event (.accept 7 4 []),event (.data 4 ⟨0,[0,0],by decide⟩)] (by decide)
  obtain ⟨g',fx',he,hp⟩ := Act.exists_of_holds hp
  obtain ⟨hd,hf⟩ := of_decide_eq_true hp
  exact ⟨g₀,code,fx,tr,g,g',fx',hi,hr,hm,he,hd,hf⟩

end MyProgram.SkynetGate
