import MyProgram.SkynetGate.Framing

/-! Delivery of frames over any sequence of `dispatch_message` calls for a
connection, and the rejection of oversized ones. -/
namespace MyProgram.SkynetGate
open Lib ByteStream

/-- Calls for a connection with a destination, with unread bytes that fit an `int`. -/
def Deliverable (_ : Trace Call Effect) (s : Connection × Messagepool) (call : Call) : Prop :=
  call.gate.headerSize = 4 ∧ routed call.gate (call.connection s.1) ∧ Fits s call

instance (tr : Trace Call Effect) (s : Connection × Messagepool) (call : Call) : Decidable (Deliverable tr s call) :=
  inferInstanceAs (Decidable (_ ∧ _ ∧ _))

/-- Each call sent exactly one message for each of its bodies, in their order. -/
def Sent (c : Connection) (tr : Trace Call Effect) (parts : List (List Bytes)) : Prop :=
  List.Forall₂ (fun e bodies => (visible e.2).map some = bodies.map (frameMessage e.1.gate (e.1.connection c))) tr parts

variable {c : Connection} {mp : Messagepool} {rest : List Nat} {bs : List Buffer} {st : ByteStream} {frames : List Bytes}
  {tr : Trace Call Effect} {s : Connection × Messagepool}

@[simp] theorem received_snoc (tr : Trace Call Effect) (call : Call) (fx : List Effect) :
    received (tr ++ [(call,fx)]) = received tr ++ call.data.bytes := by
  simp [received]

private theorem frameMessage_of_id {call : Call} {c c' : Connection} (h : c'.id = c.id) :
    frameMessage call.gate (call.connection c') = frameMessage call.gate (call.connection c) := by
  unfold frameMessage Call.connection
  rw [h]

private theorem map_some_filterMap {g : Gate} (h : routed g c) (bodies : List Bytes) :
    (bodies.filterMap (frameMessage g c)).map some = bodies.map (frameMessage g c) := by
  have hsome (b : Bytes) : ∃ e, frameMessage g c b = some e := by
    unfold frameMessage
    split
    · exact ⟨_,rfl⟩
    · split
      · exact ⟨_,rfl⟩
      · split
        · exact ⟨_,rfl⟩
        · simp_all [routed]
  induction bodies with
  | nil => rfl
  | cons b bodies ih =>
    obtain ⟨e,he⟩ := hsome b
    rw [List.filterMap_cons,he,List.map_cons,List.map_cons,ih,he]

/-- What holds after the calls `tr`: the connection holds what framing leaves of the
bytes received, and the bodies it found have been sent. -/
structure Delivering (c : Connection) (rest : List Nat) (tr : Trace Call Effect) (s : Connection × Messagepool) :
    Prop where
  carries : ∃ bs, Carries s.2 s.1.buffer rest bs (streamOf s.2 s.1.buffer)
  range : (streamOf s.2 s.1.buffer).InRange
  id : s.1.id = c.id
  held : heldBytes s = (deframe 4 LIMIT true (received tr)).2
  sent : ∃ parts, Sent c tr parts ∧ parts.flatten = nonEmpty (deframe 4 LIMIT true (received tr)).1

private theorem delivering_step (hf : ∀ b ∈ frames, b.length ≤ 0xFFFFFF) {call : Call} {s' : Connection × Messagepool}
    {fx : List Effect} (h : Delivering c rest tr s) (hd : Deliverable tr s call) (he : callStep s call = .ok s' fx)
    (hb : received (tr ++ [(call,fx)]) <+: frames.flatMap (frame 4)) : Delivering c rest (tr ++ [(call,fx)]) s' := by
  obtain ⟨⟨bs,hc⟩,hr,hid,hheld,parts,hsent,hparts⟩ := h
  obtain ⟨hg,hrout,hfits⟩ := hd
  obtain ⟨s₁,fx₁,bs₁,he₁,hid₁,hc₁,hout,_⟩ := callStep_leaves hg hc
  rw [he] at he₁
  cases he₁
  rw [hrout] at hc₁ hout
  obtain ⟨_,hr₁,hset⟩ := feed_deframe true hr call.data.bytes
  obtain ⟨hbodies,hrest⟩ := hset hfits
  generalize feed true (streamOf s.2 s.1.buffer) call.data.bytes = d at *
  have hdef := deframe_append LIMIT true (show 0 < 4 by omega) (received tr) call.data.bytes
  obtain ⟨k,_,_,_,hover,_⟩ := deframe_beginning (show 0 < 4 by omega)
    (show LIMIT ≤ 256^4 by simp [LIMIT]) frames (fun b hb => by have := hf b hb; simp only [LIMIT]; omega) hb
  rw [← hheld] at hdef
  rw [received_snoc,hdef] at hover
  have hkeep : ¬ Rejects (deframe 4 LIMIT true ((streamOf s.2 s.1.buffer).held ++ call.data.bytes)).2 :=
    fun h => hover h.1
  rw [if_neg hkeep] at hrest
  have hst := hc₁.streamOf_eq
  refine ⟨⟨bs₁,by rwa [hst]⟩,by rwa [hst],hid₁.trans hid,?_,parts ++ [d.bodies],
    List.rel_append hsent (.cons ?_ .nil),?_⟩
  · rw [heldBytes,hst,hrest.1,received_snoc,hdef]
    rfl
  · rw [hout,hrest.2,if_neg (by simp),List.append_nil,map_some_filterMap hrout,frameMessage_of_id hid]
  · rw [List.flatten_append,hparts,received_snoc,hdef,hbodies]
    simp [nonEmpty,heldBytes]

/-- The invariant of a run that received the beginning of encoded frames. -/
theorem delivering_run (hc : Carries mp c.buffer rest [] ⟨0,[]⟩) (hf : ∀ b ∈ frames, b.length ≤ 0xFFFFFF)
    (hrun : Run callStep Deliverable (c,mp) tr s) (hb : received tr <+: frames.flatMap (frame 4)) :
    Delivering c rest tr s := by
  refine hrun.invariant (fun tr s => received tr <+: frames.flatMap (frame 4) → Delivering c rest tr s) ?_ ?_ hb
  · intro _
    have hst := hc.streamOf_eq
    exact ⟨⟨[],by rwa [hst]⟩,by rw [hst]; exact inRange_zero _,rfl,by rw [heldBytes,hst]; rfl,[],.nil,rfl⟩
  · intro tr s call s' fx ih hd he hb
    refine delivering_step hf (ih ?_) hd he hb
    rw [received_snoc] at hb
    exact (List.prefix_append _ _).trans hb

/-- Over any chunking of a beginning of encoded frames, every call returns, the
messages sent are those of the non-empty bodies of the complete frames, in order
and one for each, and the connection holds the beginning of the next frame. -/
theorem dispatch_delivers_frames (hc : Carries mp c.buffer rest [] ⟨0,[]⟩) (hf : ∀ b ∈ frames, b.length ≤ 0xFFFFFF)
    (hrun : Run callStep Deliverable (c,mp) tr s) (hb : received tr <+: frames.flatMap (frame 4)) :
    (∀ call, Deliverable tr s call → ∃ s' fx, callStep s call = .ok s' fx) ∧
      ∃ k ≤ frames.length, ∃ parts, Sent c tr parts ∧ parts.flatten = nonEmpty (frames.take k) ∧
        received tr = (frames.take k).flatMap (frame 4) ++ heldBytes s ∧
        (match frames[k]? with
          | some next => heldBytes s <+: frame 4 next ∧ heldBytes s ≠ frame 4 next
          | none => heldBytes s = []) ∧
        (received tr = frames.flatMap (frame 4) → k = frames.length) := by
  obtain ⟨⟨bs,hcs⟩,hr,hid,hheld,parts,hsent,hparts⟩ := delivering_run hc hf hrun hb
  refine ⟨fun call hd => ?_,?_⟩
  · obtain ⟨s',fx,_,he,_⟩ := callStep_leaves hd.1 hcs
    exact ⟨s',fx,he⟩
  · obtain ⟨k,hk,hsplit,hbs,_,hnext⟩ := deframe_beginning (show 0 < 4 by omega) (show LIMIT ≤ 256^4 by simp [LIMIT]) frames
      (fun b hb => by have := hf b hb; simp only [LIMIT]; omega) hb
    rw [← hheld] at hsplit hnext
    refine ⟨k,hk,parts,hsent,by rw [hparts,hbs],hsplit,hnext,fun hall => ?_⟩
    rw [hall,deframe_frames (show 0 < 4 by omega) (show LIMIT ≤ 256^4 by simp [LIMIT]) frames
      (fun b hb => by have := hf b hb; simp only [LIMIT]; omega)] at hbs
    have hlen : frames.length = (frames.take k).length := congrArg List.length hbs
    rw [List.length_take] at hlen
    omega

/-- A gate that only has a watchdog. -/
def watched : Gate := { gateCreate with watchdog := 9, headerSize := 4, clientTag := PTYPE_CLIENT }

def watchedCall (bytes : Bytes) (fits : bytes.length < 2^31) : Call := ⟨watched,0,0,5,⟨0,bytes,fits⟩⟩

theorem Carries.zeroed : Carries .zero Connection.cleared.buffer [] [] ⟨0,[]⟩ :=
  ⟨0,⟨[],[],⟨rfl,rfl,.nil⟩,rfl,.inl rfl,rfl,rfl,.nil⟩,rfl⟩

/-- A frame cut inside its header, and an empty one. -/
theorem dispatch_delivers_frames_split : ∃ tr s parts, Run callStep Deliverable (Connection.cleared,.zero) tr s ∧
    tr.map (·.1.data.bytes) = [[0,0],[0,1,7,0,0],[],[0,0]] ∧ Sent .cleared tr parts ∧ parts.flatten = [[7]] ∧
    heldBytes s = [] := by
  have hcheck : runCheck callStep Deliverable (fun tr _ => received tr = [[7],[]].flatMap (frame 4))
      [watchedCall [0,0] (by decide),watchedCall [0,1,7,0,0] (by decide),watchedCall [] (by decide),
        watchedCall [0,0] (by decide)] [] (Connection.cleared,Messagepool.zero) = true := by decide
  obtain ⟨tr,s,hrun,hm,hrec⟩ := Run.of_runCheck hcheck
  obtain ⟨_,k,_,parts,hsent,hparts,hsplit,hnext,hall⟩ := dispatch_delivers_frames .zeroed
    (show ∀ b ∈ [[7],[]], b.length ≤ 0xFFFFFF by simp) hrun (by rw [hrec])
  obtain rfl := hall hrec
  have hbytes := congrArg (List.map (·.data.bytes)) hm
  rw [List.map_map] at hbytes
  exact ⟨tr,s,parts,hrun,hbytes,hsent,hparts,hnext⟩

/-- Calls for a connection with a destination, whatever the length of the chunks. -/
def Routable (_ : Trace Call Effect) (s : Connection × Messagepool) (call : Call) : Prop :=
  call.gate.headerSize = 4 ∧ routed call.gate (call.connection s.1)

private theorem feed_short {chunk : Bytes} (h0 : st.header = 0) (hs : (st.push chunk).size < 4) (consume : Bool) :
    st.feed consume chunk = ⟨st.push chunk,[],false⟩ := by
  have hread : (st.push chunk).readheader = (st.push chunk,-1) := by
    rw [readheader,if_pos (show (st.push chunk).header = 0 from h0),if_pos hs]
  rw [feed,drain,hread]
  rfl

variable {guard : Trace Call Effect → Connection × Messagepool → Call → Prop}

private theorem routed_snoc (hc : Carries s.2 s.1.buffer [] bs st) (hrun : Run callStep guard (c,mp) tr s)
    (call : Call) (hk : guard tr s call) (hg : call.gate.headerSize = 4) (hr : routed call.gate (call.connection s.1)) :
    ∃ s' fx bs', Run callStep guard (c,mp) (tr ++ [(call,fx)]) s' ∧
      Carries s'.2 s'.1.buffer [] bs' (st.feed true call.data.bytes).stream ∧
      ((st.feed true call.data.bytes).bodies = [] → (st.feed true call.data.bytes).closed = false → visible fx = []) := by
  obtain ⟨s',fx,bs',he,_,hc',hout,_⟩ := callStep_leaves hg hc
  rw [hr] at hc' hout
  exact ⟨s',fx,bs',hrun.snoc hk he,hc',fun hb hcl => by rw [hout,hb,hcl]; rfl⟩

/-- Two chunks that overflow the size of the queue: nothing is sent. -/
theorem overflow_run (g : Gate) (agent client : UInt32) (hg : g.headerSize = 4)
    (hr : ∀ c : Connection, routed g { c with agent, client }) (hk : ∀ tr s data, guard tr s ⟨g,agent,client,5,data⟩)
    (whole : Bytes) (hlen : 2^31 ≤ whole.length) :
    ∃ tr s, Run callStep guard (Connection.cleared,.zero) tr s ∧ tr.map (·.1.data.bytes.length) = [1,2^31-1] ∧
      received tr = whole.take (2^31) ∧ ∀ e ∈ tr, visible e.2 = [] := by
  have h1 : (whole.take 1).length = 1 := by rw [List.length_take]; omega
  have h2 : ((whole.drop 1).take (2^31-1)).length = 2^31-1 := by rw [List.length_take,List.length_drop]; omega
  have hs1 : ((ByteStream.mk 0 []).push (whole.take 1)).size < 4 := by
    rw [size,push,List.nil_append,h1]
    decide
  have hs2 : ((ByteStream.mk 0 (whole.take 1)).push ((whole.drop 1).take (2^31-1))).size < 4 := by
    rw [size,push,List.length_append,h1,h2]
    decide
  have hf1 := feed_short rfl hs1 true
  have hf2 := feed_short rfl hs2 true
  obtain ⟨s₁,fx₁,bs₁,hr₁,hc₁,hv₁⟩ := routed_snoc .zeroed .nil ⟨g,agent,client,5,⟨0,whole.take 1,by omega⟩⟩ (hk _ _ _) hg (hr _)
  obtain ⟨s₂,fx₂,bs₂,hr₂,_,hv₂⟩ := routed_snoc
    (show Carries s₁.2 s₁.1.buffer [] bs₁ ⟨0,whole.take 1⟩ by simpa [hf1,push] using hc₁) hr₁
    ⟨g,agent,client,5,⟨1,(whole.drop 1).take (2^31-1),by omega⟩⟩ (hk _ _ _) hg (hr _)
  have hv₁ := hv₁ (by simp only [hf1]) (by simp only [hf1])
  have hv₂ := hv₂ (by simp only [hf2]) (by simp only [hf2])
  refine ⟨_,_,hr₂,?_,?_,?_⟩
  · simp only [List.nil_append,List.map_cons,List.map_nil,h1,h2,List.singleton_append]
  · rw [received_snoc,received_snoc]
    change whole.take 1 ++ (whole.drop 1).take (2^31-1) = _
    rw [← List.take_add,show 1 + (2^31-1) = 2^31 by omega]
  · intro e he
    simp only [List.nil_append,List.singleton_append,List.mem_cons,List.not_mem_nil,or_false] at he
    rcases he with rfl | rfl
    · exact hv₁
    · exact hv₂

private theorem length_frames (n : Nat) : ((List.replicate n [(7 : UInt8)]).flatMap (frame 4)).length = n * 5 := by
  simp [List.length_flatMap,length_frame]

private theorem frame_beginning_frames (n : Nat) :
    frame 4 [7] <+: (List.replicate (n + 1) [(7 : UInt8)]).flatMap (frame 4) := by
  rw [List.replicate_succ,List.flatMap_cons]
  exact List.prefix_append _ _

/-- Two chunks that overflow the size of the queue: the first frames have arrived
in full and nothing is sent. -/
theorem dispatch_overflow_sends_nothing : ∃ tr s, Run callStep Routable (Connection.cleared,.zero) tr s ∧
    tr.map (·.1.data.bytes.length) = [1,2^31-1] ∧ received tr <+: (List.replicate (2^29) [7]).flatMap (frame 4) ∧
    frame 4 [7] <+: received tr ∧ ∀ e ∈ tr, visible e.2 = [] := by
  have hlen := length_frames (2^29)
  have hfirst := frame_beginning_frames (2^29-1)
  rw [show 2^29-1+1 = 2^29 by omega] at hfirst
  generalize (List.replicate (2^29) [(7 : UInt8)]).flatMap (frame 4) = whole at *
  obtain ⟨tr,s,hr,hm,hrec,hv⟩ := overflow_run watched 0 0 rfl (fun _ => rfl)
    (show ∀ tr s data, Routable tr s ⟨watched,0,0,5,data⟩ from fun _ _ _ => ⟨rfl,rfl⟩) whole (by omega)
  refine ⟨tr,s,hr,hm,?_,?_,hv⟩
  · rw [hrec]
    exact List.take_prefix _ _
  · rw [hrec]
    refine List.prefix_take_iff.mpr ⟨hfirst,?_⟩
    rw [length_frame]
    simp

/-- What the complete frames leave of the bytes after a call. -/
def unframed (s : Connection × Messagepool) (call : Call) : Bytes :=
  (deframe 4 LIMIT (routed call.gate (call.connection s.1)) (heldBytes s ++ call.data.bytes)).2

/-- An oversized length that a call makes available is a positive `int`, and its
body has arrived. -/
def Complete (s : Connection × Messagepool) (call : Call) : Prop :=
  Oversized 4 LIMIT (unframed s call) → ofBytes ((unframed s call).take 4) < 2^31 ∧
    4 + ofBytes ((unframed s call).take 4) ≤ (unframed s call).length

instance (s : Connection × Messagepool) (call : Call) : Decidable (Complete s call) := inferInstanceAs (Decidable (_ → _))

/-- Calls that fit an `int` and meet no oversized length before its body. -/
def Rejectable (_ : Trace Call Effect) (s : Connection × Messagepool) (call : Call) : Prop :=
  call.gate.headerSize = 4 ∧ Fits s call ∧ Complete s call

instance (tr : Trace Call Effect) (s : Connection × Messagepool) (call : Call) : Decidable (Rejectable tr s call) :=
  inferInstanceAs (Decidable (_ ∧ _ ∧ _))

/-- The connection is cleared and its socket closed. -/
def Refuses (call : Call) (s' : Connection × Messagepool) (fx : List Effect) : Prop :=
  s'.1.buffer = .zero ∧ .socketClose call.id ∈ fx

/-- Between calls a connection holds less than the largest frame. -/
private structure Bounded (rest : List Nat) (s : Connection × Messagepool) : Prop where
  carries : ∃ bs, Carries s.2 s.1.buffer rest bs (streamOf s.2 s.1.buffer)
  range : (streamOf s.2 s.1.buffer).InRange
  held : (heldBytes s).length < LIMIT + 4

/-- A call that fits an `int` refuses an oversized length exactly if it is complete,
and otherwise keeps what it cannot frame. -/
private theorem refuses_step {call : Call} (h : Bounded rest s) (hg : call.gate.headerSize = 4) (hfits : Fits s call) :
    ∃ s' fx, callStep s call = .ok s' fx ∧
      ((Oversized 4 LIMIT (unframed s call) → Refuses call s' fx) ↔ Complete s call) ∧
      (Complete s call → Bounded rest s') := by
  obtain ⟨⟨bs,hc⟩,hr,hlen⟩ := h
  obtain ⟨s',fx,bs',he,_,hc',hout,hz⟩ := callStep_leaves hg hc
  obtain ⟨_,hr',hset⟩ := feed_deframe (routed call.gate (call.connection s.1)) hr call.data.bytes
  obtain ⟨_,hrest⟩ := hset hfits
  have hcut := cut_deframe LIMIT (routed call.gate (call.connection s.1)) (show 0 < 4 by omega)
    (heldBytes s ++ call.data.bytes)
  generalize feed (routed call.gate (call.connection s.1)) (streamOf s.2 s.1.buffer) call.data.bytes = d at *
  have hst := hc'.streamOf_eq
  have hu : unframed s call = (deframe 4 LIMIT (routed call.gate (call.connection s.1)) (heldBytes s ++ call.data.bytes)).2 :=
    rfl
  rw [← hu] at hcut
  change if Rejects (unframed s call) then _ else d.stream.held = unframed s call ∧ _ at hrest
  refine ⟨s',fx,he,?_⟩
  by_cases hrej : Rejects (unframed s call)
  · rw [if_pos hrej] at hrest
    have hclose : .socketClose call.id ∈ visible fx := by
      rw [hout,hrest.2,if_pos rfl]
      simp [rejection]
    refine ⟨⟨fun _ _ => hrej.2,fun _ _ => ⟨hz hrest.2,List.mem_of_mem_filter hclose⟩⟩,fun _ => ⟨⟨bs',by rwa [hst]⟩,by rwa [hst],?_⟩⟩
    rw [heldBytes,hst,hrest.1,held_zero]
    simp [LIMIT]
  · rw [if_neg hrej] at hrest
    have hheld : heldBytes s' = unframed s call := by rw [heldBytes,hst,hrest.1]
    refine ⟨⟨fun h ho => ?_,fun h ho => absurd ⟨ho,h ho⟩ hrej⟩,fun h => ⟨⟨bs',by rwa [hst]⟩,by rwa [hst],?_⟩⟩
    · have hnil : heldBytes s' = [] := by rw [heldBytes,(h ho).1,streamOf_zero,held_zero]
      have hfour := ho.1
      rw [← hheld,hnil] at hfour
      cases hfour
    · rw [hheld]
      have hlt := length_of_cut_none hcut (fun ho => hrej ⟨ho,h ho⟩)
      omega

private theorem bounded_run (hc : Carries mp c.buffer rest [] ⟨0,[]⟩) (hrun : Run callStep Rejectable (c,mp) tr s) :
    Bounded rest s := by
  refine hrun.invariant (fun _ s => Bounded rest s) ?_ ?_
  · have hst := hc.streamOf_eq
    refine ⟨⟨[],by rwa [hst]⟩,by rw [hst]; exact inRange_zero _,?_⟩
    rw [heldBytes,hst,held_zero]
    simp [LIMIT]
  · intro tr s call s' fx ih hd he
    obtain ⟨s₁,fx₁,he₁,_,hb⟩ := refuses_step ih hd.1 hd.2.1
    rw [he] at he₁
    cases he₁
    exact hb hd.2.2

/-- In every run whose calls are `Rejectable`, the unread bytes stay below the largest
frame and are counted without overflow. There every further call that fits an `int`
refuses an oversized length it makes available if and only if the length is complete. -/
theorem oversized_refused_iff_complete (hc : Carries mp c.buffer rest [] ⟨0,[]⟩)
    (hrun : Run callStep Rejectable (c,mp) tr s) :
    (queued s.2 s.1.buffer).length < 0x1000000 + 4 ∧ s.1.buffer.size = (queued s.2 s.1.buffer).length ∧
      ∀ call, call.gate.headerSize = 4 → Fits s call → ∃ s' fx, callStep s call = .ok s' fx ∧
        ((Oversized 4 LIMIT (unframed s call) → Refuses call s' fx) ↔ Complete s call) := by
  obtain ⟨⟨bs,hcs⟩,_,hheld⟩ := bounded_run hc hrun
  have hle : (queued s.2 s.1.buffer).length ≤ (heldBytes s).length := by
    rw [heldBytes,held,List.length_append]
    exact Nat.le_add_left _ _
  have hlt : (queued s.2 s.1.buffer).length < 0x1000000 + 4 := by
    simp only [LIMIT] at hheld
    omega
  refine ⟨hlt,?_,fun call hg hfits => ?_⟩
  · rw [hcs.size]
    exact size_eq (show (queued s.2 s.1.buffer).length < 2^31 by omega)
  · obtain ⟨s',fx,he,hiff,_⟩ := refuses_step (bounded_run hc hrun) hg hfits
    exact ⟨s',fx,he,hiff⟩

theorem oversized_refused_iff_complete_split : ∃ tr s, Run callStep Rejectable (Connection.cleared,.zero) tr s ∧
    tr.map (·.1.data.bytes) = [[0,0],[0,1,7,0,0]] ∧ s.1.buffer.size = (queued s.2 s.1.buffer).length := by
  have hcheck : runCheck callStep Rejectable (fun _ _ => True)
      [watchedCall [0,0] (by decide),watchedCall [0,1,7,0,0] (by decide)] [] (Connection.cleared,Messagepool.zero) = true := by
    decide
  obtain ⟨tr,s,hrun,hm,_⟩ := Run.of_runCheck hcheck
  have hbytes := congrArg (List.map (·.data.bytes)) hm
  rw [List.map_map] at hbytes
  exact ⟨tr,s,hrun,hbytes,(oversized_refused_iff_complete .zeroed hrun).2.1⟩

/-- The header of a frame of 16M arrives alone. -/
def bigHeader : Call := watchedCall [1,0,0,0] (by decide)

/-- It is kept as the pending length, and nothing else happens. -/
theorem oversized_header_kept : ∃ s' fx, callStep (Connection.cleared,.zero) bigHeader = .ok s' fx ∧
    Oversized 4 LIMIT (unframed (Connection.cleared,.zero) bigHeader) ∧ s'.1.buffer.header = 0x1000000 ∧
    ¬ Refuses bigHeader s' fx := by
  obtain ⟨s',fx,he,hp⟩ := Act.exists_of_holds (x := callStep (Connection.cleared,.zero) bigHeader)
    (p := fun (s' : Connection × Messagepool) _ => decide (s'.1.buffer.header = 0x1000000)) (by decide)
  have hp := of_decide_eq_true hp
  refine ⟨s',fx,he,by decide,hp,fun h => ?_⟩
  rw [h.1] at hp
  cases hp

end MyProgram.SkynetGate
