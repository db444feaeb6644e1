import MyProgram.SkynetGate.Dispatch
import MyProgram.Lib.Framing
import MyProgram.Lib.Runs

/-! Dispatching a connection's chunks is the framing of its byte stream, and what
follows for complete, partial and oversized frames. -/
namespace MyProgram.SkynetGate
open Lib

/-- The first length that is refused. -/
def LIMIT : Nat := 0x1000000

/-- The unread bytes of a databuffer, read off its nodes. -/
def queuedFrom (mp : Messagepool) : Nat → Option Nat → Bytes
  | fuel+1, some a => ((mp.node a).buffer.map (·.bytes)).getD [] ++ queuedFrom mp fuel (mp.next a)
  | _, _ => []

def queued (mp : Messagepool) (db : Databuffer) : Bytes := (queuedFrom mp mp.nodes db.head).drop db.offset.toNat

def streamOf (mp : Messagepool) (db : Databuffer) : ByteStream := ⟨db.header,queued mp db⟩

theorem streamOf_zero (mp : Messagepool) : streamOf mp .zero = ⟨0,[]⟩ := by
  have hnil : queuedFrom mp mp.nodes none = [] := by cases mp.nodes <;> rfl
  rw [streamOf,queued]
  simp [Databuffer.zero,hnil]

namespace ByteStream

/-- The bytes received and not yet handed over: those of the pending length, and
the unread ones. -/
def held (s : ByteStream) : Bytes := (if s.header = 0 then [] else toBytes 4 (s.header % 2^32).toNat) ++ s.content

/-- The pending length is an `int`. -/
def InRange (s : ByteStream) : Prop := -2^31 ≤ s.header ∧ s.header < 2^31

theorem inRange_zero (l : Bytes) : (ByteStream.mk 0 l).InRange := by
  simp [InRange]

/-- The bytes start with a complete frame over 16M whose length is a positive `int`. -/
def Rejects (rest : Bytes) : Prop :=
  Oversized 4 LIMIT rest ∧ ofBytes (rest.take 4) < 2^31 ∧ 4 + ofBytes (rest.take 4) ≤ rest.length

instance (rest : Bytes) : Decidable (Rejects rest) := inferInstanceAs (Decidable (_ ∧ _ ∧ _))

/-- The bodies that are worth a message. -/
def nonEmpty (bodies : List Bytes) : List Bytes := bodies.filter fun b => !b.isEmpty

/-- A call whose stream was framed into the bodies `r.1` and the remainder `r.2`
forwards the bodies, and either rejects the remainder or keeps it. -/
def Settled (r : List Bytes × Bytes) (d : Drained) : Prop :=
  d.bodies = nonEmpty r.1 ∧
    if Rejects r.2 then d.stream = ⟨0,[]⟩ ∧ d.closed = true else d.stream.held = r.2 ∧ d.closed = false

variable {s s' : ByteStream} {consume : Bool} {chunk : Bytes} {fuel : Nat}

theorem size_eq (h : s.content.length < 2^31) : s.size = s.content.length :=
  wrap32_eq (by omega) (by omega)

theorem size_le (s : ByteStream) : s.size ≤ s.content.length := wrap32_natCast_le _

private theorem wrap32_eq_zero {v : Nat} (hv : v < 2^32) : wrap32 v = 0 ↔ v = 0 := by
  obtain ⟨k,hk⟩ := wrap32_dvd v
  have := wrap32_range v
  omega

private theorem wrap32_emod {v : Nat} (hv : v < 2^32) : (wrap32 v % 2^32).toNat = v := by
  obtain ⟨k,hk⟩ := wrap32_dvd v
  omega

private theorem ofBytes_take_four (l : Bytes) : ofBytes (l.take 4) < 2^32 := by
  have h := ofBytes_lt (l.take 4)
  have hle : 256^(l.take 4).length ≤ 256^4 := Nat.pow_le_pow_right (by omega) (by simp)
  omega

theorem held_zero (l : Bytes) : (ByteStream.mk 0 l).held = l := by
  simp [held]

private theorem held_pos {v : Int} (h : v ≠ 0) (l : Bytes) : (ByteStream.mk v l).held = toBytes 4 (v % 2^32).toNat ++ l := by
  simp only [held,h,if_false]

/-- The held bytes of a stream with a pending length start with it. -/
private theorem held_pending (h0 : s.header ≠ 0) :
    s.held.length = 4 + s.content.length ∧ ofBytes (s.held.take 4) = (s.header % 2^32).toNat ∧
      s.held.drop 4 = s.content := by
  have hlt : (s.header % 2^32).toNat < 256^4 := by omega
  unfold held
  rw [if_neg h0]
  refine ⟨by simp,?_,?_⟩
  · rw [List.take_left' (length_toBytes 4 _),ofBytes_toBytes _ _ hlt]
  · rw [List.drop_left' (length_toBytes 4 _)]

/-- Reading a header moves no byte out of the held ones, except the header of an
empty frame. -/
private theorem readheader_cases (consume : Bool) (hr : s.InRange) :
    (s.readheader = (s,-1) ∧ s.header = 0 ∧ s.size < 4) ∨
    (s.readheader = (⟨0,s.content.drop 4⟩,0) ∧ cut 4 LIMIT consume s.held = some ([],s.content.drop 4)) ∨
    ∃ s', s.readheader = (s',s'.available) ∧ s'.header ≠ 0 ∧ s'.held = s.held ∧ s'.InRange ∧
      s'.content.length ≤ s.content.length ∧ s'.rounds ≤ s.rounds := by
  unfold readheader
  by_cases h0 : s.header = 0
  · by_cases h4 : s.size < 4
    · exact .inl ⟨by rw [if_pos h0,if_pos h4],h0,h4⟩
    · have hlen : 4 ≤ s.content.length := by
        have := s.size_le
        omega
      have hv := ofBytes_take_four s.content
      have hheld : s.held = s.content := by simp [held,h0]
      have hsize (v : Int) := size_drop (s := s) (n := 4) (by push_cast; omega) v
      rw [if_pos h0,if_neg h4]
      by_cases hz : ofBytes (s.content.take 4) = 0
      · refine .inr (.inl ⟨?_,?_⟩)
        · rw [hz]
          have hw : wrap32 ((0 : Nat) : Int) = 0 := rfl
          simp only [hw,available,hsize]
          rw [if_neg (by push_cast; omega)]
        · rw [hheld,cut_eq_some,hz]
          refine ⟨hlen,by simp [LIMIT],by omega,by simp,by simp⟩
      · have hne : wrap32 (ofBytes (s.content.take 4)) ≠ 0 := fun he => hz ((wrap32_eq_zero hv).mp he)
        have hrange := wrap32_range (ofBytes (s.content.take 4))
        generalize hw : wrap32 (ofBytes (s.content.take 4)) = v at *
        refine .inr (.inr ⟨⟨v,s.content.drop 4⟩,rfl,hne,?_,hrange,by simp,?_⟩)
        · have hfour : (s.content.take 4).length = 4 := by simp; omega
          have hbytes := toBytes_ofBytes (s.content.take 4)
          rw [hfour] at hbytes
          rw [hheld,held_pos hne,← hw,wrap32_emod hv,hbytes,List.take_append_drop]
        · rw [rounds,rounds,hsize,if_neg hne,if_pos h0]
          push_cast
          omega
  · exact .inr (.inr ⟨s,by rw [if_neg h0],h0,rfl,hr,le_rfl,le_rfl⟩)

private theorem cut_eq_none {l : Bytes} (h : l.length < 4 ∨ LIMIT ≤ ofBytes (l.take 4) ∨ l.length < 4 + ofBytes (l.take 4)) :
    cut 4 LIMIT consume l = none := by
  simp only [cut]
  rw [if_pos h]

/-- A frame whose length is pending is cut off when it is complete and not too long. -/
private theorem cut_pending (consume : Bool) (hr : s.InRange) (h0 : s.header ≠ 0) (hpos : 0 < s.available) (hlt : s.available < LIMIT) :
    cut 4 LIMIT consume s.held = some (s.content.take s.available.toNat,
      if consume then s.content.drop s.available.toNat else s.content) := by
  obtain ⟨hlen,hv,hd⟩ := held_pending h0
  have hsize := s.size_le
  have hav : s.available = s.header ∧ s.header ≤ s.size := by
    unfold available at hpos ⊢
    split at hpos
    · omega
    · rename_i hge
      exact ⟨if_neg hge,by omega⟩
  have hn : (s.header % 2^32).toNat = s.available.toNat := by
    have := hr.1
    have := hr.2
    omega
  rw [cut_eq_some,hv,hn,hlen,hd]
  refine ⟨by omega,by omega,by omega,rfl,?_⟩
  cases consume with
  | false => exact hd.symm
  | true => rw [if_pos rfl,if_pos rfl,← List.drop_drop,hd]

/-- A pending frame that is not handed over stays, or is rejected when it is complete. -/
private theorem stop_pending (consume : Bool) (hr : s.InRange) (h0 : s.header ≠ 0) (hs : s.content.length < 2^31)
    (h : s.available < 0 ∨ LIMIT ≤ s.available) :
    cut 4 LIMIT consume s.held = none ∧ (Rejects s.held ↔ LIMIT ≤ s.available) := by
  obtain ⟨hlen,hv,_⟩ := held_pending h0
  have hsize := size_eq hs
  have hl := hr.1
  have hu := hr.2
  unfold available at h ⊢
  have hL : LIMIT = 0x1000000 := rfl
  have hcut : LIMIT ≤ (s.header % 2^32).toNat ∨ s.held.length < 4 + (s.header % 2^32).toNat := by
    split at h <;> omega
  refine ⟨cut_eq_none (.inr (by rwa [hv])),?_⟩
  unfold Rejects Oversized
  rw [hv]
  split <;> constructor <;> intro h' <;> omega

private theorem rounds_next (consume : Bool) {n : Nat} (h : (n : Int) ≤ s.size) :
    (ByteStream.mk 0 (if consume then s.content.drop n else s.content)).rounds ≤ s.size.toNat := by
  rw [rounds,if_pos rfl]
  split
  · rw [size_drop h]
    omega
  · rw [size_setHeader]
    omega

private theorem settled_kept (hc : cut 4 LIMIT consume s.held = none) (hn : ¬ Rejects s.held) :
    Settled (deframe 4 LIMIT consume s.held) ⟨s,[],false⟩ := by
  rw [deframe_of_none hc]
  refine ⟨rfl,?_⟩
  rw [if_neg hn]
  exact ⟨rfl,rfl⟩

private theorem settled_rejected {l : Bytes} (hc : cut 4 LIMIT consume l = none) (hr : Rejects l) :
    Settled (deframe 4 LIMIT consume l) ⟨⟨0,[]⟩,[],true⟩ := by
  rw [deframe_of_none hc]
  refine ⟨rfl,?_⟩
  rw [if_pos hr]
  exact ⟨rfl,rfl⟩

private theorem nonEmpty_cons {body : Bytes} (h : 0 < body.length) (bodies : List Bytes) :
    nonEmpty (body :: bodies) = body :: nonEmpty bodies := by
  have hne : body.isEmpty = false := List.isEmpty_eq_false_iff.mpr (List.length_pos_iff.mp h)
  simp [nonEmpty,hne]

theorem drain_deframe (consume : Bool) (hr : s.InRange) (hf : s.rounds < fuel) :
    (s.drain consume fuel).bodies <+: nonEmpty (deframe 4 LIMIT consume s.held).1 ∧
      (s.drain consume fuel).stream.InRange ∧
      (s.content.length < 2^31 → Settled (deframe 4 LIMIT consume s.held) (s.drain consume fuel)) := by
  induction fuel generalizing s with
  | zero => omega
  | succ fuel ih =>
    rw [drain]
    rcases readheader_cases consume hr with ⟨he,h0,h4⟩ | ⟨he,hc⟩ | ⟨s',he,h0,hh,hr',hlen,hround⟩
    · rw [he]
      refine ⟨List.nil_prefix,hr,fun hs => ?_⟩
      have hheld : s.held = s.content := by simp [held,h0]
      have hlt : s.held.length < 4 := by
        rw [size_eq hs] at h4
        rw [hheld]
        omega
      exact settled_kept (cut_eq_none (.inl hlt)) fun h => by have := h.1.1; omega
    · obtain ⟨_,_,hround⟩ := readheader_nonneg he (le_refl 0)
      have hz : (ByteStream.mk 0 (s.content.drop 4)).rounds < fuel := by
        rw [rounds,if_pos rfl]
        omega
      obtain ⟨hp,hi,hset⟩ := ih (s := ⟨0,s.content.drop 4⟩) (inRange_zero _) hz
      rw [held_zero] at hp hset
      rw [he,deframe_of_some (by omega) hc]
      exact ⟨hp,hi,fun hs => hset (by simp; omega)⟩
    · rw [he,← hh]
      simp only
      split
      · rename_i hneg
        refine ⟨List.nil_prefix,hr',fun hs => ?_⟩
        obtain ⟨hc,hrej⟩ := stop_pending consume hr' h0 (by omega) (.inl hneg)
        exact settled_kept hc fun h => by have := hrej.mp h; omega
      · rename_i hneg
        obtain ⟨hav,hle,hround'⟩ := readheader_nonneg he (by omega)
        have hpos : s'.available > 0 := by omega
        rw [if_pos hpos]
        split
        · rename_i hbig
          refine ⟨List.nil_prefix,inRange_zero _,fun hs => ?_⟩
          obtain ⟨hc,hrej⟩ := stop_pending consume hr' h0 (by omega) (.inr hbig)
          exact settled_rejected hc (hrej.mpr hbig)
        · rename_i hsmall
          have hc := cut_pending consume hr' h0 hpos (by simp only [LIMIT]; omega)
          set rest := if consume then s'.content.drop s'.available.toNat else s'.content with hrest
          have hrest_le : rest.length ≤ s'.content.length := by
            rw [hrest]
            split
            · simp
            · exact le_rfl
          have hz : (ByteStream.mk 0 rest).rounds < fuel := by
            have := rounds_next consume (s := s') (n := s'.available.toNat) (by omega)
            rw [← hrest] at this
            omega
          obtain ⟨hp,hi,hset⟩ := ih (s := ⟨0,rest⟩) (inRange_zero _) hz
          rw [held_zero] at hp hset
          have hbody : 0 < (s'.content.take s'.available.toNat).length := by
            have := s'.size_le
            rw [List.length_take]
            omega
          rw [deframe_of_some (by omega) hc,nonEmpty_cons hbody]
          refine ⟨(List.prefix_cons_inj _).mpr hp,hi,fun hs => ?_⟩
          obtain ⟨hb,hrest'⟩ := hset (by simp only; omega)
          exact ⟨by rw [nonEmpty_cons hbody,hb],hrest'⟩

/-- One chunk is framed together with the bytes held before. Where the unread bytes
exceed the range of `int`, frames may stay behind. -/
theorem feed_deframe (consume : Bool) (hr : s.InRange) (chunk : Bytes) :
    (s.feed consume chunk).bodies <+: nonEmpty (deframe 4 LIMIT consume (s.held ++ chunk)).1 ∧
      (s.feed consume chunk).stream.InRange ∧
      (s.content.length + chunk.length < 2^31 →
        Settled (deframe 4 LIMIT consume (s.held ++ chunk)) (s.feed consume chunk)) := by
  have hheld : (s.push chunk).held = s.held ++ chunk := by rw [held,held,push,List.append_assoc]
  have hlen : (s.push chunk).content.length = s.content.length + chunk.length := by simp [push]
  have hround : (s.push chunk).rounds < (s.push chunk).size.toNat + 2 := by
    rw [rounds]
    split <;> omega
  have h := drain_deframe consume (s := s.push chunk) hr hround
  rwa [hheld,hlen] at h

end ByteStream

variable {mp : Messagepool} {db : Databuffer} {rest : List Nat} {bs : List Buffer} {st : ByteStream} {c : Connection}

private theorem queuedFrom_eq {l : List Nat} (fuel : Nat) (p : Option Nat) (hc : Chain mp.next p l)
    (hn : List.Forall₂ (fun a b => (mp.node a).buffer = some b ∧ (mp.node a).size = (b : Buffer).bytes.length) l bs)
    (hf : l.length ≤ fuel) : queuedFrom mp fuel p = bs.flatMap (·.bytes) := by
  induction hn generalizing p fuel with
  | nil =>
    have hp : p = none := hc
    rw [hp]
    cases fuel <;> rfl
  | @cons a b l bs hab _ ih =>
    cases fuel with
    | zero => simp at hf
    | succ fuel =>
      obtain ⟨rfl,hc⟩ := hc
      rw [queuedFrom,hab.1,ih fuel _ hc (by simpa using hf)]
      simp

/-- The stream a databuffer carries can be read off its nodes. -/
theorem Carries.streamOf_eq (h : Carries mp db rest bs st) : streamOf mp db = st := by
  obtain ⟨off,⟨l,free,h⟩,rfl⟩ := h
  have hlen : l.length ≤ mp.nodes := by
    have := h.perm.length_eq
    simp only [List.length_append,List.length_range] at this
    omega
  rw [streamOf,queued,queuedFrom_eq _ _ h.linked.chain h.linked.node hlen,h.offset]
  rfl

/-- A call of `dispatch_message`, with the routing in force at its time. -/
structure Call where
  gate : Gate
  agent : UInt32
  client : UInt32
  id : Int
  data : Buffer

def Call.connection (call : Call) (c : Connection) : Connection := { c with agent := call.agent, client := call.client }

def callStep (s : Connection × Messagepool) (call : Call) : GateM (Connection × Messagepool) :=
  dispatchMessage call.gate (call.connection s.1) s.2 call.id call.data

/-- The bytes delivered by a sequence of calls. -/
def received (tr : Trace Call Effect) : Bytes := tr.flatMap (·.1.data.bytes)

/-- The unread bytes with the new chunk fit an `int`. -/
def Fits (s : Connection × Messagepool) (call : Call) : Prop :=
  (queued s.2 s.1.buffer).length + call.data.bytes.length < 2^31

instance (s : Connection × Messagepool) (call : Call) : Decidable (Fits s call) := inferInstanceAs (Decidable (_ < _))

/-- The bytes of a connection that have not been handed over. -/
def heldBytes (s : Connection × Messagepool) : Bytes := (streamOf s.2 s.1.buffer).held

/-- Every call returns and feeds its chunk to the stream. -/
theorem callStep_leaves {s : Connection × Messagepool} {call : Call} (hg : call.gate.headerSize = 4)
    (h : Carries s.2 s.1.buffer rest bs st) :
    ∃ s' fx bs', callStep s call = .ok s' fx ∧ s'.1.id = s.1.id ∧
      Carries s'.2 s'.1.buffer rest bs' (st.feed (routed call.gate (call.connection s.1)) call.data.bytes).stream ∧
      visible fx = (st.feed (routed call.gate (call.connection s.1)) call.data.bytes).bodies.filterMap
          (frameMessage call.gate (call.connection s.1)) ++
        (if (st.feed (routed call.gate (call.connection s.1)) call.data.bytes).closed then rejection call.id else []) ∧
      ((st.feed (routed call.gate (call.connection s.1)) call.data.bytes).closed = true → s'.1.buffer = .zero) := by
  obtain ⟨db',mp',bs',fx,he,hl,hz⟩ := dispatchMessage_leaves (c := call.connection s.1) hg call.id call.data h
  exact ⟨_,fx,bs',he,rfl,hl.carries,hl.out,hz⟩

end MyProgram.SkynetGate
