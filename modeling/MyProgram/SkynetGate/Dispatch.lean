import MyProgram.SkynetGate.Service
import MyProgram.SkynetGate.DatabufferQueue

/-! `dispatch_message` seen as a function of bytes: the chunk queue and the node
pool are abstracted to the pending length and the unread bytes of a connection. -/
namespace MyProgram.SkynetGate
open Lib

/-- The framing state of a connection: the pending length, 0 for none, and the
bytes that follow. -/
structure ByteStream where
  header : Int
  content : Bytes
  deriving DecidableEq, Repr

/-- What a call of `dispatch_message` leaves, the bodies it handed to `_forward`
and whether it took the branch for messages over 16M. -/
structure Drained where
  stream : ByteStream
  bodies : List Bytes
  closed : Bool
  deriving DecidableEq, Repr

namespace ByteStream

def size (s : ByteStream) : Int := wrap32 s.content.length

def available (s : ByteStream) : Int := if s.size < s.header then -1 else s.header

def readheader (s : ByteStream) : ByteStream × Int :=
  if s.header = 0 then
    if s.size < 4 then (s,-1)
    else
      let s' : ByteStream := ⟨wrap32 (ofBytes (s.content.take 4)),s.content.drop 4⟩
      (s',s'.available)
  else (s,s.available)

/-- Hand over complete frames. Without a destination the body is not taken off. -/
def drain (consume : Bool) : Nat → ByteStream → Drained
  | 0, s => ⟨s,[],false⟩
  | fuel+1, s =>
    let (s,size) := s.readheader
    if size < 0 then ⟨s,[],false⟩
    else if size > 0 then
      if size ≥ 0x1000000 then ⟨⟨0,[]⟩,[],true⟩
      else
        let d := drain consume fuel ⟨0,if consume then s.content.drop size.toNat else s.content⟩
        { d with bodies := s.content.take size.toNat :: d.bodies }
    else drain consume fuel s

def push (s : ByteStream) (chunk : Bytes) : ByteStream := ⟨s.header,s.content ++ chunk⟩

/-- One DATA chunk. -/
def feed (consume : Bool) (s : ByteStream) (chunk : Bytes) : Drained :=
  (s.push chunk).drain consume ((s.push chunk).size.toNat + 2)

/-- Rounds of the loop that are still possible. -/
def rounds (s : ByteStream) : Nat := s.size.toNat + (if s.header = 0 then 0 else 1)

/-- The size does not depend on the pending length. -/
theorem size_setHeader (s : ByteStream) (v : Int) : (ByteStream.mk v s.content).size = s.size := rfl

theorem size_drop {s : ByteStream} {n : Nat} (h : (n : Int) ≤ s.size) (v : Int) :
    (ByteStream.mk v (s.content.drop n)).size = s.size - n := by
  unfold size at h ⊢
  rw [List.length_drop,wrap32_sub h]

end ByteStream

/-- The effects of a step other than freeing memory. -/
def visible (fx : List Effect) : List Effect :=
  fx.filter fun
    | .free _ => false
    | _ => true

@[simp] theorem visible_append (fx fx' : List Effect) : visible (fx ++ fx') = visible fx ++ visible fx' :=
  List.filter_append ..

@[simp] theorem visible_map_free (bs : List Buffer) : visible (bs.map .free) = [] := by
  simp [visible]

@[simp] theorem frees_map_free (bs : List Buffer) : frees (bs.map .free) = bs := by
  simp [frees,List.filterMap_map]

/-- The message `_forward` sends for a frame body, if there is a destination. -/
def frameMessage (g : Gate) (c : Connection) (body : Bytes) : Option Effect :=
  if g.broker ≠ 0 then some (.send 0 g.broker g.dontcopyTag 0 body)
  else if c.agent ≠ 0 then some (.send c.client c.agent g.dontcopyTag 0 body)
  else if g.watchdog ≠ 0 then some (.send 0 g.watchdog g.dontcopyTag 0 (signedDecimal c.id ++ [32] ++ body))
  else none

/-- One of the broker, the agent and the watchdog is set. -/
def routed (g : Gate) (c : Connection) : Bool := g.broker ≠ 0 ∨ c.agent ≠ 0 ∨ g.watchdog ≠ 0

@[simp] theorem frameMessage_setBuffer (g : Gate) (c : Connection) (buffer : Databuffer) :
    frameMessage g { c with buffer } = frameMessage g c := rfl

@[simp] theorem routed_setBuffer (g : Gate) (c : Connection) (buffer : Databuffer) :
    routed g { c with buffer } = routed g c := rfl

/-- What is done about a message over 16M. -/
def rejection (id : Int) : List Effect := [.socketClose id,.error (ascii "Recv socket message > 16M")]

/-- The databuffer queues the chunks `bs`, of which `s` is left to be read. -/
def Carries (mp : Messagepool) (db : Databuffer) (rest : List Nat) (bs : List Buffer) (s : ByteStream) : Prop :=
  ∃ off, Holds mp db rest bs off ∧ s = ⟨db.header,unread bs off⟩

/-- A call that leaves `db'` with the chunks `bs'` and the stream `s'`: it freed
the other chunks, touched no other owner's nodes and had the effects `out`. -/
structure Leaves (mp mp' : Messagepool) (db' : Databuffer) (rest : List Nat) (bs bs' : List Buffer) (s' : ByteStream)
    (fx out : List Effect) : Prop where
  carries : Carries mp' db' rest bs' s'
  freed : frees fx ++ bs' = bs
  keeps : Keeps mp mp' rest
  out : visible fx = out

variable {mp mp₁ mp₂ : Messagepool} {db db₁ db₂ : Databuffer} {rest : List Nat} {bs bs₁ bs₂ : List Buffer}
  {s s₁ s₂ : ByteStream} {fx fx₁ fx₂ out₁ out₂ : List Effect} {g : Gate} {c : Connection}

theorem Leaves.refl (h : Carries mp db rest bs s) : Leaves mp mp db rest bs bs s [] [] :=
  ⟨h,rfl,fun _ _ => rfl,rfl⟩

theorem Leaves.trans (h : Leaves mp mp₁ db₁ rest bs bs₁ s₁ fx₁ out₁)
    (h' : Leaves mp₁ mp₂ db₂ rest bs₁ bs₂ s₂ fx₂ out₂) :
    Leaves mp mp₂ db₂ rest bs bs₂ s₂ (fx₁ ++ fx₂) (out₁ ++ out₂) := by
  refine ⟨h'.carries,?_,h.keeps.trans h'.keeps,?_⟩
  · rw [frees_append,List.append_assoc,h'.freed,h.freed]
  · rw [visible_append,h.out,h'.out]

theorem Carries.size (h : Carries mp db rest bs s) : db.size = s.size := by
  obtain ⟨off,⟨l,free,h⟩,rfl⟩ := h
  exact h.size

theorem Carries.header (h : Carries mp db rest bs s) : db.header = s.header := by
  obtain ⟨off,_,rfl⟩ := h
  rfl

/-- The pending length is no part of what the queue owns. -/
theorem Carries.setHeader (h : Carries mp db rest bs s) (v : Int) :
    Carries mp { db with header := v } rest bs ⟨v,s.content⟩ := by
  obtain ⟨off,⟨l,free,h⟩,rfl⟩ := h
  exact ⟨off,⟨l,free,⟨⟨h.linked.chain,h.linked.tail,h.linked.node⟩,h.offset,h.inside,h.size,h.freelist,h.perm⟩⟩,rfl⟩

theorem read_leaves (h : Carries mp db rest bs s) {n : Nat} (hpos : 0 < n) (hn : (n : Int) ≤ s.size) :
    ∃ db' mp' bs' fx, databufferRead db mp n = .ok (db',mp',s.content.take n) fx ∧
      Leaves mp mp' db' rest bs bs' ⟨s.header,s.content.drop n⟩ fx [] := by
  have hsize := h.size
  obtain ⟨off,hh,rfl⟩ := h
  obtain ⟨db',mp',freed,bs',off',he,hh',hu,hf,_,hd,_,hk⟩ := databufferRead_spec hh hpos (by rw [hsize]; exact hn)
  exact ⟨db',mp',bs',_,he,⟨off',hh',by simp [hd,hu]⟩,by simpa using hf,hk,by simp⟩

private theorem length_four {l : Bytes} (h : l.length = 4) : ∃ a b c d, l = [a,b,c,d] := by
  match l, h with
  | [a,b,c,d], _ => exact ⟨a,b,c,d,rfl⟩

private theorem headerValue_four {plen : Bytes} (h : plen.length = 4) :
    headerValue plen 4 = .ok (wrap32 (ofBytes plen)) [] := by
  obtain ⟨a,b,c,d,rfl⟩ := length_four h
  rw [← shift_or_eq_ofBytes]
  simp [headerValue,Act.read]

/-- `databuffer_readheader` takes four bytes off when no length is pending. -/
theorem readheader_leaves (h : Carries mp db rest bs s) :
    ∃ db' mp' bs' fx, databufferReadheader db mp 4 = .ok (db',mp',s.readheader.2) fx ∧
      Leaves mp mp' db' rest bs bs' s.readheader.1 fx [] := by
  have hsize := h.size
  have hheader := h.header
  unfold databufferReadheader ByteStream.readheader
  rw [hheader,hsize]
  split
  · rename_i h0
    split
    · exact ⟨db,mp,bs,[],rfl,.refl h⟩
    · rename_i h4
      obtain ⟨db₁,mp₁,bs₁,fx,he,hl⟩ := read_leaves h (n := 4) (by omega) (by push_cast; omega)
      have hlen : (s.content.take 4).length = 4 := by
        have := wrap32_natCast_le s.content.length
        rw [List.length_take]
        unfold ByteStream.size at h4
        omega
      have hc := hl.carries.setHeader (wrap32 (ofBytes (s.content.take 4)))
      have hs := hc.size
      push_cast at he
      refine ⟨_,mp₁,bs₁,fx,?_,hc,hl.freed,hl.keeps,hl.out⟩
      rw [he]
      simp only [Act.bind_ok,headerValue_four hlen,Act.pure_eq,Act.after_ok,List.append_nil,
        headerResult,ByteStream.available]
      rw [← hs]
  · refine ⟨db,mp,bs,[],?_,.refl h⟩
    rw [headerResult,hsize,hheader,ByteStream.available]
    rfl

/-- `_forward` takes a frame body off and sends it, or does nothing at all. -/
theorem forward_leaves (h : Carries mp c.buffer rest bs s) {n : Nat} (hpos : 0 < n) (hn : (n : Int) ≤ s.size) :
    ∃ db' mp' bs' fx, forward g c mp n = .ok ({ c with buffer := db' },mp') fx ∧
      Leaves mp mp' db' rest bs bs' ⟨s.header,if routed g c then s.content.drop n else s.content⟩ fx
        (frameMessage g c (s.content.take n)).toList := by
  obtain ⟨db',mp',bs',fx,he,hl⟩ := read_leaves h hpos hn
  have hsend (e : Effect) (hv : visible [e] = [e]) (hf : frees [e] = []) :
      Leaves mp mp' db' rest bs bs' ⟨s.header,s.content.drop n⟩ (fx ++ [e]) [e] :=
    hl.trans ⟨hl.carries,by rw [hf]; rfl,fun _ _ => rfl,hv⟩
  unfold forward frameMessage
  split
  · rename_i hb
    refine ⟨db',mp',bs',_,by rw [he]; rfl,?_⟩
    rw [if_pos (by simp [routed,hb])]
    exact hsend _ rfl rfl
  · rename_i hb
    split
    · rename_i ha
      refine ⟨db',mp',bs',_,by rw [he]; rfl,?_⟩
      rw [if_pos (by simp [routed,ha])]
      exact hsend _ rfl rfl
    · rename_i ha
      split
      · rename_i hw
        refine ⟨db',mp',bs',_,by rw [he]; rfl,?_⟩
        rw [if_pos (by simp [routed,hw])]
        exact hsend _ rfl rfl
      · rename_i hw
        refine ⟨c.buffer,mp,bs,[],rfl,?_⟩
        rw [if_neg (by simp_all [routed])]
        exact .refl h

/-- `databuffer_clear` leaves an empty stream. -/
theorem clear_leaves (h : Carries mp db rest bs s) :
    ∃ mp' fx, databufferClear db mp = .ok (.zero,mp') fx ∧ Leaves mp mp' .zero rest bs [] ⟨0,[]⟩ fx [] := by
  obtain ⟨off,hh,rfl⟩ := h
  obtain ⟨mp',he,hh',hk⟩ := databufferClear_spec hh
  exact ⟨mp',_,he,⟨0,hh',rfl⟩,by simp,hk,by simp⟩

namespace ByteStream

/-- A header that was read leaves no more rounds than it found. -/
theorem readheader_nonneg {s s' : ByteStream} {size : Int} (h : s.readheader = (s',size)) (h0 : 0 ≤ size) :
    size = s'.header ∧ size ≤ s'.size ∧ s'.size.toNat + 1 ≤ s.rounds := by
  unfold readheader at h
  split at h
  · rename_i hz
    split at h
    · cases h
      omega
    · rename_i h4
      obtain ⟨rfl,rfl⟩ := Prod.mk.inj h
      have hd := size_drop (s := s) (n := 4) (by push_cast; omega) (wrap32 (ofBytes (s.content.take 4)))
      have hs : (4 : Int) ≤ s.size := by omega
      unfold available at h0 ⊢
      unfold rounds
      rw [hd] at h0 ⊢
      split at h0
      · omega
      · rename_i hle
        rw [if_neg hle]
        refine ⟨rfl,by omega,?_⟩
        omega
  · rename_i hz
    obtain ⟨rfl,rfl⟩ := Prod.mk.inj h
    unfold available at h0 ⊢
    unfold rounds
    split at h0
    · omega
    · rename_i hle
      rw [if_neg hle,if_neg hz]
      refine ⟨rfl,by omega,by omega⟩

end ByteStream

/-- The loop of `dispatch_message` is the draining of the stream. The induction is
on the fuel, which bounds the rounds left. -/
private theorem dispatchLoop_leaves (hg : g.headerSize = 4) (id : Int) (fuel : Nat)
    (h : Carries mp c.buffer rest bs s) (hf : s.rounds < fuel) :
    ∃ db' mp' bs' fx, dispatchLoop g id fuel c mp = .ok ({ c with buffer := db' },mp') fx ∧
      Leaves mp mp' db' rest bs bs' (s.drain (routed g c) fuel).stream fx
        ((s.drain (routed g c) fuel).bodies.filterMap (frameMessage g c) ++
          if (s.drain (routed g c) fuel).closed then rejection id else []) ∧
      ((s.drain (routed g c) fuel).closed = true → db' = .zero) := by
  induction fuel generalizing mp c bs s with
  | zero => omega
  | succ fuel ih =>
    obtain ⟨db₁,mp₁,bs₁,fx₁,he₁,hl₁⟩ := readheader_leaves h
    rcases hr : s.readheader with ⟨s₁,size⟩
    rw [hr] at he₁ hl₁
    rw [dispatchLoop,hg,he₁,ByteStream.drain,hr]
    simp only [Act.bind_ok]
    split
    · exact ⟨db₁,mp₁,bs₁,fx₁,by simp,by simpa using hl₁,by simp⟩
    · rename_i hneg
      obtain ⟨hsz,hle,hround⟩ := ByteStream.readheader_nonneg hr (by omega)
      split
      · rename_i hpos
        split
        · -- the branch for messages over 16M
          obtain ⟨mp₂,fx₂,he₂,hl₂⟩ := clear_leaves hl₁.carries
          have hrej : Leaves mp₂ mp₂ .zero rest [] [] ⟨0,[]⟩ (rejection id) (rejection id) :=
            ⟨hl₂.carries,rfl,fun _ _ => rfl,rfl⟩
          refine ⟨.zero,mp₂,[],fx₁ ++ (fx₂ ++ rejection id),?_,by simpa using hl₁.trans (hl₂.trans hrej),
            fun _ => rfl⟩
          simp [he₂,socketClose,skynetError,rejection]
        · obtain ⟨n,rfl⟩ : ∃ n : Nat, size = n := ⟨size.toNat,by omega⟩
          obtain ⟨db₂,mp₂,bs₂,fx₂,he₂,hl₂⟩ := forward_leaves (g := g) (c := { c with buffer := db₁ }) hl₁.carries
            (n := n) (by omega) hle
          have hc₂ := hl₂.carries.setHeader 0
          rw [routed_setBuffer] at hl₂ hc₂
          rw [frameMessage_setBuffer] at hl₂
          obtain ⟨db₃,mp₃,bs₃,fx₃,he₃,hl₃,hz₃⟩ := ih (c := { c with buffer := databufferReset db₂ }) hc₂ (by
            rw [ByteStream.rounds,if_pos rfl]
            split
            · rw [ByteStream.size_drop (s := s₁) hle 0]
              omega
            · rw [ByteStream.size_setHeader s₁]
              omega)
          have hreset : Leaves mp₂ mp₂ (databufferReset db₂) rest bs₂ bs₂
              ⟨0,if routed g c then s₁.content.drop n else s₁.content⟩ [] [] := ⟨hc₂,rfl,fun _ _ => rfl,rfl⟩
          refine ⟨db₃,mp₃,bs₃,fx₁ ++ (fx₂ ++ fx₃),?_,?_,hz₃⟩
          · simp [he₂,he₃]
          · have hall := hl₁.trans (hl₂.trans (hreset.trans hl₃))
            have hcons (b : Bytes) (l : List Bytes) : (b :: l).filterMap (frameMessage g c) =
                (frameMessage g c b).toList ++ l.filterMap (frameMessage g c) := by
              rw [List.filterMap_cons]
              cases frameMessage g c b <;> rfl
            simpa [hcons] using hall
      · rename_i hz
        obtain ⟨db₂,mp₂,bs₂,fx₂,he₂,hl₂,hz₂⟩ := ih (c := { c with buffer := db₁ }) hl₁.carries (by
          have hz : s₁.header = 0 := by omega
          rw [ByteStream.rounds,if_pos hz]
          change s₁.size.toNat + 0 < fuel
          omega)
        exact ⟨db₂,mp₂,bs₂,fx₁ ++ fx₂,by simp [he₂],hl₁.trans hl₂,hz₂⟩

/-- `dispatch_message` always returns, feeds the chunk to the stream and touches
nothing but its own part of the pool. -/
theorem dispatchMessage_leaves (hg : g.headerSize = 4) (id : Int) (data : Buffer) (h : Carries mp c.buffer rest bs s) :
    ∃ db' mp' bs' fx, dispatchMessage g c mp id data = .ok ({ c with buffer := db' },mp') fx ∧
      Leaves mp mp' db' rest (bs ++ [data]) bs' (s.feed (routed g c) data.bytes).stream fx
        ((s.feed (routed g c) data.bytes).bodies.filterMap (frameMessage g c) ++
          if (s.feed (routed g c) data.bytes).closed then rejection id else []) ∧
      ((s.feed (routed g c) data.bytes).closed = true → db' = .zero) := by
  obtain ⟨off,hh,rfl⟩ := h
  obtain ⟨db₁,mp₁,he₁,hh₁,hu,hd,hk₁⟩ := databufferPush_spec hh data
  have hc : Carries mp₁ db₁ rest (bs ++ [data]) (ByteStream.push ⟨c.buffer.header,unread bs off⟩ data.bytes) :=
    ⟨off,hh₁,by rw [hu,hd]; rfl⟩
  have hpush : Leaves mp mp₁ db₁ rest (bs ++ [data]) (bs ++ [data]) _ [] [] := ⟨hc,rfl,hk₁,rfl⟩
  obtain ⟨db₂,mp₂,bs₂,fx₂,he₂,hl₂,hz₂⟩ := dispatchLoop_leaves (c := { c with buffer := db₁ }) hg id
    (db₁.size.toNat + 2) hc (by
      rw [ByteStream.rounds,hc.size]
      split <;> omega)
  rw [hc.size] at he₂ hl₂ hz₂
  rw [routed_setBuffer,frameMessage_setBuffer] at hl₂
  have hall := hpush.trans hl₂
  rw [List.nil_append,List.nil_append] at hall
  unfold ByteStream.feed
  refine ⟨db₂,mp₂,bs₂,fx₂,?_,hall,hz₂⟩
  rw [dispatchMessage,he₁]
  simp only [Act.bind_ok,Act.after_nil,hc.size]
  rw [he₂]

end MyProgram.SkynetGate
