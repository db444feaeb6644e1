import MyProgram.Protopack.RoundTrip
import MyProgram.SkynetGate.FrameDelivery

/-! Messages from `protopack.pack` on their way through the gate to an agent, which
takes them apart with `unpack_agent`. -/
namespace MyProgram.Protopack
open Lib SkynetGate ByteStream
variable {α β : Type}

/-- What `pack` is called with. -/
structure Message (α : Type) where
  name : Bytes
  msg : α
  roomid : Option Int

namespace Message

def pack (m : Message α) (protobuf : Protobuf α β) : Option Bytes := Protopack.pack m.name m.msg protobuf m.roomid

def body (m : Message α) (protobuf : Protobuf α β) : Bytes :=
  Protopack.body m.name (m.roomid.getD 0).toNat (protobuf.encode m.name m.msg)

/-- A packed message is a frame for the gate. -/
theorem pack_eq_some {m : Message α} {protobuf : Protobuf α β} {str : Bytes} (h : m.pack protobuf = some str) :
    Packable m.name m.roomid ∧ str = frame 4 (m.body protobuf) := by
  rw [pack,pack_eq] at h
  dsimp only at h
  split at h
  · rename_i hp
    cases h
    exact ⟨hp.2,rfl⟩
  · cases h

end Message

/-- Calls for a connection that has an agent, in a gate without a broker. -/
def AgentRouted (call : Call) : Prop := call.gate.headerSize = 4 ∧ call.gate.broker = 0 ∧ call.agent ≠ 0

instance (call : Call) : Decidable (AgentRouted call) := inferInstanceAs (Decidable (_ ∧ _ ∧ _))

/-- The message that hands a body to the agent. -/
def agentMessage (call : Call) (body : Bytes) : Effect := .send call.client call.agent call.gate.dontcopyTag 0 body

variable {c : Connection} {mp : Messagepool} {rest : List Nat} {tr : Trace Call Effect} {s : Connection × Messagepool}
  {messages : List (Message α)} {encodings : List Bytes} {protobuf : Protobuf α β}

private theorem frameMessage_agent {call : Call} (h : AgentRouted call) (c : Connection) (body : Bytes) :
    frameMessage call.gate (call.connection c) body = some (agentMessage call body) := by
  rw [frameMessage,if_neg (not_not.mpr h.2.1)]
  exact if_pos h.2.2

private theorem routed_agent {call : Call} (h : AgentRouted call) (c : Connection) : routed call.gate (call.connection c) := by
  have ha : (call.connection c).agent ≠ 0 := h.2.2
  simp [routed,ha]

private theorem encodings_eq (h : List.Forall₂ (fun m str => m.pack protobuf = some str) messages encodings) :
    encodings = (messages.map (·.body protobuf)).map (frame 4) := by
  induction h with
  | nil => rfl
  | cons hm _ ih => rw [(Message.pack_eq_some hm).2,ih,List.map_cons,List.map_cons]

private theorem nonEmpty_bodies (messages : List (Message α)) (protobuf : Protobuf α β) :
    nonEmpty (messages.map (·.body protobuf)) = messages.map (·.body protobuf) := by
  rw [nonEmpty,List.filter_eq_self]
  intro b hb
  obtain ⟨m,_,rfl⟩ := List.mem_map.mp hb
  have hlen := length_body m.name (m.roomid.getD 0).toNat (protobuf.encode m.name m.msg)
  cases hm : m.body protobuf with
  | nil =>
    rw [show Protopack.body _ _ _ = [] from hm] at hlen
    simp at hlen
    omega
  | cons _ _ => rfl

private theorem unpackAgent_bodies (h : List.Forall₂ (fun m str => m.pack protobuf = some str) messages encodings) :
    List.Forall₂ (fun m body => ∀ uid, -2^63 ≤ uid → uid < 2^63 → unpackAgent (uidBytes uid ++ body) protobuf =
      some (uid,m.name,protobuf.decode m.name (protobuf.encode m.name m.msg))) messages (messages.map (·.body protobuf)) := by
  induction h with
  | nil => exact .nil
  | cons hm _ ih =>
    obtain ⟨⟨hn,_,hr⟩,_⟩ := Message.pack_eq_some hm
    exact .cons (fun uid hl hu => unpackAgent_body protobuf hl hu hn (by omega)) ih

private theorem agentMessages_of_sent {parts : List (List Bytes)} (h : Sent c tr parts) (hr : ∀ e ∈ tr, AgentRouted e.1) :
    List.Forall₂ (fun e bodies => visible e.2 = bodies.map (agentMessage e.1)) tr parts := by
  induction h with
  | nil => exact .nil
  | @cons e bodies tr parts he _ ih =>
    refine .cons ?_ (ih fun e hm => hr e (List.mem_cons_of_mem _ hm))
    have hfun : frameMessage e.1.gate (e.1.connection c) = some ∘ agentMessage e.1 := by
      funext body
      exact frameMessage_agent (hr e List.mem_cons_self) c body
    rw [hfun,← List.map_map] at he
    exact List.map_injective_iff.mpr (Option.some_injective _) he

/-- Over any chunking of messages that were packed with `pack`, the agent is sent exactly
their bodies, in order, and `unpack_agent` finds behind any user id the name and the
payload that were packed. -/
theorem packed_messages_reach_agent (hc : Carries mp c.buffer rest [] ⟨0,[]⟩)
    (henc : List.Forall₂ (fun m str => m.pack protobuf = some str) messages encodings)
    (hshort : ∀ m ∈ messages, (m.body protobuf).length < 0x1000000)
    (hrun : Run callStep (fun _ s call => AgentRouted call ∧ Fits s call) (c,mp) tr s)
    (hb : received tr <+: encodings.flatten) :
    (∀ call, AgentRouted call → ∃ s' fx, callStep s call = .ok s' fx) ∧
      (received tr = encodings.flatten → ∃ parts,
        List.Forall₂ (fun e bodies => visible e.2 = bodies.map (agentMessage e.1)) tr parts ∧
        encodings = parts.flatten.map (frame 4) ∧
        List.Forall₂ (fun m body => ∀ uid, -2^63 ≤ uid → uid < 2^63 → unpackAgent (uidBytes uid ++ body) protobuf =
          some (uid,m.name,protobuf.decode m.name (protobuf.encode m.name m.msg))) messages parts.flatten) := by
  have hdeliver : Run callStep Deliverable (c,mp) tr s := hrun.mono fun _ s call h => ⟨h.1.1,routed_agent h.1 s.1,h.2⟩
  have hrouted : ∀ e ∈ tr, AgentRouted e.1 := by
    apply hrun.invariant fun tr _ => ∀ e ∈ tr, AgentRouted e.1
    · intro e he
      cases he
    · intro tr s call s' fx ih hk _ e he
      rcases List.mem_append.mp he with he | he
      · exact ih e he
      · rw [List.mem_singleton.mp he]
        exact hk.1
  have hlimit : ∀ b ∈ messages.map (·.body protobuf), b.length < LIMIT := by
    intro b hm
    obtain ⟨m,hmem,rfl⟩ := List.mem_map.mp hm
    exact hshort m hmem
  have hframes := encodings_eq henc
  have hflat : encodings.flatten = (messages.map (·.body protobuf)).flatMap (frame 4) := by rw [hframes,List.flatMap_def]
  rw [hflat] at hb ⊢
  obtain ⟨⟨bs,hcs⟩,_,_,_,parts,hsent,hparts⟩ := delivering_run hc (fun b hm => Nat.le_of_lt_succ (hlimit b hm)) hdeliver hb
  refine ⟨fun call hcall => ?_,fun hall => ⟨parts,agentMessages_of_sent hsent hrouted,?_⟩⟩
  · obtain ⟨s',fx,_,he,_⟩ := callStep_leaves hcall.1 hcs
    exact ⟨s',fx,he⟩
  · rw [hparts,hall,deframe_frames (by decide) (by decide) _ hlimit,nonEmpty_bodies]
    exact ⟨hframes,unpackAgent_bodies henc⟩

/-- A gate without broker and watchdog, and a connection routed to agent 3. -/
def agentGate : Gate := { gateCreate with headerSize := 4, clientTag := PTYPE_CLIENT }

def agentCall (bytes : Bytes) (fits : bytes.length < 2^31) : Call := ⟨agentGate,3,4,5,⟨0,bytes,fits⟩⟩

def twoMessages : List (Message Bytes) := [⟨[65],[7],some 9⟩,⟨[66],[],none⟩]

theorem packed_messages_reach_agent_split : ∃ tr s parts,
    Run callStep (fun _ s call => AgentRouted call ∧ Fits s call) (Connection.cleared,.zero) tr s ∧
    tr.map (·.1.data.bytes) = [[0,0],[0,8,0,1,65,0,0,0,9,7,0],[0,0,7,0,1,66,0,0,0,0]] ∧
    List.Forall₂ (fun e bodies => visible e.2 = bodies.map (agentMessage e.1)) tr parts ∧
    List.Forall₂ (fun m body => ∀ uid, -2^63 ≤ uid → uid < 2^63 → unpackAgent (uidBytes uid ++ body) plain =
      some (uid,m.name,m.msg)) twoMessages parts.flatten := by
  have hcheck : runCheck callStep (fun _ s call => AgentRouted call ∧ Fits s call)
      (fun tr _ => received tr = [0,0,0,8,0,1,65,0,0,0,9,7,0,0,0,7,0,1,66,0,0,0,0])
      [agentCall [0,0] (by decide),agentCall [0,8,0,1,65,0,0,0,9,7,0] (by decide),agentCall [0,0,7,0,1,66,0,0,0,0] (by decide)]
      [] (Connection.cleared,Messagepool.zero) = true := by decide
  obtain ⟨tr,s,hrun,hm,hrec⟩ := Run.of_runCheck hcheck
  have henc : List.Forall₂ (fun m str => Message.pack m plain = some str) twoMessages
      [[0,0,0,8,0,1,65,0,0,0,9,7],[0,0,0,7,0,1,66,0,0,0,0]] := .cons (by decide) (.cons (by decide) .nil)
  obtain ⟨parts,hsent,_,hunpack⟩ := (packed_messages_reach_agent .zeroed henc (by decide) hrun (by rw [hrec]; rfl)).2 hrec
  have hbytes := congrArg (List.map (·.data.bytes)) hm
  rw [List.map_map] at hbytes
  exact ⟨tr,s,parts,hrun,hbytes,hsent,hunpack⟩

private theorem length_flatten_replicate {enc : Bytes} (h : enc.length = 16) (n : Nat) :
    (List.replicate n enc).flatten.length = n * 16 := by
  simp [List.length_flatten,h]

/-- Packed messages of 2^31 bytes in two chunks, of which none reaches the agent. -/
theorem packed_messages_overflow : ∃ enc tr s, Message.pack ⟨[],[1,2,3,4,5,6],none⟩ plain = some enc ∧
    Run callStep (fun _ _ call => AgentRouted call) (Connection.cleared,.zero) tr s ∧
    tr.map (·.1.data.bytes.length) = [1,2^31-1] ∧ received tr = (List.replicate (2^27) enc).flatten ∧
    ∀ e ∈ tr, visible e.2 = [] := by
  obtain ⟨enc,henc,hlen⟩ : ∃ enc, Message.pack ⟨[],[1,2,3,4,5,6],none⟩ plain = some enc ∧ enc.length = 16 :=
    ⟨[0,0,0,12,0,0,0,0,0,0,1,2,3,4,5,6],by decide,rfl⟩
  have hwhole := length_flatten_replicate hlen (2^27)
  refine ⟨enc,?_⟩
  generalize (List.replicate (2^27) enc).flatten = whole at *
  obtain ⟨tr,s,hr,hm,hrec,hv⟩ := overflow_run agentGate 3 4 rfl (fun _ => rfl)
    (show ∀ _ _ data, AgentRouted ⟨agentGate,3,4,5,data⟩ from fun _ _ _ => ⟨rfl,rfl,show (3 : UInt32) ≠ 0 by decide⟩) whole (by omega)
  rw [List.take_of_length_le (by omega)] at hrec
  exact ⟨tr,s,henc,hr,hm,hrec,hv⟩

end MyProgram.Protopack
