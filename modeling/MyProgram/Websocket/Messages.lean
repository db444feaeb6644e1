import MyProgram.Websocket.Frames

/-! A conversation: messages in any fragments, with control frames between them, and a close
frame. The handler of a server and the caller of `M.read` get the messages in order. -/
namespace MyProgram.Websocket
open Lib LuaPack

/-- A ping or a pong. -/
structure Control where
  ping : Bool
  key : Option Bytes
  payload : Bytes
  deriving DecidableEq, Repr

/-- A part of a message, and the control frames in front of it. -/
structure Part where
  controls : List Control
  key : Option Bytes
  payload : Bytes
  deriving DecidableEq, Repr

/-- A text or binary message, which has at least one part. -/
structure Message where
  binary : Bool
  first : Part
  more : List Part
  deriving DecidableEq, Repr

/-- Messages, and the control frames in front of the close frame. -/
structure Conversation where
  messages : List Message
  controls : List Control
  key : Option Bytes
  reason : Bytes
  deriving DecidableEq, Repr

def Control.frame (c : Control) : Frame := ⟨true,if c.ping then .ping else .pong,c.key,c.payload⟩

def Part.frames (p : Part) (fin : Bool) (op : Op) : List Frame := p.controls.map Control.frame ++ [⟨fin,op,p.key,p.payload⟩]

/-- The frames of parts in a row. Only the first one has the opcode of the message. -/
def frames (op : Op) (p : Part) : List Part → List Frame
  | [] => p.frames true op
  | q :: l => p.frames false op ++ frames .frame q l

/-- What a server takes of a part. -/
def Part.Within (p : Part) : Prop := (∀ c ∈ p.controls, c.payload.length ≤ MAX_FRAME_SIZE) ∧ p.payload.length ≤ MAX_FRAME_SIZE

namespace Message

def op (m : Message) : Op := if m.binary then .binary else .text

def data (m : Message) : Bytes := ((m.first :: m.more).map Part.payload).flatten

def controls (m : Message) : List Control := (m.first :: m.more).flatMap Part.controls

def frames (m : Message) : List Frame := Websocket.frames m.op m.first m.more

/-- What a server takes. -/
def Within (m : Message) : Prop := m.data.length ≤ MAX_FRAME_SIZE ∧ ∀ c ∈ m.controls, c.payload.length ≤ MAX_FRAME_SIZE

instance (m : Message) : Decidable m.Within := inferInstanceAs (Decidable (_ ∧ _))

end Message

namespace Conversation

def close (c : Conversation) : Frame := ⟨true,.close,c.key,c.reason⟩

def frames (c : Conversation) : List Frame := c.messages.flatMap Message.frames ++ (c.controls.map Control.frame ++ [c.close])

def Within (c : Conversation) : Prop := (∀ m ∈ c.messages, m.Within) ∧ (∀ d ∈ c.controls, d.payload.length ≤ MAX_FRAME_SIZE) ∧
  c.reason.length ≤ MAX_FRAME_SIZE

end Conversation

/-- The bytes of frames in a row. -/
def bytes (xorStr : Bytes → Bytes → Bytes) (l : List Frame) : Bytes := l.flatMap (Frame.bytes xorStr)

/-- The answers to pings. -/
def pongs (l : List Control) : List Frame := (l.filter Control.ping).map fun c => ⟨true,.pong,none,c.payload⟩

/-- The messages that the handler is called with. -/
def messages (fx : List Effect) : List (Bytes × Op) := fx.filterMap fun
  | .message s op => some (s,op)
  | .write _ | .ping | .pong | .close _ _ => none

variable {xorStr : Bytes → Bytes → Bytes} {f : Frame} {r : Received} {op : Op}

@[simp] theorem written_append (fx fx' : List Effect) : written (fx ++ fx') = written fx ++ written fx' := List.flatMap_append

@[simp] theorem messages_append (fx fx' : List Effect) : messages (fx ++ fx') = messages fx ++ messages fx' := List.filterMap_append

theorem messages_writes {fx : List Effect} (h : ∀ e ∈ fx, ∃ s, e = .write s) : messages fx = [] := by
  refine List.filterMap_eq_nil_iff.mpr fun e he => ?_
  obtain ⟨s,rfl⟩ := h e he
  rfl

@[simp] theorem bytes_cons (f : Frame) (l : List Frame) : bytes xorStr (f :: l) = f.bytes xorStr ++ bytes xorStr l := List.flatMap_cons

@[simp] theorem bytes_append (l l' : List Frame) : bytes xorStr (l ++ l') = bytes xorStr l ++ bytes xorStr l' := List.flatMap_append

theorem pongs_append (l l' : List Control) : pongs (l ++ l') = pongs l ++ pongs l' := by simp [pongs]

theorem bytes_conversation (c : Conversation) (rest : Bytes) : bytes xorStr c.frames ++ rest =
    bytes xorStr (c.messages.flatMap Message.frames) ++
      (bytes xorStr (c.controls.map Control.frame) ++ (c.close.bytes xorStr ++ rest)) := by
  rw [Conversation.frames,bytes_append,bytes_append,bytes_cons]
  simp [bytes]

/-! Rounds of the server. -/

theorem accept_large (hx : Masks xorStr) (hf : f.Valid) (h : f.payload.length > MAX_FRAME_SIZE) (closed : List Bool) (s : Bytes) :
    acceptLoop xorStr (false :: closed) r (f.bytes xorStr ++ s) = .fail .assertion .tooLarge := by
  rw [acceptLoop,readFrame_bytes hx hf,if_pos ⟨rfl,h⟩,Act.bind_fail]

/-- A ping is answered, a pong is not. -/
theorem accept_control (hx : Masks xorStr) {c : Control} (hc : c.frame.Valid) (h : c.payload.length ≤ MAX_FRAME_SIZE) :
    ∃ fx, (∀ closed r s, acceptLoop xorStr (false :: closed) r (c.frame.bytes xorStr ++ s) = (acceptLoop xorStr closed r s).after fx) ∧
      messages fx = [] ∧ written fx = bytes xorStr (pongs [c]) := by
  have hread : ∀ s, readFrame xorStr true (c.frame.bytes xorStr ++ s) = .ok ((true,c.frame.op,c.payload),s) [] := by
    intro s
    rw [readFrame_bytes hx hc,if_neg fun h' => absurd h'.2 (Nat.not_lt.mpr h)]
    rfl
  obtain ⟨ping,key,payload⟩ := c
  cases ping with
  | true =>
    obtain ⟨fx,he,hw,ha⟩ := writeFrame_eq hx .pong payload none (by simp)
    refine ⟨fx ++ [Effect.ping],fun closed r s => ?_,by rw [messages_append,messages_writes ha]; rfl,?_⟩
    · rw [acceptLoop,hread,Act.bind_ok,Act.after_nil]
      dsimp only [Control.frame]
      rw [if_pos rfl]
      dsimp only
      rw [he,Act.bind_ok,Act.emit_eq,Act.bind_ok,Act.after_after]
    · rw [written_append,hw]
      simp [pongs,bytes,written]
  | false =>
    refine ⟨[.pong],fun closed r s => ?_,rfl,rfl⟩
    rw [acceptLoop,hread,Act.bind_ok,Act.after_nil]
    rfl

/-- A frame with data. -/
theorem accept_data (hx : Masks xorStr) (hf : f.Valid) (h : f.payload.length ≤ MAX_FRAME_SIZE)
    (hop : f.op = .frame ∨ f.op = .text ∨ f.op = .binary) (closed : List Bool) (s : Bytes) :
    acceptLoop xorStr (false :: closed) r (f.bytes xorStr ++ s) =
      receive r f.fin f.op f.payload >>= fun r => acceptLoop xorStr closed r s := by
  rw [acceptLoop,readFrame_bytes hx hf,if_neg fun h' => absurd h'.2 (Nat.not_lt.mpr h),Act.bind_ok,Act.after_nil]
  rcases hop with hop | hop | hop <;> rw [hop]

/-- Control frames leave the message that is being received as it is. -/
theorem accept_controls (hx : Masks xorStr) {cs : List Control} (hc : ∀ c ∈ cs, c.frame.Valid) :
    ((∀ c ∈ cs, c.payload.length ≤ MAX_FRAME_SIZE) → ∃ fx, (∀ closed r s,
        acceptLoop xorStr (List.replicate cs.length false ++ closed) r (bytes xorStr (cs.map Control.frame) ++ s) =
          (acceptLoop xorStr closed r s).after fx) ∧
        messages fx = [] ∧ written fx = bytes xorStr (pongs cs)) ∧
      (¬(∀ c ∈ cs, c.payload.length ≤ MAX_FRAME_SIZE) → ∀ closed r s,
        acceptLoop xorStr (List.replicate cs.length false ++ closed) r (bytes xorStr (cs.map Control.frame) ++ s) =
          .fail .assertion .tooLarge) := by
  induction cs with
  | nil => exact ⟨fun _ => ⟨[],fun closed r s => (Act.after_nil _).symm,rfl,rfl⟩,fun h => absurd (by simp) h⟩
  | cons c cs ih =>
    obtain ⟨hcv,hcs⟩ := List.forall_mem_cons.mp hc
    obtain ⟨ih₁,ih₂⟩ := ih hcs
    rw [List.forall_mem_cons]
    simp only [List.length_cons,List.replicate_succ,List.cons_append,List.map_cons,bytes_cons,List.append_assoc]
    rcases Nat.lt_or_ge MAX_FRAME_SIZE c.payload.length with hl | hl
    · exact ⟨fun h => absurd h.1 (Nat.not_le.mpr hl),fun _ closed r s => accept_large hx hcv hl _ _⟩
    obtain ⟨fx,he,hm,hw⟩ := accept_control hx hcv hl
    refine ⟨fun h => ?_,fun h closed r s => ?_⟩
    · obtain ⟨fx',he',hm',hw'⟩ := ih₁ h.2
      refine ⟨fx ++ fx',fun closed r s => ?_,by rw [messages_append,hm,hm']; rfl,?_⟩
      · rw [he,he',Act.after_after]
      · rw [written_append,hw,hw',← bytes_append,← pongs_append,List.singleton_append]
    · rw [he,ih₂ (fun h' => h ⟨hl,h'⟩),Act.after_fail]

theorem receive_more (op : Op) (payload : Bytes) : receive r false op payload =
    if r.recvCount + payload.length > MAX_FRAME_SIZE then .fail .assertion .tooLarge
    else .ok ⟨r.recvBuf ++ [payload],r.recvCount + payload.length,some (r.firstOp.getD op)⟩ [] := by
  simp [receive]

/-- The last part, which may be the only one. -/
theorem receive_last (op : Op) {payload : Bytes} (hr : r.recvBuf = [] → r = nothing) (h : payload.length ≤ MAX_FRAME_SIZE) :
    receive r true op payload =
      if r.recvCount + payload.length > MAX_FRAME_SIZE then .fail .assertion .tooLarge
      else .ok nothing [.message (r.recvBuf ++ [payload]).flatten (r.firstOp.getD op)] := by
  by_cases hb : r.recvBuf = []
  · rw [hr hb]
    simp [receive,nothing,h]
  · simp [receive,hb]

/-- A part of a message. -/
theorem accept_part (hx : Masks xorStr) {p : Part} {fin : Bool} (hop : op = .frame ∨ op = .text ∨ op = .binary)
    (hv : ∀ f ∈ p.frames fin op, f.Valid) :
    (p.Within → ∃ fx, (∀ closed r s,
        acceptLoop xorStr (List.replicate (p.frames fin op).length false ++ closed) r (bytes xorStr (p.frames fin op) ++ s) =
          (receive r fin op p.payload >>= fun r => acceptLoop xorStr closed r s).after fx) ∧
        messages fx = [] ∧ written fx = bytes xorStr (pongs p.controls)) ∧
      (¬p.Within → ∀ closed r s,
        acceptLoop xorStr (List.replicate (p.frames fin op).length false ++ closed) r (bytes xorStr (p.frames fin op) ++ s) =
          .fail .assertion .tooLarge) := by
  obtain ⟨hcv,hpv⟩ := List.forall_mem_append.mp hv
  have hpv := List.forall_mem_singleton.mp hpv
  obtain ⟨h₁,h₂⟩ := accept_controls hx (List.forall_mem_map.mp hcv)
  have hsplit : ∀ closed, List.replicate (p.frames fin op).length false ++ closed =
      List.replicate p.controls.length false ++ false :: closed := by
    intro closed
    rw [Part.frames,List.length_append,List.length_map,List.length_singleton,List.replicate_succ']
    simp
  have hbytes : ∀ s, bytes xorStr (p.frames fin op) ++ s = bytes xorStr (p.controls.map Control.frame) ++
      (Frame.bytes xorStr ⟨fin,op,p.key,p.payload⟩ ++ s) := by
    intro s
    rw [Part.frames,bytes_append,List.append_assoc,bytes_cons]
    simp [bytes]
  simp only [hsplit,hbytes,Part.Within]
  by_cases hc : ∀ c ∈ p.controls, c.payload.length ≤ MAX_FRAME_SIZE
  · obtain ⟨fx,he,hm,hw⟩ := h₁ hc
    refine ⟨fun h => ⟨fx,fun closed r s => ?_,hm,hw⟩,fun h closed r s => ?_⟩
    · rw [he,accept_data hx hpv h.2 hop]
    · rw [he,accept_large hx hpv (Nat.not_le.mp fun h' => h ⟨hc,h'⟩),Act.after_fail]
  · exact ⟨fun h => absurd h.1 hc,fun _ closed r s => h₂ hc _ _ _⟩

/-- The parts of a message from some part on. What came before is in `r`. -/
theorem accept_parts (hx : Masks xorStr) (l : List Part) : ∀ {op : Op} {p : Part} {r : Received},
    (op = .frame ∨ op = .text ∨ op = .binary) → (r.recvBuf = [] → r = nothing) → (∀ f ∈ frames op p l, f.Valid) →
    (r.recvCount + ((p :: l).map Part.payload).flatten.length ≤ MAX_FRAME_SIZE ∧
        (∀ c ∈ (p :: l).flatMap Part.controls, c.payload.length ≤ MAX_FRAME_SIZE) → ∃ fx, (∀ closed s,
        acceptLoop xorStr (List.replicate (frames op p l).length false ++ closed) r (bytes xorStr (frames op p l) ++ s) =
          (acceptLoop xorStr closed nothing s).after fx) ∧
        messages fx = [((r.recvBuf ++ (p :: l).map Part.payload).flatten,r.firstOp.getD op)] ∧
        written fx = bytes xorStr (pongs ((p :: l).flatMap Part.controls))) ∧
      (¬(r.recvCount + ((p :: l).map Part.payload).flatten.length ≤ MAX_FRAME_SIZE ∧
        ∀ c ∈ (p :: l).flatMap Part.controls, c.payload.length ≤ MAX_FRAME_SIZE) → ∀ closed s,
        acceptLoop xorStr (List.replicate (frames op p l).length false ++ closed) r (bytes xorStr (frames op p l) ++ s) =
          .fail .assertion .tooLarge) := by
  induction l with
  | nil =>
    intro op p r hop hr hv
    obtain ⟨h₁,h₂⟩ := accept_part hx hop hv
    simp only [frames,List.map_cons,List.map_nil,List.flatten_cons,List.flatten_nil,List.append_nil,List.flatMap_cons,List.flatMap_nil]
    by_cases hp : p.Within
    · obtain ⟨fx,he,hm,hw⟩ := h₁ hp
      refine ⟨fun h => ⟨fx ++ [Effect.message (r.recvBuf ++ [p.payload]).flatten (r.firstOp.getD op)],fun closed s => ?_,?_,?_⟩,
        fun h closed s => ?_⟩
      · rw [he,receive_last op hr hp.2,if_neg (Nat.not_lt.mpr h.1),Act.bind_ok,Act.after_after]
      · rw [messages_append,hm]
        rfl
      · rw [written_append,hw]
        simp [written]
      · rw [he,receive_last op hr hp.2,if_pos (Nat.not_le.mp fun h' => h ⟨h',hp.1⟩),Act.bind_fail,Act.after_fail]
    · refine ⟨fun h => absurd ⟨h.2,by omega⟩ hp,fun _ closed s => h₂ hp _ _ _⟩
  | cons q l ih =>
    intro op p r hop hr hv
    obtain ⟨hpv,hlv⟩ := List.forall_mem_append.mp hv
    obtain ⟨h₁,h₂⟩ := accept_part hx hop hpv
    obtain ⟨ih₁,ih₂⟩ := ih (r := ⟨r.recvBuf ++ [p.payload],r.recvCount + p.payload.length,some (r.firstOp.getD op)⟩)
      (.inl rfl) (by simp) hlv
    have hlen : ((p :: q :: l).map Part.payload).flatten.length =
        p.payload.length + ((q :: l).map Part.payload).flatten.length := by
      rw [List.map_cons,List.flatten_cons,List.length_append]
    have hcontrols : (p :: q :: l).flatMap Part.controls = p.controls ++ (q :: l).flatMap Part.controls := List.flatMap_cons
    rw [hlen,hcontrols,List.forall_mem_append]
    simp only [frames,List.length_append,List.replicate_append_replicate.symm,bytes_append,List.append_assoc]
    by_cases hp : p.Within
    · obtain ⟨fx,he,hm,hw⟩ := h₁ hp
      refine ⟨fun h => ?_,fun h closed s => ?_⟩
      · obtain ⟨fx',he',hm',hw'⟩ := ih₁ ⟨by simpa [Nat.add_assoc] using h.1,h.2.2⟩
        refine ⟨fx ++ fx',fun closed s => ?_,?_,?_⟩
        · rw [he,receive_more,if_neg (by omega),Act.bind_ok,Act.after_nil,he',Act.after_after]
        · rw [messages_append,hm,hm']
          simp
        · rw [written_append,hw,hw',← bytes_append,← pongs_append]
      · rw [he,receive_more]
        split
        · rfl
        · rw [Act.bind_ok,Act.after_nil,ih₂ (fun h' => h ⟨by simpa [Nat.add_assoc] using h'.1,hp.1,h'.2⟩),Act.after_fail]
    · exact ⟨fun h => absurd ⟨h.2.1,by omega⟩ hp,fun _ closed s => h₂ hp _ _ _⟩

theorem Message.op_data (m : Message) : m.op = .frame ∨ m.op = .text ∨ m.op = .binary := by
  unfold op
  split
  · exact .inr (.inr rfl)
  · exact .inr (.inl rfl)

theorem accept_messages (hx : Masks xorStr) (ms : List Message) (hv : ∀ f ∈ ms.flatMap Message.frames, f.Valid) :
    ((∀ m ∈ ms, m.Within) → ∃ fx, (∀ closed s,
        acceptLoop xorStr (List.replicate (ms.flatMap Message.frames).length false ++ closed) nothing
          (bytes xorStr (ms.flatMap Message.frames) ++ s) = (acceptLoop xorStr closed nothing s).after fx) ∧
        messages fx = ms.map (fun m => (m.data,m.op)) ∧ written fx = bytes xorStr (pongs (ms.flatMap Message.controls))) ∧
      (¬(∀ m ∈ ms, m.Within) → ∀ closed s,
        acceptLoop xorStr (List.replicate (ms.flatMap Message.frames).length false ++ closed) nothing
          (bytes xorStr (ms.flatMap Message.frames) ++ s) = .fail .assertion .tooLarge) := by
  induction ms with
  | nil => exact ⟨fun _ => ⟨[],fun closed s => (Act.after_nil _).symm,rfl,rfl⟩,fun h => absurd (by simp) h⟩
  | cons m ms ih =>
    rw [List.flatMap_cons] at hv ⊢
    obtain ⟨hmv,hmsv⟩ := List.forall_mem_append.mp hv
    obtain ⟨h₁,h₂⟩ := accept_parts hx m.more m.op_data (fun _ => rfl) hmv
    have hwithin : m.Within ↔ nothing.recvCount + ((m.first :: m.more).map Part.payload).flatten.length ≤ MAX_FRAME_SIZE ∧
        ∀ c ∈ (m.first :: m.more).flatMap Part.controls, c.payload.length ≤ MAX_FRAME_SIZE := by
      rw [show nothing.recvCount = 0 from rfl,Nat.zero_add]
      rfl
    rw [← hwithin] at h₁ h₂
    obtain ⟨ih₁,ih₂⟩ := ih hmsv
    rw [List.forall_mem_cons]
    simp only [List.length_append,List.replicate_append_replicate.symm,bytes_append,List.append_assoc]
    by_cases hm : m.Within
    · obtain ⟨fx,he,hfm,hw⟩ := h₁ hm
      refine ⟨fun h => ?_,fun h closed s => ?_⟩
      · obtain ⟨fx',he',hfm',hw'⟩ := ih₁ h.2
        refine ⟨fx ++ fx',fun closed s => ?_,by rw [messages_append,hfm,hfm']; rfl,?_⟩
        · rw [Message.frames,he,he',Act.after_after]
        · rw [written_append,hw,hw',← bytes_append,← pongs_append]
          rfl
      · rw [Message.frames,he,ih₂ (fun h' => h ⟨hm,h'⟩),Act.after_fail]
    · exact ⟨fun h => absurd h.1 hm,fun _ closed s => h₂ hm _ _⟩

/-- A close frame is answered by one. -/
theorem accept_close (hx : Masks xorStr) (hf : f.Valid) (hop : f.op = .close) (h : f.payload.length ≤ MAX_FRAME_SIZE)
    (closed : List Bool) (s : Bytes) : ∃ fx, acceptLoop xorStr (false :: closed) r (f.bytes xorStr ++ s) =
      .ok s (fx ++ [Effect.close (readClose f.payload).1 (readClose f.payload).2]) ∧ messages fx = [] ∧
      written fx = Frame.bytes xorStr ⟨true,.close,none,[]⟩ := by
  obtain ⟨fx,he,hw,ha⟩ := writeFrame_eq hx .close [] none (by simp)
  refine ⟨fx,?_,messages_writes ha,hw⟩
  rw [acceptLoop,readFrame_bytes hx hf,if_neg fun h' => absurd h'.2 (Nat.not_lt.mpr h),Act.bind_ok,Act.after_nil,hop]
  dsimp only
  rw [he,Act.bind_ok,Act.after_ok]

/-- The handler gets the messages of the peer in order, each one whole and with the opcode of
its first frame, however it was split, whatever control frames came between the parts and
whichever keys were used; each ping is answered by a pong with its payload, and the close frame
by one, of which the handler is told at last. If some message, ping, pong or close frame is over
the limit, the loop ends in an error. -/
theorem conversation_accepted (c : Conversation) (closed : List Bool) (rest : Bytes) (hx : Masks xorStr)
    (hv : ∀ f ∈ c.frames, f.Valid) :
    (c.Within → ∃ fx, acceptLoop xorStr (List.replicate c.frames.length false ++ closed) nothing (bytes xorStr c.frames ++ rest) =
        .ok rest (fx ++ [.close (readClose c.reason).1 (readClose c.reason).2]) ∧
      messages fx = c.messages.map (fun m => (m.data,m.op)) ∧
      written fx = bytes xorStr (pongs (c.messages.flatMap Message.controls ++ c.controls) ++ [⟨true,.close,none,[]⟩])) ∧
    (¬c.Within → acceptLoop xorStr (List.replicate c.frames.length false ++ closed) nothing (bytes xorStr c.frames ++ rest) =
      .fail .assertion .tooLarge) := by
  obtain ⟨hmv,hcv⟩ := List.forall_mem_append.mp hv
  obtain ⟨hcv,hclose⟩ := List.forall_mem_append.mp hcv
  have hclose := List.forall_mem_singleton.mp hclose
  obtain ⟨hm₁,hm₂⟩ := accept_messages hx c.messages hmv
  obtain ⟨hc₁,hc₂⟩ := accept_controls hx (List.forall_mem_map.mp hcv)
  have hrounds : List.replicate c.frames.length false ++ closed = List.replicate (c.messages.flatMap Message.frames).length false ++
      (List.replicate c.controls.length false ++ false :: closed) := by
    rw [Conversation.frames,List.length_append,List.length_append,List.length_map,List.length_singleton,
      ← List.replicate_append_replicate,List.append_assoc,List.replicate_succ']
    simp
  rw [hrounds,bytes_conversation]
  by_cases hm : ∀ m ∈ c.messages, m.Within
  · obtain ⟨fx,he,hfm,hw⟩ := hm₁ hm
    rw [he]
    by_cases hc : ∀ d ∈ c.controls, d.payload.length ≤ MAX_FRAME_SIZE
    · obtain ⟨fx',he',hfm',hw'⟩ := hc₁ hc
      rw [he']
      refine ⟨fun h => ?_,fun h => ?_⟩
      · obtain ⟨fx₂,he₂,hfm₂,hw₂⟩ := accept_close hx hclose rfl h.2.2 closed rest
        refine ⟨fx ++ (fx' ++ fx₂),?_,?_,?_⟩
        · rw [he₂,Act.after_ok,Act.after_ok,List.append_assoc,List.append_assoc]
          rfl
        · rw [messages_append,messages_append,hfm,hfm',hfm₂,List.append_nil,List.append_nil]
        · rw [written_append,written_append,hw,hw',hw₂,pongs_append]
          simp [bytes]
      · rw [accept_large hx hclose (Nat.not_le.mp fun h' => h ⟨hm,hc,h'⟩)]
        rfl
    · refine ⟨fun h => absurd h.2.1 hc,fun _ => ?_⟩
      rw [hc₂ hc]
      rfl
  · exact ⟨fun h => absurd h.1 hm,fun _ => hm₂ hm _ _⟩

theorem conversation_accepted_two : ∃ fx, acceptLoop xorBytes (List.replicate 4 false) nothing
      (bytes xorBytes [⟨false,.binary,some [1,2,3,4],[5]⟩,⟨true,.ping,none,[6]⟩,⟨true,.frame,none,[7,8]⟩,⟨true,.close,none,[]⟩]) =
        .ok [] (fx ++ [.close none none]) ∧ messages fx = [([5,7,8],.binary)] ∧
      written fx = bytes xorBytes [⟨true,.pong,none,[6]⟩,⟨true,.close,none,[]⟩] := by
  have h := (@conversation_accepted xorBytes ⟨[⟨true,⟨[],some [1,2,3,4],[5]⟩,[⟨[⟨true,none,[6]⟩],none,[7,8]⟩]⟩],[],none,[]⟩ [] [] masks_xorBytes
    (by simp [Conversation.frames,Conversation.close,Message.frames,frames,Part.frames,Control.frame,Frame.Valid])).1
    (by simp [Conversation.Within,Message.Within,Message.data,Message.controls,MAX_FRAME_SIZE])
  obtain ⟨fx,he,hm,hw⟩ := h
  exact ⟨fx,he,hm,hw⟩

/-! Rounds of the client, which has no limit. -/

theorem read_control (hx : Masks xorStr) {c : Control} (hc : c.frame.Valid) : ∃ fx, (∀ rounds b s,
      readLoop xorStr (rounds + 1) b (c.frame.bytes xorStr ++ s) = (readLoop xorStr rounds b s).after fx) ∧
    written fx = bytes xorStr (pongs [c]) := by
  have hread : ∀ s, readFrame xorStr false (c.frame.bytes xorStr ++ s) = .ok ((true,c.frame.op,c.payload),s) [] := by
    intro s
    rw [readFrame_bytes hx hc,if_neg fun h' => absurd h'.1 (by decide)]
    rfl
  obtain ⟨ping,key,payload⟩ := c
  cases ping with
  | true =>
    obtain ⟨fx,he,hw,_⟩ := writeFrame_eq hx .pong payload none (by simp)
    refine ⟨fx,fun rounds b s => ?_,?_⟩
    · rw [readLoop,hread,Act.bind_ok,Act.after_nil]
      dsimp only [Control.frame]
      rw [if_pos rfl]
      dsimp only
      rw [he,Act.bind_ok]
    · rw [hw]
      simp [pongs,bytes]
  | false =>
    refine ⟨[],fun rounds b s => ?_,rfl⟩
    rw [readLoop,hread,Act.bind_ok]
    rfl

theorem read_controls (hx : Masks xorStr) {cs : List Control} (hc : ∀ c ∈ cs, c.frame.Valid) : ∃ fx, (∀ rounds b s,
      readLoop xorStr (rounds + cs.length) b (bytes xorStr (cs.map Control.frame) ++ s) = (readLoop xorStr rounds b s).after fx) ∧
    written fx = bytes xorStr (pongs cs) := by
  induction cs with
  | nil => exact ⟨[],fun rounds b s => (Act.after_nil _).symm,rfl⟩
  | cons c cs ih =>
    obtain ⟨hcv,hcs⟩ := List.forall_mem_cons.mp hc
    obtain ⟨fx,he,hw⟩ := read_control hx hcv
    obtain ⟨fx',he',hw'⟩ := ih hcs
    refine ⟨fx ++ fx',fun rounds b s => ?_,?_⟩
    · rw [List.length_cons,← Nat.add_assoc,List.map_cons,bytes_cons,List.append_assoc,he,he',Act.after_after]
    · rw [written_append,hw,hw',← bytes_append,← pongs_append,List.singleton_append]

/-- What a frame with data does to `recv_buf`. -/
theorem read_data (hx : Masks xorStr) (hf : f.Valid) (hop : f.op = .frame ∨ f.op = .text ∨ f.op = .binary)
    (rounds : Nat) (b : Option (List Bytes)) (s : Bytes) : readLoop xorStr (rounds + 1) b (f.bytes xorStr ++ s) =
      if f.fin then .ok (.message (b.getD [] ++ [f.payload]).flatten,s) []
      else readLoop xorStr rounds (some (b.getD [] ++ [f.payload])) s := by
  rw [readLoop,readFrame_bytes hx hf,if_neg fun h' => absurd h'.1 (by decide),Act.bind_ok,Act.after_nil]
  rcases hop with hop | hop | hop <;> rw [hop] <;> cases f.fin <;> cases b <;> simp

theorem read_parts (hx : Masks xorStr) (l : List Part) : ∀ {op : Op} {p : Part} {b : Option (List Bytes)},
    (op = .frame ∨ op = .text ∨ op = .binary) → (∀ f ∈ frames op p l, f.Valid) → ∃ fx, (∀ rounds s,
      readLoop xorStr (rounds + (frames op p l).length) b (bytes xorStr (frames op p l) ++ s) =
        .ok (.message (b.getD [] ++ (p :: l).map Part.payload).flatten,s) fx) ∧
      written fx = bytes xorStr (pongs ((p :: l).flatMap Part.controls)) := by
  induction l with
  | nil =>
    intro op p b hop hv
    obtain ⟨hcv,hpv⟩ := List.forall_mem_append.mp hv
    obtain ⟨fx,he,hw⟩ := read_controls hx (List.forall_mem_map.mp hcv)
    refine ⟨fx,fun rounds s => ?_,by simpa using hw⟩
    rw [frames,Part.frames,List.length_append,List.length_map,List.length_singleton,Nat.add_comm p.controls.length,
      ← Nat.add_assoc,bytes_append,List.append_assoc,he,bytes_cons,List.append_assoc,
      read_data hx (List.forall_mem_singleton.mp hpv) hop,if_pos rfl,Act.after_ok,List.append_nil]
    rfl
  | cons q l ih =>
    intro op p b hop hv
    obtain ⟨hpv,hlv⟩ := List.forall_mem_append.mp hv
    obtain ⟨hcv,hpv⟩ := List.forall_mem_append.mp hpv
    obtain ⟨fx,he,hw⟩ := read_controls hx (List.forall_mem_map.mp hcv)
    obtain ⟨fx',he',hw'⟩ := ih (b := some (b.getD [] ++ [p.payload])) (.inl rfl) hlv
    refine ⟨fx ++ fx',fun rounds s => ?_,?_⟩
    · have hlen : rounds + (frames op p (q :: l)).length = rounds + (frames .frame q l).length + 1 + p.controls.length := by
        rw [frames,Part.frames,List.length_append,List.length_append,List.length_map,List.length_singleton]
        omega
      rw [hlen,frames,Part.frames,bytes_append,bytes_append,List.append_assoc,List.append_assoc,he,bytes_cons,List.append_assoc,
        read_data hx (List.forall_mem_singleton.mp hpv) hop,if_neg Bool.false_ne_true]
      rw [show bytes xorStr [] = [] from rfl,List.nil_append,he',Act.after_ok]
      simp
    · rw [written_append,hw,hw',← bytes_append,← pongs_append]
      rfl

/-- Calls of `M.read` in a row, each with enough rounds. -/
def reads (xorStr : Bytes → Bytes → Bytes) (rounds : Nat) : Nat → Bytes → WsM (List Reply × Bytes)
  | 0, s => pure ([],s)
  | n+1, s => do
    let (reply,s) ← readLoop xorStr rounds none s
    let (l,s) ← reads xorStr rounds n s
    pure (reply :: l,s)

theorem read_messages (hx : Masks xorStr) (ms : List Message) {rounds : Nat} (hr : ∀ m ∈ ms, m.frames.length ≤ rounds)
    (hv : ∀ f ∈ ms.flatMap Message.frames, f.Valid) : ∃ fx, (∀ n s,
      reads xorStr rounds (ms.length + n) (bytes xorStr (ms.flatMap Message.frames) ++ s) =
        (reads xorStr rounds n s >>= fun x => pure (ms.map (fun m => .message m.data) ++ x.1,x.2)).after fx) ∧
      written fx = bytes xorStr (pongs (ms.flatMap Message.controls)) := by
  induction ms with
  | nil =>
    refine ⟨[],fun n s => ?_,rfl⟩
    rw [List.length_nil,Nat.zero_add,List.flatMap_nil,Act.after_nil]
    show reads xorStr rounds n s = _
    cases reads xorStr rounds n s <;> simp
  | cons m ms ih =>
    obtain ⟨hmr,hmsr⟩ := List.forall_mem_cons.mp hr
    rw [List.flatMap_cons] at hv ⊢
    obtain ⟨hmv,hmsv⟩ := List.forall_mem_append.mp hv
    obtain ⟨fx,he,hw⟩ := read_parts hx m.more (b := none) m.op_data hmv
    obtain ⟨fx',he',hw'⟩ := ih hmsr hmsv
    obtain ⟨k,hk⟩ := Nat.exists_eq_add_of_le' hmr
    refine ⟨fx ++ fx',fun n s => ?_,?_⟩
    · rw [List.length_cons,Nat.add_right_comm,reads,hk,Message.frames,bytes_append,List.append_assoc,he,Act.bind_ok]
      dsimp only
      rw [← Message.frames,← hk,he',Act.after_bind,Act.bind_assoc,Act.after_after]
      rfl
    · rw [written_append,hw,hw',← bytes_append,← pongs_append]
      rfl

/-- A client that reads again and again gets the messages of the peer in order, each one whole,
and then the payload of the close frame; each ping is answered. There is no limit. -/
theorem conversation_read (c : Conversation) (rounds : Nat) (rest : Bytes) (hx : Masks xorStr) (hv : ∀ f ∈ c.frames, f.Valid)
    (hr : c.frames.length ≤ rounds) : ∃ fx, reads xorStr rounds (c.messages.length + 1) (bytes xorStr c.frames ++ rest) =
        .ok (c.messages.map (fun m => .message m.data) ++ [.closed c.reason],rest) fx ∧
      written fx = bytes xorStr (pongs (c.messages.flatMap Message.controls ++ c.controls)) := by
  obtain ⟨hmv,hcv⟩ := List.forall_mem_append.mp hv
  obtain ⟨hcv,hclose⟩ := List.forall_mem_append.mp hcv
  have hclose := List.forall_mem_singleton.mp hclose
  rw [Conversation.frames,List.length_append,List.length_append,List.length_map,List.length_singleton] at hr
  have hmr : ∀ m ∈ c.messages, m.frames.length ≤ rounds := by
    intro m hm
    obtain ⟨ms,ms',hms⟩ := List.append_of_mem hm
    rw [hms,List.flatMap_append,List.flatMap_cons,List.length_append,List.length_append] at hr
    omega
  obtain ⟨fx,he,hw⟩ := read_messages hx c.messages hmr hmv
  obtain ⟨fx',he',hw'⟩ := read_controls hx (List.forall_mem_map.mp hcv)
  obtain ⟨k,hk⟩ := Nat.exists_eq_add_of_le' (show 1 + c.controls.length ≤ rounds by omega)
  have hlast : readLoop xorStr rounds none (bytes xorStr (c.controls.map Control.frame) ++ (c.close.bytes xorStr ++ rest)) =
      .ok (.closed c.reason,rest) fx' := by
    rw [hk,← Nat.add_assoc,he',readLoop,readFrame_bytes hx hclose,if_neg fun h' => absurd h'.1 (by decide),Act.bind_ok]
    simp [Conversation.close]
  refine ⟨fx ++ fx',?_,?_⟩
  · rw [bytes_conversation,he,reads,hlast]
    simp [reads]
  · rw [written_append,hw,hw',← bytes_append,← pongs_append]

theorem conversation_read_two : ∃ fx, reads xorBytes 4 2 (bytes xorBytes
      [⟨false,.text,none,[5]⟩,⟨true,.ping,some [1,2,3,4],[6]⟩,⟨true,.frame,none,[7,8]⟩,⟨true,.close,none,[3,232]⟩]) =
        .ok ([.message [5,7,8],.closed [3,232]],[]) fx ∧ written fx = bytes xorBytes [⟨true,.pong,none,[6]⟩] := by
  obtain ⟨fx,he,hw⟩ := @conversation_read xorBytes ⟨[⟨false,⟨[],none,[5]⟩,[⟨[⟨true,some [1,2,3,4],[6]⟩],none,[7,8]⟩]⟩],[],none,[3,232]⟩ 4 [] masks_xorBytes
    (by simp [Conversation.frames,Conversation.close,Message.frames,frames,Part.frames,Control.frame,Frame.Valid]) (by decide)
  exact ⟨fx,he,hw⟩

end MyProgram.Websocket
