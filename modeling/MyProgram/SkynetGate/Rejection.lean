import MyProgram.SkynetGate.Isolation

/-! What is forwarded for a socket after one of its frames was found to be too long. -/
namespace MyProgram.SkynetGate
open Lib ByteStream

/-- The log line of the branch for messages over 16M. -/
def oversizeLog : Effect := .error (ascii "Recv socket message > 16M")

/-- Whether the socket `A` is between the rejection of a frame and its CLOSE or ERROR
event, after one more step. -/
def rejectedStep (A : Int) (rejected : Bool) (e : Input × List Effect) : Bool :=
  match e.1.incoming with
  | .socket (.data id _) => if id = A then rejected || decide (oversizeLog ∈ e.2) else rejected
  | .socket (.close id) | .socket (.error id) => if id = A then false else rejected
  | _ => rejected

def rejected (A : Int) (tr : Trace Input Effect) : Bool := tr.foldl (rejectedStep A) false

/-- The input is a DATA event for `A` that makes a non-empty frame with a destination
complete in the bytes held for `A`. -/
def completes (A : Int) (g : Gate) (x : Input) : Bool :=
  match g.session A, x.incoming with
  | some s, .socket (.data id buffer) => id = A ∧ g.switch.routes s = true ∧
      nonEmpty (deframe 4 LIMIT true (s.stream.held ++ buffer.bytes)).1 ≠ []
  | _, _ => false

/-- Ids are fresh, and no DATA event after a rejection completes a frame. -/
def Withheld (A : Int) (tr : Trace Input Effect) (g : Gate) (x : Input) : Prop :=
  Fresh g x ∧ (rejected A tr = true → completes A g x = false)

instance (A : Int) (tr : Trace Input Effect) (g : Gate) (x : Input) : Decidable (Withheld A tr g x) :=
  inferInstanceAs (Decidable (_ ∧ _))

variable {A : Int} {f : Switch} {full : Bool} {x : Input} {fx : List Effect} {g g' : Gate} {s : Session}

/-- Pending lengths are `int`s in all sessions. -/
private def Ranged (f : Switch) : Prop := ∀ id s, f.session id = some s → s.stream.InRange

private theorem inRange_setStream {st : ByteStream} (h : st.InRange) (s : Session) :
    ({ s with stream := st } : Session).stream.InRange := h

private theorem ranged_step (h : Ranged f) : Ranged (f.step full x).1 := by
  intro A s hs
  rw [Switch.step_session] at hs
  cases he : eventOf A full x with
  | none =>
    rw [he] at hs
    exact h A s hs
  | some e =>
    rw [he] at hs
    cases e with
    | register s' =>
      obtain ⟨_,_,rfl | ⟨_,source,rfl⟩⟩ := register_cases he
      · cases hs
        exact inRange_zero _
      · cases hs
        exact inRange_zero _
    | data chunk =>
      obtain ⟨s',hs',rfl⟩ := Option.map_eq_some_iff.mp hs
      exact inRange_setStream (feed_deframe _ (h A s' hs') chunk).2.1 s'
    | route agent client =>
      obtain ⟨s',hs',rfl⟩ := Option.map_eq_some_iff.mp hs
      exact h A s' hs'
    | drop => cases hs

private theorem message_eq_none (h : f.routes s = false) (body : Bytes) : f.message s body = none := by
  simp only [Switch.routes,ne_eq,decide_eq_false_iff_not,not_or,Decidable.not_not] at h
  simp [Switch.message,h.1,h.2.1,h.2.2]

/-- A step that completes no frame forwards nothing. -/
private theorem forwarded_eq_nil (hr : Ranged g.switch) (hext : external fx = (g.switch.step full x).2)
    (hc : completes A g x = false) : forwarded A (x,fx) = [] := by
  rw [forwarded_eq hext]
  cases hev : eventOf A full x with
  | none => rfl
  | some e =>
    cases e with
    | data chunk =>
      obtain ⟨buffer,hx,rfl⟩ : ∃ buffer, x.incoming = .socket (.data A buffer) ∧ chunk = buffer.bytes := by
        rcases eventOf_cases hev with ⟨buffer,hx,he⟩ | ⟨_,he⟩ | ⟨_,_,_,_,he⟩ | ⟨_,_,_,_,_,_,_,he⟩ | ⟨_,_,_,_,_,_,_,_,_,he⟩
        · cases he
          exact ⟨buffer,hx,rfl⟩
        all_goals cases he
      simp only [Switch.forwards]
      rw [show g.switch.session A = g.session A from rfl]
      cases hs : g.session A with
      | none => rfl
      | some s =>
        rw [completes,hs,hx] at hc
        simp only [true_and,decide_eq_false_iff_not,not_and,Decidable.not_not,ne_eq] at hc
        by_cases hrt : g.switch.routes s = true
        · have hpre := (feed_deframe true (hr A s hs) buffer.bytes).1
          rw [hc hrt,List.prefix_nil] at hpre
          simp [hrt,hpre]
        · have hnone : g.switch.message s = fun _ => none := funext (message_eq_none (by simpa using hrt))
          simp [hnone]
    | register _ | route _ _ | drop => rfl

variable {setup : Setup} {parm : Bytes} {g₀ : Gate} {tr tr₁ tr₂ : Trace Input Effect} {e : Input × List Effect}

/-- The header of a frame of 16M together with its body. -/
def oversizedBuffer : Buffer := ⟨0,[1,0,0,0] ++ List.replicate 0x1000000 0,by
  rw [List.length_append,List.length_replicate]
  decide⟩

private theorem feed_oversized (body : Bytes) (hlen : body.length = 0x1000000) (consume : Bool) :
    ((ByteStream.mk 0 []).feed consume ([1,0,0,0] ++ body)).stream = ⟨0,[]⟩ ∧
      ((ByteStream.mk 0 []).feed consume ([1,0,0,0] ++ body)).closed = true := by
  have hfour : ([1,0,0,0] ++ body).take 4 = [1,0,0,0] := List.take_left' rfl
  have hover : Oversized 4 LIMIT ([1,0,0,0] ++ body) := by
    refine ⟨by simp,?_⟩
    rw [hfour]
    decide
  have hrej : Rejects ([1,0,0,0] ++ body) := by
    refine ⟨hover,?_⟩
    rw [hfour,List.length_append,hlen]
    decide
  have hset := (feed_deframe consume (inRange_zero []) ([1,0,0,0] ++ body)).2.2 (by
    rw [List.length_append,hlen]
    decide)
  rw [held_zero,List.nil_append,deframe_of_none (cut_oversized hover)] at hset
  have hr := hset.2
  rwa [if_pos hrej] at hr

/-- A socket whose stream is at the start of a frame is still registered, with the
same stream, after an oversized frame. -/
private theorem oversized_step (h : g.Inv) (hs : g.session A = some s) (hst : s.stream = ⟨0,[]⟩) :
    ∃ g' fx, gateStep g (event (.data A oversizedBuffer)) = .ok g' fx ∧ g'.Inv ∧ g'.switch = g.switch ∧
      oversizeLog ∈ fx := by
  obtain ⟨g',fx,he,⟨hinv,hsw,_⟩,hvis⟩ := data_returns h A oversizedBuffer
  obtain ⟨hstream,hclosed⟩ := feed_oversized (List.replicate 0x1000000 0) List.length_replicate (g.switch.routes s)
  have hbytes : oversizedBuffer.bytes = [1,0,0,0] ++ List.replicate 0x1000000 0 := rfl
  rw [hs] at hvis
  simp only [hst,hbytes] at hvis
  rw [hclosed,if_pos rfl] at hvis
  refine ⟨g',fx,(gateStep_socket rfl).trans he,hinv,?_,?_⟩
  · rw [hsw,Switch.data,show g.switch.session A = g.session A from rfl,hs]
    simp only [hst,hbytes]
    rw [hstream,← hst,Switch.set,← hs]
    change { g.switch with session := Function.update g.session A (g.session A) } = _
    rw [Function.update_eq_self]
    rfl
  · have hmem : oversizeLog ∈ visible fx := by
      rw [hvis]
      exact List.mem_append_right _ (List.mem_cons_of_mem _ List.mem_cons_self)
    exact List.mem_of_mem_filter hmem

private theorem completes_congr (h : g'.switch = g.switch) : completes A g' x = completes A g x := by
  have hs : g'.session = g.session := congrArg Switch.session h
  rw [completes,completes,hs,h]

private theorem fresh_data (g : Gate) (id : Int) (buffer : Buffer) : Fresh g (event (.data id buffer)) := by
  intro A hA
  cases hf : hashidFull g.hash with
  | true | false =>
    rw [hf] at hA
    cases hA

/-- Socket 4 has sent an oversized frame. -/
private theorem rejected_run : ∃ g₀ tr g, Started twoOnline (ascii "127.0.0.1:8888 9") g₀ ∧
    Run gateStep (Withheld 4) g₀ tr g ∧ tr.map (·.1) = [event (.accept 7 4 []),event (.data 4 oversizedBuffer)] ∧
    rejected 4 tr = true ∧ g.Inv ∧ completes 4 g (event (.data 4 ⟨1,[0,0],by decide⟩)) = false ∧
    g.switch.forwards (g.session 4) (.data [0,0,0,1,7]) = [(0,9,ascii "4 " ++ [7])] := by
  obtain ⟨g₀,code,fx₀,tr,g,hi,hr,hm,hses,hrej,hc,hfor⟩ := gateRun_of_start (fun _ => Withheld 4)
    (fun _ tr (g : Gate) => g.session 4 = some (.accepted 4) ∧ rejected 4 tr = false ∧
      completes 4 g (event (.data 4 ⟨1,[0,0],by decide⟩)) = false ∧
      g.switch.forwards (g.session 4) (.data [0,0,0,1,7]) = [(0,9,ascii "4 " ++ [7])])
    twoOnline (ascii "127.0.0.1:8888 9") [event (.accept 7 4 [])] (by decide)
  have hs : Started twoOnline (ascii "127.0.0.1:8888 9") g₀ := ⟨code,fx₀,hi⟩
  have hinv := gateRun_inv hs (fun _ _ _ h => h.1) hr
  obtain ⟨g',fx,he,hinv',hsw,hlog⟩ := oversized_step hinv hses rfl
  have hses' : g'.session = g.session := congrArg Switch.session hsw
  refine ⟨g₀,_,g',hs,hr.snoc ⟨fresh_data g 4 _,fun h => ?_⟩ he,?_,?_,hinv',?_,?_⟩
  · rw [hrej] at h
    cases h
  · rw [List.map_append,hm]
    rfl
  · rw [rejected,List.foldl_append]
    change rejectedStep 4 (rejected 4 tr) (event (.data 4 oversizedBuffer),fx) = true
    simp [rejectedStep,event,hlog]
  · rw [completes_congr hsw,hc]
  · rw [hsw,hses',hfor]

end MyProgram.SkynetGate
