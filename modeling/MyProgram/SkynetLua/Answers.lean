import MyProgram.SkynetLua.Delivery

/-! No request is answered twice. -/
namespace MyProgram.SkynetLua
open Lib

/-- Answers under a session to an address. -/
def answersTo (addr session : Nat) (fx : List Effect) : Nat :=
  fx.countP fun
    | .answer a σ _ => a = addr ∧ σ = session
    | .resume _ _ | .forgot _ _ | .unknownResponse _ => false

/-- Requests under a session from an address. -/
def requestsFrom (addr session : Nat) (es : List Event) : Nat :=
  es.countP fun
    | .request _ σ source | .unknownPrototype σ source => source = addr ∧ σ = session
    | _ => false

theorem answersTo_nil (addr session : Nat) : answersTo addr session [] = 0 := rfl

theorem requestsFrom_nil (addr session : Nat) : requestsFrom addr session [] = 0 := rfl

theorem answersTo_append (addr session : Nat) (fx fx' : List Effect) :
    answersTo addr session (fx ++ fx') = answersTo addr session fx + answersTo addr session fx' := List.countP_append

theorem requestsFrom_append (addr session : Nat) (es es' : List Event) :
    requestsFrom addr session (es ++ es') = requestsFrom addr session es + requestsFrom addr session es' := List.countP_append

theorem answersTo_answer (addr session a σ : Nat) (ok : Bool) :
    answersTo addr session [.answer a σ ok] = if a = addr ∧ σ = session then 1 else 0 := by
  simp [answersTo,List.countP_cons]

theorem requestsFrom_request (addr session : Nat) (co : Co) (σ source : Nat) :
    requestsFrom addr session [.request co σ source] = if source = addr ∧ σ = session then 1 else 0 := by
  simp [requestsFrom,List.countP_cons]

namespace Sched

/-- An entry of `session_coroutine_id` for a request. -/
def isAsked (s : Sched) (addr session : Nat) (e : Co × Nat) : Bool := e.2 = session ∧ s.sessionCoroutineAddress e.1 = some addr

/-- An entry of `unresponse` for a request. -/
def isOwed (s : Sched) (addr session : Nat) (e : Nat × Nat) : Bool :=
  match s.responses e.1 with
  | some c => c.addr = addr ∧ c.session = session
  | none => false

/-- The requests that may still be answered: by their coroutine, or by a closure. -/
def unsettled (s : Sched) (addr session : Nat) : Nat :=
  s.sessionCoroutineId.countP (s.isAsked addr session) + s.unresponse.countP (s.isOwed addr session)

/-- Each coroutine and each closure stands for one request. -/
def Single (s : Sched) : Prop := (s.sessionCoroutineId.map Prod.fst).Nodup ∧ (s.unresponse.map Prod.fst).Nodup

variable {s s' t : Sched} {co co' : Co} {how : Wake} {fx : List Effect} {addr session σ a r : Nat} {e : Event}

theorem unsettled_congr (h : s'.books = s.books) : s'.unsettled addr session = s.unsettled addr session := by
  simp only [books,Prod.mk.injEq] at h
  obtain ⟨hid,ha,hu,hr⟩ := h
  unfold unsettled
  congr 1
  · rw [hid]
    exact List.countP_congr fun e _ => by simp only [isAsked,ha]
  · rw [hu]
    exact List.countP_congr fun e _ => by simp only [isOwed,hr]

theorem Single.congr (hs : s.Single) (h : s'.books = s.books) : s'.Single := by
  simp only [books,Prod.mk.injEq] at h
  rw [Single,h.1,h.2.2.1]
  exact hs

/-- A step that answers nobody and leaves the books alone. -/
def Quiet (s s' : Sched) (fx : List Effect) : Prop := s'.books = s.books ∧ ∀ addr session, answersTo addr session fx = 0

theorem coroutineResume_quiet (h : s.coroutineResume co how = .ok s' fx) : s.Quiet s' fx := by
  unfold coroutineResume at h
  dsimp only at h
  split at h <;> cases h <;> exact ⟨rfl,fun _ _ => rfl⟩

theorem dispatchForks_quiet (h : s.dispatchForks = .ok s' fx) : s.Quiet s' fx := by
  unfold dispatchForks at h
  split at h
  · cases h
    exact ⟨rfl,fun _ _ => rfl⟩
  · have hq := coroutineResume_quiet h
    exact hq

theorem dispatchErrorQueue_quiet (h : s.dispatchErrorQueue = .ok s' fx) : s.Quiet s' fx := by
  unfold dispatchErrorQueue at h
  split at h
  · exact dispatchForks_quiet h
  · split at h
    · have hq := coroutineResume_quiet h
      exact hq
    · cases h

theorem dispatchWakeup_quiet {l : List Token} (h : s.dispatchWakeup l = .ok s' fx) : s.Quiet s' fx := by
  induction l with
  | nil =>
    rw [dispatchWakeup] at h
    have hq := dispatchErrorQueue_quiet h
    exact hq
  | cons tok l ih =>
    rw [dispatchWakeup] at h
    split at h
    · exact ih h
    · split at h
      · have hq := coroutineResume_quiet h
        exact hq
      · cases h

theorem suspend_quiet {v : Status} (h : s.suspend co v = .ok s' fx) : s.Quiet s' fx := by
  have hq := dispatchWakeup_quiet h
  exact hq

theorem coCreate_quiet {v : Status} (h : s.coCreate co v = .ok s' fx) : s.Quiet s' fx := by
  unfold coCreate at h
  split at h <;> cases h <;> exact ⟨rfl,fun _ _ => rfl⟩

/-- Other coroutines are asked as before when one changes its address. -/
private theorem isAsked_other (s s' : Sched) (co : Co) (hne : ∀ c ≠ co, s'.sessionCoroutineAddress c = s.sessionCoroutineAddress c)
    (addr session : Nat) :
    (assign s.sessionCoroutineId co none).countP (s'.isAsked addr session) =
      (assign s.sessionCoroutineId co none).countP (s.isAsked addr session) := by
  refine List.countP_congr fun e he => ?_
  have hc : e.1 ≠ co := of_decide_eq_true (List.mem_filter.mp he).2
  simp only [isAsked,hne e.1 hc]

theorem clearId_unsettled (s : Sched) (co : Co) (addr session : Nat) : (s.clearId co).unsettled addr session ≤ s.unsettled addr session :=
  Nat.add_le_add_right (countP_remove_le _ _ co) _

theorem clearRequest_unsettled (s : Sched) (co : Co) (addr session : Nat) :
    (s.clearRequest co).unsettled addr session = (s.clearId co).unsettled addr session := by
  have ho := isAsked_other s (s.clearRequest co) co (fun _ hc => Function.update_of_ne hc _ _) addr session
  exact congrArg (· + s.unresponse.countP (s.isOwed addr session)) ho

/-- The request of a coroutine is one of those that may be answered. -/
private theorem asked_once (hs : s.Single) (hl : s.sessionCoroutineId.lookup co = some σ) (ha : s.sessionCoroutineAddress co = some a)
    (addr session : Nat) : (s.clearId co).unsettled addr session + (if a = addr ∧ σ = session then 1 else 0) ≤ s.unsettled addr session := by
  have hc := countP_lookup (s.isAsked addr session) hs.1 hl
  have hp : s.isAsked addr session (co,σ) = true ↔ a = addr ∧ σ = session := by
    simp [isAsked,ha,and_comm]
  simp only [hp] at hc
  change (assign s.sessionCoroutineId co none).countP (s.isAsked addr session) + s.unresponse.countP (s.isOwed addr session) + _ ≤
    s.sessionCoroutineId.countP (s.isAsked addr session) + s.unresponse.countP (s.isOwed addr session)
  omega

theorem Single.clearId (hs : s.Single) (co : Co) : (s.clearId co).Single := ⟨nodup_keys_assign hs.1 co none,hs.2⟩

/-- The books after a step: no coroutine or closure stands for two requests, and answers
given and still possible do not exceed those possible before and asked for now. -/
def Settles (s : Sched) (es : List Event) (s' : Sched) (fx : List Effect) : Prop :=
  s'.Single ∧ ∀ addr session, session ≠ 0 →
    answersTo addr session fx + s'.unsettled addr session ≤ s.unsettled addr session + requestsFrom addr session es

theorem Quiet.settles (hs : s.Single) (hq : s.Quiet s' fx) (es : List Event) : s.Settles es s' fx := by
  refine ⟨hs.congr hq.1,fun addr session _ => ?_⟩
  rw [hq.2,unsettled_congr hq.1]
  omega

/-- Steps in a row. -/
theorem Settles.trans {es es' : List Event} {fx' : List Effect} (h : s.Settles es t fx) (h' : t.Settles es' s' fx') :
    s.Settles (es ++ es') s' (fx ++ fx') := by
  refine ⟨h'.1,fun addr session hz => ?_⟩
  have h₁ := h.2 addr session hz
  have h₂ := h'.2 addr session hz
  rw [answersTo_append,requestsFrom_append]
  omega

theorem Settles.mono {es es' : List Event} (h : s.Settles es s' fx) (he : es.Sublist es') : s.Settles es' s' fx := by
  refine ⟨h.1,fun addr session hz => Nat.le_trans (h.2 addr session hz) (Nat.add_le_add_left ?_ _)⟩
  exact he.countP_le

private theorem clearId_settles (hs : s.Single) (co : Co) : s.Settles [] (s.clearId co) [] :=
  ⟨hs.clearId co,fun addr session _ => by
    have h := clearId_unsettled s co addr session
    simpa [answersTo_nil,requestsFrom_nil] using h⟩

private theorem clearRequest_settles (hs : s.Single) (co : Co) : s.Settles [] (s.clearRequest co) [] :=
  ⟨⟨nodup_keys_assign hs.1 co none,hs.2⟩,fun addr session _ => by
    have h := clearId_unsettled s co addr session
    simpa [answersTo_nil,requestsFrom_nil,clearRequest_unsettled] using h⟩

private theorem setRequest_settles (hs : s.Single) (co : Co) (σ source : Nat) :
    s.Settles [.request co σ source] (s.setRequest co σ source) [] := by
  refine ⟨⟨nodup_keys_assign hs.1 co (some σ),hs.2⟩,fun addr session _ => ?_⟩
  have hc := countP_assign ((s.setRequest co σ source).isAsked addr session) hs.1 co σ
  have ho := isAsked_other s (s.setRequest co σ source) co (fun _ hc => Function.update_of_ne hc _ _) addr session
  have hp : (s.setRequest co σ source).isAsked addr session (co,σ) = true ↔ source = addr ∧ σ = session := by
    simp [isAsked,setRequest,and_comm]
  have hle := countP_remove_le (s.isAsked addr session) s.sessionCoroutineId co
  simp only [hp] at hc
  change 0 + ((assign s.sessionCoroutineId co (some σ)).countP ((s.setRequest co σ source).isAsked addr session) +
    s.unresponse.countP (s.isOwed addr session)) ≤ s.sessionCoroutineId.countP (s.isAsked addr session) +
      s.unresponse.countP (s.isOwed addr session) + _
  rw [requestsFrom_request]
  omega

private theorem answered_settles (hs : s.Single) (hl : s.sessionCoroutineId.lookup co = some σ) (ha : s.sessionCoroutineAddress co = some a)
    (ok : Bool) : s.Settles [] (s.clearId co) [.answer a σ ok] := by
  refine ⟨hs.clearId co,fun addr session _ => ?_⟩
  have h := asked_once hs hl ha addr session
  rw [answersTo_answer,requestsFrom_nil]
  omega

theorem ret_settles {sent : Sent} (hs : s.Single) (h : s.ret co sent = .ok s' fx) : s.Settles [] s' fx := by
  unfold ret at h
  split at h
  · cases h
    exact Quiet.settles hs ⟨rfl,fun _ _ => rfl⟩ []
  · rename_i σ hl
    dsimp only at h
    split at h
    · cases h
      exact clearId_settles hs co
    · split at h
      · rename_i ha
        cases h
        exact answered_settles hs hl ha true
      · rename_i ha
        cases h
        exact answered_settles hs hl ha false
      · cases h
        exact clearId_settles hs co

/-- The closures other than `r` stand for what they stood for. -/
private theorem isOwed_other (s s' : Sched) (r : Nat) (hne : ∀ q ≠ r, s'.responses q = s.responses q) (addr session : Nat) :
    (assign s.unresponse r none).countP (s'.isOwed addr session) = (assign s.unresponse r none).countP (s.isOwed addr session) := by
  refine List.countP_congr fun e he => ?_
  have hr : e.1 ≠ r := of_decide_eq_true (List.mem_filter.mp he).2
  simp only [isOwed,hne e.1 hr]

private theorem addResponse_unsettled (hs : s.Single) (r : Nat) (c : Response) (addr session : Nat) :
    (s.addResponse r c).unsettled addr session ≤ s.unsettled addr session + if c.addr = addr ∧ c.session = session then 1 else 0 := by
  have hc := countP_assign ((s.addResponse r c).isOwed addr session) hs.2 r c.addr
  have ho := isOwed_other s (s.addResponse r c) r (fun _ hq => Function.update_of_ne hq _ _) addr session
  have hle := countP_remove_le (s.isOwed addr session) s.unresponse r
  have hp : (s.addResponse r c).isOwed addr session (r,c.addr) = true ↔ c.addr = addr ∧ c.session = session := by
    simp [isOwed,addResponse]
  simp only [hp] at hc
  change s.sessionCoroutineId.countP (s.isAsked addr session) +
    (assign s.unresponse r (some c.addr)).countP ((s.addResponse r c).isOwed addr session) ≤ _
  unfold unsettled
  omega

theorem response_settles (hs : s.Single) (h : s.response co r = .ok s' fx) : s.Settles [] s' fx := by
  unfold response at h
  split at h
  · rename_i σ a hl ha
    split at h
    · cases h
      exact clearId_settles hs co
    · cases h
      refine ⟨⟨(hs.clearId co).1,nodup_keys_assign hs.2 r (some a)⟩,fun addr session _ => ?_⟩
      have hask := asked_once hs hl ha addr session
      have hadd := addResponse_unsettled (hs.clearId co) r ⟨σ,a,true⟩ addr session
      dsimp only at hadd
      rw [answersTo_nil,requestsFrom_nil]
      omega
  · cases h
    exact Quiet.settles hs ⟨rfl,fun _ _ => rfl⟩ []

private theorem useResponse_unsettled {c : Response} {b : Nat} (hs : s.Single) (hr : s.responses r = some c) (hl : s.unresponse.lookup r = some b)
    (addr session : Nat) : (s.useResponse r c).unsettled addr session + (if c.addr = addr ∧ c.session = session then 1 else 0) =
      s.unsettled addr session := by
  have hc := countP_lookup (s.isOwed addr session) hs.2 hl
  have ho := isOwed_other s (s.useResponse r c) r (fun _ hq => Function.update_of_ne hq _ _) addr session
  have hp : s.isOwed addr session (r,b) = true ↔ c.addr = addr ∧ c.session = session := by
    simp [isOwed,hr]
  simp only [hp] at hc
  change s.sessionCoroutineId.countP (s.isAsked addr session) +
    (assign s.unresponse r none).countP ((s.useResponse r c).isOwed addr session) + _ = _
  unfold unsettled
  omega

theorem respond_settles {ok : Bool} {sent : Sent} (hs : s.Single) (h : s.respond r ok sent = .ok s' fx) : s.Settles [] s' fx := by
  have hsingle : ∀ c, (s.useResponse r c).Single := fun c => ⟨hs.1,nodup_keys_assign hs.2 r none⟩
  unfold respond at h
  split at h
  · cases h
    exact Quiet.settles hs ⟨rfl,fun _ _ => rfl⟩ []
  · rename_i c hr
    split at h
    · have hused : ∀ b, s.unresponse.lookup r = some b → ∀ ok, s.Settles [] (s.useResponse r c) [.answer c.addr c.session ok] := by
        intro b hl ok
        refine ⟨hsingle c,fun addr session _ => ?_⟩
        have hu := useResponse_unsettled hs hr hl addr session
        rw [answersTo_answer,requestsFrom_nil]
        omega
      have hnone : s.Settles [] (s.useResponse r c) [] := by
        refine ⟨hsingle c,fun addr session _ => ?_⟩
        have ho := isOwed_other s (s.useResponse r c) r (fun _ hq => Function.update_of_ne hq _ _) addr session
        have hle := countP_remove_le (s.isOwed addr session) s.unresponse r
        rw [answersTo_nil,requestsFrom_nil]
        change 0 + (s.sessionCoroutineId.countP (s.isAsked addr session) +
          (assign s.unresponse r none).countP ((s.useResponse r c).isOwed addr session)) ≤ _
        unfold unsettled
        omega
      split at h
      · cases h
        exact hnone
      · cases h
        exact hnone
      · rename_i hl
        cases h
        exact hused _ hl true
      · rename_i hl
        cases h
        exact hused _ hl false
      · rename_i hl _
        cases h
        exact hused _ hl false
    · cases h
      exact Quiet.settles hs ⟨rfl,fun _ _ => rfl⟩ []

theorem errorDispatch_settles (hs : s.Single) (session source : Nat) (order : List Nat) :
    s.Settles [] (s.errorDispatch session source order) [] := by
  unfold errorDispatch
  split
  · refine ⟨⟨hs.1,hs.2.sublist (List.filter_sublist.map _)⟩,fun addr session _ => ?_⟩
    rw [answersTo_nil,requestsFrom_nil,Nat.zero_add,Nat.add_zero]
    exact Nat.add_le_add_left List.filter_sublist.countP_le _
  · split <;> exact Quiet.settles hs ⟨rfl,fun _ _ => rfl⟩ []

/-- The warning about a forgotten answer is none. -/
theorem finish_settles (hs : s.Single) (h : s.finish co = .ok s' fx) : s.Settles [] s' fx := by
  rw [finish,Act.bind_ok,Act.after_eq_ok] at h
  obtain ⟨fx₂,h,rfl⟩ := h
  have hq := suspend_quiet h
  have hforgot : ∀ addr session, answersTo addr session ((s.unanswered co).toList.map fun r => .forgot r.1 r.2) = 0 := by
    intro addr session
    cases s.unanswered co <;> rfl
  have hclear : s.Settles [] (if (s.sessionCoroutineAddress co).isSome then s.clearRequest co else s)
      ((s.unanswered co).toList.map fun r => .forgot r.1 r.2) := by
    split
    · have hc := clearRequest_settles hs co
      exact ⟨hc.1,fun addr session hz => by rw [hforgot]; simpa [answersTo_nil] using hc.2 addr session hz⟩
    · exact Quiet.settles hs ⟨rfl,hforgot⟩ []
  exact hclear.trans (hq.settles hclear.1 [])

/-- The coroutine that fails is answered for. -/
private theorem unanswered_settles (hs : s.Single) (co : Co) :
    s.Settles [] (s.clearRequest co) ((s.unanswered co).toList.map fun r => .answer r.1 r.2 false) := by
  have hnone := clearRequest_settles hs co
  unfold unanswered
  split
  · rename_i σ a hl ha
    split
    · have h := answered_settles hs hl ha false
      exact ⟨hnone.1,fun addr session hz => by rw [clearRequest_unsettled]; exact h.2 addr session hz⟩
    · exact hnone
  · exact hnone

theorem suspendError_settles (hs : s.Single) (h : s.suspendError co co' = .ok s' fx) : s.Settles [] s' fx := by
  rw [suspendError,Act.bind_ok,Act.after_eq_ok] at h
  obtain ⟨fx₂,h,rfl⟩ := h
  obtain ⟨t,fx₃,fx₄,hco,hf,rfl⟩ := Act.bind_eq_ok.mp h
  have hclear := unanswered_settles hs co
  have h₁ := hclear.trans ((coCreate_quiet hco).settles hclear.1 [])
  have h₂ : t.Settles [] s' fx₄ := (dispatchForks_quiet hf).settles (s := (t.pushFork co').setStatus co .dead) h₁.1 []
  simpa only [List.append_assoc,List.append_nil] using h₁.trans h₂

private theorem clearId_books (h : s'.books = s.books) (co : Co) : (s'.clearId co).books = (s.clearId co).books := by
  simp only [books,clearId,Prod.mk.injEq] at h ⊢
  exact ⟨by rw [h.1],h.2⟩

/-- A request that is ignored at once is none. -/
private theorem ignored_settles (hs : s.Single) (co : Co) (σ source : Nat) : s.Settles [] ((s.setRequest co σ source).clearId co) [] := by
  refine ⟨⟨nodup_keys_assign (nodup_keys_assign hs.1 co (some σ)) co none,hs.2⟩,fun addr session _ => ?_⟩
  have ho := isAsked_other s (s.setRequest co σ source) co (fun _ hc => Function.update_of_ne hc _ _) addr session
  have hle := countP_remove_le (s.isAsked addr session) s.sessionCoroutineId co
  change 0 + ((assign (assign s.sessionCoroutineId co (some σ)) co none).countP ((s.setRequest co σ source).isAsked addr session) +
    s.unresponse.countP (s.isOwed addr session)) ≤ s.unsettled addr session + 0
  rw [remove_assign,ho]
  unfold unsettled
  omega

theorem receive_settles (hs : s.Single) (h : s.receive e = .ok s' fx) : s.Settles [e] s' fx := by
  cases e with
  | response σ =>
    rw [receive] at h
    split at h
    · cases h
      exact Quiet.settles hs ⟨rfl,fun _ _ => rfl⟩ _
    · cases h
      exact Quiet.settles hs ⟨rfl,fun _ _ => rfl⟩ _
    · have hq := coroutineResume_quiet h
      exact Quiet.settles hs hq _
  | request co σ source =>
    obtain ⟨t,fx₁,fx₂,hco,hr,rfl⟩ := Act.bind_eq_ok.mp h
    have h₁ := (coCreate_quiet hco).settles hs []
    have h₂ := h₁.trans (setRequest_settles h₁.1 co σ source)
    simpa using h₂.trans ((coroutineResume_quiet hr).settles h₂.1 [])
  | unknownPrototype σ source =>
    rw [receive] at h
    split at h
    · cases h
      refine ⟨hs,fun addr session _ => ?_⟩
      simp only [answersTo,requestsFrom,List.countP_cons,List.countP_nil]
      omega
    · cases h
      exact Quiet.settles hs ⟨rfl,fun _ _ => rfl⟩ _
  | error co σ source order =>
    obtain ⟨t,fx₁,fx₂,hco,hr,rfl⟩ := Act.bind_eq_ok.mp h
    obtain ⟨u,fx₃,fx₄,hres,hfin,rfl⟩ := Act.bind_eq_ok.mp hr
    have h₁ := (coCreate_quiet hco).settles hs []
    have hq := coroutineResume_quiet hres
    have h₂ : t.Settles [] (u.clearId co) fx₃ := by
      have hi := ignored_settles h₁.1 co σ source
      have hb := clearId_books hq.1 co
      refine ⟨hi.1.congr hb,fun addr session hz => ?_⟩
      rw [hq.2,unsettled_congr hb]
      exact hi.2 addr session hz
    have h₃ := (h₁.trans h₂).trans (errorDispatch_settles (h₁.trans h₂).1 σ source order)
    have h₄ := h₃.trans (finish_settles h₃.1 hfin)
    refine Settles.mono ?_ (List.nil_sublist [Event.error co σ source order])
    simpa only [List.append_assoc,List.append_nil] using h₄
  | _ => cases h

/-- Every step but `skynet.exit`. -/
theorem perform_settles (hs : s.Single) (h : s.perform co e = .ok s' fx) : e = .exit ∨ s.Settles [e] s' fx := by
  have hnil : ∀ {s' : Sched} {fx : List Effect}, s.Settles [] s' fx → s.Settles [e] s' fx := fun hset =>
    hset.mono (List.nil_sublist [e])
  cases e with
  | response _ | unknownPrototype _ _ | request _ _ _ | error _ _ _ _ => cases h
  | call σ addr =>
    rw [perform] at h
    have hq := suspend_quiet h
    exact .inr (Quiet.settles hs hq _)
  | sleep σ tok =>
    rw [perform] at h
    have hq := suspend_quiet h
    exact .inr (Quiet.settles hs hq _)
  | wait σ tok =>
    rw [perform] at h
    have hq := suspend_quiet h
    exact .inr (Quiet.settles hs hq _)
  | wakeup tok =>
    rw [perform] at h
    split at h <;> (cases h; exact .inr (Quiet.settles hs ⟨rfl,fun _ _ => rfl⟩ _))
  | fork co' =>
    obtain ⟨t,fx₁,fx₂,hco,hr,rfl⟩ := Act.bind_eq_ok.mp h
    cases hr
    rw [List.append_nil]
    exact .inr (Quiet.settles hs (coCreate_quiet hco) _)
  | timeout σ co' =>
    obtain ⟨t,fx₁,fx₂,hco,hr,rfl⟩ := Act.bind_eq_ok.mp h
    cases hr
    rw [List.append_nil]
    exact .inr (Quiet.settles hs (coCreate_quiet hco) _)
  | ret sent => exact .inr (hnil (ret_settles hs h))
  | ignoreret =>
    cases h
    exact .inr (hnil (clearId_settles hs co))
  | makeResponse r => exact .inr (hnil (response_settles hs h))
  | respond r ok sent => exact .inr (hnil (respond_settles hs h))
  | term service order =>
    cases h
    have hc := clearId_settles hs co
    exact .inr (hnil (hc.trans (errorDispatch_settles hc.1 0 service order)))
  | finish => exact .inr (hnil (finish_settles hs h))
  | raise co' => exact .inr (hnil (suspendError_settles hs h))
  | exit => exact .inl rfl

/-- `skynet.exit` answers whom it may answer. -/
theorem exit_answers (h : s.exit = .ok s' fx) (addr session : Nat) : answersTo addr session fx ≤ s.unsettled addr session := by
  cases h
  rw [answersTo,List.countP_append,List.countP_filterMap,List.countP_filterMap]
  refine Nat.add_le_add (List.countP_mono_left fun e _ hp => ?_) (List.countP_mono_left fun e _ hp => ?_)
  · split at hp
    · cases hp
    · cases ha : s.sessionCoroutineAddress e.1 with
      | none => simp [ha] at hp
      | some a =>
        simp only [ha,Option.map_some,Option.getD_some,decide_eq_true_eq] at hp
        simp [isAsked,ha,hp.1,hp.2]
  · cases hc : s.responses e.1 with
    | none => simp [hc] at hp
    | some c =>
      simp only [hc,Option.map_some,Option.getD_some,decide_eq_true_eq] at hp
      simp [isOwed,hc,hp.1,hp.2]

/-- Requests that were not answered may still be, until `skynet.exit`. -/
def Accounted (tr : Trace Event Effect) (s : Sched) : Prop :=
  s.Single ∧ ∀ addr session, session ≠ 0 → answersTo addr session (tr.flatMap (·.2)) +
    (if s.control = .exited then 0 else s.unsettled addr session) ≤ requestsFrom addr session (tr.map (·.1))

theorem step_accounted {tr : Trace Event Effect} (hs : s.Accounted tr) (h : s.step e = .ok s' fx) : s'.Accounted (tr ++ [(e,fx)]) := by
  obtain ⟨hsingle,hacc⟩ := hs
  have hset : ∀ addr session, session ≠ 0 → s.control ≠ .exited → s.Settles [e] s' fx →
      answersTo addr session ((tr ++ [(e,fx)]).flatMap (·.2)) + s'.unsettled addr session ≤
        requestsFrom addr session ((tr ++ [(e,fx)]).map (·.1)) := by
    intro addr session hz hx hset
    have h₁ := hacc addr session hz
    have h₂ := hset.2 addr session hz
    rw [if_neg hx] at h₁
    simp only [answersTo_append,requestsFrom_append,List.flatMap_append,List.map_append,List.flatMap_singleton,List.map_singleton]
      at h₁ h₂ ⊢
    omega
  have hsettled : s.control ≠ .exited → s.Settles [e] s' fx → s'.Accounted (tr ++ [(e,fx)]) := by
    refine fun hx hs => ⟨hs.1,fun addr session hz => ?_⟩
    have h' := hset addr session hz hx hs
    split <;> omega
  rw [step] at h
  split at h
  · rename_i hc
    exact hsettled (by simp [hc]) (receive_settles hsingle h)
  · rename_i co hc
    rcases perform_settles hsingle h with rfl | hs
    · refine ⟨?_,fun addr session hz => ?_⟩
      · cases h
        exact ⟨hsingle.1,List.nodup_nil⟩
      · have h₁ := hacc addr session hz
        have h₂ := exit_answers h addr session
        have hx : s'.control = .exited := by
          cases h
          rfl
        rw [if_neg (by simp [hc])] at h₁
        rw [if_pos hx]
        simp only [answersTo_append,requestsFrom_append,List.flatMap_append,List.map_append,List.flatMap_singleton,List.map_singleton]
          at h₁ h₂ ⊢
        omega
    · exact hsettled (by simp [hc]) hs
  · rename_i hc
    cases h
    refine ⟨hsingle,fun addr session hz => ?_⟩
    have h₁ := hacc addr session hz
    simp only [answersTo_append,requestsFrom_append,List.flatMap_append,List.map_append,List.flatMap_singleton,List.map_singleton]
      at h₁ ⊢
    simp only [hc,if_true,answersTo_nil] at h₁ ⊢
    omega

/-- Along every run, whatever the handlers do with `skynet.ret`, `skynet.response`, errors
and `skynet.exit`, a service never sends more answers under a session to an address
than it got requests under that session from there. -/
theorem answered_at_most_once (session₀ : Nat) (co₀ : Co) (tr : Trace Event Effect) (s : Sched) (addr session : Nat) (hz : session ≠ 0)
    (hr : Run step (fun _ _ _ => True) (started session₀ co₀) tr s) :
    answersTo addr session (tr.flatMap (·.2)) ≤ requestsFrom addr session (tr.map (·.1)) := by
  have hacc := hr.invariant (fun tr s => s.Accounted tr) ⟨⟨List.nodup_nil,List.nodup_nil⟩,fun _ _ _ => Nat.le_refl 0⟩
    fun _ _ _ _ _ hs _ he => step_accounted hs he
  exact Nat.le_trans (Nat.le_add_right _ _) (hacc.2 addr session hz)

/-- A handler takes a closure, sleeps, raises an error behind it, and the closure is used
twice. The other request with this number is not answered. -/
theorem answered_at_most_once_closure : ∃ (tr : Trace Event Effect) (s : Sched),
    Run step (fun _ _ _ => True) (started 1 0) tr s ∧ answersTo 7 5 (tr.flatMap (·.2)) = 1 ∧
      answersTo 7 5 (tr.flatMap (·.2)) ≤ requestsFrom 7 5 (tr.map (·.1)) := by
  have hcheck : runCheck step (fun _ _ _ => True) (fun tr _ => answersTo 7 5 (tr.flatMap (·.2)) = 1)
      [.response 1,.finish,.request 1 5 7,.makeResponse 3,.fork 2,.raise 3,.respond 3 true .delivered,.respond 3 false .delivered,
        .finish,.finish,.request 4 5 7,.ignoreret,.finish] [] (started 1 0) = true := by decide
  obtain ⟨tr,s,hr,_,h⟩ := Run.of_runCheck hcheck
  exact ⟨tr,s,hr,h,answered_at_most_once 1 0 tr s 7 5 (by decide) hr⟩

end Sched
end MyProgram.SkynetLua
