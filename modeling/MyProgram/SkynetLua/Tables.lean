import MyProgram.Lib.Runs
import MyProgram.SkynetLua.Scheduler

/-! The tables of the scheduler agree with the coroutines. -/
namespace MyProgram.SkynetLua
open Lib

/-- What a coroutine sleeps on. -/
def Status.token : Status → Option Token
  | .sleep _ token | .wait _ token => some token
  | .unborn | .ready | .timer _ | .running | .call _ | .pooled | .dead => none

namespace Sched

/-- Every suspended coroutine is found under its session and under no other, a sleeping
one by its token, a calling one among the watched sessions; the failures to be
delivered belong to calls; the forks to be started are ready; `run` alone runs. -/
structure Tables (s : Sched) (run : Option Co) : Prop where
  session : ∀ σ co, s.sessionIdCoroutine σ = some (.thread co) ↔ (s.status co).session = some σ
  asleep : ∀ tok σ, s.sleepSession tok = some σ ↔ ∃ co, (s.status co).token = some tok ∧ (s.status co).session = some σ
  watching : ∀ σ, σ ∈ s.watchingSession.map (·.1) ↔ ∃ co, s.status co = .call σ
  watchNodup : (s.watchingSession.map (·.1)).Nodup
  failing : ∀ σ ∈ s.errorQueue, ∃ co, s.status co = .call σ
  failNodup : s.errorQueue.Nodup
  forks : ∀ co, co ∈ s.forkQueue ↔ s.status co = .ready
  forkNodup : s.forkQueue.Nodup
  running : ∀ co, s.status co = .running ↔ run = some co

/-- Nothing is left to be delivered. -/
def Drained (s : Sched) : Prop := s.wakeupQueue = [] ∧ s.errorQueue = [] ∧ s.forkQueue = []

def Inv (s : Sched) : Prop :=
  match s.control with
  | .idle => s.Tables none ∧ s.Drained
  | .running co => s.Tables (some co)
  | .exited => True

/-- The tables that the scheduler itself needs. -/
def core (s : Sched) : (Nat → Option Slot) × (Token → Option Nat) × List (Nat × Nat) × List Nat × List Co × (Co → Status) :=
  (s.sessionIdCoroutine,s.sleepSession,s.watchingSession,s.errorQueue,s.forkQueue,s.status)

/-- Who wants an answer from whom. -/
def books (s : Sched) : List (Co × Nat) × (Co → Option Nat) × List (Nat × Nat) × (Nat → Option Response) :=
  (s.sessionCoroutineId,s.sessionCoroutineAddress,s.unresponse,s.responses)

/-- Where the control is when a coroutine has yielded: with another coroutine that was
resumed, or on the C side with nothing left to deliver. -/
structure Went (s s' : Sched) (fx : List Effect) : Prop where
  books : s'.books = s.books
  control : (∃ co how, s'.control = .running co ∧ s'.Tables (some co) ∧ fx = [.resume co how]) ∨
    s'.control = .idle ∧ s'.Tables none ∧ s'.Drained ∧ fx = []

variable {s s' : Sched} {run : Option Co} {co co' : Co} {σ σ' : Nat} {v : Option Slot} {how : Wake} {q : List Nat}

theorem Went.inv {fx : List Effect} (h : Went s s' fx) : s'.Inv := by
  obtain ⟨_,⟨co,how,hc,ht,_⟩ | ⟨hc,ht,hd,_⟩⟩ := h
  · rw [Inv,hc]
    exact ht
  · rw [Inv,hc]
    exact ⟨ht,hd⟩

/-- The coroutine that waits for a session was resumed. -/
def awakened (s : Sched) (co : Co) (σ : Nat) (v : Option Slot) : Sched := { s with
  sessionIdCoroutine := Function.update s.sessionIdCoroutine σ v
  sleepSession := match (s.status co).token with
    | some tok => Function.update s.sleepSession tok none
    | none => s.sleepSession
  watchingSession := if s.status co = .call σ then assign s.watchingSession σ none else s.watchingSession
  status := Function.update s.status co .running
  control := .running co }

namespace Tables

/-- One coroutine for a session. -/
theorem unique (h : s.Tables run) (hc : (s.status co).session = some σ) (hc' : (s.status co').session = some σ) : co = co' := by
  have he := ((h.session σ co).mpr hc).symm.trans ((h.session σ co').mpr hc')
  cases he
  rfl

/-- One coroutine changes its place, and the tables follow. -/
structure Move (s s' : Sched) (co : Co) (new : Status) : Prop where
  status : s'.status = Function.update s.status co new
  session : ∀ σ co', s'.sessionIdCoroutine σ = some (.thread co') ↔
    if co' = co then new.session = some σ else s.sessionIdCoroutine σ = some (.thread co')
  asleep : ∀ tok σ, s'.sleepSession tok = some σ ↔ new.token = some tok ∧ new.session = some σ ∨
    s.sleepSession tok = some σ ∧ ¬((s.status co).token = some tok ∧ (s.status co).session = some σ)
  watching : ∀ σ, σ ∈ s'.watchingSession.map (·.1) ↔ new = .call σ ∨ σ ∈ s.watchingSession.map (·.1) ∧ s.status co ≠ .call σ
  watchNodup : (s'.watchingSession.map (·.1)).Nodup
  failing : ∀ σ ∈ s'.errorQueue, σ ∈ s.errorQueue ∧ s.status co ≠ .call σ
  failNodup : s'.errorQueue.Nodup
  forks : ∀ co', co' ∈ s'.forkQueue ↔ if co' = co then new = .ready else co' ∈ s.forkQueue
  forkNodup : s'.forkQueue.Nodup

theorem move {new : Status} (h : s.Tables run) (hm : Move s s' co new) {run' : Option Co}
    (hr : ∀ co', run' = some co' ↔ if co' = co then new = .running else run = some co') : s'.Tables run' := by
  have hst : ∀ co', s'.status co' = if co' = co then new else s.status co' := by
    intro co'
    rw [hm.status]
    exact Function.update_apply _ _ _ _
  refine ⟨fun σ co' => ?_,fun tok σ => ?_,fun σ => ?_,hm.watchNodup,fun σ hσ => ?_,hm.failNodup,fun co' => ?_,hm.forkNodup,fun co' => ?_⟩
  · rw [hm.session,hst]
    split
    · rfl
    · exact h.session σ co'
  · rw [hm.asleep,h.asleep]
    constructor
    · rintro (hn | ⟨⟨co',ht,hs⟩,hne⟩)
      · exact ⟨co,by rw [hst,if_pos rfl]; exact hn⟩
      · refine ⟨co',?_⟩
        rw [hst,if_neg]
        · exact ⟨ht,hs⟩
        · rintro rfl
          exact hne ⟨ht,hs⟩
    · rintro ⟨co',ht,hs⟩
      rw [hst] at ht hs
      by_cases hc : co' = co
      · rw [if_pos hc] at ht hs
        exact .inl ⟨ht,hs⟩
      · rw [if_neg hc] at ht hs
        exact .inr ⟨⟨co',ht,hs⟩,fun hne => hc (h.unique hs hne.2)⟩
  · rw [hm.watching,h.watching]
    constructor
    · rintro (hn | ⟨⟨co',hc'⟩,hne⟩)
      · exact ⟨co,by rw [hst,if_pos rfl]; exact hn⟩
      · refine ⟨co',?_⟩
        rw [hst,if_neg]
        · exact hc'
        · rintro rfl
          exact hne hc'
    · rintro ⟨co',hc'⟩
      rw [hst] at hc'
      by_cases hc : co' = co
      · rw [if_pos hc] at hc'
        exact .inl hc'
      · rw [if_neg hc] at hc'
        exact .inr ⟨⟨co',hc'⟩,fun hne => hc (h.unique (congrArg Status.session hc') (congrArg Status.session hne))⟩
  · obtain ⟨hσ,hne⟩ := hm.failing σ hσ
    obtain ⟨co',hc'⟩ := h.failing σ hσ
    refine ⟨co',?_⟩
    rw [hst,if_neg]
    · exact hc'
    · rintro rfl
      exact hne hc'
  · rw [hm.forks,hst]
    split
    · rfl
    · exact h.forks co'
  · rw [hst,hr]
    split
    · rfl
    · exact h.running co'

/-- No other coroutine is found under the session. -/
private theorem session_cleared (h : s.Tables run) (hc : (s.status co).session = some σ) (hv : ∀ co, v ≠ some (.thread co)) (σ' : Nat)
    (co' : Co) : Function.update s.sessionIdCoroutine σ v σ' = some (.thread co') ↔
      if co' = co then Status.running.session = some σ' else s.sessionIdCoroutine σ' = some (.thread co') := by
  rw [Function.update_apply]
  by_cases hσ : σ' = σ
  · rw [if_pos hσ,hσ]
    by_cases hco : co' = co
    · simp [hco,hv,Status.session]
    · simp only [hv,if_neg hco,false_iff]
      exact fun he => hco (h.unique ((h.session σ co').mp he) hc)
  · rw [if_neg hσ]
    split
    · rename_i hco
      rw [hco,h.session,hc]
      simp [Status.session,Ne.symm hσ]
    · rfl

private theorem token_cleared (h : s.Tables run) (hc : (s.status co).session = some σ) (tok' : Token) (σ' : Nat) :
    (match (s.status co).token with
      | some tok => Function.update s.sleepSession tok none
      | none => s.sleepSession) tok' = some σ' ↔
      Status.running.token = some tok' ∧ Status.running.session = some σ' ∨
        s.sleepSession tok' = some σ' ∧ ¬((s.status co).token = some tok' ∧ (s.status co).session = some σ') := by
  cases ht : (s.status co).token with
  | none => simp [Status.token]
  | some tok =>
    have hs : s.sleepSession tok = some σ := (h.asleep tok σ).mpr ⟨co,ht,hc⟩
    rw [hc]
    by_cases htok : tok' = tok
    · rw [htok,hs]
      simp [Status.token]
    · simp only [Function.update_of_ne htok]
      simp [Status.token,Ne.symm htok]

private theorem watching_cleared (s : Sched) (σ : Nat) (hc : (s.status co).session = some σ) (σ' : Nat) :
    σ' ∈ (if s.status co = .call σ then assign s.watchingSession σ none else s.watchingSession).map (·.1) ↔
      Status.running = .call σ' ∨ σ' ∈ s.watchingSession.map (·.1) ∧ s.status co ≠ .call σ' := by
  by_cases hcall : s.status co = .call σ
  · rw [if_pos hcall,hcall,assign]
    constructor
    · intro hm
      obtain ⟨e,he,rfl⟩ := List.mem_map.mp hm
      obtain ⟨he,hne⟩ := List.mem_filter.mp he
      refine .inr ⟨List.mem_map.mpr ⟨e,he,rfl⟩,fun hce => ?_⟩
      cases hce
      simp at hne
    · rintro (hr | ⟨hm,hne⟩)
      · cases hr
      · obtain ⟨e,he,rfl⟩ := List.mem_map.mp hm
        refine List.mem_map.mpr ⟨e,List.mem_filter.mpr ⟨he,decide_eq_true fun hce => hne ?_⟩,rfl⟩
        rw [hce]
  · rw [if_neg hcall]
    have hne : s.status co ≠ .call σ' := by
      intro hce
      rw [hce] at hc
      cases hc
      exact hcall hce
    simp [hne]

/-- Behind `skynet.wait` the session is forgotten. -/
theorem coroutineResume_eq (hc : (s.status co).session = some σ) (v : Option Slot) (how : Wake) :
    ∃ w, (w = v ∨ w = none) ∧ (s.setSession σ v).coroutineResume co how = .ok (s.awakened co σ w) [.resume co how] := by
  cases hst : s.status co with
  | timer τ => exact ⟨v,.inl rfl,by simp [coroutineResume,setSession,setStatus,awakened,hst,Status.token]⟩
  | call τ =>
    rw [hst] at hc
    cases hc
    exact ⟨v,.inl rfl,by simp [coroutineResume,setSession,setStatus,awakened,hst,Status.token,unwatch]⟩
  | sleep τ tok =>
    exact ⟨v,.inl rfl,by simp [coroutineResume,setSession,setStatus,awakened,hst,Status.token,setSleep]⟩
  | wait τ tok =>
    rw [hst] at hc
    cases hc
    exact ⟨none,.inr rfl,by simp [coroutineResume,setSession,setStatus,awakened,hst,Status.token,setSleep]⟩
  | unborn | ready | running | pooled | dead =>
    rw [hst] at hc
    cases hc

/-- The tables behind it. -/
theorem awakened (h : s.Tables none) (hc : (s.status co).session = some σ) (hv : ∀ co, v ≠ some (.thread co)) (hf : σ ∉ s.errorQueue) :
    (s.awakened co σ v).Tables (some co) := by
  have hm : Move s (s.awakened co σ v) co .running := by
    refine ⟨rfl,h.session_cleared hc hv,h.token_cleared hc,watching_cleared s σ hc,?_,?_,h.failNodup,?_,h.forkNodup⟩
    · unfold Sched.awakened
      dsimp only
      split
      · exact h.watchNodup.sublist (List.filter_sublist.map _)
      · exact h.watchNodup
    · refine fun σ' hσ => ⟨hσ,fun hce => ?_⟩
      rw [hce] at hc
      cases hc
      exact hf hσ
    · intro co'
      split
      · rename_i hco
        rw [hco]
        refine ⟨fun hr => ?_,fun hr => by cases hr⟩
        rw [(h.forks co).mp hr] at hc
        cases hc
      · rfl
  refine h.move hm fun co' => ?_
  by_cases hco : co' = co
  · simp [hco]
  · simp [hco,Ne.symm hco]

/-- The tables do not speak of the control, the tokens to be woken and the books. -/
theorem congr (h : s.Tables run) (hc : s'.core = s.core) : s'.Tables run := by
  simp only [core,Prod.mk.injEq] at hc
  obtain ⟨hse,hsl,hw,he,hf,hst⟩ := hc
  refine ⟨?_,?_,?_,?_,?_,?_,?_,?_,?_⟩
  · simpa only [hse,hst] using h.session
  · simpa only [hsl,hst] using h.asleep
  · simpa only [hw,hst] using h.watching
  · simpa only [hw] using h.watchNodup
  · simpa only [he,hst] using h.failing
  · simpa only [he] using h.failNodup
  · simpa only [hf,hst] using h.forks
  · simpa only [hf] using h.forkNodup
  · simpa only [hst] using h.running

/-- The resumption that a message, a wakeup or a failure leads to. -/
theorem resume (h : s.Tables none) (hs : s.sessionIdCoroutine σ = some (.thread co)) (hv : ∀ co, v ≠ some (.thread co))
    (hf : σ ∉ s.errorQueue) (how : Wake) : ∃ s', (s.setSession σ v).coroutineResume co how = .ok s' [.resume co how] ∧
      Went s s' [.resume co how] ∧ s'.status = Function.update s.status co .running ∧ s'.wakeupQueue = s.wakeupQueue ∧
      s'.errorQueue = s.errorQueue ∧ s'.forkQueue = s.forkQueue := by
  have hc := (h.session σ co).mp hs
  obtain ⟨w,hw,he⟩ := coroutineResume_eq hc v how
  have hw' : ∀ co, w ≠ some (.thread co) := by
    rcases hw with rfl | rfl
    · exact hv
    · simp
  exact ⟨_,he,⟨rfl,.inl ⟨co,how,rfl,h.awakened hc hw' hf,rfl⟩⟩,rfl,rfl,rfl,rfl⟩

/-- The forked coroutine at the front is started. -/
theorem start {l : List Co} (h : s.Tables none) (hl : s.forkQueue = co :: l) (how : Wake) :
    ∃ s', { s with forkQueue := l }.coroutineResume co how = .ok s' [.resume co how] ∧ Went s s' [.resume co how] ∧
      s'.status = Function.update s.status co .running ∧ s'.wakeupQueue = s.wakeupQueue ∧ s'.errorQueue = s.errorQueue ∧
      s'.forkQueue = l := by
  have hst : s.status co = .ready := (h.forks co).mp (by rw [hl]; exact List.mem_cons_self)
  have hnd := h.forkNodup
  rw [hl] at hnd
  obtain ⟨hco,hnd⟩ := List.nodup_cons.mp hnd
  have hm : Move s { s with forkQueue := l, status := Function.update s.status co .running, control := .running co } co .running := by
    refine ⟨rfl,fun σ co' => ?_,fun tok σ => ?_,fun σ => ?_,h.watchNodup,fun σ hσ => ⟨hσ,by simp [hst]⟩,h.failNodup,fun co' => ?_,hnd⟩
    · split
      · rename_i he
        simp [he,h.session,hst,Status.session]
      · rfl
    · simp [hst,Status.token]
    · simp [hst]
    · split
      · rename_i he
        simpa [he] using hco
      · rename_i he
        simp [hl,he]
  refine ⟨{ s with forkQueue := l, status := Function.update s.status co .running, control := .running co },?_,
    ⟨rfl,.inl ⟨co,how,rfl,h.move hm fun co' => ?_,rfl⟩⟩,rfl,rfl,rfl,rfl⟩
  · simp only [coroutineResume,hst]
    rfl
  · by_cases he : co' = co
    · simp [he]
    · simp [he,Ne.symm he]

theorem dispatchForks_spec (h : s.Tables none) (hq : s.forkQueue = [] → s.wakeupQueue = [] ∧ s.errorQueue = []) :
    ∃ s' fx, s.dispatchForks = .ok s' fx ∧ Went s s' fx := by
  unfold dispatchForks
  split
  · rename_i hl
    exact ⟨_,_,rfl,rfl,.inr ⟨rfl,h.congr rfl,⟨(hq hl).1,(hq hl).2,hl⟩,rfl⟩⟩
  · rename_i co l hl
    obtain ⟨s',he,hw,_⟩ := h.start hl .start
    exact ⟨s',_,he,hw⟩

/-- The call at the front fails. -/
theorem failNext {l : List Nat} (h : s.Tables none) (hl : s.errorQueue = σ :: l) : ∃ co s', s.status co = .call σ ∧
    s.dispatchErrorQueue = .ok s' [.resume co (.failure σ)] ∧ Went s s' [.resume co (.failure σ)] ∧
      s'.status = Function.update s.status co .running ∧ s'.wakeupQueue = s.wakeupQueue ∧ s'.errorQueue = l ∧
      s'.forkQueue = s.forkQueue := by
  obtain ⟨co,hco⟩ := h.failing σ (by rw [hl]; exact List.mem_cons_self)
  have hs : s.sessionIdCoroutine σ = some (.thread co) := (h.session σ co).mpr (by rw [hco]; rfl)
  have hnd := h.failNodup
  rw [hl] at hnd
  obtain ⟨hσ,hnd⟩ := List.nodup_cons.mp hnd
  have h' : { s with errorQueue := l }.Tables none :=
    ⟨h.session,h.asleep,h.watching,h.watchNodup,fun τ hτ => h.failing τ (by rw [hl]; exact List.mem_cons_of_mem _ hτ),hnd,h.forks,
      h.forkNodup,h.running⟩
  obtain ⟨s',he,hw,hrest⟩ := h'.resume (v := none) hs (by simp) hσ (.failure σ)
  refine ⟨co,s',hco,?_,⟨hw.books,hw.control⟩,hrest⟩
  unfold dispatchErrorQueue
  rw [hl]
  simp only [hs]
  exact he

/-- The sleeper behind the token at the front is woken. -/
theorem wakeNext {tok : Token} (h : s.Tables none) (hs : s.sleepSession tok = some σ) (l : List Token) : ∃ co s',
    (s.status co).token = some tok ∧ (s.status co).session = some σ ∧ s.dispatchWakeup (tok :: l) = .ok s' [.resume co (.wakeup σ)] ∧
      Went s s' [.resume co (.wakeup σ)] ∧ s'.status = Function.update s.status co .running ∧ s'.wakeupQueue = l ∧
      s'.errorQueue = s.errorQueue ∧ s'.forkQueue = s.forkQueue := by
  obtain ⟨co,htok,hco⟩ := (h.asleep tok σ).mp hs
  have hses := (h.session σ co).mpr hco
  have hσ : σ ∉ s.errorQueue := by
    intro hm
    obtain ⟨co',hco'⟩ := h.failing σ hm
    have he : co = co' := h.unique hco (by rw [hco']; rfl)
    rw [he,hco'] at htok
    cases htok
  have h' : { s with wakeupQueue := l }.Tables none := h.congr rfl
  obtain ⟨s',he,hw,hrest⟩ := h'.resume (v := some .broken) hses (by simp) hσ (.wakeup σ)
  refine ⟨co,s',htok,hco,?_,⟨hw.books,hw.control⟩,hrest⟩
  rw [dispatchWakeup]
  simp only [hs,hses]
  exact he

theorem dispatchErrorQueue_spec (h : s.Tables none) (hq : s.wakeupQueue = []) : ∃ s' fx, s.dispatchErrorQueue = .ok s' fx ∧ Went s s' fx := by
  cases hl : s.errorQueue with
  | nil =>
    obtain ⟨s',fx,he,hw⟩ := h.dispatchForks_spec fun _ => ⟨hq,hl⟩
    refine ⟨s',fx,?_,hw⟩
    rw [dispatchErrorQueue,hl]
    exact he
  | cons σ l =>
    obtain ⟨co,s',_,he,hw,_⟩ := h.failNext hl
    exact ⟨s',_,he,hw⟩

theorem dispatchWakeup_spec (h : s.Tables none) (l : List Token) : ∃ s' fx, s.dispatchWakeup l = .ok s' fx ∧ Went s s' fx := by
  induction l with
  | nil =>
    have h' : { s with wakeupQueue := [] }.Tables none := h.congr rfl
    obtain ⟨s',fx,he,hw⟩ := h'.dispatchErrorQueue_spec rfl
    exact ⟨s',fx,he,hw.books,hw.control⟩
  | cons tok l ih =>
    cases hs : s.sleepSession tok with
    | none =>
      rw [dispatchWakeup,hs]
      exact ih
    | some σ =>
      obtain ⟨co,s',_,_,he,hw,_⟩ := h.wakeNext hs l
      exact ⟨s',_,he,hw⟩

theorem token_none {st : Status} (h : st.session = none) : st.token = none := by
  cases st <;> first | rfl | cases h

/-- A coroutine goes where no session finds it. -/
theorem place {new : Status} {l : List Co} {run' : Option Co} (h : s.Tables run) (hs : (s.status co).session = none) (hn : new.session = none)
    (hl : ∀ co', co' ∈ l ↔ if co' = co then new = .ready else co' ∈ s.forkQueue) (hnd : l.Nodup)
    (hr : ∀ co', run' = some co' ↔ if co' = co then new = .running else run = some co') :
    { s with forkQueue := l, status := Function.update s.status co new }.Tables run' := by
  have hcall : ∀ {st : Status} {σ : Nat}, st.session = none → st ≠ .call σ := by
    rintro st σ hst rfl
    cases hst
  have hm : Move s { s with forkQueue := l, status := Function.update s.status co new } co new := by
    refine ⟨rfl,fun σ co' => ?_,fun tok σ => ?_,fun σ => ?_,h.watchNodup,fun σ hσ => ⟨hσ,hcall hs⟩,h.failNodup,hl,hnd⟩
    · split
      · rename_i he
        rw [he,h.session,hs,hn]
      · rfl
    · simp [token_none hs,token_none hn]
    · simp [hcall hs,hcall hn]
  exact h.move hm hr

/-- A new coroutine is in no table. -/
theorem available (hc : s.Available co) : (s.status co).session = none ∧ s.status co ≠ .ready ∧ s.status co ≠ .running := by
  rcases hc with hc | hc <;> simp [hc,Status.session]

theorem coCreate_eq (hc : s.Available co) (v : Status) : s.coCreate co v = .ok (s.setStatus co v) [] := by
  rcases hc with hc | hc <;> simp [coCreate,hc]

/-- The running coroutine leaves for the pool or for good. -/
theorem leave {new : Status} (h : s.Tables (some co)) (hn : new.session = none) (hr : new ≠ .ready) (hr' : new ≠ .running) :
    (s.setStatus co new).Tables none := by
  have hst : s.status co = .running := (h.running co).mpr rfl
  refine h.place (by rw [hst]; rfl) hn (fun co' => ?_) h.forkNodup fun co' => ?_
  · split
    · rename_i he
      simp [he,h.forks,hst,hr]
    · rfl
  · by_cases he : co' = co
    · simp [he,hr']
    · simp [he,Ne.symm he]

/-- A coroutine is created for the fork queue. -/
theorem forked (h : s.Tables run) (hc : s.Available co) :
    ((s.setStatus co .ready).pushFork co).Tables run := by
  obtain ⟨hs,hne,hne'⟩ := available hc
  have hco : co ∉ s.forkQueue := fun hm => hne ((h.forks co).mp hm)
  have hnd : (s.forkQueue ++ [co]).Nodup := List.nodup_append.mpr ⟨h.forkNodup,by simp,fun a ha b hb he => hco (by
    rw [List.mem_singleton.mp hb] at he
    exact he ▸ ha)⟩
  refine h.place hs rfl (fun co' => ?_) hnd fun co' => ?_
  · by_cases he : co' = co
    · simp [he]
    · simp [he,setStatus]
  · split
    · rename_i he
      rw [he,← h.running]
      simp [hne']
    · rfl

/-- A coroutine is created and started at once. -/
theorem entered (h : s.Tables none) (hc : s.Available co) : (s.setStatus co .running).Tables (some co) := by
  obtain ⟨hs,hne,_⟩ := available hc
  refine h.place hs rfl (fun co' => ?_) h.forkNodup fun co' => ?_
  · split
    · rename_i he
      simp [he,h.forks,hne]
    · rfl
  · by_cases he : co' = co
    · simp [he]
    · simp [he,Ne.symm he]

/-- No coroutine is found under a fresh number. -/
theorem fresh_notMem (h : s.Tables run) (hf : s.FreshSession σ) : σ ∉ s.watchingSession.map (·.1) := by
  intro hm
  obtain ⟨co,hco⟩ := (h.watching σ).mp hm
  have hs := (h.session σ co).mpr (by rw [hco]; rfl)
  rw [hf.2] at hs
  cases hs

/-- A coroutine without session gets one. -/
private theorem session_taken {new : Status} (h : s.Tables run) (hs : (s.status co).session = none) (hf : s.FreshSession σ)
    (hn : new.session = some σ) (σ' : Nat) (co' : Co) : Function.update s.sessionIdCoroutine σ (some (.thread co)) σ' = some (.thread co') ↔
      if co' = co then new.session = some σ' else s.sessionIdCoroutine σ' = some (.thread co') := by
  rw [Function.update_apply,hn]
  by_cases hσ : σ' = σ
  · rw [if_pos hσ,hσ]
    by_cases he : co' = co
    · simp [he]
    · simp [he,Ne.symm he,hf.2]
  · rw [if_neg hσ]
    split
    · rename_i he
      rw [he,h.session,hs]
      simp [Ne.symm hσ]
    · rfl

/-- The running coroutine goes to sleep. -/
theorem slept {tok : Token} {new : Status} (h : s.Tables (some co)) (hf : s.FreshSession σ) (ht : s.sleepSession tok = none)
    (hn : new = .sleep σ tok ∨ new = .wait σ tok) :
    (((s.setSession σ (some (.thread co))).setSleep tok (some σ)).setStatus co new).Tables none := by
  have hst : s.status co = .running := (h.running co).mpr rfl
  have hn' : new.session = some σ ∧ new.token = some tok ∧ new ≠ .ready ∧ new ≠ .running ∧ ∀ τ, new ≠ .call τ := by
    rcases hn with rfl | rfl <;> simp [Status.session,Status.token]
  have hm : Move s (((s.setSession σ (some (.thread co))).setSleep tok (some σ)).setStatus co new) co new := by
    refine ⟨rfl,h.session_taken (by rw [hst]; rfl) hf hn'.1,fun tok' σ' => ?_,fun τ => ?_,h.watchNodup,fun τ hτ => ⟨hτ,by simp [hst]⟩,
      h.failNodup,fun co' => ?_,h.forkNodup⟩
    · change Function.update s.sleepSession tok (some σ) tok' = some σ' ↔ _
      rw [Function.update_apply,hn'.1,hn'.2.1,hst]
      by_cases he : tok' = tok
      · simp [he,ht,Status.token]
      · simp [he,Ne.symm he,Status.token]
    · simp [hst,hn'.2.2.2.2 τ,setStatus,setSleep,setSession]
    · split
      · rename_i he
        simp [he,hn'.2.2.1,setStatus,setSleep,setSession,h.forks,hst]
      · rfl
  refine h.move hm fun co' => ?_
  by_cases he : co' = co
  · simp [he,hn'.2.2.2.1]
  · simp [he,Ne.symm he]

/-- The running coroutine waits for the answer to a call. -/
theorem called (h : s.Tables (some co)) (hf : s.FreshSession σ) (addr : Nat) :
    (({ s with watchingSession := assign s.watchingSession σ (some addr) }.setSession σ (some (.thread co))).setStatus co (.call σ)).Tables
      none := by
  have hst : s.status co = .running := (h.running co).mpr rfl
  have hσ := h.fresh_notMem hf
  have hm : Move s (({ s with watchingSession := assign s.watchingSession σ (some addr) }.setSession σ (some (.thread co))).setStatus co
      (.call σ)) co (.call σ) := by
    refine ⟨rfl,h.session_taken (by rw [hst]; rfl) hf rfl,fun tok' σ' => ?_,fun τ => ?_,?_,fun τ hτ => ⟨hτ,by simp [hst]⟩,
      h.failNodup,fun co' => ?_,h.forkNodup⟩
    · simp [hst,Status.token,setStatus,setSession]
    · simp only [setStatus,setSession,hst,assign_of_notMem hσ]
      simp [eq_comm,or_comm]
    · simp only [setStatus,setSession,assign_of_notMem hσ,List.map_append]
      refine List.nodup_append.mpr ⟨h.watchNodup,by simp,fun a ha b hb he => hσ ?_⟩
      rw [List.map_singleton,List.mem_singleton] at hb
      rwa [he,hb] at ha
    · split
      · rename_i he
        simp [he,setStatus,setSession,h.forks,hst]
      · rfl
  refine h.move hm fun co' => ?_
  by_cases he : co' = co
  · simp [he]
  · simp [he,Ne.symm he]

/-- A coroutine is created for a timer. -/
theorem timed (h : s.Tables run) (hc : s.Available co) (hf : s.FreshSession σ) :
    ((s.setStatus co (.timer σ)).setSession σ (some (.thread co))).Tables run := by
  obtain ⟨hs,hne,hne'⟩ := available hc
  have hcall : ∀ τ, s.status co ≠ .call τ := by
    intro τ he
    rw [he] at hs
    cases hs
  have hm : Move s ((s.setStatus co (.timer σ)).setSession σ (some (.thread co))) co (.timer σ) := by
    refine ⟨rfl,h.session_taken hs hf rfl,fun tok' σ' => ?_,fun τ => ?_,h.watchNodup,fun τ hτ => ⟨hτ,hcall τ⟩,h.failNodup,fun co' => ?_,
      h.forkNodup⟩
    · rw [token_none hs,hs]
      simp [Status.token,setStatus,setSession]
    · simp [hcall τ,setStatus,setSession]
    · split
      · rename_i he
        simp [he,setStatus,setSession,h.forks,hne]
      · rfl
  refine h.move hm fun co' => ?_
  split
  · rename_i he
    rw [he,← h.running]
    simp [hne']
  · rfl

/-- More failures are to be delivered. -/
theorem errorDispatch (h : s.Tables run) {session source : Nat} {order : List Nat}
    (hp : session = 0 → s.InSomeOrder source order ∧ ∀ τ ∈ s.errorQueue, τ ∉ order) (hd : session ≠ 0 → session ∉ s.errorQueue) :
    (s.errorDispatch session source order).Tables run := by
  have hadd : ∀ l : List Nat, l.Nodup → (∀ τ ∈ l, τ ∈ s.watchingSession.map (·.1)) → (∀ τ ∈ s.errorQueue, τ ∉ l) →
      ∀ u, { s with unresponse := u, errorQueue := s.errorQueue ++ l }.Tables run := by
    intro l hl hw hd u
    refine ⟨h.session,h.asleep,h.watching,h.watchNodup,fun τ hτ => ?_,?_,h.forks,h.forkNodup,h.running⟩
    · rcases List.mem_append.mp hτ with hτ | hτ
      · exact h.failing τ hτ
      · exact (h.watching τ).mp (hw τ hτ)
    · exact List.nodup_append.mpr ⟨h.failNodup,hl,fun a ha b hb he => hd a ha (he ▸ hb)⟩
  unfold Sched.errorDispatch
  split
  · rename_i hz
    have hw : ∀ τ ∈ s.watched source, τ ∈ s.watchingSession.map (·.1) := by
      intro τ hτ
      obtain ⟨e,he,rfl⟩ := List.mem_map.mp hτ
      exact List.mem_map.mpr ⟨e,List.mem_of_mem_filter he,rfl⟩
    have hnd : (s.watched source).Nodup := h.watchNodup.sublist (List.filter_sublist.map _)
    obtain ⟨hp,hd⟩ := hp hz
    have hp : order.Perm (s.watched source) := List.isPerm_iff.mp hp
    exact hadd order (hp.nodup_iff.mpr hnd) (fun τ hτ => hw τ (hp.mem_iff.mp hτ)) hd _
  · rename_i hz
    split
    · rename_i hw
      refine hadd [session] (by simp) (by simpa using hw) (fun τ hτ hm => hd hz ?_) s.unresponse
      rwa [← List.mem_singleton.mp hm]
    · exact h

end Tables

variable {fx : List Effect} {e : Event}

/-- The coroutine yields and the others get their turn. -/
theorem suspend_spec {new : Status} (h : (s.setStatus co new).Tables none) : ∃ s' fx, s.suspend co new = .ok s' fx ∧
    Went (s.setStatus co new) s' fx := h.dispatchWakeup_spec s.wakeupQueue

theorem finish_spec (h : s.Tables (some co)) : ∃ s' fx, s.finish co = .ok s' fx ∧ s'.Inv := by
  have hleft : ((if (s.sessionCoroutineAddress co).isSome then s.clearRequest co else s).setStatus co .pooled).Tables none := by
    refine (h.congr ?_).leave rfl (by simp) (by simp)
    split <;> rfl
  obtain ⟨s',fx,he,hw⟩ := suspend_spec hleft
  refine ⟨s',((s.unanswered co).toList.map fun r => Effect.forgot r.1 r.2) ++ fx,?_,hw.inv⟩
  rw [finish,Act.bind_ok,he,Act.after_ok]

/-- A coroutine dies of an error and the empty function is forked. -/
theorem Tables.raised (h : s.Tables (some co)) (hc : s.Available co') :
    ((((s.clearRequest co).setStatus co' .ready).pushFork co').setStatus co .dead).Tables none := by
  have h₁ : (s.clearRequest co).Tables (some co) := h.congr rfl
  have h₂ : (((s.clearRequest co).setStatus co' .ready).pushFork co').Tables (some co) := h₁.forked hc
  exact h₂.leave rfl (by simp) (by simp)

theorem suspendError_eq (co : Co) (hc : s.Available co') : s.suspendError co co' =
    ((((s.clearRequest co).setStatus co' .ready).pushFork co').setStatus co .dead).dispatchForks.after
      ((s.unanswered co).toList.map fun r => .answer r.1 r.2 false) := by
  rw [suspendError,Act.bind_ok,Tables.coCreate_eq (s := s.clearRequest co) hc,Act.bind_ok,Act.after_nil]

theorem suspendError_spec (h : s.Tables (some co)) (hc : s.Available co') : ∃ s' fx, s.suspendError co co' = .ok s' fx ∧ s'.Inv := by
  obtain ⟨s',fx,he,hw⟩ := (h.raised hc).dispatchForks_spec fun hnil => by
    simp [setStatus,pushFork] at hnil
  refine ⟨s',((s.unanswered co).toList.map fun r => Effect.answer r.1 r.2 false) ++ fx,?_,hw.inv⟩
  rw [suspendError_eq co hc,he,Act.after_ok]

/-- The two states differ in the books only. -/
def SameQueues (s s' : Sched) : Prop := s'.core = s.core ∧ s'.wakeupQueue = s.wakeupQueue ∧ s'.control = s.control

theorem ret_core (s : Sched) (co : Co) (sent : Sent) : ∃ s' fx, s.ret co sent = .ok s' fx ∧ s.SameQueues s' := by
  unfold ret
  split
  · exact ⟨_,_,rfl,rfl,rfl,rfl⟩
  · dsimp only
    split
    · exact ⟨_,_,rfl,rfl,rfl,rfl⟩
    · split <;> exact ⟨_,_,rfl,rfl,rfl,rfl⟩

theorem response_core (s : Sched) (co : Co) (r : Nat) : ∃ s' fx, s.response co r = .ok s' fx ∧ s.SameQueues s' := by
  unfold response
  split
  · split <;> exact ⟨_,_,rfl,rfl,rfl,rfl⟩
  · exact ⟨_,_,rfl,rfl,rfl,rfl⟩

theorem respond_core (s : Sched) (r : Nat) (ok : Bool) (sent : Sent) : ∃ s' fx, s.respond r ok sent = .ok s' fx ∧ s.SameQueues s' := by
  unfold respond
  split
  · exact ⟨_,_,rfl,rfl,rfl,rfl⟩
  · split
    · split <;> exact ⟨_,_,rfl,rfl,rfl,rfl⟩
    · exact ⟨_,_,rfl,rfl,rfl,rfl⟩

theorem errorDispatch_control (s : Sched) (session source : Nat) (order : List Nat) :
    (s.errorDispatch session source order).control = s.control := by
  unfold errorDispatch
  split
  · rfl
  · split <;> rfl

theorem perform_spec (h : s.Tables (some co)) (hc : s.control = .running co) (ha : s.Allowed e) :
    ∃ s' fx, s.perform co e = .ok s' fx ∧ s'.Inv := by
  have hstay : ∀ s' : Sched, s'.control = .running co → s'.Tables (some co) → s'.Inv := by
    intro s' hc' h'
    rw [Inv,hc']
    exact h'
  cases e with
  | response _ | unknownPrototype _ _ => rw [Allowed,hc] at ha; cases ha
  | request _ _ _ | error _ _ _ _ => rw [Allowed,hc] at ha; cases ha.1
  | call σ addr =>
    obtain ⟨s',fx,he,hw⟩ := suspend_spec (h.called ha.2 addr)
    exact ⟨s',fx,he,hw.inv⟩
  | sleep σ tok =>
    obtain ⟨s',fx,he,hw⟩ := suspend_spec (h.slept ha.1 (ha.2.free hc) (.inl rfl))
    exact ⟨s',fx,he,hw.inv⟩
  | wait σ tok =>
    obtain ⟨s',fx,he,hw⟩ := suspend_spec (h.slept ha.1 (ha.2.free hc) (.inr rfl))
    exact ⟨s',fx,he,hw.inv⟩
  | wakeup tok =>
    cases hs : s.sleepSession tok with
    | none => exact ⟨s,[],by simp [perform,hs],hstay s hc h⟩
    | some σ => exact ⟨{ s with wakeupQueue := s.wakeupQueue ++ [tok] },[],by simp [perform,hs],hstay _ hc (h.congr rfl)⟩
  | fork co' =>
    refine ⟨_,[],?_,hstay _ ?_ (h.forked ha.2)⟩
    · rw [perform,Tables.coCreate_eq ha.2,Act.bind_ok,Act.after_nil]
      rfl
    · exact hc
  | timeout σ co' =>
    refine ⟨_,[],?_,hstay _ ?_ (h.timed ha.2.2 ha.2.1)⟩
    · rw [perform,Tables.coCreate_eq ha.2.2,Act.bind_ok,Act.after_nil]
      rfl
    · exact hc
  | ret sent =>
    obtain ⟨s',fx,he,hcore,_,hctl⟩ := s.ret_core co sent
    exact ⟨s',fx,he,hstay s' (hctl.trans hc) (h.congr hcore)⟩
  | ignoreret => exact ⟨_,_,rfl,hstay _ hc (h.congr rfl)⟩
  | makeResponse r =>
    obtain ⟨s',fx,he,hcore,_,hctl⟩ := s.response_core co r
    exact ⟨s',fx,he,hstay s' (hctl.trans hc) (h.congr hcore)⟩
  | respond r ok sent =>
    obtain ⟨s',fx,he,hcore,_,hctl⟩ := s.respond_core r ok sent
    exact ⟨s',fx,he,hstay s' (hctl.trans hc) (h.congr hcore)⟩
  | term service order =>
    have h₁ : (s.clearId co).Tables (some co) := h.congr rfl
    refine ⟨_,_,rfl,hstay _ ?_ (h₁.errorDispatch (fun _ => ha.2) fun hz => absurd rfl hz)⟩
    rw [errorDispatch_control]
    exact hc
  | finish => exact finish_spec h
  | raise co' => exact suspendError_spec h ha.2
  | exit => exact ⟨_,_,rfl,trivial⟩

/-- A message gets a coroutine of its own. -/
theorem begun (s t : Sched) (co : Co) (ht : t.core = (s.setStatus co .ready).core) :
    ∃ t', t.coroutineResume co .start = .ok t' [.resume co .start] ∧ t'.core = (s.setStatus co .running).core ∧
      t'.control = .running co ∧ t'.books = t.books ∧ t'.wakeupQueue = t.wakeupQueue := by
  have hst : t.status = Function.update s.status co .ready := congrArg (·.2.2.2.2.2) ht
  refine ⟨{ t.setStatus co .running with control := .running co },?_,?_,rfl,rfl,rfl⟩
  · have hco : t.status co = .ready := by rw [hst,Function.update_self]
    simp only [coroutineResume,hco]
  · simp only [core,Prod.mk.injEq] at ht ⊢
    refine ⟨ht.1,ht.2.1,ht.2.2.1,ht.2.2.2.1,ht.2.2.2.2.1,?_⟩
    simp only [setStatus,hst,Function.update_idem]

/-- `_error_dispatch` runs in a coroutine of its own to its end. -/
theorem receive_error {source : Nat} {order : List Nat} (h : s.Tables none) (hd : s.Drained) (ha : s.Available co)
    (hp : σ = 0 → s.InSomeOrder source order) : ∃ t : Sched, t.core = (s.setStatus co .running).core ∧
      (t.errorDispatch σ source order).Tables (some co) ∧
      s.receive (.error co σ source order) = ((t.errorDispatch σ source order).finish co).after [.resume co .start] ∧
      t.wakeupQueue = s.wakeupQueue := by
  obtain ⟨t,he,ht,_,_,hwq⟩ := begun s ((s.setStatus co .ready).setRequest co σ source) co rfl
  have hq : t.errorQueue = [] := (congrArg (·.2.2.2.1) ht).trans hd.2.1
  have hw : t.watchingSession = s.watchingSession := congrArg (·.2.2.1) ht
  have h₁ : (t.clearId co).Tables (some co) := (h.entered ha).congr ht
  refine ⟨t.clearId co,ht,h₁.errorDispatch (fun hz => ⟨?_,?_⟩) fun _ => ?_,?_,hwq⟩
  · rw [InSomeOrder,show (t.clearId co).watched source = s.watched source by simp only [watched,clearId,hw]]
    exact hp hz
  · simp [clearId,hq]
  · simp [clearId,hq]
  · rw [receive,Tables.coCreate_eq ha,Act.bind_ok,Act.after_nil,he,Act.bind_ok]

theorem receive_spec (h : s.Tables none) (hd : s.Drained) (hc : s.control = .idle) (ha : s.Allowed e) :
    ∃ s' fx, s.receive e = .ok s' fx ∧ s'.Inv := by
  have hinv : s.Inv := by
    rw [Inv,hc]
    exact ⟨h,hd⟩
  have herr : ∀ τ, τ ∉ s.errorQueue := by simp [hd.2.1]
  cases e with
  | response σ =>
    rw [receive]
    split
    · exact ⟨s,_,rfl,hinv⟩
    · rename_i hb
      refine ⟨_,_,rfl,?_⟩
      have h' : (s.setSession σ none).Tables none := by
        refine ⟨fun τ co => ?_,h.asleep,h.watching,h.watchNodup,h.failing,h.failNodup,h.forks,h.forkNodup,h.running⟩
        refine Iff.trans ?_ (h.session τ co)
        change Function.update s.sessionIdCoroutine σ none τ = _ ↔ _
        rw [Function.update_apply]
        split
        · rename_i hτ
          simp [hτ,hb]
        · rfl
      rw [Inv,show (s.setSession σ none).control = .idle from hc]
      exact ⟨h',hd⟩
    · rename_i co hs
      obtain ⟨s',he,hw,_⟩ := h.resume (v := none) hs (by simp) (herr σ) (.response σ)
      exact ⟨s',_,he,hw.inv⟩
  | request co σ source =>
    rw [receive,Tables.coCreate_eq ha.2,Act.bind_ok,Act.after_nil]
    obtain ⟨t',he,ht,hctl,_⟩ := begun s ((s.setStatus co .ready).setRequest co σ source) co rfl
    refine ⟨t',_,he,?_⟩
    rw [Inv,hctl]
    exact (h.entered ha.2).congr ht
  | unknownPrototype σ source =>
    rw [receive]
    split <;> exact ⟨s,_,rfl,hinv⟩
  | error co σ source order =>
    obtain ⟨t,_,ht,he,_⟩ := receive_error h hd ha.2.1 ha.2.2
    obtain ⟨s',fx,he',hi⟩ := finish_spec ht
    exact ⟨s',_,by rw [he,he',Act.after_ok],hi⟩
  | call _ _ | fork _ | raise _ | makeResponse _ | timeout _ _ | term _ _ => exact absurd hc ha.1
  | sleep _ _ | wait _ _ =>
    have hm := ha.2
    rw [MaySleep,hc] at hm
    cases hm
  | wakeup _ | ret _ | ignoreret | respond _ _ _ | finish | exit => exact absurd hc ha

/-- No step that is allowed fails, and the tables agree with the coroutines behind it. -/
theorem step_spec (hi : s.Inv) (ha : s.Allowed e) : ∃ s' fx, s.step e = .ok s' fx ∧ s'.Inv := by
  unfold step
  cases hc : s.control with
  | idle =>
    rw [Inv,hc] at hi
    exact receive_spec hi.1 hi.2 hc ha
  | running co =>
    rw [Inv,hc] at hi
    exact perform_spec hi hc ha
  | exited => exact ⟨s,[],rfl,hi⟩

end Sched
end MyProgram.SkynetLua
