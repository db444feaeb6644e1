import MyProgram.SkynetLua.Delivery

/-! Coroutines that sleep on themselves. -/
namespace MyProgram.SkynetLua
open Lib

/-- A coroutine behind `skynet.wait`. -/
def Status.waits : Status → Bool
  | .wait _ _ => true
  | .unborn | .ready | .timer _ | .running | .call _ | .sleep _ _ | .pooled | .dead => false

def Token.isValue : Token → Bool
  | .value _ => true
  | .thread _ => false

namespace Sched

/-- Whom a message under a session is for. -/
def waiter (s : Sched) (session : Nat) : List Co :=
  match s.sessionIdCoroutine session with
  | some (.thread co) => [co]
  | some .broken | none => []

/-- No message comes under a number of `skynet.wait`, which `c.genid` has given out: nobody
was told it. -/
def Unsent (s : Sched) (session : Nat) : Prop := ∀ co ∈ s.waiter session, (s.status co).waits = false

/-- How a program has to treat coroutines that sleep on themselves: nobody else sleeps on
a coroutine and none is woken twice. -/
def Orderly (s : Sched) : Event → Prop
  | .response session => s.Unsent session
  | .sleep _ token | .wait _ token => token.all Token.isValue = true
  | .wakeup token => token.isValue = true ∨ token ∉ s.wakeupQueue
  | .request _ _ _ | .unknownPrototype _ _ | .error _ _ _ _ | .call _ _ | .fork _ | .timeout _ _ | .ret _ | .ignoreret
  | .makeResponse _ | .respond _ _ _ | .term _ _ | .finish | .raise _ | .exit => True

instance (s : Sched) (e : Event) : Decidable (s.Orderly e) :=
  match e with
  | .response session => inferInstanceAs (Decidable (∀ co ∈ s.waiter session, (s.status co).waits = false))
  | .sleep _ token | .wait _ token => inferInstanceAs (Decidable (token.all Token.isValue = true))
  | .wakeup token => inferInstanceAs (Decidable (token.isValue = true ∨ token ∉ s.wakeupQueue))
  | .request _ _ _ | .unknownPrototype _ _ | .error _ _ _ _ | .call _ _ | .fork _ | .timeout _ _ | .ret _ | .ignoreret
  | .makeResponse _ | .respond _ _ _ | .term _ _ | .finish | .raise _ | .exit => isTrue trivial

/-- The wakeup queue behind the call, before it is dispatched. -/
def wakeups (s : Sched) : Event → List Token
  | .wakeup token => if (s.sleepSession token).isSome then s.wakeupQueue ++ [token] else s.wakeupQueue
  | _ => s.wakeupQueue

/-- Only a coroutine itself sleeps on it, and it does while it is in the queue, once. -/
structure Tidy (s : Sched) (l : List Token) : Prop where
  own : ∀ co c, (s.status co).token = some (.thread c) → co = c
  once : ∀ c, l.count (.thread c) ≤ 1
  asleep : ∀ c, .thread c ∈ l → (s.status c).token = some (.thread c)

/-- A coroutine that waits on itself goes on to do so, and is in the queue if it was, or
it was in the queue and now runs. -/
structure Kept (s : Sched) (l : List Token) (s' : Sched) : Prop where
  tidy : s'.Tidy s'.wakeupQueue
  waiting : ∀ c σ, s.status c = .wait σ (.thread c) →
    s'.status c = s.status c ∧ (.thread c ∈ s'.wakeupQueue ↔ .thread c ∈ l) ∨ .thread c ∈ l ∧ s'.status c = .running

variable {s s' t : Sched} {co c : Co} {σ : Nat} {fx : List Effect} {l l' : List Token} {e : Event} {new : Status}

theorem Tidy.notMem (h : s.Tidy l) (hc : (s.status c).token ≠ some (.thread c)) : .thread c ∉ l := fun hm => hc (h.asleep c hm)

theorem started_tidy (session : Nat) (co : Co) : (started session co).Tidy [] := by
  refine ⟨fun a c hac => ?_,by simp,by simp⟩
  change ((Function.update fresh.status co (.timer session)) a).token = _ at hac
  rw [Function.update_apply] at hac
  split at hac <;> cases hac

theorem Tidy.congr (h : s.Tidy l) (hst : s'.status = s.status) : s'.Tidy l := by
  refine ⟨?_,h.once,?_⟩
  · rw [hst]
    exact h.own
  · rw [hst]
    exact h.asleep

/-- One coroutine changes its status and is not in the queue behind that. -/
theorem Tidy.update (h : s.Tidy l) (hst : s'.status = Function.update s.status co new) (hn : ∀ d, new.token = some (.thread d) → co = d)
    (hl : l'.Sublist l) (hco : .thread co ∉ l') : s'.Tidy l' := by
  refine ⟨fun a d ha => ?_,fun d => (hl.count_le _).trans (h.once d),fun d hd => ?_⟩
  · rw [hst,Function.update_apply] at ha
    split at ha
    · rename_i hac
      exact hac.trans (hn d ha)
    · exact h.own a d ha
  · have hne : d ≠ co := by
      rintro rfl
      exact hco hd
    rw [hst,Function.update_of_ne hne]
    exact h.asleep d (hl.subset hd)

/-- It runs behind that if it waited on itself, and no other leaves the queue. -/
theorem Kept.of_update (h : s.Tidy l) (hst : s'.status = Function.update s.status co new)
    (hn : ∀ d, new.token = some (.thread d) → co = d) (hl : s'.wakeupQueue.Sublist l) (hco : .thread co ∉ s'.wakeupQueue)
    (hmem : ∀ d, d ≠ co → .thread d ∈ l → .thread d ∈ s'.wakeupQueue)
    (hself : ∀ σ, s.status co = .wait σ (.thread co) → .thread co ∈ l ∧ new = .running) : Kept s l s' := by
  refine ⟨h.update hst hn hl hco,fun d σ hd => ?_⟩
  by_cases hdc : d = co
  · obtain ⟨hm,hr⟩ := hself σ (by rw [← hdc]; exact hd)
    exact .inr ⟨by rwa [hdc],by rw [hst,hdc,Function.update_self,hr]⟩
  · exact .inl ⟨by rw [hst,Function.update_of_ne hdc],fun hm => hl.subset hm,hmem d hdc⟩

theorem Kept.refl (h : s.Tidy l) (hst : s'.status = s.status) (hw : s'.wakeupQueue = l) : Kept s l s' :=
  ⟨by rw [hw]; exact h.congr hst,fun _ _ _ => .inl ⟨by rw [hst],by rw [hw]⟩⟩

/-- A coroutine that does not sleep changes its status. -/
theorem Kept.of_awake (h : s.Tidy l) (hst : s'.status = Function.update s.status co new) (hc : (s.status co).token = none)
    (hn : ∀ d, new.token = some (.thread d) → co = d) (hw : s'.wakeupQueue = l) : Kept s l s' := by
  have hco : .thread co ∉ l := h.notMem (by rw [hc]; simp)
  refine .of_update h hst hn (by rw [hw]) (by rwa [hw]) (fun d _ hd => by rwa [hw]) fun σ hσ => ?_
  rw [hσ] at hc
  cases hc

/-- The same holds seen from an earlier state in which the same coroutines waited. -/
theorem Kept.before (h : Kept t l s') (ht : ∀ c σ, s.status c = .wait σ (.thread c) → t.status c = s.status c) : Kept s l s' := by
  refine ⟨h.tidy,fun c σ hc => ?_⟩
  have hs := ht c σ hc
  rw [← hs]
  exact h.waiting c σ (hs.trans hc)

private theorem running_own : ∀ d, Status.running.token = some (.thread d) → co = d := fun _ h => by cases h

theorem dispatchForks_kept (ht : s.Tables none) (h : s.Tidy s.wakeupQueue) (he : s.dispatchForks = .ok s' fx) :
    Kept s s.wakeupQueue s' := by
  unfold dispatchForks at he
  split at he
  · cases he
    exact .refl h rfl rfl
  · rename_i c l hl
    obtain ⟨t,he',_,hst,hwq,_⟩ := ht.start hl .start
    rw [he'] at he
    cases he
    have hr : s.status c = .ready := (ht.forks c).mp (by rw [hl]; exact List.mem_cons_self)
    exact .of_awake h hst (by rw [hr]; rfl) running_own hwq

theorem dispatchErrorQueue_kept (ht : s.Tables none) (h : s.Tidy s.wakeupQueue) (he : s.dispatchErrorQueue = .ok s' fx) :
    Kept s s.wakeupQueue s' := by
  cases hl : s.errorQueue with
  | nil =>
    rw [dispatchErrorQueue,hl] at he
    exact dispatchForks_kept ht h he
  | cons σ l =>
    obtain ⟨c,t,hcall,he',_,hst,hwq,_⟩ := ht.failNext hl
    rw [he'] at he
    cases he
    exact .of_awake h hst (by rw [hcall]; rfl) running_own hwq

/-- Dropped tokens are not those of coroutines that wait on themselves. -/
theorem dispatchWakeup_kept (ht : s.Tables none) (l : List Token) (h : s.Tidy l) (he : s.dispatchWakeup l = .ok s' fx) : Kept s l s' := by
  induction l with
  | nil =>
    have ht' : { s with wakeupQueue := [] }.Tables none := ht.congr rfl
    have h' : { s with wakeupQueue := [] }.Tidy [] := h.congr rfl
    exact (dispatchErrorQueue_kept ht' h' he).before fun _ _ _ => rfl
  | cons tok l ih =>
    have hl : s.Tidy l := ⟨h.own,fun c => ((List.sublist_cons_self tok l).count_le _).trans (h.once c),
      fun c hc => h.asleep c (List.mem_cons_of_mem _ hc)⟩
    cases hs : s.sleepSession tok with
    | none =>
      rw [dispatchWakeup,hs] at he
      have hk := ih hl he
      refine ⟨hk.tidy,fun c σ hc => ?_⟩
      have hne : Token.thread c ≠ tok := by
        rintro rfl
        have hsl := (ht.asleep (.thread c) σ).mpr ⟨c,by rw [hc]; rfl,by rw [hc]; rfl⟩
        rw [hs] at hsl
        cases hsl
      simpa [List.mem_cons,hne] using hk.waiting c σ hc
    | some σ =>
      obtain ⟨c,t,htok,_,he',_,hst,hwq,_⟩ := ht.wakeNext hs l
      rw [he'] at he
      cases he
      have hc : .thread c ∉ l := by
        intro hm
        have htc := h.asleep c (List.mem_cons_of_mem _ hm)
        rw [htok] at htc
        cases htc
        have honce := h.once c
        rw [List.count_cons_self] at honce
        exact absurd (List.count_pos_iff.mpr hm) (by omega)
      refine .of_update h hst running_own (by rw [hwq]; exact List.sublist_cons_self tok l) (by rwa [hwq]) (fun d hd hm => ?_)
        fun τ hτ => ?_
      · rw [hwq]
        refine (List.mem_cons.mp hm).resolve_left ?_
        rintro rfl
        exact hd (h.own c d htok).symm
      · rw [hτ] at htok
        cases htok
        exact ⟨List.mem_cons_self,rfl⟩

/-- What a coroutine does on its way to its yield disturbs nobody. -/
theorem suspend_kept (ht : (s.setStatus co new).Tables none) (h : s.Tidy s.wakeupQueue) (hc : (s.status co).token = none)
    (hn : ∀ d, new.token = some (.thread d) → co = d) (he : s.suspend co new = .ok s' fx) :
    Kept (s.setStatus co new) s.wakeupQueue s' :=
  dispatchWakeup_kept ht s.wakeupQueue (h.update rfl hn (List.Sublist.refl _) (h.notMem (by rw [hc]; simp))) he

private theorem Kept.from_awake (h : Kept (t.setStatus co new) l s') (hst : t.status = s.status) (hc : (s.status co).token = none) :
    Kept s l s' := by
  refine h.before fun c σ hcσ => ?_
  have hne : c ≠ co := by
    rintro rfl
    rw [hcσ] at hc
    cases hc
  exact (Function.update_of_ne hne _ _).trans (by rw [hst])

theorem finish_kept (ht : s.Tables (some co)) (h : s.Tidy s.wakeupQueue) (he : s.finish co = .ok s' fx) : Kept s s.wakeupQueue s' := by
  have hc : (s.status co).token = none := by rw [(ht.running co).mpr rfl]; rfl
  rw [finish,Act.bind_ok,Act.after_eq_ok] at he
  obtain ⟨fx₂,he,rfl⟩ := he
  have hcore : (if (s.sessionCoroutineAddress co).isSome then s.clearRequest co else s).core = s.core := by split <;> rfl
  have hst : (if (s.sessionCoroutineAddress co).isSome then s.clearRequest co else s).status = s.status := by split <;> rfl
  have hwq : (if (s.sessionCoroutineAddress co).isSome then s.clearRequest co else s).wakeupQueue = s.wakeupQueue := by split <;> rfl
  have hk := suspend_kept ((ht.congr hcore).leave rfl (by simp) (by simp)) (by rw [hwq]; exact h.congr hst) (by rw [hst]; exact hc)
    (fun _ hd => by cases hd) he
  rw [hwq] at hk
  exact hk.from_awake hst hc

private theorem asleep_own {tok : Option Token} (ho : tok.all Token.isValue = true) :
    ∀ d, tok.getD (.thread co) = .thread d → co = d := by
  intro d hd
  cases tok with
  | none =>
    cases hd
    rfl
  | some tok =>
    cases tok with
    | thread a => cases ho
    | value v => cases hd

/-- Nobody sleeps on a coroutine that runs. -/
theorem Tidy.free (h : s.Tidy l) (ht : s.Tables (some co)) : s.sleepSession (.thread co) = none := by
  cases hs : s.sleepSession (.thread co) with
  | none => rfl
  | some τ =>
    obtain ⟨d,hd,_⟩ := (ht.asleep _ τ).mp hs
    rw [h.own d co hd,(ht.running co).mpr rfl] at hd
    cases hd

/-- The coroutine waits on itself behind `skynet.wait` without a token. -/
theorem wait_kept (ht : s.Tables (some co)) (h : s.Tidy s.wakeupQueue) (hf : s.FreshSession σ) (he : s.perform co (.wait σ none) = .ok s' fx) :
    Kept (s.setStatus co (.wait σ (.thread co))) s.wakeupQueue s' := by
  have hc : (s.status co).token = none := by rw [(ht.running co).mpr rfl]; rfl
  have h' : ((s.setSession σ (some (.thread co))).setSleep (.thread co) (some σ)).Tidy s.wakeupQueue := h.congr rfl
  have hk := suspend_kept (ht.slept hf (h.free ht) (.inr rfl)) h' hc (fun d hd => by cases hd; rfl) he
  exact hk.before fun _ _ _ => rfl

private theorem perform_kept (ht : s.Tables (some co)) (hctl : s.control = .running co) (ha : s.Allowed e) (ho : s.Orderly e)
    (h : s.Tidy s.wakeupQueue) (he : s.perform co e = .ok s' fx) : s'.control = .exited ∨ Kept s (s.wakeups e) s' := by
  have hc : (s.status co).token = none := by rw [(ht.running co).mpr rfl]; rfl
  have hnew : ∀ co', s.Available co' → (s.status co').token = none := fun co' hav => Tables.token_none (Tables.available hav).1
  cases e with
  | response _ | unknownPrototype _ _ | request _ _ _ | error _ _ _ _ => cases he
  | call σ addr =>
    have hk := suspend_kept (ht.called ha.2 addr) (h.congr rfl) hc (fun _ hd => by cases hd) he
    exact .inr (hk.from_awake rfl hc)
  | sleep σ tok =>
    have hk := suspend_kept (ht.slept ha.1 (ha.2.free hctl) (.inl rfl)) (h.congr rfl) hc
      (fun d hd => asleep_own ho d (Option.some.inj hd)) he
    exact .inr (hk.from_awake rfl hc)
  | wait σ tok =>
    have hk := suspend_kept (ht.slept ha.1 (ha.2.free hctl) (.inr rfl)) (h.congr rfl) hc
      (fun d hd => asleep_own ho d (Option.some.inj hd)) he
    exact .inr (hk.from_awake rfl hc)
  | wakeup tok =>
    rw [perform] at he
    split at he
    · rename_i σ hs
      cases he
      have hw : s.wakeups (.wakeup tok) = s.wakeupQueue ++ [tok] := if_pos (by rw [hs]; rfl)
      have htok : ∀ c, tok = .thread c → .thread c ∉ s.wakeupQueue ∧ (s.status c).token = some (.thread c) := by
        rintro c rfl
        obtain ⟨d,hd,_⟩ := (ht.asleep _ σ).mp hs
        have hdc := h.own d c hd
        rw [hdc] at hd
        exact ⟨ho.resolve_left (by simp [Token.isValue]),hd⟩
      refine .inr (Kept.refl (l := s.wakeups (.wakeup tok)) ⟨h.own,fun c => ?_,fun c hm => ?_⟩ rfl hw.symm)
      · rw [hw,List.count_append,List.count_singleton]
        split
        · rename_i hb
          rw [List.count_eq_zero.mpr (htok c (eq_of_beq hb)).1]
        · exact h.once c
      · rw [hw,List.mem_append,List.mem_singleton] at hm
        rcases hm with hm | hm
        · exact h.asleep c hm
        · exact (htok c hm.symm).2
    · rename_i hs
      cases he
      have hw : s.wakeups (.wakeup tok) = s.wakeupQueue := if_neg (by rw [hs]; simp)
      rw [hw]
      exact .inr (.refl h rfl rfl)
  | fork co' =>
    rw [perform,Tables.coCreate_eq ha.2] at he
    cases he
    exact .inr (.of_awake h rfl (hnew co' ha.2) (fun _ hd => by cases hd) rfl)
  | timeout σ co' =>
    rw [perform,Tables.coCreate_eq ha.2.2] at he
    cases he
    exact .inr (.of_awake h rfl (hnew co' ha.2.2) (fun _ hd => by cases hd) rfl)
  | ret sent =>
    obtain ⟨t,fx',he',hcore,hwq,_⟩ := s.ret_core co sent
    rw [perform,he'] at he
    cases he
    exact .inr (.refl h (congrArg (·.2.2.2.2.2) hcore) hwq)
  | ignoreret =>
    cases he
    exact .inr (.refl h rfl rfl)
  | makeResponse r =>
    obtain ⟨t,fx',he',hcore,hwq,_⟩ := s.response_core co r
    rw [perform,he'] at he
    cases he
    exact .inr (.refl h (congrArg (·.2.2.2.2.2) hcore) hwq)
  | respond r ok sent =>
    obtain ⟨t,fx',he',hcore,hwq,_⟩ := s.respond_core r ok sent
    rw [perform,he'] at he
    cases he
    exact .inr (.refl h (congrArg (·.2.2.2.2.2) hcore) hwq)
  | term service order =>
    cases he
    exact .inr (.refl h rfl rfl)
  | finish => exact .inr (finish_kept ht h he)
  | raise co' =>
    rw [perform,suspendError_eq co ha.2,Act.after_eq_ok] at he
    obtain ⟨fx₂,he,rfl⟩ := he
    have hav := hnew co' ha.2
    have h₁ : (((s.clearRequest co).setStatus co' .ready).pushFork co').Tidy s.wakeupQueue :=
      h.update rfl (fun _ hd => by cases hd) (List.Sublist.refl _) (h.notMem (by rw [hav]; simp))
    have h₂ : ((((s.clearRequest co).setStatus co' .ready).pushFork co').setStatus co .dead).Tidy s.wakeupQueue :=
      h₁.update rfl (fun _ hd => by cases hd) (List.Sublist.refl _) (h.notMem (by rw [hc]; simp))
    refine .inr ((dispatchForks_kept (ht.raised ha.2) h₂ he).before fun c σ hcσ => ?_)
    have hne : ∀ d, (s.status d).token = none → c ≠ d := by
      rintro d hd rfl
      rw [hcσ] at hd
      cases hd
    exact (Function.update_of_ne (hne co hc) _ _).trans (Function.update_of_ne (hne co' hav) _ _)
  | exit =>
    cases he
    exact .inl rfl

private theorem errorDispatch_wakeupQueue (t : Sched) (session source : Nat) (order : List Nat) :
    (t.errorDispatch session source order).wakeupQueue = t.wakeupQueue := by
  unfold errorDispatch
  split
  · rfl
  · split <;> rfl

private theorem receive_kept (ht : s.Tables none) (hd : s.Drained) (ha : s.Allowed e) (ho : s.Orderly e)
    (h : s.Tidy s.wakeupQueue) (he : s.receive e = .ok s' fx) : Kept s (s.wakeups e) s' := by
  have hnew : ∀ co', s.Available co' → (s.status co').token = none := fun co' hav => Tables.token_none (Tables.available hav).1
  cases e with
  | response σ =>
    rw [receive] at he
    split at he
    · cases he
      exact .refl h rfl rfl
    · cases he
      exact .refl h rfl rfl
    · rename_i co hs
      obtain ⟨t,he',_,hst,hwq,_⟩ := ht.resume (v := none) hs (by simp) (by simp [hd.2.1]) (.response σ)
      rw [he'] at he
      cases he
      have hw : s.wakeupQueue = [] := hd.1
      refine .of_update h hst (fun _ hd => by cases hd) (by rw [hwq]; exact List.Sublist.refl _) (by rw [hwq,hw]; simp) (fun d _ hm => by rwa [hwq]) fun τ hτ => ?_
      have hun : (s.status co).waits = false := ho co (by rw [waiter,hs]; exact List.mem_singleton_self co)
      rw [hτ] at hun
      cases hun
  | request co σ source =>
    rw [receive,Tables.coCreate_eq ha.2,Act.bind_ok,Act.after_nil] at he
    obtain ⟨t,he',hcore,_,_,hwq⟩ := begun s ((s.setStatus co .ready).setRequest co σ source) co rfl
    rw [he'] at he
    cases he
    exact .of_awake h (congrArg (·.2.2.2.2.2) hcore) (hnew co ha.2) (fun _ hd => by cases hd) hwq
  | unknownPrototype σ source =>
    rw [receive] at he
    split at he <;> (cases he; exact .refl h rfl rfl)
  | error co σ source order =>
    obtain ⟨t,hcore,ht',hrecv,hwq⟩ := receive_error ht hd ha.2.1 ha.2.2
    rw [hrecv,Act.after_eq_ok] at he
    obtain ⟨fx₂,he,rfl⟩ := he
    have hst : (t.errorDispatch σ source order).status = Function.update s.status co .running :=
      (errorDispatch_status t σ source order).trans (congrArg (·.2.2.2.2.2) hcore)
    have hq : (t.errorDispatch σ source order).wakeupQueue = s.wakeupQueue := (errorDispatch_wakeupQueue t σ source order).trans hwq
    have hc := hnew co ha.2.1
    have hk := finish_kept ht' (by rw [hq]; exact h.update hst running_own (List.Sublist.refl _) (h.notMem (by rw [hc]; simp))) he
    rw [hq] at hk
    refine hk.before fun c τ hcτ => ?_
    rw [hst,Function.update_of_ne]
    rintro rfl
    rw [hcτ] at hc
    cases hc
  | _ => cases he

/-- What a step does to the coroutines that wait on themselves. -/
theorem step_kept (hi : s.Inv) (ha : s.Allowed e) (ho : s.Orderly e) (h : s.Tidy s.wakeupQueue) (he : s.step e = .ok s' fx) :
    s'.control = .exited ∨ Kept s (s.wakeups e) s' := by
  rw [step] at he
  split at he
  · rename_i hc
    rw [Inv,hc] at hi
    exact .inr (receive_kept hi.1 hi.2 ha ho h he)
  · rename_i c hc
    rw [Inv,hc] at hi
    exact perform_kept hi hc ha ho h he
  · rename_i hc
    cases he
    exact .inl hc

/-- The coroutine waits on itself and was not woken. -/
def Parked (s : Sched) (c : Co) : Prop := (∃ σ, s.status c = .wait σ (.thread c)) ∧ .thread c ∉ s.wakeupQueue

/-- It was woken, and is still asleep or runs. -/
def Woken (s : Sched) (c : Co) : Prop :=
  s.status c = .running ∨ (∃ σ, s.status c = .wait σ (.thread c)) ∧ .thread c ∈ s.wakeupQueue

theorem Kept.parked (hk : Kept s l s') (h : s.Parked c) (hl : .thread c ∉ l) : s'.Parked c := by
  obtain ⟨⟨σ,hσ⟩,_⟩ := h
  rcases hk.waiting c σ hσ with ⟨hst,hiff⟩ | ⟨hin,_⟩
  · exact ⟨⟨σ,hst.trans hσ⟩,fun hin => hl (hiff.mp hin)⟩
  · exact absurd hin hl

theorem Kept.woken (hk : Kept s l s') (hσ : s.status c = .wait σ (.thread c)) (hl : .thread c ∈ l) : s'.Woken c := by
  rcases hk.waiting c σ hσ with ⟨hst,hiff⟩ | ⟨_,hr⟩
  · exact .inr ⟨⟨σ,hst.trans hσ⟩,hiff.mpr hl⟩
  · exact .inl hr

theorem Inv.control (hi : s.Inv) (hx : s.control ≠ .exited) (hr : s.status c = .running) : s.control = .running c := by
  rw [Inv] at hi
  split at hi
  · exact absurd ((hi.1.running c).mp hr) (by simp)
  · rename_i d hd
    rw [hd,Option.some.inj ((hi.running c).mp hr)]
  · rename_i hd
    exact absurd hd hx

/-- A step wakes nobody that waits on itself, unless it calls `skynet.wakeup` with it. -/
theorem step_waiters (hi : s.Inv) (ha : s.Allowed e) (ho : s.Orderly e) (h : s.Tidy s.wakeupQueue) (he : s.step e = .ok s' fx)
    (hx : s'.control ≠ .exited) : s'.Tidy s'.wakeupQueue ∧ ∀ c, e ≠ .wakeup (.thread c) →
      (s.Parked c → s'.Parked c) ∧ (s.Woken c → s.control ≠ .running c → s'.Woken c) := by
  have hk := (step_kept hi ha ho h he).resolve_left hx
  have hx' : s.control ≠ .exited := by
    intro hc
    rw [step,hc] at he
    cases he
    exact hx hc
  refine ⟨hk.tidy,fun c hne => ?_⟩
  have hw : .thread c ∈ s.wakeups e ↔ .thread c ∈ s.wakeupQueue := by
    unfold wakeups
    split
    · rename_i tok
      have hne : Token.thread c ≠ tok := by
        rintro rfl
        exact hne rfl
      split <;> simp [hne]
    · rfl
  refine ⟨fun hp => hk.parked hp fun hm => hp.2 (hw.mp hm),fun hwk hctl => ?_⟩
  rcases hwk with hr | ⟨⟨σ,hσ⟩,hm⟩
  · exact absurd (hi.control hx' hr) hctl
  · exact hk.woken hσ (hw.mpr hm)

/-- `skynet.wait` parks the coroutine and disturbs no other that waits on itself. -/
theorem wait_waiters (hi : s.Inv) (hc : s.control = .running co) (h : s.Tidy s.wakeupQueue) (hf : s.FreshSession σ) :
    ∃ s' fx, s.perform co (.wait σ none) = .ok s' fx ∧ s'.Inv ∧ s'.Tidy s'.wakeupQueue ∧ s'.Parked co ∧
      ∀ c, c ≠ co → (s.Parked c → s'.Parked c) ∧ (s.Woken c → s'.Woken c) := by
  have ht := hi
  rw [Inv,hc] at ht
  have hrun := (ht.running co).mpr rfl
  have ha : s.Allowed (.wait σ none) := by
    refine ⟨hf,?_⟩
    rw [MaySleep,hc]
    exact h.free ht
  obtain ⟨s',fx,he,hi'⟩ := step_spec hi ha
  rw [step,hc] at he
  have hk := wait_kept ht h hf he
  have hco : .thread co ∉ s.wakeupQueue := h.notMem (by rw [hrun]; simp [Status.token])
  have hself : (s.setStatus co (.wait σ (.thread co))).Parked co := ⟨⟨σ,Function.update_self _ _ _⟩,hco⟩
  refine ⟨s',fx,he,hi',hk.tidy,hk.parked hself hco,fun c hne => ?_⟩
  have hst : (s.setStatus co (.wait σ (.thread co))).status c = s.status c := Function.update_of_ne hne _ _
  refine ⟨fun hp => ?_,fun hw => ?_⟩
  · obtain ⟨⟨τ,hτ⟩,hm⟩ := hp
    exact hk.parked ⟨⟨τ,hst.trans hτ⟩,hm⟩ hm
  · rcases hw with hr | ⟨⟨τ,hτ⟩,hm⟩
    · exact absurd (Option.some.inj ((ht.running c).mp hr)).symm hne
    · exact hk.woken (hst.trans hτ) hm

/-- `skynet.wakeup` with a coroutine that is parked puts it into the queue. -/
theorem wakeup_waiters (hi : s.Inv) (hc : s.control = .running co) (h : s.Tidy s.wakeupQueue) (hp : s.Parked c) :
    ∃ s', s.perform co (.wakeup (.thread c)) = .ok s' [] ∧ s'.Inv ∧ s'.control = .running co ∧ s'.Tidy s'.wakeupQueue ∧ s'.Woken c ∧
      ∀ d, d ≠ c → (s.Parked d → s'.Parked d) ∧ (s.Woken d → s'.Woken d) := by
  obtain ⟨⟨σ,hσ⟩,hm⟩ := hp
  have ht := hi
  rw [Inv,hc] at ht
  have hs : s.sleepSession (.thread c) = some σ := (ht.asleep _ σ).mpr ⟨c,by rw [hσ]; rfl,by rw [hσ]; rfl⟩
  refine ⟨{ s with wakeupQueue := s.wakeupQueue ++ [Token.thread c] },by simp only [perform,hs]; rfl,?_,hc,⟨h.own,fun d => ?_,fun d hd => ?_⟩,
    .inr ⟨⟨σ,hσ⟩,by simp⟩,fun d hd => ⟨fun hp => ⟨hp.1,by simpa [hd] using hp.2⟩,?_⟩⟩
  · rw [Inv]
    simp only [hc]
    exact ht.congr rfl
  · change List.count (Token.thread d) (s.wakeupQueue ++ [Token.thread c]) ≤ 1
    rw [List.count_append,List.count_singleton]
    split
    · rename_i hb
      rw [← eq_of_beq hb,List.count_eq_zero.mpr hm]
    · exact h.once d
  · rcases List.mem_append.mp hd with hd | hd
    · exact h.asleep d hd
    · cases List.mem_singleton.mp hd
      change (s.status c).token = _
      rw [hσ]
      rfl
  · rintro (hr | ⟨hst,hmd⟩)
    · exact .inl hr
    · exact .inr ⟨hst,List.mem_append_left _ hmd⟩

/-- When nothing is left to deliver, nobody is woken. -/
theorem Inv.not_woken (hi : s.Inv) (hc : s.control = .idle) : ¬s.Woken c := by
  rw [Inv,hc] at hi
  rintro (hr | ⟨_,hm⟩)
  · exact absurd ((hi.1.running c).mp hr) (by simp)
  · rw [hi.2.1] at hm
    cases hm

end Sched
end MyProgram.SkynetLua
