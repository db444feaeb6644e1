import MyProgram.SkynetLua.Tables

/-! Whom the scheduler resumes, and that it forgets nobody. -/
namespace MyProgram.SkynetLua
open Lib
namespace Sched

/-- The module behind `skynet.start`. -/
def started (session : Nat) (co : Co) : Sched := (fresh.setStatus co (.timer session)).setSession session (some (.thread co))

/-- The coroutine is to be resumed in this way: it was forked, its call failed, or it was
woken. -/
def PendingWith (s : Sched) (l : List Token) (co : Co) (how : Wake) : Prop :=
  how = .start ∧ s.status co = .ready ∨ (∃ σ ∈ s.errorQueue, how = .failure σ ∧ s.status co = .call σ) ∨
    ∃ tok ∈ l, ∃ σ, how = .wakeup σ ∧ (s.status co).token = some tok ∧ (s.status co).session = some σ

def Pending (s : Sched) (co : Co) (how : Wake) : Prop := s.PendingWith s.wakeupQueue co how

variable {s s' : Sched} {run : Option Co} {co c : Co} {σ : Nat} {how : Wake} {fx : List Effect} {l : List Token} {e : Event}

theorem fresh_tables : fresh.Tables none := by
  refine ⟨?_,?_,?_,?_,?_,?_,?_,?_,?_⟩ <;> simp [fresh,Status.session,Status.token]

theorem started_inv (session : Nat) (co : Co) : session ≠ 0 → (started session co).Inv := fun h =>
  ⟨fresh_tables.timed (.inl rfl) ⟨h,rfl⟩,rfl,rfl,rfl⟩

/-- Another coroutine is still to be resumed when some queue entries are gone that are not its own. -/
private theorem PendingWith.frame {l' : List Token} (h : s.PendingWith l co how) (hs : s'.status co = s.status co)
    (he : ∀ σ ∈ s.errorQueue, s.status co = .call σ → σ ∈ s'.errorQueue)
    (hl : ∀ tok ∈ l, (s.status co).token = some tok → tok ∈ l') : s'.PendingWith l' co how := by
  rcases h with ⟨rfl,hr⟩ | ⟨σ,hσ,rfl,hc⟩ | ⟨tok,htok,σ,rfl,ht,hσ⟩
  · exact .inl ⟨rfl,hs.trans hr⟩
  · exact .inr (.inl ⟨σ,he σ hσ hc,rfl,hs.trans hc⟩)
  · exact .inr (.inr ⟨tok,hl tok htok ht,σ,rfl,by rw [hs]; exact ht,by rw [hs]; exact hσ⟩)

/-- A sleeper among them was woken. -/
private theorem PendingWith.sleeper {tok : Token} (h : s.PendingWith l co how) (ht : (s.status co).token = some tok) :
    tok ∈ l ∧ ∃ σ, how = .wakeup σ ∧ (s.status co).session = some σ := by
  rcases h with ⟨_,hr⟩ | ⟨σ,_,_,hc⟩ | ⟨tok',htok',σ,hw,ht',hσ⟩
  · rw [hr] at ht
    cases ht
  · rw [hc] at ht
    cases ht
  · rw [ht] at ht'
    cases ht'
    exact ⟨htok',σ,hw,hσ⟩

/-- Neither the running coroutine nor one that is not in use is to be resumed. -/
private theorem PendingWith.waits (h : s.PendingWith l co how) : s.status co ≠ .running ∧ ¬s.Available co := by
  have hst : s.status co = .ready ∨ (∃ σ, s.status co = .call σ) ∨ ∃ tok, (s.status co).token = some tok := by
    rcases h with ⟨_,hr⟩ | ⟨σ,_,_,hc⟩ | ⟨tok,_,_,_,ht,_⟩
    · exact .inl hr
    · exact .inr (.inl ⟨σ,hc⟩)
    · exact .inr (.inr ⟨tok,ht⟩)
  rw [Available]
  rcases hst with hr | ⟨σ,hc⟩ | ⟨tok,ht⟩
  · simp [hr]
  · simp [hc]
  · refine ⟨fun hr => ?_,fun ha => ?_⟩
    · rw [hr] at ht
      cases ht
    · rcases ha with ha | ha <;> (rw [ha] at ht; cases ht)

/-- The forked coroutine at the front is the only one that the step touches. -/
private theorem dispatchForks_pending (ht : s.Tables none) (hn : s.forkQueue ≠ []) (h : s.Pending co how)
    (he : s.dispatchForks = .ok s' fx) : s'.Pending co how ∨ .resume co how ∈ fx := by
  unfold dispatchForks at he
  split at he
  · rename_i hl
    exact absurd hl hn
  · rename_i c l hl
    obtain ⟨t,he',hw,hst,hwq,heq,hfq⟩ := ht.start hl .start
    rw [he'] at he
    cases he
    by_cases hc : co = c
    · have hr : s.status co = .ready := (ht.forks co).mp (by rw [hl,hc]; exact List.mem_cons_self)
      rcases h with ⟨rfl,_⟩ | ⟨σ,_,_,hcall⟩ | ⟨tok,_,_,_,htok,_⟩
      · exact .inr (by simp [hc])
      · rw [hr] at hcall
        cases hcall
      · rw [hr] at htok
        cases htok
    · refine .inl (h.frame ?_ ?_ ?_)
      · rw [hst,Function.update_of_ne hc]
      · intro σ hσ _
        rwa [heq]
      · intro tok htok _
        rwa [hwq]

private theorem dispatchErrorQueue_pending (ht : s.Tables none) (hq : s.wakeupQueue = []) (h : s.Pending co how)
    (he : s.dispatchErrorQueue = .ok s' fx) : s'.Pending co how ∨ .resume co how ∈ fx := by
  cases hl : s.errorQueue with
  | nil =>
    rw [dispatchErrorQueue,hl] at he
    refine dispatchForks_pending ht (fun hnil => ?_) h he
    rcases h with ⟨_,hr⟩ | ⟨σ,hσ,_,_⟩ | ⟨tok,htok,_⟩
    · have hm := (ht.forks co).mpr hr
      rw [hnil] at hm
      cases hm
    · rw [hl] at hσ
      cases hσ
    · rw [hq] at htok
      cases htok
  | cons σ l =>
    obtain ⟨c,t,hcall,he',_,hst,hwq,heq,hfq⟩ := ht.failNext hl
    rw [he'] at he
    cases he
    by_cases hc : co = c
    · rw [← hc] at hcall
      rcases h with ⟨_,hr⟩ | ⟨τ,_,rfl,hcall'⟩ | ⟨tok,htok,_⟩
      · rw [hr] at hcall
        cases hcall
      · rw [hcall] at hcall'
        cases hcall'
        exact .inr (by simp [hc])
      · rw [hq] at htok
        cases htok
    · refine .inl (h.frame ?_ ?_ ?_)
      · rw [hst,Function.update_of_ne hc]
      · intro τ hτ hcall'
        rw [heq]
        rw [hl] at hτ
        refine (List.mem_cons.mp hτ).resolve_left ?_
        rintro rfl
        exact hc (ht.unique (congrArg Status.session hcall') (congrArg Status.session hcall))
      · intro tok htok _
        rwa [hwq]

private theorem dispatchWakeup_pending (ht : s.Tables none) (l : List Token) (h : s.PendingWith l co how)
    (he : s.dispatchWakeup l = .ok s' fx) : s'.Pending co how ∨ .resume co how ∈ fx := by
  induction l with
  | nil =>
    have ht' : { s with wakeupQueue := [] }.Tables none := ht.congr rfl
    exact dispatchErrorQueue_pending ht' rfl h he
  | cons tok l ih =>
    cases hs : s.sleepSession tok with
    | none =>
      rw [dispatchWakeup,hs] at he
      refine ih (h.frame rfl (fun _ hσ _ => hσ) fun tok' htok' hco => ?_) he
      refine (List.mem_cons.mp htok').resolve_left ?_
      rintro rfl
      obtain ⟨_,σ,_,hσ⟩ := h.sleeper hco
      have hsl := (ht.asleep tok' σ).mpr ⟨co,hco,hσ⟩
      rw [hs] at hsl
      cases hsl
    | some σ =>
      obtain ⟨c,t,htok,hses,he',_,hst,hwq,heq,hfq⟩ := ht.wakeNext hs l
      rw [he'] at he
      cases he
      by_cases hc : co = c
      · rw [← hc] at htok hses
        obtain ⟨_,τ,rfl,hτ⟩ := h.sleeper htok
        rw [hses] at hτ
        cases hτ
        exact .inr (by simp [hc])
      · refine .inl (PendingWith.frame h ?_ ?_ ?_)
        · rw [hst,Function.update_of_ne hc]
        · intro τ hτ _
          rwa [heq]
        · intro tok' htok' hco
          rw [hwq]
          refine (List.mem_cons.mp htok').resolve_left ?_
          rintro rfl
          obtain ⟨_,τ,_,hτ⟩ := h.sleeper hco
          have hsl := (ht.asleep tok' τ).mpr ⟨co,hco,hτ⟩
          rw [hs] at hsl
          cases hsl
          exact hc (ht.unique hτ hses)

private theorem suspend_pending {new : Status} (ht : (s.setStatus c new).Tables none) (hc : co ≠ c) (h : s.Pending co how)
    (he : s.suspend c new = .ok s' fx) : s'.Pending co how ∨ .resume co how ∈ fx := by
  refine dispatchWakeup_pending ht s.wakeupQueue (PendingWith.frame h ?_ (fun _ hσ _ => hσ) fun _ htok _ => htok) he
  exact Function.update_of_ne hc _ _

/-- Books and further queue entries change nothing for the others. -/
private theorem Pending.mono (h : s.Pending co how) (hs : s'.status co = s.status co) (he : s.errorQueue ⊆ s'.errorQueue)
    (hw : s.wakeupQueue ⊆ s'.wakeupQueue) : s'.Pending co how :=
  PendingWith.frame h hs (fun _ hσ _ => he hσ) fun _ htok _ => hw htok

private theorem SameQueues.pending (h : s.Pending co how) (hq : s.SameQueues s') : s'.Pending co how := by
  obtain ⟨hc,hw,_⟩ := hq
  have hst : s'.status = s.status := congrArg (·.2.2.2.2.2) hc
  have he : s'.errorQueue = s.errorQueue := congrArg (·.2.2.2.1) hc
  exact h.mono (by rw [hst]) (by rw [he]; exact List.Subset.refl _) (by rw [hw]; exact List.Subset.refl _)

private theorem finish_pending (ht : s.Tables (some c)) (hc : co ≠ c) (h : s.Pending co how) (he : s.finish c = .ok s' fx) :
    s'.Pending co how ∨ .resume co how ∈ fx := by
  rw [finish,Act.bind_ok,Act.after_eq_ok] at he
  obtain ⟨fx₂,he,rfl⟩ := he
  have hcore : (if (s.sessionCoroutineAddress c).isSome then s.clearRequest c else s).core = s.core := by split <;> rfl
  have hwq : (if (s.sessionCoroutineAddress c).isSome then s.clearRequest c else s).wakeupQueue = s.wakeupQueue := by split <;> rfl
  have hctl : (if (s.sessionCoroutineAddress c).isSome then s.clearRequest c else s).control = s.control := by split <;> rfl
  refine (suspend_pending ((ht.congr hcore).leave rfl (by simp) (by simp)) hc (SameQueues.pending h ⟨hcore,hwq,hctl⟩) he).imp_right ?_
  exact fun hm => List.mem_append_right _ hm

private theorem perform_pending (ht : s.Tables (some c)) (hctl : s.control = .running c) (ha : s.Allowed e) (h : s.Pending co how)
    (he : s.perform c e = .ok s' fx) : s'.Pending co how ∨ .resume co how ∈ fx ∨ s'.control = .exited := by
  have hc : co ≠ c := by
    rintro rfl
    exact h.waits.1 ((ht.running co).mpr rfl)
  have hnew : ∀ co', s.Available co' → co ≠ co' := by
    rintro co' hav rfl
    exact h.waits.2 hav
  cases e with
  | response _ | unknownPrototype _ _ | request _ _ _ | error _ _ _ _ => cases he
  | call σ addr => exact (suspend_pending (ht.called ha.2 addr) hc (h.mono rfl (List.Subset.refl _) (List.Subset.refl _)) he).imp_right .inl
  | sleep σ tok =>
    exact (suspend_pending (ht.slept ha.1 (ha.2.free hctl) (.inl rfl)) hc (h.mono rfl (List.Subset.refl _) (List.Subset.refl _))
      he).imp_right .inl
  | wait σ tok =>
    exact (suspend_pending (ht.slept ha.1 (ha.2.free hctl) (.inr rfl)) hc (h.mono rfl (List.Subset.refl _) (List.Subset.refl _))
      he).imp_right .inl
  | wakeup tok =>
    rw [perform] at he
    split at he
    · cases he
      exact .inl (h.mono rfl (List.Subset.refl _) (List.subset_append_left _ _))
    · cases he
      exact .inl h
  | fork co' =>
    rw [perform,Tables.coCreate_eq ha.2] at he
    cases he
    exact .inl (h.mono (Function.update_of_ne (hnew co' ha.2) _ _) (List.Subset.refl _) (List.Subset.refl _))
  | timeout σ co' =>
    rw [perform,Tables.coCreate_eq ha.2.2] at he
    cases he
    exact .inl (h.mono (Function.update_of_ne (hnew co' ha.2.2) _ _) (List.Subset.refl _) (List.Subset.refl _))
  | ret sent =>
    obtain ⟨t,fx',he',hq⟩ := s.ret_core c sent
    rw [perform,he'] at he
    cases he
    exact .inl (SameQueues.pending h hq)
  | ignoreret =>
    cases he
    exact .inl (SameQueues.pending h ⟨rfl,rfl,rfl⟩)
  | makeResponse r =>
    obtain ⟨t,fx',he',hq⟩ := s.response_core c r
    rw [perform,he'] at he
    cases he
    exact .inl (SameQueues.pending h hq)
  | respond r ok sent =>
    obtain ⟨t,fx',he',hq⟩ := s.respond_core r ok sent
    rw [perform,he'] at he
    cases he
    exact .inl (SameQueues.pending h hq)
  | term service order =>
    cases he
    exact .inl (h.mono rfl (List.subset_append_left _ _) (List.Subset.refl _))
  | finish => exact (finish_pending ht hc h he).imp_right .inl
  | raise co' =>
    rw [perform,suspendError_eq c ha.2,Act.after_eq_ok] at he
    obtain ⟨fx₂,he,rfl⟩ := he
    have hst : ((((s.clearRequest c).setStatus co' .ready).pushFork co').setStatus c .dead).status co = s.status co :=
      (Function.update_of_ne hc _ _).trans (Function.update_of_ne (hnew co' ha.2) _ _)
    have h' : ((((s.clearRequest c).setStatus co' .ready).pushFork co').setStatus c .dead).Pending co how :=
      h.mono hst (List.Subset.refl _) (List.Subset.refl _)
    refine (dispatchForks_pending (ht.raised ha.2) (by simp [setStatus,pushFork]) h' he).imp_right fun hm => .inl ?_
    exact List.mem_append_right _ hm
  | exit =>
    cases he
    exact .inr (.inr rfl)

/-- Whoever is to be resumed stays so until it is. -/
theorem step_pending (hi : s.Inv) (ha : s.Allowed e) (h : s.Pending co how) (he : s.step e = .ok s' fx) :
    s'.Pending co how ∨ .resume co how ∈ fx ∨ s'.control = .exited := by
  rw [step] at he
  split at he
  · rename_i hc
    rw [Inv,hc] at hi
    obtain ⟨ht,hw,her,hf⟩ := hi
    rcases h with ⟨_,hr⟩ | ⟨σ,hσ,_,_⟩ | ⟨tok,htok,_⟩
    · have hm := (ht.forks co).mpr hr
      rw [hf] at hm
      cases hm
    · rw [her] at hσ
      cases hσ
    · rw [hw] at htok
      cases htok
  · rename_i c hc
    rw [Inv,hc] at hi
    exact perform_pending hi hc ha h he
  · rename_i hc
    cases he
    exact .inr (.inr hc)

theorem run_inv {s₀ : Sched} {tr : Trace Event Effect} (h₀ : s₀.Inv) (hr : Run step (fun _ s e => s.Allowed e) s₀ tr s) : s.Inv := by
  refine hr.invariant (fun _ s => s.Inv) h₀ fun _ s e s' fx hi ha he => ?_
  obtain ⟨s₁,fx₁,he₁,hi₁⟩ := step_spec hi ha
  rw [he] at he₁
  cases he₁
  exact hi₁

theorem run_pending {s₁ : Sched} {tr : Trace Event Effect} (h₁ : s₁.Inv) (hp : s₁.Pending co how)
    (hr : Run step (fun _ s e => s.Allowed e) s₁ tr s) : s.Pending co how ∨ .resume co how ∈ tr.flatMap (·.2) ∨ s.control = .exited := by
  have hall := hr.invariant (fun tr s => s.Inv ∧ (s.Pending co how ∨ .resume co how ∈ tr.flatMap (·.2) ∨ s.control = .exited))
    ⟨h₁,.inl hp⟩ fun tr s e s' fx hi ha he => ?_
  · exact hall.2
  · obtain ⟨hi,h⟩ := hi
    obtain ⟨s₁,fx₁,he₁,hi₁⟩ := step_spec hi ha
    rw [he] at he₁
    cases he₁
    refine ⟨hi₁,?_⟩
    rw [List.flatMap_append,List.mem_append]
    rcases h with h | h | h
    · rcases step_pending hi ha h he with h | h | h
      · exact .inl h
      · exact .inr (.inl (.inr (by simpa using h)))
      · exact .inr (.inr h)
    · exact .inr (.inl (.inl h))
    · rw [step,h] at he
      cases he
      exact .inr (.inr h)

/-- The scheduler from `skynet.start` on. -/
def Reachable (s : Sched) : Prop := ∃ session co tr, session ≠ 0 ∧ Run step (fun _ s e => s.Allowed e) (started session co) tr s

theorem Reachable.inv (h : s.Reachable) : s.Inv := by
  obtain ⟨session,co,tr,hz,hr⟩ := h
  exact run_inv (started_inv session co hz) hr

/-- When the control is back on the C side nobody is to be resumed. -/
private theorem resumed_of_pending {s₁ : Sched} {tr : Trace Event Effect} (h : s₁.Inv) (hp : s₁.Pending co how)
    (hr : Run step (fun _ s e => s.Allowed e) s₁ tr s) (hi : s.control = .idle) : .resume co how ∈ tr.flatMap (·.2) := by
  have hinv := run_inv h hr
  rcases run_pending h hp hr with hp | hm | hx
  · rw [Inv,hi] at hinv
    obtain ⟨ht,hw,her,hf⟩ := hinv
    rcases hp with ⟨_,hc⟩ | ⟨σ,hσ,_,_⟩ | ⟨tok,htok,_⟩
    · have hm := (ht.forks co).mpr hc
      rw [hf] at hm
      cases hm
    · rw [her] at hσ
      cases hσ
    · rw [hw] at htok
      cases htok
  · exact hm
  · rw [hi] at hx
    cases hx

/-- The calls that a message of type `PTYPE_ERROR` reports to have failed. -/
def Reported (s : Sched) (session source σ : Nat) : Prop :=
  if session = 0 then (σ,source) ∈ s.watchingSession else σ = session ∧ σ ∈ s.watchingSession.map (·.1)

private theorem errorDispatch_reported {t : Sched} {session source : Nat} {order : List Nat} (hw : t.watchingSession = s.watchingSession)
    (hp : session = 0 → s.InSomeOrder source order) (h : s.Reported session source σ) :
    σ ∈ (t.errorDispatch session source order).errorQueue := by
  unfold Reported at h
  unfold errorDispatch
  split at h
  · rename_i hz
    rw [if_pos hz]
    refine List.mem_append_right _ ((List.isPerm_iff.mp (hp hz)).mem_iff.mpr ?_)
    exact List.mem_map.mpr ⟨_,List.mem_filter.mpr ⟨h,by simp⟩,rfl⟩
  · rename_i hz
    obtain ⟨rfl,hm⟩ := h
    rw [if_neg hz,hw,if_pos hm]
    exact List.mem_append_right _ (List.mem_singleton_self _)

theorem errorDispatch_status (t : Sched) (session source : Nat) (order : List Nat) :
    (t.errorDispatch session source order).status = t.status := by
  unfold errorDispatch
  split
  · rfl
  · split <;> rfl

end Sched
end MyProgram.SkynetLua
