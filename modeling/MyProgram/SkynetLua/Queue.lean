import MyProgram.SkynetLua.Sleepers

/-! The critical section of a service: `lualib/skynet/queue.lua`. -/
namespace MyProgram.SkynetLua.Queue
open Lib

/-- Where a coroutine stands in the closure: not in it, at its `skynet.wait` or behind it
before the assertion, or in that many calls of its function. -/
inductive Place where
  | outside
  | waiting
  | inside (n : Nat)
  deriving DecidableEq, Repr

def Place.isInside : Place → Bool
  | .inside _ => true
  | .outside | .waiting => false

inductive Site where
  | sched (site : SkynetLua.Site)
  | assertion | call
  deriving DecidableEq, Repr

/-- A step of the scheduler, or a coroutine that was not in the section asks for it or gets it. -/
inductive Effect where
  | sched (e : SkynetLua.Effect)
  | asked (co : Co)
  | admitted (co : Co)
  deriving DecidableEq, Repr

abbrev QueueM := Act Site Effect

/-- The scheduler with the upvalues of one closure. -/
structure Section where
  sched : Sched
  currentThread : Option Co
  ref : Int
  threadQueue : List Co
  place : Co → Place

/-- What the scheduler does is done below the section. -/
def below {α : Type} (x : LuaM α) : QueueM α := x.within .sched .sched

namespace Section

/-- `skynet.queue()` in a service behind `skynet.start`. -/
def queue (session : Nat) (co : Co) : Section := ⟨Sched.started session co,none,0,[],fun _ => .outside⟩

/-- The closure sets itself as owner and calls the function. -/
def call (q : Section) (co : Co) : Section := { q with
  currentThread := some co
  ref := q.ref + 1
  place := Function.update q.place co (match q.place co with
    | .inside n => .inside (n + 1)
    | .outside | .waiting => .inside 1) }

/-- The closure up to its `skynet.wait`, or up to the call of its function. -/
def enter (q : Section) (co : Co) (session : Nat) : QueueM Section :=
  match q.currentThread with
  | none => .ok (q.call co) [.asked co,.admitted co]
  | some current =>
    if current = co then pure (q.call co)
    else do
      Act.emit (.asked co)
      let s ← below (q.sched.perform co (.wait session none))
      pure { q with sched := s, threadQueue := q.threadQueue ++ [co], place := Function.update q.place co .waiting }

/-- Behind `skynet.wait`. -/
def resumed (q : Section) (co : Co) : QueueM Section :=
  if q.ref = 0 then .ok (q.call co) [.admitted co] else .fail .assertion .assertion

/-- One call less. -/
def leaveCall (q : Section) (co : Co) : Section := { q with
  ref := q.ref - 1
  place := Function.update q.place co (match q.place co with
    | .inside (n + 2) => .inside (n + 1)
    | .inside 0 | .inside 1 | .outside | .waiting => .outside) }

/-- `xpcall_ret`, also behind an error of the function. -/
def xpcallRet (q : Section) (co : Co) : QueueM Section :=
  if q.ref - 1 = 0 then
    match q.threadQueue with
    | [] => pure { q.leaveCall co with currentThread := none }
    | next :: l => do
      let s ← below (q.sched.perform co (.wakeup (.thread next)))
      pure { q.leaveCall co with sched := s, currentThread := some next, threadQueue := l }
  else pure (q.leaveCall co)

end Section

/-- What the scheduler and the program outside the section do, and the steps of the
coroutine that runs in the closure. -/
inductive Event where
  | other (e : SkynetLua.Event)
  | enter (session : Nat)
  | resumed
  | leave
  deriving DecidableEq, Repr

/-- The end of a coroutine's main function. -/
def ends : SkynetLua.Event → Bool
  | .finish | .raise _ => true
  | _ => false

namespace Section

/-- A step of the closure is one of the coroutine that has the control. -/
def running (q : Section) (f : Co → QueueM Section) : QueueM Section :=
  match q.sched.control with
  | .running co => f co
  | .idle | .exited => .fail .assertion .call

def step (q : Section) : Event → QueueM Section
  | .other e => do
    let s ← below (q.sched.step e)
    pure { q with sched := s }
  | .enter session => q.running fun co => q.enter co session
  | .resumed => q.running q.resumed
  | .leave => q.running q.xpcallRet

/-- Whether the coroutine that has the control is at such a place. -/
def runsAt (q : Section) (p : Place → Bool) (nobody : Bool) : Bool :=
  match q.sched.control with
  | .running co => p (q.place co)
  | .idle | .exited => nobody

/-- The coroutine that runs is not in the middle of the closure, and ends outside of it:
`xpcall` lets no error out. -/
def inProgram (q : Section) (e : SkynetLua.Event) : Bool :=
  q.runsAt (fun p => if ends e then p = .outside else p ≠ .waiting) true

/-- No coroutine is woken from elsewhere while it waits for the section. -/
def unwoken (q : Section) : SkynetLua.Event → Bool
  | .wakeup (.thread co) => q.place co ≠ .waiting
  | _ => true

def Allowed (q : Section) : Event → Prop
  | .other e => q.sched.Allowed e ∧ q.sched.Orderly e ∧ q.inProgram e = true ∧ q.unwoken e = true
  | .enter session => q.sched.FreshSession session ∧ q.runsAt (· ≠ .waiting) false = true
  | .resumed => q.runsAt (· = .waiting) false = true
  | .leave => q.runsAt Place.isInside false = true

instance (q : Section) (e : Event) : Decidable (q.Allowed e) :=
  match e with
  | .other e => inferInstanceAs (Decidable (q.sched.Allowed e ∧ q.sched.Orderly e ∧ q.inProgram e = true ∧ q.unwoken e = true))
  | .enter session => inferInstanceAs (Decidable (q.sched.FreshSession session ∧ q.runsAt (· ≠ .waiting) false = true))
  | .resumed => inferInstanceAs (Decidable (q.runsAt (· = .waiting) false = true))
  | .leave => inferInstanceAs (Decidable (q.runsAt Place.isInside false = true))

def asked (tr : Trace Event Effect) : List Co := (tr.flatMap (·.2)).filterMap fun
  | .asked co => some co
  | .sched _ | .admitted _ => none

def admitted (tr : Trace Event Effect) : List Co := (tr.flatMap (·.2)).filterMap fun
  | .admitted co => some co
  | .sched _ | .asked _ => none

/-- The upvalues agree with the places: the owner is inside as often as `ref` says, or it
was chosen and is on its way; all others that wait are in the queue, in the order in
which they came. -/
structure Shape (q : Section) (tr : Trace Event Effect) : Prop where
  inside : ∀ c n, q.place c = .inside n → q.currentThread = some c ∧ q.ref = n ∧ 0 < n
  owner : ∀ c, q.currentThread = some c → (q.place c).isInside = true ∨ q.place c = .waiting ∧ q.ref = 0
  free : q.currentThread = none → q.ref = 0 ∧ q.threadQueue = []
  queued : ∀ c, c ∈ q.threadQueue ↔ q.place c = .waiting ∧ q.currentThread ≠ some c
  nodup : q.threadQueue.Nodup
  order : asked tr = admitted tr ++ (if q.ref = 0 then q.currentThread.toList else []) ++ q.threadQueue

/-- A coroutine in the queue is not woken, and the one that was chosen is or was. -/
structure Phases (q : Section) : Prop where
  tidy : q.sched.Tidy q.sched.wakeupQueue
  parked : ∀ c ∈ q.threadQueue, q.sched.Parked c
  chosen : ∀ c, q.currentThread = some c → q.place c = .waiting → q.sched.Woken c

structure Inv (q : Section) (tr : Trace Event Effect) : Prop where
  sched : q.sched.Inv
  shape : q.Shape tr
  phases : q.sched.control ≠ .exited → q.Phases

variable {q q' : Section} {tr : Trace Event Effect} {co c : Co} {s : Sched} {fx : List Effect} {e : Event} {σ : Nat}

theorem asked_snoc (tr : Trace Event Effect) (e : Event) (fx : List Effect) : asked (tr ++ [(e,fx)]) = asked tr ++ asked [(e,fx)] := by
  simp only [asked,List.flatMap_append,List.filterMap_append]

theorem admitted_snoc (tr : Trace Event Effect) (e : Event) (fx : List Effect) :
    admitted (tr ++ [(e,fx)]) = admitted tr ++ admitted [(e,fx)] := by
  simp only [admitted,List.flatMap_append,List.filterMap_append]

/-- What the scheduler does says nothing about the section. -/
theorem asked_sched (tr : Trace Event Effect) (e : Event) (fx : List SkynetLua.Effect) :
    asked (tr ++ [(e,fx.map Effect.sched)]) = asked tr ∧ admitted (tr ++ [(e,fx.map Effect.sched)]) = admitted tr := by
  rw [asked_snoc,admitted_snoc]
  simp [asked,admitted,List.filterMap_map]

theorem Shape.other (h : q.Shape tr) (s : Sched) (e : Event) (fx : List SkynetLua.Effect) :
    { q with sched := s }.Shape (tr ++ [(e,fx.map Effect.sched)]) := by
  refine ⟨h.inside,h.owner,h.free,h.queued,h.nodup,?_⟩
  rw [(asked_sched tr e fx).1,(asked_sched tr e fx).2]
  exact h.order

theorem runsAt_eq_true {p : Place → Bool} (h : q.runsAt p false = true) : ∃ co, q.sched.control = .running co ∧ p (q.place co) = true := by
  unfold runsAt at h
  split at h
  · rename_i co hc
    exact ⟨co,hc,h⟩
  · cases h
  · cases h

theorem Inv.running (h : q.Inv tr) (hc : q.sched.control = .running co) : q.sched.Tables (some co) ∧ q.sched.status co = .running ∧ q.Phases := by
  have hi := h.sched
  rw [Sched.Inv,hc] at hi
  exact ⟨hi,(hi.running co).mpr rfl,h.phases (by rw [hc]; simp)⟩

/-- Only the scheduler steps. -/
theorem step_other {e : SkynetLua.Event} (h : q.Inv tr) (ha : q.Allowed (.other e)) :
    ∃ q' fx, q.step (.other e) = .ok q' fx ∧ q'.Inv (tr ++ [(Event.other e,fx)]) := by
  obtain ⟨ha,ho,hp,hu⟩ := ha
  obtain ⟨s,fx,he,hs⟩ := Sched.step_spec h.sched ha
  refine ⟨{ q with sched := s },fx.map Effect.sched,?_,hs,h.shape.other s _ fx,fun hx => ?_⟩
  · rw [step,he]
    simp [below]
  · have hx' : q.sched.control ≠ .exited := by
      intro hc
      rw [Sched.step,hc] at he
      cases he
      exact hx hc
    have hph := h.phases hx'
    obtain ⟨htidy,hk⟩ := Sched.step_waiters h.sched ha ho hph.tidy he hx
    have hne : ∀ c, q.place c = .waiting → e ≠ .wakeup (.thread c) := by
      rintro c hc rfl
      simp [unwoken,hc] at hu
    have hctl : ∀ c, q.place c = .waiting → q.sched.control ≠ .running c := by
      intro c hc hctl
      rw [inProgram,runsAt,hctl] at hp
      simp only [hc] at hp
      split at hp <;> simp at hp
    refine ⟨htidy,fun c hc => ?_,fun c hcur hc => ?_⟩
    · exact (hk c (hne c ((h.shape.queued c).mp hc).1)).1 (hph.parked c hc)
    · exact (hk c (hne c hc)).2 (hph.chosen c hcur hc) (hctl c hc)

/-- The owner or, in a free section, whoever comes is in one call more. -/
theorem Shape.call {tr' : Trace Event Effect} {n : Nat} (h : q.Shape tr) (hcur : q.currentThread = none ∨ q.currentThread = some co)
    (hp : q.place co = .inside n ∨ (q.place co).isInside = false ∧ n = 0) (hr : q.ref = n)
    (ho : asked tr' = admitted tr' ++ q.threadQueue) : (q.call co).Shape tr' := by
  have hplace : (q.call co).place co = .inside (n + 1) := by
    rcases hp with hp | ⟨hp,rfl⟩
    · simp [Section.call,hp]
    · cases hq : q.place co with
      | inside m =>
        rw [hq] at hp
        cases hp
      | outside | waiting => simp [Section.call,hq]
  have hother : ∀ c, c ≠ co → (q.call co).place c = q.place c ∧ q.currentThread ≠ some c := by
    intro c hc
    refine ⟨Function.update_of_ne hc _ _,fun he => ?_⟩
    rw [he] at hcur
    exact hc (by simpa using hcur)
  have href : (q.call co).ref = n + 1 := congrArg (· + 1) hr
  refine ⟨fun c m hm => ?_,fun c hc => ?_,fun hc => (by cases hc),fun c => ?_,h.nodup,?_⟩
  · by_cases hc : c = co
    · rw [hc,hplace] at hm
      cases hm
      exact ⟨by rw [hc]; rfl,by rw [href]; simp,Nat.succ_pos n⟩
    · rw [(hother c hc).1] at hm
      exact absurd (h.inside c m hm).1 (hother c hc).2
  · cases hc
    exact .inl (by rw [hplace]; rfl)
  · change c ∈ q.threadQueue ↔ _ ∧ some co ≠ some c
    by_cases hc : c = co
    · rw [hc,hplace]
      refine ⟨fun hm => ?_,fun hm => by cases hm.1⟩
      rcases hcur with hcur | hcur
      · rw [(h.free hcur).2] at hm
        cases hm
      · exact absurd hcur ((h.queued co).mp hm).2
    · rw [h.queued c,(hother c hc).1]
      simp [(hother c hc).2,Ne.symm hc]
  · rw [if_neg (by rw [href]; omega),List.append_nil]
    exact ho

theorem Phases.call (h : q.Phases) : (q.call co).Phases := by
  refine ⟨h.tidy,h.parked,fun c hc hw => ?_⟩
  cases hc
  exfalso
  cases hp : q.place co <;> simp [Section.call,hp] at hw

/-- Who finds another one in the section comes last in the queue. -/
theorem enter_waits {current : Co} (h : q.Inv tr) (hctl : q.sched.control = .running co) (hcur : q.currentThread = some current)
    (hne : current ≠ co) (hp : q.place co ≠ .waiting) (hf : q.sched.FreshSession σ) :
    ∃ q' fx, q.enter co σ = .ok q' fx ∧ q'.Inv (tr ++ [(Event.enter σ,fx)]) := by
  obtain ⟨_,hrun,hph⟩ := h.running hctl
  obtain ⟨s,fx,he,hs,htidy,hpark,hk⟩ := Sched.wait_waiters h.sched hctl hph.tidy hf
  have hback : ∀ c, c ≠ co → Function.update q.place co .waiting c = q.place c := fun c hc => Function.update_of_ne hc _ _
  have hqueue : ∀ c ∈ q.threadQueue, c ≠ co := by
    rintro c hc rfl
    exact hp ((h.shape.queued c).mp hc).1
  have hout : ∀ n, q.place co ≠ .inside n := by
    intro n hn
    have hin := (h.shape.inside co n hn).1
    rw [hcur] at hin
    exact hne (Option.some.inj hin)
  refine ⟨{ q with sched := s, threadQueue := q.threadQueue ++ [co], place := Function.update q.place co .waiting },
    .asked co :: fx.map Effect.sched,?_,hs,⟨?_,?_,?_,?_,?_,?_⟩,fun _ => ⟨htidy,?_,?_⟩⟩
  · unfold enter
    rw [hcur]
    simp only [if_neg hne,Act.emit_eq,Act.bind_ok,he,below,Act.within_ok,Act.pure_eq,Act.after_ok,List.append_nil,List.singleton_append]
  · intro c n hn
    have hc : c ≠ co := by
      rintro rfl
      simp at hn
    exact h.shape.inside c n ((hback c hc).symm.trans hn)
  · intro c hc
    have hcc : c ≠ co := by
      rintro rfl
      rw [hcur] at hc
      exact hne (Option.some.inj hc)
    have howner := h.shape.owner c hc
    rwa [← hback c hcc] at howner
  · intro hc
    rw [hcur] at hc
    cases hc
  · intro c
    by_cases hc : c = co
    · simp [hc,hcur,hne]
    · simp [hc,h.shape.queued c]
  · exact List.nodup_append.mpr ⟨h.shape.nodup,List.nodup_singleton co,fun a ha b hb => by
      rw [List.mem_singleton.mp hb]
      exact hqueue a ha⟩
  · have hfx : asked [(Event.enter σ,.asked co :: fx.map Effect.sched)] = [co] ∧
        admitted [(Event.enter σ,.asked co :: fx.map Effect.sched)] = [] := by
      simp [asked,admitted,List.filterMap_map]
    rw [asked_snoc,admitted_snoc,hfx.1,hfx.2,h.shape.order,List.append_nil]
    simp only [List.append_assoc]
  · intro c hc
    by_cases hcc : c = co
    · rwa [hcc]
    · exact (hk c hcc).1 (hph.parked c ((List.mem_append.mp hc).resolve_right (by simpa using hcc)))
  · intro c hc hw
    have hcc : c ≠ co := by
      rintro rfl
      rw [hcur] at hc
      exact hne (Option.some.inj hc)
    exact (hk c hcc).2 (hph.chosen c hc ((hback c hcc).symm.trans hw))

/-- A coroutine asks for the section and gets it or waits for it. -/
theorem step_enter (h : q.Inv tr) (ha : q.Allowed (.enter σ)) :
    ∃ q' fx, q.step (.enter σ) = .ok q' fx ∧ q'.Inv (tr ++ [(Event.enter σ,fx)]) := by
  obtain ⟨hf,hat⟩ := ha
  obtain ⟨co,hctl,hp⟩ := runsAt_eq_true hat
  obtain ⟨_,_,hph⟩ := h.running hctl
  have hp : q.place co ≠ .waiting := of_decide_eq_true hp
  rw [step,Section.running,hctl]
  dsimp only
  cases hcur : q.currentThread with
  | none =>
    obtain ⟨hr,hq⟩ := h.shape.free hcur
    have hout : (q.place co).isInside = false := by
      cases hpl : q.place co with
      | inside n =>
        have hin := (h.shape.inside co n hpl).1
        rw [hcur] at hin
        cases hin
      | outside | waiting => rfl
    have horder := h.shape.order
    rw [hr,hcur,hq] at horder
    have hs : (q.call co).Shape (tr ++ [(Event.enter σ,[.asked co,.admitted co])]) := by
      refine h.shape.call (.inl hcur) (.inr ⟨hout,rfl⟩) hr ?_
      rw [asked_snoc,admitted_snoc,horder,hq]
      simp [asked,admitted]
    refine ⟨q.call co,_,?_,h.sched,hs,fun _ => hph.call⟩
    unfold enter
    rw [hcur]
  | some current =>
    by_cases hne : current = co
    · rw [hne] at hcur
      rcases h.shape.owner co hcur with hin | hw
      · cases hpl : q.place co with
        | inside n =>
          obtain ⟨_,hr,hn⟩ := h.shape.inside co n hpl
          have hs : (q.call co).Shape (tr ++ [(Event.enter σ,[])]) := by
            refine h.shape.call (.inr hcur) (.inl hpl) hr ?_
            have horder := h.shape.order
            rw [if_neg (by omega),List.append_nil] at horder
            simpa [asked_snoc,admitted_snoc,asked,admitted] using horder
          refine ⟨q.call co,_,?_,h.sched,hs,fun _ => hph.call⟩
          unfold enter
          rw [hcur]
          exact if_pos rfl
        | outside | waiting =>
          rw [hpl] at hin
          cases hin
      · exact absurd hw.1 hp
    · exact enter_waits h hctl hcur hne hp hf

/-- The assertion behind `skynet.wait` holds. -/
theorem step_resumed (h : q.Inv tr) (ha : q.Allowed .resumed) : ∃ q' fx, q.step .resumed = .ok q' fx ∧ q'.Inv (tr ++ [(Event.resumed,fx)]) := by
  obtain ⟨co,hctl,hp⟩ := runsAt_eq_true ha
  obtain ⟨_,hrun,hph⟩ := h.running hctl
  have hp : q.place co = .waiting := of_decide_eq_true hp
  have hcur : q.currentThread = some co := by
    by_contra hne
    obtain ⟨⟨σ,hσ⟩,_⟩ := hph.parked co ((h.shape.queued co).mpr ⟨hp,hne⟩)
    exact absurd (hrun.symm.trans hσ) (by simp)
  have hr : q.ref = 0 := by
    rcases h.shape.owner co hcur with hin | hw
    · rw [hp] at hin
      cases hin
    · exact hw.2
  have hs : (q.call co).Shape (tr ++ [(Event.resumed,[.admitted co])]) := by
    refine h.shape.call (.inr hcur) (.inr ⟨by rw [hp]; rfl,rfl⟩) hr ?_
    rw [asked_snoc,admitted_snoc,h.shape.order,hr,hcur]
    simp [asked,admitted]
  refine ⟨q.call co,_,?_,h.sched,hs,fun _ => hph.call⟩
  rw [step,Section.running,hctl]
  exact if_pos hr

/-- The end of the outermost call, and who is chosen then. -/
theorem leave_last {next : Co} {l : List Co} (h : q.Inv tr) (hctl : q.sched.control = .running co) (hcur : q.currentThread = some co)
    (hp : q.place co = .inside 1) (hr : q.ref = 1) (hq : q.threadQueue = next :: l) :
    ∃ q' fx, q.xpcallRet co = .ok q' fx ∧ q'.Inv (tr ++ [(Event.leave,fx)]) := by
  obtain ⟨_,_,hph⟩ := h.running hctl
  have hnext := (h.shape.queued next).mp (by rw [hq]; exact List.mem_cons_self)
  have hnd := h.shape.nodup
  rw [hq] at hnd
  obtain ⟨s,he,hs,_,htidy,hwoken,hk⟩ := Sched.wakeup_waiters h.sched hctl hph.tidy (hph.parked next (by rw [hq]; exact List.mem_cons_self))
  have hplace : (q.leaveCall co).place co = .outside := by simp [leaveCall,hp]
  have hback : ∀ c, c ≠ co → (q.leaveCall co).place c = q.place c := fun c hc => Function.update_of_ne hc _ _
  have hne : next ≠ co := by
    rintro rfl
    exact hnext.2 hcur
  refine ⟨{ q.leaveCall co with sched := s, currentThread := some next, threadQueue := l },[],?_,hs,
    ⟨fun c n hn => ?_,fun c hc => ?_,fun hc => (by cases hc),fun c => ?_,(List.nodup_cons.mp hnd).2,?_⟩,fun hx => ?_⟩
  · unfold xpcallRet
    rw [if_pos (by omega),hq]
    simp only [he,below,Act.within_ok,Act.bind_ok,Act.pure_eq,Act.after_ok,List.append_nil,List.map_nil]
  · have hc : c ≠ co := by
      rintro rfl
      rw [hplace] at hn
      cases hn
    rw [hback c hc] at hn
    have hin := (h.shape.inside c n hn).1
    rw [hcur] at hin
    exact absurd (Option.some.inj hin).symm hc
  · cases hc
    refine .inr ⟨(hback next hne).trans hnext.1,?_⟩
    change q.ref - 1 = 0
    omega
  · change c ∈ l ↔ (q.leaveCall co).place c = .waiting ∧ some next ≠ some c
    by_cases hc : c = co
    · rw [hc,hplace]
      refine ⟨fun hm => ?_,fun hm => by cases hm.1⟩
      have hmem : co ∈ q.threadQueue := by
        rw [hq]
        exact List.mem_cons_of_mem _ hm
      exact absurd hcur ((h.shape.queued co).mp hmem).2
    · rw [hback c hc]
      have hiff := h.shape.queued c
      rw [hq,hcur,List.mem_cons] at hiff
      constructor
      · intro hm
        refine ⟨(hiff.mp (.inr hm)).1,?_⟩
        rintro ⟨⟩
        exact (List.nodup_cons.mp hnd).1 hm
      · rintro ⟨hw',hn⟩
        refine (hiff.mpr ⟨hw',fun he => hc (Option.some.inj he).symm⟩).resolve_left ?_
        rintro rfl
        exact hn rfl
  · have horder := h.shape.order
    rw [hr,if_neg (by decide),List.append_nil,hq] at horder
    have hfx := asked_sched tr .leave []
    rw [List.map_nil] at hfx
    rw [hfx.1,hfx.2,horder]
    have href : (q.leaveCall co).ref = 0 := by
      change q.ref - 1 = 0
      omega
    simp [href]
  · refine ⟨htidy,fun c hc => ?_,fun c hc _ => ?_⟩
    · have hcn : c ≠ next := by
        rintro rfl
        exact (List.nodup_cons.mp hnd).1 hc
      exact (hk c hcn).1 (hph.parked c (by rw [hq]; exact List.mem_cons_of_mem _ hc))
    · cases hc
      exact hwoken

/-- The end of the outermost call with nobody in the queue. -/
theorem leave_free (h : q.Inv tr) (hctl : q.sched.control = .running co) (hcur : q.currentThread = some co)
    (hp : q.place co = .inside 1) (hr : q.ref = 1) (hq : q.threadQueue = []) :
    ∃ q' fx, q.xpcallRet co = .ok q' fx ∧ q'.Inv (tr ++ [(Event.leave,fx)]) := by
  obtain ⟨_,_,hph⟩ := h.running hctl
  have hplace : (q.leaveCall co).place co = .outside := by simp [leaveCall,hp]
  have hback : ∀ c, c ≠ co → (q.leaveCall co).place c = q.place c := fun c hc => Function.update_of_ne hc _ _
  have href : (q.leaveCall co).ref = 0 := by
    change q.ref - 1 = 0
    omega
  refine ⟨{ q.leaveCall co with currentThread := none },[],?_,h.sched,
    ⟨fun c n hn => ?_,fun c hc => (by cases hc),fun _ => ⟨href,hq⟩,fun c => ?_,h.shape.nodup,?_⟩,fun _ => ⟨hph.tidy,hph.parked,fun c hc => by cases hc⟩⟩
  · unfold xpcallRet
    rw [if_pos (by omega),hq]
    rfl
  · have hc : c ≠ co := by
      rintro rfl
      rw [hplace] at hn
      cases hn
    rw [hback c hc] at hn
    have hin := (h.shape.inside c n hn).1
    rw [hcur] at hin
    exact absurd (Option.some.inj hin).symm hc
  · change c ∈ q.threadQueue ↔ (q.leaveCall co).place c = .waiting ∧ none ≠ some c
    by_cases hc : c = co
    · rw [hc,hplace,hq]
      simp
    · rw [h.shape.queued c,hback c hc,hcur]
      simp [Ne.symm hc]
  · have horder := h.shape.order
    rw [hr,if_neg (by decide),List.append_nil] at horder
    have hs := asked_sched tr .leave []
    rw [List.map_nil] at hs
    rw [hs.1,hs.2,horder,if_pos href]
    simp [leaveCall]

/-- The end of an inner call. -/
theorem leave_inner {n : Nat} (h : q.Inv tr) (hctl : q.sched.control = .running co) (hcur : q.currentThread = some co)
    (hp : q.place co = .inside (n + 2)) (hr : q.ref = (n + 2 : Nat)) :
    ∃ q' fx, q.xpcallRet co = .ok q' fx ∧ q'.Inv (tr ++ [(Event.leave,fx)]) := by
  obtain ⟨_,_,hph⟩ := h.running hctl
  have hplace : (q.leaveCall co).place co = .inside (n + 1) := by simp [leaveCall,hp]
  have hback : ∀ c, c ≠ co → (q.leaveCall co).place c = q.place c := fun c hc => Function.update_of_ne hc _ _
  have href : (q.leaveCall co).ref = (n + 1 : Nat) := by
    change q.ref - 1 = _
    omega
  have hown : ∀ c, q.currentThread = some c → c = co := by
    intro c hc
    rw [hcur] at hc
    exact (Option.some.inj hc).symm
  refine ⟨q.leaveCall co,[],?_,h.sched,⟨fun c m hm => ?_,fun c hc => ?_,fun hc => ?_,fun c => ?_,h.shape.nodup,?_⟩,
    fun _ => ⟨hph.tidy,hph.parked,fun c hc hw => ?_⟩⟩
  · unfold xpcallRet
    rw [if_neg (by omega)]
    rfl
  · by_cases hc : c = co
    · rw [hc,hplace] at hm
      cases hm
      exact ⟨by rw [hc]; exact hcur,href,Nat.succ_pos n⟩
    · rw [hback c hc] at hm
      exact absurd (hown c (h.shape.inside c m hm).1) hc
  · rw [hown c hc,hplace]
    exact .inl rfl
  · exact absurd (hcur.symm.trans hc) (by simp)
  · change c ∈ q.threadQueue ↔ (q.leaveCall co).place c = .waiting ∧ q.currentThread ≠ some c
    by_cases hc : c = co
    · rw [h.shape.queued c,hc,hplace,hcur]
      simp
    · rw [h.shape.queued c,hback c hc]
  · have horder := h.shape.order
    rw [if_neg (by omega),List.append_nil] at horder
    have hs := asked_sched tr .leave []
    rw [List.map_nil] at hs
    rw [hs.1,hs.2,horder,if_neg (by rw [href]; omega),List.append_nil]
    rfl
  · rw [hown c hc,hplace] at hw
    cases hw

theorem step_leave (h : q.Inv tr) (ha : q.Allowed .leave) : ∃ q' fx, q.step .leave = .ok q' fx ∧ q'.Inv (tr ++ [(Event.leave,fx)]) := by
  obtain ⟨co,hctl,hin⟩ := runsAt_eq_true ha
  obtain ⟨_,_,hph⟩ := h.running hctl
  rw [step,Section.running,hctl]
  dsimp only
  cases hp : q.place co with
  | outside | waiting =>
    rw [hp] at hin
    cases hin
  | inside n =>
    obtain ⟨hcur,hr,hn⟩ := h.shape.inside co n hp
    match n, hn with
    | 1, _ =>
      cases hq : q.threadQueue with
      | nil => exact leave_free h hctl hcur hp hr hq
      | cons next l => exact leave_last h hctl hcur hp hr hq
    | n + 2, _ => exact leave_inner h hctl hcur hp hr

/-- A service from `skynet.start` on, with one critical section. -/
def Reachable (tr : Trace Event Effect) (q : Section) : Prop :=
  ∃ session co, session ≠ 0 ∧ Run step (fun _ q e => q.Allowed e) (queue session co) tr q

theorem step_spec {e : Event} (h : q.Inv tr) (ha : q.Allowed e) : ∃ q' fx, q.step e = .ok q' fx ∧ q'.Inv (tr ++ [(e,fx)]) := by
  cases e with
  | other e => exact step_other h ha
  | enter σ => exact step_enter h ha
  | resumed => exact step_resumed h ha
  | leave => exact step_leave h ha

theorem Reachable.inv (h : Reachable tr q) : q.Inv tr := by
  obtain ⟨session,co,hz,hr⟩ := h
  refine hr.invariant (fun tr q => q.Inv tr) ?_ fun tr q e q' fx hi ha he => ?_
  · refine ⟨Sched.started_inv session co hz,⟨?_,?_,?_,?_,List.nodup_nil,rfl⟩,fun _ => ⟨Sched.started_tidy session co,?_,?_⟩⟩
    all_goals simp [queue]
  · obtain ⟨q'',fx',he',hi'⟩ := step_spec hi ha
    rw [he'] at he
    cases he
    exact hi'

/-- In every state of a service that uses the section, whatever its coroutines and
messages do in between: no step fails, so nobody who comes out of `skynet.wait` finds
the section taken; all calls of the function that have not returned are of one
coroutine; coroutines get the section in the order in which they asked for it; and
when the service is idle nobody waits for a section in which there is nobody. -/
theorem section_is_fair_lock (q : Section) (tr : Trace Event Effect) (h : Reachable tr q) :
    (∀ e, q.Allowed e → ∃ q' fx, q.step e = .ok q' fx) ∧
    (∀ c c' n n', q.place c = .inside n → q.place c' = .inside n' → c = c') ∧
    admitted tr <+: asked tr ∧
    (q.sched.control = .idle → ∀ c, q.place c = .waiting → ∃ c' n, q.place c' = .inside n) := by
  have hi := h.inv
  refine ⟨fun e ha => ?_,fun c c' n n' hc hc' => ?_,?_,fun hidle c hc => ?_⟩
  · obtain ⟨q',fx,he,_⟩ := step_spec hi ha
    exact ⟨q',fx,he⟩
  · exact Option.some.inj ((hi.shape.inside c n hc).1.symm.trans (hi.shape.inside c' n' hc').1)
  · rw [hi.shape.order,List.append_assoc]
    exact List.prefix_append _ _
  · have hph := hi.phases (by rw [hidle]; simp)
    cases hcur : q.currentThread with
    | none =>
      have hm : c ∈ q.threadQueue := (h.inv.shape.queued c).mpr ⟨hc,by rw [hcur]; simp⟩
      rw [(hi.shape.free hcur).2] at hm
      cases hm
    | some d =>
      rcases hi.shape.owner d hcur with hin | ⟨hw,_⟩
      · cases hp : q.place d with
        | inside n => exact ⟨d,n,hp⟩
        | outside | waiting =>
          rw [hp] at hin
          cases hin
      · exact absurd (hph.chosen d hcur hw) (hi.sched.not_woken hidle)

/-- A coroutine calls another service in its section. Two others come meanwhile, and behind
it the first of them gets in before it gets in again. -/
theorem section_is_fair_lock_queued : ∃ tr q, Reachable tr q ∧ admitted tr = [0,1,2] ∧ asked tr = [0,1,2,0] ∧
    q.place 0 = .waiting ∧ admitted tr <+: asked tr := by
  have hcheck : runCheck step (fun _ q e => q.Allowed e)
      (fun tr q => admitted tr = [0,1,2] ∧ asked tr = [0,1,2,0] ∧ q.place 0 = .waiting)
      [.other (.response 1),.enter 2,.other (.fork 1),.other (.fork 2),.enter 3,.other (.call 4 9),.enter 5,.enter 6,
        .other (.response 4),.leave,.leave,.enter 7,.resumed,.leave,.other .finish,.resumed] [] (queue 1 0) = true := by decide
  obtain ⟨tr,q,hr,_,ha,hk,hp⟩ := Run.of_runCheck hcheck
  have hreach : Reachable tr q := ⟨1,0,by decide,hr⟩
  exact ⟨tr,q,hreach,ha,hk,hp,(section_is_fair_lock q tr hreach).2.2.1⟩

end Section
end MyProgram.SkynetLua.Queue
