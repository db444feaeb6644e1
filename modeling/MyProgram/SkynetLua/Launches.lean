import MyProgram.SkynetLua.ServiceMgr

/-! A unique service is launched once, and everybody gets the same handle. -/
namespace MyProgram.SkynetLua.ServiceMgr
open Lib

/-- It wakes all of them and disturbs no other. -/
theorem wakeAll_waiters {s : Sched} {co : Co} (l : List Co) (hi : s.Inv) (hc : s.control = .running co) (h : s.Tidy s.wakeupQueue) (hn : l.Nodup)
    (hp : ∀ c ∈ l, s.Parked c) : ∃ s', wakeAll co l s = .ok s' [] ∧ s'.Inv ∧ s'.control = .running co ∧ s'.Tidy s'.wakeupQueue ∧
      ∀ c, (c ∈ l → s'.Woken c) ∧ (c ∉ l → s.Parked c → s'.Parked c) ∧ (s.Woken c → s'.Woken c) := by
  induction l generalizing s with
  | nil => exact ⟨s,rfl,hi,hc,h,fun c => ⟨fun hm => (by cases hm),fun _ hp => hp,fun hw => hw⟩⟩
  | cons d l ih =>
    obtain ⟨hd,hn⟩ := List.nodup_cons.mp hn
    obtain ⟨s₁,he₁,hi₁,hc₁,h₁,hw₁,hk₁⟩ := Sched.wakeup_waiters hi hc h (hp d List.mem_cons_self)
    have hne : ∀ c ∈ l, c ≠ d := by
      rintro c hm rfl
      exact hd hm
    obtain ⟨s',he',hi',hc',h',hk'⟩ := ih hi₁ hc₁ h₁ hn fun c hm => (hk₁ c (hne c hm)).1 (hp c (List.mem_cons_of_mem _ hm))
    refine ⟨s',?_,hi',hc',h',fun c => ⟨fun hm => ?_,fun hm hpc => ?_,fun hw => ?_⟩⟩
    · rw [wakeAll,he₁,Act.bind_ok,he',Act.after_nil]
    · rcases List.mem_cons.mp hm with rfl | hm
      · exact (hk' c).2.2 hw₁
      · exact (hk' c).1 hm
    · rw [List.mem_cons,not_or] at hm
      exact (hk' c).2.1 hm.2 ((hk₁ c hm.1).1 hpc)
    · by_cases hcd : c = d
      · rw [hcd]
        exact (hk' d).2.2 hw₁
      · exact (hk' c).2.2 ((hk₁ c hcd).2 hw)

namespace Mgr

/-- Everything that happened. -/
def done (tr : Trace Event Effect) : List Effect := tr.flatMap (·.2)

/-- A coroutine is in the queue of a name. -/
def Listed (m : Mgr) (name : Bytes) (c : Co) : Prop :=
  ∃ launch queue, m.service name = some (.querying launch queue) ∧ c ∈ queue.map (·.co)

/-- A launch of the name has returned `nil`. -/
def ReturnedNil (tr : Trace Event Effect) (name : Bytes) : Prop := ∃ c, .returned c name (.ok none) ∈ done tr

/-- The table agrees with the places: who calls the function is known, who is in a queue
waits; what was returned is what the table has. -/
structure Shape (m : Mgr) (tr : Trace Event Effect) : Prop where
  launcher : ∀ c name, m.place c = .launching name ↔ ∃ t queue, m.service name = some (.querying (some t) queue) ∧ t.co = c
  listed : ∀ name launch queue, m.service name = some (.querying launch queue) →
    (queue.map (·.co)).Nodup ∧ ∀ c ∈ queue.map (·.co), m.place c = .waiting name
  answered : ∀ c name, m.place c = .waiting name → ¬m.Listed name c →
    (∃ r, r ≠ .ok none ∧ m.service name = outcome r) ∨ ReturnedNil tr name
  settled : ∀ c name r, .returned c name r ∈ done tr → r ≠ .ok none → m.service name = outcome r
  broken : ∀ c name, .assertion c name ∈ done tr → ReturnedNil tr name

/-- Who is in a queue is not woken, and who waits and is in none was. -/
structure Phases (m : Mgr) : Prop where
  tidy : m.sched.Tidy m.sched.wakeupQueue
  parked : ∀ c name, m.place c = .waiting name → m.Listed name c → m.sched.Parked c
  woken : ∀ c name, m.place c = .waiting name → ¬m.Listed name c → m.sched.Woken c

structure Inv (m : Mgr) (tr : Trace Event Effect) : Prop where
  sched : m.sched.Inv
  shape : m.Shape tr
  phases : m.sched.control ≠ .exited → m.Phases

variable {m m' : Mgr} {tr : Trace Event Effect} {co c : Co} {name : Bytes} {e : Event} {r : Result} {fx : List Effect} {σ : Nat}

theorem mem_done_snoc {x : Effect} : x ∈ done (tr ++ [(e,fx)]) ↔ x ∈ done tr ∨ x ∈ fx := by
  simp [done]

theorem ReturnedNil.snoc (h : ReturnedNil tr name) : ReturnedNil (tr ++ [(e,fx)]) name := by
  obtain ⟨c,hc⟩ := h
  exact ⟨c,mem_done_snoc.mpr (.inl hc)⟩

/-- A result that is not `nil` is no table. -/
theorem outcome_ne (hr : r ≠ .ok none) : outcome r ≠ none ∧ ∀ launch queue, outcome r ≠ some (.querying launch queue) := by
  rcases r with text | _ | h
  · simp [outcome]
  · exact absurd rfl hr
  · simp [outcome]

/-- What happens in a step is said by its own effects. -/
theorem Shape.snoc (h : m.Shape tr) (hs : ∀ c name r, .returned c name r ∈ fx → r ≠ .ok none → m.service name = outcome r)
    (hb : ∀ c name, .assertion c name ∈ fx → ReturnedNil tr name) : m.Shape (tr ++ [(e,fx)]) := by
  refine ⟨h.launcher,h.listed,fun c name hc hl => (h.answered c name hc hl).imp_right ReturnedNil.snoc,fun c name r hm hr => ?_,
    fun c name hm => ?_⟩
  · rcases mem_done_snoc.mp hm with hm | hm
    · exact h.settled c name r hm hr
    · exact hs c name r hm hr
  · rcases mem_done_snoc.mp hm with hm | hm
    · exact (h.broken c name hm).snoc
    · exact (hb c name hm).snoc

/-- Only the scheduler steps. -/
theorem step_other {e : SkynetLua.Event} (h : m.Inv tr) (ha : m.Allowed (.other e)) :
    ∃ m' fx, m.step (.other e) = .ok m' fx ∧ m'.Inv (tr ++ [(Event.other e,fx)]) := by
  obtain ⟨ha,ho,hp,hu⟩ := ha
  obtain ⟨s,fx,he,hs⟩ := Sched.step_spec h.sched ha
  have hshape : { m with sched := s }.Shape tr := ⟨h.shape.launcher,h.shape.listed,h.shape.answered,h.shape.settled,h.shape.broken⟩
  refine ⟨{ m with sched := s },fx.map Effect.sched,?_,hs,hshape.snoc (by simp) (by simp),fun hx => ?_⟩
  · rw [step,he]
    simp [below]
  · have hx' : m.sched.control ≠ .exited := by
      intro hc
      rw [Sched.step,hc] at he
      cases he
      exact hx hc
    have hph := h.phases hx'
    obtain ⟨htidy,hk⟩ := Sched.step_waiters h.sched ha ho hph.tidy he hx
    have hne : ∀ c name, m.place c = .waiting name → e ≠ .wakeup (.thread c) := by
      rintro c name hc rfl
      simp [unwoken,hc,Place.isWaiting] at hu
    have hctl : ∀ c name, m.place c = .waiting name → m.sched.control ≠ .running c := by
      intro c name hc hctl
      rw [inProgram,runsAt,hctl] at hp
      simp only [hc] at hp
      split at hp <;> simp [Place.isWaiting] at hp
    exact ⟨htidy,fun c name hc hl => (hk c (hne c name hc)).1 (hph.parked c name hc hl),
      fun c name hc hl => (hk c (hne c name hc)).2 (hph.woken c name hc hl) (hctl c name hc)⟩

theorem Inv.running (h : m.Inv tr) (hc : m.sched.control = .running co) : m.sched.status co = .running ∧ m.Phases := by
  have hi := h.sched
  rw [Sched.Inv,hc] at hi
  exact ⟨(hi.running co).mpr rfl,h.phases (by rw [hc]; simp)⟩

/-- A coroutine that runs is in no queue. -/
theorem Inv.not_listed (h : m.Inv tr) (hc : m.sched.control = .running co) (name : Bytes) : ¬m.Listed name co := by
  intro hl
  obtain ⟨hrun,hph⟩ := h.running hc
  obtain ⟨launch,queue,hq,hm⟩ := hl
  obtain ⟨⟨σ,hσ⟩,_⟩ := hph.parked co name ((h.shape.listed name launch queue hq).2 co hm) ⟨launch,queue,hq,hm⟩
  exact absurd (hrun.symm.trans hσ) (by simp)

/-- A coroutine comes out of `waitfor` and the table stays as it is. -/
theorem Inv.leaves {x : Effect} (h : m.Inv tr) (hc : m.sched.control = .running co) (hp : ∀ name, m.place co ≠ .launching name)
    (hs : ∀ c name r, x = .returned c name r → r ≠ .ok none → m.service name = outcome r)
    (hb : ∀ c name, x = .assertion c name → ReturnedNil tr name) : (m.setPlace co .outside).Inv (tr ++ [(e,[x])]) := by
  have hplace : (m.setPlace co .outside).place co = .outside := Function.update_self _ _ _
  have hback : ∀ c, c ≠ co → (m.setPlace co .outside).place c = m.place c := fun c hc => Function.update_of_ne hc _ _
  have hwait : ∀ c name, (m.setPlace co .outside).place c = .waiting name → m.place c = .waiting name := by
    intro c name hw
    by_cases hcc : c = co
    · rw [hcc,hplace] at hw
      cases hw
    · exact (hback c hcc).symm.trans hw
  have hshape : (m.setPlace co .outside).Shape tr := by
    refine ⟨fun c name => ?_,fun name launch queue hq => ⟨(h.shape.listed name launch queue hq).1,fun c hm => ?_⟩,
      fun c name hw hl => h.shape.answered c name (hwait c name hw) hl,h.shape.settled,h.shape.broken⟩
    · refine Iff.trans ?_ (h.shape.launcher c name)
      by_cases hcc : c = co
      · rw [hcc,hplace]
        exact ⟨fun hw => (by cases hw),fun hw => absurd hw (hp name)⟩
      · rw [hback c hcc]
    · have hne : c ≠ co := by
        rintro rfl
        exact h.not_listed hc name ⟨launch,queue,hq,hm⟩
      rw [hback c hne]
      exact (h.shape.listed name launch queue hq).2 c hm
  refine ⟨h.sched,hshape.snoc (fun c name r hm => hs c name r (List.mem_singleton.mp hm).symm)
    fun c name hm => hb c name (List.mem_singleton.mp hm).symm,fun hx => ?_⟩
  have hph := h.phases hx
  exact ⟨hph.tidy,fun c name hw hl => hph.parked c name (hwait c name hw) hl,fun c name hw hl => hph.woken c name (hwait c name hw) hl⟩

/-- The entry of a name whose service is not known. -/
def Open (m : Mgr) (name : Bytes) (launch : Option Task) (queue : List Task) : Prop :=
  m.service name = some (.querying launch queue) ∨ m.service name = none ∧ launch = none ∧ queue = []

variable {launch : Option Task} {queue : List Task}

theorem Open.listed_iff (hq : m.Open name launch queue) : m.Listed name c ↔ c ∈ queue.map (·.co) := by
  rcases hq with hq | ⟨hq,_,rfl⟩
  · refine ⟨fun ⟨l,q,he,hm⟩ => ?_,fun hm => ⟨launch,queue,hq,hm⟩⟩
    rw [hq] at he
    cases he
    exact hm
  · exact ⟨fun ⟨l,q,he,_⟩ => absurd (hq.symm.trans he) (by simp),fun hm => by cases hm⟩

theorem Open.ne_outcome (hq : m.Open name launch queue) (hr : r ≠ .ok none) : m.service name ≠ outcome r := by
  intro he
  rcases hq with hq | ⟨hq,_⟩
  · exact (outcome_ne hr).2 launch queue (he.symm.trans hq)
  · exact (outcome_ne hr).1 (he.symm.trans hq)

theorem Shape.open_facts (h : m.Shape tr) (hq : m.Open name launch queue) : (queue.map (·.co)).Nodup ∧
    (∀ c ∈ queue.map (·.co), m.place c = .waiting name) ∧ ∀ c, m.place c = .launching name ↔ ∃ t, launch = some t ∧ t.co = c := by
  rcases hq with hq | ⟨hq,rfl,rfl⟩
  · obtain ⟨hn,hw⟩ := h.listed name launch queue hq
    refine ⟨hn,hw,fun c => (h.launcher c name).trans ?_⟩
    rw [hq]
    simp
  · refine ⟨List.nodup_nil,by simp,fun c => (h.launcher c name).trans ?_⟩
    rw [hq]
    simp

/-- A coroutine from outside calls the function or goes to the end of the queue. -/
theorem Shape.enter (h : m.Shape tr) (hq : m.Open name launch queue) (hp : m.place co = .outside) (s : Sched)
    (launch' : Option Task) (queue' : List Task) (p : Place)
    (hp' : ∀ n, n ≠ name → p ≠ .launching n ∧ p ≠ .waiting n) (hco : p = .waiting name → co ∈ queue'.map (·.co))
    (hsub : ∀ c ∈ queue.map (·.co), c ∈ queue'.map (·.co)) (hn : (queue'.map (·.co)).Nodup)
    (hw : ∀ c ∈ queue'.map (·.co), Function.update m.place co p c = .waiting name)
    (hl : ∀ c, Function.update m.place co p c = .launching name ↔ ∃ t, launch' = some t ∧ t.co = c) :
    ({ m.setEntry name (some (.querying launch' queue')) with sched := s }.setPlace co p).Shape tr := by
  have hentry : ∀ n, n ≠ name → Function.update m.service name (some (.querying launch' queue')) n = m.service n :=
    fun n hne => Function.update_of_ne hne _ _
  have hself : Function.update m.service name (some (.querying launch' queue')) name = some (.querying launch' queue') :=
    Function.update_self _ _ _
  have hback : ∀ c, c ≠ co → Function.update m.place co p c = m.place c := fun c hc => Function.update_of_ne hc _ _
  have hat : Function.update m.place co p co = p := Function.update_self _ _ _
  refine ⟨fun c n => ?_,fun n launch₁ queue₁ he => ?_,fun c n hc hlist => ?_,fun c n r hm hr => ?_,h.broken⟩
  · by_cases hne : n = name
    · subst hne
      refine (hl c).trans ?_
      change _ ↔ ∃ t queue, Function.update m.service n (some (.querying launch' queue')) n = _ ∧ _
      rw [hself]
      simp
    · change _ ↔ ∃ t queue, Function.update m.service name (some (.querying launch' queue')) n = _ ∧ _
      rw [hentry n hne]
      refine Iff.trans ?_ (h.launcher c n)
      change Function.update m.place co p c = _ ↔ _
      by_cases hcc : c = co
      · rw [hcc,hat,hp]
        exact ⟨fun hpn => absurd hpn (hp' n hne).1,fun hpn => (by cases hpn)⟩
      · rw [hback c hcc]
  · change Function.update m.service name (some (.querying launch' queue')) n = _ at he
    by_cases hne : n = name
    · subst hne
      rw [hself] at he
      cases he
      exact ⟨hn,hw⟩
    · rw [hentry n hne] at he
      refine ⟨(h.listed n launch₁ queue₁ he).1,fun c hc => ?_⟩
      have hwait := (h.listed n launch₁ queue₁ he).2 c hc
      have hcc : c ≠ co := by
        rintro rfl
        rw [hp] at hwait
        cases hwait
      exact (hback c hcc).trans hwait
  · change Function.update m.place co p c = _ at hc
    by_cases hne : n = name
    · subst hne
      have hnot : c ∉ queue'.map (·.co) := fun hm => hlist ⟨launch',queue',hself,hm⟩
      have hcc : c ≠ co := by
        rintro rfl
        rw [hat] at hc
        exact hnot (hco hc)
      rw [hback c hcc] at hc
      rcases h.answered c n hc fun hl => hnot (hsub c (hq.listed_iff.mp hl)) with ⟨r,hr,ho⟩ | hnil
      · exact absurd ho (hq.ne_outcome hr)
      · exact .inr hnil
    · have hcc : c ≠ co := by
        rintro rfl
        rw [hat] at hc
        exact (hp' n hne).2 hc
      rw [hback c hcc] at hc
      refine (h.answered c n hc fun ⟨l,q,he,hm⟩ => hlist ⟨l,q,(hentry n hne).trans he,hm⟩).imp_left ?_
      rintro ⟨r,hr,ho⟩
      exact ⟨r,hr,(hentry n hne).trans ho⟩
  · have hset := h.settled c n r hm hr
    have hne : n ≠ name := by
      rintro rfl
      exact hq.ne_outcome hr hset
    exact (hentry n hne).trans hset

theorem listed_setEntry {m' : Mgr} {launch' : Option Task} {queue' : List Task}
    (hs : m'.service = Function.update m.service name (some (.querying launch' queue'))) (n : Bytes) (c : Co) : m'.Listed n c ↔ if n = name then c ∈ queue'.map (·.co) else m.Listed n c := by
  unfold Listed
  rw [hs,Function.update_apply]
  split
  · constructor
    · rintro ⟨l,q,he,hm⟩
      cases he
      exact hm
    · exact fun hm => ⟨launch',queue',rfl,hm⟩
  · rfl

/-- The first who brings a function calls it. -/
theorem launches (h : m.Inv tr) (hc : m.sched.control = .running co) (hq : m.Open name none queue) (hp : m.place co = .outside) :
    ((m.setEntry name (some (.querying (some (m.context co)) queue))).setPlace co (.launching name)).Inv (tr ++ [(e,[.launch co name])]) := by
  obtain ⟨hn,hw,hl⟩ := h.shape.open_facts hq
  obtain ⟨_,hph⟩ := h.running hc
  have hback : ∀ c, c ≠ co → Function.update m.place co (.launching name) c = m.place c := fun c hcc => Function.update_of_ne hcc _ _
  have hself : Function.update m.place co (.launching name) co = .launching name := Function.update_self _ _ _
  have hwait : ∀ c n, Function.update m.place co (.launching name) c = .waiting n → m.place c = .waiting n := by
    intro c n hcn
    by_cases hcc : c = co
    · rw [hcc,hself] at hcn
      cases hcn
    · rwa [hback c hcc] at hcn
  have hlist : ∀ n c, ((m.setEntry name (some (.querying (some (m.context co)) queue))).setPlace co (.launching name)).Listed n c ↔
      m.Listed n c := by
    intro n c
    rw [listed_setEntry (m := m) rfl]
    split
    · rename_i hne
      rw [hne,hq.listed_iff]
    · rfl
  have hshape := h.shape.enter hq hp m.sched (some (m.context co)) queue (.launching name)
    (fun n hne => ⟨fun he => hne (Place.launching.inj he).symm,fun he => by cases he⟩) (fun he => by cases he) (fun _ hm => hm) hn
    (fun c hm => ?_) (fun c => ?_)
  · exact ⟨h.sched,hshape.snoc (by simp) (by simp),fun _ => ⟨hph.tidy,fun c n hcn hlc => hph.parked c n (hwait c n hcn) ((hlist n c).mp hlc),
      fun c n hcn hlc => hph.woken c n (hwait c n hcn) fun hlc' => hlc ((hlist n c).mpr hlc')⟩⟩
  · have hcc : c ≠ co := by
      rintro rfl
      exact absurd (hp.symm.trans (hw c hm)) (by simp)
    exact (hback c hcc).trans (hw c hm)
  · by_cases hcc : c = co
    · rw [hcc,hself]
      exact ⟨fun _ => ⟨m.context co,rfl,rfl⟩,fun _ => rfl⟩
    · rw [hback c hcc,hl c]
      constructor
      · rintro ⟨t,ht,_⟩
        cases ht
      · rintro ⟨t,ht,hco⟩
        cases ht
        exact absurd hco.symm hcc

/-- All others wait at the end of the queue. -/
theorem waits (h : m.Inv tr) (hc : m.sched.control = .running co) (hq : m.Open name launch queue) (hp : m.place co = .outside)
    (hf : m.sched.FreshSession σ) : ∃ s fx, m.sched.perform co (.wait σ none) = .ok s fx ∧
      ({ m.setEntry name (some (.querying launch (queue ++ [m.context co]))) with sched := s }.setPlace co (.waiting name)).Inv
        (tr ++ [(e,fx.map Effect.sched)]) := by
  obtain ⟨hn,hw,hl⟩ := h.shape.open_facts hq
  obtain ⟨_,hph⟩ := h.running hc
  obtain ⟨s,fx,he,hs,htidy,hpark,hk⟩ := Sched.wait_waiters h.sched hc hph.tidy hf
  have hout : ∀ c ∈ queue.map (·.co), c ≠ co := by
    rintro c hm rfl
    exact absurd (hp.symm.trans (hw c hm)) (by simp)
  have hback : ∀ c, c ≠ co → Function.update m.place co (.waiting name) c = m.place c := fun c hcc => Function.update_of_ne hcc _ _
  have hself : Function.update m.place co (.waiting name) co = .waiting name := Function.update_self _ _ _
  have hmap : (queue ++ [m.context co]).map (·.co) = queue.map (·.co) ++ [co] := by simp [context]
  have hlist : ∀ n c, c ≠ co →
      (({ m.setEntry name (some (.querying launch (queue ++ [m.context co]))) with sched := s }.setPlace co (.waiting name)).Listed n c ↔
        m.Listed n c) := by
    intro n c hcc
    rw [listed_setEntry (m := m) rfl]
    split
    · rename_i hne
      rw [hne,hq.listed_iff,hmap]
      simp [hcc]
    · rfl
  have hshape := h.shape.enter hq hp s launch (queue ++ [m.context co]) (.waiting name)
    (fun n hne => ⟨fun he => (by cases he),fun he => hne (Place.waiting.inj he).symm⟩) (fun _ => by simp [context])
    (fun c hm => by rw [hmap]; exact List.mem_append_left _ hm)
    (by rw [hmap]; exact List.nodup_append.mpr ⟨hn,List.nodup_singleton co,fun a ha b hb => by rw [List.mem_singleton.mp hb]; exact hout a ha⟩)
    (fun c hm => ?_) (fun c => ?_)
  · refine ⟨s,fx,he,hs,hshape.snoc (by simp) (by simp),fun _ => ⟨htidy,fun c n hcn hlc => ?_,fun c n hcn hlc => ?_⟩⟩
    · by_cases hcc : c = co
      · rwa [hcc]
      · exact (hk c hcc).1 (hph.parked c n ((hback c hcc).symm.trans hcn) ((hlist n c hcc).mp hlc))
    · by_cases hcc : c = co
      · subst hcc
        rw [listed_setEntry (m := m) rfl] at hlc
        cases hself.symm.trans hcn
        rw [if_pos rfl,hmap] at hlc
        exact absurd (List.mem_append_right _ (List.mem_singleton_self c)) hlc
      · exact (hk c hcc).2 (hph.woken c n ((hback c hcc).symm.trans hcn) fun hlc' => hlc ((hlist n c hcc).mpr hlc'))
  · rw [hmap,List.mem_append,List.mem_singleton] at hm
    rcases hm with hm | rfl
    · exact (hback c (hout c hm)).trans (hw c hm)
    · exact hself
  · by_cases hcc : c = co
    · rw [hcc,hself,← hl co,hp]
      exact ⟨fun he => (by cases he),fun he => (by cases he)⟩
    · rw [hback c hcc]
      exact hl c

theorem join_spec (h : m.Inv tr) (hc : m.sched.control = .running co) (hq : m.Open name launch queue) (hp : m.place co = .outside)
    (hf : m.sched.FreshSession σ) (func : Bool) :
    ∃ m' fx, m.join co name func σ launch queue = .ok m' fx ∧ m'.Inv (tr ++ [(e,fx)]) := by
  unfold join
  split
  · rename_i hfirst
    rw [hfirst.1] at hq
    exact ⟨_,_,rfl,launches h hc hq hp⟩
  · obtain ⟨s,fx,he,hi⟩ := waits h hc hq hp hf
    refine ⟨_,_,?_,hi⟩
    simp only [setEntry] at he ⊢
    rw [he]
    simp [below]

/-- The function has ended: the entry becomes what it returned, and all in the queue are woken. -/
theorem request_spec (h : m.Inv tr) (hc : m.sched.control = .running co) (hp : m.place co = .launching name) (r : Result) :
    ∃ m' fx, m.request co name r = .ok m' fx ∧ m'.Inv (tr ++ [(e,fx)]) := by
  obtain ⟨t,queue,hq,ht⟩ := (h.shape.launcher co name).mp hp
  have hopen : m.Open name (some t) queue := .inl hq
  obtain ⟨hn,hw,hl⟩ := h.shape.open_facts hopen
  obtain ⟨_,hph⟩ := h.running hc
  obtain ⟨s,he,hs,_,htidy,hk⟩ := wakeAll_waiters (queue.map (·.co)) h.sched hc hph.tidy hn fun c hm =>
    hph.parked c name (hw c hm) ⟨some t,queue,hq,hm⟩
  have hback : ∀ c, c ≠ co → Function.update m.place co .outside c = m.place c := fun c hcc => Function.update_of_ne hcc _ _
  have hself : Function.update m.place co .outside co = .outside := Function.update_self _ _ _
  have hentry : ∀ n, n ≠ name → Function.update m.service name (outcome r) n = m.service n := fun n hne => Function.update_of_ne hne _ _
  have hset : Function.update m.service name (outcome r) name = outcome r := Function.update_self _ _ _
  have htable : ∀ l q, outcome r ≠ some (.querying l q) := by
    intro l q
    rcases r with text | _ | h <;> simp [outcome]
  have hwait : ∀ c n, Function.update m.place co .outside c = .waiting n → m.place c = .waiting n ∧ c ≠ co := by
    intro c n hcn
    have hcc : c ≠ co := by
      rintro rfl
      rw [hself] at hcn
      cases hcn
    exact ⟨(hback c hcc).symm.trans hcn,hcc⟩
  obtain ⟨m',hm'⟩ : ∃ m', m' = ({ m.setEntry name (outcome r) with sched := s }.setPlace co .outside : Mgr) := ⟨_,rfl⟩
  have hlist : ∀ n c, m'.Listed n c ↔ n ≠ name ∧ m.Listed n c := by
    intro n c
    rw [hm']
    constructor
    · rintro ⟨l,q,he,hm⟩
      change Function.update m.service name (outcome r) n = _ at he
      by_cases hne : n = name
      · rw [hne,hset] at he
        exact absurd he (htable l q)
      · exact ⟨hne,l,q,(hentry n hne).symm.trans he,hm⟩
    · rintro ⟨hne,l,q,he,hm⟩
      exact ⟨l,q,(hentry n hne).trans he,hm⟩
  have hin : ∀ c n, m.place c = .waiting n → n ≠ name → c ∉ queue.map (·.co) := by
    intro c n hcn hne hm
    exact hne (Place.waiting.inj (hcn.symm.trans (hw c hm)))
  refine ⟨m',[.returned co name r],?_,?_,⟨?_,?_,?_,?_,?_⟩,?_⟩
  · unfold request
    rw [hq]
    simp only [setEntry] at he ⊢
    rw [he,hm']
    simp [below,returns,setEntry]
  · rw [hm']
    exact hs
  · intro c n
    rw [hm']
    change Function.update m.place co .outside c = _ ↔ ∃ t q, Function.update m.service name (outcome r) n = _ ∧ _
    by_cases hne : n = name
    · rw [hne,hset]
      refine ⟨fun hcn => ?_,fun ⟨t',q,he,_⟩ => absurd he (htable _ q)⟩
      by_cases hcc : c = co
      · rw [hcc,hself] at hcn
        cases hcn
      · obtain ⟨t',ht',hco⟩ := (hl c).mp ((hback c hcc).symm.trans hcn)
        cases ht'
        exact absurd (hco.symm.trans ht) hcc
    · rw [hentry n hne]
      refine Iff.trans ?_ (h.shape.launcher c n)
      by_cases hcc : c = co
      · rw [hcc,hself,hp]
        exact ⟨fun he => (by cases he),fun he => absurd (Place.launching.inj he).symm hne⟩
      · rw [hback c hcc]
  · intro n l q hnq
    rw [hm'] at hnq ⊢
    change Function.update m.service name (outcome r) n = _ at hnq
    by_cases hne : n = name
    · rw [hne,hset] at hnq
      exact absurd hnq (htable l q)
    · rw [hentry n hne] at hnq
      refine ⟨(h.shape.listed n l q hnq).1,fun c hm => ?_⟩
      have hcn := (h.shape.listed n l q hnq).2 c hm
      have hcc : c ≠ co := by
        rintro rfl
        exact absurd (hp.symm.trans hcn) (by simp)
      exact (hback c hcc).trans hcn
  · intro c n hcn hnl
    rw [hlist] at hnl
    rw [hm'] at hcn ⊢
    obtain ⟨hcn,_⟩ := hwait c n hcn
    change (∃ r', _ ∧ Function.update m.service name (outcome r) n = _) ∨ _
    by_cases hne : n = name
    · rw [hne,hset]
      by_cases hr : r = .ok none
      · exact .inr ⟨co,mem_done_snoc.mpr (.inr (by simp [hr]))⟩
      · exact .inl ⟨r,hr,rfl⟩
    · rw [hentry n hne]
      exact (h.shape.answered c n hcn fun hl' => hnl ⟨hne,hl'⟩).imp_right ReturnedNil.snoc
  · intro c n r' hm hr'
    rw [hm']
    change Function.update m.service name (outcome r) n = _
    rcases mem_done_snoc.mp hm with hm | hm
    · have hold := h.shape.settled c n r' hm hr'
      have hne : n ≠ name := by
        rintro rfl
        exact hopen.ne_outcome hr' hold
      exact (hentry n hne).trans hold
    · cases List.mem_singleton.mp hm
      exact hset
  · intro c n hm
    rcases mem_done_snoc.mp hm with hm | hm
    · exact (h.shape.broken c n hm).snoc
    · cases List.mem_singleton.mp hm
  · intro _
    refine ⟨by rw [hm']; exact htidy,fun c n hcn hlc => ?_,fun c n hcn hlc => ?_⟩
    · obtain ⟨hne,hlc⟩ := (hlist n c).mp hlc
      rw [hm'] at hcn ⊢
      obtain ⟨hcn,_⟩ := hwait c n hcn
      exact (hk c).2.1 (hin c n hcn hne) (hph.parked c n hcn hlc)
    · rw [hlist] at hlc
      rw [hm'] at hcn ⊢
      obtain ⟨hcn,_⟩ := hwait c n hcn
      by_cases hm : c ∈ queue.map (·.co)
      · exact (hk c).1 hm
      · refine (hk c).2.2 (hph.woken c n hcn fun hl' => ?_)
        by_cases hne : n = name
        · rw [hne,hopen.listed_iff] at hl'
          exact hm hl'
        · exact hlc ⟨hne,hl'⟩

/-- Who was woken finds what the launch has returned. -/
theorem resumed_spec (h : m.Inv tr) (hc : m.sched.control = .running co) (hp : m.place co = .waiting name) :
    ∃ m' fx, m.resumed co name = .ok m' fx ∧ m'.Inv (tr ++ [(e,fx)]) := by
  have hans := h.shape.answered co name hp (h.not_listed hc name)
  have hl : ∀ n, m.place co ≠ .launching n := by simp [hp]
  unfold resumed
  split
  · rename_i text hs
    exact ⟨_,_,rfl,h.leaves hc hl (by rintro c n r ⟨⟩ _; exact hs) (by simp)⟩
  · rename_i v hs
    exact ⟨_,_,rfl,h.leaves hc hl (by rintro c n r ⟨⟩ _; exact hs) (by simp)⟩
  · rename_i hs
    refine ⟨_,_,rfl,h.leaves hc hl (by simp) ?_⟩
    rintro c n ⟨⟩
    refine hans.resolve_left ?_
    rintro ⟨r,hr,ho⟩
    exact (outcome_ne hr).1 (ho.symm.trans hs)
  · rename_i l q hs
    refine ⟨_,_,rfl,h.leaves hc hl (by simp) ?_⟩
    rintro c n ⟨⟩
    refine hans.resolve_left ?_
    rintro ⟨r,hr,ho⟩
    exact (outcome_ne hr).2 l q (ho.symm.trans hs)

theorem waitfor_spec (h : m.Inv tr) (hc : m.sched.control = .running co) (hp : m.place co = .outside) (hf : m.sched.FreshSession σ)
    (name : Bytes) (func : Bool) : ∃ m' fx, m.waitfor co name func σ = .ok m' fx ∧ m'.Inv (tr ++ [(e,fx)]) := by
  have hl : ∀ n, m.place co ≠ .launching n := by simp [hp]
  unfold waitfor
  split
  · rename_i v hs
    exact ⟨_,_,rfl,h.leaves hc hl (by rintro c n r ⟨⟩ _; exact hs) (by simp)⟩
  · rename_i text hs
    exact ⟨_,_,rfl,h.leaves hc hl (by rintro c n r ⟨⟩ _; exact hs) (by simp)⟩
  · rename_i hs
    exact join_spec h hc (.inr ⟨hs,rfl,rfl⟩) hp hf func
  · rename_i l q hs
    exact join_spec h hc (.inl hs) hp hf func

theorem runsAt_eq_true {p : Place → Bool} (h : m.runsAt p false = true) : ∃ co, m.sched.control = .running co ∧ p (m.place co) = true := by
  unfold runsAt at h
  split at h
  · rename_i co hc
    exact ⟨co,hc,h⟩
  · cases h
  · cases h

theorem step_spec (h : m.Inv tr) (ha : m.Allowed e) : ∃ m' fx, m.step e = .ok m' fx ∧ m'.Inv (tr ++ [(e,fx)]) := by
  cases e with
  | other e => exact step_other h ha
  | command cmd serviceName subname session =>
    obtain ⟨hf,hat⟩ := ha
    obtain ⟨co,hc,hp⟩ := runsAt_eq_true hat
    rw [step,hc]
    exact waitfor_spec h hc (of_decide_eq_true hp) hf _ _
  | launched r =>
    obtain ⟨co,hc,hp⟩ := runsAt_eq_true ha
    rw [step,hc]
    cases hpl : m.place co with
    | launching name =>
      dsimp only
      rw [hpl]
      exact request_spec h hc hpl r
    | outside | waiting _ =>
      rw [hpl] at hp
      cases hp
  | resumed =>
    obtain ⟨co,hc,hp⟩ := runsAt_eq_true ha
    rw [step,hc]
    cases hpl : m.place co with
    | waiting name =>
      dsimp only
      rw [hpl]
      exact resumed_spec h hc hpl
    | outside | launching _ =>
      rw [hpl] at hp
      cases hp

/-- The service manager from `skynet.start` on. -/
def Reachable (tr : Trace Event Effect) (m : Mgr) : Prop :=
  ∃ standalone session co, session ≠ 0 ∧ Run step (fun _ m e => m.Allowed e) (fresh standalone session co) tr m

theorem Reachable.inv (h : Reachable tr m) : m.Inv tr := by
  obtain ⟨standalone,session,co,hz,hr⟩ := h
  refine hr.invariant (fun tr m => m.Inv tr) ?_ fun tr m e m' fx hi ha he => ?_
  · refine ⟨Sched.started_inv session co hz,⟨?_,?_,?_,?_,?_⟩,fun _ => ⟨Sched.started_tidy session co,?_,?_⟩⟩
    all_goals simp [fresh,done]
  · obtain ⟨m'',fx',he',hi'⟩ := step_spec hi ha
    rw [he'] at he
    cases he
    exact hi'

theorem below_quiet {α : Type} (x : LuaM α) : Act.Ensures (· ≠ Effect.launch c name) (fun _ => True) (below x) := by
  cases x with
  | ok a fx =>
    refine .ok trivial fun e he => ?_
    obtain ⟨_,_,rfl⟩ := List.mem_map.mp he
    simp
  | fail kind site => exact .fail _ _

private theorem returns_quiet (m : Mgr) (co : Co) (n : Bytes) (r : Result) :
    Act.Ensures (· ≠ Effect.launch c name) (fun _ => True) (m.returns co n r) := .ok trivial (by simp)

theorem join_quiet {n : Bytes} (hn : n ≠ name) (func : Bool) (launch : Option Task) (queue : List Task) :
    Act.Ensures (· ≠ Effect.launch c name) (fun _ => True) (m.join co n func σ launch queue) := by
  unfold join
  split
  · refine .ok trivial fun e he => ?_
    rw [List.mem_singleton.mp he]
    intro heq
    exact hn (Effect.launch.inj heq).2
  · exact .bind (below_quiet _) fun _ _ => .pure trivial

/-- A launch begins only while nothing is known about the name. -/
theorem step_quiet (hno : ∀ launch queue, ¬m.Open name launch queue) (e : Event) :
    Act.Ensures (· ≠ Effect.launch c name) (fun _ => True) (m.step e) := by
  cases e with
  | other e => exact .bind (below_quiet _) fun _ _ => .pure trivial
  | command cmd serviceName subname session =>
    rw [step]
    split
    · unfold waitfor
      split
      · exact returns_quiet _ _ _ _
      · exact returns_quiet _ _ _ _
      · rename_i hs
        refine join_quiet ?_ _ _ _
        intro hn
        exact hno none [] (.inr ⟨hn ▸ hs,rfl,rfl⟩)
      · rename_i l q hs
        refine join_quiet ?_ _ _ _
        intro hn
        exact hno l q (.inl (hn ▸ hs))
    · exact .fail _ _
    · exact .fail _ _
  | launched r =>
    rw [step]
    split
    · split
      · unfold request
        split
        · exact .bind (below_quiet _) fun _ _ => returns_quiet _ _ _ _
        all_goals exact .fail _ _
      all_goals exact .fail _ _
    all_goals exact .fail _ _
  | resumed =>
    rw [step]
    split
    · split
      · unfold resumed
        split
        · exact returns_quiet _ _ _ _
        · exact returns_quiet _ _ _ _
        all_goals exact .ok trivial (by simp)
      all_goals exact .fail _ _
    all_goals exact .fail _ _

theorem outcome_injective {r' : Result} (h : outcome r = outcome r') (hr : r ≠ .ok none) (hr' : r' ≠ .ok none) : r = r' := by
  rcases r with text | _ | v <;> rcases r' with text' | _ | v' <;> simp_all [outcome]

/-- Along every run no command fails on an assertion of `request`, and at most one
coroutine launches a name at a time. Once a call for a name has returned a handle or an
error, all calls for it return the same, and the name is never launched again.
The assertion behind `skynet.wait` fails only for a name whose launch returned `nil`. When
the service is idle, whoever waits for a name is in its queue: nobody is forgotten. -/
theorem launched_once (m : Mgr) (tr : Trace Event Effect) (h : Reachable tr m) :
    (∀ e, m.Allowed e → ∃ m' fx, m.step e = .ok m' fx) ∧
    (∀ c c' name, m.place c = .launching name → m.place c' = .launching name → c = c') ∧
    (∀ c name r, .returned c name r ∈ done tr → r ≠ .ok none →
      (∀ c' r', .returned c' name r' ∈ done tr → r' ≠ .ok none → r' = r) ∧
      ∀ e m' fx c', m.step e = .ok m' fx → .launch c' name ∉ fx) ∧
    (∀ c name, .assertion c name ∈ done tr → ReturnedNil tr name) ∧
    (m.sched.control = .idle → ∀ c name, m.place c = .waiting name → m.Listed name c) := by
  have hi := h.inv
  refine ⟨fun e ha => ?_,fun c c' name hc hc' => ?_,fun c name r hm hr => ⟨fun c' r' hm' hr' => ?_,fun e m' fx c' he hl => ?_⟩,
    hi.shape.broken,fun hidle c name hc => ?_⟩
  · obtain ⟨m',fx,he,_⟩ := step_spec hi ha
    exact ⟨m',fx,he⟩
  · obtain ⟨t,q,hq,ht⟩ := (hi.shape.launcher c name).mp hc
    obtain ⟨t',q',hq',ht'⟩ := (hi.shape.launcher c' name).mp hc'
    rw [hq] at hq'
    cases hq'
    exact ht.symm.trans ht'
  · exact outcome_injective ((hi.shape.settled c' name r' hm' hr').symm.trans (hi.shape.settled c name r hm hr)) hr' hr
  · have hno : ∀ launch queue, ¬m.Open name launch queue := fun _ _ ho => ho.ne_outcome hr (hi.shape.settled c name r hm hr)
    exact (step_quiet hno e m' fx he).2 _ hl rfl
  · by_contra hl
    exact hi.sched.not_woken hidle ((hi.phases (by rw [hidle]; simp)).woken c name hc hl)

/-- Two coroutines want a service that a third one launches. The last one comes later. -/
theorem launched_once_four : ∃ tr m, Reachable tr m ∧ .returned 0 (ascii "db") (.ok (some 7)) ∈ done tr ∧
    .returned 3 (ascii "db") (.ok (some 7)) ∈ done tr ∧ ∀ c' r', .returned c' (ascii "db") r' ∈ done tr → r' ≠ .ok none → r' = .ok (some 7) := by
  have hcheck : runCheck step (fun _ m e => m.Allowed e)
      (fun tr _ => .returned 0 (ascii "db") (.ok (some 7)) ∈ done tr ∧ .returned 3 (ascii "db") (.ok (some 7)) ∈ done tr)
      [.other (.response 1),.other (.fork 1),.other (.fork 2),.command .QUERY (ascii "db") [] 2,.command .LAUNCH (ascii "db") [] 3,
        .other (.call 4 9),.command .QUERY (ascii "db") [] 5,.other (.response 4),.launched (.ok (some 7)),.other .finish,.resumed,
        .other .finish,.resumed,.other .finish,.other (.request 3 8 5),.command .LAUNCH (ascii "db") [] 9] []
      (fresh true 1 0) = true := by decide
  obtain ⟨tr,m,hr,_,h₀,h₃⟩ := Run.of_runCheck hcheck
  have hreach : Reachable tr m := ⟨true,1,0,by decide,hr⟩
  exact ⟨tr,m,hreach,h₀,h₃,((launched_once m tr hreach).2.2.1 0 _ _ h₀ (by simp)).1⟩

end Mgr
end MyProgram.SkynetLua.ServiceMgr
