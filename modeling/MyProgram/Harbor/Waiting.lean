import MyProgram.Harbor.Names

/-! Clients that ask for names: they are answered in turn, and none waits for a name that a slave with
a connection has registered. -/
namespace MyProgram.Harbor
open Lib

/-- The closure that an effect answers, at a slave and for a name. -/
def Effect.answered (p : Proc) (name : Name) : Effect → Option Resp
  | .answer q r name' _ => if q = p ∧ name' = name then some r else none
  | .localname _ _ | .linked _ _ _ | .masterDown _ _ | .redirect _ _ _ | .harborS _ _ _ | .harborA _ _ _ | .exist _ _ | .error _ => none

/-- The closure of a query that is neither refused nor about a local name. -/
def Event.asked (p : Proc) (name : Name) (fx : List Effect) : Event → Option Resp
  | .queryName q name' r => if q = p ∧ name' = name ∧ fx ≠ [.error q] ∧ fx ≠ [.localname q r] then some r else none
  | .start _ _ | .handshake _ | .dispatch _ | .drop _ | .shake _ | .receive _ | .lost _ | .dialed _ _ _ | .incoming _ _
  | .accept _ _ _ | .ready _ _ | .register _ _ _ | .link _ _ _ | .connect _ _ _ | .linkMaster _ _ | .harborQuery _ _
  | .harborDown _ _ => none

namespace Cluster
variable {fits : Name → Option Handle → Bool} {c c' : Cluster} {p q : Proc} {e : Event} {name name' : Name} {address : Handle}
  {fx fx' : List Effect} {tr : Trace Event Effect} {s : Slave} {r : Resp}

/-- The closures asked for a name at a slave, in order. -/
def asked (tr : Trace Event Effect) (p : Proc) (name : Name) : List Resp := tr.filterMap fun x => x.1.asked p name x.2

/-- The closures answered, in order. -/
def answered (tr : Trace Event Effect) (p : Proc) (name : Name) : List Resp := tr.flatMap fun x => x.2.filterMap (Effect.answered p name)

/-- The closures that wait. -/
def waiting (c : Cluster) (p : Proc) (name : Name) : List Resp := (tableIndex (c.slave p).queryname name).getD []

/-- Nobody waits for a name that the slave knows. -/
def Open (c : Cluster) : Prop := ∀ p name, tableIndex (c.slave p).queryname name ≠ none → tableIndex (c.slave p).globalname name = none

/-- An effect that is no answer. -/
def Mute (f : Effect) : Prop := f.told = none ∨ ∃ q, ∃ x : Name × Handle, f = .redirect q x.1 x.2

theorem filterMap_answered (h : ∀ f ∈ fx, Mute f) : fx.filterMap (Effect.answered p name) = [] := by
  refine List.filterMap_eq_nil_iff.mpr fun f hf => ?_
  rcases h f hf with h | ⟨q,x,rfl⟩
  · cases f <;> first | rfl | cases h
  · rfl

theorem filterMap_answers : (s.answers q name' address).filterMap (Effect.answered p name) =
    if q = p ∧ name' = name then (tableIndex s.queryname name').getD [] else [] := by
  rw [Slave.answers,List.filterMap_map]
  split
  · rename_i h
    have hf : (Effect.answered p name ∘ fun r => .answer q r name' address) = some := by
      funext r
      exact if_pos h
    rw [hf,List.filterMap_some]
  · rename_i h
    exact List.filterMap_eq_nil_iff.mpr fun r _ => if_neg h

theorem waiting_named : (c.setSlave p ((c.slave p).named name address)).waiting q name' =
    if p = q ∧ name = name' then [] else c.waiting q name' := by
  rw [waiting,setSlave_slave,Function.update_apply]
  by_cases hq : q = p
  · rw [if_pos hq,hq,Slave.named,tableIndex_assign_option]
    by_cases hn : name' = name
    · simp [hn]
    · simp [hn,Ne.symm hn,waiting]
  · rw [if_neg hq,if_neg fun h => hq h.1.symm]
    rfl

theorem waiting_stored {l : List Resp} :
    (c.setSlave p { c.slave p with queryname := assign (c.slave p).queryname name (some l) }).waiting q name' =
      if p = q ∧ name = name' then l else c.waiting q name' := by
  rw [waiting,setSlave_slave,Function.update_apply]
  by_cases hq : q = p
  · rw [if_pos hq,hq,tableIndex_assign]
    by_cases hn : name' = name
    · simp [hn]
    · simp [hn,Ne.symm hn,waiting]
  · rw [if_neg hq,if_neg fun h => hq h.1.symm]
    rfl

/-- What a slave knows and who waits there. -/
def names (c : Cluster) (p : Proc) : List (Name × Handle) × List (Name × List Resp) := ((c.slave p).globalname,(c.slave p).queryname)

/-- All a step can do to the names at the slaves: nothing, an address is learnt, or a client is
answered at once or has to wait. -/
theorem step_names (h : step fits c e = .ok c' fx) :
    (c'.names = c.names ∧ (∀ f ∈ fx, Mute f) ∧ ∀ p name, e.asked p name fx = none) ∨
    (∃ p name address fx', c'.names = (c.setSlave p ((c.slave p).named name address)).names ∧
      fx = (c.slave p).answers p name address ++ fx' ∧ (∀ f ∈ fx', Mute f) ∧ ∀ p name, e.asked p name fx = none) ∨
    (∃ p name r address, e = .queryName p name r ∧ tableIndex (c.slave p).globalname name = some address ∧ c' = c ∧
      fx = [.answer p r name address]) ∨
    ∃ p name r, e = .queryName p name r ∧ tableIndex (c.slave p).globalname name = none ∧ fx = [] ∧
      c'.names = (c.setSlave p
        { c.slave p with queryname := assign (c.slave p).queryname name (some (c.waiting p name ++ [r])) }).names := by
  have hsame {p : Proc} {s : Slave} (hg : s.globalname = (c.slave p).globalname) (hq : s.queryname = (c.slave p).queryname) :
      (c.setSlave p s).names = c.names := by
    funext q
    rw [names,setSlave_slave,Function.update_apply]
    split
    · rename_i hqp
      rw [hg,hq,hqp]
      rfl
    · rfl
  have hredirect (p : Proc) (x : Name × Handle) : Mute (.redirect p x.1 x.2) := .inr ⟨p,x,rfl⟩
  by_cases hq : e.quiet = true
  · obtain ⟨hs,ht⟩ := step_quiet hq h
    refine .inl ⟨?_,fun f hf => (ht f hf).imp id fun ⟨p,x,_,h⟩ => ⟨p,x,h⟩,fun p name => ?_⟩
    · funext p
      exact congrArg₂ Prod.mk (hs.slave p).globalname (hs.slave p).queryname
    · cases e <;> first | rfl | cases hq
  cases e with
  | start p id =>
    cases h
    exact .inl ⟨hsame rfl rfl,by simp,fun _ _ => rfl⟩
  | handshake p =>
    simp only [step] at h
    split at h
    · cases h
      refine .inl ⟨?_,by simp,fun _ _ => rfl⟩
      unfold handshake
      split
      · split <;> rfl
      · rfl
      · rfl
    · cases h
      exact .inl ⟨rfl,by simp,fun _ _ => rfl⟩
  | dispatch p =>
    simp only [step] at h
    split at h
    · cases h
      refine .inl ⟨?_,by simp,fun _ _ => rfl⟩
      unfold dispatchSlave
      split
      · rfl
      · split <;> rfl
      · rfl
    · cases h
      exact .inl ⟨rfl,by simp,fun _ _ => rfl⟩
  | drop p =>
    simp only [step] at h
    split at h <;> cases h <;> exact .inl ⟨rfl,by simp,fun _ _ => rfl⟩
  | shake p =>
    simp only [step] at h
    split at h
    · cases h
      exact .inl ⟨hsame rfl rfl,by simp,fun _ _ => rfl⟩
    · cases h
      exact .inl ⟨hsame rfl rfl,by simp [Mute,Effect.told],fun _ _ => rfl⟩
  | receive p =>
    simp only [step] at h
    split at h
    · rename_i m rest hd
      obtain ⟨s,hs,rfl⟩ := act_eq_ok.mp h
      by_cases hm : ∃ name address, m = .N name address
      · obtain ⟨name,address,rfl⟩ := hm
        rw [Slave.monitorMaster_N] at hs
        cases hs
        refine .inr (.inl ⟨p,name,address,_,rfl,rfl,fun f hf => ?_,fun _ _ => rfl⟩)
        split at hf
        · rw [List.mem_singleton.mp hf]
          exact hredirect p (name,address)
        · cases hf
      · obtain ⟨hs,ht⟩ := Slave.monitorMaster_sameNames (fun name address hn => hm ⟨name,address,hn⟩) hs
        exact .inl ⟨hsame hs.globalname hs.queryname,fun f hf => .inl (ht f hf),fun _ _ => rfl⟩
    · cases h
      exact .inl ⟨rfl,by simp,fun _ _ => rfl⟩
  | lost p =>
    cases h
    refine .inl ⟨hsame rfl rfl,fun f hf => .inl ?_,fun _ _ => rfl⟩
    obtain ⟨r,_,rfl⟩ := List.mem_map.mp hf
    rfl
  | register p name address =>
    simp only [step] at h
    cases hl : tableIndex (c.slave p).globalname name with
    | some a =>
      rw [register,hl] at h
      cases h
      exact .inl ⟨rfl,by simp [Mute,Effect.told],fun _ _ => rfl⟩
    | none =>
      rw [register_eq hl] at h
      split at h
      · cases h
        rw [post_eq]
        refine .inr (.inl ⟨p,name,address,_,rfl,rfl,fun f hf => ?_,fun _ _ => rfl⟩)
        rw [List.mem_singleton.mp hf]
        exact hredirect p (name,address)
      · cases h
        exact .inr (.inl ⟨p,name,address,_,rfl,rfl,by simp [Mute,Effect.told],fun _ _ => rfl⟩)
  | queryName p name r =>
    have hrefused {f : Effect} (hf : f = .error p ∨ f = .localname p r) (q : Proc) (name' : Name) :
        (Event.queryName p name r).asked q name' [f] = none := by
      refine if_neg fun h => ?_
      rcases hf with rfl | rfl
      · exact h.2.2.1 rfl
      · exact h.2.2.2 rfl
    simp only [step,queryName] at h
    split at h
    · cases h
      exact .inl ⟨rfl,by simp [Mute,Effect.told],hrefused (.inr rfl)⟩
    · split at h
      · rename_i address hl
        cases h
        exact .inr (.inr (.inl ⟨p,name,r,address,rfl,hl,rfl,rfl⟩))
      · rename_i hl
        split at h
        · rename_i queue hqueue
          cases h
          refine .inr (.inr (.inr ⟨p,name,r,rfl,hl,rfl,?_⟩))
          rw [waiting,hqueue]
          rfl
        · rename_i hqueue
          split at h
          · cases h
            refine .inr (.inr (.inr ⟨p,name,r,rfl,hl,rfl,?_⟩))
            rw [post_eq,waiting,hqueue]
            rfl
          · cases h
            exact .inl ⟨rfl,by simp [Mute,Effect.told],hrefused (.inl rfl)⟩
  | harborQuery p name =>
    simp only [step] at h
    split at h
    · rename_i address hl
      cases h
      refine .inl ⟨rfl,fun f hf => ?_,fun _ _ => rfl⟩
      rw [List.mem_singleton.mp hf]
      exact hredirect p (name,address)
    · split at h
      · cases h
        rw [post_eq]
        exact .inl ⟨rfl,by simp,fun _ _ => rfl⟩
      · cases h
        exact .inl ⟨rfl,by simp [Mute,Effect.told],fun _ _ => rfl⟩
  | dialed _ _ _ | incoming _ _ | accept _ _ _ | ready _ _ | link _ _ _ | connect _ _ _ | linkMaster _ _ | harborDown _ _ =>
    exact absurd rfl hq

theorem waiting_congr (h : c'.names = c.names) : c'.waiting p name = c.waiting p name := by
  have h := congrArg Prod.snd (congrFun h p)
  have h : (c'.slave p).queryname = (c.slave p).queryname := h
  rw [waiting,h]
  rfl

theorem open_congr (h : c'.names = c.names) (ho : c.Open) : c'.Open := by
  intro p name hw
  have hg : (c'.slave p).globalname = (c.slave p).globalname := congrArg Prod.fst (congrFun h p)
  have hq : (c'.slave p).queryname = (c.slave p).queryname := congrArg Prod.snd (congrFun h p)
  rw [hg]
  rw [hq] at hw
  exact ho p name hw

/-- Those who wait and the one who asks are those who are answered, in turn, and those who wait next. -/
theorem step_waiting (ho : c.Open) (h : step fits c e = .ok c' fx) :
    c.waiting p name ++ (e.asked p name fx).toList = fx.filterMap (Effect.answered p name) ++ c'.waiting p name := by
  rcases step_names h with ⟨hn,hm,ha⟩ | ⟨q,name',address,fx',hn,rfl,hm,ha⟩ | ⟨q,name',r,address,rfl,hl,hc,rfl⟩ |
    ⟨q,name',r,rfl,hl,rfl,hn⟩
  · rw [filterMap_answered hm,waiting_congr hn,ha]
    simp
  · rw [List.filterMap_append,filterMap_answered hm,filterMap_answers,waiting_congr hn,waiting_named,ha]
    by_cases hqn : q = p ∧ name' = name
    · rw [if_pos hqn,if_pos hqn,hqn.1,hqn.2]
      simp [waiting]
    · simp [hqn]
  · rw [hc]
    by_cases hqn : q = p ∧ name' = name
    · obtain ⟨rfl,rfl⟩ := hqn
      have hnone : tableIndex (c.slave q).queryname name' = none := by
        by_contra hne
        simp [ho q name' hne] at hl
      simp [Event.asked,Effect.answered,waiting,hnone]
    · have ha : (Event.queryName q name' r).asked p name [.answer q r name' address] = none := if_neg fun h => hqn ⟨h.1,h.2.1⟩
      have hb : Effect.answered p name (.answer q r name' address) = none := if_neg hqn
      simp [ha,hb]
  · rw [waiting_congr hn,waiting_stored]
    by_cases hqn : q = p ∧ name' = name
    · obtain ⟨rfl,rfl⟩ := hqn
      simp [Event.asked]
    · have ha : (Event.queryName q name' r).asked p name [] = none := if_neg fun h => hqn ⟨h.1,h.2.1⟩
      simp [ha,hqn]

theorem step_open (ho : c.Open) (h : step fits c e = .ok c' fx) : c'.Open := by
  rcases step_names h with ⟨hn,_,_⟩ | ⟨q,name,address,fx',hn,_,_,_⟩ | ⟨q,name,r,address,rfl,hl,rfl,rfl⟩ | ⟨q,name,r,rfl,hl,rfl,hn⟩
  · exact open_congr hn ho
  · refine open_congr hn fun p name' hw => ?_
    simp only [setSlave_slave,Function.update_apply] at hw ⊢
    split
    · rename_i hp
      rw [if_pos hp,Slave.named,tableIndex_assign_option] at hw
      rw [Slave.named,tableIndex_assign]
      by_cases hname : name' = name
      · exact absurd (if_pos hname) hw
      · rw [if_neg hname] at hw ⊢
        exact ho q name' hw
    · rename_i hp
      rw [if_neg hp] at hw
      exact ho p name' hw
  · exact ho
  · refine open_congr hn fun p name' hw => ?_
    simp only [setSlave_slave,Function.update_apply] at hw ⊢
    split
    · rename_i hp
      rw [if_pos hp,tableIndex_assign] at hw
      by_cases hname : name' = name
      · rw [hname]
        exact hl
      · rw [if_neg hname] at hw
        exact ho q name' hw
    · rename_i hp
      rw [if_neg hp] at hw
      exact ho p name' hw

/-- Along every run the clients that asked a slave for a name are those it has answered, in the
same order, and behind them those that wait: no answer is lost and none is given twice. -/
theorem asked_eq_answered (hr : Run (step fits) (fun _ c e => c.Allowed e) init tr c) (p : Proc) (name : Name) :
    asked tr p name = answered tr p name ++ c.waiting p name := by
  suffices c.Open ∧ ∀ p name, asked tr p name = answered tr p name ++ c.waiting p name from this.2 p name
  induction hr with
  | nil => exact ⟨fun _ _ h => absurd rfl h,fun _ _ => rfl⟩
  | @snoc tr c c' e fx hr hg he ih =>
    refine ⟨step_open ih.1 he,fun p name => ?_⟩
    have hs : c.waiting p name ++ (e.asked p name fx).toList = fx.filterMap (Effect.answered p name) ++ c'.waiting p name :=
      step_waiting ih.1 he
    have ha : asked (tr ++ [(e,fx)]) p name = asked tr p name ++ (e.asked p name fx).toList := by
      rw [asked,List.filterMap_append]
      cases h : e.asked p name fx <;> simp [asked,h]
    have hb : answered (tr ++ [(e,fx)]) p name = answered tr p name ++ fx.filterMap (Effect.answered p name) := by
      simp [answered]
    rw [ha,hb,ih.2 p name,List.append_assoc,hs,List.append_assoc]

theorem asked_eq_answered_two : ∃ tr c, Run (step fun _ _ => true) (fun _ c e => c.Allowed e) init tr c ∧ tr.map Prod.fst = twoSlaves ∧
    asked tr 2 [65] = [7,8] ∧ c.waiting 2 [65] = [] ∧ answered tr 2 [65] = [7,8] := by
  have hcheck : runCheck (step fun _ _ => true) (fun _ c e => c.Allowed e)
      (fun tr c => asked tr 2 [65] = [7,8] ∧ c.waiting 2 [65] = []) twoSlaves [] init = true := by decide
  obtain ⟨tr,c,hr,hm,ha,hw⟩ := Run.of_runCheck hcheck
  have h := asked_eq_answered hr 2 [65]
  rw [ha,hw,List.append_nil] at h
  exact ⟨tr,c,hr,hm,ha,hw,h.symm⟩

end Cluster
end MyProgram.Harbor
