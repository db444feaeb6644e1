import MyProgram.Harbor.Steps
import MyProgram.Lib.Runs

/-! Global names: where an address comes from, and what becomes of those who ask for one. -/
namespace MyProgram.Harbor
open Lib

namespace Cluster
variable {fits : Name → Option Handle → Bool} {c c' : Cluster} {p q : Proc} {e : Event} {name : Name} {address : Handle}
  {fx : List Effect} {tr : Trace Event Effect}

/-- Some table has the address for the name, or a package under way. -/
def Knows (c : Cluster) (name : Name) (address : Handle) : Prop :=
  (name,address) ∈ c.globalName ∨
    ∃ p, (name,address) ∈ (c.slave p).globalname ∨ ToMaster.R name address ∈ c.up p ∨ ToSlave.N name address ∈ c.down p

section
variable {s : Slave} {l : List Proc} {m : ToSlave} {v : Conn} {us : List ToMaster} {ds : List ToSlave}

theorem SameNames.knows (h : c.SameNames c') (hk : c'.Knows name address) : c.Knows name address := by
  unfold Knows at *
  simpa only [h.globalName,h.up,h.down,(h.slave _).globalname] using hk

theorem Knows.of_setSlave (h : (c.setSlave p s).Knows name address) : c.Knows name address ∨ (name,address) ∈ s.globalname := by
  rcases h with h | ⟨q,h | h | h⟩
  · exact .inl (.inl h)
  · simp only [setSlave_slave,Function.update_apply] at h
    split at h
    · exact .inr h
    · exact .inl (.inr ⟨q,.inl h⟩)
  · exact .inl (.inr ⟨q,.inr (.inl h)⟩)
  · exact .inl (.inr ⟨q,.inr (.inr h)⟩)

theorem Knows.of_setUp (h : (c.setUp p us).Knows name address) : c.Knows name address ∨ .R name address ∈ us := by
  rcases h with h | ⟨q,h | h | h⟩
  · exact .inl (.inl h)
  · exact .inl (.inr ⟨q,.inl h⟩)
  · simp only [setUp_up,Function.update_apply] at h
    split at h
    · exact .inr h
    · exact .inl (.inr ⟨q,.inr (.inl h)⟩)
  · exact .inl (.inr ⟨q,.inr (.inr h)⟩)

theorem Knows.of_setDown (h : (c.setDown p ds).Knows name address) : c.Knows name address ∨ .N name address ∈ ds := by
  rcases h with h | ⟨q,h | h | h⟩
  · exact .inl (.inl h)
  · exact .inl (.inr ⟨q,.inl h⟩)
  · exact .inl (.inr ⟨q,.inr (.inl h)⟩)
  · simp only [setDown_down,Function.update_apply] at h
    split at h
    · exact .inr h
    · exact .inl (.inr ⟨q,.inr (.inr h)⟩)

theorem Knows.of_sendAll (h : (c.sendAll l m).Knows name address) : c.Knows name address ∨ m = .N name address := by
  rcases h with h | ⟨q,h | h | h⟩
  · exact .inl (.inl h)
  · exact .inl (.inr ⟨q,.inl h⟩)
  · exact .inl (.inr ⟨q,.inr (.inl h)⟩)
  · rcases List.mem_append.mp h with h | h
    · exact .inl (.inr ⟨q,.inr (.inr h)⟩)
    · exact .inr (List.eq_of_mem_replicate h).symm

theorem Knows.of_setConn (h : (c.setConn p v).Knows name address) : c.Knows name address := h

theorem Knows.of_up_tail {m : ToMaster} (hu : c.up p = m :: us) (h : (c.setUp p us).Knows name address) : c.Knows name address :=
  h.of_setUp.elim id fun h => .inr ⟨p,.inr (.inl (hu ▸ List.mem_cons_of_mem m h))⟩

theorem Knows.of_down_tail (hd : c.down p = m :: ds) (h : (c.setDown p ds).Knows name address) : c.Knows name address :=
  h.of_setDown.elim id fun h => .inr ⟨p,.inr (.inr (hd ▸ List.mem_cons_of_mem m h))⟩

theorem Knows.of_post {m : ToMaster} (h : (c.post p m).Knows name address) : c.Knows name address ∨ m = .R name address := by
  rw [post_eq] at h
  rcases h.of_setUp with h | h
  · exact .inl h
  · split at h
    · rcases List.mem_append.mp h with h | h
      · exact .inl (.inr ⟨p,.inr (.inl h)⟩)
      · exact .inr (List.mem_singleton.mp h).symm
    · exact .inl (.inr ⟨p,.inr (.inl h)⟩)

theorem handshake_knows {m : ToMaster} (h : (c.handshake p m).Knows name address) : c.Knows name address := by
  unfold handshake at h
  split at h
  · split at h
    · exact h
    · have h : ((c.sendAll c.fds _).send p _).Knows name address := h
      rw [send_eq] at h
      rcases h.of_sendAll with h | h
      · exact h.of_sendAll.elim id (by simp)
      · cases h
  · exact h
  · exact h

theorem dispatchSlave_knows {m : ToMaster} (hm : m = .R name address → c.Knows name address)
    (h : (c.dispatchSlave p m).Knows name address) : c.Knows name address := by
  unfold dispatchSlave at h
  split at h
  · rcases h.of_sendAll with h | h
    · rcases h with h | h
      · dsimp only at h
        split at h
        · rcases mem_assign h with h | ⟨ha,hn⟩
          · exact .inl h
          · cases ha
            cases hn
            exact hm rfl
        · exact .inl h
      · exact .inr h
    · cases h
      exact hm rfl
  · split at h
    · rename_i name' address' hl
      rw [send_eq] at h
      rcases h.of_sendAll with h | h
      · exact h
      · cases h
        exact .inl (mem_of_tableIndex hl)
    · exact h
  · exact h

theorem dropSlave_knows {id : Id} (h : (c.dropSlave p id).Knows name address) : c.Knows name address := by
  unfold dropSlave at h
  exact h.of_setConn.of_sendAll.elim (fun h => h) (by simp)

theorem Knows.of_named {name' : Name} {address' : Handle} (h : (c.setSlave p ((c.slave p).named name address)).Knows name' address') :
    c.Knows name' address' ∨ name' = name ∧ address' = address := by
  rcases h.of_setSlave with h | h
  · exact .inl h
  · have h : (name',address') ∈ assign (c.slave p).globalname name (some address) := h
    rcases mem_assign h with h | ⟨ha,hn⟩
    · exact .inl (.inr ⟨p,.inl h⟩)
    · exact .inr ⟨hn,(Option.some.inj ha).symm⟩

theorem answers_told {s : Slave} {f : Effect} {name' : Name} {address' : Handle} (h : f ∈ s.answers p name address) (ht : f.told = some (name',address')) :
    name' = name ∧ address' = address := by
  obtain ⟨r,_,rfl⟩ := List.mem_map.mp h
  cases ht
  exact ⟨rfl,rfl⟩

end

/-- A step tells and keeps addresses that are known, or the one that is registered. -/
theorem step_knows (h : step fits c e = .ok c' fx) :
    (∀ name address, c'.Knows name address → c.Knows name address ∨ ∃ p, e = .register p name address) ∧
      ∀ f ∈ fx, ∀ name address, f.told = some (name,address) → c.Knows name address ∨ ∃ p, e = .register p name address := by
  by_cases hq : e.quiet = true
  · obtain ⟨hs,ht⟩ := step_quiet hq h
    refine ⟨fun name address hk => .inl (hs.knows hk),fun f hf name address hn => ?_⟩
    rcases ht f hf with ht | ⟨p,x,hx,rfl⟩
    · simp [ht] at hn
    · cases hn
      exact .inl (.inr ⟨p,.inl hx⟩)
  cases e with
  | start p id =>
    cases h
    refine ⟨fun name address hk => .inl ?_,by simp⟩
    rcases hk.of_setDown with hk | hk
    · rcases hk.of_setUp with hk | hk
      · rcases hk.of_setConn.of_setSlave with hk | hk
        · exact hk
        · exact .inr ⟨p,.inl hk⟩
      · simp at hk
    · simp at hk
  | handshake p =>
    simp only [step] at h
    split at h
    · rename_i m rest hu
      cases h
      exact ⟨fun name address hk => .inl ((handshake_knows hk).of_up_tail hu),by simp⟩
    · cases h
      exact ⟨fun _ _ hk => .inl hk,by simp⟩
  | dispatch p =>
    simp only [step] at h
    split at h
    · rename_i m rest hu
      cases h
      refine ⟨fun name address hk => .inl ?_,by simp⟩
      by_cases hm : m = .R name address
      · exact .inr ⟨p,.inr (.inl (by simp [hu,hm]))⟩
      · exact ((dispatchSlave_knows fun h => absurd h hm) hk).of_up_tail hu
    · cases h
      exact ⟨fun _ _ hk => .inl hk,by simp⟩
  | drop p =>
    simp only [step] at h
    split at h
    · cases h
      exact ⟨fun _ _ hk => .inl (dropSlave_knows hk),by simp⟩
    all_goals
      cases h
      exact ⟨fun _ _ hk => .inl hk.of_setConn,by simp⟩
  | shake p =>
    simp only [step] at h
    split at h
    · rename_i n rest hd
      cases h
      refine ⟨fun name address hk => .inl ?_,by simp⟩
      rcases hk.of_setSlave with hk | hk
      · exact hk.of_down_tail hd
      · exact .inr ⟨p,.inl hk⟩
    · cases h
      refine ⟨fun name address hk => .inl ?_,by simp [Effect.told]⟩
      exact hk.of_setSlave.elim (fun hk => hk) fun hk => .inr ⟨p,.inl hk⟩
  | receive p =>
    simp only [step] at h
    split at h
    · rename_i m rest hd
      obtain ⟨s,hs,rfl⟩ := act_eq_ok.mp h
      by_cases hm : ∃ name address, m = .N name address
      · obtain ⟨name',address',rfl⟩ := hm
        have hk' : c.Knows name' address' := .inr ⟨p,.inr (.inr (by simp [hd]))⟩
        rw [Slave.monitorMaster_N] at hs
        cases hs
        refine ⟨fun name address hk => .inl ?_,fun f hf name address ht => .inl ?_⟩
        · rcases hk.of_named with hk | ⟨rfl,rfl⟩
          · exact hk.of_down_tail hd
          · exact hk'
        · rcases List.mem_append.mp hf with hf | hf
          · obtain ⟨rfl,rfl⟩ := answers_told hf ht
            exact hk'
          · split at hf
            · rw [List.mem_singleton.mp hf] at ht
              cases ht
              exact hk'
            · cases hf
      · obtain ⟨hsame,ht⟩ := Slave.monitorMaster_sameNames (fun name address hn => hm ⟨name,address,hn⟩) hs
        refine ⟨fun name address hk => .inl ?_,fun f hf name address hn => ?_⟩
        · rcases hk.of_setSlave with hk | hk
          · exact hk.of_down_tail hd
          · rw [hsame.globalname] at hk
            exact .inr ⟨p,.inl hk⟩
        · simp [ht f hf] at hn
    · cases h
      exact ⟨fun _ _ hk => .inl hk,by simp⟩
  | lost p =>
    cases h
    refine ⟨fun name address hk => .inl ?_,fun f hf name address ht => ?_⟩
    · rcases hk.of_setSlave with hk | hk
      · exact hk.of_setDown.elim (fun hk => hk) (by simp)
      · exact .inr ⟨p,.inl hk⟩
    · obtain ⟨r,_,rfl⟩ := List.mem_map.mp hf
      cases ht
  | register p name address =>
    simp only [step] at h
    cases hl : tableIndex (c.slave p).globalname name with
    | some a =>
      rw [register,hl] at h
      cases h
      exact ⟨fun _ _ hk => .inl hk,by simp [Effect.told]⟩
    | none =>
      rw [register_eq hl] at h
      split at h
      · cases h
        refine ⟨fun name' address' hk => ?_,fun f hf name' address' ht => .inr ⟨p,?_⟩⟩
        · rcases hk.of_post with hk | hk
          · rcases hk.of_named with hk | ⟨rfl,rfl⟩
            · exact .inl hk
            · exact .inr ⟨p,rfl⟩
          · cases hk
            exact .inr ⟨p,rfl⟩
        · rcases List.mem_append.mp hf with hf | hf
          · obtain ⟨rfl,rfl⟩ := answers_told hf ht
            rfl
          · rw [List.mem_singleton.mp hf] at ht
            cases ht
            rfl
      · cases h
        refine ⟨fun name' address' hk => ?_,fun f hf name' address' ht => .inr ⟨p,?_⟩⟩
        · rcases hk.of_named with hk | ⟨rfl,rfl⟩
          · exact .inl hk
          · exact .inr ⟨p,rfl⟩
        · rcases List.mem_append.mp hf with hf | hf
          · obtain ⟨rfl,rfl⟩ := answers_told hf ht
            rfl
          · rw [List.mem_singleton.mp hf] at ht
            cases ht
  | queryName p name r =>
    simp only [step,queryName] at h
    split at h
    · cases h
      exact ⟨fun _ _ hk => .inl hk,by simp [Effect.told]⟩
    · split at h
      · rename_i address hl
        cases h
        refine ⟨fun _ _ hk => .inl hk,fun f hf name' address' ht => .inl (.inr ⟨p,.inl ?_⟩)⟩
        rw [List.mem_singleton.mp hf] at ht
        cases ht
        exact mem_of_tableIndex hl
      · split at h
        · cases h
          refine ⟨fun _ _ hk => .inl ?_,by simp⟩
          exact hk.of_setSlave.elim (fun hk => hk) fun hk => .inr ⟨p,.inl hk⟩
        · split at h
          · cases h
            refine ⟨fun _ _ hk => .inl ?_,by simp⟩
            rcases hk.of_setSlave with hk | hk
            · exact hk.of_post.elim (fun hk => hk) (by simp)
            · exact .inr ⟨p,.inl hk⟩
          · cases h
            exact ⟨fun _ _ hk => .inl hk,by simp [Effect.told]⟩
  | harborQuery p name =>
    simp only [step] at h
    split at h
    · rename_i address hl
      cases h
      refine ⟨fun _ _ hk => .inl hk,fun f hf name' address' ht => .inl (.inr ⟨p,.inl ?_⟩)⟩
      rw [List.mem_singleton.mp hf] at ht
      cases ht
      exact mem_of_tableIndex hl
    · split at h
      · cases h
        exact ⟨fun _ _ hk => .inl (hk.of_post.elim (fun hk => hk) (by simp)),by simp⟩
      · cases h
        exact ⟨fun _ _ hk => .inl hk,by simp [Effect.told]⟩
  | dialed _ _ _ | incoming _ _ | accept _ _ _ | ready _ _ | link _ _ _ | connect _ _ _ | linkMaster _ _ | harborDown _ _ =>
    exact absurd rfl hq

/-- A client of some slave has asked to register the address for the name. -/
def Registered (tr : Trace Event Effect) (name : Name) (address : Handle) : Prop := ∃ p fx, (.register p name address,fx) ∈ tr

theorem Registered.append (h : Registered tr name address) (tr' : Trace Event Effect) : Registered (tr ++ tr') name address := by
  obtain ⟨p,fx,hm⟩ := h
  exact ⟨p,fx,List.mem_append_left tr' hm⟩

/-- Whatever happens, an address that some table or package has for a name was registered for
it, and one that is told was registered before. -/
theorem names_registered (hr : Run (step fits) (fun _ c e => c.Allowed e) init tr c) :
    (∀ name address, c.Knows name address → Registered tr name address) ∧
      ∀ tr₁ e fx tr₂, tr = tr₁ ++ (e,fx) :: tr₂ → ∀ f ∈ fx, ∀ name address, f.told = some (name,address) →
        Registered (tr₁ ++ [(e,fx)]) name address := by
  induction hr with
  | nil =>
    refine ⟨fun name address hk => ?_,fun tr₁ e fx tr₂ h => by simp at h⟩
    rcases hk with hk | ⟨p,hk | hk | hk⟩ <;> cases hk
  | @snoc tr c c' e fx hr hg he ih =>
    obtain ⟨hk,ht⟩ := step_knows he
    have hreg (name : Name) (address : Handle) (h : c.Knows name address ∨ ∃ p, e = .register p name address) :
        Registered (tr ++ [(e,fx)]) name address := by
      rcases h with h | ⟨p,rfl⟩
      · exact (ih.1 name address h).append _
      · exact ⟨p,fx,by simp⟩
    refine ⟨fun name address h => hreg name address (hk name address h),fun tr₁ e' fx' tr₂ h f hf name address hn => ?_⟩
    rcases List.eq_nil_or_concat' tr₂ with rfl | ⟨tr₂,x,rfl⟩
    · obtain ⟨rfl,hx⟩ := List.append_inj' h rfl
      cases hx
      exact hreg name address (ht f hf name address hn)
    · rw [← List.cons_append,← List.append_assoc] at h
      exact ih.2 tr₁ e' fx' tr₂ (List.append_inj' h rfl).1 f hf name address hn

/-- A slave is started, and a second; a client of the second asks for a name, and one of the
first registers it. -/
def twoSlaves : List Event :=
  [.start 1 1,.handshake 1,.shake 1,.start 2 2,.handshake 2,.shake 2,.queryName 2 [65] 7,.dispatch 2,.register 1 [65] 9,.dispatch 1,
    .receive 2,.queryName 2 [65] 8]

theorem names_registered_two : ∃ tr c, Run (step fun _ _ => true) (fun _ c e => c.Allowed e) init tr c ∧ tr.map Prod.fst = twoSlaves ∧
    c.Knows [65] 9 ∧ Registered tr [65] 9 := by
  have hcheck : runCheck (step fun _ _ => true) (fun _ c e => c.Allowed e)
      (fun _ c => tableIndex (c.slave 2).globalname [65] = some 9) twoSlaves [] init = true := by decide
  obtain ⟨tr,c,hr,hm,h⟩ := Run.of_runCheck hcheck
  have hk : c.Knows [65] 9 := .inr ⟨2,.inl (mem_of_tableIndex h)⟩
  exact ⟨tr,c,hr,hm,hk,(names_registered hr).1 [65] 9 hk⟩

end Cluster
end MyProgram.Harbor
