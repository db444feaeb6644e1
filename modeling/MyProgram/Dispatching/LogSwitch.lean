import MyProgram.Dispatching.Model
import Mathlib.Data.List.Induction

/-! The switch of the workload log, which is carried from one context to the next. -/
namespace MyProgram.Dispatching
open Lib
variable {F P : Type}

/-- The calls that concern the log. Contexts are known by their references. -/
inductive Call where
  | set_yunlog_ctx (ctx : Option Nat)
  | set_yunlog_switch (status : Bool)
  deriving DecidableEq, Repr

def Call.perform : Call → Lua F P Unit
  | .set_yunlog_ctx ctx => Dispatching.set_yunlog_ctx ctx
  | .set_yunlog_switch status => Dispatching.set_yunlog_switch (some (.bool status))

/-- Calls one after another, up to the first that raises an error. -/
def performAll (cs : List Call) : Lua F P Unit := cs.foldl (fun m c => m >>= fun _ => c.perform) (pure ())

/-- A new dispatcher, among contexts that may have any fields. -/
def World.new (ftable : List (Bytes × F)) (contexts : Nat → Context P) : World F P := ⟨.new ftable,contexts,[]⟩

/-- The last context given, and the last status set while there was one. -/
def follow : Option Nat × Option Bool → Call → Option Nat × Option Bool
  | (_,status), .set_yunlog_ctx ctx => (ctx,status)
  | (ctx,status), .set_yunlog_switch b => (ctx,if ctx.isSome then some b else status)

def followAll (cs : List Call) : Option Nat × Option Bool := cs.foldl follow (none,none)

/-- The dispatcher has the last context given, switched as it was switched last. -/
structure Switched (w : World F P) (expected : Option Nat × Option Bool) : Prop where
  ctx : w.dispatcher.yunlog_ctx = expected.1
  status : ∀ r b, w.dispatcher.yunlog_ctx = some r → expected.2 = some b → (w.contexts r).swtich = some (.bool b)

/-- No call of the sequence raises an error, and the switch survives each of them. -/
def Survives (w : World F P) (cs : List Call) : Prop :=
  ∀ pre, pre <+: cs → ∃ w', performAll pre w = (.ok (),w') ∧ Switched w' (followAll pre)

/-- The context is not taken away while it has a switch. -/
def Carries (w : World F P) : Call → Prop
  | .set_yunlog_ctx none => ∀ r, w.dispatcher.yunlog_ctx = some r → (w.contexts r).swtich = none
  | _ => True

/-- Every call of the sequence finds such a state. -/
def AllCarry (w : World F P) (cs : List Call) : Prop := ∀ pre c, pre ++ [c] <+: cs → Carries (performAll pre w).2 c

variable {w w' : World F P} {cs : List Call} {c : Call} {ctx : Option Nat} {status : Bool}

theorem performAll_snoc (cs : List Call) (c : Call) (w : World F P) :
    performAll (cs ++ [c]) w = (performAll cs >>= fun _ => c.perform) w := by
  rw [performAll,List.foldl_append]
  rfl

/-- The switch of the context in place. -/
def World.swtich (w : World F P) : Option (Val P) := w.dispatcher.yunlog_ctx.bind fun r => (w.contexts r).swtich

def World.withCtx (w : World F P) (ctx : Option Nat) : World F P := { w with dispatcher := { w.dispatcher with yunlog_ctx := ctx } }

def World.withSwtich (w : World F P) (r : Nat) (status : Option (Val P)) : World F P :=
  { w with contexts := Function.update w.contexts r { w.contexts r with swtich := status } }

theorem setSwtich_eq (status : Option (Val P)) (w : World F P) : setSwtich status w = match w.dispatcher.yunlog_ctx with
    | some r => (.ok (),w.withSwtich r status)
    | none => (.error "attempt to index a nil value (field 'yunlog_ctx')",w) := by
  rw [setSwtich,Prog.bind_eq,self,Prog.read]
  dsimp only
  cases w.dispatcher.yunlog_ctx <;> rfl

theorem set_yunlog_switch_eq (status : Option (Val P)) (w : World F P) : set_yunlog_switch status w = (.ok (),
    match w.dispatcher.yunlog_ctx with
    | some r => w.withSwtich r status
    | none => w) := by
  rw [set_yunlog_switch,Prog.bind_eq,self,Prog.read]
  dsimp only
  cases hc : w.dispatcher.yunlog_ctx with
  | none => rfl
  | some r =>
    change setSwtich status w = _
    rw [setSwtich_eq,hc]

/-- A switch that is on record is written to the new context, which has to be there. -/
theorem set_yunlog_ctx_eq (ctx : Option Nat) (w : World F P) : set_yunlog_ctx ctx w = match w.swtich, ctx with
    | none, _ => (.ok (),w.withCtx ctx)
    | some v, some r => (.ok (),(w.withCtx ctx).withSwtich r (some v))
    | some _, none => (.error "attempt to index a nil value (field 'yunlog_ctx')",w.withCtx ctx) := by
  rw [set_yunlog_ctx,Prog.bind_eq,Prog.read]
  dsimp only
  rw [Prog.bind_eq,setSelf,Prog.modify,← World.swtich]
  dsimp only
  cases hs : w.swtich with
  | none => rfl
  | some v =>
    change setSwtich (some v) (w.withCtx ctx) = _
    rw [setSwtich_eq]
    cases ctx <;> rfl

/-- A status goes to the context in place, if there is one. -/
theorem perform_switch {expected : Option Nat × Option Bool} (h : Switched w expected)
    (hs : expected.2.isSome = true → expected.1.isSome = true) (b : Bool) :
    ∃ w', (Call.set_yunlog_switch b).perform w = (.ok (),w') ∧ Switched w' (follow expected (.set_yunlog_switch b)) ∧
      ((follow expected (.set_yunlog_switch b)).2.isSome = true → (follow expected (.set_yunlog_switch b)).1.isSome = true) := by
  obtain ⟨ctx₀,status₀⟩ := expected
  refine ⟨_,set_yunlog_switch_eq _ w,?_,?_⟩
  · cases hctx : w.dispatcher.yunlog_ctx with
    | none =>
      have h0 : ctx₀ = none := h.ctx.symm.trans hctx
      subst h0
      exact ⟨h.ctx,h.status⟩
    | some r =>
      have h0 : ctx₀ = some r := h.ctx.symm.trans hctx
      subst h0
      refine ⟨h.ctx,?_⟩
      intro r' b' hr' hb'
      cases hctx.symm.trans hr'
      cases hb'
      simp [World.withSwtich]
  · cases ctx₀ with
    | none => exact hs
    | some r => exact fun _ => rfl

/-- Where no context has a switch, no status was set. -/
theorem Switched.unset {expected : Option Nat × Option Bool} (h : Switched w expected)
    (hs : expected.2.isSome = true → expected.1.isSome = true) (hsw : w.swtich = none) : expected.2 = none := by
  by_contra hb
  obtain ⟨b,hb⟩ := Option.ne_none_iff_exists'.mp hb
  obtain ⟨r,hr⟩ := Option.isSome_iff_exists.mp (hs (by rw [hb]; rfl))
  have hr : w.dispatcher.yunlog_ctx = some r := h.ctx.trans hr
  rw [World.swtich,hr] at hsw
  exact absurd ((h.status r b hr hb).symm.trans hsw) (by simp)

/-- A new context gets the switch of the old one. -/
theorem perform_ctx {expected : Option Nat × Option Bool} (h : Switched w expected)
    (hs : expected.2.isSome = true → expected.1.isSome = true) (hc : Carries w (.set_yunlog_ctx ctx)) :
    ∃ w', (Call.set_yunlog_ctx ctx).perform w = (.ok (),w') ∧ Switched w' (follow expected (.set_yunlog_ctx ctx)) ∧
      ((follow expected (.set_yunlog_ctx ctx)).2.isSome = true → (follow expected (.set_yunlog_ctx ctx)).1.isSome = true) := by
  obtain ⟨ctx₀,status₀⟩ := expected
  cases hsw : w.swtich with
  | none =>
    have hnone : status₀ = none := h.unset hs hsw
    subst hnone
    refine ⟨w.withCtx ctx,?_,⟨rfl,?_⟩,?_⟩
    · rw [Call.perform,set_yunlog_ctx_eq,hsw]
    · intro r b _ hb
      cases hb
    · intro hb
      cases hb
  | some v =>
    obtain ⟨r₀,hr₀,hv⟩ := Option.bind_eq_some_iff.mp hsw
    cases ctx with
    | none => exact absurd (hv.symm.trans (hc r₀ hr₀)) (by simp)
    | some r =>
      refine ⟨(w.withCtx (some r)).withSwtich r (some v),?_,⟨rfl,?_⟩,fun _ => rfl⟩
      · rw [Call.perform,set_yunlog_ctx_eq,hsw]
      · intro r' b hr' hb
        cases hr'
        have := h.status r₀ b hr₀ hb
        rw [hv] at this
        simpa [World.withSwtich] using this

/-- A call that carries the switch returns and keeps it. -/
theorem perform_switched {expected : Option Nat × Option Bool} (h : Switched w expected)
    (hs : expected.2.isSome = true → expected.1.isSome = true) (hc : Carries w c) :
    ∃ w', c.perform w = (.ok (),w') ∧ Switched w' (follow expected c) ∧
      ((follow expected c).2.isSome = true → (follow expected c).1.isSome = true) := by
  cases c with
  | set_yunlog_switch b => exact perform_switch h hs b
  | set_yunlog_ctx ctx => exact perform_ctx h hs hc

/-- Taking the context away while it has a switch raises an error. -/
theorem perform_raises (h : ¬Carries w c) : ∃ e w', c.perform w = (.error e,w') := by
  cases c with
  | set_yunlog_switch b => exact absurd trivial h
  | set_yunlog_ctx ctx =>
    cases ctx with
    | some r => exact absurd trivial h
    | none =>
      have hex : ∃ r, w.dispatcher.yunlog_ctx = some r ∧ (w.contexts r).swtich ≠ none := by
        by_contra hno
        refine h fun r hr => ?_
        by_contra hne
        exact hno ⟨r,hr,hne⟩
      obtain ⟨r,hr,hne⟩ := hex
      obtain ⟨v,hv⟩ := Option.ne_none_iff_exists'.mp hne
      have hsw : w.swtich = some v := by rw [World.swtich,hr]; exact hv
      refine ⟨"attempt to index a nil value (field 'yunlog_ctx')",w.withCtx none,?_⟩
      rw [Call.perform,set_yunlog_ctx_eq,hsw]

theorem performAll_switched (ftable : List (Bytes × F)) (contexts : Nat → Context P) (cs : List Call)
    (h : AllCarry (World.new ftable contexts) cs) :
    ∃ w', performAll cs (World.new ftable contexts) = (.ok (),w') ∧ Switched w' (followAll cs) ∧
      ((followAll cs).2.isSome = true → (followAll cs).1.isSome = true) := by
  induction cs using List.reverseRecOn with
  | nil =>
    refine ⟨_,rfl,⟨rfl,?_⟩,?_⟩
    · intro r b _ hb
      cases hb
    · intro hb
      cases hb
  | append_singleton cs c ih =>
    obtain ⟨w,hw,hsw,hs⟩ := ih fun pre c' hp => h pre c' (hp.trans (List.prefix_append cs [c]))
    have hc := h cs c (List.prefix_refl _)
    rw [hw] at hc
    obtain ⟨w',hw',hsw',hs'⟩ := perform_switched hsw hs hc
    refine ⟨w',?_,?_,?_⟩
    · rw [performAll_snoc,Prog.bind_eq,hw]
      exact hw'
    · rw [followAll,List.foldl_append]
      exact hsw'
    · rw [followAll,List.foldl_append]
      exact hs'

/-- The switch survives a sequence of calls exactly if the context is never taken away
while it has one. -/
theorem switch_survives_iff (ftable : List (Bytes × F)) (contexts : Nat → Context P) (cs : List Call) :
    Survives (World.new ftable contexts) cs ↔ AllCarry (World.new ftable contexts) cs := by
  constructor
  · intro h pre c hp
    by_contra hc
    obtain ⟨e,w',he⟩ := perform_raises hc
    obtain ⟨w₁,h₁,_⟩ := h pre ((List.prefix_append pre [c]).trans hp)
    obtain ⟨w₂,h₂,_⟩ := h (pre ++ [c]) hp
    rw [h₁] at he
    rw [performAll_snoc,Prog.bind_eq,h₁] at h₂
    cases he.symm.trans h₂
  · intro h pre hp
    obtain ⟨w',hw',hs,_⟩ := performAll_switched ftable contexts pre fun p c hpc => h p c (hpc.trans hp)
    exact ⟨w',hw',hs⟩

/-- Contexts without any field. -/
def blank (_ : Nat) : Context Unit := ⟨none,none,none,none⟩

/-- A context is installed and switched on; taking it away raises an error when it is gone. -/
theorem taken_away_raises : ∃ e w', performAll [.set_yunlog_ctx (some 0),.set_yunlog_switch true,.set_yunlog_ctx none]
      (World.new (F := Unit) [] blank) = (.error e,w') ∧ w'.dispatcher.yunlog_ctx = none ∧
    ¬ Survives (World.new (F := Unit) [] blank) [.set_yunlog_ctx (some 0),.set_yunlog_switch true,.set_yunlog_ctx none] := by
  refine ⟨_,_,rfl,rfl,fun h => ?_⟩
  obtain ⟨w',hw',_⟩ := h _ (List.prefix_refl _)
  cases (Prod.ext_iff.mp hw').1

end MyProgram.Dispatching
