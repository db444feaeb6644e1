import MyProgram.Lib.Act

/-! Runs of a system that consumes inputs one at a time, under a guard that
states what its environment may do next. -/
namespace MyProgram.Lib
variable {φ ε S I K A O : Type}

/-- What happened so far: each input with the effects of the step it caused. -/
abbrev Trace (I ε : Type) := List (I × List ε)

/-- The states reached from `s₀`, with the trace that led there. Every step was
allowed by `guard` and returned. -/
inductive Run (step : S → I → Act φ ε S) (guard : Trace I ε → S → I → Prop) (s₀ : S) :
    Trace I ε → S → Prop
  | nil : Run step guard s₀ [] s₀
  | snoc {tr : Trace I ε} {s s' : S} {i : I} {fx : List ε} : Run step guard s₀ tr s →
      guard tr s i → step s i = .ok s' fx → Run step guard s₀ (tr ++ [(i,fx)]) s'

namespace Run
variable {step : S → I → Act φ ε S} {guard guard' : Trace I ε → S → I → Prop} {s₀ s : S} {tr : Trace I ε}

/-- A property of trace and state that holds initially and is kept by every
guarded step holds along every run. -/
theorem invariant (P : Trace I ε → S → Prop) (h0 : P [] s₀)
    (hs : ∀ tr s i s' fx, P tr s → guard tr s i → step s i = .ok s' fx → P (tr ++ [(i,fx)]) s')
    (h : Run step guard s₀ tr s) : P tr s := by
  induction h with
  | nil => exact h0
  | snoc _ hg he ih => exact hs _ _ _ _ _ ih hg he

theorem mono (hg : ∀ tr s i, guard tr s i → guard' tr s i) (h : Run step guard s₀ tr s) :
    Run step guard' s₀ tr s := by
  induction h with
  | nil => exact .nil
  | snoc _ hk he ih => exact .snoc ih (hg _ _ _ hk) he

end Run

/-- Execute inputs one after another, checking the guard before each step and a
property of trace and state at the end. -/
def runCheck (step : S → I → Act φ ε S) (guard : Trace I ε → S → I → Prop) [∀ tr s i, Decidable (guard tr s i)]
    (p : Trace I ε → S → Prop) [∀ tr s, Decidable (p tr s)] : List I → Trace I ε → S → Bool
  | [], tr, s => decide (p tr s)
  | i :: is, tr, s => decide (guard tr s i) && (step s i).holds fun s' fx => runCheck step guard p is (tr ++ [(i,fx)]) s'

/-- A successful check is a run. -/
theorem Run.of_runCheck {step : S → I → Act φ ε S} {guard : Trace I ε → S → I → Prop} [∀ tr s i, Decidable (guard tr s i)]
    {p : Trace I ε → S → Prop} [∀ tr s, Decidable (p tr s)] {s₀ : S} {is : List I}
    (h : runCheck step guard p is [] s₀ = true) : ∃ tr s, Run step guard s₀ tr s ∧ tr.map (·.1) = is ∧ p tr s := by
  suffices ∀ tr s, Run step guard s₀ tr s → runCheck step guard p is tr s = true →
      ∃ tr' s', Run step guard s₀ tr' s' ∧ tr'.map (·.1) = tr.map (·.1) ++ is ∧ p tr' s' by
    simpa using this [] s₀ .nil h
  clear h
  induction is with
  | nil =>
    intro tr s hr h
    exact ⟨tr,s,hr,by simp,of_decide_eq_true h⟩
  | cons i is ih =>
    intro tr s hr h
    rw [runCheck,Bool.and_eq_true] at h
    obtain ⟨s',fx,he,h'⟩ := Act.exists_of_holds h.2
    obtain ⟨tr',s'',hr',hm,hp⟩ := ih _ _ (hr.snoc (of_decide_eq_true h.1) he) h'
    exact ⟨tr',s'',hr',by simpa using hm,hp⟩

/-- A run behind a start that can be executed. Guard and property may depend on the
effects of the start. -/
theorem Run.of_start {α : Type} {start : Act φ ε α} {step : S → I → Act φ ε S} (s₀ : α → List ε → S)
    (guard : List ε → Trace I ε → S → I → Prop) [∀ fx tr s i, Decidable (guard fx tr s i)]
    (p : List ε → Trace I ε → S → Prop) [∀ fx tr s, Decidable (p fx tr s)] (is : List I)
    (h : start.holds (fun a fx => runCheck step (guard fx) (p fx) is [] (s₀ a fx)) = true) :
    ∃ a fx tr s, start = .ok a fx ∧ Run step (guard fx) (s₀ a fx) tr s ∧ tr.map (·.1) = is ∧ p fx tr s := by
  obtain ⟨a,fx,hs,hc⟩ := Act.exists_of_holds h
  obtain ⟨tr,s,hr,hm,hp⟩ := Run.of_runCheck hc
  exact ⟨a,fx,tr,s,hs,hr,hm,hp⟩

/-- The run of a deterministic machine that answers each input at once. -/
def replay (astep : A → K → A × List O) : A → List K → A × List O
  | a, [] => (a,[])
  | a, k :: ks => ((replay astep (astep a k).1 ks).1,(astep a k).2 ++ (replay astep (astep a k).1 ks).2)

theorem replay_append (astep : A → K → A × List O) (a : A) (ks ks' : List K) :
    replay astep a (ks ++ ks') =
      ((replay astep (replay astep a ks).1 ks').1,
        (replay astep a ks).2 ++ (replay astep (replay astep a ks).1 ks').2) := by
  induction ks generalizing a with
  | nil => rfl
  | cons k ks ih => simp only [List.cons_append,replay,ih,List.append_assoc]

/-- Projection of a run onto a component. If the relation `R` to the component's
own machine survives every step, inputs in the component's view moving that
machine and all others leaving it alone, then the component's observations along
the run are those of its machine on the viewed inputs. -/
theorem Run.project {step : S → I → Act φ ε S} {guard : Trace I ε → S → I → Prop} {s₀ s : S}
    {tr : Trace I ε} (R : S → A → Prop) (view : I → Option K) (obs : I × List ε → List O)
    (astep : A → K → A × List O) {a₀ : A} (h0 : R s₀ a₀)
    (hs : ∀ tr s i s' fx a, R s a → guard tr s i → step s i = .ok s' fx →
      (∀ k, view i = some k → R s' (astep a k).1 ∧ obs (i,fx) = (astep a k).2) ∧
      (view i = none → R s' a ∧ obs (i,fx) = []))
    (h : Run step guard s₀ tr s) :
    R s (replay astep a₀ (tr.filterMap fun e => view e.1)).1 ∧
      tr.flatMap obs = (replay astep a₀ (tr.filterMap fun e => view e.1)).2 := by
  induction h with
  | nil => exact ⟨h0,rfl⟩
  | @snoc tr s s' i fx _ hg he ih =>
    obtain ⟨hsome,hnone⟩ := hs tr s i s' fx _ ih.1 hg he
    rw [List.filterMap_append,List.flatMap_append,replay_append,ih.2]
    cases hv : view i with
    | none =>
      have hk := hnone hv
      simpa [hv,replay,hk.2] using hk.1
    | some k =>
      have hk := hsome k hv
      simpa [hv,replay,hk.2] using hk.1

end MyProgram.Lib
