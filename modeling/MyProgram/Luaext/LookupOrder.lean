import MyProgram.Luaext.Lookup

/-! Which reads with `class2` do not depend on the reads before them. -/
namespace MyProgram.Luaext.Class2
open Lib
variable {K F : Type} {classes : List (ClassType K F)} {w : World K F} {ops : List (ClassOp K F)}
  {tr : Trace (ClassOp K F) (Effect F)} {c obj fuel : Nat}

/-- The operations without the reads. -/
def changes (ops : List (ClassOp K F)) : List (ClassOp K F) := ops.filter fun
  | .read .. => false
  | _ => true

theorem supers_changes (ops : List (ClassOp K F)) : supers (changes ops) = supers ops := by
  rw [supers,changes,List.filterMap_filter,supers]
  congr 1
  funext op
  cases op <;> rfl

/-- `new` calls the constructors of the classes from the oldest on. -/
theorem create_spec (ho : Older (superOf (classes.map (·.super)))) (hc : c < classes.length) (hf : c < fuel) :
    create classes obj fuel c = .ok ()
      (((lineage (superOf (classes.map (·.super))) c).reverse.filterMap fun d => classes[d]?.bind (·.ctor)).map (.called · obj)) := by
  induction c using ho.induct generalizing fuel with
  | hs c ih =>
    obtain ⟨fuel,rfl⟩ := Nat.exists_eq_add_one_of_ne_zero (Nat.ne_zero_of_lt hf)
    have hget : classes[c]? = some classes[c] := List.getElem?_eq_getElem hc
    have hsup : superOf (classes.map (·.super)) c = classes[c].super := by rw [superOf_map,hget,Option.bind_some]
    simp only [create,hget]
    cases hb : classes[c].super with
    | none =>
      rw [lineage_of_none (hsup.trans hb)]
      cases hctor : classes[c].ctor <;> simp [hget,hctor]
    | some b =>
      have hbc := ho c b (hsup.trans hb)
      rw [lineage_of_sup ho (hsup.trans hb)]
      simp only [ih b (hsup.trans hb) (by omega) (show b < fuel by omega)]
      cases hctor : classes[c].ctor <;> simp [hget,hctor]

variable [DecidableEq K]

theorem assigned_changes (ops : List (ClassOp K F)) (k : K) : assigned (changes ops) k = assigned ops k := by
  rw [assigned,changes,List.foldl_filter,assigned]
  congr 1
  funext own op
  cases op <;> rfl

theorem coherent_nil : Coherent [] (⟨[],[]⟩ : World K F) := by
  refine ⟨rfl,fun c b h => ?_,by simp,fun k c v h => ?_,fun k c _ => rfl⟩
  · simp [superOf,supers] at h
  · simp [own] at h

theorem run_coherent (h : Run classStep (fun tr w op => w.Possible op ∧ w.Timely (tr.map (·.1)) op) ⟨[],[]⟩ tr w) :
    Coherent (tr.map (·.1)) w :=
  h.invariant (fun tr w => Coherent (tr.map (·.1)) w) coherent_nil fun tr w op w' fx ih hg he => by
    rw [List.map_append]
    exact classStep_coherent ih hg.1 hg.2 he

/-- An assignment that is not timely leaves a class whose table has another function. -/
theorem World.untimely {k : K} {v : F} (ht : ¬ w.Timely ops (.define c k v)) :
    ∃ d u, u ≠ v ∧ nearest (superOf (supers ops)) (Function.update (assigned ops k) c (some v)) d = some v ∧
      Class2.index (w.classes.length + 1) (store w.classes c k (some v)) d k = .ok (store w.classes c k (some v),some u) [] := by
  simp only [World.Timely,not_forall] at ht
  obtain ⟨d,hd,hh,u,hu,huv⟩ := ht
  refine ⟨d,u,huv,by rw [nearest_update,if_pos hh],?_⟩
  have hstore : own (store w.classes c k (some v)) k d = some u := by
    rw [own_store,if_neg fun he => hd he.2.1]
    exact hu
  obtain ⟨t,ht,hl⟩ := Option.bind_eq_some_iff.mp hstore
  simp only [Class2.index,ht,hl]
  rfl

instance [DecidableEq F] (w : World K F) (ops : List (ClassOp K F)) : (op : ClassOp K F) → Decidable (w.Timely ops op)
  | .define c k v => decidable_of_iff (∀ d < w.classes.length, d ≠ c →
      holder (superOf (supers ops)) (Function.update (assigned ops k) c (some v)) d = some c → ∀ u ∈ own w.classes k d, u = v)
      ⟨fun h d hd hh u hu => h d (lt_of_own hu) hd hh u hu,fun h d _ hd hh u hu => h d hd hh u hu⟩
  | .class2 _ | .setCtor .. | .new _ | .read .. => .isTrue trivial

private theorem run_reads (ops : List (ClassOp Unit Nat)) (ret : Option Nat)
    (h : runCheck classStep (fun _ w op => w.Possible op)
      (fun _ w => (classStep w (.read 0 ())).holds (fun _ fx => decide (fx = [.found ret])) = true) ops [] ⟨[],[]⟩ = true) :
    ∃ tr w, Run classStep (fun _ w op => w.Possible op) ⟨[],[]⟩ tr w ∧ tr.map (·.1) = ops ∧
      ∃ u, classStep w (.read 0 ()) = .ok u [.found ret] := by
  obtain ⟨tr,w,hr,hops,hp⟩ := Run.of_runCheck h
  obtain ⟨u,fx,he,hfx⟩ := Act.exists_of_holds hp
  exact ⟨tr,w,hr,hops,u,by rw [he,of_decide_eq_true hfx]⟩

end MyProgram.Luaext.Class2
