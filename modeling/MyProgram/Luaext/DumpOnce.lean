import Mathlib.Data.Finset.Card
import Mathlib.Data.Finset.Range
import MyProgram.Luaext.Dump

/-! When `tostring` returns for a table, and when it then expands each table once. -/
namespace MyProgram.Luaext.Dump
open Lib Relation
variable {P : Type} {b : Builtins P} {h : PlainHeap P} {K : Nat → LuaValue P → List (Meeting P) → Prop} {t i j n : Nat}
  {k : LuaValue P} {es : List (Entry P)} {c c' : Cache} {met met₁ met₂ : List (Meeting P)} {text path : Bytes}

/-- A table that was met before is met again under its path, and is not expanded. -/
def Repeats (met : List (Meeting P)) (i : Nat) (path : Bytes) : Prop := ∀ m ∈ met, m.ref = i → m.expanded = false ∧ m.path = path

/-- A table is expanded where it is met first, and after that its path from there is printed. -/
def FirstMet (met : List (Meeting P)) (i : Nat) (path : Bytes) : Prop := ∃ before holder rest,
  met = before ++ ⟨holder,i,path,true⟩ :: rest ∧ (∀ m ∈ before, m.ref ≠ i) ∧ Repeats rest i path

/-- What is printed for a table: the conversion returns; each table that is reached through
values is expanded once, where it is met first, and each entry that holds it is met. -/
def Prints (b : Builtins P) (h : PlainHeap P) (t : Nat) : Prop := ∃ text met,
  (∃ depth, ∀ fuel ≥ depth, tostring b h fuel (.table t) = some (text,met)) ∧
  ∀ i, Reaches h t i → (∃ path, FirstMet met i path) ∧
    ∀ j k, Reaches h t j → (k,.table i) ∈ h.entries j → ∃ m ∈ met, m.holder = some (j,k) ∧ m.ref = i

/-- No table that is met for a key leads back to itself by keys, and what is reached from it
through values is not reached from the root through values. -/
def KeysApart (h : PlainHeap P) (t : Nat) : Prop := ∀ k, TransGen (KeyEdge h) t k →
  ¬ TransGen (KeyEdge h) k k ∧ ∀ i, Reaches h t i → ¬ Reaches h k i

theorem Repeats.append (h₁ : Repeats met₁ i path) (h₂ : Repeats met₂ i path) : Repeats (met₁ ++ met₂) i path :=
  List.forall_mem_append.mpr ⟨h₁,h₂⟩

theorem repeats_of_unmet (hm : ∀ m ∈ met, m.ref ≠ i) : Repeats met i path := fun m hmem hi => absurd hi (hm m hmem)

theorem FirstMet.before (hm : ∀ m ∈ met₁, m.ref ≠ i) (hf : FirstMet met₂ i path) : FirstMet (met₁ ++ met₂) i path := by
  obtain ⟨before,holder,rest,rfl,hbefore,hrest⟩ := hf
  exact ⟨met₁ ++ before,holder,rest,(List.append_assoc _ _ _).symm,List.forall_mem_append.mpr ⟨hm,hbefore⟩,hrest⟩

theorem FirstMet.cons {m : Meeting P} (hm : m.ref ≠ i) (hf : FirstMet met i path) : FirstMet (m :: met) i path :=
  FirstMet.before (List.forall_mem_singleton.mpr hm) hf

theorem FirstMet.behind (hf : FirstMet met₁ i path) (hr : Repeats met₂ i path) : FirstMet (met₁ ++ met₂) i path := by
  obtain ⟨before,holder,rest,rfl,hbefore,hrest⟩ := hf
  exact ⟨before,holder,rest ++ met₂,by simp,hbefore,hrest.append hr⟩

theorem FirstMet.expansions_eq (hf : FirstMet met i path) : expansions i met = 1 := by
  obtain ⟨before,holder,rest,rfl,hbefore,hrest⟩ := hf
  have h₁ : expansions i before = 0 := List.countP_eq_zero.mpr fun m hm => by simp [hbefore m hm]
  have h₂ : expansions i rest = 0 := List.countP_eq_zero.mpr fun m hm => by
    by_cases hi : m.ref = i
    · simp [(hrest m hm hi).1]
    · simp [hi]
  rw [expansions_append,h₁,expansions_cons_expanded,if_pos rfl,h₂]

/-- The keys of the run are keys of tables that are reached. -/
theorem Steps.within (hs : Steps h K j es c c' met) (hes : ∀ e ∈ es, e ∈ h.entries j) (hj : Reaches h t j) :
    Steps h (fun j k met => K j k met ∧ Reaches h t j ∧ ∃ v, (k,v) ∈ h.entries j) j es c c' met := by
  induction hs with
  | nil => exact .nil
  | plain hk _ ih =>
    obtain ⟨he,hes⟩ := List.forall_mem_cons.mp hes
    exact .plain ⟨hk,hj,_,he⟩ (ih hes hj)
  | known hk hc _ ih =>
    obtain ⟨he,hes⟩ := List.forall_mem_cons.mp hes
    exact .known ⟨hk,hj,_,he⟩ hc (ih hes hj)
  | fresh hk hc _ _ ih₁ ih =>
    obtain ⟨he,hes⟩ := List.forall_mem_cons.mp hes
    exact .fresh ⟨hk,hj,_,he⟩ hc (ih₁ (fun e he => he) (hj.tail ⟨_,he⟩)) (ih hes hj)

/-- What a run meets is reached through values, unless a key meets it. -/
theorem Steps.mem (hs : Steps h K j es c c' met) (hes : ∀ e ∈ es, e ∈ h.entries j) (hj : Reaches h t j) (m : Meeting P) (hm : m ∈ met) :
    Reaches h t m.ref ∨ ∃ j k kmet, K j k kmet ∧ m ∈ kmet := by
  induction hs with
  | nil => cases hm
  | plain hk _ ih =>
    obtain ⟨_,hes⟩ := List.forall_mem_cons.mp hes
    rcases List.mem_append.mp hm with hm | hm
    · exact Or.inr ⟨_,_,_,hk,hm⟩
    · exact ih hes hj hm
  | known hk hc _ ih =>
    obtain ⟨he,hes⟩ := List.forall_mem_cons.mp hes
    rcases List.mem_append.mp hm with hm | hm
    · exact Or.inr ⟨_,_,_,hk,hm⟩
    · rcases List.mem_cons.mp hm with rfl | hm
      · exact Or.inl (hj.tail ⟨_,he⟩)
      · exact ih hes hj hm
  | fresh hk hc _ _ ih₁ ih =>
    obtain ⟨he,hes⟩ := List.forall_mem_cons.mp hes
    rcases List.mem_append.mp hm with hm | hm
    · exact Or.inr ⟨_,_,_,hk,hm⟩
    · rcases List.mem_cons.mp hm with rfl | hm
      · exact Or.inl (hj.tail ⟨_,he⟩)
      · rcases List.mem_append.mp hm with hm | hm
        · exact ih₁ (fun e he => he) (hj.tail ⟨_,he⟩) hm
        · exact ih hes hj hm

/-- No key of the run meets the table. -/
def Silent (K : Nat → LuaValue P → List (Meeting P) → Prop) (i : Nat) : Prop := ∀ j k kmet, K j k kmet → ∀ m ∈ kmet, m.ref ≠ i

theorem Steps.repeats (hK : Silent K i) (hs : Steps h K j es c c' met) (hi : c.lookup i = some path) : Repeats met i path := by
  induction hs with
  | nil => exact repeats_of_unmet (by simp)
  | plain hk _ ih => exact (repeats_of_unmet (hK _ _ _ hk)).append (ih hi)
  | @known j a k path' es c c' kmet met hk hc _ ih =>
    refine (repeats_of_unmet (hK _ _ _ hk)).append (List.forall_mem_cons.mpr ⟨fun ha => ?_,ih hi⟩)
    have ha : a = i := ha
    rw [ha,hi] at hc
    exact ⟨rfl,(Option.some.inj hc).symm⟩
  | @fresh j a k path' es c c₁ c' kmet met₁ met hk hc hs₁ _ ih₁ ih =>
    have ha : a ≠ i := by
      rintro rfl
      rw [hi] at hc
      cases hc
    have hi' : (assign c a (some path')).lookup i = some path := by
      rw [lookup_assign,if_neg ha.symm]
      exact hi
    refine (repeats_of_unmet (hK _ _ _ hk)).append (List.forall_mem_cons.mpr ⟨fun he => absurd he ha,?_⟩)
    exact Repeats.append (ih₁ hi') (ih (hs₁.grown.keep i path hi'))

theorem Steps.unmet (hK : Silent K i) (hs : Steps h K j es c c' met) (hi : c'.lookup i = none) : ∀ m ∈ met, m.ref ≠ i := by
  have hold {c c' : Cache} {met : List (Meeting P)} (hg : Grown c c' met) (hi : c'.lookup i = none) : c.lookup i = none := by
    by_contra hc
    exact hg.ne_none hc hi
  induction hs with
  | nil => simp
  | plain hk _ ih => exact List.forall_mem_append.mpr ⟨hK _ _ _ hk,ih hi⟩
  | known hk hc hs ih =>
    refine List.forall_mem_append.mpr ⟨hK _ _ _ hk,List.forall_mem_cons.mpr ⟨?_,ih hi⟩⟩
    rintro rfl
    rw [hold hs.grown hi] at hc
    cases hc
  | fresh hk hc hs₁ hs ih₁ ih =>
    have hi₁ := hold hs.grown hi
    refine List.forall_mem_append.mpr ⟨hK _ _ _ hk,List.forall_mem_cons.mpr ⟨?_,List.forall_mem_append.mpr ⟨ih₁ hi₁,ih hi⟩⟩⟩
    rintro rfl
    have hn := hold hs₁.grown hi₁
    rw [lookup_assign,if_pos rfl] at hn
    cases hn

theorem Steps.firstMet (hK : Silent K i) (hs : Steps h K j es c c' met) (hn : c.lookup i = none) (hi : c'.lookup i = some path) :
    FirstMet met i path := by
  induction hs with
  | nil =>
    rw [hn] at hi
    cases hi
  | plain hk _ ih => exact (ih hn hi).before (hK _ _ _ hk)
  | @known j a k path' es c c' kmet met hk hc _ ih =>
    refine FirstMet.before (hK _ _ _ hk) (FirstMet.cons ?_ (ih hn hi))
    rintro rfl
    rw [hn] at hc
    cases hc
  | @fresh j a k path' es c c₁ c' kmet met₁ met hk hc hs₁ hs ih₁ ih =>
    refine FirstMet.before (hK _ _ _ hk) ?_
    by_cases ha : i = a
    · have hself : (assign c a (some path')).lookup i = some path' := by
        rw [lookup_assign,if_pos ha]
      have hc₁ := hs₁.grown.keep i path' hself
      obtain rfl : path' = path := Option.some.inj ((hs.grown.keep i path' hc₁).symm.trans hi)
      obtain rfl : i = a := ha
      exact ⟨[],some (j,k),met₁ ++ met,rfl,by simp,(hs₁.repeats hK hself).append (hs.repeats hK hc₁)⟩
    · have hn₁ : (assign c a (some path')).lookup i = none := by
        rw [lookup_assign,if_neg ha]
        exact hn
      refine FirstMet.cons (fun he => ha he.symm) ?_
      cases hc₁ : c₁.lookup i with
      | none => exact (ih hc₁ hi).before (hs₁.unmet hK hc₁)
      | some p =>
        have hp : p = path := Option.some.inj ((hs.grown.keep i p hc₁).symm.trans hi)
        rw [hp] at hc₁
        exact (ih₁ hn₁ hc₁).behind (hs.repeats hK hc₁)

theorem lookup_root (t : Nat) (path : Bytes) : List.lookup t [(t,path)] = some path := by
  rw [lookup_cons_ite,if_pos rfl]

theorem lookup_root_none (hit : i ≠ t) : List.lookup i [(t,path)] = none := by
  rw [lookup_cons_ite,if_neg hit]
  rfl

/-- When the conversion of a table returns, the entries of every table that is reached are gone
through. -/
theorem reached_done (ht : tostring b h n (.table t) = some (text,met)) : ∃ c' met', met = ⟨none,t,ascii ".",true⟩ :: met' ∧
    Steps h (fun _ => KeyMet b h n) t (h.entries t) [(t,ascii ".")] c' met' ∧
    ∀ i, Reaches h t i → c'.lookup i ≠ none ∧ ∀ e ∈ h.entries i, Done (fun _ => KeyMet b h n) i e [(t,ascii ".")] c' met' := by
  obtain ⟨c',met',hmet,hs⟩ := tostring_steps ht
  refine ⟨c',met',hmet,hs,fun i hi => ?_⟩
  have hentries {a : Nat} (ha : c'.lookup a ≠ none) : ∀ e ∈ h.entries a, Done (fun _ => KeyMet b h n) a e [(t,ascii ".")] c' met' := by
    by_cases hat : a = t
    · rw [hat]
      exact hs.done.1
    · exact hs.done.2 a (lookup_root_none hat) ha
  have hmem : c'.lookup i ≠ none := by
    induction hi with
    | refl => exact hs.grown.ne_none (by rw [lookup_root]; exact Option.some_ne_none _)
    | tail _ hedge ih =>
      obtain ⟨k,he⟩ := hedge
      exact ((hentries ih _ he).value _ rfl).1
  exact ⟨hmem,hentries hmem⟩

/-- The text of a table contains that of each of its keys, and besides it expands what the table
reaches. -/
theorem key_run (ht : tostring b h n (.table t) = some (text,met)) {k : Nat} (hk : KeyEdge h t k) :
    ∃ m < n, ∃ text' kmet, tostring b h m (.table k) = some (text',kmet) ∧
      ∀ i, expansions i kmet ≤ expansions i met ∧ (Reaches h t i → expansions i kmet + 1 ≤ expansions i met) := by
  obtain ⟨c',met',rfl,_,hdone⟩ := reached_done ht
  obtain ⟨j,v,hj,he⟩ := hk
  obtain ⟨kmet,⟨m,hm,text',hrun⟩,hle⟩ := ((hdone j hj).2 _ he).key
  refine ⟨m,hm,text',kmet,hrun,fun i => ?_⟩
  have hi := hle i
  rw [expansions_cons_expanded]
  refine ⟨by omega,fun hr => ?_⟩
  by_cases hit : i = t
  · rw [if_pos hit]
    omega
  · have hnew : new [(t,ascii ".")] c' i = 1 := new_eq_one (lookup_root_none hit) (hdone i hr).1
    omega

theorem reached_expanded (ht : tostring b h n (.table t) = some (text,met)) (hi : Reaches h t i) : 1 ≤ expansions i met := by
  obtain ⟨c',met',rfl,hs,hdone⟩ := reached_done ht
  rw [expansions_cons_expanded]
  by_cases hit : i = t
  · rw [if_pos hit]
    omega
  · have hnew : new [(t,ascii ".")] c' i = 1 := new_eq_one (lookup_root_none hit) (hdone i hi).1
    have hle := hs.grown.new i
    omega

theorem keys_run (ht : tostring b h n (.table t) = some (text,met)) {k : Nat} (hk : TransGen (KeyEdge h) t k) :
    ∃ m < n, ∃ text' kmet, tostring b h m (.table k) = some (text',kmet) ∧
      ∀ i, Reaches h t i → expansions i kmet + 1 ≤ expansions i met := by
  induction hk with
  | single hk =>
    obtain ⟨m,hm,text',kmet,hrun,hle⟩ := key_run ht hk
    exact ⟨m,hm,text',kmet,hrun,fun i => (hle i).2⟩
  | tail _ hk ih =>
    obtain ⟨m,hm,text',kmet,hrun,hle⟩ := ih
    obtain ⟨m',hm',text'',kmet',hrun',hle'⟩ := key_run hrun hk
    refine ⟨m',hm'.trans hm,text'',kmet',hrun',fun i hi => ?_⟩
    have h₁ := hle i hi
    have h₂ := (hle' i).1
    omega

/-- The text of a key is found at a smaller depth, so that none is found for a table that leads
back to itself. -/
theorem no_key_cycle (ht : tostring b h n (.table t) = some (text,met)) : ¬ TransGen (KeyEdge h) t t := by
  induction n using Nat.strong_induction_on generalizing text met with
  | _ n ih =>
    intro hcyc
    obtain ⟨m,hm,text',kmet,hrun,_⟩ := keys_run ht hcyc
    exact ih m hm hrun hcyc

theorem keysApart_of_prints (hp : Prints b h t) : KeysApart h t := by
  obtain ⟨text,met,⟨n,ht⟩,hprint⟩ := hp
  have ht := ht n le_rfl
  intro k hk
  obtain ⟨m,_,text',kmet,hrun,hle⟩ := keys_run ht hk
  refine ⟨no_key_cycle hrun,fun i hi hki => ?_⟩
  obtain ⟨⟨path,hfirst⟩,_⟩ := hprint i hi
  have h₁ := hfirst.expansions_eq
  have h₂ := reached_expanded hrun hki
  have h₃ := hle i hi
  omega

end MyProgram.Luaext.Dump
