import MyProgram.Lib.Assoc
import MyProgram.Lib.CString
import MyProgram.Lib.LuaHeap
import Mathlib.Logic.Relation

/-! `tostring` as `luaext.lua` defines it: the text of a table, with a cache of the tables
that were met. -/
namespace MyProgram.Luaext.Dump
open Lib
variable {P : Type}

abbrev Entry (P : Type) := LuaValue P × LuaValue P

/-- Memory in which no table has a metatable. -/
structure PlainHeap (P : Type) where
  heap : LuaHeap P
  wf : heap.WellFormed
  bare : ∀ t ∈ heap, t.metatable = none

/-- What `pairs` meets. -/
def PlainHeap.entries (h : PlainHeap P) (t : Nat) : List (Entry P) := (h.heap[t]?).elim [] LuaTable.entries

/-- The built-in `tostring` for what is no table, and which of these values is `false`. -/
structure Builtins (P : Type) where
  _tostring : P → Bytes
  isFalse : P → Bool

/-- The paths of the tables that were met. -/
abbrev Cache := List (Nat × Bytes)

/-- A reference to a table that `_dump` comes to, with the entry that holds it if it is not the
root. There the table is expanded, or its path is printed. -/
structure Meeting (P : Type) where
  holder : Option (Nat × LuaValue P)
  ref : Nat
  path : Bytes
  expanded : Bool

abbrev Dumper (P : Type) := Nat → Bytes → Bytes → Cache → Option (Bytes × Cache × List (Meeting P))

/-- `next(t,k)` as a condition, where `rest` comes behind `k`. -/
def hasNext (b : Builtins P) (rest : List (Entry P)) : Bool :=
  match rest with
  | [] => false
  | (.table _,_) :: _ => true
  | (.plain p,_) :: _ => !b.isFalse p

/-- The line of an entry whose key has the text `key`. -/
def entryLine (b : Builtins P) (_dump : Dumper P) (t : Nat) (space name : Bytes) (k v : LuaValue P) (rest : List (Entry P))
    (key : Bytes) (cache : Cache) : Option (Bytes × Cache × List (Meeting P)) :=
  match v with
  | .table i => match cache.lookup i with
    | some path => some (ascii " +" ++ key ++ ascii " \x7b" ++ path ++ ascii "\x7d",cache,[⟨some (t,k),i,path,false⟩])
    | none => do
      let new_key := name ++ ascii "." ++ key
      let cache := assign cache i (some new_key)
      let space := space ++ (if hasNext b rest then ascii " |" else ascii " ") ++ List.replicate key.length 32
      let (text,cache,met) ← _dump i space new_key cache
      pure (ascii " +" ++ key ++ text,cache,⟨some (t,k),i,new_key,true⟩ :: met)
  | .plain p => some (ascii " " ++ key ++ ascii " [" ++ b._tostring p ++ ascii "]",cache,[])

/-- The loop over `pairs(t)`. -/
def entryLoop (b : Builtins P) (tostring : LuaValue P → Option (Bytes × List (Meeting P))) (_dump : Dumper P) (t : Nat)
    (space name : Bytes) : List (Entry P) → Cache → Option (List Bytes × Cache × List (Meeting P))
  | [], cache => some ([],cache,[])
  | (k,v) :: rest, cache => do
    let (key,met) ← tostring k
    let (line,cache,met') ← entryLine b _dump t space name k v rest key cache
    let (temp,cache,met'') ← entryLoop b tostring _dump t space name rest cache
    pure (line :: temp,cache,met ++ (met' ++ met''))

/-- `dump`, where `_dump` is its inner function. -/
def dumpWith (_dump : Dumper P) (root : Nat) : Option (Bytes × List (Meeting P)) := do
  let (text,_,met) ← _dump root [] [] [(root,ascii ".")]
  pure (ascii "\n" ++ text,⟨none,root,ascii ".",true⟩ :: met)

def tostringWith (b : Builtins P) (_dump : Dumper P) : LuaValue P → Option (Bytes × List (Meeting P))
  | .table t => dumpWith _dump t
  | .plain p => some (b._tostring p,[])

/-- The inner function of `dump`. Keys are converted by the new `tostring`. Calls go to a depth
of at most `fuel`. -/
def _dump (b : Builtins P) (h : PlainHeap P) : Nat → Dumper P
  | 0, _, _, _, _ => none
  | fuel+1, t, space, name, cache => do
    let (temp,cache,met) ← entryLoop b (tostringWith b (_dump b h fuel)) (_dump b h fuel) t space name (h.entries t) cache
    pure (List.intercalate (ascii "\n" ++ space) temp,cache,met)

def tostring (b : Builtins P) (h : PlainHeap P) (fuel : Nat) (v : LuaValue P) : Option (Bytes × List (Meeting P)) :=
  tostringWith b (_dump b h fuel) v

section
variable {b : Builtins P} {h : PlainHeap P} {d d' : Dumper P} {t n m : Nat} {k v : LuaValue P} {es rest : List (Entry P)} {c : Cache}
  {space name key : Bytes}

/-- Where `d` returns, `d'` returns the same. -/
def Dumper.Below (d d' : Dumper P) : Prop := ∀ t space name c out, d t space name c = some out → d' t space name c = some out

theorem tostringWith_mono (hd : d.Below d') {out : Bytes × List (Meeting P)} (hv : tostringWith b d v = some out) :
    tostringWith b d' v = some out := by
  cases v with
  | plain p => exact hv
  | table t =>
    rw [tostringWith,dumpWith] at hv ⊢
    cases hrun : d t [] [] [(t,ascii ".")] with
    | none =>
      rw [hrun] at hv
      cases hv
    | some r =>
      rw [hrun] at hv
      rw [hd _ _ _ _ _ hrun]
      exact hv

theorem entryLine_mono (hd : d.Below d') {out : Bytes × Cache × List (Meeting P)}
    (hline : entryLine b d t space name k v rest key c = some out) : entryLine b d' t space name k v rest key c = some out := by
  cases v with
  | plain p => exact hline
  | table i =>
    rw [entryLine] at hline ⊢
    cases hc : c.lookup i with
    | some path =>
      rw [hc] at hline
      exact hline
    | none =>
      rw [hc] at hline
      dsimp only at hline ⊢
      obtain ⟨r,hrun,hline⟩ := Option.bind_eq_some_iff.mp hline
      rw [hd _ _ _ _ _ hrun]
      exact hline

theorem entryLoop_mono (hd : d.Below d') {out : List Bytes × Cache × List (Meeting P)}
    (hloop : entryLoop b (tostringWith b d) d t space name es c = some out) :
    entryLoop b (tostringWith b d') d' t space name es c = some out := by
  induction es generalizing c out with
  | nil => exact hloop
  | cons e es ih =>
    rw [entryLoop] at hloop ⊢
    obtain ⟨r,hkey,hloop⟩ := Option.bind_eq_some_iff.mp hloop
    obtain ⟨r',hline,hloop⟩ := Option.bind_eq_some_iff.mp hloop
    obtain ⟨r'',hrest,hloop⟩ := Option.bind_eq_some_iff.mp hloop
    refine Option.bind_eq_some_iff.mpr ⟨r,tostringWith_mono hd hkey,?_⟩
    refine Option.bind_eq_some_iff.mpr ⟨r',entryLine_mono hd hline,?_⟩
    exact Option.bind_eq_some_iff.mpr ⟨r'',ih hrest,hloop⟩

/-- A greater depth changes no result. -/
theorem _dump_mono (hnm : n ≤ m) : (_dump b h n).Below (_dump b h m) := by
  induction n generalizing m with
  | zero =>
    intro t space name c out hrun
    cases hrun
  | succ n ih =>
    intro t space name c out hrun
    obtain ⟨m,rfl⟩ : ∃ l, m = l + 1 := ⟨m - 1,by omega⟩
    rw [_dump] at hrun ⊢
    obtain ⟨r,hloop,hrun⟩ := Option.bind_eq_some_iff.mp hrun
    exact Option.bind_eq_some_iff.mpr ⟨r,entryLoop_mono (ih (by omega)) hloop,hrun⟩

theorem tostring_mono (hnm : n ≤ m) {out : Bytes × List (Meeting P)} (hv : tostring b h n v = some out) : tostring b h m v = some out :=
  tostringWith_mono (_dump_mono hnm) hv

end

/-- An entry of a table reached through values has a table for its value. -/
def ValueEdge (h : PlainHeap P) (i j : Nat) : Prop := ∃ k, (k,.table j) ∈ h.entries i

/-- The tables that a table leads to through values, itself among them. -/
def Reaches (h : PlainHeap P) : Nat → Nat → Prop := Relation.ReflTransGen (ValueEdge h)

/-- A table of those has an entry with a table for its key. -/
def KeyEdge (h : PlainHeap P) (i k : Nat) : Prop := ∃ j v, Reaches h i j ∧ (.table k,v) ∈ h.entries j

/-- What the loop over some entries of `j` does to the cache, and what it meets. `K` says what
the text of a key of a table meets. -/
inductive Steps (h : PlainHeap P) (K : Nat → LuaValue P → List (Meeting P) → Prop) :
    Nat → List (Entry P) → Cache → Cache → List (Meeting P) → Prop where
  | nil {j : Nat} {c : Cache} : Steps h K j [] c c []
  | plain {j : Nat} {k : LuaValue P} {p : P} {es : List (Entry P)} {c c' : Cache} {kmet met : List (Meeting P)} :
      K j k kmet → Steps h K j es c c' met → Steps h K j ((k,.plain p) :: es) c c' (kmet ++ met)
  | known {j i : Nat} {k : LuaValue P} {path : Bytes} {es : List (Entry P)} {c c' : Cache} {kmet met : List (Meeting P)} :
      K j k kmet → c.lookup i = some path → Steps h K j es c c' met →
      Steps h K j ((k,.table i) :: es) c c' (kmet ++ (⟨some (j,k),i,path,false⟩ :: met))
  | fresh {j i : Nat} {k : LuaValue P} {path : Bytes} {es : List (Entry P)} {c c₁ c' : Cache} {kmet met₁ met : List (Meeting P)} :
      K j k kmet → c.lookup i = none → Steps h K i (h.entries i) (assign c i (some path)) c₁ met₁ → Steps h K j es c₁ c' met →
      Steps h K j ((k,.table i) :: es) c c' (kmet ++ (⟨some (j,k),i,path,true⟩ :: (met₁ ++ met)))

/-- What `tostring` meets in a key at a depth below `n`. -/
def KeyMet (b : Builtins P) (h : PlainHeap P) (n : Nat) (k : LuaValue P) (met : List (Meeting P)) : Prop :=
  ∃ m < n, ∃ text, tostring b h m k = some (text,met)

variable {b : Builtins P} {h : PlainHeap P} {K K' : Nat → LuaValue P → List (Meeting P) → Prop} {t i j n m : Nat}
  {k v : LuaValue P} {es : List (Entry P)} {c c₁ c₂ c' : Cache} {met met₁ met₂ : List (Meeting P)} {space name text path : Bytes}

theorem KeyMet.mono (hk : KeyMet b h n k met) (hn : n ≤ m) : KeyMet b h m k met := by
  obtain ⟨l,hl,text,ht⟩ := hk
  exact ⟨l,by omega,text,ht⟩

theorem Steps.mono (hs : Steps h K j es c c' met) (hK : ∀ j k met, K j k met → K' j k met) : Steps h K' j es c c' met := by
  induction hs with
  | nil => exact .nil
  | plain hk _ ih => exact .plain (hK _ _ _ hk) ih
  | known hk hc _ ih => exact .known (hK _ _ _ hk) hc ih
  | fresh hk hc _ _ ih₁ ih => exact .fresh (hK _ _ _ hk) hc ih₁ ih

private theorem entryLoop_steps (hrec : ∀ {t : Nat} {space name : Bytes} {c : Cache} {text : Bytes} {c' : Cache} {met : List (Meeting P)},
      _dump b h n t space name c = some (text,c',met) → Steps h (fun _ => KeyMet b h n) t (h.entries t) c c' met)
    {temp : List Bytes} (hloop : entryLoop b (tostring b h n) (_dump b h n) t space name es c = some (temp,c',met)) :
    Steps h (fun _ => KeyMet b h (n + 1)) t es c c' met := by
  induction es generalizing c temp met with
  | nil =>
    cases hloop
    exact .nil
  | cons e es ih =>
    obtain ⟨k,v⟩ := e
    simp only [entryLoop,Option.bind_eq_bind,Option.bind_eq_some_iff,Prod.exists,Option.pure_def,Option.some.injEq,Prod.mk.injEq] at hloop
    obtain ⟨key,kmet,hkey,line,c₁,met₁,hline,temp',c₂,met₂,hrest,_,rfl,rfl⟩ := hloop
    have hk : KeyMet b h (n + 1) k kmet := ⟨n,by omega,key,hkey⟩
    have hes := ih hrest
    cases v with
    | plain p =>
      cases hline
      exact .plain hk hes
    | table i =>
      rw [entryLine] at hline
      split at hline
      · rename_i path hc
        cases hline
        exact .known hk hc hes
      · rename_i hc
        simp only [Option.bind_eq_bind,Option.bind_eq_some_iff,Prod.exists,Option.pure_def,Option.some.injEq,Prod.mk.injEq] at hline
        obtain ⟨text,c₃,met₃,hdump,_,rfl,rfl⟩ := hline
        exact .fresh hk hc ((hrec hdump).mono fun _ _ _ hk => hk.mono (by omega)) hes

theorem _dump_steps (hd : _dump b h n t space name c = some (text,c',met)) :
    Steps h (fun _ => KeyMet b h n) t (h.entries t) c c' met := by
  induction n generalizing t space name c text c' met with
  | zero => cases hd
  | succ n ih =>
    simp only [_dump,Option.bind_eq_bind,Option.bind_eq_some_iff,Prod.exists,Option.pure_def,Option.some.injEq,Prod.mk.injEq] at hd
    obtain ⟨temp,c₁,met₁,hloop,_,rfl,rfl⟩ := hd
    exact entryLoop_steps ih hloop

/-- The text of a table expands the root, and goes through its entries. -/
theorem tostring_steps (ht : tostring b h n (.table t) = some (text,met)) :
    ∃ c' met', met = ⟨none,t,ascii ".",true⟩ :: met' ∧ Steps h (fun _ => KeyMet b h n) t (h.entries t) [(t,ascii ".")] c' met' := by
  simp only [tostring,tostringWith,dumpWith,Option.bind_eq_bind,Option.bind_eq_some_iff,Prod.exists,Option.pure_def,
    Option.some.injEq,Prod.mk.injEq] at ht
  obtain ⟨_,c',met',hd,_,rfl⟩ := ht
  exact ⟨c',met',rfl,_dump_steps hd⟩

/-- How often a table is expanded. -/
def expansions (i : Nat) (met : List (Meeting P)) : Nat := met.countP fun m => m.ref = i && m.expanded

/-- Whether a table is new in the cache. -/
def new (c c' : Cache) (i : Nat) : Nat := if c.lookup i = none ∧ c'.lookup i ≠ none then 1 else 0

/-- The cache keeps its paths, and each table that is new in it is expanded. -/
structure Grown (c c' : Cache) (met : List (Meeting P)) : Prop where
  keep : ∀ i path, c.lookup i = some path → c'.lookup i = some path
  new : ∀ i, new c c' i ≤ expansions i met

@[simp] theorem expansions_append (i : Nat) (met₁ met₂ : List (Meeting P)) :
    expansions i (met₁ ++ met₂) = expansions i met₁ + expansions i met₂ := List.countP_append

theorem expansions_cons_expanded (i j : Nat) (holder : Option (Nat × LuaValue P)) (path : Bytes) (met : List (Meeting P)) :
    expansions i (⟨holder,j,path,true⟩ :: met) = expansions i met + if i = j then 1 else 0 := by
  by_cases hij : i = j
  · rw [if_pos hij,expansions,List.countP_cons_of_pos (by simp [hij])]
    rfl
  · rw [if_neg hij,expansions,List.countP_cons_of_neg (by simp [Ne.symm hij])]
    rfl

@[simp] theorem new_self (c : Cache) (i : Nat) : new c c i = 0 := if_neg fun h => h.2 h.1

theorem new_eq_one (hi : c.lookup i = none) (hi' : c'.lookup i ≠ none) : new c c' i = 1 := if_pos ⟨hi,hi'⟩

/-- A table is new in one of two runs. -/
theorem new_le (c c₁ c' : Cache) (i : Nat) : new c c' i ≤ new c c₁ i + new c₁ c' i := by
  by_cases h : c.lookup i = none ∧ c'.lookup i ≠ none
  · rw [new_eq_one h.1 h.2]
    by_cases h₁ : c₁.lookup i = none
    · rw [new_eq_one h₁ h.2]
      omega
    · rw [new_eq_one h.1 h₁]
      omega
  · rw [new,if_neg h]
    omega

namespace Grown

theorem refl (c : Cache) (met : List (Meeting P)) : Grown c c met := ⟨fun _ _ hc => hc,fun i => by simp⟩

theorem trans (hg : Grown c c₁ met₁) (hg' : Grown c₁ c' met₂) : Grown c c' (met₁ ++ met₂) where
  keep i path hc := hg'.keep i path (hg.keep i path hc)
  new i := by
    have hle := new_le c c₁ c' i
    have h₁ := hg.new i
    have h₂ := hg'.new i
    rw [expansions_append]
    omega

theorem expand (hc : c.lookup i = none) (holder : Option (Nat × LuaValue P)) (path : Bytes) :
    Grown c (assign c i (some path)) [⟨holder,i,path,true⟩] where
  keep a p ha := by
    rw [lookup_assign,if_neg]
    · exact ha
    · rintro rfl
      rw [hc] at ha
      cases ha
  new a := by
    by_cases ha : a = i
    · rw [expansions_cons_expanded,if_pos ha,Dump.new]
      split <;> omega
    · rw [Dump.new,lookup_assign,if_neg ha,if_neg fun hn => hn.2 hn.1]
      exact Nat.zero_le _

theorem ne_none (hg : Grown c c' met) (hi : c.lookup i ≠ none) : c'.lookup i ≠ none := by
  obtain ⟨path,hp⟩ := Option.ne_none_iff_exists'.mp hi
  rw [hg.keep i path hp]
  exact Option.some_ne_none path

end Grown

theorem Steps.grown (hs : Steps h K j es c c' met) : Grown c c' met := by
  induction hs with
  | nil => exact .refl _ _
  | plain _ _ ih => exact (Grown.refl _ _).trans ih
  | known _ _ _ ih => exact (Grown.refl _ _).trans ((Grown.refl _ [_]).trans ih)
  | fresh _ hc _ _ ih₁ ih => exact (Grown.refl _ _).trans ((Grown.expand hc _ _).trans (ih₁.trans ih))

/-- An entry of `j` was gone through: its value is in the cache and was met there, and besides
what is new in the cache, what its key expands is expanded. -/
structure Done (K : Nat → LuaValue P → List (Meeting P) → Prop) (j : Nat) (e : Entry P) (c c' : Cache) (met : List (Meeting P)) :
    Prop where
  value : ∀ i, e.2 = .table i → c'.lookup i ≠ none ∧ ∃ m ∈ met, m.holder = some (j,e.1) ∧ m.ref = i
  key : ∃ kmet, K j e.1 kmet ∧ ∀ i, expansions i kmet + new c c' i ≤ expansions i met

variable {e : Entry P}

theorem Done.before (hd : Done K j e c₁ c' met₂) (hg : Grown c c₁ met₁) : Done K j e c c' (met₁ ++ met₂) where
  value i hi := by
    obtain ⟨hc,m,hm,hm'⟩ := hd.value i hi
    exact ⟨hc,m,List.mem_append_right _ hm,hm'⟩
  key := by
    obtain ⟨kmet,hk,hle⟩ := hd.key
    refine ⟨kmet,hk,fun i => ?_⟩
    have h₁ := hg.new i
    have h₂ := hle i
    have h₃ := new_le c c₁ c' i
    rw [expansions_append]
    omega

theorem Done.behind (hd : Done K j e c c₁ met₁) (hg : Grown c₁ c' met₂) : Done K j e c c' (met₁ ++ met₂) where
  value i hi := by
    obtain ⟨hc,m,hm,hm'⟩ := hd.value i hi
    exact ⟨hg.ne_none hc,m,List.mem_append_left _ hm,hm'⟩
  key := by
    obtain ⟨kmet,hk,hle⟩ := hd.key
    refine ⟨kmet,hk,fun i => ?_⟩
    have h₁ := hg.new i
    have h₂ := hle i
    have h₃ := new_le c c₁ c' i
    rw [expansions_append]
    omega

theorem Done.head {kmet : List (Meeting P)} (hk : K j e.1 kmet) (hg : Grown c c' met)
    (hv : ∀ i, e.2 = .table i → c'.lookup i ≠ none ∧ ∃ m ∈ met, m.holder = some (j,e.1) ∧ m.ref = i) :
    Done K j e c c' (kmet ++ met) where
  value i hi := by
    obtain ⟨hc,m,hm,hm'⟩ := hv i hi
    exact ⟨hc,m,List.mem_append_right _ hm,hm'⟩
  key := by
    refine ⟨kmet,hk,fun i => ?_⟩
    have h₁ := hg.new i
    rw [expansions_append]
    omega

/-- The entries of the loop are gone through, and those of every table that is new in the
cache. -/
theorem Steps.done (hs : Steps h K j es c c' met) :
    (∀ e ∈ es, Done K j e c c' met) ∧ ∀ i, c.lookup i = none → c'.lookup i ≠ none → ∀ e ∈ h.entries i, Done K i e c c' met := by
  induction hs with
  | nil => exact ⟨by simp,fun i hn hi => absurd hn hi⟩
  | plain hk hs ih =>
    refine ⟨List.forall_mem_cons.mpr ⟨Done.head hk hs.grown fun i hi => ?_,fun e he => ?_⟩,fun i hn hi e he => ?_⟩
    · cases hi
    · exact (ih.1 e he).before (.refl _ _)
    · exact (ih.2 i hn hi e he).before (.refl _ _)
  | @known j i k path es c c' kmet met hk hc hs ih =>
    have hg : Grown c c' (⟨some (j,k),i,path,false⟩ :: met) := (Grown.refl c [_]).trans hs.grown
    have hi : c'.lookup i ≠ none := by
      rw [hs.grown.keep i path hc]
      exact Option.some_ne_none path
    refine ⟨List.forall_mem_cons.mpr ⟨Done.head hk hg fun a ha => ?_,fun e he => ?_⟩,fun a hn ha e he => ?_⟩
    · cases ha
      exact ⟨hi,_,List.mem_cons_self,rfl,rfl⟩
    · exact ((ih.1 e he).before (.refl c [_])).before (.refl _ _)
    · exact ((ih.2 a hn ha e he).before (.refl c [_])).before (.refl _ _)
  | @fresh j i k path es c c₁ c' kmet met₁ met hk hc hs₁ hs ih₁ ih =>
    have hnew : Grown c (assign c i (some path)) [⟨some (j,k),i,path,true⟩] := .expand hc _ _
    have hsub : Grown c c₁ (⟨some (j,k),i,path,true⟩ :: met₁) := hnew.trans hs₁.grown
    have hg : Grown c c' (⟨some (j,k),i,path,true⟩ :: (met₁ ++ met)) := hnew.trans (hs₁.grown.trans hs.grown)
    have hself : (assign c i (some path)).lookup i ≠ none := by
      rw [lookup_assign,if_pos rfl]
      exact Option.some_ne_none path
    have hi : c'.lookup i ≠ none := hs.grown.ne_none (hs₁.grown.ne_none hself)
    refine ⟨List.forall_mem_cons.mpr ⟨Done.head hk hg fun a ha => ?_,fun e he => ?_⟩,fun a hn ha e he => ?_⟩
    · cases ha
      exact ⟨hi,_,List.mem_cons_self,rfl,rfl⟩
    · exact ((ih.1 e he).before hsub).before (.refl _ _)
    · -- A new table is `i` itself, or new below `i`, or new behind it.
      by_cases hc₁ : c₁.lookup a = none
      · exact ((ih.2 a hc₁ ha e he).before hsub).before (.refl _ _)
      · have hdone : Done K a e (assign c i (some path)) c₁ met₁ := by
          by_cases hai : a = i
          · rw [hai] at he ⊢
            exact ih₁.1 e he
          · refine ih₁.2 a ?_ hc₁ e he
            rw [lookup_assign,if_neg hai]
            exact hn
        exact ((hdone.behind hs.grown).before hnew).before (.refl _ _)

end MyProgram.Luaext.Dump
