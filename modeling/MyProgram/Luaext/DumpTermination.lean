import MyProgram.Luaext.DumpOnce

/-! When `tostring` returns for a table: it does where no key leads back to itself. -/
namespace MyProgram.Luaext.Dump
open Lib Relation
variable {P : Type} {b : Builtins P} {h : PlainHeap P} {t i j n N : Nat} {k : LuaValue P} {es : List (Entry P)} {c c' : Cache}
  {met : List (Meeting P)} {space name text : Bytes}

theorem ref_lt {e : Entry P} (he : e ∈ h.entries j) (hi : LuaHeap.Holds e i) : i < h.heap.length := by
  rw [PlainHeap.entries] at he
  cases ht : h.heap[j]? with
  | none =>
    rw [ht] at he
    cases he
  | some tbl =>
    rw [ht] at he
    exact h.wf.refs tbl (List.mem_of_getElem? ht) e he i hi

/-- The entries of a table that is reached are converted, if the keys are, and the tables that are
not yet in the cache. -/
private theorem entryLoop_returns (n r : Nat) (hkeys : ∀ k, KeyEdge h t k → ∃ out, tostring b h n (.table k) = some out)
    (hrec : ∀ (i : Nat) (space name : Bytes) (c : Cache), Reaches h t i → unmapped h.heap.length c < r →
      ∃ out, _dump b h n i space name c = some out)
    (hj : Reaches h t j) (hes : ∀ e ∈ es, e ∈ h.entries j) (space name : Bytes) (c : Cache) (hc : unmapped h.heap.length c ≤ r) :
    ∃ out, entryLoop b (tostring b h n) (_dump b h n) j space name es c = some out := by
  induction es generalizing c with
  | nil => exact ⟨_,rfl⟩
  | cons e es ih =>
    obtain ⟨k,v⟩ := e
    obtain ⟨he,hes⟩ := List.forall_mem_cons.mp hes
    obtain ⟨⟨key,kmet⟩,hkey⟩ : ∃ out, tostring b h n k = some out := by
      cases k with
      | plain p => exact ⟨_,rfl⟩
      | table a => exact hkeys a ⟨j,v,hj,he⟩
    obtain ⟨⟨line,c₁,met₁⟩,hline,hc₁⟩ : ∃ out, entryLine b (_dump b h n) j space name k v es key c = some out ∧
        unmapped h.heap.length out.2.1 ≤ r := by
      cases v with
      | plain p => exact ⟨_,rfl,hc⟩
      | table i =>
        rw [entryLine]
        cases hi : c.lookup i with
        | some path => exact ⟨_,rfl,hc⟩
        | none =>
          have hlt := unmapped_assign (v := name ++ ascii "." ++ key) (ref_lt he (Or.inr rfl)) hi
          obtain ⟨⟨text,c₁,met₁⟩,hrun⟩ := hrec i
            (space ++ (if hasNext b es then ascii " |" else ascii " ") ++ List.replicate key.length 32)
            (name ++ ascii "." ++ key) (assign c i (some (name ++ ascii "." ++ key))) (hj.tail ⟨k,he⟩) (by omega)
          have hle : unmapped h.heap.length c₁ ≤ _ := unmapped_le fun i hi => (_dump_steps hrun).grown.ne_none hi
          dsimp only
          rw [hrun]
          exact ⟨_,rfl,hle.trans (by omega)⟩
    obtain ⟨⟨temp,c₂,met₂⟩,hrest⟩ := ih hes c₁ hc₁
    rw [entryLoop,hkey]
    simp only [Option.bind_eq_bind,Option.bind_some,hline,hrest]
    exact ⟨_,rfl⟩

/-- If the keys are converted at a depth, the table is at a depth that is greater by the number of
tables. -/
theorem _dump_returns (hkeys : ∀ k, KeyEdge h t k → ∀ n ≥ N, ∃ out, tostring b h n (.table k) = some out) (r : Nat)
    (hj : Reaches h t j) (space name : Bytes) (c : Cache) (hc : unmapped h.heap.length c ≤ r) (hn : N + r + 1 ≤ n) :
    ∃ out, _dump b h n j space name c = some out := by
  induction r using Nat.strong_induction_on generalizing j space name c n with
  | _ r ih =>
    obtain ⟨n,rfl⟩ : ∃ m, n = m + 1 := ⟨n - 1,by omega⟩
    obtain ⟨⟨temp,c',met⟩,hloop⟩ := entryLoop_returns n r (fun k hk => hkeys k hk n (by omega))
      (fun i space name c hi hlt => ih _ hlt hi space name c le_rfl (by omega)) hj (fun e he => he) space name c hc
    have htail : entryLoop b (tostringWith b (_dump b h n)) (_dump b h n) j space name (h.entries j) c = _ := hloop
    rw [_dump,htail]
    exact ⟨_,rfl⟩

open Classical in
/-- The tables that are met for a key. -/
noncomputable def keysFrom (h : PlainHeap P) (t : Nat) : Finset Nat :=
  (Finset.range h.heap.length).filter fun k => TransGen (KeyEdge h) t k

theorem mem_keysFrom {k : Nat} : k ∈ keysFrom h t ↔ TransGen (KeyEdge h) t k := by
  simp only [keysFrom,Finset.mem_filter,Finset.mem_range]
  refine ⟨And.right,fun hk => ⟨?_,hk⟩⟩
  obtain ⟨_,_,j,v,_,he⟩ := TransGen.tail'_iff.mp hk
  exact ref_lt he (Or.inl rfl)

/-- Where no key leads back to itself, the conversion returns. -/
theorem tostring_returns (hcyc : ∀ k, TransGen (KeyEdge h) t k → ¬ TransGen (KeyEdge h) k k) :
    ∃ N, ∀ n ≥ N, ∃ out, tostring b h n (.table t) = some out := by
  induction hs : (keysFrom h t).card using Nat.strong_induction_on generalizing t with
  | _ s ih =>
    have hkeys : ∀ k, KeyEdge h t k → ∃ N, ∀ n ≥ N, ∃ out, tostring b h n (.table k) = some out := by
      intro k hk
      have hsub : keysFrom h k ⊆ keysFrom h t := fun a ha => mem_keysFrom.mpr (TransGen.head hk (mem_keysFrom.mp ha))
      have hlt : (keysFrom h k).card < s := by
        rw [← hs]
        refine Finset.card_lt_card ((Finset.ssubset_iff_of_subset hsub).mpr ⟨k,mem_keysFrom.mpr (.single hk),fun hm => ?_⟩)
        exact hcyc k (.single hk) (mem_keysFrom.mp hm)
      exact ih _ hlt (fun a ha => hcyc a (TransGen.head hk ha)) rfl
    choose! N hN using hkeys
    have hbound : ∀ k, KeyEdge h t k → ∀ n ≥ (keysFrom h t).sup N, ∃ out, tostring b h n (.table k) = some out := by
      intro k hk n hn
      have hle : N k ≤ (keysFrom h t).sup N := Finset.le_sup (mem_keysFrom.mpr (.single hk))
      exact hN k hk n (hle.trans hn)
    refine ⟨(keysFrom h t).sup N + unmapped h.heap.length [(t,ascii ".")] + 1,fun n hn => ?_⟩
    obtain ⟨⟨text,c,met⟩,hrun⟩ := _dump_returns hbound _ .refl [] [] [(t,ascii ".")] le_rfl hn
    rw [tostring,tostringWith,dumpWith,hrun]
    exact ⟨_,rfl⟩

/-- What is met is reached through values from the table, or from one that is met for a key. -/
theorem met_reached (ht : tostring b h n (.table t) = some (text,met)) (m : Meeting P) (hm : m ∈ met) :
    ∃ k, ReflTransGen (KeyEdge h) t k ∧ Reaches h k m.ref := by
  induction n using Nat.strong_induction_on generalizing t text met with
  | _ n ih =>
    obtain ⟨c',met',rfl,hs⟩ := tostring_steps ht
    rcases List.mem_cons.mp hm with rfl | hm
    · exact ⟨t,.refl,.refl⟩
    · rcases (hs.within (fun e he => he) .refl).mem (fun e he => he) .refl m hm with hr | ⟨j,key,kmet,⟨⟨l,hl,text',hrun⟩,hj,v,he⟩,hm⟩
      · exact ⟨t,.refl,hr⟩
      · cases key with
        | plain p =>
          cases hrun
          cases hm
        | table k =>
          obtain ⟨k',hk',hr⟩ := ih l hl hrun hm
          exact ⟨k',.head ⟨j,v,hj,he⟩ hk',hr⟩

/-- The keys of a table do not meet what the table reaches. -/
theorem keys_silent (ha : KeysApart h t) (hi : Reaches h t i) :
    Silent (fun j k met => KeyMet b h n k met ∧ Reaches h t j ∧ ∃ v, (k,v) ∈ h.entries j) i := by
  rintro j key kmet ⟨⟨l,_,text,hrun⟩,hj,v,he⟩ m hm rfl
  cases key with
  | plain p =>
    cases hrun
    cases hm
  | table k =>
    obtain ⟨k',hk',hr⟩ := met_reached hrun m hm
    exact (ha k' (TransGen.head' ⟨j,v,hj,he⟩ hk')).2 m.ref hi hr

theorem prints_of_keysApart (ha : KeysApart h t) : Prints b h t := by
  obtain ⟨N,hN⟩ := tostring_returns (b := b) fun k hk => (ha k hk).1
  obtain ⟨⟨text,met⟩,ht⟩ := hN N le_rfl
  refine ⟨text,met,⟨N,fun n hn => tostring_mono hn ht⟩,fun i hi => ?_⟩
  obtain ⟨c',met',rfl,hs,hdone⟩ := reached_done ht
  obtain ⟨hmem,_⟩ := hdone i hi
  have hrun := hs.within (fun e he => he) .refl
  have hsilent := keys_silent (b := b) (n := N) ha hi
  constructor
  · by_cases hit : i = t
    · refine ⟨ascii ".",[],none,met',by rw [hit]; rfl,by simp,?_⟩
      exact hrun.repeats hsilent (by rw [hit]; exact lookup_root t _)
    · obtain ⟨path,hpath⟩ := Option.ne_none_iff_exists'.mp hmem
      exact ⟨path,(hrun.firstMet hsilent (lookup_root_none hit) hpath).cons (Ne.symm hit)⟩
  · intro j k hj he
    obtain ⟨m,hm,hm'⟩ := (((hdone j hj).2 _ he).value i rfl).2
    exact ⟨m,List.mem_cons_of_mem _ hm,hm'⟩

/-- `t[t] = "true"`. -/
def ownKey : PlainHeap Bytes where
  heap := [⟨[(.table 0,.plain (ascii "true"))],none⟩]
  wf := ⟨by decide,by simp [LuaHeap.Holds]⟩
  bare := by decide

/-- `t = {[k] = "1", x = k}` with an empty table `k`. -/
def keyAndValue : PlainHeap Bytes where
  heap := [⟨[(.table 1,.plain (ascii "1")),(.plain (ascii "x"),.table 1)],none⟩,⟨[],none⟩]
  wf := by
    refine ⟨by decide,?_⟩
    simp only [List.forall_mem_cons,List.length_cons,LuaHeap.Holds]
    refine ⟨⟨fun i hi => ?_,fun i hi => ?_,by simp⟩,by simp⟩
    all_goals
      rcases hi with hi | hi <;> cases hi
      decide
  bare := by decide

end MyProgram.Luaext.Dump
