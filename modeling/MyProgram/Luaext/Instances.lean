import MyProgram.Luaext.ClassChain

/-! Classes and instances in every run. -/
namespace MyProgram.Luaext.Class
open Lib
variable {F V : Type} {heap : Heap F V} {w w' : World F V} {op : ClassOp F V}
  {tr : Trace (ClassOp F V) (Effect F V)} {chain rest : List (Nat × String)} {k : Value F V} {fx : List (Effect F V)}
  {name : String} {super : Option Nat} {b c r obj : Nat}

/-- A chain is one from before or begins with the class that has been made. -/
theorem Chain.cases_append (h : Chain (tr ++ [(op,fx)]) chain) : Chain tr chain ∨
    (∃ c name, chain = [(c,name)] ∧ op = .makeClass name none ∧ fx = [.made c]) ∨
    ∃ c name b name' rest, chain = (c,name) :: (b,name') :: rest ∧ op = .makeClass name (some (.table b)) ∧ fx = [.made c] ∧
      Chain tr ((b,name') :: rest) := by
  generalize ht : tr ++ [(op,fx)] = tr' at h
  cases h with
  | @base tr' c name =>
    obtain ⟨rfl,he⟩ := List.append_inj' ht rfl
    cases he
    exact .inr (.inl ⟨c,name,rfl,rfl,rfl⟩)
  | @derived tr' b c name name' rest hb =>
    obtain ⟨rfl,he⟩ := List.append_inj' ht rfl
    cases he
    exact .inr (.inr ⟨c,name,b,name',rest,rfl,rfl,rfl,hb⟩)
  | later h =>
    obtain ⟨rfl,_⟩ := List.append_inj' ht rfl
    exact .inl h

theorem Created.cases_append (h : Created (tr ++ [(op,fx)]) chain obj) : Created tr chain obj ∨
    ∃ c name rest, chain = (c,name) :: rest ∧ op = .new c ∧ .made obj ∈ fx ∧ Chain tr chain := by
  generalize ht : tr ++ [(op,fx)] = tr' at h
  cases h with
  | @new tr' c obj name rest fx' hc hm =>
    obtain ⟨rfl,he⟩ := List.append_inj' ht rfl
    cases he
    exact .inr ⟨c,name,rest,rfl,rfl,hm,hc⟩
  | later h =>
    obtain ⟨rfl,_⟩ := List.append_inj' ht rfl
    exact .inl h

theorem Created.toChain (h : Created tr chain obj) : Chain tr chain := by
  induction h with
  | new hc _ => exact hc.later
  | later _ ih => exact ih.later

theorem call_eq_ok {v : Option (Value F V)} : (call v obj = .ok () fx) ↔ ∃ f, v = some (fn f) ∧ fx = [.called f obj] := by
  constructor
  · intro h
    unfold call at h
    split at h
    · cases h
      exact ⟨_,rfl,rfl⟩
    · cases h
  · rintro ⟨f,rfl,rfl⟩
    rfl

variable [DecidableEq F] [DecidableEq V]

theorem isClass_base (ho : ∀ o ∈ w.objects, o < w.heap.length) (name : String) :
    IsClass { w with heap := w.heap ++ [⟨luaFields w.heap.length name none,none⟩] } w.heap.length name none where
  object := fun h => Nat.lt_irrefl _ (ho _ h)
  fields := fun k _ => rawget_append_length ..
  root := fun _ => metaOf_append_length ..
  derived := fun b hb => by cases hb

theorem isClass_derived (ho : ∀ o ∈ w.objects, o < w.heap.length) (hb : b < w.heap.length) (name : String) :
    IsClass { w with heap := w.heap ++ [⟨luaFields w.heap.length name (some (.table b)),some (w.heap.length + 1)⟩,
      ⟨[(str "__index",.table b)],none⟩] } w.heap.length name (some b) where
  object := fun h => Nat.lt_irrefl _ (ho _ h)
  fields := fun k _ => rawget_append_length ..
  root := fun h => by cases h
  derived := fun b' hb' => by
    cases hb'
    refine ⟨hb,w.heap.length + 1,metaOf_append_length ..,fun h => absurd (ho _ h) (by omega),fun k _ => ?_⟩
    have hlen : (w.heap ++ ([⟨luaFields w.heap.length name (some (.table b)),some (w.heap.length + 1)⟩] : Heap F V)).length = w.heap.length + 1 := by simp
    have hraw := rawget_append_length (w.heap ++ [⟨luaFields w.heap.length name (some (.table b)),some (w.heap.length + 1)⟩])
      ⟨[(str "__index",.table b)],none⟩ [] k
    rw [hlen,List.append_assoc] at hraw
    exact hraw

/-- From a class of Lua objects `class` makes another one. -/
theorem IsClass.makeClass (h : IsClass w b name super) (name' : String) : makeClass w.heap name' (some (.table b)) =
    .ok (w.heap ++ [⟨luaFields w.heap.length name' (some (.table b)),some (w.heap.length + 1)⟩,⟨[(str "__index",.table b)],none⟩],
      w.heap.length) [] := by
  have hctype : rawget w.heap b (str "__ctype") = some (.plain (.number 2)) := by
    rw [h.fields _ rfl]
    cases super <;> rfl
  have hne : ¬ (some (.plain (.number 2)) : Option (Value F V)) = some (.plain (.number 1)) := by simp
  simp only [Class.makeClass,index,indexFrom_of_rawget hctype,Act.bind_ok,Act.after_nil,if_neg hne]
  rfl

theorem definition_step (hs : Step w op w') (h : Linked w chain) (hop : ∀ r k old, op.stored r k old = old) (k : Value F V) :
    definition w'.heap chain k = definition w.heap chain k := by
  induction h with
  | base hc => simp only [definition,List.findSome?_cons,hs.fields _ hc.lt,hop,List.findSome?_nil]
  | derived hc _ ih => rw [definition_cons w.heap,definition_cons w'.heap,ih,hs.fields _ hc.lt,hop]

/-- `new` of a class makes an instance and calls the nearest constructor on it. -/
theorem classStep_new (h : Linked w ((c,name) :: rest)) : ∃ w', Step w (.new c) w' ∧ metaOf w'.heap w.heap.length = some c ∧
    classStep w (.new c) = (do
      call (definition w.heap ((c,name) :: rest) (str "ctor")) w.heap.length
      Act.emit (.made w.heap.length)
      pure w') := by
  obtain ⟨super,hc⟩ := h.head
  have hnew : rawget w.heap c (str "new") = some (fn (.new c)) := by
    rw [hc.fields _ rfl]
    cases super <;> rfl
  have hnewindex : rawget w.heap c (str "__newindex") = none := by
    rw [hc.fields _ rfl]
    cases super <;> rfl
  have hlen : w.heap.length < (w.heap ++ ([⟨[],some c⟩] : Heap F V)).length := by simp
  obtain ⟨heap,hn⟩ := newindex_returns hlen
    (by rw [metaOf_append_length,Option.bind_some,rawget_append hc.lt,hnewindex]) (str "class") (some (.table c))
  have hs := Step.of_instance hn c
  obtain ⟨_,_,hmeta,hraw⟩ := newindex_spec hn
  have hobj : metaOf heap w.heap.length = some c := by rw [hmeta,metaOf_append_length]
  have hctor : rawget heap w.heap.length (str "ctor") = none := by
    rw [hraw,if_neg (by simp [str]),rawget_append_length]
    rfl
  refine ⟨_,hs,hobj,?_⟩
  have hi := (h.step hs trivial).index_instance hobj hctor
  rw [definition_step hs h fun _ _ _ => rfl] at hi
  dsimp only at hi
  have hget : index w.heap (.table c) (str "new") = .ok (some (fn (.new c))) [] := indexFrom_of_rawget hnew _
  rw [classStep,hget,Act.bind_ok,Act.after_nil]
  simp only [fn,makeInstance,hn,hi,Act.bind_ok,Act.after_nil,Act.bind_assoc,Act.pure_eq]

theorem new_spec (h : Linked w ((c,name) :: rest)) (he : classStep w (.new c) = .ok w' fx) :
    ∃ f, definition w.heap ((c,name) :: rest) (str "ctor") = some (fn f) ∧ fx = [.called f w.heap.length,.made w.heap.length] ∧
      metaOf w'.heap w.heap.length = some c := by
  obtain ⟨w'',_,hmeta,hnew⟩ := classStep_new h
  rw [hnew] at he
  obtain ⟨⟨⟩,fx₁,fx₂,h₁,h₂,rfl⟩ := Act.bind_eq_ok.mp he
  obtain ⟨f,hf,rfl⟩ := call_eq_ok.mp h₁
  cases h₂
  exact ⟨f,hf,rfl,hmeta⟩

/-- What is assigned to `ctor` of a class of the chain is a function. -/
def CtorsAssigned (tr : Trace (ClassOp F V) (Effect F V)) (chain : List (Nat × String)) : Prop :=
  ∀ e ∈ tr, ∀ t v, e.1 = .assign t (str "ctor") v → t ∈ chain.map (·.1) → ∃ f, v = some (fn f)

/-- The classes of a chain that have a `ctor` have a function there, and one of them has. -/
structure Constructors (heap : Heap F V) (chain : List (Nat × String)) : Prop where
  functions : ∀ e ∈ chain, ∀ v, rawget heap e.1 (str "ctor") = some v → ∃ f, v = fn f
  present : ∃ e ∈ chain, rawget heap e.1 (str "ctor") ≠ none

namespace Constructors

theorem definition (h : Constructors heap chain) : ∃ f, definition heap chain (str "ctor") = some (fn f) := by
  cases hd : Class.definition heap chain (str "ctor") with
  | none =>
    obtain ⟨e,he,hne⟩ := h.present
    exact absurd (List.findSome?_eq_none_iff.mp hd e he) hne
  | some v =>
    obtain ⟨e,he,hv⟩ := List.exists_of_findSome?_eq_some hd
    obtain ⟨f,rfl⟩ := h.functions e he v hv
    exact ⟨f,rfl⟩

theorem step (h : Constructors w.heap chain) (hs : Step w op w') (hl : Linked w chain)
    (hop : ∀ t v, op = .assign t (str "ctor") v → t ∈ chain.map (·.1) → ∃ f, v = some (fn f)) : Constructors w'.heap chain := by
  have hctor : ∀ e ∈ chain, rawget w'.heap e.1 (str "ctor") = rawget w.heap e.1 (str "ctor") ∨
      ∃ f, rawget w'.heap e.1 (str "ctor") = some (fn f) := by
    intro e he
    obtain ⟨_,hc⟩ := hl.isClass_of_mem he
    rw [hs.fields _ hc.lt]
    cases op with
    | assign t k v =>
      rw [ClassOp.stored]
      split
      · rename_i hk
        obtain ⟨rfl,rfl⟩ := hk
        exact .inr (hop _ v rfl (List.mem_map.mpr ⟨e,he,rfl⟩))
      · exact .inl rfl
    | _ => exact .inl rfl
  refine ⟨fun e he v hv => ?_,?_⟩
  · rcases hctor e he with h' | ⟨f,h'⟩
    · exact h.functions e he v (h'.symm.trans hv)
    · rw [h',Option.some.injEq] at hv
      exact ⟨f,hv.symm⟩
  · obtain ⟨e,he,hne⟩ := h.present
    refine ⟨e,he,?_⟩
    rcases hctor e he with h' | ⟨f,h'⟩
    · rwa [h']
    · rw [h']
      exact Option.some_ne_none _

end Constructors

/-- What holds along every run of the chains and instances made in it. -/
structure Inherits (tr : Trace (ClassOp F V) (Effect F V)) (w : World F V) : Prop where
  objects : ∀ o ∈ w.objects, o < w.heap.length
  chains : ∀ chain, Chain tr chain → Linked w chain
  created : ∀ chain obj, Created tr chain obj → metaOf w.heap obj = chain.head?.map (·.1)
  constructors : ∀ chain, Chain tr chain → CtorsAssigned tr chain → Constructors w.heap chain

theorem inherits_nil : Inherits [] (⟨[],[]⟩ : World F V) := by
  have hchain : ∀ chain, ¬ Chain ([] : Trace (ClassOp F V) (Effect F V)) chain := by
    intro chain h
    generalize ht : [] = tr at h
    cases h <;> simp at ht
  exact ⟨by simp,fun chain h => absurd h (hchain chain),fun chain obj h => absurd h.toChain (hchain chain),
    fun chain h => absurd h (hchain chain)⟩

namespace Inherits

theorem linked (h : Inherits tr w) (hs : Step w op w') (ha : w.Allowed op) (he : classStep w op = .ok w' fx)
    (hc : Chain (tr ++ [(op,fx)]) chain) : Linked w' chain := by
  rcases hc.cases_append with hc | ⟨c,name,rfl,rfl,rfl⟩ | ⟨c,name,b,name',rest,rfl,rfl,rfl,hb⟩
  · exact (h.chains chain hc).step hs ha
  · cases he
    exact .base (isClass_base h.objects name)
  · have hl := h.chains _ hb
    obtain ⟨_,hcls⟩ := hl.head
    rw [classStep,hcls.makeClass] at he
    cases he
    exact .derived (isClass_derived h.objects hcls.lt name) (hl.step hs ha)

theorem constructed (h : Inherits tr w) (hs : Step w op w') (he : classStep w op = .ok w' fx)
    (hc : Chain (tr ++ [(op,fx)]) chain) (ha : CtorsAssigned (tr ++ [(op,fx)]) chain) : Constructors w'.heap chain := by
  rcases hc.cases_append with hc | ⟨c,name,rfl,rfl,rfl⟩ | ⟨c,name,b,name',rest,rfl,rfl,rfl,hb⟩
  · have htr : CtorsAssigned tr chain := fun e he => ha e (List.mem_append_left _ he)
    exact (h.constructors chain hc htr).step hs (h.chains chain hc) fun t v hop => ha (op,fx) (by simp) t v hop
  · cases he
    have hctor : rawget (w.heap ++ [⟨luaFields w.heap.length name none,none⟩]) w.heap.length (str "ctor") = some (fn .empty) :=
      rawget_append_length ..
    refine ⟨fun e he v hv => ?_,⟨_,List.mem_singleton_self _,?_⟩⟩
    · rw [List.mem_singleton.mp he,hctor] at hv
      cases hv
      exact ⟨_,rfl⟩
    · rw [hctor]
      exact Option.some_ne_none _
  · have hl := h.chains _ hb
    have htr : CtorsAssigned tr ((b,name') :: rest) := fun e he t v hop ht =>
      ha e (List.mem_append_left _ he) t v hop (List.mem_cons_of_mem _ ht)
    have hrest := (h.constructors _ hb htr).step hs hl fun t v hop => by cases hop
    obtain ⟨_,hcls⟩ := hl.head
    rw [classStep,hcls.makeClass] at he
    cases he
    refine ⟨fun e he v hv => ?_,?_⟩
    · rcases List.mem_cons.mp he with rfl | he
      · rw [rawget_append_length] at hv
        cases hv
      · exact hrest.functions e he v hv
    · obtain ⟨e,he,hne⟩ := hrest.present
      exact ⟨e,List.mem_cons_of_mem _ he,hne⟩

theorem instances (h : Inherits tr w) (hs : Step w op w') (he : classStep w op = .ok w' fx)
    (hc : Created (tr ++ [(op,fx)]) chain obj) : metaOf w'.heap obj = chain.head?.map (·.1) := by
  rcases hc.cases_append with hc | ⟨c,name,rest,rfl,rfl,hm,hchain⟩
  · have hmeta := h.created chain obj hc
    have hobj : obj < w.heap.length := by
      cases h.chains chain hc.toChain with
      | base _ => exact lt_of_metaOf hmeta
      | derived _ _ => exact lt_of_metaOf hmeta
    rw [hs.metatable obj hobj,hmeta]
  · obtain ⟨f,_,rfl,hmeta⟩ := new_spec (h.chains _ hchain) he
    have hobj : obj = w.heap.length := by simpa using hm
    rw [hobj,hmeta]
    rfl

theorem step (h : Inherits tr w) (ha : w.Allowed op) (he : classStep w op = .ok w' fx) : Inherits (tr ++ [(op,fx)]) w' := by
  have hs := classStep_step he
  refine ⟨fun o ho => ?_,fun chain => h.linked hs ha he,fun chain obj => h.instances hs he,fun chain => h.constructed hs he⟩
  rcases hs.objects o ho with ho | ho
  · exact Nat.lt_of_lt_of_le (h.objects o ho) hs.length
  · exact ho.2

end Inherits

theorem run_inherits (h : Run classStep (fun _ w op => w.Allowed op) ⟨[],[]⟩ tr w) : Inherits tr w :=
  h.invariant Inherits inherits_nil fun _ _ _ _ _ ih ha he => ih.step ha he

/-- Along a chain of classes made in any run, `new` calls the nearest constructor, once, on
the new instance, fields that an instance does not have are those of the nearest class at the
time of the read, and `iskindof` is true of the names of the chain. -/
theorem instances_follow_chain (h : Run classStep (fun _ w op => w.Allowed op) ⟨[],[]⟩ tr w) (hc : Chain tr ((c,name) :: rest)) :
    (∀ w' fx, classStep w (.new c) = .ok w' fx → ∃ f, definition w.heap ((c,name) :: rest) (str "ctor") = some (fn f) ∧
      fx = [.called f w.heap.length,.made w.heap.length]) ∧
    (CtorsAssigned tr ((c,name) :: rest) → ∃ w' fx, classStep w (.new c) = .ok w' fx) ∧
    ∀ obj, Created tr ((c,name) :: rest) obj →
      (∀ k, rawget w.heap obj k = none →
        classStep w (.read obj k) = .ok w [.found (definition w.heap ((c,name) :: rest) k)]) ∧
      ∀ s, classStep w (.iskindof obj s) = .ok w [.answered (decide (s ∈ ((c,name) :: rest).map (·.2)))] := by
  have hi := run_inherits h
  have hl := hi.chains _ hc
  refine ⟨fun w' fx he => ?_,fun ha => ?_,fun obj ho => ⟨fun k hk => ?_,fun s => ?_⟩⟩
  · obtain ⟨f,hf,hfx,_⟩ := new_spec hl he
    exact ⟨f,hf,hfx⟩
  · obtain ⟨f,hf⟩ := (hi.constructors _ hc ha).definition
    obtain ⟨w',_,_,hnew⟩ := classStep_new hl
    rw [hf] at hnew
    exact ⟨w',_,hnew⟩
  · rw [classStep,hl.index_instance (hi.created _ obj ho) hk]
    rfl
  · rw [classStep,hl.iskindof (hi.created _ obj ho)]
    rfl

/-- Three classes. The second and the third define nothing, and a field of the first comes
after the instance. -/
theorem instances_follow_chain_three : ∃ w : World Nat Nat,
    (∃ w' f, classStep w (.new 3) = .ok w' [.called f 6,.made 6]) ∧
      classStep w (.read 5 (str "hp")) = .ok w [.found (some (.plain (.other 9)))] ∧
      classStep w (.iskindof 5 "A") = .ok w [.answered true] ∧ classStep w (.iskindof 5 "D") = .ok w [.answered false] := by
  have hcheck : runCheck (classStep (F := Nat) (V := Nat)) (fun _ w op => w.Allowed op)
      (fun tr w => (decide (tr = [(.makeClass "A" none,[.made 0]),(.makeClass "B" (some (.table 0)),[.made 1]),
        (.makeClass "C" (some (.table 1)),[.made 3]),(.new 3,[.called .empty 5,.made 5]),
        (.assign 0 (str "hp") (some (.plain (.other 9))),[])]) &&
        decide (rawget w.heap 5 (str "hp") = none ∧ w.heap.length = 6) &&
        decide (definition w.heap [(3,"C"),(1,"B"),(0,"A")] (str "hp") = some (.plain (.other 9)))) = true)
      [.makeClass "A" none,.makeClass "B" (some (.table 0)),.makeClass "C" (some (.table 1)),.new 3,
        .assign 0 (str "hp") (some (.plain (.other 9)))] [] ⟨[],[]⟩ = true := by decide
  obtain ⟨_,w,hr,_,hw⟩ := Run.of_runCheck hcheck
  simp only [Bool.and_eq_true,decide_eq_true_eq] at hw
  obtain ⟨⟨rfl,hhp,hlen⟩,hdef⟩ := hw
  have hA : Chain [(.makeClass "A" none,[.made 0])] [(0,"A")] := @Chain.base Nat Nat [] 0 "A"
  have hB : Chain [(.makeClass "A" none,[.made 0]),(.makeClass "B" (some (.table 0)),[.made 1])] [(1,"B"),(0,"A")] := hA.derived
  have hC : Chain [(.makeClass "A" none,[.made 0]),(.makeClass "B" (some (.table 0)),[.made 1]),(.makeClass "C" (some (.table 1)),[.made 3])]
    [(3,"C"),(1,"B"),(0,"A")] := hB.derived
  have ho : Created [(.makeClass "A" none,[.made 0]),(.makeClass "B" (some (.table 0)),[.made 1]),(.makeClass "C" (some (.table 1)),[.made 3]),
    (.new 3,[.called .empty 5,.made 5])] [(3,"C"),(1,"B"),(0,"A")] 5 := Created.new hC (by simp)
  obtain ⟨hnew,hsome,hobj⟩ := instances_follow_chain hr hC.later.later
  obtain ⟨hread,hkind⟩ := hobj 5 ho.later
  obtain ⟨w',fx,he⟩ := hsome (by
    intro e he t v ht
    simp only [List.mem_cons,List.not_mem_nil,or_false] at he
    rcases he with rfl | rfl | rfl | rfl | rfl <;> simp [str] at ht)
  obtain ⟨f,_,rfl⟩ := hnew w' fx he
  rw [hlen] at he
  refine ⟨w,⟨w',f,he⟩,?_,?_,?_⟩
  · rw [hread _ hhp,hdef]
  · exact hkind "A"
  · exact hkind "D"

end MyProgram.Luaext.Class
