import Mathlib.Data.Finset.Card
import Mathlib.Data.Finset.Range
import MyProgram.Lib.Assoc
import MyProgram.Lib.LuaHeap

/-! `table.copy` of `luaext.lua` and the tables it makes. -/
namespace MyProgram.Luaext
open Lib LuaHeap
variable {P : Type}

/-- Memory and `lookup_table`, which leads from a table to its copy. -/
structure CopyState (P : Type) where
  heap : LuaHeap P
  lookupTable : List (Nat × Nat)

namespace CopyState

/-- `local new_table = {}; lookup_table[object] = new_table`. -/
def newTable (s : CopyState P) (object : Nat) : CopyState P :=
  ⟨s.heap ++ [⟨[],none⟩],assign s.lookupTable object (some s.heap.length)⟩

/-- `new_table[key] = value`. -/
def store [DecidableEq P] (s : CopyState P) (new : Nat) (key value : LuaValue P) : CopyState P :=
  { s with heap := s.heap.modify new fun t => { t with entries := assign t.entries key (some value) } }

/-- `setmetatable(new_table, getmetatable(object))`. -/
def setmetatable (s : CopyState P) (new : Nat) (metatable : Option Nat) : CopyState P :=
  { s with heap := s.heap.modify new fun t => { t with metatable := metatable } }

/-- `getmetatable(object)`. -/
def getmetatable (s : CopyState P) (object : Nat) : Option Nat := s.heap[object]?.bind (·.metatable)

end CopyState

/-- The loop over `pairs(object)`. -/
def copyEntries [DecidableEq P] (copy : CopyState P → LuaValue P → Option (CopyState P × LuaValue P)) (new : Nat) :
    List (LuaValue P × LuaValue P) → CopyState P → Option (CopyState P)
  | [], s => some s
  | (key,value) :: rest, s => do
    let (s,key) ← copy s key
    let (s,value) ← copy s value
    copyEntries copy new rest (s.store new key value)

/-- The inner function `_copy`, called to a depth of at most `fuel`. -/
def copyObject [DecidableEq P] : Nat → CopyState P → LuaValue P → Option (CopyState P × LuaValue P)
  | 0, _, _ => none
  | _+1, s, .plain p => some (s,.plain p)
  | fuel+1, s, .table object =>
    match s.lookupTable.lookup object with
    | some new => some (s,.table new)
    | none => do
      let t ← s.heap[object]?
      let new := s.heap.length
      let s ← copyEntries (copyObject fuel) new t.entries (s.newTable object)
      pure (s.setmetatable new (s.getmetatable object),.table new)

/-- `table.copy`. -/
def tableCopy [DecidableEq P] (fuel : Nat) (heap : LuaHeap P) (object : LuaValue P) : Option (LuaHeap P × LuaValue P) := do
  let (s,copy) ← copyObject fuel ⟨heap,[]⟩ object
  pure (s.heap,copy)

namespace CopyState
variable {heap : LuaHeap P} {s s' s'' : CopyState P} {hole : Option Nat} {S T : Nat → Prop} {v : LuaValue P} {i j object new : Nat}

/-- The copy of a table. -/
def copyOf (s : CopyState P) (i : Nat) : Nat := (s.lookupTable.lookup i).getD i

/-- A value that is no table without a copy. -/
def Known (s : CopyState P) (v : LuaValue P) : Prop := ∀ i, v = .table i → s.lookupTable.lookup i ≠ none

/-- The originals are as they were. Every copy is a table of its own behind them. -/
structure Consistent (heap : LuaHeap P) (s : CopyState P) : Prop where
  originals : ∀ i < heap.length, s.heap[i]? = heap[i]?
  room : heap.length ≤ s.heap.length
  range : ∀ i j, s.lookupTable.lookup i = some j → i < heap.length ∧ heap.length ≤ j ∧ j < s.heap.length
  once : ∀ i i' j, s.lookupTable.lookup i = some j → s.lookupTable.lookup i' = some j → i = i'

/-- The copy of a table has all entries, with copies in them, and the metatable. -/
def Finished (heap : LuaHeap P) (s : CopyState P) (i : Nat) : Prop :=
  ∃ t j, heap[i]? = some t ∧ s.lookupTable.lookup i = some j ∧ s.heap[j]? = some (t.rename s.copyOf) ∧
    ∀ e ∈ t.entries, s.Known e.1 ∧ s.Known e.2

/-- What a call may do: copies are added, of tables in `S`, and are finished. Of the tables
before, at most the one that is being filled changes. -/
structure Extends (heap : LuaHeap P) (S : Nat → Prop) (hole : Option Nat) (s s' : CopyState P) : Prop where
  consistent : Consistent heap s'
  lookup : ∀ i j, s.lookupTable.lookup i = some j → s'.lookupTable.lookup i = some j
  memory : ∀ a < s.heap.length, hole ≠ some a → s'.heap[a]? = s.heap[a]?
  room : s.heap.length ≤ s'.heap.length
  added : ∀ i, s.lookupTable.lookup i = none → s'.lookupTable.lookup i ≠ none → Finished heap s' i ∧ S i

/-- The table that is being filled is a copy. -/
def Filling (s : CopyState P) (hole : Option Nat) : Prop := ∀ a, hole = some a → ∃ i, s.lookupTable.lookup i = some a

theorem copyOf_eq (h : s.lookupTable.lookup i = some j) : s.copyOf i = j := by
  rw [copyOf,h,Option.getD_some]

theorem Known.copyOf_congr (hk : s.Known v) (hl : ∀ i j, s.lookupTable.lookup i = some j → s'.lookupTable.lookup i = some j)
    (hv : v = .table i) : s'.copyOf i = s.copyOf i := by
  obtain ⟨j,hj⟩ := Option.ne_none_iff_exists'.mp (hk i hv)
  rw [copyOf_eq hj,copyOf_eq (hl i j hj)]

theorem Known.mono (hk : s.Known v) (hl : ∀ i j, s.lookupTable.lookup i = some j → s'.lookupTable.lookup i = some j) : s'.Known v := by
  intro i hv
  obtain ⟨j,hj⟩ := Option.ne_none_iff_exists'.mp (hk i hv)
  rw [hl i j hj]
  exact Option.some_ne_none j

/-- What is finished stays finished. -/
theorem Finished.mono (h : Finished heap s i) (hl : ∀ i j, s.lookupTable.lookup i = some j → s'.lookupTable.lookup i = some j)
    (hm : ∀ j, s.lookupTable.lookup i = some j → s'.heap[j]? = s.heap[j]?) : Finished heap s' i := by
  obtain ⟨t,j,ht,hj,hcopy,hk⟩ := h
  refine ⟨t,j,ht,hl i j hj,?_,fun e he => ⟨(hk e he).1.mono hl,(hk e he).2.mono hl⟩⟩
  rw [hm j hj,hcopy]
  refine congrArg some (table_rename_congr fun e he a ha => ?_)
  rcases ha with ha | ha
  · exact ((hk e he).1.copyOf_congr hl ha).symm
  · exact ((hk e he).2.copyOf_congr hl ha).symm

namespace Extends

theorem refl (h : Consistent heap s) : Extends heap S hole s s :=
  ⟨h,fun _ _ hj => hj,fun _ _ _ => rfl,Nat.le_refl _,fun _ hn hs => absurd hn hs⟩

theorem mono (h : Extends heap S none s s') (hS : ∀ i, S i → T i) : Extends heap T hole s s' :=
  ⟨h.consistent,h.lookup,fun a ha _ => h.memory a ha (by simp),h.room,fun i hn hs => ⟨(h.added i hn hs).1,hS i (h.added i hn hs).2⟩⟩

/-- One call after another. -/
theorem trans (h : Extends heap S hole s s') (h' : Extends heap S hole s' s'') (hf : s.Filling hole) : Extends heap S hole s s'' := by
  refine ⟨h'.consistent,fun i j hj => h'.lookup i j (h.lookup i j hj),fun a ha hne => ?_,Nat.le_trans h.room h'.room,fun i hn hs => ?_⟩
  · rw [h'.memory a (Nat.lt_of_lt_of_le ha h.room) hne,h.memory a ha hne]
  · by_cases hs' : s'.lookupTable.lookup i = none
    · exact h'.added i hs' hs
    · obtain ⟨hfin,hS⟩ := h.added i hn hs'
      refine ⟨hfin.mono h'.lookup fun j hj => h'.memory j (h.consistent.range i j hj).2.2 ?_,hS⟩
      -- the table that is being filled is the copy of another one
      intro hhole
      obtain ⟨o,ho⟩ := hf j hhole
      obtain rfl := h.consistent.once o i j (h.lookup o j ho) hj
      rw [hn] at ho
      cases ho

end Extends

/-- How many tables have no copy yet. -/
def unvisited (heap : LuaHeap P) (s : CopyState P) : Nat :=
  ((Finset.range heap.length).filter fun i => s.lookupTable.lookup i = none).card

theorem unvisited_eq (s : CopyState P) : s.unvisited heap = unmapped heap.length s.lookupTable := by
  simp only [unvisited,unmapped,Option.isNone_iff_eq_none]

theorem Extends.unvisited_le (h : Extends heap S hole s s') : s'.unvisited heap ≤ s.unvisited heap := by
  rw [unvisited_eq,unvisited_eq]
  refine unmapped_le fun i hi => ?_
  obtain ⟨j,hj⟩ := Option.ne_none_iff_exists'.mp hi
  rw [h.lookup i j hj]
  exact Option.some_ne_none j

theorem lookup_newTable : (s.newTable object).lookupTable.lookup i =
    if i = object then some s.heap.length else s.lookupTable.lookup i := lookup_assign

theorem unvisited_newTable (ho : object < heap.length) (hn : s.lookupTable.lookup object = none) :
    (s.newTable object).unvisited heap < s.unvisited heap := by
  rw [unvisited_eq,unvisited_eq]
  exact unmapped_assign ho hn

theorem Consistent.newTable (h : Consistent heap s) (ho : object < heap.length) :
    Consistent heap (s.newTable object) := by
  have hlen : (s.newTable object).heap.length = s.heap.length + 1 := by simp [CopyState.newTable]
  refine ⟨fun i hi => ?_,by rw [hlen]; exact Nat.le_succ_of_le h.room,fun i j hj => ?_,fun i i' j hi hi' => ?_⟩
  · rw [← h.originals i hi]
    exact List.getElem?_append_left (Nat.lt_of_lt_of_le hi h.room)
  · rw [lookup_newTable] at hj
    rw [hlen]
    split at hj
    · rename_i hio
      cases hj
      exact ⟨hio ▸ ho,h.room,Nat.lt_succ_self _⟩
    · obtain ⟨h₁,h₂,h₃⟩ := h.range i j hj
      exact ⟨h₁,h₂,Nat.lt_succ_of_lt h₃⟩
  · rw [lookup_newTable] at hi hi'
    split at hi
    · rename_i hio
      split at hi'
      · rename_i hio'
        rw [hio,hio']
      · cases hi
        exact absurd (h.range i' _ hi').2.2 (Nat.lt_irrefl _)
    · split at hi'
      · cases hi'
        exact absurd (h.range i _ hi).2.2 (Nat.lt_irrefl _)
      · exact h.once i i' j hi hi'

/-- Writing to a copy changes nothing else. -/
theorem Consistent.modify {change : LuaTable P → LuaTable P} (h : Consistent heap s) (hnew : s.lookupTable.lookup object = some new) :
    Consistent heap { s with heap := s.heap.modify new change } := by
  refine ⟨fun i hi => ?_,by rw [List.length_modify]; exact h.room,fun i j hj => by rw [List.length_modify]; exact h.range i j hj,h.once⟩
  have hne : new ≠ i := by
    have := (h.range object new hnew).2.1
    omega
  rw [← h.originals i hi]
  exact List.getElem?_modify_ne _ _ hne

/-- A write to the table that is being filled. -/
theorem Extends.modify {change : LuaTable P → LuaTable P} (h : Consistent heap s) (hnew : s.lookupTable.lookup object = some new) :
    Extends heap S (some new) s { s with heap := s.heap.modify new change } :=
  ⟨h.modify hnew,fun _ _ hj => hj,fun _ _ hne => List.getElem?_modify_ne _ _ fun he => hne (congrArg some he),
    by rw [List.length_modify],fun _ hn hs => absurd hn hs⟩

/-- What a call of `_copy` with this much depth left does to a value of `heap`. -/
def Copies [DecidableEq P] (heap : LuaHeap P) (fuel : Nat) : Prop :=
  ∀ (s : CopyState P) (v : LuaValue P), Consistent heap s → (∀ i, v = .table i → i < heap.length) → s.unvisited heap < fuel →
    ∃ s', copyObject fuel s v = some (s',v.rename s'.copyOf) ∧ Extends heap (Reach heap v) none s s' ∧ s'.Known v

section Copy
variable {fuel : Nat} {t : LuaTable P} {before rest : List (LuaValue P × LuaValue P)}

/-- The table that is being filled has the copies of these entries. -/
structure Filled (s : CopyState P) (object new : Nat) (before : List (LuaValue P × LuaValue P)) : Prop where
  known : s.lookupTable.lookup object = some new
  entries : s.heap[new]? = some (LuaTable.rename s.copyOf ⟨before,none⟩)
  all : ∀ e ∈ before, s.Known e.1 ∧ s.Known e.2

/-- Calls for other tables leave it as it is. -/
theorem Filled.extends (h : s.Filled object new before) (he : Extends heap S none s s') (hc : Consistent heap s) : s'.Filled object new before := by
  refine ⟨he.lookup object new h.known,?_,fun e hm => ⟨(h.all e hm).1.mono he.lookup,(h.all e hm).2.mono he.lookup⟩⟩
  rw [he.memory new (hc.range object new h.known).2.2 (by simp),h.entries]
  refine congrArg some (table_rename_congr fun e hm a ha => ?_)
  rcases ha with ha | ha
  · exact ((h.all e hm).1.copyOf_congr he.lookup ha).symm
  · exact ((h.all e hm).2.copyOf_congr he.lookup ha).symm

/-- One more entry. The copy of its key is no key of the copy yet. -/
theorem Filled.store [DecidableEq P] {key value : LuaValue P} (h : s.Filled object new before) (hc : Consistent heap s)
    (hd : key ∉ before.map Prod.fst) (hk : s.Known key) (hv : s.Known value) :
    (s.store new (key.rename s.copyOf) (value.rename s.copyOf)).Filled object new (before ++ [(key,value)]) := by
  have hnew : key.rename s.copyOf ∉ (before.map fun e => (e.1.rename s.copyOf,e.2.rename s.copyOf)).map Prod.fst := by
    intro hm
    rw [List.map_map] at hm
    obtain ⟨e,he,hek⟩ := List.mem_map.mp hm
    refine hd (List.mem_map.mpr ⟨e,he,rename_injective (fun i j hi hj hij => ?_) hek⟩)
    obtain ⟨a,ha⟩ := Option.ne_none_iff_exists'.mp ((h.all e he).1 i hi)
    obtain ⟨b,hb⟩ := Option.ne_none_iff_exists'.mp (hk j hj)
    rw [copyOf_eq ha,copyOf_eq hb] at hij
    exact hc.once i j b (hij ▸ ha) hb
  refine ⟨h.known,?_,fun e he => ?_⟩
  · refine (List.getElem?_modify_eq _ _ _).trans ?_
    rw [h.entries]
    simp only [LuaTable.rename,Option.map_eq_map,Option.map_some,assign_of_notMem hnew,List.map_append]
    rfl
  · rcases List.mem_append.mp he with he | he
    · exact h.all e he
    · rw [List.mem_singleton.mp he]
      exact ⟨hk,hv⟩

/-- The loop fills the copy with the entries that are left. -/
theorem copyEntries_spec [DecidableEq P] (hwf : heap.WellFormed) (hcopy : Copies heap fuel) (ht : heap[object]? = some t)
    (hsplit : t.entries = before ++ rest) (hc : Consistent heap s) (hf : s.Filled object new before) (hu : s.unvisited heap < fuel) :
    ∃ s', copyEntries (copyObject fuel) new rest s = some s' ∧ Extends heap (Reach heap (.table object)) (some new) s s' ∧
      s'.Filled object new t.entries := by
  induction rest generalizing s before with
  | nil =>
    rw [List.append_nil] at hsplit
    exact ⟨s,rfl,.refl hc,hsplit ▸ hf⟩
  | cons e rest ih =>
    obtain ⟨key,value⟩ := e
    have hmem : (key,value) ∈ t.entries := by rw [hsplit]; simp
    have htm : t ∈ heap := List.mem_of_getElem? ht
    have hreach : ∀ {v}, v = key ∨ v = value → ∀ i, Reach heap v i → Reach heap (.table object) i := by
      intro v hv i hi
      refine hi.trans fun a ha => .entry (.root rfl) ht hmem ?_
      rcases hv with rfl | rfl
      · exact .inl ha
      · exact .inr ha
    obtain ⟨s₁,he₁,hx₁,hk₁⟩ := hcopy s key hc (fun i hi => hwf.refs t htm _ hmem i (.inl hi)) hu
    obtain ⟨s₂,he₂,hx₂,hk₂⟩ := hcopy s₁ value hx₁.consistent (fun i hi => hwf.refs t htm _ hmem i (.inr hi))
      (Nat.lt_of_le_of_lt hx₁.unvisited_le hu)
    have hkey : key.rename s₁.copyOf = key.rename s₂.copyOf :=
      rename_congr fun i hi => (hk₁.copyOf_congr hx₂.lookup hi).symm
    have hdistinct : key ∉ before.map Prod.fst := by
      have hn := hwf.keys t htm
      rw [hsplit,List.map_append,List.map_cons,List.nodup_append] at hn
      exact fun hm => hn.2.2 key hm key (by simp) rfl
    have hf₂ := (hf.extends hx₁ hc).extends hx₂ hx₁.consistent
    have hf₃ := hf₂.store hx₂.consistent hdistinct (hk₁.mono hx₂.lookup) hk₂
    have hx₃ : Extends heap (Reach heap (.table object)) (some new) s₂ (s₂.store new (key.rename s₂.copyOf) (value.rename s₂.copyOf)) :=
      .modify hx₂.consistent hf₂.known
    have hfill : ∀ {s : CopyState P} {b}, s.Filled object new b → s.Filling (some new) := by
      rintro s b hs a ⟨⟩
      exact ⟨object,hs.known⟩
    have hx : Extends heap (Reach heap (.table object)) (some new) s (s₂.store new (key.rename s₂.copyOf) (value.rename s₂.copyOf)) :=
      ((hx₁.mono (hreach (.inl rfl))).trans (hx₂.mono (hreach (.inr rfl))) (hfill hf)).trans hx₃ (hfill hf)
    have hsplit' : t.entries = (before ++ [(key,value)]) ++ rest := by rw [hsplit]; simp
    obtain ⟨s',he',hx',hf'⟩ := ih hsplit' hx.consistent hf₃ (Nat.lt_of_le_of_lt hx.unvisited_le hu)
    refine ⟨s',?_,hx.trans hx' (hfill hf),hf'⟩
    simp only [copyEntries,he₁,he₂,Option.bind_eq_bind,Option.bind_some,hkey]
    exact he'

/-- With its metatable the copy is complete. -/
theorem Filled.finished (ho : object < heap.length) (hc : Consistent heap s) (h : s.Filled object new heap[object].entries) :
    Finished heap (s.setmetatable new (s.getmetatable object)) object := by
  have ht : heap[object]? = some heap[object] := List.getElem?_eq_getElem ho
  have hmeta : s.getmetatable object = heap[object].metatable := by
    rw [getmetatable,hc.originals object ho,ht,Option.bind_some]
  refine ⟨heap[object],new,ht,h.known,?_,h.all⟩
  rw [setmetatable,hmeta]
  dsimp only
  rw [List.getElem?_modify_eq,h.entries]
  rfl

/-- A table without a copy gets one, which is filled and then given its metatable. -/
theorem copyObject_table [DecidableEq P] (hwf : heap.WellFormed) (hcopy : Copies heap fuel) (hc : Consistent heap s)
    (ho : object < heap.length) (hn : s.lookupTable.lookup object = none) (hu : s.unvisited heap < fuel + 1) :
    ∃ s', copyObject (fuel + 1) s (.table object) = some (s',.table (s'.copyOf object)) ∧
      Extends heap (Reach heap (.table object)) none s s' ∧ s'.lookupTable.lookup object ≠ none := by
  have ht : heap[object]? = some heap[object] := List.getElem?_eq_getElem ho
  have hnew : (s.newTable object).lookupTable.lookup object = some s.heap.length := by rw [lookup_newTable,if_pos rfl]
  have hf : (s.newTable object).Filled object s.heap.length [] := by
    refine ⟨hnew,?_,by simp⟩
    simp only [newTable,List.getElem?_concat_length]
    rfl
  obtain ⟨s₂,he,hx,hf₂⟩ := copyEntries_spec hwf hcopy ht (List.nil_append _).symm (hc.newTable ho) hf
    (Nat.lt_of_lt_of_le (unvisited_newTable ho hn) (Nat.le_of_lt_succ hu))
  obtain ⟨s₃,hs₃⟩ : ∃ s₃ : CopyState P, s₃ = s₂.setmetatable s.heap.length (s₂.getmetatable object) := ⟨_,rfl⟩
  have hx₃ : Extends heap (Reach heap (.table object)) (some s.heap.length) s₂ s₃ := hs₃ ▸ .modify hx.consistent hf₂.known
  have hcopyOf : s₃.copyOf object = s.heap.length := copyOf_eq (hx₃.lookup object _ hf₂.known)
  have hfinished : Finished heap s₃ object := hs₃ ▸ hf₂.finished ho hx.consistent
  have hxall := hx.trans hx₃ fun a ha => ⟨object,by cases ha; exact hnew⟩
  have hlen : (s.newTable object).heap.length = s.heap.length + 1 := by simp [newTable]
  have hstep : copyObject (fuel + 1) s (.table object) = some (s₃,.table s.heap.length) := by
    rw [copyObject,hn]
    simp only [hc.originals object ho,ht,Option.bind_eq_bind,Option.bind_some,he,Option.pure_def,hs₃]
  refine ⟨s₃,by rw [hcopyOf]; exact hstep,⟨hxall.consistent,fun i j hj => ?_,fun a ha _ => ?_,?_,fun i hi hs => ?_⟩,?_⟩
  · refine hxall.lookup i j ?_
    rw [lookup_newTable,if_neg]
    · exact hj
    · rintro rfl
      rw [hn] at hj
      cases hj
  · rw [hxall.memory a (by omega) fun he => by cases he; omega]
    exact List.getElem?_append_left ha
  · have := hxall.room
    omega
  · by_cases hio : i = object
    · rw [hio]
      exact ⟨hfinished,.root rfl⟩
    · exact hxall.added i (by rw [lookup_newTable,if_neg hio]; exact hi) hs
  · rw [hx₃.lookup object _ hf₂.known]
    exact Option.some_ne_none _

theorem copies [DecidableEq P] (hwf : heap.WellFormed) (fuel : Nat) : Copies heap fuel := by
  induction fuel with
  | zero => exact fun s v _ _ hu => absurd hu (Nat.not_lt_zero _)
  | succ fuel ih =>
    intro s v hc hv hu
    cases v with
    | plain p => exact ⟨s,by rw [copyObject]; rfl,.refl hc,fun i hi => by cases hi⟩
    | table object =>
      cases hl : s.lookupTable.lookup object with
      | some new =>
        refine ⟨s,?_,.refl hc,?_⟩
        · rw [copyObject,hl,LuaValue.rename,copyOf_eq hl]
        · rintro i ⟨⟩
          rw [hl]
          exact Option.some_ne_none _
      | none =>
        obtain ⟨s',he,hx,hk⟩ := copyObject_table hwf ih hc (hv object rfl) hl hu
        refine ⟨s',he,hx,?_⟩
        rintro i ⟨⟩
        exact hk

end Copy
end CopyState

/-- From any value in memory the call returns, with a value of the same shape: the tables
that are reached from it are new, each the copy of one that is reached from the value,
with the same entries but for copies of the tables in them, keys and values, and the same
metatable. Different tables have different copies, and different keys. Memory that was
there is as before. -/
theorem tableCopy_isomorphic [DecidableEq P] (heap : LuaHeap P) (object : LuaValue P) (fuel : Nat) (hwf : heap.WellFormed)
    (ho : ∀ i, object = .table i → i < heap.length) (hf : heap.length < fuel) :
    ∃ heap' f, tableCopy fuel heap object = some (heap',object.rename f) ∧
      (∀ i < heap.length, heap'[i]? = heap[i]?) ∧
      (∀ i, Reach heap object i → heap.length ≤ f i ∧
        ∃ t, heap[i]? = some t ∧ heap'[f i]? = some (t.rename f) ∧ ((t.rename f).entries.map Prod.fst).Nodup) ∧
      (∀ i j, Reach heap object i → Reach heap object j → f i = f j → i = j) ∧
      ∀ j, Reach heap' (object.rename f) j ↔ ∃ i, Reach heap object i ∧ f i = j := by
  have hstart : CopyState.Consistent heap ⟨heap,[]⟩ :=
    ⟨fun _ _ => rfl,Nat.le_refl _,by simp,by simp⟩
  have hu : CopyState.unvisited heap ⟨heap,[]⟩ < fuel :=
    Nat.lt_of_le_of_lt ((Finset.card_filter_le _ _).trans (Nat.le_of_eq (Finset.card_range _))) hf
  obtain ⟨s,he,hx,hk⟩ := CopyState.copies hwf fuel ⟨heap,[]⟩ object hstart ho hu
  have hfinished : ∀ i, s.lookupTable.lookup i ≠ none → CopyState.Finished heap s i := fun i hi => (hx.added i rfl hi).1
  have hknown : ∀ i, Reach heap object i → s.lookupTable.lookup i ≠ none := by
    intro i hi
    induction hi with
    | root hi => exact hk _ hi
    | entry _ ht hm hj ih =>
      obtain ⟨t,_,ht',_,_,hall⟩ := hfinished _ ih
      rw [ht] at ht'
      cases ht'
      rcases hj with hj | hj
      · exact (hall _ hm).1 _ hj
      · exact (hall _ hm).2 _ hj
  have honce : ∀ i j, Reach heap object i → Reach heap object j → s.copyOf i = s.copyOf j → i = j := by
    intro i j hi hj hij
    obtain ⟨a,ha⟩ := Option.ne_none_iff_exists'.mp (hknown i hi)
    obtain ⟨b,hb⟩ := Option.ne_none_iff_exists'.mp (hknown j hj)
    rw [CopyState.copyOf_eq ha,CopyState.copyOf_eq hb] at hij
    exact hx.consistent.once i j b (hij ▸ ha) hb
  have hcopy : ∀ i, Reach heap object i → heap.length ≤ s.copyOf i ∧ ∃ t, heap[i]? = some t ∧
      s.heap[s.copyOf i]? = some (t.rename s.copyOf) ∧ ((t.rename s.copyOf).entries.map Prod.fst).Nodup := by
    intro i hi
    obtain ⟨t,j,ht,hj,hcopy,_⟩ := hfinished i (hknown i hi)
    rw [CopyState.copyOf_eq hj]
    refine ⟨(hx.consistent.range i j hj).2.1,t,ht,hcopy,nodup_rename (hwf.keys t (List.mem_of_getElem? ht)) ?_⟩
    exact fun d hd e he a b ha hb => honce a b (.entry hi ht hd ha) (.entry hi ht he hb)
  refine ⟨s.heap,s.copyOf,?_,hx.consistent.originals,hcopy,honce,fun j => reach_rename fun i hi => ?_⟩
  · rw [tableCopy,he]
    rfl
  · obtain ⟨_,t,ht,hc,_⟩ := hcopy i hi
    exact ⟨t,ht,hc⟩

/-- Two tables that lead to each other, also through a key, and a metatable. -/
theorem tableCopy_isomorphic_cyclic : ∃ (heap' : LuaHeap Nat) (f : Nat → Nat),
    tableCopy 4 [⟨[(.table 1,.table 0),(.plain 7,.table 1)],some 2⟩,⟨[(.plain 1,.table 0)],none⟩,⟨[],none⟩] (.table 0) =
      some (heap',.table (f 0)) ∧
    3 ≤ f 0 ∧ heap'[f 0]? = some ⟨[(.table (f 1),.table (f 0)),(.plain 7,.table (f 1))],some 2⟩ := by
  obtain ⟨heap',f,he,_,hcopy,_⟩ := tableCopy_isomorphic
    [⟨[(.table 1,.table 0),(.plain 7,.table 1)],some 2⟩,⟨[(.plain 1,.table 0)],none⟩,⟨[],none⟩] (.table 0) 4
    ⟨by decide,by simp +contextual [Holds,or_imp,forall_and]⟩ (by simp) (by decide)
  obtain ⟨hge,t,ht,ht',_⟩ := hcopy 0 (.root rfl)
  cases ht
  exact ⟨heap',f,he,hge,ht'⟩

end MyProgram.Luaext
