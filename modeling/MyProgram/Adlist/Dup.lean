import Mathlib.Data.Nat.Find
import MyProgram.Adlist.Traversal

/-! Copying a list when memory or the dup function fails on the way. -/
namespace MyProgram.Adlist
open Lib DList

/-- The values that a free function is called with. -/
def freedValues (fx : List Effect) : List Value := fx.filterMap fun
  | .callFree _ value => some value
  | _ => none

/-- The values that a dup function has made. -/
def dupValues (fx : List Effect) : List Value := fx.filterMap fun
  | .callDup _ _ copy => copy.map some
  | _ => none

@[simp] theorem freedValues_append (fx fx' : List Effect) : freedValues (fx ++ fx') = freedValues fx ++ freedValues fx' :=
  List.filterMap_append

@[simp] theorem dupValues_append (fx fx' : List Effect) : dupValues (fx ++ fx') = dupValues fx ++ dupValues fx' :=
  List.filterMap_append

namespace Store

/-- In a round the dup function returns NULL or there is no memory for the node. -/
def RoundFails (s : Store) (answers : DupAnswers) (k : Nat) : Prop :=
  (s.list.dup ≠ none ∧ answers.dup k = none) ∨ answers.node k = none

instance (s : Store) (answers : DupAnswers) (k : Nat) : Decidable (s.RoundFails answers k) :=
  inferInstanceAs (Decidable (_ ∨ _))

/-- The loop ends early in this round. -/
def FailsFirst (s : Store) (l : List (Nat × Value)) (answers : DupAnswers) (k : Nat) : Prop :=
  k < l.length ∧ s.RoundFails answers k ∧ ∀ j < k, ¬ s.RoundFails answers j

/-- The call returns the copy. -/
def Completes (s : Store) (answers : DupAnswers) (fuel : Nat) : Prop :=
  ∃ s' copy fx, s.listDup answers fuel = .ok (s',some (some copy)) fx

/-- The call returns NULL: the values given to a free function are those that the dup
function made, none of them is in the list, and memory is as before. -/
def FailsClean (s : Store) (l : List (Nat × Value)) (answers : DupAnswers) (fuel : Nat) : Prop :=
  ∃ s' fx, s.listDup answers fuel = .ok (s',some none) fx ∧ (freedValues fx).Perm (dupValues fx) ∧
    (∀ v ∈ freedValues fx, v ∉ l.map (·.2)) ∧ s'.heap = s.heap ∧ ∀ a, a ∈ answers.header ∨ a ∈ answers.iter → .free a ∈ fx

/-- Nothing is wrong with giving up in this round. -/
def Spotless (s : Store) (l : List (Nat × Value)) (answers : DupAnswers) (k : Nat) : Prop :=
  match s.list.dup with
  | none => k = 0 ∨ s.list.free = none
  | some _ => answers.dup k = none ∧ (k = 0 ∨ s.list.free ≠ none ∧ ∀ j < k, answers.dup j ∉ l.map (·.2))

/-- The value a node of the copy gets. -/
def copied (s : Store) (answers : DupAnswers) (i : Nat) (value : Value) : Value :=
  if s.list.dup = none then value else answers.dup i

/-- The nodes of the copy behind some nodes of the list. -/
def copies (s : Store) (answers : DupAnswers) (seen : List (Nat × Value)) : List (Nat × Value) :=
  seen.mapIdx fun i e => ((answers.node i).getD 0,s.copied answers i e.2)

/-- The call of the dup function in a round, if there is one. -/
def dupCall (s : Store) (answers : DupAnswers) (i : Nat) (e : Nat × Value) : List Effect :=
  (s.list.dup.map fun fn => .callDup fn e.2 (answers.dup i)).toList

def dupCalls (s : Store) (answers : DupAnswers) (seen : List (Nat × Value)) : List Effect :=
  (seen.mapIdx (s.dupCall answers)).flatten

/-- What a call does that gives up in the round behind `seen`. -/
def gaveUp (s : Store) (answers : DupAnswers) (seen : List (Nat × Value)) (e : Nat × Value) (header iterAddr : Nat) : List Effect :=
  s.dupCalls answers seen ++ (s.dupCall answers seen.length e ++
    ((s.copies answers seen).flatMap s.disposals ++ [.free header,.free iterAddr]))

/-- The copy after some rounds. Memory beside it is as before. -/
structure Copying (s : Store) (answers : DupAnswers) (seen : List (Nat × Value)) (copy : Store) : Prop where
  holds : copy.Holds (s.copies answers seen)
  nodes : ∀ a ∈ (s.copies answers seen).map (·.1), ∃ i < seen.length, answers.node i = some a
  keeps : ∀ a ∉ (s.copies answers seen).map (·.1), copy.heap a = s.heap a
  dup : copy.list.dup = s.list.dup
  free : copy.list.free = s.list.free

section
variable {s copy : Store} {answers : DupAnswers} {l seen rest made : List (Nat × Value)} {e : Nat × Value} {a fuel : Nat}
  (header iterAddr : Nat)

theorem copies_concat : s.copies answers (seen ++ [e]) =
    s.copies answers seen ++ [((answers.node seen.length).getD 0,s.copied answers seen.length e.2)] := by
  rw [copies,List.mapIdx_concat]
  rfl

theorem dupCalls_concat : s.dupCalls answers (seen ++ [e]) = s.dupCalls answers seen ++ s.dupCall answers seen.length e := by
  rw [dupCalls,List.mapIdx_concat,List.flatten_append,List.flatten_singleton]
  rfl

/-- Memory after the nodes have been given back. -/
private def without (s : Store) (nodes : List Nat) : Store where
  heap a := if a ∈ nodes then none else s.heap a
  list := s.list

private theorem without_update (nodes : List Nat) :
    without { s with heap := Function.update s.heap a none } nodes = s.without (a :: nodes) := by
  simp only [without,Store.mk.injEq,and_true]
  funext b
  by_cases hb : b = a
  · subst hb
    simp
  · simp [hb]

/-- The nodes of a list are given back one by one. -/
private theorem releaseLoop_eq {p : Option Nat} (h : Seg copy.heap p made none) (hd : (made.map (·.1)).Nodup) :
    copy.releaseLoop made.length (first made none) = .ok (copy.without (made.map (·.1))) (made.flatMap copy.disposals) := by
  induction made generalizing copy p with
  | nil => simp [releaseLoop,without]
  | cons e made ih =>
    obtain ⟨hc,ht⟩ := h
    obtain ⟨he,hd⟩ := List.nodup_cons.mp hd
    have hrest : Seg (Function.update copy.heap e.1 none) (some e.1) made none := by
      refine ht.congr fun a ha => Function.update_of_ne ?_ _ _
      rintro rfl
      exact he ha
    have hstep := @ih { copy with heap := Function.update copy.heap e.1 none } _ hrest hd
    rw [without_update] at hstep
    simp only [List.length_cons,first_cons,releaseLoop,deref_eq hc,Act.bind_ok,List.flatMap_cons,disposals]
    cases copy.list.free <;> simp [hstep] <;> rfl

/-- An unfinished copy is given back as a whole. -/
private theorem abandon_spec (hc : s.Copying answers seen copy) (hfree : ∀ i < seen.length, s.Fresh (answers.node i)) :
    ∃ copy', copy.abandon header iterAddr =
      .ok (copy',some none) ((s.copies answers seen).flatMap s.disposals ++ [Effect.free header,.free iterAddr]) ∧ copy'.heap = s.heap := by
  have hdisposals : copy.disposals = s.disposals := by
    funext e
    rw [disposals,disposals,hc.free]
  have hrelease := releaseLoop_eq hc.holds.seg hc.holds.distinct
  rw [← hc.holds.len,← hc.holds.head,hdisposals] at hrelease
  refine ⟨copy.without ((s.copies answers seen).map (·.1)),?_,?_⟩
  · simp [abandon,listRelease,hrelease]
  · funext a
    change (if a ∈ _ then none else copy.heap a) = s.heap a
    split
    · rename_i ha
      obtain ⟨i,hi,hn⟩ := hc.nodes a ha
      exact (hfree i hi a hn).2.2.symm
    · rename_i ha
      exact hc.keeps a ha

private theorem dupValue_eq (hd : copy.list.dup = s.list.dup) (i : Nat) (e : Nat × Value) : copy.dupValue answers i e.2 =
    .ok (s.copied answers i e.2,decide (s.list.dup ≠ none ∧ answers.dup i = none)) (s.dupCall answers i e) := by
  rw [dupValue,hd,dupCall,copied]
  cases s.list.dup <;> simp

/-- The node the iterator stands at is still as it was, and so is its neighbour. -/
private theorem Copying.listNext_eq (hc : s.Copying answers seen copy) (h : s.Holds (seen ++ e :: rest))
    (hfree : ∀ i < seen.length, s.Fresh (answers.node i)) :
    copy.heap e.1 = some ⟨last seen none,first rest none,e.2⟩ ∧
    copy.listNext (some ⟨some e.1,AL_START_HEAD⟩) = .ok (some e.1,⟨first rest none,AL_START_HEAD⟩) [] := by
  have hcell : copy.heap e.1 = some ⟨last seen none,first rest none,e.2⟩ := by
    refine (hc.keeps e.1 fun hm => ?_).trans h.cell
    obtain ⟨i,hi,hn⟩ := hc.nodes e.1 hm
    have hnone := (hfree i hi e.1 hn).2.2
    rw [h.cell] at hnone
    cases hnone
  refine ⟨hcell,?_⟩
  simp only [listNext,deref_eq hcell,Act.bind_ok,Act.after_nil,if_true]
  rfl

/-- What a round does on a copy. -/
private theorem dupLoop_round (hc : s.Copying answers seen copy) (h : s.Holds (seen ++ e :: rest))
    (hfree : ∀ i < seen.length, s.Fresh (answers.node i)) :
    dupLoop answers header iterAddr (fuel + 1) copy (some ⟨some e.1,AL_START_HEAD⟩) seen.length =
      (if s.list.dup ≠ none ∧ answers.dup seen.length = none then copy.abandon header iterAddr
      else do
        let (copy,ok) ← copy.listAddNodeTail (s.copied answers seen.length e.2) (answers.node seen.length)
        if ok then dupLoop answers header iterAddr fuel copy (some ⟨first rest none,AL_START_HEAD⟩) (seen.length + 1)
        else copy.abandon header iterAddr).after (s.dupCall answers seen.length e) := by
  obtain ⟨hcell,hnext⟩ := hc.listNext_eq h hfree
  rw [dupLoop]
  simp only [hnext,Act.bind_ok,Act.after_nil,deref_eq hcell,dupValue_eq hc.dup seen.length e,decide_eq_true_eq]

private theorem dupLoop_failed (hc : s.Copying answers seen copy) (h : s.Holds (seen ++ e :: rest))
    (hfree : ∀ i < seen.length, s.Fresh (answers.node i)) (hr : s.RoundFails answers seen.length) :
    dupLoop answers header iterAddr (fuel + 1) copy (some ⟨some e.1,AL_START_HEAD⟩) seen.length =
      (copy.abandon header iterAddr).after (s.dupCall answers seen.length e) := by
  rw [dupLoop_round header iterAddr hc h hfree]
  split
  · rfl
  · rename_i hd
    have hn : answers.node seen.length = none := hr.resolve_left hd
    simp only [hn,listAddNodeTail,Act.pure_eq,Act.bind_ok,Act.after_nil,Bool.false_eq_true,if_false]

private theorem dupLoop_added (hc : s.Copying answers seen copy) (h : s.Holds (seen ++ e :: rest))
    (hfree : ∀ i ≤ seen.length, s.Fresh (answers.node i)) (hne : ∀ i < seen.length, answers.node i ≠ answers.node seen.length)
    (hr : ¬ s.RoundFails answers seen.length) :
    ∃ copy', s.Copying answers (seen ++ [e]) copy' ∧ ∀ fuel,
      dupLoop answers header iterAddr (fuel + 1) copy (some ⟨some e.1,AL_START_HEAD⟩) seen.length =
        (dupLoop answers header iterAddr fuel copy' (some ⟨first rest none,AL_START_HEAD⟩) (seen.length + 1)).after
          (s.dupCall answers seen.length e) := by
  obtain ⟨hd,hn⟩ := not_or.mp hr
  obtain ⟨a,ha⟩ := Option.ne_none_iff_exists'.mp hn
  have hfresh := hfree seen.length (Nat.le_refl _) a ha
  have hout : a ∉ (s.copies answers seen).map (·.1) := by
    intro hm
    obtain ⟨i,hi,hi'⟩ := hc.nodes a hm
    exact hne i hi (hi'.trans ha.symm)
  have hnew : copy.heap a = none := (hc.keeps a hout).trans hfresh.2.2
  obtain ⟨copy',he,hh,hk,hdup,hf⟩ := addNodeTail_spec hc.holds ⟨hfresh.1,hfresh.2.1,hnew⟩ (s.copied answers seen.length e.2)
  have hcopies : s.copies answers (seen ++ [e]) = s.copies answers seen ++ [(a,s.copied answers seen.length e.2)] := by
    rw [copies_concat,ha]
    rfl
  refine ⟨copy',⟨hcopies ▸ hh,fun b hb => ?_,fun b hb => ?_,hdup.trans hc.dup,hf.trans hc.free⟩,fun fuel => ?_⟩
  · rw [hcopies,List.map_append,List.mem_append] at hb
    rw [List.length_append,List.length_singleton]
    rcases hb with hb | hb
    · obtain ⟨i,hi,hi'⟩ := hc.nodes b hb
      exact ⟨i,by omega,hi'⟩
    · obtain rfl : b = a := by simpa using hb
      exact ⟨seen.length,by omega,ha⟩
  · rw [hcopies] at hb
    refine (hk b hb).trans (hc.keeps b fun hm => hb ?_)
    rw [List.map_append]
    exact List.mem_append_left _ hm
  · rw [dupLoop_round header iterAddr hc h fun i hi => hfree i (Nat.le_of_lt hi),if_neg hd,ha,he]
    simp only [Act.bind_ok,Act.after_nil,if_true]

/-- What the loop has done after some rounds that went well. -/
private theorem dupLoop_rounds (h : s.Holds (seen ++ rest)) (hfree : ∀ i < (seen ++ rest).length, s.Fresh (answers.node i))
    (hne : ∀ i j, i < j → j < (seen ++ rest).length → answers.node j ≠ none → answers.node i ≠ answers.node j)
    (ho : ∀ j < seen.length, ¬ s.RoundFails answers j) (hc : s.Copying answers [] copy) :
    ∃ copy', s.Copying answers seen copy' ∧ ∀ fuel,
      dupLoop answers header iterAddr (fuel + seen.length) copy (some ⟨first (seen ++ rest) none,AL_START_HEAD⟩) 0 =
        (dupLoop answers header iterAddr fuel copy' (some ⟨first rest none,AL_START_HEAD⟩) seen.length).after (s.dupCalls answers seen) := by
  induction seen using List.reverseRecOn generalizing rest with
  | nil => exact ⟨copy,hc,fun fuel => (Act.after_nil _).symm⟩
  | append_singleton seen e ih =>
    rw [List.append_assoc,List.singleton_append] at h hfree hne
    rw [List.length_append,List.length_singleton] at ho
    obtain ⟨copy₁,hc₁,he₁⟩ := ih h hfree hne fun j hj => ho j (by omega)
    have hlen : seen.length < (seen ++ e :: rest).length := by simp
    have hlast := ho seen.length (by omega)
    obtain ⟨copy₂,hc₂,he₂⟩ := dupLoop_added header iterAddr hc₁ h (fun i hi => hfree i (by omega))
      (fun i hi => hne i seen.length hi hlen fun hn => hlast (Or.inr hn)) hlast
    refine ⟨copy₂,hc₂,fun fuel => ?_⟩
    rw [List.append_assoc,List.singleton_append,List.length_append,List.length_singleton,← Nat.add_assoc,Nat.add_right_comm,he₁,
      first_cons,he₂,Act.after_after,dupCalls_concat]

private theorem copying_nil (list : AList) (hlist : list.head = none ∧ list.tail = none ∧ list.len = 0)
    (hd : list.dup = s.list.dup) (hf : list.free = s.list.free) : s.Copying answers [] { s with list := list } :=
  ⟨⟨trivial,hlist.1,hlist.2.1,hlist.2.2,List.nodup_nil,by simp [copies]⟩,by simp [copies],fun _ _ => rfl,hd,hf⟩

/-- A call that gets a header and an iterator is the loop. -/
private theorem listDup_eq (fuel : Nat) (hh : answers.header = some header) (hi : answers.iter = some iterAddr) (h : s.Holds l) :
    ∃ copy, s.Copying answers [] copy ∧
      s.listDup answers fuel = dupLoop answers header iterAddr fuel copy (some ⟨first l none,AL_START_HEAD⟩) 0 := by
  refine ⟨{ s with list := ⟨none,none,s.list.dup,s.list.free,s.list.matchFn,0⟩ },copying_nil _ ⟨rfl,rfl,rfl⟩ rfl rfl,?_⟩
  rw [listDup,hh]
  simp only [listCreate,Option.map_some,hi,Option.getD_some,listGetIterator,if_true,h.head]

section Rounds
variable (h : s.Holds l) (hfree : ∀ i < l.length, s.Fresh (answers.node i))
  (hne : ∀ i j, i < j → j < l.length → answers.node j ≠ none → answers.node i ≠ answers.node j) (hfuel : l.length < fuel)
include h hfree hne hfuel

private theorem listDup_completes (hh : answers.header = some header) (hi : answers.iter = some iterAddr)
    (ho : ∀ j < l.length, ¬ s.RoundFails answers j) : s.Completes answers fuel := by
  obtain ⟨copy,hc,he⟩ := listDup_eq header iterAddr fuel hh hi h
  have hl : l = l ++ [] := (List.append_nil l).symm
  obtain ⟨copy',hc',he'⟩ := dupLoop_rounds header iterAddr (hl ▸ h) (hl ▸ hfree) (hl ▸ hne) ho hc
  obtain ⟨fuel,rfl⟩ : ∃ k, fuel = k + 1 + l.length := ⟨fuel - 1 - l.length,by omega⟩
  refine ⟨copy',header,s.dupCalls answers l ++ [Effect.free iterAddr],?_⟩
  have hrun := he' (fuel + 1)
  rw [List.append_nil] at hrun
  rw [he,hrun]
  simp [dupLoop,listNext]

private theorem listDup_failed (hh : answers.header = some header) (hi : answers.iter = some iterAddr) (hl : l = seen ++ e :: rest)
    (hr : s.RoundFails answers seen.length) (ho : ∀ j < seen.length, ¬ s.RoundFails answers j) :
    ∃ s', s.listDup answers fuel = .ok (s',some none) (s.gaveUp answers seen e header iterAddr) ∧ s'.heap = s.heap := by
  obtain ⟨copy,hc,he⟩ := listDup_eq header iterAddr fuel hh hi h
  subst hl
  have hlen : seen.length < (seen ++ e :: rest).length := by simp
  have hseen : ∀ i < seen.length, s.Fresh (answers.node i) := fun i hi => hfree i (by omega)
  obtain ⟨copy',hc',he'⟩ := dupLoop_rounds header iterAddr h hfree hne ho hc
  obtain ⟨s',hs',hheap⟩ := abandon_spec header iterAddr hc' hseen
  obtain ⟨fuel,rfl⟩ : ∃ k, fuel = k + 1 + seen.length := ⟨fuel - 1 - seen.length,by omega⟩
  refine ⟨s',?_,hheap⟩
  rw [he,he',first_cons,dupLoop_failed header iterAddr hc' h hseen hr,hs',Act.after_after,Act.after_ok,List.append_assoc,gaveUp]

end Rounds

private theorem freedValues_disposals (made : List (Nat × Value)) :
    freedValues (made.flatMap s.disposals) = if s.list.free = none then [] else made.map (·.2) := by
  induction made with
  | nil => simp [freedValues]
  | cons e made ih =>
    rw [List.flatMap_cons,freedValues_append,ih,disposals]
    cases s.list.free <;> simp [freedValues]

private theorem dupValues_disposals (made : List (Nat × Value)) : dupValues (made.flatMap s.disposals) = [] := by
  induction made with
  | nil => rfl
  | cons e made ih =>
    rw [List.flatMap_cons,dupValues_append,ih,disposals]
    cases s.list.free <;> rfl

private theorem freedValues_dupCall (i : Nat) (e : Nat × Value) : freedValues (s.dupCall answers i e) = [] := by
  rw [dupCall]
  cases s.list.dup <;> rfl

private theorem dupValues_dupCall (i : Nat) (e : Nat × Value) :
    dupValues (s.dupCall answers i e) = if s.list.dup = none then [] else ((answers.dup i).map some).toList := by
  rw [dupCall]
  cases s.list.dup with
  | none => rfl
  | some fn => cases hd : answers.dup i <;> simp [dupValues]

private theorem freedValues_dupCalls (seen : List (Nat × Value)) : freedValues (s.dupCalls answers seen) = [] := by
  induction seen using List.reverseRecOn with
  | nil => rfl
  | append_singleton seen e ih => rw [dupCalls_concat,freedValues_append,ih,freedValues_dupCall,List.append_nil]

/-- As long as the rounds go well the values made are those of the copy. -/
private theorem dupValues_dupCalls (ho : ∀ j < seen.length, ¬ s.RoundFails answers j) :
    dupValues (s.dupCalls answers seen) = if s.list.dup = none then [] else (s.copies answers seen).map (·.2) := by
  induction seen using List.reverseRecOn with
  | nil => simp [dupCalls,copies,dupValues]
  | append_singleton seen e ih =>
    rw [List.length_append,List.length_singleton] at ho
    rw [dupCalls_concat,dupValues_append,ih fun j hj => ho j (by omega),dupValues_dupCall,copies_concat]
    split
    · rfl
    · rename_i hd
      have hsome : answers.dup seen.length ≠ none := fun hn => ho seen.length (by omega) (Or.inl ⟨hd,hn⟩)
      obtain ⟨v,hv⟩ := Option.ne_none_iff_exists'.mp hsome
      simp [copied,hd,hv]

private theorem mem_copies (hd : s.list.dup ≠ none) {v : Value} :
    v ∈ (s.copies answers seen).map (·.2) ↔ ∃ j < seen.length, answers.dup j = v := by
  simp [copies,List.mem_mapIdx,copied,hd]

private theorem freedValues_gaveUp : freedValues (s.gaveUp answers seen e header iterAddr) =
    if s.list.free = none then [] else (s.copies answers seen).map (·.2) := by
  rw [gaveUp,freedValues_append,freedValues_append,freedValues_append,freedValues_dupCalls,freedValues_dupCall,freedValues_disposals]
  exact List.append_nil _

private theorem dupValues_gaveUp (ho : ∀ j < seen.length, ¬ s.RoundFails answers j) :
    dupValues (s.gaveUp answers seen e header iterAddr) = if s.list.dup = none then [] else
      (s.copies answers seen).map (·.2) ++ ((answers.dup seen.length).map some).toList := by
  rw [gaveUp,dupValues_append,dupValues_append,dupValues_append,dupValues_dupCalls ho,dupValues_dupCall,dupValues_disposals]
  split <;> simp [dupValues]

private theorem length_copies (s : Store) (answers : DupAnswers) (seen : List (Nat × Value)) : ((s.copies answers seen).map (·.2)).length = seen.length := by
  simp [copies]

/-- Without a dup function the values in the copy are not the copy's own. -/
private theorem shared_iff (hd : s.list.dup = none) :
    ((if s.list.free = none then [] else (s.copies answers seen).map (·.2)).Perm [] ∧
      ∀ v ∈ if s.list.free = none then [] else (s.copies answers seen).map (·.2), v ∉ l.map (·.2)) ↔
    s.Spotless l answers seen.length := by
  have hlen := s.length_copies answers seen
  rw [Spotless,hd,List.perm_nil]
  by_cases hf : s.list.free = none
  · simp [hf]
  · rw [if_neg hf,← List.length_eq_zero_iff,hlen]
    constructor
    · exact fun hk => Or.inl hk.1
    · intro hk
      have hk := hk.resolve_right hf
      refine ⟨hk,fun v hv => ?_⟩
      rw [List.length_eq_zero_iff.mp (hlen.trans hk)] at hv
      cases hv

/-- With a dup function they are, unless one was made that has no node. -/
private theorem duplicated_iff (hd : s.list.dup ≠ none) :
    ((if s.list.free = none then [] else (s.copies answers seen).map (·.2)).Perm
        ((s.copies answers seen).map (·.2) ++ ((answers.dup seen.length).map some).toList) ∧
      ∀ v ∈ if s.list.free = none then [] else (s.copies answers seen).map (·.2), v ∉ l.map (·.2)) ↔
    s.Spotless l answers seen.length := by
  have hlen := s.length_copies answers seen
  obtain ⟨fn,hfn⟩ := Option.ne_none_iff_exists'.mp hd
  rw [Spotless,hfn]
  by_cases hf : s.list.free = none
  · rw [if_pos hf,List.nil_perm,List.append_eq_nil_iff,← List.length_eq_zero_iff,hlen]
    cases answers.dup seen.length <;> simp [hf]
  rw [if_neg hf]
  have hperm : ((s.copies answers seen).map (·.2)).Perm ((s.copies answers seen).map (·.2) ++
      ((answers.dup seen.length).map some).toList) ↔ answers.dup seen.length = none := by
    constructor
    · intro hp
      have hp := hp.length_eq
      rw [List.length_append] at hp
      cases hk : answers.dup seen.length with
      | none => rfl
      | some v => simp [hk] at hp
    · intro hk
      rw [hk]
      simp
  rw [hperm]
  refine and_congr_right fun _ => ?_
  constructor
  · exact fun hv => Or.inr ⟨hf,fun j hj => hv _ ((mem_copies hd).mpr ⟨j,hj,rfl⟩)⟩
  · intro hk v hv
    obtain ⟨j,hj,rfl⟩ := (mem_copies hd).mp hv
    rcases hk with hk | hk
    · omega
    · exact hk.2 j hj

/-- When a call that has given up has done so cleanly. -/
private theorem clean_iff_spotless {s' : Store} (hh : answers.header = some header) (hi : answers.iter = some iterAddr)
    (ho : ∀ j < seen.length, ¬ s.RoundFails answers j)
    (he : s.listDup answers fuel = .ok (s',some none) (s.gaveUp answers seen e header iterAddr)) (hheap : s'.heap = s.heap) :
    s.FailsClean l answers fuel ↔ s.Spotless l answers seen.length := by
  have hvalues : s.FailsClean l answers fuel ↔ (freedValues (s.gaveUp answers seen e header iterAddr)).Perm
      (dupValues (s.gaveUp answers seen e header iterAddr)) ∧
      ∀ v ∈ freedValues (s.gaveUp answers seen e header iterAddr), v ∉ l.map (·.2) := by
    constructor
    · rintro ⟨s₁,fx₁,he₁,hp,hv,_⟩
      rw [he] at he₁
      cases he₁
      exact ⟨hp,hv⟩
    · rintro ⟨hp,hv⟩
      refine ⟨s',_,he,hp,hv,hheap,?_⟩
      rintro a (ha | ha)
      · obtain rfl : header = a := Option.some.inj (hh.symm.trans ha)
        simp [gaveUp]
      · obtain rfl : iterAddr = a := Option.some.inj (hi.symm.trans ha)
        simp [gaveUp]
  rw [hvalues,freedValues_gaveUp,dupValues_gaveUp header iterAddr ho]
  by_cases hd : s.list.dup = none
  · rw [if_pos hd]
    exact shared_iff hd
  · rw [if_neg hd]
    exact duplicated_iff hd

private theorem FailsFirst.unique {j k : Nat} (hj : s.FailsFirst l answers j) (hk : s.FailsFirst l answers k) : j = k := by
  rcases Nat.lt_trichotomy j k with h | h | h
  · exact absurd hj.2.1 (hk.2.2 j h)
  · exact h
  · exact absurd hk.2.1 (hj.2.2 k h)

private theorem FailsFirst.of_exists (h : ∃ k < l.length, s.RoundFails answers k) : ∃ k, s.FailsFirst l answers k :=
  ⟨Nat.find h,(Nat.find_spec h).1,(Nat.find_spec h).2,fun _ hj hr =>
    Nat.find_min h hj ⟨Nat.lt_trans hj (Nat.find_spec h).1,hr⟩⟩

/-- The first round that fails decides. -/
private theorem clean_at_first {k : Nat} (h : s.Holds l) (hfree : ∀ i < l.length, s.Fresh (answers.node i))
    (hne : ∀ i j, i < j → j < l.length → answers.node j ≠ none → answers.node i ≠ answers.node j) (hfuel : l.length < fuel)
    (hh : answers.header = some header) (hi : answers.iter = some iterAddr) (hk : s.FailsFirst l answers k) :
    ¬ s.Completes answers fuel ∧ (s.FailsClean l answers fuel ↔ s.Spotless l answers k) := by
  obtain ⟨hlt,hr,ho⟩ := hk
  obtain ⟨seen,e,rest,hl,rfl⟩ : ∃ seen e rest, l = seen ++ e :: rest ∧ seen.length = k :=
    ⟨l.take k,l[k],l.drop (k + 1),by simp,by rw [List.length_take]; omega⟩
  obtain ⟨s',he,hheap⟩ := listDup_failed header iterAddr h hfree hne hfuel hh hi hl hr ho
  refine ⟨?_,clean_iff_spotless header iterAddr hh hi ho he hheap⟩
  rintro ⟨s₁,copy,fx,hs⟩
  rw [he] at hs
  cases hs

/-- A call that returns neither a list nor NULL. -/
private theorem no_answer (he : ∀ s' r fx, s.listDup answers fuel ≠ .ok (s',some r) fx) :
    ¬ (¬ s.Completes answers fuel → s.FailsClean l answers fuel) := by
  intro hs
  obtain ⟨s',fx,hf,_⟩ := hs fun ⟨s',copy,fx,hc⟩ => he s' (some copy) fx hc
  exact he s' none fx hf

end

/-- A call that does not return the copy fails cleanly exactly when the header and the
iterator get memory and the first round that fails leaves nothing behind: with a dup
function, that returned NULL itself, in the first round or behind values that the free
function takes and the list does not have; without one, in the first round or without
a free function. -/
theorem listDup_fails_clean_iff (s : Store) (l : List (Nat × Value)) (answers : DupAnswers) (fuel : Nat) (h : s.Holds l)
    (hfree : ∀ i < l.length, s.Fresh (answers.node i))
    (hne : ∀ i j, i < j → j < l.length → answers.node j ≠ none → answers.node i ≠ answers.node j) (hfuel : l.length < fuel) :
    (¬ s.Completes answers fuel → s.FailsClean l answers fuel) ↔
      answers.header ≠ none ∧ answers.iter ≠ none ∧ ∀ k, s.FailsFirst l answers k → s.Spotless l answers k := by
  cases hh : answers.header with
  | none =>
    have he : s.listDup answers fuel = .ok (s,none) [] := by rw [listDup,hh]; rfl
    exact iff_of_false (no_answer fun s' r fx hs => by rw [he] at hs; cases hs) (by simp)
  | some header =>
    cases hi : answers.iter with
    | none =>
      obtain ⟨fuel,rfl⟩ : ∃ k, fuel = k + 1 := ⟨fuel - 1,by omega⟩
      have he : s.listDup answers (fuel + 1) = .fail .nullDereference .listNext := by rw [listDup,hh,hi]; rfl
      exact iff_of_false (no_answer fun s' r fx hs => by rw [he] at hs; cases hs) (by simp)
    | some iterAddr =>
      by_cases hk : ∃ k < l.length, s.RoundFails answers k
      · obtain ⟨k,hk⟩ := FailsFirst.of_exists hk
        obtain ⟨hc,hiff⟩ := clean_at_first header iterAddr h hfree hne hfuel hh hi hk
        rw [hiff]
        constructor
        · intro hs
          refine ⟨by simp,by simp,fun j hj => ?_⟩
          rw [hj.unique hk]
          exact hs hc
        · exact fun hs _ => hs.2.2 k hk
      · have hc := listDup_completes header iterAddr h hfree hne hfuel hh hi fun j hj hr => hk ⟨j,hj,hr⟩
        constructor
        · exact fun _ => ⟨by simp,by simp,fun k hf => absurd ⟨k,hf.1,hf.2.1⟩ hk⟩
        · exact fun _ hn => absurd hc hn

/-- Without a free function the shared values may stay where they are. -/
theorem listDup_fails_clean_shared :
    threeNodes.FailsClean [(10,some 1),(20,some 2),(30,some 3)] ⟨some 1,some 2,fun _ => none,fun i => if i = 0 then some 100 else none⟩ 4 := by
  have hcheck : (threeNodes.listDup ⟨some 1,some 2,fun _ => none,fun i => if i = 0 then some 100 else none⟩ 4).holds
      fun r _ => r.2 = some none := by decide
  refine (listDup_fails_clean_iff threeNodes _ _ 4 threeNodes_holds (by decide) ?_ (by decide)).mpr
    ⟨by simp,by simp,fun k _ => Or.inr rfl⟩ ?_
  · intro i j hij hj hn
    exact absurd (if_neg (by omega)) hn
  · rintro ⟨s',copy,fx,he⟩
    rw [he] at hcheck
    exact absurd hcheck (by simp [Act.holds])

/-- Without memory for the iterator a NULL pointer is read; with a free function and no dup
function the values of the list itself are freed. -/
theorem listDup_fails_dirty :
    ¬ (¬ threeNodes.Completes ⟨some 1,none,fun _ => none,fun _ => none⟩ 4 →
      threeNodes.FailsClean [(10,some 1),(20,some 2),(30,some 3)] ⟨some 1,none,fun _ => none,fun _ => none⟩ 4) ∧
    threeNodes.listDup ⟨some 1,none,fun _ => none,fun _ => none⟩ 4 = .fail .nullDereference .listNext ∧
    (({ threeNodes with list := { threeNodes.list with free := some 7 } } : Store).listDup
      ⟨some 1,some 2,fun _ => none,fun i => if i = 0 then some 100 else none⟩ 4).holds
        (fun r fx => r.2 = some none ∧ some 1 ∈ freedValues fx) = true := by
  have he : threeNodes.listDup ⟨some 1,none,fun _ => none,fun _ => none⟩ 4 = .fail .nullDereference .listNext := rfl
  refine ⟨no_answer fun s' r fx hs => ?_,he,by decide⟩
  rw [he] at hs
  cases hs

end Store
end MyProgram.Adlist
