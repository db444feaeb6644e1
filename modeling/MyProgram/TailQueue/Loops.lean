import MyProgram.TailQueue.Refinement

/-! The two loops over a tail queue, with bodies that take elements out of it. -/
namespace MyProgram.TailQueue
open Lib TailList

/-- A loop body that removes the element it is at, for some elements. -/
def removeIf (h : Nat) (p : Nat → Bool) (m : Mem) (a : Nat) : TqM Mem := if p a = true then m.tailqRemove h a else pure m

/-- The same, and the element is given back. -/
def releaseIf (h : Nat) (p : Nat → Bool) (m : Mem) (a : Nat) : TqM Mem :=
  if p a = true then do
    let m ← m.tailqRemove h a
    pure (m.free a)
  else pure m

namespace Mem
variable {m : Mem} {s : Queues} {h a fuel : Nat} {l r : List Nat} {p : Nat → Bool}
  {succ : Mem → Nat → TqM (Option Nat)} {body : Mem → Nat → TqM Mem}

private theorem setList_setList (s : Queues) (h : Nat) (l r : List Nat) : (s.setList h l).setList h r = s.setList h r := by
  rw [Queues.setList,Queues.setList,Queues.setList,Function.update_idem]

private theorem setList_self (hl : s.list h = l) : s.setList h l = s := by
  rw [Queues.setList,← hl,Function.update_eq_self]

private theorem list_setList_self (s : Queues) (h : Nat) (l : List Nat) : (s.setList h l).list h = l := Function.update_self _ _ _

private theorem foreachLoop_step {m₁ : Mem} {q : Option Nat} (hb : body m a = .ok m₁ []) (hs : succ m₁ a = .ok q []) :
    foreachLoop succ body (fuel + 1) m (some a) = (foreachLoop succ body fuel m₁ q).after [a] := by
  rw [foreachLoop,Act.emit_eq,Act.bind_ok,hb,Act.bind_ok,Act.after_nil,hs,Act.bind_ok,Act.after_nil]

/-- The body at an element of the queue, and where the loop goes from there: the words
of the element are what they were. -/
private theorem removeIf_spec (hm : m.Holds s) (hh : h ∈ s.heads) (hl : s.list h = l ++ a :: r) (p : Nat → Bool) :
    ∃ m', removeIf h p m a = .ok m' [] ∧ m'.Holds (s.setList h (l ++ [a].filter (!p ·) ++ r)) ∧
      m'.tailqNext a = .ok r.head? [] ∧ m'.tailqPrev a = .ok l.getLast? [] := by
  by_cases hp : p a = true
  · obtain ⟨m',he,hm',hlive,hfirst,hlast⟩ := hm.remove_spec hh hl
    have ha : m'.live (.elem a) = true := by
      rw [hlive]
      exact (hm.words hh hl).1
    refine ⟨m',?_,?_,readFirst_eq ha hfirst,hm'.tailqPrev_eq hh (list_setList_self s h (l ++ r)) ha hlast⟩
    · rw [removeIf,if_pos hp,he]
    · simpa [hp] using hm'
  · obtain ⟨ha,hfirst,hlast⟩ := hm.words hh hl
    refine ⟨m,if_neg hp,?_,readFirst_eq ha hfirst,hm.tailqPrev_eq hh hl ha hlast⟩
    rw [setList_self (by simp [hl,hp])]
    exact hm

/-- Behind the elements that stayed, the loop goes through the rest. -/
private theorem foreachLoop_next (p : Nat → Bool) (hm : m.Holds s) (hh : h ∈ s.heads) (hl : s.list h = l ++ r) (hf : r.length ≤ fuel) :
    ∃ m', foreachLoop tailqNext (removeIf h p) fuel m r.head? = .ok m' r ∧ m'.Holds (s.setList h (l ++ r.filter (!p ·))) := by
  induction r generalizing m s l fuel with
  | nil =>
    refine ⟨m,by cases fuel <;> rfl,?_⟩
    rw [List.filter_nil,← hl,setList_self rfl]
    exact hm
  | cons a r ih =>
    obtain ⟨fuel,rfl⟩ := Nat.exists_eq_succ_of_ne_zero (Nat.ne_of_gt (Nat.lt_of_lt_of_le (Nat.succ_pos _) hf))
    obtain ⟨m₁,hb,hm₁,hnext,_⟩ := removeIf_spec hm hh hl p
    obtain ⟨m',he,hm'⟩ := ih hm₁ hh (list_setList_self _ _ _) (Nat.le_of_succ_le_succ hf)
    refine ⟨m',?_,?_⟩
    · rw [List.head?_cons,foreachLoop_step hb hnext,he,Act.after_ok,List.singleton_append]
    · rw [setList_setList,List.append_assoc,← List.filter_append] at hm'
      exact hm'

private theorem foreachLoop_prev (p : Nat → Bool) (hm : m.Holds s) (hh : h ∈ s.heads) (hl : s.list h = l ++ r) (hf : l.length ≤ fuel) :
    ∃ m', foreachLoop tailqPrev (removeIf h p) fuel m l.getLast? = .ok m' l.reverse ∧
      m'.Holds (s.setList h (l.filter (!p ·) ++ r)) := by
  induction l using List.reverseRecOn generalizing m s r fuel with
  | nil =>
    refine ⟨m,by cases fuel <;> rfl,?_⟩
    rw [List.filter_nil,← hl,setList_self rfl]
    exact hm
  | append_singleton l a ih =>
    rw [List.length_append] at hf
    obtain ⟨fuel,rfl⟩ := Nat.exists_eq_succ_of_ne_zero (Nat.ne_of_gt (Nat.lt_of_lt_of_le (Nat.succ_pos _) hf))
    obtain ⟨m₁,hb,hm₁,_,hprev⟩ := removeIf_spec hm hh (hl.trans (List.append_cons l a r).symm) p
    rw [List.append_assoc] at hm₁
    obtain ⟨m',he,hm'⟩ := ih hm₁ hh (list_setList_self _ _ _) (Nat.le_of_succ_le_succ hf)
    refine ⟨m',?_,?_⟩
    · rw [List.getLast?_concat,foreachLoop_step hb hprev,he,Act.after_ok,List.reverse_append]
      rfl
    · rw [setList_setList,← List.append_assoc,← List.filter_append] at hm'
      exact hm'

private theorem releaseIf_eq (hm : m.Holds s) (hh : h ∈ s.heads) (hl : s.list h = l ++ a :: r) (hp : p a = true) :
    ∃ m', releaseIf h p m a = .ok m' [] ∧ m'.live (.elem a) = false := by
  obtain ⟨m',he,_⟩ := hm.remove_spec hh hl
  refine ⟨m'.free a,?_,Function.update_self _ _ _⟩
  rw [releaseIf,if_pos hp,he]
  rfl

/-- The links of a released element cannot be read. -/
private theorem foreachLoop_released {site : Site} {q : Option Nat} (hm : m.Holds s) (hh : h ∈ s.heads)
    (hl : s.list h = l ++ a :: r) (hp : p a = true) (hs : ∀ m : Mem, m.live (.elem a) = false → succ m a = .fail .outOfBounds site)
    (hq : q = some a) : foreachLoop succ (releaseIf h p) (fuel + 1) m q = .fail .outOfBounds site := by
  obtain ⟨m',hb,hlive⟩ := releaseIf_eq hm hh hl hp
  rw [hq,foreachLoop,Act.emit_eq,Act.bind_ok,hb,Act.bind_ok,Act.after_nil,hs m' hlive]
  rfl

private theorem foreachLoop_release_next (hm : m.Holds s) (hh : h ∈ s.heads) (hl : s.list h = l ++ r) (hf : r.length ≤ fuel)
    (ha : a ∈ r) (hp : p a = true) : foreachLoop tailqNext (releaseIf h p) fuel m r.head? = .fail .outOfBounds .next := by
  induction r generalizing l fuel with
  | nil => cases ha
  | cons b r ih =>
    obtain ⟨fuel,rfl⟩ := Nat.exists_eq_succ_of_ne_zero (Nat.ne_of_gt (Nat.lt_of_lt_of_le (Nat.succ_pos _) hf))
    by_cases hb : p b = true
    · exact foreachLoop_released hm hh hl hb (fun m hlive => by simp [tailqNext,readFirst,access,hlive]) rfl
    · have hne : a ≠ b := by
        rintro rfl
        exact hb hp
      have hnext : m.tailqNext b = .ok r.head? [] := ((hm.represents hh).neighbours l b r hl).1
      rw [List.head?_cons,foreachLoop_step (if_neg hb) hnext,
        ih (hl.trans (List.append_cons l b r)) (Nat.le_of_succ_le_succ hf) ((List.mem_cons.mp ha).resolve_left hne)]
      rfl

private theorem foreachLoop_release_prev (hm : m.Holds s) (hh : h ∈ s.heads) (hl : s.list h = l ++ r) (hf : l.length ≤ fuel)
    (ha : a ∈ l) (hp : p a = true) : foreachLoop tailqPrev (releaseIf h p) fuel m l.getLast? = .fail .outOfBounds .prev := by
  induction l using List.reverseRecOn generalizing r fuel with
  | nil => cases ha
  | append_singleton l b ih =>
    rw [List.length_append] at hf
    obtain ⟨fuel,rfl⟩ := Nat.exists_eq_succ_of_ne_zero (Nat.ne_of_gt (Nat.lt_of_lt_of_le (Nat.succ_pos _) hf))
    have hl' := hl.trans (List.append_cons l b r).symm
    by_cases hb : p b = true
    · exact foreachLoop_released hm hh hl' hb (fun m hlive => by simp [tailqPrev,readLast,access,hlive]) List.getLast?_concat
    · have hal : a ∈ l := by
        rcases List.mem_append.mp ha with ha | ha
        · exact ha
        · rw [List.mem_singleton.mp ha] at hp
          exact absurd hp hb
      have hprev : m.tailqPrev b = .ok l.getLast? [] := ((hm.represents hh).neighbours l b r hl').2
      rw [List.getLast?_concat,foreachLoop_step (if_neg hb) hprev,ih hl' (Nat.le_of_succ_le_succ hf) hal]
      rfl

end Mem
open Mem

/-- In every reachable state `TAILQ_FOREACH` visits the elements of a queue in order and
`TAILQ_FOREACH_REVERSE` in reverse order, each once and with enough steps for its
length, also when the body removes some of the elements it is at; the others stay and
no other queue changes. When the body also frees such an element, both loops
read its links behind that. -/
theorem foreach_removes (m₀ : Mem) (tr : Trace TqOp Nat) (m : Mem) (h fuel : Nat) (p : Nat → Bool) (h₀ : ∀ x, m₀.live x = false)
    (hr : Run tqStep (fun tr _ op => (Queues.after tr).Callable op) m₀ tr m) (hh : h ∈ (Queues.after tr).heads)
    (hf : ((Queues.after tr).list h).length ≤ fuel) :
    (∃ m', m.tailqForeach fuel h (removeIf h p) = .ok m' ((Queues.after tr).list h) ∧ ∀ h' ∈ (Queues.after tr).heads,
      m'.Represents h' (if h' = h then ((Queues.after tr).list h).filter (!p ·) else (Queues.after tr).list h')) ∧
    (∃ m', m.tailqForeachReverse fuel h (removeIf h p) = .ok m' ((Queues.after tr).list h).reverse ∧ ∀ h' ∈ (Queues.after tr).heads,
      m'.Represents h' (if h' = h then ((Queues.after tr).list h).filter (!p ·) else (Queues.after tr).list h')) ∧
    ∀ a ∈ (Queues.after tr).list h, p a = true → m.tailqForeach fuel h (releaseIf h p) = .fail .outOfBounds .next ∧
      m.tailqForeachReverse fuel h (releaseIf h p) = .fail .outOfBounds .prev := by
  have hm := holds_after h₀ hr
  have hfirst := (hm.represents hh).first
  have hlast := (hm.represents hh).last
  have hrest : ∀ m' : Mem, m'.Holds ((Queues.after tr).setList h (((Queues.after tr).list h).filter (!p ·))) →
      ∀ h' ∈ (Queues.after tr).heads,
        m'.Represents h' (if h' = h then ((Queues.after tr).list h).filter (!p ·) else (Queues.after tr).list h') := by
    intro m' hm' h' hh'
    have hrep := hm'.represents (h := h') hh'
    rwa [Queues.list_setList] at hrep
  refine ⟨?_,?_,fun a ha hp => ⟨?_,?_⟩⟩
  · obtain ⟨m',he,hm'⟩ := foreachLoop_next (l := []) p hm hh rfl hf
    refine ⟨m',?_,hrest m' hm'⟩
    rw [tailqForeach,hfirst,Act.bind_ok,Act.after_nil,he]
  · obtain ⟨m',he,hm'⟩ := foreachLoop_prev (r := []) p hm hh (List.append_nil _).symm hf
    rw [List.append_nil] at hm'
    refine ⟨m',?_,hrest m' hm'⟩
    rw [tailqForeachReverse,hlast,Act.bind_ok,Act.after_nil,he]
  · rw [tailqForeach,hfirst,Act.bind_ok,Act.after_nil]
    exact foreachLoop_release_next (l := []) hm hh rfl hf ha hp
  · rw [tailqForeachReverse,hlast,Act.bind_ok,Act.after_nil]
    exact foreachLoop_release_prev (r := []) hm hh (List.append_nil _).symm hf ha hp

/-- The queue of `main.c` is visited in the order 1, 2, 0; the odd element goes. -/
theorem foreach_removes_odd : ∃ tr m m', Run tqStep (fun tr _ op => (Queues.after tr).Callable op)
      ⟨⟨fun _ => none,fun _ => none⟩,fun _ => false⟩ tr m ∧
    tr.map (·.1) = [.init 9,.malloc 0,.malloc 1,.malloc 2,.insertHead 9 0,.insertHead 9 1,.insertBefore 0 2] ∧
    m.tailqForeach 3 9 (removeIf 9 (· % 2 = 1)) = .ok m' [1,2,0] ∧ m'.Represents 9 [2,0] := by
  have hcheck : runCheck tqStep (fun tr _ op => (Queues.after tr).Callable op) (fun _ _ => True)
      [.init 9,.malloc 0,.malloc 1,.malloc 2,.insertHead 9 0,.insertHead 9 1,.insertBefore 0 2] []
      ⟨⟨fun _ => none,fun _ => none⟩,fun _ => false⟩ = true := by decide
  obtain ⟨tr,m,hr,hm,_⟩ := Run.of_runCheck hcheck
  have hat : (Queues.after tr).heads = [9] ∧ (Queues.after tr).list 9 = [1,2,0] := by
    rw [Queues.after,hm]
    exact ⟨rfl,rfl⟩
  have hh : 9 ∈ (Queues.after tr).heads := by
    rw [hat.1]
    exact List.mem_cons_self
  obtain ⟨m',he,hrep⟩ := (foreach_removes _ tr m 9 3 (· % 2 = 1) (fun _ => rfl) hr hh (by rw [hat.2]; decide)).1
  have hrep9 := hrep 9 hh
  rw [if_pos rfl,hat.2] at hrep9
  rw [hat.2] at he
  exact ⟨tr,m,m',hr,hm,he,hrep9⟩

end MyProgram.TailQueue
