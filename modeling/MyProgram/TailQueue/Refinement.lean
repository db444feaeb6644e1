import MyProgram.Lib.Runs
import MyProgram.TailQueue.Model

/-! Tail queues are lists that share no element. -/
namespace MyProgram.TailQueue
open Lib TailList

def insertBeforeIn (listelm elm : Nat) : List Nat → List Nat
  | [] => []
  | a :: l => if a = listelm then elm :: a :: l else a :: insertBeforeIn listelm elm l

def insertAfterIn (listelm elm : Nat) : List Nat → List Nat
  | [] => []
  | a :: l => if a = listelm then a :: elm :: l else a :: insertAfterIn listelm elm l

/-- The initialised heads with their lists, and the elements in memory. -/
structure Queues where
  heads : List Nat
  list : Nat → List Nat
  live : Nat → Bool

namespace Queues

def none : Queues := ⟨[],fun _ => [],fun _ => false⟩

def setList (s : Queues) (h : Nat) (l : List Nat) : Queues := { s with list := Function.update s.list h l }

def step (s : Queues) : TqOp → Queues
  | .malloc a => { s with live := Function.update s.live a true }
  | .free a => { s with live := Function.update s.live a false }
  | .init h => { s.setList h [] with heads := h :: s.heads }
  | .insertHead h elm => s.setList h (elm :: s.list h)
  | .insertTail h elm => s.setList h (s.list h ++ [elm])
  | .insertAfter h listelm elm => s.setList h (insertAfterIn listelm elm (s.list h))
  | .insertBefore listelm elm => { s with list := fun h => insertBeforeIn listelm elm (s.list h) }
  | .remove h elm => s.setList h ((s.list h).erase elm)
  | .replace h elm elm2 => s.setList h ((s.list h).map fun a => if a = elm then elm2 else a)

theorem list_setList (s : Queues) (h : Nat) (l : List Nat) (h' : Nat) : (s.setList h l).list h' = if h' = h then l else s.list h' :=
  Function.update_apply _ _ _ _

def OnQueue (s : Queues) (a : Nat) : Prop := ∃ h ∈ s.heads, a ∈ s.list h

instance (s : Queues) (a : Nat) : Decidable (s.OnQueue a) := inferInstanceAs (Decidable (∃ h ∈ s.heads, a ∈ s.list h))

/-- An element in memory that is on no queue. -/
def Loose (s : Queues) (a : Nat) : Prop := s.live a = true ∧ ¬s.OnQueue a

instance (s : Queues) (a : Nat) : Decidable (s.Loose a) := inferInstanceAs (Decidable (s.live a = true ∧ ¬s.OnQueue a))

/-- Heads are initialised before use, what is inserted is on no queue, and what is
removed, replaced or inserted at is on the queue. -/
def Callable (s : Queues) : TqOp → Prop
  | .malloc a => s.live a = false
  | .free a => s.Loose a
  | .init _ => True
  | .insertHead h elm | .insertTail h elm => h ∈ s.heads ∧ s.Loose elm
  | .insertAfter h listelm elm => h ∈ s.heads ∧ listelm ∈ s.list h ∧ s.Loose elm
  | .insertBefore listelm elm => s.OnQueue listelm ∧ s.Loose elm
  | .remove h elm => h ∈ s.heads ∧ elm ∈ s.list h
  | .replace h elm elm2 => h ∈ s.heads ∧ elm ∈ s.list h ∧ s.Loose elm2

instance (s : Queues) (op : TqOp) : Decidable (s.Callable op) :=
  match op with
  | .malloc a => inferInstanceAs (Decidable (s.live a = false))
  | .free a => inferInstanceAs (Decidable (s.Loose a))
  | .init _ => inferInstanceAs (Decidable True)
  | .insertHead h elm | .insertTail h elm => inferInstanceAs (Decidable (h ∈ s.heads ∧ s.Loose elm))
  | .insertAfter h listelm elm => inferInstanceAs (Decidable (h ∈ s.heads ∧ listelm ∈ s.list h ∧ s.Loose elm))
  | .insertBefore listelm elm => inferInstanceAs (Decidable (s.OnQueue listelm ∧ s.Loose elm))
  | .remove h elm => inferInstanceAs (Decidable (h ∈ s.heads ∧ elm ∈ s.list h))
  | .replace h elm elm2 => inferInstanceAs (Decidable (h ∈ s.heads ∧ elm ∈ s.list h ∧ s.Loose elm2))

/-- The lists after these operations. -/
def after (tr : Trace TqOp Nat) : Queues := (tr.map (·.1)).foldl step none

end Queues

namespace Mem

/-- The macros that read a queue see this list. -/
structure Represents (m : Mem) (h : Nat) (l : List Nat) : Prop where
  first : m.tailqFirst h = .ok l.head? []
  last : m.tailqLast h = .ok l.getLast? []
  empty : m.tailqEmpty h = .ok l.isEmpty []
  neighbours : ∀ l₁ a l₂, l = l₁ ++ a :: l₂ → m.tailqNext a = .ok l₂.head? [] ∧ m.tailqPrev a = .ok l₁.getLast? []

/-- The memory holds the lists. -/
structure Holds (m : Mem) (s : Queues) : Prop where
  queue : ∀ h ∈ s.heads, Queue .elem m.toTailWords (.head h) (s.list h)
  idle : ∀ h, h ∉ s.heads → s.list h = []
  nodup : ∀ h, (s.list h).Nodup
  apart : ∀ h h' a, a ∈ s.list h → a ∈ s.list h' → h = h'
  live_head : ∀ h ∈ s.heads, m.live (.head h) = true
  live_elem : ∀ a, m.live (.elem a) = s.live a
  live_at : ∀ h a, a ∈ s.list h → s.live a = true

variable {m m' : Mem} {s : Queues} {site : Site} {x y : Links} {h a b : Nat} {l mid r : List Nat} {v q : Option Nat}

theorem readFirst_eq (hl : m.live x = true) (hv : m.first x = some v) : m.readFirst site x = .ok v [] := by
  simp [readFirst,access,hl,hv]

theorem readLast_eq (hl : m.live x = true) (hv : m.last x = some y) : m.readLast site x = .ok y [] := by
  simp [readLast,access,hl,hv]

theorem writeFirst_eq (hl : m.live x = true) (v : Option Nat) : m.writeFirst site x v = .ok (m.setFirst x v) [] := if_pos hl

theorem writeLast_eq (hl : m.live x = true) (y : Links) : m.writeLast site x y = .ok (m.setLast x y) [] := if_pos hl

@[simp] theorem live_setFirst (m : Mem) : (m.setFirst x v).live = m.live := rfl

@[simp] theorem live_setLast (m : Mem) : (m.setLast x y).live = m.live := rfl

@[simp] theorem first_setFirst (m : Mem) : (m.setFirst x v).first = Function.update m.first x (some v) := rfl

@[simp] theorem first_setLast (m : Mem) : (m.setLast x y).first = m.first := rfl

@[simp] theorem last_setFirst (m : Mem) : (m.setFirst x v).last = m.last := rfl

@[simp] theorem last_setLast (m : Mem) : (m.setLast x y).last = Function.update m.last x (some y) := rfl

/-- The words of an element between the place `p` and `q`. -/
def linked (m : Mem) (h a : Nat) (p : Links) (q : Option Nat) : Mem :=
  (((m.setFirst (.elem a) q).setLast (behind h q) (.elem a)).setFirst p (some a)).setLast (.elem a) p

/-- The place `p` and `q` as neighbours. -/
def unlinked (m : Mem) (h : Nat) (p : Links) (q : Option Nat) : Mem := (m.setLast (behind h q) p).setFirst p q

theorem linked_comm {p : Links} (hq : behind h q ≠ .elem a) :
    (((m.setFirst (.elem a) q).setLast (.elem a) p).setFirst p (some a)).setLast (behind h q) (.elem a) = m.linked h a p q := by
  simp only [linked,setLast,setFirst]
  rw [Function.update_comm hq.symm]

private theorem elem_injective : Function.Injective Links.elem := fun _ _ h => Links.elem.inj h

private theorem head_ne_elem (h b : Nat) : Links.head h ≠ .elem b := fun he => by cases he

namespace Holds

theorem live (hm : m.Holds s) (hh : h ∈ s.heads) (hx : Within .elem (.head h) (s.list h) x) : m.live x = true := by
  rcases hx with rfl | ⟨a,ha,rfl⟩
  · exact hm.live_head h hh
  · exact (hm.live_elem a).trans (hm.live_at h a ha)

theorem live_lastPlace (hm : m.Holds s) (hh : h ∈ s.heads) (hl : s.list h = l ++ r) : m.live (lastPlace .elem (.head h) l) = true := by
  refine hm.live hh ((within_lastPlace _ _ l).mono ?_)
  rw [hl]
  exact List.subset_append_left _ _

theorem live_behind (hm : m.Holds s) (hh : h ∈ s.heads) (hl : s.list h = l ++ r) : m.live (behind h r.head?) = true := by
  refine hm.live hh ((within_behind _ _ r).mono ?_)
  rw [hl]
  exact List.subset_append_right _ _

theorem heads_of_mem (hm : m.Holds s) (ha : a ∈ s.list h) : h ∈ s.heads := by
  by_contra hh
  rw [hm.idle h hh] at ha
  cases ha

theorem loose (hm : m.Holds s) (ha : s.Loose a) : m.live (.elem a) = true ∧ ∀ h, a ∉ s.list h :=
  ⟨(hm.live_elem a).trans ha.1,fun h hmem => ha.2 ⟨h,hm.heads_of_mem hmem,hmem⟩⟩

/-- The words of an element on a queue. -/
theorem words (hm : m.Holds s) (hh : h ∈ s.heads) (hl : s.list h = l ++ a :: r) :
    m.live (.elem a) = true ∧ m.first (.elem a) = some r.head? ∧ m.last (.elem a) = some (lastPlace .elem (.head h) l) := by
  have hq := hm.queue h hh
  rw [hl] at hq
  obtain ⟨_,hlast,hr⟩ := seg_append_cons.mp hq.1
  exact ⟨hm.live hh (.inr ⟨a,by rw [hl]; simp,rfl⟩),hr.first_eq,hlast⟩

/-- What `TAILQ_LAST` and `TAILQ_PREV` read from a place of a queue. -/
theorem read_previous (hm : m.Holds s) (hh : h ∈ s.heads) (hl : s.list h = l ++ r) (site site' : Site) :
    (do
      let y ← m.readLast site (lastPlace .elem (.head h) l)
      m.readFirst site' y) = .ok l.getLast? [] := by
  have hq := hm.queue h hh
  rw [hl] at hq
  obtain ⟨y,hlast,hfirst,l',r',hl',rfl⟩ := hq.previous
  rw [readLast_eq (hm.live_lastPlace hh hl) hlast,Act.bind_ok,Act.after_nil]
  exact readFirst_eq (hm.live_lastPlace hh (hl.trans hl')) hfirst

theorem tailqPrev_eq (hm : m.Holds s) (hh : h ∈ s.heads) (hl : s.list h = l ++ r) (ha : m.live (.elem a) = true)
    (hlast : m.last (.elem a) = some (lastPlace .elem (.head h) l)) : m.tailqPrev a = .ok l.getLast? [] := by
  rw [tailqPrev,readLast_eq ha hlast,Act.bind_ok,Act.after_nil]
  exact hm.read_previous hh hl _ _

theorem represents (hm : m.Holds s) (hh : h ∈ s.heads) : m.Represents h (s.list h) := by
  have hq := hm.queue h hh
  have hhead := hm.live_head h hh
  have hfirst : m.tailqFirst h = .ok (s.list h).head? [] := readFirst_eq hhead hq.1.first_eq
  refine ⟨hfirst,?_,?_,fun l₁ a l₂ hl => ?_⟩
  · rw [tailqLast,readLast_eq hhead hq.2,Act.bind_ok,Act.after_nil]
    exact hm.read_previous hh (List.append_nil _).symm _ _
  · rw [tailqEmpty,hfirst,Act.bind_ok,Act.after_nil]
    cases s.list h <;> rfl
  · obtain ⟨hlive,hnext,hlast⟩ := hm.words hh hl
    exact ⟨readFirst_eq hlive hnext,hm.tailqPrev_eq hh hl hlive hlast⟩

/-- The memory after the queue of one head was relinked. -/
theorem relink (hm : m.Holds s) (hh : h ∈ s.heads) (hq : Queue .elem m'.toTailWords (.head h) l) (hd : l.Nodup)
    (hl : ∀ a ∈ l, a ∈ s.list h ∨ s.Loose a) (hlive : m'.live = m.live)
    (hw : ∀ x, m'.first x ≠ m.first x ∨ m'.last x ≠ m.last x → Within .elem (.head h) l x) : m'.Holds (s.setList h l) := by
  have hoff : ∀ a ∈ l, ∀ h' ≠ h, a ∉ s.list h' := by
    intro a ha h' hne ha'
    rcases hl a ha with hmem | hloose
    · exact hne (hm.apart _ _ a ha' hmem)
    · exact (hm.loose hloose).2 h' ha'
  have hfar : ∀ h' ≠ h, ∀ x, Within Links.elem (.head h') (s.list h') x → ¬Within Links.elem (.head h) l x := by
    rintro h' hne x (rfl | ⟨a,ha,rfl⟩) (he | ⟨b,hb,he⟩)
    · exact hne (Links.head.inj he)
    · cases he
    · cases he
    · cases he
      exact hoff a hb h' hne ha
  have hat := s.list_setList h l
  refine ⟨fun h' hh' => ?_,fun h' hh' => ?_,fun h' => ?_,fun h₁ h₂ a h₁a h₂a => ?_,?_,?_,fun h' a ha => ?_⟩
  · rw [hat]
    by_cases he : h' = h
    · rw [if_pos he,he]
      exact hq
    · rw [if_neg he]
      refine (hm.queue h' hh').congr fun x hx => ⟨?_,?_⟩
      · exact not_not.mp fun hc => hfar h' he x hx (hw x (.inl hc))
      · exact not_not.mp fun hc => hfar h' he x hx (hw x (.inr hc))
  · rw [hat,if_neg]
    · exact hm.idle h' hh'
    · rintro rfl
      exact hh' hh
  · rw [hat]
    split
    · exact hd
    · exact hm.nodup h'
  · rw [hat] at h₁a h₂a
    by_cases he₁ : h₁ = h <;> by_cases he₂ : h₂ = h
    · rw [he₁,he₂]
    · rw [if_pos he₁] at h₁a
      rw [if_neg he₂] at h₂a
      exact absurd h₂a (hoff a h₁a h₂ he₂)
    · rw [if_neg he₁] at h₁a
      rw [if_pos he₂] at h₂a
      exact absurd h₁a (hoff a h₂a h₁ he₁)
    · rw [if_neg he₁] at h₁a
      rw [if_neg he₂] at h₂a
      exact hm.apart _ _ a h₁a h₂a
  · intro h' hh'
    rw [hlive]
    exact hm.live_head h' hh'
  · intro a
    rw [hlive]
    exact hm.live_elem a
  · rw [hat] at ha
    split at ha
    · exact (hl a ha).elim (hm.live_at h a) And.left
    · exact hm.live_at h' a ha

/-- An element comes between two parts of a queue, in place of what was there. -/
theorem splice (hm : m.Holds s) (hh : h ∈ s.heads) (hl : s.list h = l ++ mid ++ r) (ha : s.Loose a) (hlive : m'.live = m.live)
    (hs : Spliced .elem (.head h) m.toTailWords m'.toTailWords (lastPlace .elem (.head h) l) a r.head?) :
    m'.Holds (s.setList h (l ++ a :: r)) := by
  have hq := hm.queue h hh
  have hd := hm.nodup h
  rw [hl] at hq hd
  obtain ⟨_,hoff⟩ := hm.loose ha
  have hmem : ∀ b ∈ l ++ r, b ∈ s.list h := by
    intro b hb
    rw [hl]
    rcases List.mem_append.mp hb with hb | hb <;> simp [hb]
  have hnew : a ∉ l ++ r := fun hb => hoff h (hmem a hb)
  have hperm : (l ++ a :: r).Perm (a :: (l ++ r)) := List.perm_middle
  have hhalves := hq.halves hd
  refine hm.relink hh (hhalves.spliced elem_injective (head_ne_elem h) hnew hs) ?_ ?_ hlive fun x hx => hs.within hx
  · exact hperm.nodup_iff.mpr (List.nodup_cons.mpr ⟨hnew,hhalves.nodup⟩)
  · intro b hb
    rcases List.mem_cons.mp (hperm.mem_iff.mp hb) with rfl | hb
    · exact .inr ha
    · exact .inl (hmem b hb)

/-- The parts of a queue around an element become neighbours. -/
theorem join (hm : m.Holds s) (hh : h ∈ s.heads) (hl : s.list h = l ++ [a] ++ r) (hlive : m'.live = m.live)
    (hs : Joined .elem (.head h) m.toTailWords m'.toTailWords (lastPlace .elem (.head h) l) r.head?) :
    m'.Holds (s.setList h (l ++ r)) := by
  have hq := hm.queue h hh
  have hd := hm.nodup h
  rw [hl] at hq hd
  have hhalves := hq.halves hd
  refine hm.relink hh (hhalves.joined elem_injective (head_ne_elem h) hs) hhalves.nodup ?_ hlive fun x hx => hs.within hx
  intro b hb
  rw [hl]
  rcases List.mem_append.mp hb with hb | hb <;> exact .inl (by simp [hb])

theorem apart_of_loose (hm : m.Holds s) (ha : s.Loose a) (hl : s.list h = l ++ r) :
    lastPlace Links.elem (.head h) l ≠ .elem a ∧ behind h r.head? ≠ .elem a := by
  have hoff := (hm.loose ha).2 h
  rw [hl,List.mem_append,not_or] at hoff
  exact ⟨lastPlace_ne (head_ne_elem h a) hoff.1 elem_injective,behind_ne (head_ne_elem h a) hoff.2 elem_injective⟩

/-- The element is linked in wherever an insertion or a replacement puts it. -/
theorem linked (hm : m.Holds s) (hh : h ∈ s.heads) (hl : s.list h = l ++ mid ++ r) (ha : s.Loose a) :
    (m.linked h a (lastPlace .elem (.head h) l) r.head?).Holds (s.setList h (l ++ a :: r)) := by
  have hoff := (hm.loose ha).2 h
  rw [hl,List.mem_append,List.mem_append,not_or,not_or] at hoff
  have hp := lastPlace_ne (head_ne_elem h a) hoff.1.1 elem_injective
  exact hm.splice hh hl ha rfl (.of_update hp (behind_ne (head_ne_elem h a) hoff.2 elem_injective) rfl rfl)

theorem insertHead_spec (hm : m.Holds s) (hh : h ∈ s.heads) (ha : s.Loose a) :
    ∃ m', m.tailqInsertHead h a = .ok m' [] ∧ m'.Holds (s.setList h (a :: s.list h)) := by
  have hla := (hm.loose ha).1
  have hlh := hm.live_head h hh
  have hlq : m.live (behind h (s.list h).head?) = true := hm.live_behind (l := []) hh rfl
  have hl : s.list h = [] ++ [] ++ s.list h := rfl
  refine ⟨_,?_,hm.linked hh hl ha⟩
  rw [tailqInsertHead,readFirst_eq hlh (hm.queue h hh).1.first_eq]
  simp only [Act.bind_ok,Act.after_nil,writeFirst_eq,writeLast_eq,live_setFirst,live_setLast,hla,hlh,hlq]
  rfl

theorem insertTail_spec (hm : m.Holds s) (hh : h ∈ s.heads) (ha : s.Loose a) :
    ∃ m', m.tailqInsertTail h a = .ok m' [] ∧ m'.Holds (s.setList h (s.list h ++ [a])) := by
  have hla := (hm.loose ha).1
  have hlh := hm.live_head h hh
  have hlp := hm.live_lastPlace (r := []) hh (List.append_nil _).symm
  have hlast : (m.setFirst (.elem a) none).last (.head h) = some (lastPlace .elem (.head h) (s.list h)) := (hm.queue h hh).2
  have hl : s.list h = s.list h ++ [] ++ [] := by simp
  refine ⟨_,?_,hm.linked hh hl ha⟩
  simp only [tailqInsertTail,Act.bind_ok,Act.after_nil,writeFirst_eq,writeLast_eq,live_setFirst,live_setLast,hla,
    readLast_eq (show (m.setFirst (.elem a) none).live (.head h) = true from hlh) hlast,hlp,hlh]
  exact congrArg (fun m => Act.ok m []) (linked_comm (q := none) (head_ne_elem h a))

theorem insertAfter_spec (hm : m.Holds s) (hh : h ∈ s.heads) (hl : s.list h = l ++ b :: r) (ha : s.Loose a) :
    ∃ m', m.tailqInsertAfter h b a = .ok m' [] ∧ m'.Holds (s.setList h (l ++ b :: a :: r)) := by
  have hl' : s.list h = (l ++ [b]) ++ [] ++ r := by simpa using hl
  have hla := (hm.loose ha).1
  obtain ⟨hlb,hfirst,_⟩ := hm.words hh hl
  have hlq := hm.live_behind hh hl'
  have hlinked := hm.linked hh hl' ha
  rw [← List.append_cons,lastPlace_append] at hlinked
  refine ⟨_,?_,hlinked⟩
  rw [tailqInsertAfter,readFirst_eq hlb hfirst]
  simp only [Act.bind_ok,Act.after_nil,writeFirst_eq,writeLast_eq,live_setFirst,live_setLast,hla,hlb,hlq]
  rfl

theorem insertBefore_spec (hm : m.Holds s) (hh : h ∈ s.heads) (hl : s.list h = l ++ b :: r) (ha : s.Loose a) :
    ∃ m', m.tailqInsertBefore b a = .ok m' [] ∧ m'.Holds (s.setList h (l ++ a :: b :: r)) := by
  obtain ⟨hla,hoff⟩ := hm.loose ha
  obtain ⟨hlb,_,hlast⟩ := hm.words hh hl
  have hlp := hm.live_lastPlace hh hl
  have hba : Links.elem b ≠ .elem a := by
    rintro ⟨⟩
    exact hoff h (by simp [hl])
  have hlast' : ((m.setLast (.elem a) (lastPlace .elem (.head h) l)).setFirst (.elem a) (some b)).last (.elem b) =
      some (lastPlace .elem (.head h) l) := (Function.update_of_ne hba _ _).trans hlast
  have hl' : s.list h = l ++ [] ++ b :: r := by simpa using hl
  refine ⟨_,?_,hm.linked hh hl' ha⟩
  rw [tailqInsertBefore,readLast_eq hlb hlast]
  simp only [Act.bind_ok,Act.after_nil,writeFirst_eq,writeLast_eq,live_setLast,hla]
  rw [readLast_eq (by exact hlb) hlast']
  simp only [Act.bind_ok,Act.after_nil,writeFirst_eq,writeLast_eq,live_setFirst,live_setLast,hlp,hlb]
  exact congrArg (fun m => Act.ok m []) (linked_comm (m := m) (h := h) (q := some b) (p := lastPlace .elem (.head h) l) hba)

theorem replace_spec (hm : m.Holds s) (hh : h ∈ s.heads) (hl : s.list h = l ++ b :: r) (ha : s.Loose a) :
    ∃ m', m.tailqReplace h b a = .ok m' [] ∧ m'.Holds (s.setList h (l ++ a :: r)) := by
  obtain ⟨hla,hoff⟩ := hm.loose ha
  obtain ⟨hlb,hfirst,hlast⟩ := hm.words hh hl
  have hl' : s.list h = l ++ [b] ++ r := by simpa using hl
  have hlp := hm.live_lastPlace hh hl
  have hlq := hm.live_behind hh hl'
  have hlast' : ((m.setFirst (.elem a) r.head?).setLast (behind h r.head?) (.elem a)).last (.elem b) =
      some (lastPlace .elem (.head h) l) := by
    refine (Function.update_of_ne (fun he => ?_) _ _).trans hlast
    exact behind_ne (head_ne_elem h b) (fun hb => List.disjoint_of_nodup_append (hl' ▸ hm.nodup h) (by simp) hb) elem_injective he.symm
  refine ⟨_,?_,hm.linked hh hl' ha⟩
  rw [tailqReplace,readFirst_eq hlb hfirst]
  simp only [Act.bind_ok,Act.after_nil,writeFirst_eq,writeLast_eq,live_setFirst,live_setLast,hla,hlq]
  rw [readLast_eq (by exact hlb) hlast',Act.bind_ok,Act.after_nil,readLast_eq (by exact hla) (Function.update_self _ _ _)]
  simp only [Act.bind_ok,Act.after_nil,writeFirst_eq,live_setFirst,live_setLast,hlp]
  rfl

/-- Behind a removal, the words of the element itself are as before. -/
theorem remove_spec (hm : m.Holds s) (hh : h ∈ s.heads) (hl : s.list h = l ++ a :: r) :
    ∃ m', m.tailqRemove h a = .ok m' [] ∧ m'.Holds (s.setList h (l ++ r)) ∧ m'.live = m.live ∧
      m'.first (.elem a) = some r.head? ∧ m'.last (.elem a) = some (lastPlace .elem (.head h) l) := by
  obtain ⟨hla,hfirst,hlast⟩ := hm.words hh hl
  have hl' : s.list h = l ++ [a] ++ r := by simpa using hl
  have hd := hm.nodup h
  rw [hl,List.nodup_append,List.nodup_cons] at hd
  have hp : lastPlace Links.elem (.head h) l ≠ .elem a :=
    lastPlace_ne (head_ne_elem h a) (fun hal => hd.2.2 a hal a (by simp) rfl) elem_injective
  have hq : behind h r.head? ≠ .elem a := behind_ne (head_ne_elem h a) hd.2.1.1 elem_injective
  have hlp := hm.live_lastPlace hh hl
  have hlq := hm.live_behind hh hl'
  have hlast' : (m.setLast (behind h r.head?) (lastPlace .elem (.head h) l)).last (.elem a) =
      some (lastPlace .elem (.head h) l) := (Function.update_of_ne hq.symm _ _).trans hlast
  refine ⟨m.unlinked h (lastPlace .elem (.head h) l) r.head?,?_,hm.join hh hl' rfl (.of_update rfl rfl),rfl,?_,hlast'⟩
  · rw [tailqRemove,readFirst_eq hla hfirst]
    simp only [Act.bind_ok,Act.after_nil]
    rw [readLast_eq hla hlast]
    simp only [Act.bind_ok,Act.after_nil,writeLast_eq,hlq]
    rw [readLast_eq (by exact hla) hlast',Act.bind_ok,Act.after_nil,readFirst_eq (by exact hla) (by exact hfirst)]
    simp only [Act.bind_ok,Act.after_nil,writeFirst_eq,live_setLast,hlp]
    rfl
  · exact (Function.update_of_ne hp.symm _ _).trans hfirst

theorem live_update (hm : m.Holds s) (a : Nat) (c : Bool) (b : Nat) :
    Function.update m.live (.elem a) c (.elem b) = Function.update s.live a c b := by
  by_cases hb : b = a
  · rw [hb,Function.update_self,Function.update_self]
  · rw [Function.update_of_ne hb,Function.update_of_ne fun he => hb (Links.elem.inj he),hm.live_elem]

theorem malloc (hm : m.Holds s) (ha : s.live a = false) : (m.malloc a).Holds (s.step (.malloc a)) := by
  have hoff : ∀ h, a ∉ s.list h := by
    intro h hmem
    rw [hm.live_at h a hmem] at ha
    cases ha
  have hfar : ∀ h x, Within Links.elem (.head h) (s.list h) x → x ≠ .elem a := by
    rintro h x (rfl | ⟨b,hb,rfl⟩) he
    · cases he
    · cases he
      exact hoff h hb
  refine ⟨fun h hh => ?_,hm.idle,hm.nodup,hm.apart,fun h hh => ?_,fun b => ?_,fun h b hb => ?_⟩
  · refine (hm.queue h hh).congr fun x hx => ⟨?_,?_⟩
    · exact Function.update_of_ne (hfar h x hx) _ _
    · exact Function.update_of_ne (hfar h x hx) _ _
  · change Function.update m.live (.elem a) true (.head h) = true
    rw [Function.update_of_ne (head_ne_elem h a),hm.live_head h hh]
  · exact hm.live_update a true b
  · have hne : b ≠ a := fun he => hoff h (he ▸ hb)
    change Function.update s.live a true b = true
    rw [Function.update_of_ne hne,hm.live_at h b hb]

theorem free (hm : m.Holds s) (ha : s.Loose a) : (m.free a).Holds (s.step (.free a)) := by
  have hoff := (hm.loose ha).2
  refine ⟨hm.queue,hm.idle,hm.nodup,hm.apart,fun h hh => ?_,fun b => ?_,fun h b hb => ?_⟩
  · change Function.update m.live (.elem a) false (.head h) = true
    rw [Function.update_of_ne (head_ne_elem h a),hm.live_head h hh]
  · exact hm.live_update a false b
  · have hne : b ≠ a := fun he => hoff h (he ▸ hb)
    change Function.update s.live a false b = true
    rw [Function.update_of_ne hne,hm.live_at h b hb]

/-- Whatever the head held before, its queue is empty. -/
theorem init (hm : m.Holds s) (h : Nat) : (m.tailqInit h).Holds (s.step (.init h)) := by
  have hat : ∀ h', (s.step (.init h)).list h' = if h' = h then [] else s.list h' := s.list_setList h []
  refine ⟨fun h' hh' => ?_,fun h' hh' => ?_,fun h' => ?_,fun h₁ h₂ a h₁a h₂a => ?_,fun h' hh' => ?_,fun b => ?_,fun h' b hb => ?_⟩
  · rw [hat]
    by_cases he : h' = h
    · rw [if_pos he,he]
      exact ⟨Function.update_self _ _ _,Function.update_self _ _ _⟩
    · rw [if_neg he]
      have hfar : ∀ x, Within Links.elem (.head h') (s.list h') x → x ≠ .head h := by
        rintro x (rfl | ⟨b,_,rfl⟩) hx
        · exact he (Links.head.inj hx)
        · cases hx
      refine (hm.queue h' ((List.mem_cons.mp hh').resolve_left he)).congr fun x hx => ⟨?_,?_⟩
      · exact Function.update_of_ne (hfar x hx) _ _
      · exact Function.update_of_ne (hfar x hx) _ _
  · obtain ⟨hne,hh'⟩ := not_or.mp (mt List.mem_cons.mpr hh')
    rw [hat,if_neg hne]
    exact hm.idle h' hh'
  · rw [hat]
    split
    · exact List.nodup_nil
    · exact hm.nodup h'
  · rw [hat] at h₁a h₂a
    split at h₁a
    · cases h₁a
    · split at h₂a
      · cases h₂a
      · exact hm.apart _ _ a h₁a h₂a
  · change Function.update m.live (.head h) true (.head h') = true
    by_cases he : h' = h
    · rw [he,Function.update_self]
    · rw [Function.update_of_ne fun hc => he (Links.head.inj hc)]
      exact hm.live_head h' ((List.mem_cons.mp hh').resolve_left he)
  · change Function.update m.live (.head h) true (.elem b) = s.live b
    rw [Function.update_of_ne (head_ne_elem h b).symm,hm.live_elem]
  · rw [hat] at hb
    split at hb
    · cases hb
    · exact hm.live_at h' b hb

end Holds
end Mem

private theorem insertBeforeIn_of_notMem {b a : Nat} {l : List Nat} (h : b ∉ l) : insertBeforeIn b a l = l := by
  induction l with
  | nil => rfl
  | cons c l ih =>
    obtain ⟨hc,hl⟩ := not_or.mp (mt List.mem_cons.mpr h)
    rw [insertBeforeIn,if_neg (Ne.symm hc),ih hl]

private theorem insertBeforeIn_middle {b a : Nat} {l r : List Nat} (h : b ∉ l) :
    insertBeforeIn b a (l ++ b :: r) = l ++ a :: b :: r := by
  induction l with
  | nil => exact if_pos rfl
  | cons c l ih =>
    obtain ⟨hc,hl⟩ := not_or.mp (mt List.mem_cons.mpr h)
    rw [List.cons_append,insertBeforeIn,if_neg (Ne.symm hc),ih hl]
    rfl

private theorem insertAfterIn_middle {b a : Nat} {l r : List Nat} (h : b ∉ l) :
    insertAfterIn b a (l ++ b :: r) = l ++ b :: a :: r := by
  induction l with
  | nil => exact if_pos rfl
  | cons c l ih =>
    obtain ⟨hc,hl⟩ := not_or.mp (mt List.mem_cons.mpr h)
    rw [List.cons_append,insertAfterIn,if_neg (Ne.symm hc),ih hl]
    rfl

/-- An element on a list without repetitions has its place. -/
private theorem split_of_mem {a : Nat} {l : List Nat} (hd : l.Nodup) (ha : a ∈ l) :
    ∃ l₁ l₂, l = l₁ ++ a :: l₂ ∧ a ∉ l₁ ∧ a ∉ l₂ := by
  obtain ⟨l₁,l₂,rfl⟩ := List.append_of_mem ha
  rw [List.nodup_append,List.nodup_cons] at hd
  exact ⟨l₁,l₂,rfl,fun h => hd.2.2 a h a (by simp) rfl,hd.2.1.1⟩

private theorem replace_middle {b a : Nat} {l r : List Nat} (hl : b ∉ l) (hr : b ∉ r) :
    ((l ++ b :: r).map fun c => if c = b then a else c) = l ++ a :: r := by
  have hid : ∀ t : List Nat, b ∉ t → (t.map fun c => if c = b then a else c) = t := by
    intro t ht
    refine (List.map_congr_left fun c hc => if_neg ?_).trans (List.map_id t)
    rintro rfl
    exact ht hc
  rw [List.map_append,List.map_cons,hid l hl,hid r hr,if_pos rfl]

open Mem

/-- One step, with what its caller has to guarantee. -/
theorem tqStep_spec {m : Mem} {s : Queues} (hm : m.Holds s) {op : TqOp} (hc : s.Callable op) :
    ∃ m', tqStep m op = .ok m' [] ∧ m'.Holds (s.step op) := by
  cases op with
  | malloc a => exact ⟨_,rfl,hm.malloc hc⟩
  | free a => exact ⟨_,rfl,hm.free hc⟩
  | init h => exact ⟨_,rfl,hm.init h⟩
  | insertHead h elm => exact hm.insertHead_spec hc.1 hc.2
  | insertTail h elm => exact hm.insertTail_spec hc.1 hc.2
  | insertAfter h listelm elm =>
    obtain ⟨hh,hb,ha⟩ := hc
    obtain ⟨l,r,hl,hbl,_⟩ := split_of_mem (hm.nodup h) hb
    obtain ⟨m',he,hm'⟩ := hm.insertAfter_spec hh hl ha
    refine ⟨m',he,?_⟩
    rw [Queues.step,hl,insertAfterIn_middle hbl]
    exact hm'
  | insertBefore listelm elm =>
    obtain ⟨⟨h,hh,hb⟩,ha⟩ := hc
    obtain ⟨l,r,hl,hbl,_⟩ := split_of_mem (hm.nodup h) hb
    obtain ⟨m',he,hm'⟩ := hm.insertBefore_spec hh hl ha
    refine ⟨m',he,?_⟩
    have hat : (fun h' => insertBeforeIn listelm elm (s.list h')) = Function.update s.list h (l ++ elm :: listelm :: r) := by
      funext h'
      by_cases he : h' = h
      · rw [he,Function.update_self,hl,insertBeforeIn_middle hbl]
      · rw [Function.update_of_ne he]
        exact insertBeforeIn_of_notMem fun hb' => he (hm.apart _ _ _ hb' hb)
    rw [Queues.step,hat]
    exact hm'
  | remove h elm =>
    obtain ⟨hh,hb⟩ := hc
    obtain ⟨l,r,hl,hbl,_⟩ := split_of_mem (hm.nodup h) hb
    obtain ⟨m',he,hm',_⟩ := hm.remove_spec hh hl
    refine ⟨m',he,?_⟩
    rw [Queues.step,hl,List.erase_append_right _ hbl,List.erase_cons_head]
    exact hm'
  | replace h elm elm2 =>
    obtain ⟨hh,hb,ha⟩ := hc
    obtain ⟨l,r,hl,hbl,hbr⟩ := split_of_mem (hm.nodup h) hb
    obtain ⟨m',he,hm'⟩ := hm.replace_spec hh hl ha
    refine ⟨m',he,?_⟩
    rw [Queues.step,hl,replace_middle hbl hbr]
    exact hm'

theorem holds_none {m : Mem} (h : ∀ x, m.live x = false) : m.Holds .none :=
  ⟨by simp [Queues.none],fun _ _ => rfl,fun _ => List.nodup_nil,by simp [Queues.none],by simp [Queues.none],
    fun a => h (.elem a),by simp [Queues.none]⟩

/-- Along a run, the memory holds the lists that the operations make. -/
theorem holds_after {m₀ m : Mem} {tr : Trace TqOp Nat} (h₀ : ∀ x, m₀.live x = false)
    (hr : Run tqStep (fun tr _ op => (Queues.after tr).Callable op) m₀ tr m) : m.Holds (Queues.after tr) := by
  refine hr.invariant (fun tr m => m.Holds (Queues.after tr)) (holds_none h₀) ?_
  intro tr m op m' fx hm hc he
  obtain ⟨m₁,he₁,hm₁⟩ := tqStep_spec hm hc
  rw [he] at he₁
  cases he₁
  simpa [Queues.after] using hm₁

/-- Along every run of the macros over any number of queues and elements in one memory,
each initialised head holds its list: `TAILQ_FIRST`, `TAILQ_LAST` and `TAILQ_EMPTY` see
its ends, `TAILQ_NEXT` and `TAILQ_PREV` the neighbours of each element. No element is on
two queues. Every further use within the contract returns and does to the lists
what its name says, so it leaves all other queues as they are. -/
theorem macros_refine_lists (m₀ : Mem) (tr : Trace TqOp Nat) (m : Mem) (h₀ : ∀ x, m₀.live x = false)
    (hr : Run tqStep (fun tr _ op => (Queues.after tr).Callable op) m₀ tr m) :
    (∀ h ∈ (Queues.after tr).heads, m.Represents h ((Queues.after tr).list h)) ∧
    (∀ h, ((Queues.after tr).list h).Nodup) ∧
    (∀ h h' a, a ∈ (Queues.after tr).list h → a ∈ (Queues.after tr).list h' → h = h') ∧
    ∀ op, (Queues.after tr).Callable op → ∃ m', tqStep m op = .ok m' [] ∧
      ∀ h ∈ ((Queues.after tr).step op).heads, m'.Represents h (((Queues.after tr).step op).list h) := by
  have hm := holds_after h₀ hr
  refine ⟨fun h hh => hm.represents hh,hm.nodup,hm.apart,fun op hc => ?_⟩
  obtain ⟨m',he,hm'⟩ := tqStep_spec hm hc
  exact ⟨m',he,fun h hh => hm'.represents hh⟩

/-- Two queues; an element moves from one to the other and another is replaced. -/
theorem macros_refine_lists_moved : ∃ tr m, Run tqStep (fun tr _ op => (Queues.after tr).Callable op)
      ⟨⟨fun _ => none,fun _ => none⟩,fun _ => false⟩ tr m ∧
    tr.map (·.1) = [.init 0,.init 1,.malloc 5,.malloc 6,.malloc 7,.insertHead 0 5,.insertTail 0 6,.insertBefore 6 7,
      .remove 0 6,.insertHead 1 6,.malloc 8,.replace 0 5 8,.free 5] ∧
    m.Represents 0 [8,7] ∧ m.Represents 1 [6] := by
  have hcheck : runCheck tqStep (fun tr _ op => (Queues.after tr).Callable op) (fun _ _ => True)
      [.init 0,.init 1,.malloc 5,.malloc 6,.malloc 7,.insertHead 0 5,.insertTail 0 6,.insertBefore 6 7,
        .remove 0 6,.insertHead 1 6,.malloc 8,.replace 0 5 8,.free 5] []
      ⟨⟨fun _ => none,fun _ => none⟩,fun _ => false⟩ = true := by decide
  obtain ⟨tr,m,hr,hm,_⟩ := Run.of_runCheck hcheck
  have h := (macros_refine_lists _ tr m (fun _ => rfl) hr).1
  rw [Queues.after,hm] at h
  exact ⟨tr,m,hr,hm,h 0 (by decide),h 1 (by decide)⟩

end MyProgram.TailQueue
