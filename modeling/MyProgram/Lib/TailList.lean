import Mathlib.Data.List.Induction
import Mathlib.Data.List.Nodup
import Mathlib.Logic.Function.Basic
import Mathlib.Tactic.Common

/-! Lists whose cells hold a pointer to the next element and the place of the pointer
that points to the element itself. A place is a head or lies in an element. -/
namespace MyProgram.Lib
variable {ρ ι : Type}

/-- The two words of all places. A word without value is not initialised. -/
structure TailWords (ρ ι : Type) where
  first : ρ → Option (Option ι)
  last : ρ → Option ρ

namespace TailList

/-- The last place of a segment that starts behind the place `p`. -/
def lastPlace (elem : ι → ρ) : ρ → List ι → ρ
  | p, [] => p
  | _, a :: l => lastPlace elem (elem a) l

/-- Behind the place `p` come these elements and then `q`. -/
def Seg (elem : ι → ρ) (w : TailWords ρ ι) : ρ → List ι → Option ι → Prop
  | p, [], q => w.first p = some q
  | p, a :: l, q => w.first p = some (some a) ∧ w.last (elem a) = some p ∧ Seg elem w (elem a) l q

/-- The elements behind a head, which knows the last place. -/
def Queue (elem : ι → ρ) (w : TailWords ρ ι) (h : ρ) (l : List ι) : Prop :=
  Seg elem w h l none ∧ w.last h = some (lastPlace elem h l)

variable {elem : ι → ρ} {w w' : TailWords ρ ι} {p h : ρ} {l r : List ι} {q : Option ι} {a b : ι}

@[simp] theorem lastPlace_nil : lastPlace elem p [] = p := rfl

@[simp] theorem lastPlace_cons : lastPlace elem p (a :: l) = lastPlace elem (elem a) l := rfl

@[simp] theorem lastPlace_append : lastPlace elem p (l ++ r) = lastPlace elem (lastPlace elem p l) r := by
  induction l generalizing p with
  | nil => rfl
  | cons a l ih => exact ih

/-- The places of a queue: its head and those in its elements. -/
def Within (elem : ι → ρ) (h : ρ) (l : List ι) (x : ρ) : Prop := x = h ∨ ∃ a ∈ l, x = elem a

theorem Within.mono {x : ρ} (hx : Within elem h l x) (hs : l ⊆ r) : Within elem h r x := by
  rcases hx with hx | ⟨a,ha,hx⟩
  · exact .inl hx
  · exact .inr ⟨a,hs ha,hx⟩

theorem within_lastPlace (elem : ι → ρ) (p : ρ) (l : List ι) : Within elem p l (lastPlace elem p l) := by
  induction l using List.reverseRecOn with
  | nil => exact .inl rfl
  | append_singleton l a _ => exact .inr ⟨a,by simp,by simp⟩

theorem lastPlace_ne (hp : p ≠ elem a) (hl : a ∉ l) (hi : Function.Injective elem) : lastPlace elem p l ≠ elem a := by
  rcases within_lastPlace elem p l with he | ⟨b,hb,he⟩
  · rwa [he]
  · rw [he]
    rintro hba
    exact hl (hi hba ▸ hb)

/-- A segment is its parts, the second behind the last place of the first. -/
theorem seg_append_cons : Seg elem w p (l ++ a :: r) q ↔
    Seg elem w p l (some a) ∧ w.last (elem a) = some (lastPlace elem p l) ∧ Seg elem w (elem a) r q := by
  induction l generalizing p with
  | nil => rfl
  | cons b l ih => simp only [List.cons_append,Seg,ih,lastPlace_cons,and_assoc]

/-- Writes elsewhere leave a segment as it is. -/
theorem Seg.congr (hs : Seg elem w p l q) (hp : w'.first p = w.first p)
    (hl : ∀ a ∈ l, w'.first (elem a) = w.first (elem a) ∧ w'.last (elem a) = w.last (elem a)) : Seg elem w' p l q := by
  induction l generalizing p with
  | nil => exact hp.trans hs
  | cons a l ih =>
    obtain ⟨hf,hb,ht⟩ := hs
    obtain ⟨hfa,hla⟩ := hl a (by simp)
    exact ⟨hp.trans hf,hla.trans hb,ih ht hfa fun b hb => hl b (List.mem_cons_of_mem _ hb)⟩

/-- Only the pointer at the end of a segment changes. -/
theorem Seg.redirect {q' : Option ι} (hs : Seg elem w p l q) (hd : l.Nodup) (hi : Function.Injective elem)
    (hp : ∀ a ∈ l, p ≠ elem a) (hend : w'.first (lastPlace elem p l) = some q')
    (hf : ∀ x, x ≠ lastPlace elem p l → Within elem p l x → w'.first x = w.first x)
    (hl : ∀ a ∈ l, w'.last (elem a) = w.last (elem a)) : Seg elem w' p l q' := by
  induction l generalizing p with
  | nil => exact hend
  | cons a l ih =>
    obtain ⟨hfp,hb,ht⟩ := hs
    obtain ⟨hal,hd⟩ := List.nodup_cons.mp hd
    have hpl : p ≠ lastPlace elem (elem a) l := by
      rcases within_lastPlace elem (elem a) l with he | ⟨b,hb,he⟩
      · rw [he]
        exact hp a (by simp)
      · rw [he]
        exact hp b (List.mem_cons_of_mem _ hb)
    refine ⟨(hf p hpl (.inl rfl)).trans hfp,(hl a (by simp)).trans hb,ih ht hd ?_ hend ?_ ?_⟩
    · intro b hb he
      exact hal (hi he ▸ hb)
    · intro x hx hxl
      refine hf x hx (.inr ?_)
      rcases hxl with rfl | ⟨b,hb,rfl⟩
      · exact ⟨a,by simp,rfl⟩
      · exact ⟨b,List.mem_cons_of_mem _ hb,rfl⟩
    · exact fun b hb => hl b (List.mem_cons_of_mem _ hb)

theorem Seg.end_eq (hs : Seg elem w p l q) : w.first (lastPlace elem p l) = some q := by
  induction l generalizing p with
  | nil => exact hs
  | cons a l ih => exact ih hs.2.2

theorem Seg.first_eq (hs : Seg elem w p l none) : w.first p = some l.head? := by
  cases l with
  | nil => exact hs
  | cons a l => exact hs.1

theorem Seg.suffix (hs : Seg elem w p (l ++ a :: r) q) : Seg elem w (elem a) r q := (seg_append_cons.mp hs).2.2

/-- The place whose second word holds the last place in front of `r`. -/
def behind (elem : ι → ρ) (h : ρ) : Option ι → ρ
  | some b => elem b
  | none => h

theorem within_behind (elem : ι → ρ) (h : ρ) (l : List ι) : Within elem h l (behind elem h l.head?) := by
  cases l with
  | nil => exact .inl rfl
  | cons a l => exact .inr ⟨a,by simp,rfl⟩

theorem behind_ne (hp : h ≠ elem a) (hr : a ∉ r) (hi : Function.Injective elem) : behind elem h r.head? ≠ elem a := by
  cases r with
  | nil => exact hp
  | cons b r => exact fun he => hr (hi he ▸ List.mem_cons_self)

/-- The words after `a` was put behind the place `p` and in front of `q`. -/
structure Spliced (elem : ι → ρ) (h : ρ) (w w' : TailWords ρ ι) (p : ρ) (a : ι) (q : Option ι) : Prop where
  first_p : w'.first p = some (some a)
  first_a : w'.first (elem a) = some q
  first_other : ∀ x, x ≠ p → x ≠ elem a → w'.first x = w.first x
  last_q : w'.last (behind elem h q) = some (elem a)
  last_a : w'.last (elem a) = some p
  last_other : ∀ x, x ≠ behind elem h q → x ≠ elem a → w'.last x = w.last x

/-- The words after the place `p` and `q` were made neighbours. -/
structure Joined (elem : ι → ρ) (h : ρ) (w w' : TailWords ρ ι) (p : ρ) (q : Option ι) : Prop where
  first_p : w'.first p = some q
  first_other : ∀ x, x ≠ p → w'.first x = w.first x
  last_q : w'.last (behind elem h q) = some p
  last_other : ∀ x, x ≠ behind elem h q → w'.last x = w.last x

section Updates
variable [DecidableEq ρ]

theorem Spliced.of_update (hp : p ≠ elem a) (hq : behind elem h q ≠ elem a)
    (hf : w'.first = Function.update (Function.update w.first (elem a) (some q)) p (some (some a)))
    (hl : w'.last = Function.update (Function.update w.last (behind elem h q) (some (elem a))) (elem a) (some p)) :
    Spliced elem h w w' p a q := by
  refine ⟨?_,?_,fun x hx hxa => ?_,?_,?_,fun x hx hxa => ?_⟩
  · rw [hf,Function.update_self]
  · rw [hf,Function.update_of_ne hp.symm,Function.update_self]
  · rw [hf,Function.update_of_ne hx,Function.update_of_ne hxa]
  · rw [hl,Function.update_of_ne hq,Function.update_self]
  · rw [hl,Function.update_self]
  · rw [hl,Function.update_of_ne hxa,Function.update_of_ne hx]

theorem Joined.of_update (hf : w'.first = Function.update w.first p (some q))
    (hl : w'.last = Function.update w.last (behind elem h q) (some p)) : Joined elem h w w' p q := by
  refine ⟨?_,fun x hx => ?_,?_,fun x hx => ?_⟩
  · rw [hf,Function.update_self]
  · rw [hf,Function.update_of_ne hx]
  · rw [hl,Function.update_self]
  · rw [hl,Function.update_of_ne hx]

end Updates

section Relink
variable (hi : Function.Injective elem) (hh : ∀ b, h ≠ elem b) {mid : List ι}

/-- Both parts of a queue as they are with anything between them. -/
structure Halves (elem : ι → ρ) (w : TailWords ρ ι) (h : ρ) (l r : List ι) : Prop where
  left : ∃ q, Seg elem w h l q
  right : ∀ b r', r = b :: r' → Seg elem w (elem b) r' none ∧ w.last h = some (lastPlace elem (elem b) r')
  nodup : (l ++ r).Nodup

theorem Queue.halves (hq : Queue elem w h (l ++ mid ++ r)) (hd : (l ++ mid ++ r).Nodup) : Halves elem w h l r := by
  refine ⟨?_,?_,?_⟩
  · cases hm : mid ++ r with
    | nil =>
      rw [List.append_assoc,hm,List.append_nil] at hq
      exact ⟨_,hq.1⟩
    | cons c m =>
      have hs := hq.1
      rw [List.append_assoc,hm] at hs
      exact ⟨_,(seg_append_cons.mp hs).1⟩
  · rintro b r' rfl
    refine ⟨hq.1.suffix,?_⟩
    rw [hq.2,lastPlace_append]
    rfl
  · exact hd.sublist (by simp)

include hi hh

theorem Halves.spliced (hw : Halves elem w h l r) (ha : a ∉ l ++ r)
    (hs : Spliced elem h w w' (lastPlace elem h l) a r.head?) : Queue elem w' h (l ++ a :: r) := by
  obtain ⟨⟨q,hl⟩,hr,hd⟩ := hw
  obtain ⟨hal,har⟩ := not_or.mp (mt List.mem_append.mpr ha)
  obtain ⟨hdl,hdr,hdisj⟩ := List.nodup_append.mp hd
  have hlast : ∀ b ∈ l, elem b ≠ behind elem h r.head? := by
    intro b hb he
    cases r with
    | nil => exact hh b he.symm
    | cons c r => exact hdisj b hb c (by simp) (hi he)
  refine ⟨seg_append_cons.mpr ⟨?_,hs.last_a,?_⟩,?_⟩
  · refine hl.redirect hdl hi (fun b _ => hh b) hs.first_p ?_ ?_
    · intro x hx hxl
      refine hs.first_other x hx ?_
      rcases hxl with rfl | ⟨b,hb,rfl⟩
      · exact hh a
      · exact fun he => hal (hi he ▸ hb)
    · exact fun b hb => hs.last_other _ (hlast b hb) fun he => hal (hi he ▸ hb)
  · cases r with
    | nil => exact hs.first_a
    | cons b r =>
      obtain ⟨hsr,_⟩ := hr b r rfl
      have hbr := (List.nodup_cons.mp hdr).1
      have hfirst : ∀ c ∈ b :: r, w'.first (elem c) = w.first (elem c) := by
        intro c hc
        refine hs.first_other _ (fun he => ?_) fun he => har (hi he ▸ hc)
        exact lastPlace_ne (hh c) (fun hcl => hdisj c hcl c hc rfl) hi he.symm
      refine ⟨hs.first_a,hs.last_q,hsr.congr (hfirst b (by simp)) fun c hc => ⟨hfirst c (List.mem_cons_of_mem _ hc),?_⟩⟩
      refine hs.last_other _ (fun he => hbr (hi he ▸ hc)) fun he => har (hi he ▸ List.mem_cons_of_mem _ hc)
  · rw [lastPlace_append,lastPlace_cons]
    cases r with
    | nil => exact hs.last_q
    | cons b r => exact (hs.last_other h (hh b) (hh a)).trans (hr b r rfl).2

theorem Halves.joined (hw : Halves elem w h l r) (hs : Joined elem h w w' (lastPlace elem h l) r.head?) :
    Queue elem w' h (l ++ r) := by
  obtain ⟨⟨q,hl⟩,hr,hd⟩ := hw
  obtain ⟨hdl,hdr,hdisj⟩ := List.nodup_append.mp hd
  have hleft : Seg elem w' h l r.head? := by
    refine hl.redirect hdl hi (fun b _ => hh b) hs.first_p (fun x hx _ => hs.first_other x hx) fun b hb => ?_
    refine hs.last_other _ fun he => ?_
    cases r with
    | nil => exact hh b he.symm
    | cons c r => exact hdisj b hb c (by simp) (hi he)
  cases r with
  | nil =>
    rw [List.append_nil]
    exact ⟨hleft,hs.last_q⟩
  | cons b r =>
    obtain ⟨hsr,hlr⟩ := hr b r rfl
    have hfirst : ∀ c ∈ b :: r, w'.first (elem c) = w.first (elem c) := fun c hc => hs.first_other _ fun he =>
      lastPlace_ne (hh c) (fun hcl => hdisj c hcl c hc rfl) hi he.symm
    refine ⟨seg_append_cons.mpr ⟨hleft,hs.last_q,hsr.congr (hfirst b (by simp)) fun c hc => ⟨?_,?_⟩⟩,?_⟩
    · exact hfirst c (List.mem_cons_of_mem _ hc)
    · exact hs.last_other _ fun he => (List.nodup_cons.mp hdr).1 (hi he ▸ hc)
    · rw [lastPlace_append,lastPlace_cons]
      exact (hs.last_other h (hh b)).trans hlr

end Relink

/-- Writes outside a queue leave it as it is. -/
theorem Queue.congr (hq : Queue elem w h l) (hw : ∀ x, Within elem h l x → w'.first x = w.first x ∧ w'.last x = w.last x) :
    Queue elem w' h l :=
  ⟨hq.1.congr (hw h (.inl rfl)).1 fun a ha => hw _ (.inr ⟨a,ha,rfl⟩),(hw h (.inl rfl)).2.trans hq.2⟩

/-- What splicing and joining change lies within the queue and the new element. -/
theorem Spliced.within (hs : Spliced elem h w w' (lastPlace elem h l) a r.head?) {x : ρ}
    (hx : w'.first x ≠ w.first x ∨ w'.last x ≠ w.last x) : Within elem h (l ++ a :: r) x := by
  by_cases hxa : x = elem a
  · exact .inr ⟨a,by simp,hxa⟩
  rcases hx with hx | hx
  · by_cases hp : x = lastPlace elem h l
    · exact hp ▸ (within_lastPlace elem h l).mono (List.subset_append_left _ _)
    · exact absurd (hs.first_other x hp hxa) hx
  · by_cases hq : x = behind elem h r.head?
    · exact hq ▸ (within_behind elem h r).mono fun b hb => by simp [hb]
    · exact absurd (hs.last_other x hq hxa) hx

theorem Joined.within (hs : Joined elem h w w' (lastPlace elem h l) r.head?) {x : ρ}
    (hx : w'.first x ≠ w.first x ∨ w'.last x ≠ w.last x) : Within elem h (l ++ r) x := by
  rcases hx with hx | hx
  · by_cases hp : x = lastPlace elem h l
    · exact hp ▸ (within_lastPlace elem h l).mono (List.subset_append_left _ _)
    · exact absurd (hs.first_other x hp) hx
  · by_cases hq : x = behind elem h r.head?
    · exact hq ▸ (within_behind elem h r).mono (List.subset_append_right _ _)
    · exact absurd (hs.last_other x hq) hx

/-- Two steps back and one forward lead to the element in front of a place. -/
theorem Queue.previous (hq : Queue elem w h (l ++ r)) : ∃ y, w.last (lastPlace elem h l) = some y ∧
    w.first y = some l.getLast? ∧ ∃ l' r', l ++ r = l' ++ r' ∧ y = lastPlace elem h l' := by
  induction l using List.reverseRecOn with
  | nil => exact ⟨_,hq.2,hq.1.end_eq,r,[],(List.append_nil r).symm,rfl⟩
  | append_singleton l a _ =>
    obtain ⟨hs,_⟩ := hq
    rw [List.append_assoc] at hs
    obtain ⟨hl,hb,_⟩ := seg_append_cons.mp hs
    refine ⟨lastPlace elem h l,?_,?_,l,a :: r,by simp,rfl⟩
    · rw [lastPlace_append]
      exact hb
    · rw [hl.end_eq,List.getLast?_concat]

end TailList
end MyProgram.Lib
