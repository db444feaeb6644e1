import MyProgram.Harbor.Steps
import MyProgram.Lib.Runs

/-! Processes that join one after another and connect to each other, each pair by a connection that
the older one opens. -/
namespace MyProgram.Harbor
open Lib

/-- What matters for the connections: who has joined and in which order, whom the slaves know, whom they
have yet to connect to, the connections that the other side has not read the id of, and the slaves
that do not connect to others yet. -/
structure View where
  joined : List Proc
  table : Proc → Id → Option (Option Proc)
  duty : Proc → List (Id × Proc)
  links : List (Proc × Proc)
  bound : Proc → Bool

namespace View
variable {ident : Proc → Id} {v : View} {p q r : Proc} {l : List Proc}

/-- Those that joined before. -/
def before (v : View) (p : Proc) : List Proc := v.joined.takeWhile (· ≠ p)

def Older (v : View) (p q : Proc) : Prop := q ∈ v.joined ∧ p ∈ v.before q

private theorem takeWhile_append_of_mem (h : p ∈ l) (r : Proc) : (l ++ [r]).takeWhile (· ≠ p) = l.takeWhile (· ≠ p) := by
  induction l with
  | nil => cases h
  | cons a l ih =>
    rw [List.cons_append,List.takeWhile_cons,List.takeWhile_cons]
    by_cases ha : a = p
    · simp [ha]
    · have hl : p ∈ l := (List.mem_cons.mp h).resolve_left fun h => ha h.symm
      simp only [ih hl]

private theorem takeWhile_self (h : p ∉ l) : (l ++ [p]).takeWhile (· ≠ p) = l := by
  induction l with
  | nil => simp
  | cons a l ih =>
    have ha : a ≠ p := fun he => h (he ▸ List.mem_cons_self)
    rw [List.cons_append,List.takeWhile_cons,if_pos (by simpa using ha),ih fun hl => h (List.mem_cons_of_mem a hl)]

theorem Older.mem (h : v.Older p q) : p ∈ v.joined := (List.takeWhile_sublist _).subset h.2

theorem Older.asymm (h : v.Older p q) : ¬v.Older q p := by
  rintro ⟨_,h'⟩
  obtain ⟨_,h⟩ := h
  unfold before at h h'
  revert h h'
  induction v.joined with
  | nil =>
    intro h
    cases h
  | cons a l ih =>
    intro h h'
    rw [List.takeWhile_cons] at h h'
    split at h
    · rename_i haq
      split at h'
      · rename_i hap
        have hp : a ≠ p := by simpa using haq
        have hq : a ≠ q := by simpa using hap
        exact ih ((List.mem_cons.mp h).resolve_left (Ne.symm hq)) ((List.mem_cons.mp h').resolve_left (Ne.symm hp))
      · cases h'
    · cases h

theorem Older.ne (h : v.Older p q) : p ≠ q := by
  rintro rfl
  exact h.asymm h

theorem Older.before_lt (h : v.Older p q) : (v.before p).length < (v.before q).length := by
  obtain ⟨_,h⟩ := h
  unfold before at h ⊢
  revert h
  induction v.joined with
  | nil =>
    intro h
    cases h
  | cons a l ih =>
    intro h
    rw [List.takeWhile_cons] at h
    split at h
    · rename_i haq
      rw [List.takeWhile_cons,List.takeWhile_cons,if_pos haq]
      by_cases hp : a = p
      · simp [hp]
      · rw [if_pos (by simpa using hp)]
        exact Nat.succ_lt_succ (ih ((List.mem_cons.mp h).resolve_left fun h => hp h.symm))
    · cases h

/-- Two that have joined did so one after the other. -/
theorem older_total (hp : p ∈ v.joined) (hq : q ∈ v.joined) (hne : p ≠ q) : v.Older p q ∨ v.Older q p := by
  unfold Older before
  revert hp hq
  induction v.joined with
  | nil =>
    intro hp
    cases hp
  | cons a l ih =>
    intro hp hq
    by_cases hpa : p = a
    · refine .inl ⟨hq,?_⟩
      rw [List.takeWhile_cons,if_pos (by simpa [hpa] using fun h => hne (hpa.trans h)),hpa]
      exact List.mem_cons_self
    · by_cases hqa : q = a
      · refine .inr ⟨hp,?_⟩
        rw [List.takeWhile_cons,if_pos (by simpa using Ne.symm (hqa ▸ hpa)),hqa]
        exact List.mem_cons_self
      · rcases ih ((List.mem_cons.mp hp).resolve_left hpa) ((List.mem_cons.mp hq).resolve_left hqa) with ⟨hm,h⟩ | ⟨hm,h⟩
        · refine .inl ⟨hq,?_⟩
          rw [List.takeWhile_cons,if_pos (by simpa using Ne.symm hqa)]
          exact List.mem_cons_of_mem a h
        · refine .inr ⟨hp,?_⟩
          rw [List.takeWhile_cons,if_pos (by simpa using Ne.symm hpa)]
          exact List.mem_cons_of_mem a h

/-- Who has joined later than another has that one in its table, or will be asked to be connected to, or is. -/
structure Inv (ident : Proc → Id) (v : View) : Prop where
  nodup : v.joined.Nodup
  duty_nodup : ∀ p, (v.duty p).Nodup
  duty_mem : ∀ p x, x ∈ v.duty p → ∃ q, x = (ident q,q) ∧ v.Older p q
  duty_new : ∀ p q, (ident q,q) ∈ v.duty p → v.table p (ident q) = none
  duty_or : ∀ p q, v.Older p q → (ident q,q) ∈ v.duty p ∨ v.table p (ident q) = some (some q)
  bound : ∀ p q, v.bound p = true → v.Older p q → v.table p (ident q) = none
  links_nodup : v.links.Nodup
  links_mem : ∀ p q, (p,q) ∈ v.links → v.Older p q ∧ v.table p (ident q) ≠ none ∧ v.table q (ident p) = none
  links_or : ∀ p q, v.Older p q → v.table p (ident q) ≠ none → (p,q) ∈ v.links ∨ v.table q (ident p) = some (some p)
  accepted : ∀ p q, v.Older p q → v.table q (ident p) ≠ none → v.table p (ident q) ≠ none
  table_mem : ∀ p id x, v.table p id = some x → ∃ q, id = ident q ∧ x = some q ∧ (v.Older p q ∨ v.Older q p)

namespace Inv
variable (h : v.Inv ident) {d : List (Id × Proc)} {links : List (Proc × Proc)} {duty : Proc → List (Id × Proc)}
include h

/-- The order in which entries and connections are kept does not matter. -/
theorem perm (hd : ∀ p, (duty p).Perm (v.duty p)) (hl : links.Perm v.links) : Inv ident { v with duty := duty, links := links } where
  nodup := h.nodup
  duty_nodup p := (hd p).nodup_iff.mpr (h.duty_nodup p)
  duty_mem p x hx := h.duty_mem p x ((hd p).mem_iff.mp hx)
  duty_new p q hx := h.duty_new p q ((hd p).mem_iff.mp hx)
  duty_or p q ho := (h.duty_or p q ho).imp (hd p).mem_iff.mpr id
  bound := h.bound
  links_nodup := hl.nodup_iff.mpr h.links_nodup
  links_mem p q hx := h.links_mem p q (hl.mem_iff.mp hx)
  links_or p q ho hn := (h.links_or p q ho hn).imp hl.mem_iff.mpr id
  accepted := h.accepted
  table_mem := h.table_mem

/-- A slave begins to connect to others. -/
theorem unbind {bound : Proc → Bool} (hb : ∀ p, bound p = true → v.bound p = true) : Inv ident { v with bound := bound } where
  nodup := h.nodup
  duty_nodup := h.duty_nodup
  duty_mem := h.duty_mem
  duty_new := h.duty_new
  duty_or := h.duty_or
  bound p q hp := h.bound p q (hb p hp)
  links_nodup := h.links_nodup
  links_mem := h.links_mem
  links_or := h.links_or
  accepted := h.accepted
  table_mem := h.table_mem

theorem congr {v' : View} (hj : v'.joined = v.joined) (ht : ∀ p id, v'.table p id = v.table p id) (hd : ∀ p, (v'.duty p).Perm (v.duty p))
    (hl : v'.links.Perm v.links) (hb : ∀ p, v'.bound p = true → v.bound p = true) : Inv ident v' := by
  obtain ⟨joined,table,duty,links,bound⟩ := v'
  have ht : table = v.table := by
    funext p id
    exact ht p id
  have hj : joined = v.joined := hj
  rw [hj,ht]
  exact (h.perm hd hl).unbind hb

end Inv

/-- Another process joins. Those that have joined already are to connect to it. -/
def join (ident : Proc → Id) (v : View) (p : Proc) : View :=
  { v with joined := v.joined ++ [p], duty := fun r => if r ∈ v.joined then v.duty r ++ [(ident p,p)] else v.duty r }

theorem before_join_self (hp : p ∉ v.joined) : (v.join ident p).before p = v.joined := takeWhile_self hp

theorem before_join (hq : q ∈ v.joined) : (v.join ident p).before q = v.before q := takeWhile_append_of_mem hq p

theorem older_join (hp : p ∉ v.joined) : (v.join ident p).Older q r ↔ v.Older q r ∨ r = p ∧ q ∈ v.joined := by
  unfold Older before join
  dsimp only
  by_cases hr : r = p
  · rw [hr,takeWhile_self hp]
    simp [hp]
  · constructor
    · rintro ⟨hm,hq⟩
      have hm : r ∈ v.joined := (List.mem_append.mp hm).resolve_right fun h => hr (List.mem_singleton.mp h)
      rw [takeWhile_append_of_mem hm] at hq
      exact .inl ⟨hm,hq⟩
    · rintro (⟨hm,hq⟩ | ⟨h,_⟩)
      · rw [takeWhile_append_of_mem hm]
        exact ⟨List.mem_append_left _ hm,hq⟩
      · exact absurd h hr

theorem Inv.join (hi : Function.Injective ident) (h : v.Inv ident) (hp : p ∉ v.joined) (hempty : ∀ id, v.table p id = none) :
    (v.join ident p).Inv ident := by
  have hnone (r : Proc) : v.table r (ident p) = none := by
    by_contra hne
    obtain ⟨x,hx⟩ := Option.ne_none_iff_exists'.mp hne
    obtain ⟨q,hq,_,ho⟩ := h.table_mem r _ x hx
    rw [← hi hq] at ho
    exact hp (ho.elim (·.1) Older.mem)
  have hnew (r : Proc) : (ident p,p) ∉ v.duty r := by
    intro hm
    obtain ⟨q,hq,ho⟩ := h.duty_mem r _ hm
    rw [← (Prod.mk.inj hq).2] at ho
    exact hp ho.1
  have hmem {r : Proc} {x : Id × Proc} (hx : x ∈ (v.join ident p).duty r) : x ∈ v.duty r ∨ r ∈ v.joined ∧ x = (ident p,p) := by
    unfold View.join at hx
    dsimp only at hx
    split at hx
    · rename_i hr
      exact (List.mem_append.mp hx).imp (fun h => h) fun h => ⟨hr,List.mem_singleton.mp h⟩
    · exact .inl hx
  have hold {r : Proc} {x : Id × Proc} (hx : x ∈ v.duty r) : x ∈ (v.join ident p).duty r := by
    unfold View.join
    dsimp only
    split
    · exact List.mem_append_left _ hx
    · exact hx
  refine ⟨?_,fun r => ?_,fun r x hx => ?_,fun r q hx => ?_,fun r q ho => ?_,fun r q hb ho => ?_,h.links_nodup,fun r q hl => ?_,
    fun r q ho hn => ?_,fun r q ho hn => ?_,fun r id x hx => ?_⟩
  · exact List.nodup_append.mpr ⟨h.nodup,List.nodup_singleton p,fun a ha b hb => by
      rw [List.mem_singleton.mp hb]
      rintro rfl
      exact hp ha⟩
  · unfold View.join
    dsimp only
    split
    · refine List.nodup_append.mpr ⟨h.duty_nodup r,List.nodup_singleton _,fun a ha b hb => ?_⟩
      rw [List.mem_singleton.mp hb]
      rintro rfl
      exact hnew r ha
    · exact h.duty_nodup r
  · rcases hmem hx with hx | ⟨hr,rfl⟩
    · obtain ⟨q,rfl,ho⟩ := h.duty_mem r x hx
      exact ⟨q,rfl,(older_join hp).mpr (.inl ho)⟩
    · exact ⟨p,rfl,(older_join hp).mpr (.inr ⟨rfl,hr⟩)⟩
  · rcases hmem hx with hx | ⟨hr,hx⟩
    · exact h.duty_new r q hx
    · rw [(Prod.mk.inj hx).1]
      exact hnone r
  · rcases (older_join hp).mp ho with ho | ⟨rfl,hr⟩
    · exact (h.duty_or r q ho).imp hold id
    · refine .inl ?_
      unfold View.join
      dsimp only
      rw [if_pos hr]
      exact List.mem_append_right _ (List.mem_singleton_self _)
  · rcases (older_join hp).mp ho with ho | ⟨rfl,_⟩
    · exact h.bound r q hb ho
    · exact hnone r
  · obtain ⟨ho,ht⟩ := h.links_mem r q hl
    exact ⟨(older_join hp).mpr (.inl ho),ht⟩
  · rcases (older_join hp).mp ho with ho | ⟨rfl,_⟩
    · exact h.links_or r q ho hn
    · exact absurd (hnone r) hn
  · rcases (older_join hp).mp ho with ho | ⟨rfl,_⟩
    · exact h.accepted r q ho hn
    · exact absurd (hempty _) hn
  · obtain ⟨q,hq,hx,ho⟩ := h.table_mem r id x hx
    exact ⟨q,hq,hx,ho.imp (fun ho => (older_join hp).mpr (.inl ho)) fun ho => (older_join hp).mpr (.inl ho)⟩

/-- A table with another entry. -/
def enter (t : Proc → Id → Option (Option Proc)) (p : Proc) (id : Id) (q : Proc) (r : Proc) (id' : Id) : Option (Option Proc) :=
  if r = p ∧ id' = id then some (some q) else t r id'

theorem enter_of_ne {t : Proc → Id → Option (Option Proc)} {r' : Proc} (hi : Function.Injective ident) (h : ¬(r = p ∧ r' = q)) :
    enter t p (ident q) q r (ident r') = t r (ident r') := if_neg fun h' => h ⟨h'.1,hi h'.2⟩

theorem enter_self {t : Proc → Id → Option (Option Proc)} : enter t p (ident q) q p (ident q) = some (some q) := if_pos ⟨rfl,rfl⟩

theorem enter_ne_none {t : Proc → Id → Option (Option Proc)} {id id' : Id} (h : t r id' ≠ none) : enter t p id q r id' ≠ none := by
  unfold enter
  split
  · simp
  · exact h

theorem enter_some {t : Proc → Id → Option (Option Proc)} {r' : Proc} (hi : Function.Injective ident) (h : t r (ident r') = some (some r')) :
    enter t p (ident q) q r (ident r') = some (some r') := by
  unfold enter
  split
  · rename_i h'
    rw [hi h'.2]
  · exact h

/-- A slave connects to a younger one. -/
theorem Inv.dial (hi : Function.Injective ident) (h : v.Inv ident) (hb : v.bound p = false) {d : List (Id × Proc)}
    (hd : (v.duty p).Perm ((ident q,q) :: d)) :
    Inv ident { v with table := enter v.table p (ident q) q, duty := Function.update v.duty p d, links := v.links ++ [(p,q)] } := by
  have hmem : (ident q,q) ∈ v.duty p := hd.mem_iff.mpr List.mem_cons_self
  have hpq : v.Older p q := by
    obtain ⟨q',he,ho⟩ := h.duty_mem p _ hmem
    rw [(Prod.mk.inj he).2]
    exact ho
  have hnone : v.table p (ident q) = none := h.duty_new p q hmem
  have hqd : (ident q,q) ∉ d := (List.nodup_cons.mp (hd.nodup_iff.mp (h.duty_nodup p))).1
  have hsub {r : Proc} {x : Id × Proc} (hx : x ∈ Function.update v.duty p d r) : x ∈ v.duty r ∧ ¬(r = p ∧ x = (ident q,q)) := by
    rw [Function.update_apply] at hx
    split at hx
    · rename_i hr
      rw [hr]
      exact ⟨hd.mem_iff.mpr (List.mem_cons_of_mem _ hx),fun h => hqd (h.2 ▸ hx)⟩
    · rename_i hr
      exact ⟨hx,fun h => hr h.1⟩
  have hback {r s : Proc} (ho : v.Older r s) : ¬(s = p ∧ r = q) := by
    rintro ⟨rfl,rfl⟩
    exact hpq.asymm ho
  refine ⟨h.nodup,fun r => ?_,fun r x hx => h.duty_mem r x (hsub hx).1,fun r s hx => ?_,fun r s ho => ?_,fun r s hr ho => ?_,?_,
    fun r s hl => ?_,fun r s ho hn => ?_,fun r s ho hn => ?_,fun r id x hx => ?_⟩
  · dsimp only
    rw [Function.update_apply]
    split
    · exact (List.nodup_cons.mp (hd.nodup_iff.mp (h.duty_nodup p))).2
    · exact h.duty_nodup r
  · obtain ⟨hx,hne⟩ := hsub hx
    exact (enter_of_ne hi fun h => hne ⟨h.1,by rw [h.2]⟩).trans (h.duty_new r s hx)
  · by_cases hrs : r = p ∧ s = q
    · rw [hrs.1,hrs.2]
      exact .inr enter_self
    · refine (h.duty_or r s ho).imp (fun hx => ?_) (enter_some hi)
      dsimp only
      rw [Function.update_apply]
      split
      · rename_i hr
        rw [hr] at hx
        refine (List.mem_cons.mp (hd.mem_iff.mp hx)).resolve_left fun he => hrs ⟨hr,(Prod.mk.inj he).2⟩
      · exact hx
  · refine (enter_of_ne hi fun h => ?_).trans (h.bound r s hr ho)
    rw [h.1] at hr
    exact absurd hr (by simp [hb])
  · refine List.nodup_append.mpr ⟨h.links_nodup,List.nodup_singleton _,fun a ha b hb => ?_⟩
    rw [List.mem_singleton.mp hb]
    rintro rfl
    exact (h.links_mem p q ha).2.1 hnone
  · rcases List.mem_append.mp hl with hl | hl
    · obtain ⟨ho,hn,ht⟩ := h.links_mem r s hl
      exact ⟨ho,enter_ne_none hn,(enter_of_ne hi (hback ho)).trans ht⟩
    · cases List.mem_singleton.mp hl
      refine ⟨hpq,by simp [enter_self],(enter_of_ne hi (hback hpq)).trans ?_⟩
      by_contra hne
      exact h.accepted p q hpq hne hnone
  · by_cases hrs : r = p ∧ s = q
    · rw [hrs.1,hrs.2]
      exact .inl (List.mem_append_right _ (List.mem_singleton_self _))
    · have hn : v.table r (ident s) ≠ none := fun he => hn ((enter_of_ne hi hrs).trans he)
      exact (h.links_or r s ho hn).imp (List.mem_append_left _) (enter_some hi)
  · have hn : v.table s (ident r) ≠ none := fun he => hn ((enter_of_ne hi (hback ho)).trans he)
    exact enter_ne_none (h.accepted r s ho hn)
  · have hx : enter v.table p (ident q) q r id = some x := hx
    unfold enter at hx
    split at hx
    · rename_i hr
      cases hx
      rw [hr.1]
      exact ⟨q,hr.2,rfl,.inl hpq⟩
    · exact h.table_mem r id x hx

/-- The id is read from a connection. -/
theorem Inv.accept (hi : Function.Injective ident) (h : v.Inv ident) {l : List (Proc × Proc)} (hl : v.links.Perm ((p,q) :: l)) :
    Inv ident { v with table := enter v.table q (ident p) p, links := l } := by
  obtain ⟨hpq,hne,hnone⟩ := h.links_mem p q (hl.mem_iff.mpr List.mem_cons_self)
  have hback {r s : Proc} (ho : v.Older r s) : ¬(r = q ∧ s = p) := by
    rintro ⟨rfl,rfl⟩
    exact hpq.asymm ho
  have hnd := List.nodup_cons.mp (hl.nodup_iff.mp h.links_nodup)
  refine ⟨h.nodup,h.duty_nodup,h.duty_mem,fun r s hx => ?_,fun r s ho => (h.duty_or r s ho).imp id (enter_some hi),fun r s hr ho => ?_,hnd.2,
    fun r s hx => ?_,fun r s ho hn => ?_,fun r s ho hn => ?_,fun r id x hx => ?_⟩
  · obtain ⟨s',he,ho⟩ := h.duty_mem r _ hx
    rw [← (Prod.mk.inj he).2] at ho
    exact (enter_of_ne hi (hback ho)).trans (h.duty_new r s hx)
  · exact (enter_of_ne hi (hback ho)).trans (h.bound r s hr ho)
  · obtain ⟨ho,hn,ht⟩ := h.links_mem r s (hl.mem_iff.mpr (List.mem_cons_of_mem _ hx))
    refine ⟨ho,enter_ne_none hn,(enter_of_ne hi ?_).trans ht⟩
    rintro ⟨rfl,rfl⟩
    exact hnd.1 hx
  · have hn : v.table r (ident s) ≠ none := fun he => hn ((enter_of_ne hi (hback ho)).trans he)
    rcases h.links_or r s ho hn with hm | ht
    · rcases List.mem_cons.mp (hl.mem_iff.mp hm) with he | hm
      · cases he
        exact .inr enter_self
      · exact .inl hm
    · exact .inr (enter_some hi ht)
  · refine enter_ne_none ?_
    by_cases hs : s = q ∧ r = p
    · rw [hs.1,hs.2]
      exact hne
    · have hn : v.table s (ident r) ≠ none := fun he => hn ((enter_of_ne hi hs).trans he)
      exact h.accepted r s ho hn
  · have hx : enter v.table q (ident p) p r id = some x := hx
    unfold enter at hx
    split at hx
    · rename_i hr
      cases hx
      rw [hr.1]
      exact ⟨p,hr.2,rfl,.inr hpq⟩
    · exact h.table_mem r id x hx

end View
end MyProgram.Harbor
