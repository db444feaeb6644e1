import MyProgram.SkynetGate.HashidWf

/-! Initialising, inserting and removing keep the id hash well formed. -/
namespace MyProgram.SkynetGate.Hashid
open Lib
variable {hi hi' : Hashid} {id i : Int} {s t c : Nat}

private theorem hashcapLoop_zero {max : Int} (hm : 0 < max) (fuel : Nat) : hashcapLoop max fuel 0 = none := by
  induction fuel with
  | zero => rfl
  | succ fuel ih => simpa [hashcapLoop,hm,wrap32] using ih

/-- Where the doubling loop ends, it ends at a power of two that is at least `max`. -/
theorem hashcapLoop_eq_some {max hashcap : Int} (fuel : Nat) {k : Nat} (hk : k ≤ 30)
    (h : hashcapLoop max fuel (2^k) = some hashcap) :
    ∃ j, k ≤ j ∧ j ≤ 30 ∧ hashcap = 2^j ∧ max ≤ 2^j := by
  induction fuel generalizing k with
  | zero => cases h
  | succ fuel ih =>
    rw [hashcapLoop] at h
    split at h
    · rename_i hlt
      by_cases h30 : k = 30
      · -- doubling 2^30 leaves the range: the next values are -2^31 and then 0 for ever
        subst h30
        have hw : wrap32 ((2:Int)^30 * 2) = -2^31 := by decide
        rw [hw] at h
        cases fuel with
        | zero => cases h
        | succ fuel =>
          have hz : wrap32 ((-2^31 : Int) * 2) = 0 := by decide
          rw [hashcapLoop,if_pos (by omega),hz,hashcapLoop_zero (by omega)] at h
          cases h
      · have hle : (2:Int)^(k+1) ≤ 2^30 := pow_le_pow_right₀ (by norm_num) (by omega)
        have hp : (0:Int) < 2^(k+1) := by positivity
        have hw : wrap32 ((2:Int)^k * 2) = 2^(k+1) := by
          rw [← pow_succ]
          exact wrap32_eq (by omega) (by omega)
        rw [hw] at h
        obtain ⟨j,hj,hr⟩ := ih (by omega) h
        exact ⟨j,by omega,hr⟩
    · cases h
      exact ⟨k,le_rfl,hk,rfl,by omega⟩

private theorem countP_replicate_free (n : Nat) :
    (List.replicate n (⟨-1,none⟩ : HashidNode)).countP (fun n => n.id ≠ -1) = 0 := by
  simp [List.countP_eq_zero]

/-- `hashid_init` returns only with an empty table of the requested capacity. -/
theorem init_spec {max : Int} {fx : List Effect} (h : hashidInit max = .ok hi fx) :
    hi.Wf ∧ 0 ≤ max ∧ hi.cap = max ∧ (∀ s < max.toNat, hi.idAt s = some (-1)) ∧ fx = [] := by
  unfold hashidInit at h
  split at h
  · cases h
  · rename_i hashcap hl
    split at h
    · cases h
    · rename_i hneg
      obtain ⟨j,hj4,hj,rfl,hle⟩ := hashcapLoop_eq_some 32 (k := 4) (by omega) hl
      simp only [Act.pure_eq,Act.ok.injEq] at h
      obtain ⟨rfl,rfl⟩ := h
      have hlen : ((2:Int)^j).toNat = 2^j := by
        rw [show (2:Int)^j = ((2^j : Nat) : Int) by push_cast; rfl,Int.toNat_natCast]
      have hid (s : Nat) (i : Int) (h : (List.replicate max.toNat (⟨-1,none⟩ : HashidNode))[s]?.map (·.id) = some i) :
          i = -1 := by
        obtain ⟨n,hn,rfl⟩ := Option.map_eq_some_iff.mp h
        rw [List.getElem?_replicate] at hn
        split at hn <;> cases hn
        rfl
      refine ⟨⟨⟨j,hj4,hj,rfl,by simp [hlen]⟩,by simp; omega,?_,?_,?_,?_,?_,?_⟩,by omega,rfl,?_,rfl⟩
      · have : (max.toNat : Int) ≤ ((2^j : Nat) : Int) := by push_cast; omega
        simp only [List.length_replicate,hlen]
        exact_mod_cast this
      · intro s i h
        rw [hid s i h]
      · intro s _
        simp only [next,List.getElem?_replicate]
        split <;> rfl
      · intro s t i hne h
        exact absurd (hid s i h) hne
      · intro h hh
        refine ⟨[],?_,fun s => ⟨fun hs => ?_,?_⟩⟩
        · simp only [head,List.getElem?_replicate,Chain.nil_iff]
          split <;> rfl
        · cases hs
        · rintro ⟨i,hi',hne,_⟩
          exact absurd (hid s i hi') hne
      · change (0:Int) = _
        rw [countP_replicate_free]
        rfl
      · intro s hs
        simp [idAt,hs]

/-- The probing loop stops at a free slot of the array. -/
theorem insertLoop_some {left j : Nat} {fx : List Effect} (h : insertLoop hi id j left = .ok (some c) fx) :
    hi.idAt c = some (-1) ∧ fx = [] := by
  induction left generalizing j fx with
  | zero => cases h
  | succ left ih =>
    rw [insertLoop] at h
    obtain ⟨n,fx₁,fx₂,hn,hr,rfl⟩ := Act.bind_eq_ok.mp h
    obtain ⟨h0,hget,rfl⟩ := Act.read_eq_ok.mp hn
    split at hr
    · rename_i hfree
      simp only [Act.pure_eq,Act.ok.injEq,Option.some.injEq] at hr
      obtain ⟨rfl,rfl⟩ := hr
      exact ⟨by simp [idAt,hget,hfree],rfl⟩
    · obtain ⟨hc,rfl⟩ := ih hr
      exact ⟨hc,rfl⟩

/-- Some free slot is probed before `i + id` leaves the range of `int`. -/
def ProbeFits (hi : Hashid) (id : Int) : Prop :=
  ∃ j, j < hi.id.length ∧ id + j < 2^31 ∧ hi.idAt ((id + j) % hi.id.length).toNat = some (-1)

instance (hi : Hashid) (id : Int) : Decidable (hi.ProbeFits id) :=
  inferInstanceAs (Decidable (∃ j, j < hi.id.length ∧ _))

/-- As long as `i + id` is an `int`, the probes go round the array. -/
theorem probe_index (hcap : hi.cap = hi.id.length) (h0 : 0 ≤ id) {j : Nat} (hj : id + j < 2^31) :
    (wrap32 (j + id)).tmod hi.cap = ((id + j) % hi.id.length).toNat := by
  rw [wrap32_eq (by omega) (by omega),hcap,Int.tmod_eq_emod_of_nonneg (by omega),Int.add_comm]
  rcases Nat.eq_zero_or_pos hi.id.length with hz | hp
  · simp [hz]
    omega
  · rw [Int.toNat_of_nonneg (Int.emod_nonneg _ (by omega))]

private theorem insertLoop_progress (w : hi.Wf) (h0 : 0 ≤ id) (j left : Nat) {e : Nat} (hj : e = j + left)
    (hp : ∃ k, j ≤ k ∧ k < e ∧ id + k < 2^31 ∧ hi.idAt ((id + k) % hi.id.length).toNat = some (-1)) :
    ∃ c, insertLoop hi id j left = .ok (some c) [] := by
  induction left generalizing j with
  | zero =>
    obtain ⟨k,hk,hke,_⟩ := hp
    omega
  | succ left ih =>
    obtain ⟨k,hk,hke,hfit,hfree⟩ := hp
    have hlen : 0 < hi.id.length := Nat.lt_of_le_of_lt (Nat.zero_le _) (idAt_lt hfree)
    have hfit' : id + j < 2^31 := by omega
    have hlt : ((id + j) % hi.id.length).toNat < hi.id.length := by
      have := Int.emod_lt_of_pos (id + j) (show (0:Int) < hi.id.length by omega)
      have := Int.emod_nonneg (id + j) (show (hi.id.length : Int) ≠ 0 by omega)
      omega
    obtain ⟨i,hi'⟩ : ∃ i, hi.idAt ((id + j) % hi.id.length).toNat = some i :=
      ⟨hi.id[((id + j) % hi.id.length).toNat].id,by simp [idAt,hlt]⟩
    rw [insertLoop,probe_index w.cap h0 hfit',node_eq hi']
    by_cases he : i = -1
    · simp only [Act.bind_ok,if_pos he,Act.after_nil]
      exact ⟨_,rfl⟩
    · simp only [Act.bind_ok,if_neg he,Act.after_nil]
      refine ih (j + 1) (by omega) ⟨k,?_,hke,hfit,hfree⟩
      have : k ≠ j := by
        rintro rfl
        rw [hi'] at hfree
        exact he (Option.some.inj hfree)
      omega

private theorem countP_set_used (hc : hi.idAt s = some (-1)) {n : HashidNode} (hn : n.id ≠ -1) :
    (hi.id.set s n).countP (fun n => n.id ≠ -1) = hi.id.countP (fun n => n.id ≠ -1) + 1 := by
  have hlt := idAt_lt hc
  have hs : hi.id[s].id = -1 := by simpa [idAt,hlt] using hc
  rw [List.countP_set hlt]
  simp [hs,hn]

private theorem countP_set_free (hc : hi.idAt s = some i) (hne : i ≠ -1) (p : Option Nat) :
    (hi.id.set s ⟨-1,p⟩).countP (fun n => n.id ≠ -1) + 1 = hi.id.countP (fun n => n.id ≠ -1) := by
  have hlt := idAt_lt hc
  have hs : hi.id[s].id = i := by simpa [idAt,hlt] using hc
  have hpos : 0 < hi.id.countP (fun n => n.id ≠ -1) :=
    List.countP_pos_iff.mpr ⟨hi.id[s],List.getElem_mem hlt,by simpa [hs] using hne⟩
  rw [List.countP_set hlt]
  simp only [hs,ne_eq,hne,not_false_eq_true,not_true_eq_false,decide_true,decide_false,if_true,
    Bool.false_eq_true,if_false] at hpos ⊢
  omega

theorem Wf.count_le (w : hi.Wf) : 0 ≤ hi.count ∧ hi.count ≤ hi.id.length := by
  have := List.countP_le_length (p := fun n : HashidNode => decide (n.id ≠ -1)) (l := hi.id)
  have := w.count
  omega

/-- The table after `hashid_insert` has taken the free slot `c`. -/
private def link (hi : Hashid) (c : Nat) (id : Int) : Hashid := { hi with
  count := wrap32 (hi.count + 1)
  id := hi.id.set c ⟨id,hi.head (hi.index id)⟩
  hash := hi.hash.set (hi.index id) (some c) }

private theorem link_idAt (hc : c < hi.id.length) : (link hi c id).idAt = Function.update hi.idAt c (some id) :=
  idAt_set ⟨id,hi.head (hi.index id)⟩ hc

private theorem link_next (hc : c < hi.id.length) :
    (link hi c id).next = Function.update hi.next c (hi.head (hi.index id)) :=
  next_set ⟨id,hi.head (hi.index id)⟩ hc

private theorem link_head (w : hi.Wf) :
    (link hi c id).head = Function.update hi.head (hi.index id) (some c) :=
  head_set (some c) (w.index_lt id)

private theorem link_chains (w : hi.Wf) (h0 : 0 ≤ id) (hc : hi.idAt c = some (-1)) {h : Nat}
    (hh : h < hi.hash.length) :
    ∃ l, Chain (link hi c id).next ((link hi c id).head h) l ∧
      ∀ s, s ∈ l ↔ ∃ i, (link hi c id).idAt s = some i ∧ i ≠ -1 ∧ i % hi.hash.length = h := by
  have hidx := w.index_cast id
  obtain ⟨l,hch,hm⟩ := w.chains h hh
  have hcl : c ∉ l := by
    intro hmem
    obtain ⟨i,hi',hne,_⟩ := (hm c).mp hmem
    rw [hc] at hi'
    exact hne (Option.some.inj hi').symm
  have hframe : Chain (link hi c id).next (hi.head h) l := hch.congr (fun a ha => by
    rw [link_next (idAt_lt hc),Function.update_of_ne (by rintro rfl; exact hcl ha)])
  rw [link_head w,link_idAt (idAt_lt hc)]
  by_cases he : h = hi.index id
  · subst he
    refine ⟨c :: l,?_,?_⟩
    · rw [Function.update_self]
      refine ⟨rfl,?_⟩
      rw [link_next (idAt_lt hc),Function.update_self,← link_next (idAt_lt hc)]
      exact hframe
    · intro s
      by_cases hsc : s = c
      · subst hsc
        simp only [List.mem_cons,true_or,Function.update_self,true_iff]
        exact ⟨id,rfl,by omega,hidx.symm⟩
      · simp [hm,hsc]
  · refine ⟨l,?_,?_⟩
    · rw [Function.update_of_ne he]
      exact hframe
    · intro s
      by_cases hsc : s = c
      · subst hsc
        rw [Function.update_self]
        constructor
        · intro hmem
          exact absurd hmem hcl
        · rintro ⟨i,hi',_,hi''⟩
          rw [← Option.some.inj hi'] at hi''
          omega
      · rw [Function.update_of_ne hsc,hm]

private theorem link_wf (w : hi.Wf) (h0 : 0 ≤ id) (hnew : ∀ s, hi.idAt s ≠ some id)
    (hc : hi.idAt c = some (-1)) : (link hi c id).Wf ∧ (link hi c id).count = hi.count + 1 := by
  have hlt := idAt_lt hc
  have hcl := w.count_le
  have hcap := w.cap_le
  have h30 := w.hash_le
  have hhl : (link hi c id).hash.length = hi.hash.length := List.length_set
  have hil : (link hi c id).id.length = hi.id.length := List.length_set
  have hct : (link hi c id).count = hi.count + 1 := wrap32_eq (by omega) (by omega)
  refine ⟨⟨hhl ▸ w.mask,hil ▸ w.cap,by omega,?_,?_,?_,?_,?_⟩,hct⟩
  · intro s i hs
    rw [link_idAt hlt] at hs
    by_cases hsc : s = c
    · rw [hsc,Function.update_self] at hs
      cases hs
      omega
    · rw [Function.update_of_ne hsc] at hs
      exact w.ids s i hs
  · intro s hs
    rw [link_idAt hlt] at hs
    by_cases hsc : s = c
    · rw [hsc,Function.update_self] at hs
      have := Option.some.inj hs
      omega
    · rw [Function.update_of_ne hsc] at hs
      rw [link_next hlt,Function.update_of_ne hsc]
      exact w.free s hs
  · intro s t i hi' hs ht
    rw [link_idAt hlt] at hs ht
    by_cases hsc : s = c <;> by_cases htc : t = c
    · rw [hsc,htc]
    · rw [hsc,Function.update_self] at hs
      rw [Function.update_of_ne htc,← Option.some.inj hs] at ht
      exact absurd ht (hnew t)
    · rw [htc,Function.update_self] at ht
      rw [Function.update_of_ne hsc,← Option.some.inj ht] at hs
      exact absurd hs (hnew s)
    · rw [Function.update_of_ne hsc] at hs
      rw [Function.update_of_ne htc] at ht
      exact w.inj s t i hi' hs ht
  · rw [hhl]
    intro h hh
    exact link_chains w h0 hc hh
  · rw [hct,w.count]
    have := countP_set_used hc (n := ⟨id,hi.head (hi.index id)⟩) (show id ≠ -1 by omega)
    change _ = ((hi.id.set c ⟨id,hi.head (hi.index id)⟩).countP _ : Int)
    omega

private theorem insert_eq_link (w : hi.Wf) (hc : hi.idAt c = some (-1)) (hl : insertLoop hi id 0 hi.cap.toNat = .ok (some c) []) :
    hashidInsert hi id = .ok (link hi c id,(c : Int)) [] := by
  have hfirst : (if (hi.head (hi.index id)).isSome then hi.head (hi.index id) else none) = hi.head (hi.index id) := by
    cases hi.head (hi.index id) <;> rfl
  rw [hashidInsert,hl]
  simp only [Act.bind_ok,node_eq hc,w.free c hc,ne_eq,not_true_eq_false,if_false,w.read_bucket,
    Act.after_nil,Act.pure_eq,hfirst]
  rw [w.bucket_eq,Int.toNat_natCast]
  rfl

/-- An id that no slot holds moves to a free slot, at the front of its bucket's
chain; every other slot keeps its id. -/
theorem Wf.insert_spec (w : hi.Wf) (h0 : 0 ≤ id) (hnew : hi.slot id = none) {r : Int} {fx : List Effect}
    (h : hashidInsert hi id = .ok (hi',r) fx) :
    ∃ s : Nat, r = s ∧ fx = [] ∧ hi.idAt s = some (-1) ∧ hi'.Wf ∧
      hi'.idAt = Function.update hi.idAt s (some id) ∧ hi'.id.length = hi.id.length ∧
      hi'.count = hi.count + 1 := by
  have hnone := (w.slot_eq_none.mp hnew).resolve_left (by omega)
  have hkeep := h
  rw [hashidInsert] at h
  obtain ⟨found,fx₁,fx₂,hl,hr,_⟩ := Act.bind_eq_ok.mp h
  cases found with
  | none => cases hr
  | some c =>
    obtain ⟨hc,rfl⟩ := insertLoop_some hl
    rw [insert_eq_link w hc hl] at hkeep
    cases hkeep
    obtain ⟨hw,hct⟩ := link_wf w h0 hnone hc
    exact ⟨c,rfl,rfl,hc,hw,link_idAt (idAt_lt hc),List.length_set,hct⟩

/-- Inserting succeeds whenever a free slot is probed without overflow. -/
theorem Wf.insert_progress (w : hi.Wf) (h0 : 0 ≤ id) (hp : hi.ProbeFits id) :
    ∃ hi' r, hashidInsert hi id = .ok (hi',r) [] := by
  obtain ⟨j,hj,hr⟩ := hp
  obtain ⟨c,hc⟩ := insertLoop_progress w h0 0 hi.cap.toNat (show hi.id.length = _ by rw [w.cap]; simp)
    ⟨j,by omega,hj,hr⟩
  exact ⟨_,_,insert_eq_link w (insertLoop_some hc).1 hc⟩

/-- A table that is not full has a free slot, which is probed in time whenever
`id + cap` is an `int`. -/
theorem Wf.probeFits (w : hi.Wf) (hfit : id + hi.cap < 2^31) (hfull : hashidFull hi = false) :
    hi.ProbeFits id := by
  have hct : hi.id.countP (fun n => n.id ≠ -1) ≠ hi.id.length := by
    intro he
    have := w.count
    have := w.cap
    simp only [hashidFull,decide_eq_false_iff_not] at hfull
    omega
  obtain ⟨n,hn,hfree⟩ : ∃ n ∈ hi.id, n.id = -1 := by
    by_contra hno
    exact hct (List.countP_eq_length.mpr (fun n hn => by
      simp only [ne_eq,decide_eq_true_eq]
      exact fun h => hno ⟨n,hn,h⟩))
  obtain ⟨s,hs,rfl⟩ := List.getElem_of_mem hn
  have hcap := w.cap
  have hpos : (0:Int) < hi.id.length := by omega
  have hj0 := Int.emod_nonneg ((s:Int) - id) hpos.ne'
  have hj1 := Int.emod_lt_of_pos ((s:Int) - id) hpos
  refine ⟨(((s:Int) - id) % hi.id.length).toNat,by omega,by omega,?_⟩
  have hmod : (id + (((s:Int) - id) % hi.id.length).toNat) % hi.id.length = s := by
    rw [Int.toNat_of_nonneg hj0,Int.add_emod_emod,add_sub_cancel,Int.emod_eq_of_lt (by omega) (by omega)]
  rw [hmod]
  simp [idAt,hs,hfree]

private theorem removeLoop_spec (l : List Nat) (c fuel : Nat) (hc : Chain hi.next (some c) (c :: l))
    (hl : ∀ s ∈ c :: l, ∃ i, hi.idAt s = some i) (hf : l.length < fuel) :
    (removeLoop hi id fuel c = .ok none [] ∧ ∀ s ∈ l, hi.idAt s ≠ some id) ∨
      ∃ pre p t post, c :: l = pre ++ p :: t :: post ∧ hi.idAt t = some id ∧
        removeLoop hi id fuel c = .ok (some (p,t)) [] := by
  induction l generalizing c fuel with
  | nil =>
    obtain ⟨i,hi'⟩ := hl c (by simp)
    have hn : hi.next c = none := hc.2
    cases fuel with
    | zero => simp at hf
    | succ fuel =>
      refine .inl ⟨?_,by simp⟩
      rw [removeLoop,node_eq hi',hn]
      rfl
  | cons t l ih =>
    obtain ⟨i,hi'⟩ := hl c (by simp)
    obtain ⟨j,hj⟩ := hl t (by simp)
    have hn : hi.next c = some t := hc.2.1
    cases fuel with
    | zero => simp at hf
    | succ fuel =>
      rw [removeLoop,node_eq hi',hn]
      simp only [Act.bind_ok,Act.after_nil,node_eq hj]
      by_cases he : j = id
      · subst he
        exact .inr ⟨[],c,t,l,rfl,hj,by simp⟩
      · simp only [if_neg he]
        have ht : Chain hi.next (some t) (t :: l) := ⟨rfl,hc.2.2⟩
        rcases ih t fuel ht (fun s hs => hl s (by simp [hs])) (by simpa using hf) with ⟨hr,hno⟩ | ⟨pre,p,u,post,hs,hu,hr⟩
        · refine .inl ⟨hr,fun s hs => ?_⟩
          rcases List.mem_cons.mp hs with rfl | hs
          · rw [hj]
            simpa using he
          · exact hno s hs
        · exact .inr ⟨c :: pre,p,u,post,by rw [hs]; rfl,hu,hr⟩

/-- What `hashid_remove` makes of the table: the slot `t` is freed and the chain
`l` of its bucket closes over it. -/
private structure Unlinked (hi hi' : Hashid) (h : Nat) (l : List Nat) (t : Nat) : Prop where
  hashmod : hi'.hashmod = hi.hashmod
  cap : hi'.cap = hi.cap
  hash : hi'.hash.length = hi.hash.length
  length : hi'.id.length = hi.id.length
  idAt : hi'.idAt = Function.update hi.idAt t (some (-1))
  cleared : hi'.next t = none
  next : ∀ s, s ∉ l → hi'.next s = hi.next s
  head : ∀ h', h' ≠ h → hi'.head h' = hi.head h'
  count : hi'.count = hi.count - 1
  used : (hi'.id.countP (fun n => n.id ≠ -1) : Int) = hi.id.countP (fun n => n.id ≠ -1) - 1
  chain : ∃ l', Chain hi'.next (hi'.head h) l' ∧ ∀ s, s ∈ l' ↔ s ∈ l ∧ s ≠ t

private theorem Unlinked.chains {h : Nat} {l : List Nat} (w : hi.Wf) (u : Unlinked hi hi' h l t)
    (hm : ∀ s, s ∈ l ↔ ∃ i, hi.idAt s = some i ∧ i ≠ -1 ∧ i % hi.hash.length = h) (ht : t ∈ l)
    {h' : Nat} (hh : h' < hi.hash.length) :
    ∃ l', Chain hi'.next (hi'.head h') l' ∧
      ∀ s, s ∈ l' ↔ ∃ i, hi'.idAt s = some i ∧ i ≠ -1 ∧ i % hi.hash.length = h' := by
  have hid (s : Nat) (i : Int) : hi'.idAt s = some i ∧ i ≠ -1 ↔ s ≠ t ∧ hi.idAt s = some i ∧ i ≠ -1 := by
    rw [u.idAt]
    by_cases hst : s = t
    · subst hst
      simp only [Function.update_self,Option.some.injEq,ne_eq,not_true_eq_false,false_and,iff_false]
      rintro ⟨rfl,hne⟩
      exact hne rfl
    · simp [hst]
  by_cases he : h' = h
  · subst he
    obtain ⟨l',hc,hl'⟩ := u.chain
    refine ⟨l',hc,fun s => ?_⟩
    rw [hl',hm]
    constructor
    · rintro ⟨⟨i,h1,h2,h3⟩,hst⟩
      obtain ⟨h4,h5⟩ := (hid s i).mpr ⟨hst,h1,h2⟩
      exact ⟨i,h4,h5,h3⟩
    · rintro ⟨i,h1,h2,h3⟩
      obtain ⟨h4,h5,h6⟩ := (hid s i).mp ⟨h1,h2⟩
      exact ⟨⟨i,h5,h6,h3⟩,h4⟩
  · obtain ⟨l',hc,hm'⟩ := w.chains h' hh
    have hdisj (s : Nat) (hs : s ∈ l') : s ∉ l := by
      intro hsl
      obtain ⟨i,h1,_,h2⟩ := (hm' s).mp hs
      obtain ⟨j,h3,_,h4⟩ := (hm s).mp hsl
      rw [h1] at h3
      cases h3
      omega
    refine ⟨l',?_,fun s => ?_⟩
    · rw [u.head h' he]
      exact hc.congr (fun s hs => u.next s (hdisj s hs))
    · rw [hm']
      constructor
      · rintro ⟨i,h1,h2,h3⟩
        have hst : s ≠ t := by
          rintro rfl
          exact hdisj s ((hm' s).mpr ⟨i,h1,h2,h3⟩) ht
        obtain ⟨h4,h5⟩ := (hid s i).mpr ⟨hst,h1,h2⟩
        exact ⟨i,h4,h5,h3⟩
      · rintro ⟨i,h1,h2,h3⟩
        obtain ⟨_,h5,h6⟩ := (hid s i).mp ⟨h1,h2⟩
        exact ⟨i,h5,h6,h3⟩

private theorem Unlinked.wf {h : Nat} {l : List Nat} (w : hi.Wf) (u : Unlinked hi hi' h l t)
    (hm : ∀ s, s ∈ l ↔ ∃ i, hi.idAt s = some i ∧ i ≠ -1 ∧ i % hi.hash.length = h) (ht : t ∈ l) : hi'.Wf := by
  have hne (s : Nat) (i : Int) (hs : hi'.idAt s = some i) : s = t ∧ i = -1 ∨ s ≠ t ∧ hi.idAt s = some i := by
    rw [u.idAt] at hs
    by_cases hst : s = t
    · subst hst
      rw [Function.update_self] at hs
      exact .inl ⟨rfl,(Option.some.inj hs).symm⟩
    · rw [Function.update_of_ne hst] at hs
      exact .inr ⟨hst,hs⟩
  refine ⟨?_,?_,?_,?_,?_,?_,?_,?_⟩
  · rw [u.hashmod,u.hash]
    exact w.mask
  · rw [u.cap,u.length]
    exact w.cap
  · rw [u.length,u.hash]
    exact w.cap_le
  · intro s i hs
    rcases hne s i hs with ⟨_,rfl⟩ | ⟨_,hs⟩
    · exact le_rfl
    · exact w.ids s i hs
  · intro s hs
    rcases hne s _ hs with ⟨rfl,_⟩ | ⟨hst,hs⟩
    · exact u.cleared
    · have hsl : s ∉ l := by
        intro hmem
        obtain ⟨i,h1,h2,_⟩ := (hm s).mp hmem
        rw [hs] at h1
        exact h2 (Option.some.inj h1).symm
      rw [u.next s hsl]
      exact w.free s hs
  · intro a b i hi'' ha hb
    rcases hne a i ha with ⟨_,rfl⟩ | ⟨_,ha⟩
    · exact absurd rfl hi''
    · rcases hne b i hb with ⟨_,rfl⟩ | ⟨_,hb⟩
      · exact absurd rfl hi''
      · exact w.inj a b i hi'' ha hb
  · rw [u.hash]
    intro h' hh
    exact u.chains w hm ht hh
  · rw [u.count,u.used,w.count]

private theorem removeClear_count (w : hi.Wf) (hi₁ : Hashid) (hc : hi₁.count = hi.count)
    (hp : hi₁.id.countP (fun n => n.id ≠ -1) = hi.id.countP (fun n => n.id ≠ -1))
    (ht : hi₁.idAt t = some i) (hne : i ≠ -1) :
    (removeClear hi₁ t).count = hi.count - 1 ∧
      ((removeClear hi₁ t).id.countP (fun n => n.id ≠ -1) : Int) = hi.id.countP (fun n => n.id ≠ -1) - 1 := by
  have hcl := w.count_le
  have hcap := w.cap_le
  have h30 := w.hash_le
  have := countP_set_free ht hne none
  refine ⟨?_,?_⟩
  · rw [← hc]
    exact wrap32_eq (by omega) (by omega)
  · change ((hi₁.id.set t ⟨-1,none⟩).countP _ : Int) = _
    omega

private theorem unlink_first (w : hi.Wf) {l : List Nat} (hc : Chain hi.next (hi.head (hi.index id)) (t :: l))
    (ht : hi.idAt t = some i) (hne : i ≠ -1) :
    Unlinked hi (removeClear { hi with hash := hi.hash.set (hi.index id) (hi.next t) } t) (hi.index id) (t :: l) t := by
  have hlt := idAt_lt ht
  have htl : t ∉ l := (List.nodup_cons.mp hc.nodup).1
  set hi₁ : Hashid := { hi with hash := hi.hash.set (hi.index id) (hi.next t) }
  have hcols : (removeClear hi₁ t).next = Function.update hi.next t none := next_set ⟨-1,none⟩ hlt
  have hhead : (removeClear hi₁ t).head = Function.update hi.head (hi.index id) (hi.next t) :=
    head_set (hi.next t) (w.index_lt id)
  obtain ⟨hct,hcp⟩ := removeClear_count w hi₁ rfl rfl ht hne
  refine ⟨rfl,rfl,List.length_set,List.length_set,idAt_set ⟨-1,none⟩ hlt,?_,?_,?_,hct,hcp,l,?_,?_⟩
  · rw [hcols,Function.update_self]
  · intro s hs
    rw [hcols,Function.update_of_ne (by rintro rfl; simp at hs)]
  · intro h' hh
    rw [hhead,Function.update_of_ne hh]
  · rw [hhead,Function.update_self]
    refine hc.2.congr (fun s hs => ?_)
    rw [hcols,Function.update_of_ne (by rintro rfl; exact htl hs)]
  · intro s
    rw [List.mem_cons]
    constructor
    · intro hs
      exact ⟨.inr hs,by rintro rfl; exact htl hs⟩
    · rintro ⟨rfl | hs,hst⟩
      · exact absurd rfl hst
      · exact hs

private theorem unlink_inner (w : hi.Wf) {pre post : List Nat} {p : Nat} {j : Int}
    (hc : Chain hi.next (hi.head (hi.index id)) (pre ++ p :: t :: post))
    (hp : hi.idAt p = some j) (ht : hi.idAt t = some i) (hne : i ≠ -1) :
    Unlinked hi (removeClear { hi with id := hi.id.set p ⟨j,hi.next t⟩ } t) (hi.index id) (pre ++ p :: t :: post) t := by
  have hlp := idAt_lt hp
  have hlt := idAt_lt ht
  have hnd := hc.nodup
  have hpt : p ≠ t := by
    rintro rfl
    simp [List.nodup_append] at hnd
  have hpp : ∀ s ∈ pre ++ post, s ≠ p ∧ s ≠ t := by
    intro s hs
    simp only [List.nodup_append,List.nodup_cons,List.mem_cons] at hnd
    rcases List.mem_append.mp hs with h | h
    · exact ⟨hnd.2.2 s h p (by simp),hnd.2.2 s h t (by simp)⟩
    · exact ⟨by rintro rfl; exact hnd.2.1.1 (.inr h),by rintro rfl; exact hnd.2.1.2.1 h⟩
  set hi₁ : Hashid := { hi with id := hi.id.set p ⟨j,hi.next t⟩ } with hdef
  have hl₁ : hi₁.id.length = hi.id.length := List.length_set
  have hid₁ : hi₁.idAt = hi.idAt := by
    rw [hdef,idAt_set _ hlp]
    exact Function.update_eq_self_iff.mpr hp.symm
  have hcp₁ : hi₁.id.countP (fun n => n.id ≠ -1) = hi.id.countP (fun n => n.id ≠ -1) := by
    have hj : hi.id[p].id = j := by simpa [idAt,hlp] using hp
    rw [hdef,List.countP_set hlp]
    by_cases hj1 : j = -1
    · simp [hj,hj1]
    · have hpos : 0 < hi.id.countP (fun n => n.id ≠ -1) :=
        List.countP_pos_iff.mpr ⟨hi.id[p],List.getElem_mem hlp,by simpa [hj] using hj1⟩
      simp only [hj,ne_eq,hj1,not_false_eq_true,decide_true,if_true] at hpos ⊢
      omega
  have hcols : (removeClear hi₁ t).next = Function.update (Function.update hi.next p (hi.next t)) t none := by
    rw [← next_set ⟨j,hi.next t⟩ hlp]
    exact next_set ⟨-1,none⟩ (hl₁ ▸ hlt)
  obtain ⟨hct,hcp⟩ := removeClear_count w hi₁ rfl hcp₁ (hid₁ ▸ ht) hne
  refine ⟨rfl,rfl,rfl,?_,?_,?_,?_,fun _ _ => rfl,hct,hcp,pre ++ p :: post,?_,?_⟩
  · exact List.length_set.trans hl₁
  · rw [← hid₁]
    exact idAt_set ⟨-1,none⟩ (hl₁ ▸ hlt)
  · rw [hcols,Function.update_self]
  · intro s hs
    simp only [List.mem_append,List.mem_cons,not_or] at hs
    rw [hcols,Function.update_of_ne hs.2.2.1,Function.update_of_ne hs.2.1]
  · refine hc.unlink ?_ (fun s hs => ?_)
    · rw [hcols,Function.update_of_ne hpt,Function.update_self]
    · rw [hcols,Function.update_of_ne (hpp s hs).2,Function.update_of_ne (hpp s hs).1]
  · intro s
    simp only [List.mem_append,List.mem_cons]
    constructor
    · rintro (h | rfl | h)
      · exact ⟨.inl h,(hpp s (by simp [h])).2⟩
      · exact ⟨.inr (.inl rfl),hpt⟩
      · exact ⟨.inr (.inr (.inr h)),(hpp s (by simp [h])).2⟩
    · rintro ⟨h | rfl | rfl | h,hst⟩
      · exact .inl h
      · exact .inr (.inl rfl)
      · exact absurd rfl hst
      · exact .inr (.inr h)

/-- Removing an id frees the slot that holds it and no other; removing an id that
no slot holds changes nothing. -/
theorem Wf.remove_spec (w : hi.Wf) (id : Int) :
    ∃ hi', hashidRemove hi id = .ok (hi',ret (hi.slot id)) [] ∧ hi'.Wf ∧ hi'.id.length = hi.id.length ∧
      match hi.slot id with
      | none => hi' = hi
      | some t => hi'.idAt = Function.update hi.idAt t (some (-1)) ∧ hi'.count = hi.count - 1 := by
  obtain ⟨l,hc,hm⟩ := w.chains _ (w.index_lt id)
  have hall : ∀ s ∈ l, ∃ i, hi.idAt s = some i := fun s hs => by
    obtain ⟨i,h,_⟩ := (hm s).mp hs
    exact ⟨i,h⟩
  have hused : ∀ s ∈ l, hi.idAt s = some id → hi.slot id = some s := by
    intro s hs he
    obtain ⟨i,hi',hne,_⟩ := (hm s).mp hs
    rw [he] at hi'
    cases hi'
    exact w.slot_eq_some.mpr ⟨hne,he⟩
  have hnone (hno : ∀ s ∈ l, hi.idAt s ≠ some id) : hi.slot id = none := by
    rw [w.slot_eq_none]
    by_cases h1 : id = -1
    · exact .inl h1
    · exact .inr (fun s hs => hno s ((hm s).mpr ⟨id,hs,h1,(w.index_cast id).symm⟩) hs)
  rw [hashidRemove,w.read_bucket]
  simp only [Act.bind_ok,Act.after_nil]
  cases l with
  | nil =>
    have hh : hi.head (hi.index id) = none := hc
    rw [hh,hnone (by simp)]
    exact ⟨hi,rfl,w,rfl,rfl⟩
  | cons c l =>
    obtain ⟨i,hi'⟩ := hall c (by simp)
    rw [hc.1]
    simp only [node_eq hi',Act.bind_ok,Act.after_nil]
    by_cases he : i = id
    · subst he
      have hs := hused c (by simp) hi'
      have hne := (w.slot_eq_some.mp hs).1
      have hu := unlink_first w hc hi' hne
      rw [hs,if_pos rfl,w.bucket_eq,Int.toNat_natCast]
      exact ⟨_,rfl,hu.wf w hm (by simp),hu.length,hu.idAt,hu.count⟩
    · have hci : Chain hi.next (some c) (c :: l) := ⟨rfl,hc.2⟩
      rw [if_neg he]
      rcases removeLoop_spec l c _ hci hall (Nat.lt_of_succ_le (Wf.chain_length hc hm)) with
        ⟨hr,hno⟩ | ⟨pre,p,t,post,hl,ht,hr⟩
      · have hs := hnone (fun s hs => by
          rcases List.mem_cons.mp hs with rfl | hs
          · rw [hi']
            simpa using he
          · exact hno s hs)
        rw [hr,hs]
        exact ⟨hi,rfl,w,rfl,rfl⟩
      · have hs := hused t (by rw [hl]; simp) ht
        have hne := (w.slot_eq_some.mp hs).1
        obtain ⟨j,hj⟩ := hall p (by rw [hl]; simp)
        rw [hl] at hc hm
        have hu := unlink_inner w hc hj ht hne
        rw [hr,hs]
        simp only [Act.bind_ok,Act.after_nil,node_eq hj,node_eq ht]
        exact ⟨_,rfl,hu.wf w hm (by simp),hu.length,hu.idAt,hu.count⟩

end MyProgram.SkynetGate.Hashid
