import MyProgram.StlAlloc.Chunks

/-! Cutting a chunk loses no memory and gives none away twice. -/
namespace MyProgram.StlAlloc
open Lib
namespace DefaultAlloc
variable {s s' : DefaultAlloc} {free free' : Nat → List Nat} {k nobjs p : Nat} {answer : Answer} {answers : List Answer}

/-- The bytes from `_S_start_free` on. -/
def pool (s : DefaultAlloc) : Nat × Nat := (s.startFree,s.endFree - s.startFree)

/-- The free lists have these blocks. They and the pool are different memory of a machine
with 64-bit addresses, and the size of the pool is a multiple of eight. -/
structure Intact (s : DefaultAlloc) (free : Nat → List Nat) : Prop where
  chains : ∀ k < NFREELISTS, Chain s.links (s.freeList k) (free k)
  apart : (bytesOf (blocks free ++ [s.pool])).Nodup
  range : ∀ r ∈ blocks free, r.1 + r.2 < 2^64
  order : s.startFree ≤ s.endFree
  bound : s.endFree < 2^64
  mult : (s.endFree - s.startFree) % 8 = 0

/-- Memory that is neither in the pool nor on a free list. -/
def New (s : DefaultAlloc) (free : Nat → List Nat) (p bytes : Nat) : Prop :=
  p + bytes < 2^64 ∧ ∀ x, p ≤ x → x < p + bytes → x ∉ bytesOf (blocks free ++ [s.pool])

/-- All memory of a 64-bit machine. -/
private def machine : List (Nat × Nat) := [(0,2^64 - 1)]

private theorem inside_machine {r : Nat × Nat} (h : r.1 + r.2 < 2^64) : Inside machine r :=
  .inr ⟨(0,2^64 - 1),List.mem_cons_self,Nat.zero_le _,by dsimp only; omega⟩

private theorem lt_of_inside {r : Nat × Nat} (h : Inside machine r) (hr : 0 < r.2) : r.1 + r.2 < 2^64 := by
  rcases h with h | ⟨g,hg,_,h⟩
  · omega
  · rw [List.mem_singleton.mp hg] at h
    dsimp only at h
    omega

private theorem Intact.ready (h : s.Intact free) : s.Ready machine [] free [] := by
  refine ⟨⟨h.chains,h.apart,fun r hr => inside_machine ?_⟩,h.order,h.bound,h.mult⟩
  rcases List.mem_append.mp hr with hr | hr
  · exact h.range r hr
  · rw [List.mem_singleton.mp hr]
    have := h.order
    have := h.bound
    dsimp only
    omega

private theorem Ready.intact (h : s.Ready machine [] free []) : s.Intact free := by
  refine ⟨h.core.chains,h.core.apart,fun r hr => ?_,h.order,h.bound,h.mult⟩
  obtain ⟨k,hk,a,ha,rfl⟩ := mem_blocks.mp hr
  exact lt_of_inside (h.core.inside _ (List.mem_append_left _ hr)) (by simp)

private theorem Ready.forget {got live extra : List (Nat × Nat)} (h : s.Ready got live free extra) : s.Ready got live free [] :=
  ⟨h.core.forget,h.order,h.bound,h.mult⟩

/-- A pool that has room for an object gives some, and keeps the rest. -/
private theorem cut (h : s.Ready machine [] free []) (hn : 1 ≤ nobjs) (hb : 8 * (k + 1) * nobjs < 2^64)
    (hle : 8 * (k + 1) ≤ s.endFree - s.startFree) :
    ∃ s' p j, s.carve (8 * (k + 1)) nobjs = some (s',p,j) ∧ 1 ≤ j ∧ j ≤ nobjs ∧ s'.Intact free ∧ s'.got = s.got ∧
      (bytesOf ((p,8 * (k + 1) * j) :: (blocks free ++ [s'.pool]))).Nodup ∧
      (bytesOf ((p,8 * (k + 1) * j) :: (blocks free ++ [s'.pool]))).Perm (bytesOf (blocks free ++ [s.pool])) := by
  obtain ⟨he,hr⟩ := h.carve rfl hn hb hle
  obtain ⟨h₁,h₂,hj⟩ := fitting_spec (show 0 < 8 * (k + 1) by omega) hn hle
  obtain ⟨j,hjf⟩ : ∃ j, j = fitting (s.endFree - s.startFree) (8 * (k + 1)) nobjs := ⟨_,rfl⟩
  rw [← hjf] at he hr h₁ h₂ hj
  obtain ⟨s',hs'⟩ : ∃ s' : DefaultAlloc, s' = { s with startFree := s.startFree + 8 * (k + 1) * j } := ⟨_,rfl⟩
  have hpool : s'.pool = (s.startFree + 8 * (k + 1) * j,s.endFree - s.startFree - 8 * (k + 1) * j) := by
    rw [hs',pool,Nat.sub_sub]
  have hperm : (bytesOf ((s.startFree,8 * (k + 1) * j) :: (blocks free ++ [s'.pool]))).Perm (bytesOf (blocks free ++ [s.pool])) := by
    refine (bytesOf_perm (List.perm_middle (a := (s.startFree,8 * (k + 1) * j)).symm)).trans ?_
    rw [bytesOf_append,bytesOf_append,hpool,bytesOf_cut hj]
    exact List.Perm.refl _
  rw [← hs'] at he hr
  exact ⟨s',s.startFree,j,he,h₁,h₂,hr.forget.intact,by rw [hs'],hperm.nodup_iff.mpr h.core.apart,hperm⟩

private theorem bytesToGet_eq (hov : 2 * (8 * (k + 1) * nobjs) + (s.heapSize / 16 + 7) / 8 * 8 < 2^64) :
    s.bytesToGet (8 * (k + 1)) nobjs = 2 * (8 * (k + 1) * nobjs) + (s.heapSize / 16 + 7) / 8 * 8 := by
  have hdiv : s.heapSize / 2^4 = s.heapSize / 16 := rfl
  rw [bytesToGet,hdiv,roundUp_eq (by omega),Nat.mod_eq_of_lt (show 8 * (k + 1) * nobjs < 2^64 by omega),
    Nat.mod_eq_of_lt (by omega),addSize_eq hov]

/-- What becomes of all bytes when memory has been asked for. -/
private theorem replenish_conserves (h : s.Intact free) (hk : k < NFREELISTS) (hn : 1 ≤ nobjs)
    (hov : 2 * (8 * (k + 1) * nobjs) + (s.heapSize / 16 + 7) / 8 * 8 < 2^64) (hlt : s.endFree - s.startFree < 8 * (k + 1))
    (hnew : ∀ p, answer.malloc = some p ∨ answer.fallback = some p → s.New free p (s.bytesToGet (8 * (k + 1)) nobjs)) :
    ∃ s' ok free' new, s.replenish (8 * (k + 1)) nobjs answer = .ok (s',ok) [] ∧ s'.Ready machine [] free' [] ∧
      (bytesOf (blocks free' ++ [s'.pool])).Perm (bytesOf (new ++ (blocks free ++ [s.pool]))) ∧ s'.got = new ++ s.got ∧
      (∀ g ∈ new, new = [g] ∧ g.2 = s.bytesToGet (8 * (k + 1)) nobjs ∧
        (answer.malloc = some g.1 ∨ answer.malloc = none ∧ answer.fallback = some g.1)) ∧
      (ok = true → 8 * (k + 1) ≤ s'.endFree - s'.startFree) ∧
      (ok = false → answer.malloc = none ∧ answer.fallback = none ∧ new = []) := by
  have hk16 : k < 16 := hk
  have hbytes := bytesToGet_eq hov
  have hmul : 8 * (k + 1) ≤ 8 * (k + 1) * nobjs := Nat.le_mul_of_pos_right _ hn
  obtain ⟨s₁,free₁,hcore,hperm,hgot,_,_,hcases⟩ := h.ready.replenish_cases hk hlt nobjs answer
  rcases hcases with ⟨q,hq,he⟩ | ⟨j,p,t,_,hj,hj16,ht,_,he⟩ | ⟨hm,hf,he⟩
  · obtain ⟨hend,hfar⟩ := hnew q (hq.imp id fun hq => hq.2.2)
    have hadopt := hcore.adopt (fun _ hr => hr) (inside_machine hend) fun x hx hm => by
      obtain ⟨h₁,h₂⟩ := List.mem_range'_1.mp hx
      exact hfar x h₁ h₂ (hperm.mem_iff.mp hm)
    refine ⟨_,true,free₁,[(q,s.bytesToGet (8 * (k + 1)) nobjs)],he,ready_adopt hadopt hend ?_,?_,?_,?_,fun _ => ?_,by simp⟩
    · have := Nat.mul_assoc 8 (k + 1) nobjs
      omega
    · have hpool : (s₁.adopt q (s.bytesToGet (8 * (k + 1)) nobjs)).pool = (q,s.bytesToGet (8 * (k + 1)) nobjs) := by
        simp only [pool,adopt,Nat.add_sub_cancel_left]
      rw [hpool,bytesOf_append,bytesOf_append]
      exact List.perm_append_comm.trans (hperm.append_left _)
    · simp only [adopt,hgot]
      rfl
    · intro g hg
      obtain rfl := List.mem_singleton.mp hg
      exact ⟨rfl,rfl,hq.imp id fun hq => ⟨hq.1,hq.2.2⟩⟩
    · simp only [adopt]
      omega
  · have hin : Inside machine (p,8 * (j + 1)) :=
      hcore.inside _ (List.mem_append_left _ (mem_blocks.mpr ⟨j,hj16,p,by simp [ht],rfl⟩))
    refine ⟨_,true,Function.update free₁ j t,[],he,ready_stolen hcore hj16 ht (lt_of_inside hin (by simp)),?_,hgot,by simp,fun _ => ?_,by simp⟩
    · refine (bytesOf_perm ?_).trans hperm
      simp only [pool,Nat.add_sub_cancel_left]
      exact (List.perm_append_singleton _ _).trans (blocks_pop hj16 ht).symm
    · dsimp only
      omega
  · refine ⟨_,false,free₁,[],he,ready_exhausted hcore,?_,hgot,by simp,by simp,fun _ => ⟨hm,hf,rfl⟩⟩
    refine List.Perm.trans ?_ hperm
    simp [pool]

/-- In every state in which free lists and pool are different memory, a chunk is returned
after at most one request, or `malloc` and `malloc_alloc::allocate` have nothing. The chunk
has room for one object at least, and with the free lists and the pool that are left it is
all memory there was before and the region that was given, no byte of it twice. -/
theorem chunkAlloc_conserves (s : DefaultAlloc) (free : Nat → List Nat) (k nobjs : Nat) (answer : Answer) (answers : List Answer)
    (h : s.Intact free) (hk : k < NFREELISTS) (hn : 1 ≤ nobjs)
    (hov : 2 * (8 * (k + 1) * nobjs) + (s.heapSize / 16 + 7) / 8 * 8 < 2^64)
    (hnew : ∀ p, answer.malloc = some p ∨ answer.fallback = some p → s.New free p (s.bytesToGet (8 * (k + 1)) nobjs)) :
    ∃ s' chunk free' new, s.chunkAlloc (8 * (k + 1)) nobjs (answer :: answers) = .ok (s',chunk) [] ∧ s'.Intact free' ∧
      (chunk = none → answer.malloc = none ∧ answer.fallback = none) ∧
      (∀ p j, chunk = some (p,j) → 1 ≤ j ∧ j ≤ nobjs) ∧
      (bytesOf ((chunk.map fun c => (c.1,8 * (k + 1) * c.2)).toList ++ (blocks free' ++ [s'.pool]))).Nodup ∧
      (bytesOf ((chunk.map fun c => (c.1,8 * (k + 1) * c.2)).toList ++ (blocks free' ++ [s'.pool]))).Perm
        (bytesOf (new ++ (blocks free ++ [s.pool]))) ∧
      s'.got = new ++ s.got ∧ ∀ g ∈ new, new = [g] ∧ g.2 = s.bytesToGet (8 * (k + 1)) nobjs ∧
        (answer.malloc = some g.1 ∨ answer.malloc = none ∧ answer.fallback = some g.1) := by
  have hb : 8 * (k + 1) * nobjs < 2^64 := by omega
  by_cases hle : 8 * (k + 1) ≤ s.endFree - s.startFree
  · obtain ⟨s',p,j,he,h₁,h₂,hs',hgot,hd,hp⟩ := cut h.ready hn hb hle
    refine ⟨s',some (p,j),free,[],by rw [chunkAlloc,he]; rfl,hs',by simp,?_,hd,hp,hgot,by simp⟩
    rintro p j ⟨⟩
    exact ⟨h₁,h₂⟩
  · obtain ⟨s₁,ok,free₁,new,hrep,hs₁,hp₁,hgot₁,hnew₁,hroom,hnone⟩ := replenish_conserves h hk hn hov (by omega) hnew
    have hstart : s.chunkAlloc (8 * (k + 1)) nobjs (answer :: answers) =
        if ok then s₁.chunkAlloc (8 * (k + 1)) nobjs answers else pure (s₁,none) := by
      conv_lhs => rw [chunkAlloc,h.ready.carve_none hn hb (by omega)]
      simp only [hrep,Act.bind_ok,Act.after_nil]
    cases ok with
    | false =>
      obtain ⟨hm,hf,_⟩ := hnone rfl
      exact ⟨s₁,none,free₁,new,hstart,hs₁.intact,fun _ => ⟨hm,hf⟩,by simp,hs₁.core.apart,hp₁,hgot₁,hnew₁⟩
    | true =>
      obtain ⟨s',p,j,he,h₁,h₂,hs',hgot,hd,hp⟩ := cut hs₁ hn hb (hroom rfl)
      refine ⟨s',some (p,j),free₁,new,?_,hs',by simp,?_,hd,hp.trans hp₁,hgot.trans hgot₁,hnew₁⟩
      · rw [hstart,if_pos rfl]
        cases answers <;> rw [chunkAlloc,he] <;> rfl
      · rintro p j ⟨⟩
        exact ⟨h₁,h₂⟩

/-- Without memory the eight bytes of the pool go to their list, and a block of 32 bytes
becomes the pool, in which two objects of 16 bytes fit. -/
theorem chunkAlloc_conserves_stolen : ∃ s' chunk free' new,
    (⟨fun _ => none,fun i => if i = 3 then some 64 else none,16,24,0,[]⟩ : DefaultAlloc).chunkAlloc 16 3 [⟨none,none⟩] = .ok (s',chunk) [] ∧
    s'.Intact free' ∧ chunk = some (64,2) ∧ (bytesOf ((64,32) :: (blocks free' ++ [s'.pool]))).Perm (bytesOf (new ++ [(64,32),(16,8)])) := by
  have hs : (⟨fun _ => none,fun i => if i = 3 then some 64 else none,16,24,0,[]⟩ : DefaultAlloc).Intact fun i => if i = 3 then [64] else [] := by
    refine ⟨fun k _ => ?_,by decide,by decide,by decide,by decide,by decide⟩
    by_cases hk : k = 3 <;> simp [hk]
  obtain ⟨s',chunk,free',new,he,hs',_,_,_,hp,_,_⟩ := chunkAlloc_conserves _ _ 1 3 ⟨none,none⟩ [] hs (by decide) (by decide) (by decide) (by simp)
  have hchunk : chunk = some (64,2) := by
    have hcheck : ((⟨fun _ => none,fun i => if i = 3 then some 64 else none,16,24,0,[]⟩ : DefaultAlloc).chunkAlloc 16 3
      [⟨none,none⟩]).holds fun r _ => r.2 = some (64,2) := by decide
    rw [he] at hcheck
    exact of_decide_eq_true hcheck
  subst hchunk
  exact ⟨s',_,free',new,he,hs',rfl,hp⟩

end DefaultAlloc
end MyProgram.StlAlloc
