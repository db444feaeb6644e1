import MyProgram.StlAlloc.Sizes

/-! How memory moves between the pool, the free lists and the clients. -/
namespace MyProgram.StlAlloc
open Lib
namespace DefaultAlloc
variable {s : DefaultAlloc} {got live extra rest : List (Nat × Nat)} {free : Nat → List Nat} {k n nobjs p : Nat} {answer : Answer}

/-- The regions that `malloc` gave are different memory of a machine with 64-bit
addresses, and the size of the heap is theirs. -/
structure Given (s : DefaultAlloc) : Prop where
  once : (bytesOf s.got).Nodup
  range : ∀ g ∈ s.got, 0 < g.1 ∧ g.1 + g.2 < 2^64
  heap : s.heapSize = (s.got.map (·.2)).sum

/-- A region that `malloc` may return. -/
def Fresh (s : DefaultAlloc) (bytes p : Nat) : Prop :=
  0 < p ∧ p + bytes < 2^64 ∧ ∀ g ∈ s.got, p + bytes ≤ g.1 ∨ g.1 + g.2 ≤ p

instance (s : DefaultAlloc) (bytes p : Nat) : Decidable (s.Fresh bytes p) :=
  inferInstanceAs (Decidable (0 < p ∧ p + bytes < 2^64 ∧ ∀ g ∈ s.got, p + bytes ≤ g.1 ∨ g.1 + g.2 ≤ p))

/-- The invariant of the allocator, with regions that are on their way. -/
structure Sound (s : DefaultAlloc) (live : List (Nat × Nat)) (free : Nat → List Nat) (extra : List (Nat × Nat)) : Prop where
  core : Core s.links s.freeList s.got live free (extra ++ [(s.startFree,s.endFree - s.startFree)])
  given : s.Given
  order : s.startFree ≤ s.endFree
  bound : s.endFree < 2^64
  mult : (s.endFree - s.startFree) % 8 = 0

/-- The part of it that a chunk is cut from: free lists and pool, in memory `got`. -/
structure Ready (s : DefaultAlloc) (got live : List (Nat × Nat)) (free : Nat → List Nat) (extra : List (Nat × Nat)) : Prop where
  core : Core s.links s.freeList got live free (extra ++ [(s.startFree,s.endFree - s.startFree)])
  order : s.startFree ≤ s.endFree
  bound : s.endFree < 2^64
  mult : (s.endFree - s.startFree) % 8 = 0

theorem Sound.ready (h : s.Sound live free extra) : s.Ready s.got live free extra := ⟨h.core,h.order,h.bound,h.mult⟩

theorem Given.heap_lt (h : s.Given) : s.heapSize < 2^64 := by
  have hsub : bytesOf s.got ⊆ List.range' 1 (2^64 - 1) := by
    intro x hx
    obtain ⟨g,hg,h₁,h₂⟩ := mem_bytesOf.mp hx
    have := h.range g hg
    rw [List.mem_range'_1]
    omega
  have := (h.once.subperm hsub).length_le
  rw [length_bytesOf,← h.heap,List.length_range'] at this
  omega

theorem Ready.bytesLeft_eq (h : s.Ready got live free extra) : s.bytesLeft = s.endFree - s.startFree :=
  subSize_eq h.order

/-- Twenty objects twice over, and a part of the heap. -/
theorem Given.bytesToGet_eq (h : s.Given) (hk : k < NFREELISTS) :
    s.bytesToGet (8 * (k + 1)) 20 = 2 * (8 * (k + 1) * 20) + (s.heapSize / 16 + 7) / 8 * 8 := by
  have hlt := h.heap_lt
  have hk16 : k < 16 := hk
  have hdiv : s.heapSize / 2^4 = s.heapSize / 16 := rfl
  rw [bytesToGet,hdiv,roundUp_eq (by omega),Nat.mod_eq_of_lt (show 8 * (k + 1) * 20 < 2^64 by omega),
    Nat.mod_eq_of_lt (by omega),addSize_eq (by omega)]

theorem slot_eq (hk : k < NFREELISTS) : s.slot k = .ok (s.freeList k) [] := if_pos hk

theorem setSlot_eq (hk : k < NFREELISTS) (q : Option Nat) :
    s.setSlot k q = .ok { s with freeList := Function.update s.freeList k q } [] := if_pos hk

theorem push_eq (hk : k < NFREELISTS) : s.push k p =
    .ok { s with links := Function.update s.links p (s.freeList k), freeList := Function.update s.freeList k (some p) } [] := by
  rw [push,slot_eq hk,Act.bind_ok,Act.after_nil]
  exact setSlot_eq hk _

/-- A block beside the lists is pushed to the list of its class. -/
theorem push_core (h : Core s.links s.freeList got live free ((p,8 * (k + 1)) :: rest)) (hk : k < NFREELISTS) :
    Core (Function.update s.links p (s.freeList k)) (Function.update s.freeList k (some p)) got live
      (Function.update free k (p :: free k)) rest := by
  have h' : Core s.links s.freeList got live free (([p].map fun a => (a,8 * (k + 1))) ++ rest) := h
  have hne : ∀ a ∉ [p], Function.update s.links p (s.freeList k) a = s.links a := by
    intro a ha
    exact Function.update_of_ne (fun he => ha (by simp [he])) _ _
  refine h'.extend hk hne ⟨rfl,?_⟩
  rw [Function.update_self]
  refine (h.chains k hk).congr fun a ha => hne a fun hm => ?_
  exact h'.notMem_free hm hk ha

/-- How many of the objects fit into the pool. -/
def fitting (left size nobjs : Nat) : Nat := if size * nobjs ≤ left then nobjs else left / size

/-- The number of objects the pool gives when it has at least one. -/
def share (left size : Nat) : Nat := if size * 20 ≤ left then 20 else left / size

theorem fitting_spec {left size : Nat} (hs : 0 < size) (hn : 1 ≤ nobjs) (hle : size ≤ left) :
    1 ≤ fitting left size nobjs ∧ fitting left size nobjs ≤ nobjs ∧ size * fitting left size nobjs ≤ left := by
  unfold fitting
  split
  · rename_i hbig
    exact ⟨hn,Nat.le_refl _,hbig⟩
  · rename_i hsmall
    exact ⟨Nat.div_pos hle hs,Nat.le_of_lt (Nat.div_lt_of_lt_mul (Nat.not_le.mp hsmall)),Nat.mul_div_le _ _⟩

theorem Ready.carve_none (h : s.Ready got live free extra) (hn : 1 ≤ nobjs) (hb : 8 * (k + 1) * nobjs < 2^64)
    (hlt : s.endFree - s.startFree < 8 * (k + 1)) : s.carve (8 * (k + 1)) nobjs = none := by
  have hmul : 8 * (k + 1) ≤ 8 * (k + 1) * nobjs := Nat.le_mul_of_pos_right _ hn
  rw [carve,h.bytesLeft_eq,Nat.mod_eq_of_lt hb,if_neg (by omega),if_neg (by omega)]

theorem Ready.carve (h : s.Ready got live free []) {left : Nat} (hleft : left = s.endFree - s.startFree) (hn : 1 ≤ nobjs)
    (hb : 8 * (k + 1) * nobjs < 2^64) (hle : 8 * (k + 1) ≤ left) :
    s.carve (8 * (k + 1)) nobjs = some ({ s with startFree := s.startFree + 8 * (k + 1) * fitting left (8 * (k + 1)) nobjs },s.startFree,
      fitting left (8 * (k + 1)) nobjs) ∧
    ({ s with startFree := s.startFree + 8 * (k + 1) * fitting left (8 * (k + 1)) nobjs } : DefaultAlloc).Ready got live free
      [(s.startFree,8 * (k + 1) * fitting left (8 * (k + 1)) nobjs)] := by
  have hbound := h.bound
  have horder := h.order
  have hmult := h.mult
  obtain ⟨_,_,hj⟩ := fitting_spec (show 0 < 8 * (k + 1) by omega) hn hle
  obtain ⟨j,hjf⟩ : ∃ j, j = fitting left (8 * (k + 1)) nobjs := ⟨_,rfl⟩
  rw [← hjf] at hj ⊢
  constructor
  · rw [DefaultAlloc.carve,h.bytesLeft_eq,← hleft,Nat.mod_eq_of_lt hb]
    rw [fitting] at hjf
    by_cases hbig : 8 * (k + 1) * nobjs ≤ left
    · rw [if_pos hbig] at hjf
      rw [if_pos hbig,hjf]
    · rw [if_neg hbig] at hjf
      rw [if_neg hbig,if_pos hle,← hjf,Nat.mod_eq_of_lt (by omega)]
  · have hin : Inside got (s.startFree,left) := by
      rw [hleft]
      exact h.core.inside _ (by simp)
    have hend : s.endFree - (s.startFree + 8 * (k + 1) * j) = left - 8 * (k + 1) * j := by omega
    refine ⟨h.core.replace ?_ ?_,?_,h.bound,?_⟩
    · dsimp only
      rw [hend,← hleft]
      exact List.Perm.of_eq (bytesOf_cut hj)
    · intro r hr
      simp only [List.singleton_append,List.mem_cons,List.not_mem_nil,or_false] at hr
      rcases hr with rfl | rfl
      · exact hin.sub (by omega) (by omega)
      · exact hin.sub (by omega) (by omega)
    · dsimp only
      omega
    · dsimp only
      have : (8 * (k + 1) * j) % 8 = 0 := by
        rw [Nat.mul_assoc]
        exact Nat.mul_mod_right _ _
      omega

theorem carve_spec (h : s.Sound live free []) (hk : k < NFREELISTS) (hle : 8 * (k + 1) ≤ s.endFree - s.startFree) :
    ∃ s', s.carve (8 * (k + 1)) 20 = some (s',s.startFree,share (s.endFree - s.startFree) (8 * (k + 1))) ∧
      s'.Sound live free [(s.startFree,8 * (k + 1) * share (s.endFree - s.startFree) (8 * (k + 1)))] ∧
      1 ≤ share (s.endFree - s.startFree) (8 * (k + 1)) := by
  have hk16 : k < 16 := hk
  obtain ⟨he,hr⟩ := h.ready.carve rfl (show 1 ≤ 20 by omega) (by omega) hle
  exact ⟨_,he,⟨hr.core,⟨h.given.once,h.given.range,h.given.heap⟩,hr.order,hr.bound,hr.mult⟩,
    (fitting_spec (show 0 < 8 * (k + 1) by omega) (show 1 ≤ 20 by omega) hle).1⟩

/-- A remainder too small for an object goes to the list of a smaller class. -/
theorem Ready.keepRemainder (h : s.Ready got live free []) (hk : k < NFREELISTS) (hlt : s.endFree - s.startFree < 8 * (k + 1)) :
    ∃ s' free', s.keepRemainder = .ok s' [] ∧ Core s'.links s'.freeList got live free' [] ∧
      (bytesOf (blocks free')).Perm (bytesOf (blocks free ++ [(s.startFree,s.endFree - s.startFree)])) ∧ s'.got = s.got ∧
      s'.heapSize = s.heapSize ∧ ∀ j, k ≤ j → free' j = free j ∧ s'.freeList j = s.freeList j := by
  have hmult := h.mult
  have hk16 : k < 16 := hk
  have hcore := h.core
  rw [List.nil_append] at hcore
  rw [DefaultAlloc.keepRemainder,h.bytesLeft_eq]
  by_cases hz : s.endFree - s.startFree = 0
  · rw [if_neg (by omega)]
    rw [hz] at hcore ⊢
    refine ⟨s,free,rfl,hcore.replace (List.Perm.refl _) (by simp),?_,rfl,rfl,fun _ _ => ⟨rfl,rfl⟩⟩
    simp
  · obtain ⟨i,hi⟩ : ∃ i, s.endFree - s.startFree = 8 * (i + 1) := ⟨(s.endFree - s.startFree) / 8 - 1,by omega⟩
    have hik : i < k := by omega
    have hi16 : i < NFREELISTS := Nat.lt_trans hik hk
    rw [hi] at hcore ⊢
    rw [if_pos (by omega),freelistIndex_mul i (by omega),push_eq hi16]
    refine ⟨_,_,rfl,push_core hcore hi16,bytesOf_perm ?_,rfl,rfl,fun j hj => ?_⟩
    · exact (blocks_extend hi16 [s.startFree]).trans (List.perm_append_comm)
    · have hne : j ≠ i := by omega
      exact ⟨Function.update_of_ne hne _ _,Function.update_of_ne hne _ _⟩

/-- The size of the block that the search through the free lists finds. -/
def stolen (heads : Nat → Option Nat) : Nat → Nat → Option Nat
  | 0, _ => none
  | rounds+1, i =>
    if i ≤ MAX_BYTES then (if (heads (freelistIndex i)).isSome then some i else stolen heads rounds (i + ALIGN)) else none

theorem stolen_congr {heads heads' : Nat → Option Nat} {rounds i : Nat} (h : ∀ j, i ≤ j → heads' j = heads j) (hi : i < 2^50) :
    stolen heads' rounds (8 * (i + 1)) = stolen heads rounds (8 * (i + 1)) := by
  induction rounds generalizing i with
  | zero => rfl
  | succ rounds ih =>
    simp only [stolen]
    by_cases hle : 8 * (i + 1) ≤ MAX_BYTES
    · have hle' : 8 * (i + 1) ≤ 128 := hle
      rw [if_pos hle,if_pos hle,freelistIndex_mul i (by omega),h i (Nat.le_refl _)]
      have := ih (i := i + 1) (fun j hj => h j (by omega)) (by omega)
      rw [show 8 * (i + 1) + ALIGN = 8 * (i + 1 + 1) from rfl,this]
    · rw [if_neg hle,if_neg hle]

private theorem steal_eq (hk : k < NFREELISTS) : s.steal (8 * (k + 1)) p = .ok { s with
    freeList := Function.update s.freeList k (s.links p)
    startFree := p
    endFree := p + 8 * (k + 1) } [] := by
  have hk16 : k < 16 := hk
  rw [steal,freelistIndex_mul k (by omega),setSlot_eq hk]
  rfl

theorem stealLoop_spec {i : Nat} (rounds : Nat) (h : Core s.links s.freeList got live free []) (hi : i < 2^50) :
    (s.stealLoop rounds (8 * (i + 1)) = .ok none [] ∧ stolen s.freeList rounds (8 * (i + 1)) = none) ∨
      ∃ j p t, i ≤ j ∧ j < NFREELISTS ∧ free j = p :: t ∧ stolen s.freeList rounds (8 * (i + 1)) = some (8 * (j + 1)) ∧
        s.stealLoop rounds (8 * (i + 1)) = .ok (some { s with
          freeList := Function.update s.freeList j (s.links p)
          startFree := p
          endFree := p + 8 * (j + 1) }) [] := by
  induction rounds generalizing i with
  | zero => exact .inl ⟨by simp only [stealLoop,Act.pure_eq],by simp only [stolen]⟩
  | succ rounds ih =>
    simp only [stealLoop,stolen]
    by_cases hle : 8 * (i + 1) ≤ MAX_BYTES
    · have hle' : 8 * (i + 1) ≤ 128 := hle
      have hi16 : i < NFREELISTS := show i < 16 by omega
      rw [if_pos hle,if_pos hle,freelistIndex_mul i (by omega),slot_eq hi16]
      simp only [Act.bind_ok,Act.after_nil]
      have hchain := h.chains i hi16
      cases hhead : s.freeList i with
      | none =>
        rcases ih (i := i + 1) (by omega) with hn | ⟨j,p,t,hj,hrest⟩
        · exact .inl hn
        · exact .inr ⟨j,p,t,by omega,hrest⟩
      | some p =>
        rw [hhead] at hchain
        obtain ⟨t,ht,_⟩ := hchain.head_some
        refine .inr ⟨i,p,t,Nat.le_refl _,hi16,ht,rfl,?_⟩
        simp only [steal_eq hi16]
        rfl
    · rw [if_neg hle,if_neg hle]
      exact .inl ⟨rfl,rfl⟩

/-- Asking for memory leaves the remainder on a list. Then the pool is a region that was
given, the first block of a list of large enough ones, or empty for want of both. -/
theorem Ready.replenish_cases (h : s.Ready got live free []) (hk : k < NFREELISTS) (hlt : s.endFree - s.startFree < 8 * (k + 1))
    (nobjs : Nat) (answer : Answer) : ∃ (s₁ : DefaultAlloc) (free₁ : Nat → List Nat), Core s₁.links s₁.freeList got live free₁ [] ∧
      (bytesOf (blocks free₁)).Perm (bytesOf (blocks free ++ [(s.startFree,s.endFree - s.startFree)])) ∧ s₁.got = s.got ∧
      s₁.heapSize = s.heapSize ∧ (free k = [] → free₁ k = []) ∧
      ((∃ q, (answer.malloc = some q ∨ answer.malloc = none ∧ stolen s.freeList 17 (8 * (k + 1)) = none ∧ answer.fallback = some q) ∧
          s.replenish (8 * (k + 1)) nobjs answer = .ok (s₁.adopt q (s.bytesToGet (8 * (k + 1)) nobjs),true) []) ∨
        (∃ j p t, answer.malloc = none ∧ k ≤ j ∧ j < NFREELISTS ∧ free₁ j = p :: t ∧
          stolen s.freeList 17 (8 * (k + 1)) = some (8 * (j + 1)) ∧ s.replenish (8 * (k + 1)) nobjs answer = .ok ({ s₁ with
            freeList := Function.update s₁.freeList j (s₁.links p)
            startFree := p
            endFree := p + 8 * (j + 1) },true) []) ∨
        (answer.malloc = none ∧ answer.fallback = none ∧
          s.replenish (8 * (k + 1)) nobjs answer = .ok ({ s₁ with startFree := 0, endFree := 0 },false) [])) := by
  have hk16 : k < 16 := hk
  obtain ⟨s₁,free₁,hkeep,hcore,hbytes,hgot,hheap,hsame⟩ := h.keepRemainder hk hlt
  have hsteal : stolen s₁.freeList 17 (8 * (k + 1)) = stolen s.freeList 17 (8 * (k + 1)) :=
    stolen_congr (fun j hj => (hsame j hj).2) (by omega)
  refine ⟨s₁,free₁,hcore,hbytes,hgot,hheap,fun h0 => by rw [(hsame k (Nat.le_refl _)).1,h0],?_⟩
  unfold replenish
  rw [hkeep]
  simp only [Act.bind_ok,Act.after_nil]
  cases hm : answer.malloc with
  | some q => exact .inl ⟨q,.inl rfl,rfl⟩
  | none =>
    have hcore' : Core ({ s₁ with startFree := 0 } : DefaultAlloc).links ({ s₁ with startFree := 0 } : DefaultAlloc).freeList
        got live free₁ [] := hcore
    rcases stealLoop_spec 17 hcore' (show k < 2^50 by omega) with ⟨hnone,hst⟩ | ⟨j,p,t,hj,hj16,ht,hst,hsome⟩
    · simp only [hnone,Act.bind_ok,Act.after_nil]
      cases hf : answer.fallback with
      | some q => exact .inl ⟨q,.inr ⟨trivial,hsteal ▸ hst,rfl⟩,rfl⟩
      | none => exact .inr (.inr ⟨trivial,rfl,rfl⟩)
    · simp only [hsome,Act.bind_ok,Act.after_nil]
      exact .inr (.inl ⟨j,p,t,trivial,hj,hj16,ht,hsteal ▸ hst,rfl⟩)

theorem ready_adopt {bytes : Nat} (h : Core s.links s.freeList got live free [(p,bytes)]) (hp : p + bytes < 2^64)
    (hm : bytes % 8 = 0) : (s.adopt p bytes).Ready got live free [] := by
  have hsub : p + bytes - p = bytes := Nat.add_sub_cancel_left _ _
  refine ⟨?_,Nat.le_add_right _ _,hp,?_⟩
  · simp only [adopt,hsub]
    exact h
  · simp only [adopt,hsub]
    exact hm

/-- Memory that was never given before becomes the pool. -/
private theorem adopt_sound {bytes : Nat} (h : Core s.links s.freeList s.got live free []) (hg : s.Given)
    (hf : s.Fresh bytes p) (hm : bytes % 8 = 0) : (s.adopt p bytes).Sound live free [] := by
  obtain ⟨hp,hend,hfar⟩ := hf
  have hnew : ∀ x ∈ List.range' p bytes, x ∉ bytesOf s.got := by
    intro x hx hm
    obtain ⟨g,hg,h₁,h₂⟩ := mem_bytesOf.mp hm
    rw [List.mem_range'_1] at hx
    rcases hfar g hg with h' | h' <;> omega
  have honce : (bytesOf ((p,bytes) :: s.got)).Nodup := by
    rw [bytesOf_cons]
    refine List.nodup_append.mpr ⟨List.nodup_range',hg.once,?_⟩
    rintro x hx y hy rfl
    exact hnew x hx hy
  have hrange : ∀ g ∈ (p,bytes) :: s.got, 0 < g.1 ∧ g.1 + g.2 < 2^64 := by
    intro g hm
    rcases List.mem_cons.mp hm with rfl | hm
    · exact ⟨hp,hend⟩
    · exact hg.range g hm
  have hsum : s.heapSize + bytes < 2^64 := by
    have hg' : ({ s with heapSize := s.heapSize + bytes, got := (p,bytes) :: s.got } : DefaultAlloc).Given := by
      refine ⟨honce,hrange,?_⟩
      change s.heapSize + bytes = _
      rw [List.map_cons,List.sum_cons,hg.heap,Nat.add_comm]
    exact hg'.heap_lt
  have hready := ready_adopt (h.adopt (fun r hr => hr.mono (p,bytes)) (.inr ⟨(p,bytes),by simp,Nat.le_refl _,Nat.le_refl _⟩)
    fun x hx hm => hnew x hx (mem_of_inside (by simpa using h.inside) hm)) hend hm
  refine ⟨hready.core,⟨honce,hrange,?_⟩,hready.order,hready.bound,hready.mult⟩
  simp only [adopt]
  rw [addSize_eq hsum,List.map_cons,List.sum_cons,hg.heap,Nat.add_comm]

/-- No more than one object comes of a refill: the pool has one and not two, or no
memory is given and the free lists have a block for one and not two, or none. -/
def Single (s : DefaultAlloc) (size : Nat) (answer : Answer) : Prop :=
  size ≤ s.bytesLeft ∧ s.bytesLeft < 2 * size ∨ s.bytesLeft < size ∧ answer.malloc = none ∧
    (∀ i ∈ stolen s.freeList 17 size, i < 2 * size) ∧ (stolen s.freeList 17 size = none → answer.fallback = none)

instance (s : DefaultAlloc) (size : Nat) (answer : Answer) : Decidable (s.Single size answer) :=
  inferInstanceAs (Decidable (_ ∨ _))

/-- The answers are memory that was never given before. -/
def Answered (s : DefaultAlloc) (size : Nat) (answer : Answer) : Prop :=
  (∀ p ∈ answer.malloc, s.Fresh (s.bytesToGet size 20) p) ∧ ∀ p ∈ answer.fallback, s.Fresh (s.bytesToGet size 20) p

instance (s : DefaultAlloc) (size : Nat) (answer : Answer) : Decidable (s.Answered size answer) :=
  inferInstanceAs (Decidable (_ ∧ _))

/-- A block that is stolen becomes the pool. -/
theorem ready_stolen {j : Nat} {t : List Nat} (h : Core s.links s.freeList got live free []) (hj : j < NFREELISTS)
    (ht : free j = p :: t) (hp : p + 8 * (j + 1) < 2^64) :
    ({ s with
      freeList := Function.update s.freeList j (s.links p)
      startFree := p
      endFree := p + 8 * (j + 1) } : DefaultAlloc).Ready got live (Function.update free j t) [] := by
  have hsub : p + 8 * (j + 1) - p = 8 * (j + 1) := Nat.add_sub_cancel_left _ _
  refine ⟨?_,Nat.le_add_right _ _,hp,?_⟩
  · simp only [hsub]
    exact h.pop hj ht
  · simp only [hsub]
    exact Nat.mul_mod_right _ _

/-- Without memory the pool is empty. -/
theorem ready_exhausted (h : Core s.links s.freeList got live free []) :
    ({ s with startFree := 0, endFree := 0 } : DefaultAlloc).Ready got live free [] := by
  refine ⟨h.replace (by simp) fun r hr => ?_,Nat.le_refl _,Nat.two_pow_pos 64,rfl⟩
  exact .inl (by simp at hr; simp [hr])

private theorem stolen_sound {j : Nat} {t : List Nat} (h : Core s.links s.freeList s.got live free []) (hg : s.Given)
    (hj : j < NFREELISTS) (ht : free j = p :: t) :
    ({ s with
      freeList := Function.update s.freeList j (s.links p)
      startFree := p
      endFree := p + 8 * (j + 1) } : DefaultAlloc).Sound live (Function.update free j t) [] := by
  have hp : p + 8 * (j + 1) < 2^64 := by
    have hin := h.inside (p,8 * (j + 1)) (List.mem_append_left _ (List.mem_append_right _ (mem_blocks.mpr ⟨j,hj,p,by simp [ht],rfl⟩)))
    rcases hin with h0 | ⟨g,hm,_,h₂⟩
    · simp at h0
    · have := hg.range g hm
      dsimp only at h₂
      omega
  have hready := ready_stolen h hj ht hp
  exact ⟨hready.core,⟨hg.once,hg.range,hg.heap⟩,hready.order,hready.bound,hready.mult⟩

/-- Asking for memory keeps the regions apart. What it gets has room for an object. -/
theorem replenish_spec (h : s.Sound live free []) (hk : k < NFREELISTS) (hlt : s.endFree - s.startFree < 8 * (k + 1))
    (ha : s.Answered (8 * (k + 1)) answer) :
    ∃ s' ok free', s.replenish (8 * (k + 1)) 20 answer = .ok (s',ok) [] ∧ s'.Sound live free' [] ∧
      (free k = [] → free' k = []) ∧ (ok = true → 8 * (k + 1) ≤ s'.endFree - s'.startFree ∧
        (s.Single (8 * (k + 1)) answer → s'.endFree - s'.startFree < 2 * (8 * (k + 1)))) := by
  obtain ⟨s₁,free₁,hcore,_,hgot,hheap,hlist,hcases⟩ := h.ready.replenish_cases hk hlt 20 answer
  have hbytes := h.given.bytesToGet_eq hk
  have hgiven : s₁.Given := ⟨hgot ▸ h.given.once,hgot ▸ h.given.range,by rw [hgot,hheap]; exact h.given.heap⟩
  rw [← hgot] at hcore
  have hfresh : ∀ q, s.Fresh (s.bytesToGet (8 * (k + 1)) 20) q → s₁.Fresh (s.bytesToGet (8 * (k + 1)) 20) q :=
    fun q hq => ⟨hq.1,hq.2.1,hgot ▸ hq.2.2⟩
  have hsingle : s.Single (8 * (k + 1)) answer → answer.malloc = none ∧
      (∀ i ∈ stolen s.freeList 17 (8 * (k + 1)), i < 2 * (8 * (k + 1))) ∧
      (stolen s.freeList 17 (8 * (k + 1)) = none → answer.fallback = none) := by
    intro hs
    rcases hs with hs | hs
    · rw [h.ready.bytesLeft_eq] at hs
      omega
    · exact hs.2
  rcases hcases with ⟨q,hq,he⟩ | ⟨j,p,t,_,hj,hj16,ht,hst,he⟩ | ⟨_,_,he⟩
  · refine ⟨_,true,free₁,he,adopt_sound hcore hgiven (hfresh q ?_) (by omega),hlist,fun _ => ⟨?_,fun hs => ?_⟩⟩
    · rcases hq with hq | hq
      · exact ha.1 q hq
      · exact ha.2 q hq.2.2
    · simp only [adopt]
      omega
    · obtain ⟨hnone,_,hfall⟩ := hsingle hs
      rcases hq with hq | ⟨_,hst,hq⟩
      · rw [hq] at hnone
        cases hnone
      · rw [hfall hst] at hq
        cases hq
  · refine ⟨_,true,_,he,stolen_sound hcore hgiven hj16 ht,fun h0 => ?_,fun _ => ⟨?_,fun hs => ?_⟩⟩
    · by_cases hjk : k = j
      · subst hjk
        rw [hlist h0] at ht
        cases ht
      · rw [Function.update_of_ne hjk]
        exact hlist h0
    · dsimp only
      omega
    · have := (hsingle hs).2.1 (8 * (j + 1)) hst
      dsimp only
      omega
  · have hready := ready_exhausted hcore
    exact ⟨_,false,free₁,he,⟨hready.core,⟨hgiven.once,hgiven.range,hgiven.heap⟩,hready.order,hready.bound,hready.mult⟩,hlist,
      fun h0 => by cases h0⟩

end DefaultAlloc
end MyProgram.StlAlloc
