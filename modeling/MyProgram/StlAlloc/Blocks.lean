import MyProgram.Lib.Runs
import MyProgram.StlAlloc.Chunks

/-! Blocks that clients have, blocks on the free lists and the pool never overlap
as long as each refill hits the right list. -/
namespace MyProgram.StlAlloc
open Lib
namespace DefaultAlloc
variable {s : DefaultAlloc} {live extra rest : List (Nat × Nat)} {free : Nat → List Nat} {k n p : Nat} {answer : Answer}

private theorem share_single {left size : Nat} (h₁ : size ≤ left) (h₂ : left < 2 * size) : share left size = 1 := by
  rw [share,if_neg (by omega)]
  exact Nat.div_eq_of_lt_le (by omega) (by omega)

/-- The chunk is cut from the pool after at most one request for memory. -/
private theorem chunkAlloc_spec (h : s.Sound live free []) (hk : k < NFREELISTS) (ha : s.Answered (8 * (k + 1)) answer) :
    ∃ s' chunk free', s.chunkAlloc (8 * (k + 1)) 20 [answer] = .ok (s',chunk) [] ∧ (free k = [] → free' k = []) ∧
      (chunk = none → s'.Sound live free' []) ∧ ∀ p j, chunk = some (p,j) → s'.Sound live free' [(p,8 * (k + 1) * j)] ∧ 1 ≤ j ∧
        (s.Single (8 * (k + 1)) answer → j = 1) := by
  have hk16 : k < 16 := hk
  by_cases hle : 8 * (k + 1) ≤ s.endFree - s.startFree
  · obtain ⟨s',hc,hs',hj⟩ := carve_spec h hk hle
    refine ⟨s',_,free,by rw [chunkAlloc,hc]; rfl,fun h0 => h0,by simp,?_⟩
    rintro p j ⟨⟩
    refine ⟨hs',hj,fun hs => share_single hle ?_⟩
    rcases hs with hs | hs
    · rw [← h.ready.bytesLeft_eq]
      exact hs.2
    · rw [h.ready.bytesLeft_eq] at hs
      omega
  · obtain ⟨s₁,ok,free₁,hrep,hs₁,hlist,hroom⟩ := replenish_spec h hk (by omega) ha
    have hstart : s.chunkAlloc (8 * (k + 1)) 20 [answer] =
        if ok then s₁.chunkAlloc (8 * (k + 1)) 20 [] else pure (s₁,none) := by
      conv_lhs => rw [chunkAlloc,h.ready.carve_none (show 1 ≤ 20 by omega) (by omega) (by omega)]
      simp only [hrep,Act.bind_ok,Act.after_nil]
    rw [hstart]
    cases ok with
    | false => exact ⟨s₁,none,free₁,rfl,hlist,fun _ => hs₁,by simp⟩
    | true =>
      obtain ⟨hsize,hsingle⟩ := hroom rfl
      obtain ⟨s',hc,hs',hj⟩ := carve_spec hs₁ hk hsize
      refine ⟨s',_,free₁,by rw [if_pos rfl,chunkAlloc,hc]; rfl,hlist,by simp,?_⟩
      rintro p j ⟨⟩
      exact ⟨hs',hj,fun hs => share_single hsize (hsingle hs)⟩

/-- The loop links the objects in order and touches nothing else. -/
private theorem linkLoop_spec (hn : 0 < n) (links : Nat → Option Nat) (p j : Nat) :
    Chain (linkLoop links p n (j + 1)) (some p) (objects p n (j + 1)) ∧
      ∀ a ∉ objects p n (j + 1), linkLoop links p n (j + 1) a = links a := by
  induction j generalizing links p with
  | zero =>
    refine ⟨⟨rfl,?_⟩,fun a ha => ?_⟩
    · simp [linkLoop,objects]
    · exact Function.update_of_ne (fun he => ha (by simp [objects,he])) _ _
  | succ j ih =>
    obtain ⟨hc,hfar⟩ := ih (Function.update links p (some (p + n))) (p + n)
    have hp : p ∉ objects (p + n) n (j + 1) := by
      intro hm
      obtain ⟨i,_,hi⟩ := mem_objects.mp hm
      have := Nat.zero_le (i * n)
      omega
    rw [linkLoop,objects]
    refine ⟨⟨rfl,?_⟩,fun a ha => ?_⟩
    · rw [hfar p hp,Function.update_self]
      exact hc
    · rw [List.mem_cons,not_or] at ha
      rw [hfar a ha.2,Function.update_of_ne ha.1]

/-- The objects of a chunk behind the first one go to the empty list of their class. -/
private theorem carved_sound {j : Nat} (h : s.Sound live free [(p,8 * (k + 1) * (j + 2))]) (hk : k < NFREELISTS)
    (hempty : free k = []) :
    ({ s with
      links := linkLoop s.links (p + 8 * (k + 1)) (8 * (k + 1)) (j + 1)
      freeList := Function.update s.freeList k (some (p + 8 * (k + 1))) } : DefaultAlloc).Sound live
        (Function.update free k (objects (p + 8 * (k + 1)) (8 * (k + 1)) (j + 1))) [(p,8 * (k + 1))] := by
  obtain ⟨hchain,hfar⟩ := linkLoop_spec (show 0 < 8 * (k + 1) by omega) s.links (p + 8 * (k + 1)) j
  have hmul : 8 * (k + 1) * (j + 2) = 8 * (k + 1) + 8 * (k + 1) * (j + 1) := by
    rw [Nat.mul_succ _ (j + 1),Nat.add_comm]
  have hin : Inside s.got (p,8 * (k + 1) * (j + 2)) := h.core.inside _ (by simp)
  have hcut : Core s.links s.freeList s.got live free
      (((objects (p + 8 * (k + 1)) (8 * (k + 1)) (j + 1)).map fun a => (a,8 * (k + 1))) ++
        ([(p,8 * (k + 1))] ++ [(s.startFree,s.endFree - s.startFree)])) := by
    refine h.core.replace ?_ ?_
    · rw [bytesOf_append,bytesOf_append,bytesOf_append,bytesOf_objects,← List.append_assoc]
      refine List.Perm.append_right _ ?_
      simp only [bytesOf_cons,bytesOf_nil,List.append_nil]
      rw [hmul,range'_split]
      exact List.perm_append_comm
    · intro r hr
      simp only [List.mem_append,List.mem_map,List.mem_singleton] at hr
      rcases hr with ⟨a,ha,rfl⟩ | rfl | rfl
      · obtain ⟨i,hi,rfl⟩ := mem_objects.mp ha
        have hmi : (i + 1) * (8 * (k + 1)) ≤ (j + 1) * (8 * (k + 1)) := Nat.mul_le_mul_right _ (by omega)
        rw [Nat.add_one_mul,Nat.mul_comm (j + 1)] at hmi
        exact hin.sub (by omega) (by omega)
      · exact hin.sub (Nat.le_refl _) (by omega)
      · exact h.core.inside _ (by simp)
  have hcore := hcut.extend hk hfar (by rw [hempty,List.append_nil]; exact hchain)
  rw [hempty,List.append_nil] at hcore
  exact ⟨hcore,⟨h.given.once,h.given.range,h.given.heap⟩,h.order,h.bound,h.mult⟩

/-- Objects that were carved and not returned are on the list of their class. -/
def Filed (free : Nat → List Nat) (fx : List Effect) : Prop :=
  ∀ chunk n nobjs, Effect.carved chunk n nobjs ∈ fx → ∀ i, 1 ≤ i → i < nobjs → chunk + i * n ∈ free (freelistIndex n)

private theorem refill_spec {wild : Option Nat} (h : s.Sound live free []) (hk : k < NFREELISTS) (hempty : free k = [])
    (ha : s.Answered (8 * (k + 1)) answer) (hw : wild = some k ∨ s.Single (8 * (k + 1)) answer) :
    ∃ s' ret fx free', s.refill (8 * (k + 1)) [answer] wild = .ok (s',ret) fx ∧
      s'.Sound live free' (ret.map fun p => (p,8 * (k + 1))).toList ∧ Filed free' fx := by
  have hk16 : k < 16 := hk
  obtain ⟨s₁,chunk,free₁,hchunk,hlist,hnone,hsome⟩ := chunkAlloc_spec h hk ha
  unfold refill
  rw [hchunk]
  simp only [Act.bind_ok,Act.after_nil]
  cases chunk with
  | none => exact ⟨s₁,none,_,free₁,rfl,hnone rfl,by simp [Filed]⟩
  | some c =>
    obtain ⟨p,j⟩ := c
    obtain ⟨hs₁,hj,hone⟩ := hsome p j rfl
    by_cases hj1 : j = 1
    · subst hj1
      rw [Nat.mul_one] at hs₁
      exact ⟨s₁,some p,_,free₁,rfl,hs₁,by simp [Filed]⟩
    · obtain ⟨i,rfl⟩ : ∃ i, j = i + 2 := ⟨j - 2,by omega⟩
      have hwild : wild = some k := hw.resolve_right fun hs => hj1 (hone hs)
      subst hwild
      refine ⟨_,some p,[.carved p (8 * (k + 1)) (i + 2)],_,?_,carved_sound hs₁ hk (hlist hempty),?_⟩
      · simp only [if_neg hj1,setSlot_eq hk,Act.bind_ok,Act.after_nil,Act.emit_eq]
        rfl
      · intro c m q hm a ha₁ ha₂
        obtain ⟨rfl,rfl,rfl⟩ : c = p ∧ m = 8 * (k + 1) ∧ q = i + 2 := by simpa using hm
        rw [freelistIndex_mul k (by omega),Function.update_self,mem_objects]
        refine ⟨a - 1,by omega,?_⟩
        obtain ⟨a,rfl⟩ : ∃ b, a = b + 1 := ⟨a - 1,by omega⟩
        rw [Nat.add_one_mul,Nat.add_sub_cancel]
        omega

/-- An allocation of a small block keeps the regions apart, whether it returns a
block or throws. -/
private theorem allocate_spec {wild : Option Nat} (h : s.Sound live free []) (h₁ : 1 ≤ n) (h₂ : n ≤ 128)
    (ha : s.Answered (roundUp n) answer)
    (hw : wild = some (freelistIndex n) ∨ s.freeList (freelistIndex n) ≠ none ∨ s.Single (roundUp n) answer) :
    ∃ s' ret fx free', s.allocate n answer wild = .ok (s',ret) fx ∧
      s'.Sound ((ret.map fun p => (p,n)).toList ++ live) free' [] ∧ Filed free' fx := by
  obtain ⟨hsize,hk,_⟩ := roundUp_class h₁ h₂
  obtain ⟨k,hkk⟩ : ∃ k, k = freelistIndex n := ⟨_,rfl⟩
  rw [← hkk] at hsize hk hw
  have hchain := h.core.chains k hk
  unfold allocate
  rw [if_neg (show ¬ n > MAX_BYTES from Nat.not_lt.mpr h₂),← hkk,slot_eq hk,Act.bind_ok,Act.after_nil]
  cases hhead : s.freeList k with
  | none =>
    rw [hhead,Chain.none_iff] at hchain
    rw [hsize] at ha hw
    have hw' : wild = some k ∨ s.Single (8 * (k + 1)) answer := by
      rcases hw with hw | hw | hw
      · exact .inl hw
      · exact absurd hhead hw
      · exact .inr hw
    obtain ⟨s',ret,fx,free',he,hs',hfiled⟩ := refill_spec h hk hchain ha hw'
    refine ⟨s',ret,fx,free',by simp only [hsize,he],?_,hfiled⟩
    cases ret with
    | none => exact hs'
    | some p =>
      rw [← hsize] at hs'
      exact ⟨hs'.core.handOut,hs'.given,hs'.order,hs'.bound,hs'.mult⟩
  | some p =>
    rw [hhead] at hchain
    obtain ⟨t,ht,_⟩ := hchain.head_some
    refine ⟨{ s with freeList := Function.update s.freeList k (s.links p) },some p,[],Function.update free k t,?_,?_,
      by simp [Filed]⟩
    · simp only [setSlot_eq hk,Act.bind_ok,Act.after_nil,Act.pure_eq]
    · have hcore := h.core.pop hk ht
      rw [← hsize] at hcore
      exact ⟨hcore.handOut,⟨h.given.once,h.given.range,h.given.heap⟩,h.order,h.bound,h.mult⟩

private theorem deallocate_spec (h : s.Sound live free []) (hm : (p,n) ∈ live) (h₁ : 1 ≤ n) (h₂ : n ≤ 128) :
    ∃ s' free', s.deallocate p n = .ok s' [] ∧ s'.Sound (live.erase (p,n)) free' [] := by
  obtain ⟨hsize,hk,_⟩ := roundUp_class h₁ h₂
  have hcore := h.core.takeBack hm
  rw [hsize] at hcore
  refine ⟨{ s with
    links := Function.update s.links p (s.freeList (freelistIndex n))
    freeList := Function.update s.freeList (freelistIndex n) (some p) },_,?_,
    ⟨push_core hcore hk,⟨h.given.once,h.given.range,h.given.heap⟩,h.order,h.bound,h.mult⟩⟩
  rw [deallocate,if_neg (show ¬ n > MAX_BYTES from Nat.not_lt.mpr h₂),push_eq hk]

end DefaultAlloc

namespace World

/-- Words of memory that touch a block of a client may be changed by that client. -/
def Writes (w : World) (links : Nat → Option Nat) : Prop :=
  ∀ a, (∀ b ∈ w.live, a + 8 ≤ b.1 ∨ b.1 + b.2 ≤ a) → links a = w.alloc.links a

/-- Requests are for 1 to 128 bytes and memory that is given is new. Blocks are
returned once, with the size they were asked for. -/
def Allowed (w : World) : AllocOp → Prop
  | .allocate n answer _ => 1 ≤ n ∧ n ≤ 128 ∧ w.alloc.Answered (roundUp n) answer
  | .deallocate p n => (p,n) ∈ w.live
  | .store links => w.Writes links

/-- The pointer that `_S_refill` does not initialise holds the address of the right
free list, or is not used: the list has a block, or one object only is cut. -/
def Aimed (w : World) : AllocOp → Prop
  | .allocate n answer wild => wild = some (freelistIndex n) ∨ w.alloc.freeList (freelistIndex n) ≠ none ∨
      w.alloc.Single (roundUp n) answer
  | .deallocate _ _ | .store _ => True

open Classical in
noncomputable instance (w : World) (op : AllocOp) : Decidable (w.Allowed op) :=
  match op with
  | .allocate n answer _ => inferInstanceAs (Decidable (1 ≤ n ∧ n ≤ 128 ∧ w.alloc.Answered (roundUp n) answer))
  | .deallocate p n => inferInstanceAs (Decidable ((p,n) ∈ w.live))
  | .store links => propDecidable (w.Writes links)

instance (w : World) (op : AllocOp) : Decidable (w.Aimed op) :=
  match op with
  | .allocate n answer wild => inferInstanceAs (Decidable (wild = some (freelistIndex n) ∨
      w.alloc.freeList (freelistIndex n) ≠ none ∨ w.alloc.Single (roundUp n) answer))
  | .deallocate _ _ | .store _ => inferInstanceAs (Decidable True)

/-- The blocks of the clients, those on the free lists and the pool. -/
def regions (w : World) (free : Nat → List Nat) : List (Nat × Nat) :=
  held w.live free ++ [(w.alloc.startFree,w.alloc.endFree - w.alloc.startFree)]

/-- The free lists have these blocks. All regions are different memory that `malloc`
gave, and each client has as many bytes as it asked for. -/
structure Separated (w : World) (free : Nat → List Nat) : Prop where
  lists : ∀ k < NFREELISTS, Chain w.alloc.links (w.alloc.freeList k) (free k)
  apart : (w.regions free).Pairwise Apart
  inside : ∀ r ∈ w.regions free, Inside w.alloc.got r
  enough : ∀ b ∈ w.live, b.2 ≤ roundUp b.2

/-- The invariant of the whole. -/
private structure Kept (w : World) (free : Nat → List Nat) : Prop where
  sound : w.alloc.Sound w.live free []
  sizes : ∀ b ∈ w.live, 1 ≤ b.2 ∧ b.2 ≤ 128

variable {w : World} {free : Nat → List Nat} {op : AllocOp}

private theorem Kept.separated (h : w.Kept free) : w.Separated free := by
  refine ⟨h.sound.core.chains,pairwise_apart h.sound.core.apart,h.sound.core.inside,fun b hb => ?_⟩
  obtain ⟨h₁,h₂⟩ := h.sizes b hb
  exact (roundUp_class h₁ h₂).2.2

/-- A link on a free list is no word of a client. -/
private theorem Kept.link_kept {links : Nat → Option Nat} (h : w.Kept free) (hw : w.Writes links) {a k : Nat}
    (hk : k < NFREELISTS) (ha : a ∈ free k) : links a = w.alloc.links a := by
  refine hw a fun b hb => ?_
  obtain ⟨h₁,h₂⟩ := h.sizes b hb
  have hle := (roundUp_class h₁ h₂).2.2
  have hn := h.sound.core.apart
  rw [held,List.append_assoc,bytesOf_append] at hn
  have hdisj := (List.nodup_append.mp hn).2.2
  by_contra hcon
  rw [not_or,not_le,not_le] at hcon
  -- the first byte that both would have
  have hx : max a b.1 ∈ bytesOf (w.live.map fun b => (b.1,roundUp b.2)) := by
    refine mem_bytesOf.mpr ⟨_,List.mem_map.mpr ⟨b,hb,rfl⟩,?_,?_⟩
    · exact le_max_right _ _
    · dsimp only
      omega
  have hy : max a b.1 ∈ bytesOf (blocks free ++ ([] ++ [(w.alloc.startFree,w.alloc.endFree - w.alloc.startFree)])) := by
    refine mem_bytesOf.mpr ⟨_,List.mem_append_left _ (mem_blocks.mpr ⟨k,hk,a,ha,rfl⟩),?_,?_⟩
    · exact le_max_left _ _
    · dsimp only
      omega
  exact hdisj _ hx _ hy rfl

private theorem step_kept (h : w.Kept free) (ha : w.Allowed op) (hm : w.Aimed op) :
    ∃ w' fx free', allocStep w op = .ok w' fx ∧ w'.Kept free' ∧ DefaultAlloc.Filed free' fx := by
  cases op with
  | allocate n answer wild =>
    obtain ⟨h₁,h₂,hans⟩ := ha
    obtain ⟨s',ret,fx,free',he,hs',hfiled⟩ := DefaultAlloc.allocate_spec h.sound h₁ h₂ hans hm
    refine ⟨⟨s',(ret.map fun p => (p,n)).toList ++ w.live⟩,fx,free',?_,⟨hs',fun b hb => ?_⟩,hfiled⟩
    · simp only [allocStep,he,Act.bind_ok,Act.pure_eq,Act.after_ok,List.append_nil]
    · rcases List.mem_append.mp hb with hb | hb
      · cases ret with
        | none => cases hb
        | some p =>
          rw [List.mem_singleton.mp (by simpa using hb : b ∈ [(p,n)])]
          exact ⟨h₁,h₂⟩
      · exact h.sizes b hb
  | deallocate p n =>
    obtain ⟨h₁,h₂⟩ := h.sizes (p,n) ha
    obtain ⟨s',free',he,hs'⟩ := DefaultAlloc.deallocate_spec h.sound ha h₁ h₂
    refine ⟨⟨s',w.live.erase (p,n)⟩,[],free',?_,⟨hs',fun b hb => h.sizes b (List.mem_of_mem_erase hb)⟩,by simp [DefaultAlloc.Filed]⟩
    simp only [allocStep,he,Act.bind_ok,Act.after_nil,Act.pure_eq]
  | store links =>
    refine ⟨_,[],free,rfl,⟨⟨⟨fun k hk => ?_,h.sound.core.apart,h.sound.core.inside⟩,
      ⟨h.sound.given.once,h.sound.given.range,h.sound.given.heap⟩,h.sound.order,h.sound.bound,h.sound.mult⟩,h.sizes⟩,
      by simp [DefaultAlloc.Filed]⟩
    exact (h.sound.core.chains k hk).congr fun a hm => h.link_kept ha hk hm

private theorem kept_zero : (⟨.zero,[]⟩ : World).Kept fun _ => [] := by
  have hheld : held [] (fun _ => []) = [] := by simp [held,blocks]
  refine ⟨⟨⟨fun _ _ => rfl,?_,?_⟩,⟨by simp [DefaultAlloc.zero],by simp [DefaultAlloc.zero],rfl⟩,Nat.le_refl _,?_,rfl⟩,by simp⟩
  · rw [hheld]
    simp [DefaultAlloc.zero]
  · rw [hheld]
    intro r hr
    exact .inl (by simp [DefaultAlloc.zero] at hr; simp [hr])
  · exact Nat.two_pow_pos 64

end World

/-- Along every run of calls and of writes of the clients to their blocks, in which
every refill that cuts more than one object hits the list of its class, all regions
stay apart. Every such call returns, with a block or with the exception, and what it
carves and does not return is on the list of its class. -/
theorem blocks_stay_apart (tr : Trace AllocOp Effect) (w : World)
    (hr : Run allocStep (fun _ w op => w.Allowed op ∧ w.Aimed op) ⟨.zero,[]⟩ tr w) :
    (∃ free, w.Separated free) ∧ ∀ op, w.Allowed op → w.Aimed op → ∃ w' fx free', allocStep w op = .ok w' fx ∧
      w'.Separated free' ∧ DefaultAlloc.Filed free' fx := by
  have hinv : ∃ free, w.Kept free := by
    refine hr.invariant (fun _ w => ∃ free, w.Kept free) ⟨_,World.kept_zero⟩ ?_
    rintro tr w op w' fx ⟨free,h⟩ ⟨ha,hm⟩ he
    obtain ⟨w₁,fx₁,free₁,he₁,h₁,_⟩ := World.step_kept h ha hm
    rw [he] at he₁
    cases he₁
    exact ⟨free₁,h₁⟩
  obtain ⟨free,h⟩ := hinv
  refine ⟨⟨free,h.separated⟩,fun op ha hm => ?_⟩
  obtain ⟨w',fx,free',he,h',hfiled⟩ := World.step_kept h ha hm
  exact ⟨w',fx,free',he,h'.separated,hfiled⟩

/-- Two classes of blocks, a block that goes back and comes again, and a request
without memory. -/
theorem blocks_stay_apart_reused : ∃ tr w, Run allocStep (fun _ w op => w.Allowed op ∧ w.Aimed op) ⟨.zero,[]⟩ tr w ∧
    tr.map (·.1) = [.allocate 5 ⟨some 1000,none⟩ (some 0),.allocate 48 ⟨none,none⟩ (some 5),.deallocate 1000 5,
      .allocate 8 ⟨none,none⟩ none,.allocate 128 ⟨none,none⟩ none] ∧
    w.live = [(1000,8),(1160,48)] ∧ ∃ free, w.Separated free := by
  have hcheck : runCheck allocStep (fun _ w op => w.Allowed op ∧ w.Aimed op) (fun _ w => w.live = [(1000,8),(1160,48)])
      [.allocate 5 ⟨some 1000,none⟩ (some 0),.allocate 48 ⟨none,none⟩ (some 5),.deallocate 1000 5,
        .allocate 8 ⟨none,none⟩ none,.allocate 128 ⟨none,none⟩ none] [] ⟨.zero,[]⟩ = true := by decide
  obtain ⟨tr,w,hr,hm,hl⟩ := Run.of_runCheck hcheck
  exact ⟨tr,w,hr,hm,hl,(blocks_stay_apart tr w hr).1⟩

/-- The objects of the first refill go to the list for 48 bytes. Two clients then get
overlapping blocks. -/
theorem misdirected_refill_overlaps : ∃ tr w, Run allocStep (fun _ w op => w.Allowed op) ⟨.zero,[]⟩ tr w ∧
    tr.map (·.1) = [.allocate 8 ⟨some 1000,none⟩ (some 5),.allocate 48 ⟨none,none⟩ none,.allocate 48 ⟨none,none⟩ none] ∧
    w.live = [(1016,48),(1008,48),(1000,8)] ∧ ¬ ∃ free, w.Separated free := by
  have hcheck : runCheck allocStep (fun _ w op => w.Allowed op) (fun _ w => w.live = [(1016,48),(1008,48),(1000,8)])
      [.allocate 8 ⟨some 1000,none⟩ (some 5),.allocate 48 ⟨none,none⟩ none,.allocate 48 ⟨none,none⟩ none] [] ⟨.zero,[]⟩ = true := by
    decide
  obtain ⟨tr,w,hr,hm,hl⟩ := Run.of_runCheck hcheck
  refine ⟨tr,w,hr,hm,hl,?_⟩
  rintro ⟨free,h⟩
  have hapart := h.apart
  rw [World.regions,held,hl,List.map_cons,List.map_cons,List.cons_append,List.cons_append,List.pairwise_cons] at hapart
  have hround : roundUp 48 = 48 := by decide
  have := hapart.1 (1008,roundUp 48) (by simp) 1016 (by simp) (by simp [hround]) (by simp)
  exact this (by simp [hround])

end MyProgram.StlAlloc
