import MyProgram.SkynetGate.HashidUpdate
import Mathlib.Order.Bounds.Basic

/-! The id hash at the upper end of the range of `int`: how large `max_online` may
be, and how far the probes of an insertion may go. -/
namespace MyProgram.SkynetGate.Hashid
open Lib
variable {hi : Hashid} {id max : Int} {n : Nat}

/-- The powers of two that `hashid_init` may choose from. -/
def capacities (max : Int) : Set Int := {c | ∃ k : Nat, c = 2^k ∧ 16 ≤ c ∧ max ≤ c}

/-- The doubling loop ends, at the least capacity, and every `int` is masked to a
bucket of the table. -/
def InitUsable (max : Int) : Prop :=
  (∃ fuel hashcap, hashcapLoop max fuel 16 = some hashcap) ∧
    ∃ hi, hashidInit max = .ok hi [] ∧ IsLeast (capacities max) (hi.hashmod + 1) ∧
      ∀ id, -2^31 ≤ id → id < 2^31 → 0 ≤ hi.bucket id ∧ hi.bucket id < hi.hash.length

/-- The rounds that reach a capacity below `2^30` are enough. -/
theorem hashcapLoop_isSome (h : max ≤ 2^30) (fuel k : Nat) (hk : k ≤ 30) (hf : 30 < fuel + k) :
    ∃ hashcap, hashcapLoop max fuel (2^k) = some hashcap := by
  induction fuel generalizing k with
  | zero => omega
  | succ fuel ih =>
    rw [hashcapLoop]
    split
    · rename_i hlt
      have hk' : k ≠ 30 := by
        rintro rfl
        omega
      have hle : (2:Int)^(k+1) ≤ 2^30 := pow_le_pow_right₀ (by norm_num) (by omega)
      have hp : (0:Int) < 2^(k+1) := by positivity
      rw [← pow_succ,wrap32_eq (by omega) (by omega)]
      exact ih (k + 1) (by omega) (by omega)
    · exact ⟨_,rfl⟩

/-- Each capacity that the loop passes is too small. -/
theorem hashcapLoop_least {hashcap c : Int} (fuel : Nat) {k : Nat} (hk : k ≤ 30)
    (h : hashcapLoop max fuel (2^k) = some hashcap) (j : Nat) (hc : c = 2^j) (hkc : (2:Int)^k ≤ c) (hm : max ≤ c) :
    hashcap ≤ c := by
  induction fuel generalizing k with
  | zero => cases h
  | succ fuel ih =>
    have hfuel := h
    rw [hashcapLoop] at h
    split at h
    · rename_i hlt
      obtain ⟨i,_,hi30,_,hmax⟩ := hashcapLoop_eq_some (fuel + 1) hk hfuel
      have hkj : k < j := (pow_lt_pow_iff_right₀ (by norm_num : (1:Int) < 2)).mp (by omega)
      have hki : k < i := (pow_lt_pow_iff_right₀ (by norm_num : (1:Int) < 2)).mp (by omega)
      have hle : (2:Int)^(k+1) ≤ 2^30 := pow_le_pow_right₀ (by norm_num) (by omega)
      have hp : (0:Int) < 2^(k+1) := by positivity
      have hcj : (2:Int)^(k+1) ≤ c := hc ▸ pow_le_pow_right₀ (by norm_num) (by omega)
      rw [← pow_succ,wrap32_eq (by omega) (by omega)] at h
      exact ih (by omega) h hcj
    · cases h
      exact hkc

/-- Beyond `2^30` the loop never ends, however long it runs. -/
theorem hashcapLoop_diverges (h : 2^30 < max) (fuel : Nat) : hashcapLoop max fuel 16 = none := by
  cases hl : hashcapLoop max fuel 16 with
  | none => rfl
  | some hashcap =>
    obtain ⟨j,_,hj,_,hle⟩ := hashcapLoop_eq_some fuel (k := 4) (by omega) hl
    have : (2:Int)^j ≤ 2^30 := pow_le_pow_right₀ (by norm_num) hj
    omega

/-- Every `int` is masked to a bucket of a well-formed table. -/
theorem Wf.bucket_range (w : hi.Wf) (id : Int) : 0 ≤ hi.bucket id ∧ hi.bucket id < hi.hash.length := by
  have := w.index_lt id
  rw [w.bucket_eq]
  omega

theorem init_returns (h0 : 0 ≤ max) (h : max ≤ 2^30) :
    ∃ hi hashcap, hashcapLoop max 32 16 = some hashcap ∧ hashidInit max = .ok hi [] ∧ hi.hashmod + 1 = hashcap := by
  obtain ⟨hashcap,hl⟩ := hashcapLoop_isSome h 32 4 (by omega) (by omega)
  have hl : hashcapLoop max 32 16 = some hashcap := hl
  have hneg : ¬ max < 0 := by omega
  unfold hashidInit
  rw [hl]
  simp only [if_neg hneg,Act.pure_eq]
  exact ⟨_,_,rfl,rfl,Int.sub_add_cancel hashcap 1⟩

/-- `hashid_init` makes a usable table exactly up to a capacity of `2^30`. -/
theorem init_usable_iff (h0 : 0 ≤ max) (h31 : max < 2^31) : InitUsable max ↔ max ≤ 2^30 := by
  constructor
  · rintro ⟨⟨fuel,hashcap,hl⟩,_⟩
    by_contra h
    rw [hashcapLoop_diverges (by omega)] at hl
    cases hl
  · intro h
    obtain ⟨hi,hashcap,hl,hi',hc⟩ := init_returns h0 h
    obtain ⟨w,_⟩ := init_spec hi'
    refine ⟨⟨32,hashcap,hl⟩,hi,hi',⟨?_,?_⟩,fun id _ _ => w.bucket_range id⟩
    · obtain ⟨j,hj,_,rfl,hm⟩ := hashcapLoop_eq_some 32 (k := 4) (by omega) hl
      have : (2:Int)^4 ≤ 2^j := pow_le_pow_right₀ (by norm_num) hj
      exact ⟨j,hc,by omega,by omega⟩
    · rintro c ⟨j,hcj,h16,hm⟩
      rw [hc]
      exact hashcapLoop_least 32 (k := 4) (by omega) hl j hcj h16 hm

theorem init_usable_iff_largest : InitUsable (2^30) ∧ ¬ InitUsable (2^30 + 1) :=
  ⟨(init_usable_iff (by decide) (by decide)).mpr (by decide),
    fun h => absurd ((init_usable_iff (by decide) (by decide)).mp h) (by decide)⟩

/-- With a `max_online` of `2^30 + 1` the loop doubles for ever. -/
theorem init_never_returns :
    (∀ fuel, hashcapLoop 1073741825 fuel 16 = none) ∧ ¬ InitUsable 1073741825 := by
  have hd : ∀ fuel, hashcapLoop 1073741825 fuel 16 = none := hashcapLoop_diverges (by decide)
  refine ⟨hd,?_⟩
  rintro ⟨⟨fuel,hashcap,hl⟩,_⟩
  rw [hd fuel] at hl
  cases hl

/-- The indices of `hi->id` that the probing loop examines, in order. -/
def examined (hi : Hashid) (id : Int) (i : Nat) : Nat → List Int
  | 0 => []
  | left+1 =>
    let index := (wrap32 (i + id)).tmod hi.cap
    match hi.node index with
    | .ok c _ => index :: if c.id = -1 then [] else examined hi id (i+1) left
    | .fail _ _ => [index]

/-- All probes are inside the array, and they end at the first free slot in cyclic
order from `id mod cap` on. -/
def ProbesValid (hi : Hashid) (id : Int) : Prop :=
  (∀ index ∈ examined hi id 0 hi.cap.toNat, 0 ≤ index ∧ index < hi.cap) ∧
    ∃ n c : Nat, insertLoop hi id 0 hi.cap.toNat = .ok (some c) [] ∧ n < hi.id.length ∧
      (c : Int) = (id + n) % hi.cap ∧ hi.idAt c = some (-1) ∧
      ∀ j : Nat, j < n → hi.idAt ((id + j) % hi.cap).toNat ≠ some (-1)

/-- A free slot is met before `i + id` wraps, or at the wrapped sum itself where the
remainder of `-2^31` is 0. -/
def FreeInTime (hi : Hashid) (id : Int) : Prop :=
  ∃ j : Nat, j < hi.id.length ∧ hi.idAt ((id + j) % hi.cap).toNat = some (-1) ∧
    (id + j < 2^31 ∨ id + j = 2^31 ∧ hi.cap ∣ 2^31)

/-- The index of round `j` is the `j`-th slot from `id mod cap` on. -/
def Regular (hi : Hashid) (id : Int) (j : Nat) : Prop :=
  (wrap32 (j + id)).tmod hi.cap = (id + j) % hi.cap

theorem regular_of_lt (hcap : hi.cap = hi.id.length) (h0 : 0 ≤ id) (hfit : id + n < 2^31) : Regular hi id n := by
  have h := probe_index hcap h0 hfit
  rw [← hcap] at h
  rw [Regular,h]
  rcases Int.lt_or_eq_of_le (show 0 ≤ hi.cap by omega) with hp | hz
  · exact Int.toNat_of_nonneg (Int.emod_nonneg _ hp.ne')
  · rw [← hz,Int.emod_zero]
    exact Int.toNat_of_nonneg (by omega)

/-- The first sum that leaves the range is `-2^31` in the machine. -/
theorem tmod_wrapped (hfit : id + n = 2^31) : (wrap32 (n + id)).tmod hi.cap = -((2^31 : Int) % hi.cap) := by
  have hw : wrap32 (2^31) = -2^31 := by decide
  rw [Int.add_comm,hfit,hw,Int.neg_tmod,Int.tmod_eq_emod_of_nonneg (by norm_num)]

theorem exists_idAt_emod (hcap : hi.cap = hi.id.length) (hpos : 0 < hi.cap) (m : Int) :
    ∃ i, hi.idAt (m % hi.cap).toNat = some i ∧ hi.node (m % hi.cap) = .ok ⟨i,hi.next (m % hi.cap).toNat⟩ [] := by
  have h0 := Int.emod_nonneg m hpos.ne'
  have hlt := Int.emod_lt_of_pos m hpos
  have hlen : (m % hi.cap).toNat < hi.id.length := by omega
  have hid : hi.idAt (m % hi.cap).toNat = some hi.id[(m % hi.cap).toNat].id := by simp [idAt,hlen]
  have hn := node_eq hid
  rw [Int.toNat_of_nonneg h0] at hn
  exact ⟨_,hid,hn⟩

/-- Rounds with a regular index and a used slot are passed over. -/
theorem insertLoop_pass (hcap : hi.cap = hi.id.length) (hpos : 0 < hi.cap) (k i left : Nat)
    (hk : ∀ j, i ≤ j → j < i + k → Regular hi id j ∧ hi.idAt ((id + j) % hi.cap).toNat ≠ some (-1)) :
    insertLoop hi id i (k + left) = insertLoop hi id (i + k) left ∧
      ∀ index ∈ examined hi id i (k + left), (0 ≤ index ∧ index < hi.cap) ∨ index ∈ examined hi id (i + k) left := by
  induction k generalizing i with
  | zero =>
    rw [Nat.zero_add,Nat.add_zero]
    exact ⟨rfl,fun index hm => .inr hm⟩
  | succ k ih =>
    obtain ⟨hreg,hused⟩ := hk i le_rfl (by omega)
    obtain ⟨c,hc,hn⟩ := exists_idAt_emod hcap hpos (id + i)
    have hne : c ≠ -1 := by
      rintro rfl
      exact hused hc
    obtain ⟨hl,he⟩ := ih (i + 1) (fun j hj hjk => hk j (by omega) (by omega))
    rw [Nat.add_right_comm i 1 k] at hl he
    rw [Nat.add_right_comm k 1 left,insertLoop,examined,hreg,hn]
    simp only [Act.bind_ok,if_neg hne,Act.after_nil]
    refine ⟨hl,fun index hm => ?_⟩
    rcases List.mem_cons.mp hm with rfl | hm
    · exact .inl ⟨Int.emod_nonneg _ hpos.ne',Int.emod_lt_of_pos _ hpos⟩
    · exact he index hm

/-- A round with a regular index ends the loop at a free slot. -/
theorem insertLoop_stop (hcap : hi.cap = hi.id.length) (hpos : 0 < hi.cap) (n left : Nat) (hreg : Regular hi id n)
    (hfree : hi.idAt ((id + n) % hi.cap).toNat = some (-1)) :
    insertLoop hi id n (left + 1) = .ok (some ((id + n) % hi.cap).toNat) [] ∧
      examined hi id n (left + 1) = [(id + n) % hi.cap] := by
  obtain ⟨c,hc,hn⟩ := exists_idAt_emod hcap hpos (id + n)
  have he : c = -1 := Option.some.inj (hc.symm.trans hfree)
  rw [insertLoop,examined,hreg,hn]
  simp [he]

/-- A loop that returns has read at a proper index. -/
theorem insertLoop_index_nonneg {i left : Nat} {r : Option Nat} {fx : List Effect}
    (h : insertLoop hi id i (left + 1) = .ok r fx) : 0 ≤ (wrap32 (i + id)).tmod hi.cap := by
  rw [insertLoop] at h
  obtain ⟨n,fx₁,fx₂,hn,_,_⟩ := Act.bind_eq_ok.mp h
  exact (Act.read_eq_ok.mp hn).1

theorem probesValid_of_freeInTime (hcap : hi.cap = hi.id.length) (h0 : 0 ≤ id) (h : FreeInTime hi id) :
    ProbesValid hi id := by
  obtain ⟨j,hj,hfree,hfit⟩ := h
  have hpos : 0 < hi.cap := by omega
  have hex : ∃ j : Nat, hi.idAt ((id + j) % hi.cap).toNat = some (-1) := ⟨j,hfree⟩
  obtain ⟨n,hn,hfirst⟩ : ∃ n : Nat, hi.idAt ((id + n) % hi.cap).toNat = some (-1) ∧
      ∀ m : Nat, m < n → hi.idAt ((id + m) % hi.cap).toNat ≠ some (-1) :=
    ⟨Nat.find hex,Nat.find_spec hex,fun m hm => Nat.find_min hex hm⟩
  have hnj : n ≤ j := by
    by_contra hlt
    exact hfirst j (by omega) hfree
  have hreg : Regular hi id n := by
    by_cases hn31 : id + n < 2^31
    · exact regular_of_lt hcap h0 hn31
    · -- the wrapped sum, at a capacity that divides it
      obtain ⟨hj31,hdvd⟩ : id + j = 2^31 ∧ hi.cap ∣ 2^31 := by omega
      have hn31 : id + n = 2^31 := by omega
      rw [Regular,tmod_wrapped hn31,hn31,Int.emod_eq_zero_of_dvd hdvd,Int.neg_zero]
  obtain ⟨hpass,hpe⟩ := insertLoop_pass hcap hpos n 0 (hi.cap.toNat - n)
    (fun m _ hm => ⟨regular_of_lt hcap h0 (by omega),hfirst m (by omega)⟩)
  have hleft : hi.cap.toNat - n = (hi.cap.toNat - n - 1) + 1 := by omega
  obtain ⟨hstop,hse⟩ := insertLoop_stop hcap hpos n (hi.cap.toNat - n - 1) hreg hn
  rw [Nat.zero_add,hleft,show n + (hi.cap.toNat - n - 1 + 1) = hi.cap.toNat by omega] at hpass hpe
  have hm0 := Int.emod_nonneg (id + n) hpos.ne'
  have hml := Int.emod_lt_of_pos (id + n) hpos
  refine ⟨fun index hm => ?_,n,_,hpass.trans hstop,by omega,Int.toNat_of_nonneg hm0,hn,hfirst⟩
  rcases hpe index hm with hr | hm
  · exact hr
  · rw [hse,List.mem_singleton] at hm
    exact hm ▸ ⟨hm0,hml⟩

/-- Behind the first wrapped sum the remainder is negative. -/
private theorem le_one_of_wrapped_succ {cap : Int} (hpos : 0 < cap) (hdvd : cap ∣ 2^31)
    (h : 0 ≤ (wrap32 (2^31 + 1)).tmod cap) : cap ≤ 1 := by
  have hw : wrap32 (2^31 + 1) = -(2^31 - 1) := by decide
  rw [hw,Int.neg_tmod,Int.tmod_eq_emod_of_nonneg (by norm_num)] at h
  have hnn := Int.emod_nonneg (2^31 - 1) hpos.ne'
  have hdvd' : cap ∣ 2^31 - 1 := Int.dvd_of_emod_eq_zero (by omega)
  have h1 : cap ∣ 1 := by
    have := Int.dvd_sub hdvd hdvd'
    norm_num at this
    exact this
  exact Int.le_of_dvd (by norm_num) h1

theorem freeInTime_of_probesValid (hcap : hi.cap = hi.id.length) (h0 : 0 ≤ id) (h31 : id < 2^31)
    (h : ProbesValid hi id) : FreeInTime hi id := by
  obtain ⟨_,n,c,hl,hn,hc,hfree,hfirst⟩ := h
  have hpos : 0 < hi.cap := by omega
  have hfree : hi.idAt ((id + n) % hi.cap).toNat = some (-1) := by rwa [← hc,Int.toNat_natCast]
  by_cases hlt : id + n < 2^31
  · exact ⟨n,hn,hfree,.inl hlt⟩
  -- round `m` is the first whose sum wraps
  obtain ⟨m,hm⟩ : ∃ m : Nat, id + m = 2^31 := ⟨(2^31 - id).toNat,by omega⟩
  obtain ⟨hpass,_⟩ := insertLoop_pass hcap hpos m 0 (hi.cap.toNat - m)
    (fun j _ hj => ⟨regular_of_lt hcap h0 (by omega),hfirst j (by omega)⟩)
  rw [Nat.zero_add,show m + (hi.cap.toNat - m) = hi.cap.toNat by omega,hl,
    show hi.cap.toNat - m = (hi.cap.toNat - m - 1) + 1 by omega] at hpass
  have h1 := insertLoop_index_nonneg hpass.symm
  rw [tmod_wrapped hm] at h1
  have hdvd : hi.cap ∣ 2^31 := by
    have := Int.emod_nonneg (2^31) hpos.ne'
    exact Int.dvd_of_emod_eq_zero (by omega)
  rcases Nat.lt_or_eq_of_le (show m ≤ n by omega) with hmn | rfl
  · -- the next sum has a negative remainder
    have hreg : Regular hi id m := by
      rw [Regular,tmod_wrapped hm,hm,Int.emod_eq_zero_of_dvd hdvd,Int.neg_zero]
    obtain ⟨hpass',_⟩ := insertLoop_pass hcap hpos 1 m (hi.cap.toNat - m - 1 - 1 + 1)
      (fun j _ _ => by
        obtain rfl : j = m := by omega
        exact ⟨hreg,hfirst j hmn⟩)
    rw [Nat.add_comm 1,show hi.cap.toNat - m - 1 - 1 + 1 = hi.cap.toNat - m - 1 by omega,← hpass,
      show hi.cap.toNat - m - 1 = hi.cap.toNat - m - 1 - 1 + 1 by omega] at hpass'
    have h2 := insertLoop_index_nonneg hpass'.symm
    rw [show ((m + 1 : Nat) : Int) + id = 2^31 + 1 by push_cast; omega] at h2
    have := le_one_of_wrapped_succ hpos hdvd h2
    omega
  · exact ⟨m,hn,hfree,.inr ⟨hm,hdvd⟩⟩

/-- The probes are valid exactly when a free slot is met in time. -/
theorem probes_valid_iff (hcap : hi.cap = hi.id.length) (h0 : 0 ≤ id) (h31 : id < 2^31) :
    ProbesValid hi id ↔ FreeInTime hi id :=
  ⟨freeInTime_of_probesValid hcap h0 h31,probesValid_of_freeInTime hcap h0⟩

/-- A table with the given ids in its slots. -/
def holding (ids : List Int) : Hashid :=
  { hashmod := 15, cap := ids.length, count := ids.countP (· ≠ -1), id := ids.map (⟨·,none⟩), hash := List.replicate 16 none }

theorem probes_valid_iff_wrapped : ProbesValid (holding [-1,5,6,7]) 2147483647 ∧ ¬ ProbesValid (holding [-1,5,6]) 2147483647 := by
  constructor
  · refine (probes_valid_iff rfl (by decide) (by decide)).mpr ⟨1,by decide,by decide,.inr ⟨by decide,by decide⟩⟩
  · rw [probes_valid_iff rfl (by decide) (by decide)]
    rintro ⟨j,hj,hfree,hfit | ⟨hfit,hdvd⟩⟩
    · obtain rfl : j = 0 := by omega
      exact absurd hfree (by decide)
    · exact absurd hdvd (by decide)

/-- With the slot of the id used, the second probe reads in front of the array. -/
theorem second_probe_outside : (holding [-1,5,6]).idAt 0 = some (-1) ∧
    examined (holding [-1,5,6]) 2147483647 0 3 = [1,-2] ∧
    insertLoop (holding [-1,5,6]) 2147483647 0 3 = .fail .outOfBounds .hashid ∧
    ¬ ProbesValid (holding [-1,5,6]) 2147483647 := by
  refine ⟨by decide,by decide,by decide,?_⟩
  rintro ⟨hin,_⟩
  have := hin (-2) (by decide)
  omega

end MyProgram.SkynetGate.Hashid
