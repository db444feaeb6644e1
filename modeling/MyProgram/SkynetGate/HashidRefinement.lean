import MyProgram.SkynetGate.HashidUpdate
import MyProgram.Lib.Runs
import MyProgram.Lib.SlotMap

/-! The id hash refines an injective partial map from ids to slots, over every
history of calls that respect its callers' contract. -/
namespace MyProgram.SkynetGate
open Lib
open Hashid (ret idAt idAt_lt)

inductive HashidOp where
  | insert (id : Int)
  | remove (id : Int)
  | lookup (id : Int)
  deriving DecidableEq, Repr

/-- One call, with its C result as the only observation. -/
def hashidCall (hi : Hashid) : HashidOp → Act Site Int Hashid
  | .insert id => observe (hashidInsert hi id)
  | .remove id => observe (hashidRemove hi id)
  | .lookup id => observe (hashidLookup hi id >>= fun r => pure (hi,r))
where
  observe : GateM (Hashid × Int) → Act Site Int Hashid
    | .ok (hi',r) _ => .ok hi' [r]
    | .fail kind site => .fail kind site

/-- The contract of a caller: ids are not negative, and an inserted one is new,
leaves room for `id + max` in an `int` and comes while the table is not full. -/
def HashidAllowed (max : Int) (_ : Trace HashidOp Int) (hi : Hashid) : HashidOp → Prop
  | .insert id => 0 ≤ id ∧ id + max < 2^31 ∧ hi.slot id = none ∧ hashidFull hi = false
  | .remove id => 0 ≤ id
  | .lookup id => 0 ≤ id

/-- The C encoding of a slot that may be missing. -/
def slotResult {n : Nat} : Option (Fin n) → Int
  | some s => (s : Nat)
  | none => -1

/-- The histories of a bounded partial map, with the results its calls return. -/
inductive SlotRun (n : Nat) : Trace HashidOp Int → SlotMap Int n → Prop
  | nil : SlotRun n [] (.empty Int n)
  | insert {tr m id} (s : Fin n) (hs : m.Free s) : SlotRun n tr m → m.slot id = none →
      SlotRun n (tr ++ [(.insert id,[((s : Nat) : Int)])]) (m.insert id s hs)
  | remove {tr m id} : SlotRun n tr m → SlotRun n (tr ++ [(.remove id,[slotResult (m.slot id)])]) (m.erase id)
  | lookup {tr m id} : SlotRun n tr m → SlotRun n (tr ++ [(.lookup id,[slotResult (m.slot id)])]) m

/-- The map is read off the node array. -/
def Represents {n : Nat} (hi : Hashid) (m : SlotMap Int n) : Prop :=
  hi.id.length = n ∧ ∀ id (s : Fin n), m.slot id = some s ↔ 0 ≤ id ∧ hi.idAt s = some id

variable {n : Nat} {hi hi' : Hashid} {m : SlotMap Int n} {id : Int}

private theorem represents_slot (w : hi.Wf) (hr : Represents hi m) (h0 : 0 ≤ id) :
    hi.slot id = (m.slot id).map (·.val) := by
  cases hm : m.slot id with
  | some s =>
    have hs := ((hr.2 id s).mp hm).2
    exact w.slot_eq_some.mpr ⟨by omega,hs⟩
  | none =>
    rw [Option.map_none,w.slot_eq_none]
    refine .inr (fun s hs => ?_)
    have hlt := idAt_lt hs
    rw [hr.1] at hlt
    have := (hr.2 id ⟨s,hlt⟩).mpr ⟨h0,hs⟩
    rw [hm] at this
    cases this

private theorem represents_ret (w : hi.Wf) (hr : Represents hi m) (h0 : 0 ≤ id) :
    ret (hi.slot id) = slotResult (m.slot id) := by
  rw [represents_slot w hr h0]
  cases m.slot id <;> rfl

private theorem represents_free (hr : Represents hi m) {s : Fin n} (hs : hi.idAt s = some (-1)) :
    m.Free s := by
  intro id h
  obtain ⟨h0,h⟩ := (hr.2 id s).mp h
  rw [hs] at h
  cases h
  omega

/-- The element count of the table is the size of the map. -/
private theorem represents_count (w : hi.Wf) (hr : Represents hi m) : hi.count = m.size := by
  obtain ⟨hlen,hr⟩ := hr
  subst hlen
  rw [w.count,← card_filter_positions]
  classical
  unfold SlotMap.size
  congr 2
  apply Finset.filter_congr
  intro s _
  have hid : hi.idAt s = some hi.id[s].id := by simp [idAt]
  have hge := w.ids s _ hid
  simp only [ne_eq,decide_eq_true_eq]
  constructor
  · intro hne
    exact ⟨_,(hr _ s).mpr ⟨by omega,hid⟩⟩
  · rintro ⟨id,h⟩ he
    obtain ⟨h0,h⟩ := (hr id s).mp h
    rw [hid,he] at h
    cases h
    omega

private theorem represents_insert {s : Fin n} (hr : Represents hi m) (h0 : 0 ≤ id) (hnew : m.slot id = none)
    (hs : m.Free s) (hlen : hi'.id.length = hi.id.length) (hid : hi'.idAt = Function.update hi.idAt s (some id)) :
    Represents hi' (m.insert id s hs) := by
  refine ⟨hlen.trans hr.1,fun k t => ?_⟩
  change Function.update m.slot id (some s) k = some t ↔ _
  rw [hid]
  by_cases hk : k = id <;> by_cases ht : t = s
  · subst hk ht
    simp [h0]
  · subst hk
    have hts : (t : Nat) ≠ s := fun h => ht (Fin.ext h)
    rw [Function.update_self,Function.update_of_ne hts]
    constructor
    · intro h
      exact absurd (Option.some.inj h).symm ht
    · rintro ⟨_,h⟩
      rw [(hr.2 k t).mpr ⟨h0,h⟩] at hnew
      cases hnew
  · subst ht
    rw [Function.update_self,Function.update_of_ne hk]
    constructor
    · intro h
      exact absurd h (hs k)
    · rintro ⟨_,h⟩
      exact absurd (Option.some.inj h).symm hk
  · have hts : (t : Nat) ≠ s := fun h => ht (Fin.ext h)
    rw [Function.update_of_ne hk,Function.update_of_ne hts]
    exact hr.2 k t

private theorem represents_erase (w : hi.Wf) (hr : Represents hi m) (h0 : 0 ≤ id)
    (hlen : hi'.id.length = hi.id.length)
    (h : match hi.slot id with
      | none => hi' = hi
      | some t => hi'.idAt = Function.update hi.idAt t (some (-1)) ∧ hi'.count = hi.count - 1) :
    Represents hi' (m.erase id) := by
  refine ⟨hlen.trans hr.1,fun k t => ?_⟩
  change Function.update m.slot id none k = some t ↔ _
  rw [represents_slot w hr h0] at h
  cases hm : m.slot id with
  | none =>
    rw [hm] at h
    cases h
    rw [show Function.update m.slot id none = m.slot from Function.update_eq_self_iff.mpr hm.symm]
    exact hr.2 k t
  | some s =>
    rw [hm] at h
    rw [h.1]
    have hs := ((hr.2 id s).mp hm).2
    by_cases ht : t = s
    · subst ht
      simp only [Function.update_self,Option.some.injEq]
      constructor
      · intro he
        by_cases hk : k = id
        · rw [hk,Function.update_self] at he
          cases he
        · rw [Function.update_of_ne hk] at he
          exact absurd (m.inj k id t he hm) hk
      · rintro ⟨h1,h2⟩
        omega
    · have hts : (t : Nat) ≠ s := fun h => ht (Fin.ext h)
      rw [Function.update_of_ne hts,← hr.2 k t]
      by_cases hk : k = id
      · subst hk
        rw [Function.update_self,hm]
        constructor
        · intro he
          cases he
        · intro he
          exact absurd (Option.some.inj he).symm ht
      · rw [Function.update_of_ne hk]

/-- One call of the contract: it returns, and moves the map as its result says. -/
private theorem call_refines {max : Int} {tr tr' : Trace HashidOp Int} (w : hi.Wf) (hcap : hi.cap = max)
    (hr : Represents hi m) (hm : SlotRun n tr m) {op : HashidOp} (ha : HashidAllowed max tr' hi op) :
    ∃ hi' r m', hashidCall hi op = .ok hi' [r] ∧ hi'.Wf ∧ hi'.cap = max ∧ Represents hi' m' ∧
      SlotRun n (tr ++ [(op,[r])]) m' ∧ ∀ id, op = .remove id → m.slot id = none → hi' = hi := by
  have hlen := hr.1
  cases op with
  | insert k =>
    obtain ⟨h0,hfit,hnew,hfull⟩ := ha
    obtain ⟨hi',r,hi⟩ := w.insert_progress h0 (w.probeFits (hcap ▸ hfit) hfull)
    obtain ⟨s,rfl,_,hfree,hw,hid,hl,_⟩ := w.insert_spec h0 hnew hi
    have hlt := idAt_lt hfree
    rw [hlen] at hlt
    have hf : m.Free ⟨s,hlt⟩ := represents_free hr hfree
    have hno : m.slot k = none := by
      rw [represents_slot w hr h0] at hnew
      simpa using hnew
    refine ⟨hi',s,m.insert k ⟨s,hlt⟩ hf,?_,hw,?_,represents_insert hr h0 hno hf hl hid,.insert ⟨s,hlt⟩ hf hm hno,nofun⟩
    · rw [hashidCall,hi]
      rfl
    · rw [hw.cap,hl,← w.cap,hcap]
  | remove k =>
    obtain ⟨hi',h,hw,hl,hs⟩ := w.remove_spec k
    refine ⟨hi',slotResult (m.slot k),m.erase k,?_,hw,?_,represents_erase w hr ha hl hs,.remove hm,?_⟩
    · rw [hashidCall,h,represents_ret w hr ha]
      rfl
    · rw [hw.cap,hl,← w.cap,hcap]
    · intro id he hno
      cases he
      rw [represents_slot w hr ha,hno] at hs
      exact hs
  | lookup k =>
    refine ⟨hi,slotResult (m.slot k),m,?_,w,hcap,hr,.lookup hm,nofun⟩
    rw [hashidCall,w.lookup_eq,represents_ret w hr ha]
    rfl

/-- After every history of allowed calls the table is an injective partial map
whose size is `count`, reached by the same results; every further allowed call
returns, and removing an absent id leaves the table as it is. -/
theorem hashid_refines_slotMap (max : Int) (hi₀ : Hashid) (fx₀ : List Effect)
    (hinit : hashidInit max = .ok hi₀ fx₀) (tr : Trace HashidOp Int) (hi : Hashid)
    (hrun : Run hashidCall (HashidAllowed max) hi₀ tr hi) :
    ∃ m : SlotMap Int max.toNat, SlotRun max.toNat tr m ∧ Represents hi m ∧ hi.count = m.size ∧
      ∀ op, HashidAllowed max tr hi op → ∃ hi' r m', hashidCall hi op = .ok hi' [r] ∧
        SlotRun max.toNat (tr ++ [(op,[r])]) m' ∧ Represents hi' m' ∧
        ∀ id, op = .remove id → m.slot id = none → hi' = hi := by
  obtain ⟨w₀,_,hcap₀,hfree,_⟩ := Hashid.init_spec hinit
  have hlen₀ : hi₀.id.length = max.toNat := by
    have := w₀.cap
    omega
  have hinv : hi.Wf ∧ hi.cap = max ∧ ∃ m : SlotMap Int max.toNat, SlotRun max.toNat tr m ∧ Represents hi m := by
    refine hrun.invariant (fun tr hi => hi.Wf ∧ hi.cap = max ∧
      ∃ m : SlotMap Int max.toNat, SlotRun max.toNat tr m ∧ Represents hi m) ?_ ?_
    · refine ⟨w₀,hcap₀,.empty Int _,.nil,hlen₀,fun id s => ?_⟩
      rw [hfree s s.isLt]
      constructor
      · intro h
        cases h
      · rintro ⟨h0,h⟩
        cases h
        omega
    · rintro tr hi op hi' fx ⟨w,hcap,m,hm,hr⟩ ha he
      obtain ⟨hi'',r,m',hc,hw,hcap',hr',hm',_⟩ := call_refines w hcap hr hm ha
      rw [hc] at he
      cases he
      exact ⟨hw,hcap',m',hm',hr'⟩
  obtain ⟨w,hcap,m,hm,hr⟩ := hinv
  refine ⟨m,hm,hr,represents_count w hr,fun op ha => ?_⟩
  obtain ⟨hi',r,m',hc,_,_,hr',hm',hkeep⟩ := call_refines w hcap hr hm ha
  exact ⟨hi',r,m',hc,hm',hr',hkeep⟩

/-- Two ids of one bucket that also start probing at the same slot. -/
theorem hashid_refines_slotMap_collision :
    ∃ hi₀ hi, hashidInit 2 = .ok hi₀ [] ∧
      Run hashidCall (HashidAllowed 2) hi₀ [(.insert 18,[0]),(.insert 2,[1]),(.remove 18,[0])] hi ∧
      ∃ m : SlotMap Int 2, SlotRun 2 [(.insert 18,[0]),(.insert 2,[1]),(.remove 18,[0])] m ∧ Represents hi m := by
  let hi₀ : Hashid := ⟨15,2,0,[⟨-1,none⟩,⟨-1,none⟩],List.replicate 16 none⟩
  let hi₁ : Hashid := { hi₀ with count := 1, id := [⟨18,none⟩,⟨-1,none⟩], hash := hi₀.hash.set 2 (some 0) }
  let hi₂ : Hashid := { hi₀ with count := 2, id := [⟨18,none⟩,⟨2,some 0⟩], hash := hi₀.hash.set 2 (some 1) }
  let hi₃ : Hashid := { hi₂ with count := 1, id := [⟨-1,none⟩,⟨2,none⟩] }
  have h0 : hashidInit 2 = .ok hi₀ [] := by decide
  have h1 : Run hashidCall (HashidAllowed 2) hi₀ [(.insert 18,[0])] hi₁ :=
    .snoc .nil ⟨by decide,by decide,by decide,by decide⟩ (by decide)
  have h2 : Run hashidCall (HashidAllowed 2) hi₀ [(.insert 18,[0]),(.insert 2,[1])] hi₂ :=
    .snoc h1 ⟨by decide,by decide,by decide,by decide⟩ (by decide)
  have h3 : Run hashidCall (HashidAllowed 2) hi₀ [(.insert 18,[0]),(.insert 2,[1]),(.remove 18,[0])] hi₃ :=
    .snoc h2 (show (0:Int) ≤ 18 by decide) (by decide)
  obtain ⟨m,hm,hr,_⟩ := hashid_refines_slotMap 2 hi₀ [] h0 _ hi₃ h3
  exact ⟨hi₀,hi₃,h0,h3,m,hm,hr⟩

end MyProgram.SkynetGate
