import MyProgram.SkynetGate.Basic

/-! The id hash of the gate (`hashid.h`). A pointer to a `hashid_node` is the
index of the node in the `id` array; NULL is `none`. -/
namespace MyProgram.SkynetGate
open Lib

structure HashidNode where
  id : Int
  next : Option Nat
  deriving DecidableEq, Repr

structure Hashid where
  hashmod : Int
  cap : Int
  count : Int
  id : List HashidNode
  hash : List (Option Nat)
  deriving DecidableEq, Repr

/-- The doubling loop of `hashid_init`, giving up after `fuel` rounds. -/
def hashcapLoop (max : Int) : Nat → Int → Option Int
  | 0, _ => none
  | fuel+1, hashcap =>
    if hashcap < max then hashcapLoop max fuel (wrap32 (hashcap * 2)) else some hashcap

/-- From 16 on, 31 doublings shift every bit out: a loop still running after them
stays at 0 for ever. -/
def hashidInit (max : Int) : GateM Hashid :=
  match hashcapLoop max 32 16 with
  | none => .fail .diverges .hashid
  | some hashcap =>
    -- a negative count is a size_t beyond any allocation
    if max < 0 then .fail .outOfMemory .hashid
    else pure {
      hashmod := hashcap - 1
      cap := max
      count := 0
      id := List.replicate max.toNat ⟨-1,none⟩
      hash := List.replicate hashcap.toNat none }

def hashidClear (hi : Hashid) : Hashid := { hi with hashmod := 1, cap := 0, count := 0, id := [], hash := [] }

namespace Hashid

def node (hi : Hashid) (i : Int) : GateM HashidNode := Act.read .hashid hi.id i

/-- `id & hi->hashmod`. -/
def bucket (hi : Hashid) (id : Int) : Int := and32 id hi.hashmod

end Hashid

/-- The walk along one chain. A walk over more nodes than there are is cyclic. -/
def lookupLoop (hi : Hashid) (id : Int) : Nat → Option Nat → GateM Int
  | _, none => pure (-1)
  | 0, some _ => .fail .diverges .hashid
  | fuel+1, some c => do
    let n ← hi.node c
    if n.id = id then pure c else lookupLoop hi id fuel n.next

def hashidLookup (hi : Hashid) (id : Int) : GateM Int := do
  let c ← Act.read .hashid hi.hash (hi.bucket id)
  lookupLoop hi id hi.id.length c

/-- The search of `hashid_remove` behind the first node: the node before the one
with the id, and that one. -/
def removeLoop (hi : Hashid) (id : Int) : Nat → Nat → GateM (Option (Nat × Nat))
  | 0, _ => .fail .diverges .hashid
  | fuel+1, c => do
    let n ← hi.node c
    match n.next with
    | none => pure none
    | some t => do
      let m ← hi.node t
      if m.id = id then pure (some (c,t)) else removeLoop hi id fuel t

/-- The code at the label `_clear`. -/
def removeClear (hi : Hashid) (c : Nat) : Hashid :=
  { hi with id := hi.id.set c ⟨-1,none⟩, count := wrap32 (hi.count - 1) }

def hashidRemove (hi : Hashid) (id : Int) : GateM (Hashid × Int) := do
  let h := hi.bucket id
  match ← Act.read .hashid hi.hash h with
  | none => pure (hi,-1)
  | some c => do
    let n ← hi.node c
    if n.id = id then
      pure (removeClear { hi with hash := hi.hash.set h.toNat n.next } c,c)
    else
      match ← removeLoop hi id hi.id.length c with
      | none => pure (hi,-1)
      | some (c,t) => do
        let n ← hi.node c
        let temp ← hi.node t
        pure (removeClear { hi with id := hi.id.set c { n with next := temp.next } } t,t)

/-- The probing loop of `hashid_insert` from `i` on, with `left` rounds to go. -/
def insertLoop (hi : Hashid) (id : Int) (i : Nat) : Nat → GateM (Option Nat)
  | 0 => pure none
  | left+1 => do
    let index := (wrap32 (i + id)).tmod hi.cap
    let c ← hi.node index
    if c.id = -1 then pure (some index.toNat) else insertLoop hi id (i+1) left

def hashidInsert (hi : Hashid) (id : Int) : GateM (Hashid × Int) := do
  match ← insertLoop hi id 0 hi.cap.toNat with
  | none => .fail .assertion .hashid
  | some c => do
    let n ← hi.node c
    if n.next ≠ none then .fail .assertion .hashid
    else do
      let h := hi.bucket id
      let first ← Act.read .hashid hi.hash h
      let next := if first.isSome then first else n.next
      pure ({ hi with
        count := wrap32 (hi.count + 1)
        id := hi.id.set c ⟨id,next⟩
        hash := hi.hash.set h.toNat (some c) },c)

def hashidFull (hi : Hashid) : Bool := hi.count = hi.cap

end MyProgram.SkynetGate
