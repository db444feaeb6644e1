import MyProgram.SkynetGate.Basic
import Mathlib.Logic.Function.Basic

/-! The chunk queues of the connections and the pool their nodes come from
(`databuffer.h`). Pool blocks hold `MESSAGEPOOL` nodes each; the k-th block
allocated has the node addresses from `MESSAGEPOOL * k` on. -/
namespace MyProgram.SkynetGate
open Lib

def MESSAGEPOOL : Nat := 1023

structure Message where
  buffer : Option Buffer
  size : Int
  next : Option Nat
  deriving DecidableEq, Repr

structure Databuffer where
  header : Int
  offset : Int
  size : Int
  head : Option Nat
  tail : Option Nat
  deriving DecidableEq, Repr

/-- The blocks allocated so far, latest first, and the memory of their nodes. -/
structure Messagepool where
  pool : List Nat
  node : Nat → Message
  freelist : Option Nat

namespace Databuffer

/-- A databuffer in zeroed memory. -/
def zero : Databuffer := ⟨0,0,0,none,none⟩

end Databuffer

namespace Messagepool

/-- A pool in zeroed memory. -/
def zero : Messagepool := ⟨[],fun _ => ⟨none,0,none⟩,none⟩

/-- The number of nodes in all blocks, which bounds every walk along a list. -/
def nodes (mp : Messagepool) : Nat := MESSAGEPOOL * mp.pool.length

def next (mp : Messagepool) (a : Nat) : Option Nat := (mp.node a).next

end Messagepool

def messagepoolFree (mp : Messagepool) : Messagepool := { mp with pool := [], freelist := none }

/-- `skynet_free`, which ignores NULL. -/
def skynetFree : Option Buffer → GateM Unit
  | some b => Act.emit (.free b)
  | none => pure ()

def returnMessage (db : Databuffer) (mp : Messagepool) : GateM (Databuffer × Messagepool) :=
  match db.head with
  | none => .fail .nullDereference .databuffer
  | some m => do
    let db ← match (mp.node m).next with
      | none =>
        if db.tail = some m then pure { db with head := none, tail := none }
        else .fail .assertion .databuffer
      | some n => pure { db with head := some n }
    skynetFree (mp.node m).buffer
    pure (db,{ mp with
      node := Function.update mp.node m ⟨none,0,mp.freelist⟩
      freelist := some m })

/-- The source of a `memcpy` of `n` bytes starting `offset` bytes into a buffer. -/
def copyFrom (buffer : Option Buffer) (offset n : Int) : GateM Bytes :=
  match buffer with
  | none => .fail .nullDereference .databuffer
  | some b =>
    if 0 ≤ offset ∧ 0 ≤ n ∧ offset + n ≤ b.bytes.length then pure ((b.bytes.drop offset.toNat).take n.toNat)
    else .fail .outOfBounds .databuffer

/-- The loop of `databuffer_read`; every further round has returned a node. -/
def readLoop : Nat → Databuffer → Messagepool → Int → GateM (Databuffer × Messagepool × Bytes)
  | 0, _, _, _ => .fail .diverges .databuffer
  | fuel+1, db, mp, sz =>
    match db.head with
    | none => .fail .nullDereference .databuffer
    | some m => do
      let current := mp.node m
      let bsz := current.size - db.offset
      if bsz > sz then do
        let out ← copyFrom current.buffer db.offset sz
        pure ({ db with offset := db.offset + sz },mp,out)
      else if bsz = sz then do
        let out ← copyFrom current.buffer db.offset sz
        let (db,mp) ← returnMessage { db with offset := 0 } mp
        pure (db,mp,out)
      else do
        let out ← copyFrom current.buffer db.offset bsz
        let (db,mp) ← returnMessage db mp
        let (db,mp,rest) ← readLoop fuel { db with offset := 0 } mp (sz - bsz)
        pure (db,mp,out ++ rest)

def databufferRead (db : Databuffer) (mp : Messagepool) (sz : Int) : GateM (Databuffer × Messagepool × Bytes) :=
  if db.size < sz then .fail .assertion .databuffer
  else readLoop (mp.nodes + 1) { db with size := db.size - sz } mp sz

/-- A fresh block: the first node is handed out, the others form the free list. -/
def newBlock (mp : Messagepool) : Messagepool where
  pool := mp.nodes :: mp.pool
  node a :=
    if mp.nodes < a ∧ a < mp.nodes + MESSAGEPOOL then
      ⟨none,0,if a = mp.nodes + (MESSAGEPOOL - 1) then none else some (a + 1)⟩
    else mp.node a
  freelist := some (mp.nodes + 1)

/-- Take a node from the free list, or the first one of a fresh block. -/
def takeMessage (mp : Messagepool) : Nat × Messagepool :=
  match mp.freelist with
  | some m => (m,{ mp with freelist := mp.next m })
  | none => (mp.nodes,newBlock mp)

def databufferPush (db : Databuffer) (mp : Messagepool) (data : Buffer) : GateM (Databuffer × Messagepool) :=
  let sz : Int := data.bytes.length
  let (m,mp) := takeMessage mp
  let mp := { mp with node := Function.update mp.node m ⟨some data,sz,none⟩ }
  let db := { db with size := wrap32 (db.size + sz) }
  match db.head with
  | none =>
    if db.tail = none then pure ({ db with head := some m, tail := some m },mp)
    else .fail .assertion .databuffer
  | some _ =>
    match db.tail with
    | none => .fail .nullDereference .databuffer
    | some t =>
      pure ({ db with tail := some m },
        { mp with node := Function.update mp.node t { mp.node t with next := some m } })

/-- The value of the length bytes as an `int`. -/
def headerValue (plen : Bytes) (headerSize : Int) : GateM Int := do
  let p0 ← Act.read .databuffer plen 0
  let p1 ← Act.read .databuffer plen 1
  if headerSize = 2 then pure ((p0.toNat <<< 8 ||| p1.toNat : Nat) : Int)
  else do
    let p2 ← Act.read .databuffer plen 2
    let p3 ← Act.read .databuffer plen 3
    pure (wrap32 (p0.toNat <<< 24 ||| p1.toNat <<< 16 ||| p2.toNat <<< 8 ||| p3.toNat : Nat))

/-- The comparison at the end of `databuffer_readheader`. -/
def headerResult (db : Databuffer) (mp : Messagepool) : Databuffer × Messagepool × Int :=
  (db,mp,if db.size < db.header then -1 else db.header)

def databufferReadheader (db : Databuffer) (mp : Messagepool) (headerSize : Int) :
    GateM (Databuffer × Messagepool × Int) :=
  if db.header = 0 then
    if db.size < headerSize then pure (db,mp,-1)
    else do
      let (db,mp,plen) ← databufferRead db mp headerSize
      let header ← headerValue plen headerSize
      pure (headerResult { db with header } mp)
  else pure (headerResult db mp)

def databufferReset (db : Databuffer) : Databuffer := { db with header := 0 }

/-- The loop of `databuffer_clear`. -/
def clearLoop : Nat → Databuffer → Messagepool → GateM Messagepool
  | 0, _, _ => .fail .diverges .databuffer
  | fuel+1, db, mp =>
    match db.head with
    | none => pure mp
    | some _ => do
      let (db,mp) ← returnMessage db mp
      clearLoop fuel db mp

def databufferClear (db : Databuffer) (mp : Messagepool) : GateM (Databuffer × Messagepool) := do
  let mp ← clearLoop (mp.nodes + 1) db mp
  pure (.zero,mp)

end MyProgram.SkynetGate
