import Mathlib.Algebra.Order.Ring.Nat
import Mathlib.Logic.Function.Basic
import MyProgram.Lib.Act

/-! The pool allocator `__default_alloc_template`: sixteen free lists over a pool
that grows by `malloc`. -/
namespace MyProgram.StlAlloc
open Lib

def ALIGN : Nat := 8
def MAX_BYTES : Nat := 128
def NFREELISTS : Nat := 16

/-- The places where the allocator can fault. -/
inductive Site where
  | freeList | refill | chunkAlloc
  deriving DecidableEq, Repr

/-- What a call does beside returning: `_S_refill` cuts a chunk into objects, a
block goes back to `free`, or the exception of `malloc_alloc::allocate` passes. -/
inductive Effect where
  | carved (chunk n nobjs : Nat)
  | free (p : Nat)
  | threw
  deriving DecidableEq, Repr

abbrev PoolM := Act Site Effect

/-- The answers to one round of requests: that of `malloc`, and that of
`malloc_alloc::allocate`, which throws instead of returning NULL. -/
structure Answer where
  malloc : Option Nat
  fallback : Option Nat
  deriving DecidableEq, Repr

/-- The static members, beside the link that memory holds at each address and the
regions that `malloc` has given to the pool. -/
structure DefaultAlloc where
  links : Nat → Option Nat
  freeList : Nat → Option Nat
  startFree : Nat
  endFree : Nat
  heapSize : Nat
  got : List (Nat × Nat)

/-- `size_t` addition and subtraction. -/
def addSize (a b : Nat) : Nat := (a + b) % 2^64

def subSize (a b : Nat) : Nat := if b ≤ a then a - b else 2^64 - (b - a)

def roundUp (bytes : Nat) : Nat := addSize bytes (ALIGN - 1) &&& (2^64 - ALIGN)

def freelistIndex (bytes : Nat) : Nat := subSize (addSize bytes (ALIGN - 1) / ALIGN) 1

namespace DefaultAlloc

def zero : DefaultAlloc := ⟨fun _ => none,fun _ => none,0,0,0,[]⟩

/-- `_S_free_list[i]`. -/
def slot (s : DefaultAlloc) (i : Nat) : PoolM (Option Nat) :=
  if i < NFREELISTS then .ok (s.freeList i) [] else .fail .outOfBounds .freeList

def setSlot (s : DefaultAlloc) (i : Nat) (p : Option Nat) : PoolM DefaultAlloc :=
  if i < NFREELISTS then .ok { s with freeList := Function.update s.freeList i p } [] else .fail .outOfBounds .freeList

/-- A block goes to the front of a free list. -/
def push (s : DefaultAlloc) (i : Nat) (p : Nat) : PoolM DefaultAlloc := do
  let head ← s.slot i
  { s with links := Function.update s.links p head }.setSlot i (some p)

/-- The bytes between `_S_start_free` and `_S_end_free`. -/
def bytesLeft (s : DefaultAlloc) : Nat := subSize s.endFree s.startFree

/-- Take the objects from the pool, or as many as are there, if there is one. -/
def carve (s : DefaultAlloc) (size nobjs : Nat) : Option (DefaultAlloc × Nat × Nat) :=
  if s.bytesLeft ≥ size * nobjs % 2^64 then
    some ({ s with startFree := s.startFree + size * nobjs % 2^64 },s.startFree,nobjs)
  else if s.bytesLeft ≥ size then
    some ({ s with startFree := s.startFree + size * (s.bytesLeft / size) % 2^64 },s.startFree,s.bytesLeft / size)
  else none

def bytesToGet (s : DefaultAlloc) (size nobjs : Nat) : Nat :=
  addSize (2 * (size * nobjs % 2^64) % 2^64) (roundUp (s.heapSize / 2^4))

/-- What is left of the pool goes to the free list of its size. -/
def keepRemainder (s : DefaultAlloc) : PoolM DefaultAlloc :=
  if s.bytesLeft > 0 then s.push (freelistIndex s.bytesLeft) s.startFree else pure s

/-- The pool becomes the first block of the free list of `i` bytes. -/
def steal (s : DefaultAlloc) (i p : Nat) : PoolM DefaultAlloc := do
  let s ← s.setSlot (freelistIndex i) (s.links p)
  pure { s with startFree := p, endFree := p + i }

/-- The first free list that is not empty, from blocks of `i` bytes on. Seventeen
rounds of eight bytes pass all sizes up to the maximum. -/
def stealLoop (s : DefaultAlloc) : Nat → Nat → PoolM (Option DefaultAlloc)
  | 0, _ => pure none
  | rounds+1, i =>
    if i ≤ MAX_BYTES then do
      let head ← s.slot (freelistIndex i)
      match head with
      | some p => some <$> s.steal i p
      | none => stealLoop s rounds (i + ALIGN)
    else pure none

/-- The pool becomes a region that `malloc` has returned. -/
def adopt (s : DefaultAlloc) (p bytes : Nat) : DefaultAlloc :=
  { s with startFree := p, heapSize := addSize s.heapSize bytes, endFree := p + bytes, got := (p,bytes) :: s.got }

/-- The last branch of `_S_chunk_alloc` up to its recursive calls. The second
component is false if the exception passes. -/
def replenish (s : DefaultAlloc) (size nobjs : Nat) (answer : Answer) : PoolM (DefaultAlloc × Bool) := do
  let bytes := s.bytesToGet size nobjs
  let s ← s.keepRemainder
  match answer.malloc with
  | some p => pure (s.adopt p bytes,true)
  | none => do
    let s := { s with startFree := 0 }
    match ← s.stealLoop 17 size with
    | some s => pure (s,true)
    | none =>
      match answer.fallback with
      | some p => pure (s.adopt p bytes,true)
      | none => pure ({ s with endFree := 0 },false)

/-- The recursion asks for memory once in each round; `answers` is what it gets.
The result is the chunk with the number of objects in it, or an exception. -/
def chunkAlloc (s : DefaultAlloc) (size nobjs : Nat) : List Answer → PoolM (DefaultAlloc × Option (Nat × Nat))
  | [] =>
    match s.carve size nobjs with
    | some (s,chunk,nobjs) => pure (s,some (chunk,nobjs))
    | none => .fail .diverges .chunkAlloc
  | answer :: answers =>
    match s.carve size nobjs with
    | some (s,chunk,nobjs) => pure (s,some (chunk,nobjs))
    | none => do
      let (s,ok) ← s.replenish size nobjs answer
      if ok then chunkAlloc s size nobjs answers else pure (s,none)

/-- The loop of `_S_refill`: objects one behind the other are linked in order. The last
link, which the source spells `__M_free_list_link`, ends the list. -/
def linkLoop (links : Nat → Option Nat) (next n : Nat) : Nat → Nat → Option Nat
  | 0 => links
  | 1 => Function.update links next none
  | k+2 => linkLoop (Function.update links next (some (next + n))) (next + n) n (k + 1)

/-- `__my_free_list` is not initialised. It holds the address of free list `wild`
by chance, or the write through it is not a write to the allocator. -/
def refill (s : DefaultAlloc) (n : Nat) (answers : List Answer) (wild : Option Nat) :
    PoolM (DefaultAlloc × Option Nat) := do
  let (s,chunk) ← s.chunkAlloc n 20 answers
  match chunk with
  | none => do
    Act.emit .threw
    pure (s,none)
  | some (chunk,nobjs) =>
    if nobjs = 1 then pure (s,some chunk)
    else
      match wild with
      | none => .fail .uninitialised .refill
      | some i => do
        let s ← s.setSlot i (some (chunk + n))
        Act.emit (.carved chunk n nobjs)
        pure ({ s with links := linkLoop s.links (chunk + n) n (nobjs - 1) },some chunk)

/-- A block, unless the exception passes. -/
def allocate (s : DefaultAlloc) (n : Nat) (answer : Answer) (wild : Option Nat) : PoolM (DefaultAlloc × Option Nat) :=
  if n > MAX_BYTES then
    match answer.fallback with
    | some p => pure (s,some p)
    | none => do
      Act.emit .threw
      pure (s,none)
  else do
    match ← s.slot (freelistIndex n) with
    | none => s.refill (roundUp n) [answer] wild
    | some p => do
      let s ← s.setSlot (freelistIndex n) (s.links p)
      pure (s,some p)

def deallocate (s : DefaultAlloc) (p n : Nat) : PoolM DefaultAlloc :=
  if n > MAX_BYTES then do
    Act.emit (.free p)
    pure s
  else s.push (freelistIndex n) p

end DefaultAlloc

/-- The allocator and the blocks its clients have, with the sizes they asked for. -/
structure World where
  alloc : DefaultAlloc
  live : List (Nat × Nat)

/-- Calls, and writes of the clients to their blocks. -/
inductive AllocOp where
  | allocate (n : Nat) (answer : Answer) (wild : Option Nat)
  | deallocate (p n : Nat)
  | store (links : Nat → Option Nat)

def allocStep (w : World) : AllocOp → PoolM World
  | .allocate n answer wild => do
    let (s,ret) ← w.alloc.allocate n answer wild
    pure ⟨s,(ret.map fun p => (p,n)).toList ++ w.live⟩
  | .deallocate p n => do
    let s ← w.alloc.deallocate p n
    pure ⟨s,w.live.erase (p,n)⟩
  | .store links => pure { w with alloc := { w.alloc with links := links } }

end MyProgram.StlAlloc
