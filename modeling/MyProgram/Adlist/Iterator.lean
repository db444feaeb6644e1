import MyProgram.Adlist.Model
import MyProgram.Lib.CInt

/-! Iterators over the list, access by index, and the copy of a whole list. -/
namespace MyProgram.Adlist
open Lib

def AL_START_HEAD : Int := 0
def AL_START_TAIL : Int := 1

structure ListIter where
  next : Option Nat
  direction : Int
  deriving DecidableEq, Repr

/-- The answers that one call of `listDup` gets: for the header and the iterator, and in
each round of the loop from the dup function and for the node. -/
structure DupAnswers where
  header : Option Nat
  iter : Option Nat
  dup : Nat → Value
  node : Nat → Option Nat

namespace Store

/-- A new iterator, unless `malloc` answers NULL. -/
def listGetIterator (s : Store) (direction : Int) (malloc : Option Nat) : Option ListIter :=
  malloc.map fun _ => ⟨if direction = AL_START_HEAD then s.list.head else s.list.tail,direction⟩

/-- The node at the iterator, which moves on. -/
def listNext (s : Store) : Option ListIter → ListM (Option Nat × ListIter)
  | none => .fail .nullDereference .listNext
  | some iter =>
    match iter.next with
    | none => pure (none,iter)
    | some current => do
      let n ← s.deref .listNext (some current)
      pure (some current,{ iter with next := if iter.direction = AL_START_HEAD then n.next else n.prev })

/-- `while ((node = listNext(iter)) != NULL)` around a body that deletes the node or does not,
as it decides on the list and on what it has done so far. -/
def iterate (del : Store → List (Nat × Bool) → Nat → Bool) : Nat → Store → ListIter → List (Nat × Bool) →
    ListM (Store × List (Nat × Bool))
  | 0, _, _, _ => .fail .diverges .listNext
  | fuel+1, s, iter, seen => do
    let (node,iter) ← s.listNext (some iter)
    match node with
    | none => pure (s,seen)
    | some p =>
      if del s seen p then do
        let s ← s.listDelNode p
        iterate del fuel s iter (seen ++ [(p,true)])
      else iterate del fuel s iter (seen ++ [(p,false)])

/-- `(-index) - 1` on a `long`. -/
def fromTail (index : Int) : Int := wrap64 (wrap64 (-index) - 1)

/-- `while (index-- && n)`, from an index that is not negative. -/
def indexLoop (s : Store) (link : ListNode → Option Nat) : Nat → Option Nat → ListM (Option Nat)
  | 0, n => pure n
  | _+1, none => pure none
  | index+1, some p => do
    let n ← s.deref .listIndex (some p)
    indexLoop s link index (link n)

def listIndex (s : Store) (index : Int) : ListM (Option Nat) :=
  if index < 0 then s.indexLoop (·.prev) (fromTail index).toNat s.list.tail
  else s.indexLoop (·.next) index.toNat s.list.head

/-- The loop of `listRelease` over `len` nodes. -/
def releaseLoop (s : Store) : Nat → Option Nat → ListM Store
  | 0, _ => pure s
  | _+1, none => .fail .nullDereference .listRelease
  | len+1, some current => do
    let n ← s.deref .listRelease (some current)
    match s.list.free with
    | some fn => Act.emit (.callFree fn n.value)
    | none => pure ()
    Act.emit (.free current)
    releaseLoop { s with heap := Function.update s.heap current none } len n.next

/-- The nodes and the header at `header` are given back. -/
def listRelease (s : Store) (header : Nat) : ListM Store := do
  let s ← s.releaseLoop s.list.len s.list.head
  Act.emit (.free header)
  pure s

/-- The copy is given up. -/
def abandon (s : Store) (header iter : Nat) : ListM (Store × Option (Option Nat)) := do
  let s ← s.listRelease header
  Act.emit (.free iter)
  pure (s,some none)

/-- The value for the new node, and whether the dup function has returned NULL. -/
def dupValue (s : Store) (answers : DupAnswers) (i : Nat) (value : Value) : ListM (Value × Bool) :=
  match s.list.dup with
  | some fn => do
    Act.emit (.callDup fn value (answers.dup i))
    pure (answers.dup i,answers.dup i = none)
  | none => pure (value,false)

/-- The loop of `listDup` in round `i`, on the copy. -/
def dupLoop (answers : DupAnswers) (header iterAddr : Nat) : Nat → Store → Option ListIter → Nat →
    ListM (Store × Option (Option Nat))
  | 0, _, _, _ => .fail .diverges .listDup
  | fuel+1, s, iter, i => do
    let (node,iter) ← s.listNext iter
    match node with
    | none => do
      Act.emit (.free iterAddr)
      pure (s,some (some header))
    | some p => do
      let n ← s.deref .listDup (some p)
      let (value,failed) ← s.dupValue answers i n.value
      if failed then s.abandon header iterAddr
      else do
        let (s,ok) ← s.listAddNodeTail value (answers.node i)
        if ok then dupLoop answers header iterAddr fuel s (some iter) (i + 1) else s.abandon header iterAddr

/-- The copy with the nodes in memory, and the pointer that is returned. There is none
behind the `return` without a value after `listCreate`. -/
def listDup (s : Store) (answers : DupAnswers) (fuel : Nat) : ListM (Store × Option (Option Nat)) :=
  match answers.header, listCreate answers.header with
  | some header, some copy =>
    let copy := { s with list := { copy with dup := s.list.dup, free := s.list.free, matchFn := s.list.matchFn } }
    dupLoop answers header (answers.iter.getD 0) fuel copy (s.listGetIterator AL_START_HEAD answers.iter) 0
  | _, _ => pure (s,none)

end Store
end MyProgram.Adlist
