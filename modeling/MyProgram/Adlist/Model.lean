import Mathlib.Algebra.Order.Ring.Nat
import MyProgram.Lib.Act
import MyProgram.Lib.DList

/-! The doubly linked list of `adlist.c`. -/
namespace MyProgram.Adlist
open Lib

/-- A `void *`. -/
abbrev Value := Option Nat

abbrev ListNode := DCell Nat Value

/-- The functions a fault can happen in. -/
inductive Site where
  | listAddNodeHead | listAddNodeTail | listInsertNode | listDelNode | listRotate | listNext | listIndex | listRelease | listDup
  deriving DecidableEq, Repr

/-- What a call does outside the list: a free or a dup function of the user at `fn` is
called, memory goes back to `free`, or the list or NULL is returned. -/
inductive Effect where
  | callFree (fn : Nat) (value : Value)
  | callDup (fn : Nat) (value copy : Value)
  | free (p : Nat)
  | returned (list : Bool)
  deriving DecidableEq, Repr

abbrev ListM := Act Site Effect

/-- `struct list`. The functions of the user are code addresses. -/
structure AList where
  head : Option Nat
  tail : Option Nat
  dup : Option Nat
  free : Option Nat
  matchFn : Option Nat
  len : Nat
  deriving DecidableEq, Repr

/-- A list beside the nodes in memory, its own and others. -/
structure Store where
  heap : Nat → Option ListNode
  list : AList

/-- A new list, unless `malloc` answers NULL. -/
def listCreate (malloc : Option Nat) : Option AList := malloc.map fun _ => ⟨none,none,none,none,none,0⟩

namespace Store

/-- Read the node behind a pointer. -/
def deref (s : Store) (site : Site) : Option Nat → ListM ListNode
  | none => .fail .nullDereference site
  | some p => match s.heap p with
    | some n => .ok n []
    | none => .fail .uninitialised site

/-- Change the node behind a pointer. -/
def write (s : Store) (site : Site) (p : Option Nat) (f : ListNode → ListNode) : ListM Store :=
  match p with
  | none => .fail .nullDereference site
  | some p => match s.heap p with
    | some n => .ok { s with heap := Function.update s.heap p (some (f n)) } []
    | none => .fail .uninitialised site

/-- All fields of a node that `malloc` returned are written. -/
def fresh (s : Store) (node : Nat) (n : ListNode) : Store := { s with heap := Function.update s.heap node (some n) }

def setHead (s : Store) (p : Option Nat) : Store := { s with list := { s.list with head := p } }

def setTail (s : Store) (p : Option Nat) : Store := { s with list := { s.list with tail := p } }

/-- `list->len++` and `list->len--` on an `unsigned long`. -/
def countUp (s : Store) : Store := { s with list := { s.list with len := (s.list.len + 1) % 2^64 } }

def countDown (s : Store) : Store := { s with list := { s.list with len := (s.list.len + (2^64 - 1)) % 2^64 } }

/-- A node becomes the only one. -/
def addToEmpty (s : Store) (node : Nat) (value : Value) : Store :=
  ((s.fresh node ⟨none,none,value⟩).setHead (some node)).setTail (some node)

def listAddNodeHead (s : Store) (value : Value) : Option Nat → ListM (Store × Bool)
  | none => pure (s,false)
  | some node =>
    if s.list.len = 0 then pure ((s.addToEmpty node value).countUp,true)
    else do
      let s := s.fresh node ⟨none,s.list.head,value⟩
      let s ← s.write .listAddNodeHead s.list.head fun n => { n with prev := some node }
      pure ((s.setHead (some node)).countUp,true)

def listAddNodeTail (s : Store) (value : Value) : Option Nat → ListM (Store × Bool)
  | none => pure (s,false)
  | some node =>
    if s.list.len = 0 then pure ((s.addToEmpty node value).countUp,true)
    else do
      let s := s.fresh node ⟨s.list.tail,none,value⟩
      let s ← s.write .listAddNodeTail s.list.tail fun n => { n with next := some node }
      pure ((s.setTail (some node)).countUp,true)

/-- The new node with its own pointers, and the end of the list it may have become. -/
def placeNode (s : Store) (oldNode : Nat) (old : ListNode) (value : Value) (after : Int) (node : Nat) : Store :=
  if after ≠ 0 then
    let s := s.fresh node ⟨some oldNode,old.next,value⟩
    if s.list.tail = some oldNode then s.setTail (some node) else s
  else
    let s := s.fresh node ⟨old.prev,some oldNode,value⟩
    if s.list.head = some oldNode then s.setHead (some node) else s

/-- `if (node->prev != NULL) node->prev->next = node`. -/
def linkPrev (s : Store) (node : Nat) : ListM Store := do
  let n ← s.deref .listInsertNode (some node)
  match n.prev with
  | none => pure s
  | some p => s.write .listInsertNode (some p) fun m => { m with next := some node }

/-- `if (node->next != NULL) node->next->prev = node`. -/
def linkNext (s : Store) (node : Nat) : ListM Store := do
  let n ← s.deref .listInsertNode (some node)
  match n.next with
  | none => pure s
  | some q => s.write .listInsertNode (some q) fun m => { m with prev := some node }

def listInsertNode (s : Store) (oldNode : Nat) (value : Value) (after : Int) : Option Nat → ListM (Store × Bool)
  | none => pure (s,false)
  | some node => do
    let old ← s.deref .listInsertNode (some oldNode)
    let s ← (s.placeNode oldNode old value after node).linkPrev node
    let s ← s.linkNext node
    pure (s.countUp,true)

/-- The pointer from the left to a node passes it by. -/
def bypassPrev (s : Store) (node : Nat) : ListM Store := do
  let n ← s.deref .listDelNode (some node)
  match n.prev with
  | some p => s.write .listDelNode (some p) fun m => { m with next := n.next }
  | none => pure (s.setHead n.next)

/-- The pointer from the right to a node passes it by. -/
def bypassNext (s : Store) (node : Nat) : ListM Store := do
  let n ← s.deref .listDelNode (some node)
  match n.next with
  | some q => s.write .listDelNode (some q) fun m => { m with prev := n.prev }
  | none => pure (s.setTail n.prev)

/-- The value is given to the free function of the list, if there is one, and the
node to `free`. -/
def dispose (s : Store) (node : Nat) : ListM Store := do
  let n ← s.deref .listDelNode (some node)
  match s.list.free with
  | some fn => Act.emit (.callFree fn n.value)
  | none => pure ()
  Act.emit (.free node)
  pure { s with heap := Function.update s.heap node none }

def listDelNode (s : Store) (node : Nat) : ListM Store := do
  let s ← s.bypassPrev node
  let s ← s.bypassNext node
  let s ← s.dispose node
  pure s.countDown

def listRotate (s : Store) : ListM Store := do
  if s.list.len ≤ 1 then pure s
  else do
    let tail := s.list.tail
    let t ← s.deref .listRotate tail
    let s := s.setTail t.prev
    let s ← s.write .listRotate t.prev fun n => { n with next := none }
    let s ← s.write .listRotate tail fun n => { n with next := s.list.head, prev := none }
    let s ← s.write .listRotate s.list.head fun n => { n with prev := tail }
    pure (s.setHead tail)

/-- The nodes of the list from the head on. -/
def nodes (s : Store) : List Nat := follow (DList.nextOf s.heap) s.list.len s.list.head

end Store

/-- Operations on a list, with the answer of `malloc` to each that allocates. -/
inductive ListOp where
  | addNodeHead (value : Value) (malloc : Option Nat)
  | addNodeTail (value : Value) (malloc : Option Nat)
  | insertNode (oldNode : Nat) (value : Value) (after : Int) (malloc : Option Nat)
  | delNode (node : Nat)
  | rotate
  | setFreeMethod (fn : Option Nat)
  deriving DecidableEq, Repr

/-- What a call that may fail returns. -/
def answer (x : ListM (Store × Bool)) : ListM Store := do
  let (s,ok) ← x
  Act.emit (.returned ok)
  pure s

def listStep (s : Store) : ListOp → ListM Store
  | .addNodeHead value malloc => answer (s.listAddNodeHead value malloc)
  | .addNodeTail value malloc => answer (s.listAddNodeTail value malloc)
  | .insertNode oldNode value after malloc => answer (s.listInsertNode oldNode value after malloc)
  | .delNode node => s.listDelNode node
  | .rotate => s.listRotate
  | .setFreeMethod fn => pure { s with list := { s.list with free := fn } }

end MyProgram.Adlist
