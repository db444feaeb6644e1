import MyProgram.Lib.Act
import MyProgram.Lib.TailList

/-! The tail queue macros of `tailqueue.h`. -/
namespace MyProgram.TailQueue
open Lib

/-- A pair of links in memory, by its address: a `TAILQ_HEAD` or the `TAILQ_ENTRY` of
an element. Both start with a pointer to an element, so the address of that pointer
is the address of the pair. -/
inductive Links where
  | head (h : Nat)
  | elem (a : Nat)
  deriving DecidableEq, Repr

inductive Site where
  | first | next | last | prev | insertHead | insertTail | insertAfter | insertBefore | remove | replace | foreach
  deriving DecidableEq, Repr

/-- The links that may be accessed and their two words: `tqh_first` or `tqe_next`, and
`tqh_last` or `tqe_prev`. A word without value was never written. -/
structure Mem extends TailWords Links Nat where
  live : Links → Bool

/-- The effects are the elements that a loop body is entered with. -/
abbrev TqM := Act Site Nat

namespace Mem

def access {α : Type} (m : Mem) (site : Site) (x : Links) (word : Option α) : TqM α :=
  if m.live x = true then
    match word with
    | some v => pure v
    | none => .fail .uninitialised site
  else .fail .outOfBounds site

def readFirst (m : Mem) (site : Site) (x : Links) : TqM (Option Nat) := m.access site x (m.first x)

def readLast (m : Mem) (site : Site) (x : Links) : TqM Links := m.access site x (m.last x)

def setFirst (m : Mem) (x : Links) (v : Option Nat) : Mem := { m with first := Function.update m.first x (some v) }

def setLast (m : Mem) (x y : Links) : Mem := { m with last := Function.update m.last x (some y) }

def writeFirst (m : Mem) (site : Site) (x : Links) (v : Option Nat) : TqM Mem :=
  if m.live x = true then pure (m.setFirst x v) else .fail .outOfBounds site

def writeLast (m : Mem) (site : Site) (x y : Links) : TqM Mem :=
  if m.live x = true then pure (m.setLast x y) else .fail .outOfBounds site

def malloc (m : Mem) (a : Nat) : Mem where
  live := Function.update m.live (.elem a) true
  first := Function.update m.first (.elem a) none
  last := Function.update m.last (.elem a) none

def free (m : Mem) (a : Nat) : Mem := { m with live := Function.update m.live (.elem a) false }

def tailqFirst (m : Mem) (h : Nat) : TqM (Option Nat) := m.readFirst .first (.head h)

def tailqNext (m : Mem) (elm : Nat) : TqM (Option Nat) := m.readFirst .next (.elem elm)

/-- The links that `tqh_last` points into are read as if they were a head. -/
def tailqLast (m : Mem) (h : Nat) : TqM (Option Nat) := do
  let x ← m.readLast .last (.head h)
  let y ← m.readLast .last x
  m.readFirst .last y

def tailqPrev (m : Mem) (elm : Nat) : TqM (Option Nat) := do
  let x ← m.readLast .prev (.elem elm)
  let y ← m.readLast .prev x
  m.readFirst .prev y

def tailqEmpty (m : Mem) (h : Nat) : TqM Bool := do
  let v ← m.tailqFirst h
  pure v.isNone

/-- The head is storage of the caller; it is accessible from here on. -/
def tailqInit (m : Mem) (h : Nat) : Mem :=
  ({ m with live := Function.update m.live (.head h) true }.setFirst (.head h) none).setLast (.head h) (.head h)

/-- The links that point back to what is in front of `q`: those of the element, or the
head at the end. -/
abbrev behind (h : Nat) (q : Option Nat) : Links := TailList.behind .elem (.head h) q

def tailqInsertHead (m : Mem) (h elm : Nat) : TqM Mem := do
  let q ← m.readFirst .insertHead (.head h)
  let m ← m.writeFirst .insertHead (.elem elm) q
  let m ← m.writeLast .insertHead (behind h q) (.elem elm)
  let m ← m.writeFirst .insertHead (.head h) (some elm)
  m.writeLast .insertHead (.elem elm) (.head h)

def tailqInsertTail (m : Mem) (h elm : Nat) : TqM Mem := do
  let m ← m.writeFirst .insertTail (.elem elm) none
  let p ← m.readLast .insertTail (.head h)
  let m ← m.writeLast .insertTail (.elem elm) p
  let m ← m.writeFirst .insertTail p (some elm)
  m.writeLast .insertTail (.head h) (.elem elm)

def tailqInsertAfter (m : Mem) (h listelm elm : Nat) : TqM Mem := do
  let q ← m.readFirst .insertAfter (.elem listelm)
  let m ← m.writeFirst .insertAfter (.elem elm) q
  let m ← m.writeLast .insertAfter (behind h q) (.elem elm)
  let m ← m.writeFirst .insertAfter (.elem listelm) (some elm)
  m.writeLast .insertAfter (.elem elm) (.elem listelm)

def tailqInsertBefore (m : Mem) (listelm elm : Nat) : TqM Mem := do
  let p ← m.readLast .insertBefore (.elem listelm)
  let m ← m.writeLast .insertBefore (.elem elm) p
  let m ← m.writeFirst .insertBefore (.elem elm) (some listelm)
  let p ← m.readLast .insertBefore (.elem listelm)
  let m ← m.writeFirst .insertBefore p (some elm)
  m.writeLast .insertBefore (.elem listelm) (.elem elm)

def tailqRemove (m : Mem) (h elm : Nat) : TqM Mem := do
  let q ← m.readFirst .remove (.elem elm)
  let p ← m.readLast .remove (.elem elm)
  let m ← m.writeLast .remove (behind h q) p
  let p ← m.readLast .remove (.elem elm)
  let q ← m.readFirst .remove (.elem elm)
  m.writeFirst .remove p q

def tailqReplace (m : Mem) (h elm elm2 : Nat) : TqM Mem := do
  let q ← m.readFirst .replace (.elem elm)
  let m ← m.writeFirst .replace (.elem elm2) q
  let m ← m.writeLast .replace (behind h q) (.elem elm2)
  let p ← m.readLast .replace (.elem elm)
  let m ← m.writeLast .replace (.elem elm2) p
  let p ← m.readLast .replace (.elem elm2)
  m.writeFirst .replace p (some elm2)

/-- The loop of `TAILQ_FOREACH` and `TAILQ_FOREACH_REVERSE` from `var` on. The successor
is read behind the body. -/
def foreachLoop (succ : Mem → Nat → TqM (Option Nat)) (body : Mem → Nat → TqM Mem) : Nat → Mem → Option Nat → TqM Mem
  | _, m, none => pure m
  | 0, _, some _ => .fail .diverges .foreach
  | fuel + 1, m, some var => do
    Act.emit var
    let m ← body m var
    let q ← succ m var
    foreachLoop succ body fuel m q

def tailqForeach (fuel : Nat) (m : Mem) (h : Nat) (body : Mem → Nat → TqM Mem) : TqM Mem := do
  let q ← m.tailqFirst h
  foreachLoop tailqNext body fuel m q

def tailqForeachReverse (fuel : Nat) (m : Mem) (h : Nat) (body : Mem → Nat → TqM Mem) : TqM Mem := do
  let q ← m.tailqLast h
  foreachLoop tailqPrev body fuel m q

end Mem

/-- What a program does with its queues and elements. -/
inductive TqOp where
  | malloc (a : Nat)
  | free (a : Nat)
  | init (h : Nat)
  | insertHead (h elm : Nat)
  | insertTail (h elm : Nat)
  | insertAfter (h listelm elm : Nat)
  | insertBefore (listelm elm : Nat)
  | remove (h elm : Nat)
  | replace (h elm elm2 : Nat)
  deriving DecidableEq, Repr

def tqStep (m : Mem) : TqOp → TqM Mem
  | .malloc a => pure (m.malloc a)
  | .free a => pure (m.free a)
  | .init h => pure (m.tailqInit h)
  | .insertHead h elm => m.tailqInsertHead h elm
  | .insertTail h elm => m.tailqInsertTail h elm
  | .insertAfter h listelm elm => m.tailqInsertAfter h listelm elm
  | .insertBefore listelm elm => m.tailqInsertBefore listelm elm
  | .remove h elm => m.tailqRemove h elm
  | .replace h elm elm2 => m.tailqReplace h elm elm2

end MyProgram.TailQueue
