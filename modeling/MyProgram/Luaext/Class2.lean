import MyProgram.Lib.Act
import MyProgram.Lib.Assoc
import MyProgram.Lib.Lineage
import MyProgram.Lib.Runs

/-! Classes made with `class2` of `luaext.lua`, whose instances find inherited functions in
tables that keep what has been found. -/
namespace MyProgram.Luaext.Class2
open Lib
variable {K F : Type} [DecidableEq K]

/-- A class with the `super` it was made from, its constructor, which is false at first, and
the table that `_class` has for it. -/
structure ClassType (K F : Type) where
  super : Option Nat
  ctor : Option F
  vtbl : List (K × F)

inductive Site where
  | create | index | newindex | object
  deriving DecidableEq, Repr

/-- A constructor is called on an object, or a read has an answer. -/
inductive Effect (F : Type) where
  | called (ctor : F) (obj : Nat)
  | found (ret : Option F)
  deriving DecidableEq, Repr

abbrev ClassM (F : Type) := Act Site (Effect F)

/-- Objects have no fields of their own beside what their constructors store. -/
structure World (K F : Type) where
  classes : List (ClassType K F)
  objects : List Nat

/-- `vtbl[k] = v`. -/
def store (classes : List (ClassType K F)) (c : Nat) (k : K) (v : Option F) : List (ClassType K F) :=
  classes.modify c fun t => { t with vtbl := assign t.vtbl k v }

/-- `_class[c][k]`. What is not there is looked up in the table of `super` and kept. -/
def index : Nat → List (ClassType K F) → Nat → K → ClassM F (List (ClassType K F) × Option F)
  | 0, _, _, _ => .fail .diverges .index
  | fuel+1, classes, c, k =>
    match classes[c]? with
    | none => .fail .nullDereference .index
    | some t =>
      match t.vtbl.lookup k with
      | some f => pure (classes,some f)
      | none =>
        match t.super with
        | none => pure (classes,none)
        | some b => do
          let (classes,ret) ← index fuel classes b k
          pure (store classes c k ret,ret)

/-- The constructors of `super`, then that of the class. -/
def create (classes : List (ClassType K F)) (obj : Nat) : Nat → Nat → ClassM F Unit
  | 0, _ => .fail .diverges .create
  | fuel+1, c =>
    match classes[c]? with
    | none => .fail .nullDereference .create
    | some t => do
      match t.super with
      | some b => create classes obj fuel b
      | none => pure ()
      match t.ctor with
      | some f => Act.emit (.called f obj)
      | none => pure ()

/-- `class2(super)`, an assignment of a function to a name of a class other than `ctor`,
`new` and `super`, one to `ctor`, `c.new()`, and a read of a name of an object that has no
such field itself. -/
inductive ClassOp (K F : Type) where
  | class2 (super : Option Nat)
  | define (c : Nat) (k : K) (v : F)
  | setCtor (c : Nat) (v : F)
  | new (c : Nat)
  | read (obj : Nat) (k : K)

def classStep (w : World K F) : ClassOp K F → ClassM F (World K F)
  | .class2 super => pure { w with classes := w.classes ++ [⟨super,none,[]⟩] }
  | .define c k v =>
    match w.classes[c]? with
    | none => .fail .nullDereference .newindex
    | some _ => pure { w with classes := store w.classes c k (some v) }
  | .setCtor c v =>
    match w.classes[c]? with
    | none => .fail .nullDereference .newindex
    | some _ => pure { w with classes := w.classes.modify c fun t => { t with ctor := some v } }
  | .new c => do
    create w.classes w.objects.length (w.classes.length + 1) c
    pure { w with objects := w.objects ++ [c] }
  | .read obj k =>
    match w.objects[obj]? with
    | none => .fail .nullDereference .object
    | some c => do
      let (classes,ret) ← index (w.classes.length + 1) w.classes c k
      Act.emit (.found ret)
      pure { w with classes := classes }

/-- What the classes were made from, by the history of operations. -/
def supers (ops : List (ClassOp K F)) : List (Option Nat) := ops.filterMap fun
  | .class2 super => some super
  | _ => none

/-- The function last assigned to a name of each class. -/
def assigned (ops : List (ClassOp K F)) (k : K) : Nat → Option F := ops.foldl (fun own op =>
  match op with
  | .define c k' v => if k' = k then Function.update own c (some v) else own
  | _ => own) fun _ => none

def superOf (supers : List (Option Nat)) (c : Nat) : Option Nat := supers[c]?.join

/-- What the table of a class has. -/
def own (classes : List (ClassType K F)) (k : K) (c : Nat) : Option F := classes[c]?.bind (·.vtbl.lookup k)

/-- Operations are on classes and objects that have been made. -/
def World.Possible (w : World K F) : ClassOp K F → Prop
  | .class2 super => ∀ b ∈ super, b < w.classes.length
  | .define c _ _ | .setCtor c _ | .new c => c < w.classes.length
  | .read obj _ => obj < w.objects.length

instance (w : World K F) (op : ClassOp K F) : Decidable (w.Possible op) :=
  match op with
  | .class2 super => inferInstanceAs (Decidable (∀ b ∈ super, b < w.classes.length))
  | .define c _ _ | .setCtor c _ | .new c => inferInstanceAs (Decidable (c < w.classes.length))
  | .read obj _ => inferInstanceAs (Decidable (obj < w.objects.length))

/-- No class for which the assignment is the nearest one has kept another function that it
found before. -/
def World.Timely (w : World K F) (ops : List (ClassOp K F)) : ClassOp K F → Prop
  | .define c k v => ∀ d, d ≠ c → holder (superOf (supers ops)) (Function.update (assigned ops k) c (some v)) d = some c →
      ∀ u, own w.classes k d = some u → u = v
  | _ => True

end MyProgram.Luaext.Class2
