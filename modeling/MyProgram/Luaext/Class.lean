import MyProgram.Lib.Act
import MyProgram.Lib.Assoc
import MyProgram.Lib.LuaHeap
import MyProgram.Lib.Runs

/-! Classes made with `class` of `luaext.lua`, their instances, and `iskindof`. -/
namespace MyProgram.Luaext.Class
open Lib
variable {F V : Type}

/-- A class is a constructor of its instances; a class of C++ objects is another one. -/
inductive Fn (F : Type) where
  | new (cls : Nat)
  | nativeNew (cls : Nat)
  | empty
  | user (f : F)
  deriving DecidableEq, Repr

inductive Prim (F V : Type) where
  | string (s : String)
  | number (n : Int)
  | boolean (b : Bool)
  | function (f : Fn F)
  | other (v : V)
  deriving DecidableEq, Repr

abbrev Value (F V : Type) := LuaValue (Prim F V)
abbrev Heap (F V : Type) := LuaHeap (Prim F V)

/-- A name as a key or a value. -/
def str (s : String) : Value F V := .plain (.string s)

def fn (f : Fn F) : Value F V := .plain (.function f)

inductive Site where
  | index | newindex | call | iskindof
  deriving DecidableEq, Repr

/-- A table is returned, a function is called on an object, or a read or a question has an
answer. -/
inductive Effect (F V : Type) where
  | made (ref : Nat)
  | called (f : Fn F) (obj : Nat)
  | found (v : Option (Value F V))
  | answered (b : Bool)
  deriving DecidableEq, Repr

abbrev ClassM (F V : Type) := Act Site (Effect F V)

variable [DecidableEq F] [DecidableEq V]

def rawget (heap : Heap F V) (r : Nat) (k : Value F V) : Option (Value F V) := heap[r]?.bind (·.entries.lookup k)

/-- The metatable of a table. -/
def metaOf (heap : Heap F V) (r : Nat) : Option Nat := heap[r]?.bind (·.metatable)

/-- `v[k]`. Only tables are indexed here, and no `__index` is a function. -/
def indexFrom : Nat → Heap F V → Value F V → Value F V → ClassM F V (Option (Value F V))
  | 0, _, _, _ => .fail .diverges .index
  | _+1, _, .plain _, _ => .fail .nullDereference .index
  | fuel+1, heap, .table r, k =>
    match heap[r]? with
    | none => .fail .nullDereference .index
    | some t =>
      match t.entries.lookup k with
      | some v => pure (some v)
      | none =>
        match t.metatable.bind (rawget heap · (str "__index")) with
        | none => pure none
        | some h => indexFrom fuel heap h k

/-- `v[k]`. A longer way would lead through a table twice. -/
def index (heap : Heap F V) (v k : Value F V) : ClassM F V (Option (Value F V)) := indexFrom (heap.length + 1) heap v k

/-- `t[k] = v`, with no `__newindex` in the metatable where the key is new. -/
def newindex (heap : Heap F V) (r : Nat) (k : Value F V) (v : Option (Value F V)) : ClassM F V (Heap F V) :=
  match heap[r]? with
  | none => .fail .nullDereference .newindex
  | some t =>
    match t.entries.lookup k, t.metatable.bind (rawget heap · (str "__newindex")) with
    | none, some _ => .fail .nullDereference .newindex
    | _, _ => pure (heap.set r { t with entries := assign t.entries k v })

/-- `f(obj)` for a constructor. What it does on the object comes in later operations. -/
def call (f : Option (Value F V)) (obj : Nat) : ClassM F V Unit :=
  match f with
  | some (.plain (.function f)) => Act.emit (.called f obj)
  | _ => .fail .nullDereference .call

/-- The fields of a class of Lua objects. -/
def luaFields (cls : Nat) (classname : String) (super : Option (Value F V)) : List (Value F V × Value F V) :=
  (match super with
    | some super => [(str "super",super)]
    | none => [(str "ctor",fn .empty)]) ++
  [(str "__cname",str classname),(str "__ctype",.plain (.number 2)),(str "__index",.table cls),(str "new",fn (.new cls))]

/-- A class of C++ objects. -/
def nativeFields (fields : List (Value F V × Value F V)) (cls : Nat) (classname : String) : List (Value F V × Value F V) :=
  assignAll fields [(str "__cname",str classname),(str "__ctype",.plain (.number 1)),(str "new",fn (.nativeNew cls))]

/-- `class`, with the table that it returns. -/
def makeClass (heap : Heap F V) (classname : String) (super : Option (Value F V)) : ClassM F V (Heap F V × Nat) :=
  let cls := heap.length
  match super with
  | some (.plain (.function f)) =>
    pure (heap ++ [⟨nativeFields [(str "__create",fn f),(str "ctor",fn .empty)] cls classname,none⟩],cls)
  | some (.table b) => do
    let ctype ← index heap (.table b) (str "__ctype")
    if ctype = some (.plain (.number 1)) then do
      let create ← index heap (.table b) (str "__create")
      let fields := assign ((heap[b]?.map (·.entries)).getD []) (str "__create") create
      pure (heap ++ [⟨nativeFields (assign fields (str "super") super) cls classname,none⟩],cls)
    else
      pure (heap ++ [⟨luaFields cls classname super,some (cls + 1)⟩,⟨[(str "__index",.table b)],none⟩],cls)
  | _ => pure (heap ++ [⟨luaFields cls classname none,none⟩],cls)

/-- What `class` gives a class of Lua objects as `new`. -/
def makeInstance (heap : Heap F V) (cls : Nat) : ClassM F V (Heap F V × Nat) := do
  let obj := heap.length
  let heap ← newindex (heap ++ [⟨[],some cls⟩]) obj (str "class") (some (.table cls))
  let ctor ← index heap (.table obj) (str "ctor")
  call ctor obj
  pure (heap,obj)

/-- `getmetatable`. -/
def getmetatable (heap : Heap F V) (r : Nat) : Option (Value F V) := (metaOf heap r).map fun m =>
  (rawget heap m (str "__metatable")).getD (.table m)

/-- The loop of `iskindof`. -/
def kindLoop (heap : Heap F V) (classname : String) : Nat → Option (Value F V) → ClassM F V Bool
  | 0, _ => .fail .diverges .iskindof
  | fuel+1, mt =>
    match mt with
    | none | some (.plain (.boolean false)) => pure false
    | some mt => do
      let cname ← index heap mt (str "__cname")
      if cname = some (str classname) then pure true
      else do
        let mt ← index heap mt (str "super")
        kindLoop heap classname fuel mt

/-- `iskindof` of a table. A longer loop would meet a table twice. -/
def iskindof (heap : Heap F V) (obj : Nat) (classname : String) : ClassM F V Bool :=
  kindLoop heap classname (heap.length + 1) (getmetatable heap obj)

/-- The tables, and those of them that `new` of a class has returned. -/
structure World (F V : Type) where
  heap : Heap F V
  objects : List Nat

/-- `class(classname, super)`, `t[k] = v`, `cls.new()`, a read `t[k]` and `iskindof`. -/
inductive ClassOp (F V : Type) where
  | makeClass (classname : String) (super : Option (Value F V))
  | assign (t : Nat) (k : Value F V) (v : Option (Value F V))
  | new (cls : Nat)
  | read (t : Nat) (k : Value F V)
  | iskindof (obj : Nat) (classname : String)
  deriving DecidableEq

def classStep (w : World F V) : ClassOp F V → ClassM F V (World F V)
  | .makeClass classname super => do
    let (heap,cls) ← makeClass w.heap classname super
    Act.emit (.made cls)
    pure { w with heap := heap }
  | .assign t k v => do
    let heap ← newindex w.heap t k v
    pure { w with heap := heap }
  | .new cls => do
    let f ← index w.heap (.table cls) (str "new")
    match f with
    | some (.plain (.function (.new cls))) =>
      let (heap,obj) ← makeInstance w.heap cls
      Act.emit (.made obj)
      pure ⟨heap,w.objects ++ [obj]⟩
    | _ => .fail .nullDereference .call
  | .read t k => do
    let v ← index w.heap (.table t) k
    Act.emit (.found v)
    pure w
  | .iskindof obj classname => do
    let b ← iskindof w.heap obj classname
    Act.emit (.answered b)
    pure w

/-- A key other than `new`, `super`, `class` and the names that begin with `__`. -/
def freeKey : Value F V → Bool
  | .plain (.string s) => decide (s ∉ ["new","super","class"]) && s.toList.take 2 != ['_','_']
  | _ => true

/-- A field of an object may have any name. -/
def World.Allowed (w : World F V) : ClassOp F V → Prop
  | .assign t k _ => t ∈ w.objects ∨ freeKey k = true
  | _ => True

instance (w : World F V) : (op : ClassOp F V) → Decidable (w.Allowed op)
  | .assign t k _ => inferInstanceAs (Decidable (t ∈ w.objects ∨ freeKey k = true))
  | .makeClass .. | .new _ | .read .. | .iskindof .. => .isTrue trivial

/-- The chain of a class by what was made: the tables and names, the class itself first. -/
inductive Chain : Trace (ClassOp F V) (Effect F V) → List (Nat × String) → Prop where
  | base {tr : Trace (ClassOp F V) (Effect F V)} {c : Nat} {name : String} :
      Chain (tr ++ [(.makeClass name none,[.made c])]) [(c,name)]
  | derived {tr : Trace (ClassOp F V) (Effect F V)} {b c : Nat} {name name' : String} {rest : List (Nat × String)} :
      Chain tr ((b,name') :: rest) →
      Chain (tr ++ [(.makeClass name (some (.table b)),[.made c])]) ((c,name) :: (b,name') :: rest)
  | later {tr : Trace (ClassOp F V) (Effect F V)} {chain : List (Nat × String)} {e : ClassOp F V × List (Effect F V)} :
      Chain tr chain → Chain (tr ++ [e]) chain

/-- An object that `new` of the class of a chain has returned. -/
inductive Created : Trace (ClassOp F V) (Effect F V) → List (Nat × String) → Nat → Prop where
  | new {tr : Trace (ClassOp F V) (Effect F V)} {c obj : Nat} {name : String} {rest : List (Nat × String)} {fx : List (Effect F V)} :
      Chain tr ((c,name) :: rest) → .made obj ∈ fx → Created (tr ++ [(.new c,fx)]) ((c,name) :: rest) obj
  | later {tr : Trace (ClassOp F V) (Effect F V)} {chain : List (Nat × String)} {obj : Nat} {e : ClassOp F V × List (Effect F V)} :
      Created tr chain obj → Created (tr ++ [e]) chain obj

/-- The field of that name of the nearest class in a chain that has it. -/
def definition (heap : Heap F V) (chain : List (Nat × String)) (k : Value F V) : Option (Value F V) :=
  chain.findSome? fun c => rawget heap c.1 k

end MyProgram.Luaext.Class
