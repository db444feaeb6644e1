import MyProgram.Lib.Assoc
import MyProgram.Protobuf.Model

/-! The functions of `protobuf.lua`: encoding, decoding with its defaults, patterns, and the
reload of a schema. -/
namespace MyProgram.Protobuf
open Lib
variable {L : CLib}

/-- An error that the C library raised. -/
def raise {α : Type} : Except Scalar α → Except LuaError α
  | .ok a => .ok a
  | .error e => .error (.raised e)

def lib {α : Type} (x : Except Scalar α) : Lua L α := Prog.read fun _ => raise x

def Value.nil : Value L := .scalar .nil

/-! The heap of the application. -/

def rawGet (fields : List (Scalar × Value L)) (key : Scalar) : Option (Value L) := fields.lookup key

def rawSet (fields : List (Scalar × Value L)) (key : Scalar) (v : Value L) : List (Scalar × Value L) :=
  assign fields key (if v = .nil then none else some v)

def alloc (t : Table L) : Lua L Nat := fun w => (.ok w.heap.length,{ w with heap := w.heap ++ [t] })

def tableAt (id : Nat) : Lua L (Table L) := Prog.read fun w => match w.heap[id]? with
  | some t => .ok t
  | none => .error .index

def rawset (id : Nat) (key : Scalar) (v : Value L) : Lua L Unit := Prog.modify fun w =>
  { w with heap := w.heap.modify id fun t => { t with fields := rawSet t.fields key v } }

def setmetatable (id : Nat) (m : Meta L) : Lua L Unit := Prog.modify fun w =>
  { w with heap := w.heap.modify id fun t => { t with metatable := m } }

/-- The entry of a list at a Lua index. -/
def listIndex {α : Type} (l : List α) : Scalar → Option α
  | .int i => if 1 ≤ i then l[i.toNat - 1]? else none
  | _ => none

def numbered {α : Type} (l : List α) : List (Scalar × α) := (List.range l.length).zip l |>.map fun p => (.int (p.1 + 1),p.2)

/-! The memo tables. -/

def encodeTypes : Memo (World L) (Bytes × Scalar) Access :=
  ⟨World.encodeTypeCache,fun k a w => { w with encodeTypeCache := (k,a) :: w.encodeTypeCache }⟩

def decodeTypes : Memo (World L) (Bytes × Scalar) Access :=
  ⟨World.decodeTypeCache,fun k a w => { w with decodeTypeCache := (k,a) :: w.decodeTypeCache }⟩

def patterns : Memo (World L) Bytes (Pat L) :=
  ⟨World.patternCache,fun k p w => { w with patternCache := (k,p) :: w.patternCache }⟩

def defaults : Memo (World L) Bytes (Inst L) :=
  ⟨World.defaultCache,fun k i w => { w with defaultCache := (k,i) :: w.defaultCache }⟩

def fieldsRead : Memo (World L) (Inst L × Scalar) (Value L) :=
  ⟨World.instFields,fun k v w => { w with instFields := (k,v) :: w.instFields }⟩

/-- `_encode_type_meta.__index` and `_decode_type_meta.__index`. -/
def typeEntry (table : Nat → Bytes → Option Access) (env : L.Env) (key : Bytes × Scalar) : Except LuaError (Option Access) :=
  match raise (L.envType env key.1 key.2) with
  | .error e => .error e
  | .ok (t,msg) => match table t msg with
    | some a => .ok (some a)
    | none => .error (.assertion key.2)

/-- The function for a field of a type. The table of a type also has its name, under
`_CType`, which cannot be called. -/
def typeField (cache : Memo (World L) (Bytes × Scalar) Access) (table : Nat → Bytes → Option Access) (ctype : Bytes) (key : Scalar) :
    Lua L Access := do
  if key = .str (ascii "_CType") then Prog.throw .call
  else
    let a ← cache.fetch (ctype,key) (Prog.read fun w => typeEntry table w.P (ctype,key))
    Prog.assert .call a

/-! Readers. -/

def Inst.child (i : Inst L) (obj : L.RMessage) (type : Bytes) : Inst L := ⟨obj,type,(i.obj,i.ctype) :: i.ancestors⟩

/-- `_reader:int` and the like, at an index. -/
def readScalar (kind : Kind) (obj : L.RMessage) (key : Scalar) (n : Nat) : Except LuaError Scalar :=
  match kind with
  | .int => raise (L.rmessageInt obj key n)
  | .real => raise (L.rmessageReal obj key n)
  | .bool => (raise (L.rmessageInt obj key n)).map fun v => .bool (v ≠ .int 0)
  | .string => raise (L.rmessageString obj key n)
  | .message _ => .error .call

/-- The readers. A message that is not there is `nil`, which is not stored. -/
def Access.read (a : Access) (i : Inst L) (key : Scalar) : Except LuaError (Option (Value L)) :=
  match a.repeated, a.kind with
  | false, .message type => do
    let obj ← raise (L.rmessageMessage i.obj key)
    pure (obj.map fun obj => .shared (.inst (i.child obj type)))
  | false, kind => do
    let v ← readScalar kind i.obj key 0
    pure (if v = .nil then none else some (.scalar v))
  | true, .message type => do
    let l ← raise (L.rmessageMessages i.obj key)
    pure (some (.shared (.insts (l.map fun obj => i.child obj type))))
  | true, kind => do
    let n ← raise (L.rmessageSize i.obj key)
    let l ← (List.range n).mapM fun j => readScalar kind i.obj key j
    pure (some (.shared (.scalars l)))

/-- The fields that a message is made with. -/
def Inst.raw (i : Inst L) (key : Scalar) : Option (Value L) :=
  if key = .str (ascii "_CObj") then some (.scalar .pointer)
  else if key = .str (ascii "_CType") then some (.scalar (.str i.ctype))
  else if key = .str (ascii "_Parent") then i.ancestors.head?.map fun p => .shared (.inst ⟨p.1,p.2,i.ancestors.tail⟩)
  else none

/-- `_R_meta.__index` for a message. -/
def Inst.index (i : Inst L) (key : Scalar) : Lua L (Value L) :=
  match i.raw key with
  | some v => pure v
  | none => do
    let v ← fieldsRead.fetch (i,key) do
      let a ← typeField decodeTypes reader i.ctype key
      Prog.read fun _ => a.read i key
    pure (v.getD .nil)

def Shared.index (t : Shared L) (key : Scalar) : Lua L (Value L) :=
  match t with
  | .inst i => i.index key
  | .scalars l => pure (((listIndex l key).map .scalar).getD .nil)
  | .insts l => pure (((listIndex l key).map fun i => .shared (.inst i)).getD .nil)

/-! Decoding. -/

/-- `default_table` with `decode_message`: the message that gives the defaults of a type. -/
def defaultTable (typename : Bytes) : Lua L (Inst L) := do
  let i ← defaults.fetch typename do
    let obj ← Prog.read fun w => .ok (L.rmessageNew w.P typename [])
    let obj ← Prog.assert (.assertion (.str (ascii "assertion failed!"))) obj
    Prog.modify fun w => { w with gc := { w.gc with rmessages := obj :: w.gc.rmessages } }
    pure (some ⟨obj,typename,[]⟩)
  Prog.assert .index i

/-- `decode_message_cb` for a message. -/
def storeItem : Item → Lua L (Value L)
  | .scalar v => pure (.scalar v)
  | .message typename buffer => do
    let id ← alloc ⟨[(.int 1,.scalar (.str typename)),(.int 2,.scalar (.str buffer))],.message⟩
    pure (.table id)

def storeField : Field → Lua L (Value L)
  | .single item => storeItem item
  | .repeated items => do
    let l ← items.foldlM (fun l item => do
      let v ← storeItem item
      pure (l ++ [v])) []
    let id ← alloc ⟨numbered l,.none⟩
    pure (.table id)

/-- `c._decode` into a table. -/
def decodeInto (id : Nat) (typename buffer : Bytes) (length : Option Nat) : Lua L Bool := do
  let out ← Prog.read fun w => .ok (L.decode w.P typename buffer length)
  out.1.foldlM (fun _ f => do
    let v ← storeField f.2
    rawset id f.1 v) ()
  lib out.2

def expand (id : Nat) : Lua L Unit := do
  let t ← tableAt id
  rawset id (.int 1) .nil
  rawset id (.int 2) .nil
  match rawGet t.fields (.int 1), rawGet t.fields (.int 2) with
  | some (.scalar (.str typename)), some (.scalar (.str buffer)) => do
    let ok ← decodeInto id typename buffer none
    if ok then
      let i ← defaultTable typename
      setmetatable id (.default i)
    else Prog.throw (.assertion (.str typename))
  | _, _ => Prog.throw .argument

/-- The `__index` that `default_table` makes: a table of its own stands for a shared one. -/
def defaultIndex (id : Nat) (i : Inst L) (key : Scalar) : Lua L (Value L) := do
  match ← i.index key with
  | .shared ret => do
    let new ← alloc ⟨[],.index ret⟩
    rawset id key (.table new)
    pure (.table new)
  | v => pure v

/-- `tbl[key]` behind `expand`. -/
def indexExpanded (id : Nat) (key : Scalar) : Lua L (Value L) := do
  let t ← tableAt id
  match rawGet t.fields key, t.metatable with
  | some v, _ => pure v
  | none, .default i => defaultIndex id i key
  | none, _ => pure .nil

/-- `tbl[key]` with the metatables. -/
def index (v : Value L) (key : Scalar) : Lua L (Value L) :=
  match v with
  | .scalar _ => Prog.throw .index
  | .shared t => t.index key
  | .table id => do
    let t ← tableAt id
    match rawGet t.fields key, t.metatable with
    | some v, _ => pure v
    | none, .none => pure .nil
    | none, .index ret => ret.index key
    | none, .default i => defaultIndex id i key
    | none, .message => do
      expand id
      indexExpanded id key

/-- `M.decode` -/
def decode (typename buffer : Bytes) (length : Option Nat) : Lua L (List (Value L)) := do
  let id ← alloc ⟨[],.none⟩
  let ok ← decodeInto id typename buffer length
  if ok then
    let i ← defaultTable typename
    setmetatable id (.default i)
    pure [.table id]
  else
    let e ← Prog.read fun w => .ok (L.lastError w.P)
    pure [.scalar (.bool false),.scalar e]

/-! Encoding. -/

/-- The entries that `pairs` runs over. A message that a reader made has its type name among
them, for which there is no writer. -/
def pairs : Value L → Lua L (List (Scalar × Value L))
  | .scalar _ => Prog.throw .argument
  | .shared (.inst _) => Prog.throw .call
  | .shared (.scalars l) => pure (numbered (l.map .scalar))
  | .shared (.insts l) => pure (numbered (l.map fun i => .shared (.inst i)))
  | .table id => do
    let t ← tableAt id
    if t.metatable = .message then
      expand id
      let t ← tableAt id
      pure t.fields
    else pure t.fields

/-- The next value of `ipairs`; a string has no numbered entries. -/
def ipairsNext (v : Value L) (n : Nat) : Lua L (Value L) :=
  match v with
  | .scalar (.str _) => pure .nil
  | v => index v (.int n)

/-- `v and 1 or 0` -/
def Value.flag : Value L → Scalar
  | .scalar .nil | .scalar (.bool false) => .int 0
  | _ => .int 1

/-- The C library takes no table for a scalar. -/
def Value.toScalar : Value L → Except LuaError Scalar
  | .scalar v => .ok v
  | _ => .error .argument

/-- How `encode_message` is called for a submessage. -/
abbrev Encoder (L : CLib) := L.WMessage → Nat → Bytes → Value L → Lua L L.WMessage

/-- `_writer:int` and the like, for one value. -/
def writeValue (encode : Encoder L) (kind : Kind) (m : L.WMessage) (h : Nat) (key : Scalar) (v : Value L) : Lua L L.WMessage :=
  match kind with
  | .int => do lib (L.wmessageInt m h key (← Prog.read fun _ => v.toScalar))
  | .real => do lib (L.wmessageReal m h key (← Prog.read fun _ => v.toScalar))
  | .string => do lib (L.wmessageString m h key (← Prog.read fun _ => v.toScalar))
  | .bool => lib (L.wmessageInt m h key v.flag)
  | .message type => do
    let (h',m') ← lib (L.wmessageMessage m h key)
    encode m' h' type v

/-- The loop of the repeated writers. -/
def writeLoop (encode : Encoder L) (kind : Kind) (h : Nat) (key : Scalar) (v : Value L) : Nat → Nat → L.WMessage → Lua L L.WMessage
  | 0, _, _ => Prog.throw .overflow
  | fuel + 1, n, m => do
    match ← ipairsNext v n with
    | .scalar .nil => pure m
    | x => do
      let m ← writeValue encode kind m h key x
      writeLoop encode kind h key v fuel (n + 1) m

/-- The fuel bounds the depth of the calls and the length of the lists. -/
def encodeMessage : Nat → Encoder L
  | 0, _, _, _, _ => Prog.throw .overflow
  | fuel + 1, m, h, messageType, t => do
    let entries ← pairs t
    entries.foldlM (fun m e => do
      let a ← typeField encodeTypes writer messageType e.1
      if a.repeated then writeLoop (encodeMessage fuel) a.kind h e.1 e.2 fuel 1 m
      else writeValue (encodeMessage fuel) a.kind m h e.1 e.2) m

/-- `M.encode` -/
def encode (fuel : Nat) (message : Bytes) (t : Value L) (func : Option (Bytes → Except LuaError (List Scalar))) :
    Lua L (List (Value L)) := do
  let encoder ← Prog.read fun w => .ok (L.wmessageNew w.P message)
  let encoder ← Prog.assert (.assertion (.str message)) encoder
  let m ← encodeMessage fuel encoder 0 message t
  match func with
  | some f => do
    let ret ← Prog.read fun _ => f (L.wmessageBuffer m)
    pure (ret.map .scalar)
  | none => pure [.scalar (.str (L.wmessageBuffer m))]

/-! Patterns. -/

/-- The words of a pattern. -/
def words (pattern : Bytes) : List Bytes := (pattern.splitOn 32).filter (· ≠ [])

/-- `_pattern_create` -/
def patternCreate (env : L.Env) (pattern : Bytes) : Except LuaError (Option (Pat L)) :=
  match words pattern with
  | [] => .error .argument
  | message :: names => do
    let types ← names.mapM fun v => do
      let (t,_) ← raise (L.envType env message (.str v))
      match patternType t with
      | some p => pure (v,p)
      | none => .error (.assertion (.int t))
    let cpat := [32].intercalate (types.map fun (v,p) => v ++ [32] ++ p.1)
    let format := (types.map fun (_,p) => p.2).flatten
    pure ((L.patternNew env message (64 :: cpat)).map fun cobj => ⟨cobj,format,L.patternSize format⟩)

/-- `_pattern_cache[pattern]`, of which the fields are read. -/
def patternOf (pattern : Bytes) : Lua L (Pat L) := do
  let pat ← patterns.fetch pattern do
    let pat ← Prog.read fun w => patternCreate w.P pattern
    Prog.modify fun w => { w with gc := { w.gc with patterns := pat.toList.map Pat.cobj ++ w.gc.patterns } }
    pure pat
  Prog.assert .index pat

def storeFields (fields : List Field) : Lua L (List (Value L)) :=
  fields.foldlM (fun l f => do
    let v ← storeField f
    pure (l ++ [v])) []

/-- `M.unpack` -/
def unpack (pattern buffer : Bytes) (length : Option Nat) : Lua L (List (Value L)) := do
  let pat ← patternOf pattern
  let out ← lib (L.patternUnpack pat.cobj pat.format pat.size buffer length)
  storeFields out

def elementOf : Value L → Option Scalar
  | .scalar v => some v
  | _ => none

def argOf : Value L → Lua L Arg
  | .scalar v => pure (.scalar v)
  | .shared (.inst _) => pure (.table [])
  | .shared (.scalars l) => pure (.table (numbered (l.map some)))
  | .shared (.insts l) => pure (.table (numbered (l.map fun _ => none)))
  | .table id => do
    let t ← tableAt id
    pure (.table (t.fields.map fun f => (f.1,elementOf f.2)))

/-- `M.pack` -/
def pack (pattern : Bytes) (args : List (Value L)) : Lua L (List (Value L)) := do
  let pat ← patternOf pattern
  let args ← args.foldlM (fun l v => do
    let a ← argOf v
    pure (l ++ [a])) []
  let out ← lib (L.patternPack pat.cobj pat.format pat.size args)
  storeFields out

/-! Loading and reloading. -/

/-- The environment of a schema, registered buffer by buffer. -/
def loadSchema (L : CLib) (buffers : List Bytes) : Except Scalar L.Env := buffers.foldlM L.envRegister L.envNew

/-- `M.reload_pb_file`. The memo tables and the local `GC` stay. -/
def reloadPbFile (buffers : List Bytes) : Lua L Unit := do
  let env ← lib (loadSchema L buffers)
  Prog.modify fun w => { w with mGC := ⟨env,[],[]⟩, P := env }

/-- What the application does: the four functions, reads of a table that it got, and tables
of its own. -/
inductive Call (L : CLib) where
  | encode (message : Bytes) (t : Value L) (func : Option (Bytes → Except LuaError (List Scalar)))
  | decode (typename buffer : Bytes) (length : Option Nat)
  | pack (pattern : Bytes) (args : List (Value L))
  | unpack (pattern buffer : Bytes) (length : Option Nat)
  | read (t : Value L) (key : Scalar)
  | newTable (fields : List (Scalar × Value L))
  | setField (id : Nat) (key : Scalar) (v : Value L)

def runCall (fuel : Nat) : Call L → Lua L (List (Value L))
  | .encode message t func => encode fuel message t func
  | .decode typename buffer length => decode typename buffer length
  | .pack pattern args => pack pattern args
  | .unpack pattern buffer length => unpack pattern buffer length
  | .read t key => do
    let v ← index t key
    pure [v]
  | .newTable fields => do
    let id ← alloc ⟨fields,.none⟩
    pure [.table id]
  | .setField id key v => do
    rawset id key v
    pure []

/-- The results of calls one after another; an error ends its call only. -/
def results (fuel : Nat) : List (Call L) → World L → List (Except LuaError (List (Value L))) × World L
  | [], w => ([],w)
  | c :: cs, w =>
    let out := runCall fuel c w
    let rest := results fuel cs out.2
    (out.1 :: rest.1,rest.2)

end MyProgram.Protobuf
