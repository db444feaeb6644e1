import MyProgram.Lib.CString
import MyProgram.Lib.Memo

/-! The Lua module `protobuf.lua` of the cluster test: its memo tables, the tables it hands
to the application and the C library `protobuf.c` that it calls. -/
namespace MyProgram.Protobuf
open Lib

/-- A Lua value without parts. What a pointer of the C library points to is not seen. -/
inductive Scalar where
  | nil
  | bool (b : Bool)
  | int (i : Int)
  | real (bits : UInt64)
  | str (s : Bytes)
  | pointer
  deriving DecidableEq, Repr

/-- What `_decode` puts into a table. A message is handed to the callback undecoded. -/
inductive Item where
  | scalar (v : Scalar)
  | message (typename buffer : Bytes)
  deriving DecidableEq, Repr

inductive Field where
  | single (item : Item)
  | repeated (items : List Item)
  deriving DecidableEq, Repr

/-- An argument as the C library sees it; of a table it sees the raw fields. -/
inductive Arg where
  | scalar (v : Scalar)
  | table (fields : List (Scalar × Option Scalar))
  deriving DecidableEq, Repr

/-- The functions of `protobuf.c`, which see an environment and their arguments only. They
may raise an error. A writer is a message under construction with its submessages, which
are numbered; the message itself is 0. `rmessageMessage` is `_rmessage_message` at index 0, and
`rmessageMessages` at every index below `_rmessage_size`. -/
structure CLib where
  Env : Type
  WMessage : Type
  RMessage : Type
  Pattern : Type
  decEq : DecidableEq RMessage
  envNew : Env
  envRegister : Env → Bytes → Except Scalar Env
  envType : Env → Bytes → Scalar → Except Scalar (Nat × Bytes)
  lastError : Env → Scalar
  wmessageNew : Env → Bytes → Option WMessage
  wmessageReal : WMessage → Nat → Scalar → Scalar → Except Scalar WMessage
  wmessageString : WMessage → Nat → Scalar → Scalar → Except Scalar WMessage
  wmessageInt : WMessage → Nat → Scalar → Scalar → Except Scalar WMessage
  wmessageMessage : WMessage → Nat → Scalar → Except Scalar (Nat × WMessage)
  wmessageBuffer : WMessage → Bytes
  rmessageNew : Env → Bytes → Bytes → Option RMessage
  rmessageReal : RMessage → Scalar → Nat → Except Scalar Scalar
  rmessageString : RMessage → Scalar → Nat → Except Scalar Scalar
  rmessageInt : RMessage → Scalar → Nat → Except Scalar Scalar
  rmessageMessage : RMessage → Scalar → Except Scalar (Option RMessage)
  rmessageMessages : RMessage → Scalar → Except Scalar (List RMessage)
  rmessageSize : RMessage → Scalar → Except Scalar Nat
  patternNew : Env → Bytes → Bytes → Option Pattern
  patternSize : Bytes → Nat
  patternUnpack : Pattern → Bytes → Nat → Bytes → Option Nat → Except Scalar (List Field)
  patternPack : Pattern → Bytes → Nat → List Arg → Except Scalar (List Field)
  decode : Env → Bytes → Bytes → Option Nat → List (Scalar × Field) × Except Scalar Bool

instance (L : CLib) : DecidableEq L.RMessage := L.decEq

/-- A message that `_reader:message` or `decode_message` made. The ancestors are the chain
of `_Parent`. -/
structure Inst (L : CLib) where
  obj : L.RMessage
  ctype : Bytes
  ancestors : List (L.RMessage × Bytes)
  deriving DecidableEq

/-- The tables behind the defaults: messages, and the lists that the repeated readers build. -/
inductive Shared (L : CLib) where
  | inst (i : Inst L)
  | scalars (l : List Scalar)
  | insts (l : List (Inst L))
  deriving DecidableEq

/-- A Lua value. The tables of the application are in the heap. -/
inductive Value (L : CLib) where
  | scalar (v : Scalar)
  | table (id : Nat)
  | shared (t : Shared L)
  deriving DecidableEq

/-- The metatable: none, `decode_message_mt`, that of `default_table`, or `{ __index = ret }`. -/
inductive Meta (L : CLib) where
  | none
  | message
  | default (inst : Inst L)
  | index (ret : Shared L)
  deriving DecidableEq

structure Table (L : CLib) where
  fields : List (Scalar × Value L)
  metatable : Meta L
  deriving DecidableEq

/-- What the garbage collector of Lua will release. -/
structure Gc (L : CLib) where
  env : L.Env
  rmessages : List L.RMessage
  patterns : List L.Pattern

/-- The types of fields that have readers and writers of their own. -/
inductive Kind where
  | int | real | bool | string
  | message (type : Bytes)
  deriving DecidableEq, Repr

/-- An entry of `_reader` or `_writer` applied to the name of the message type. -/
structure Access where
  kind : Kind
  repeated : Bool
  deriving DecidableEq, Repr

/-- An entry of `_pattern_cache`. -/
structure Pat (L : CLib) where
  cobj : L.Pattern
  format : Bytes
  size : Nat

inductive LuaError where
  | assertion (v : Scalar)
  | raised (v : Scalar)
  | argument | index | call | overflow
  deriving DecidableEq, Repr

/-- The locals of the module and the heap. Each type of `encode_type_cache` and of
`decode_type_cache` is a table of fields; here a field is found by both. `instFields` holds the
fields that `_R_meta` has stored in the messages. -/
structure World (L : CLib) where
  P : L.Env
  gc : Gc L
  mGC : Gc L
  encodeTypeCache : List ((Bytes × Scalar) × Access)
  decodeTypeCache : List ((Bytes × Scalar) × Access)
  patternCache : List (Bytes × Pat L)
  defaultCache : List (Bytes × Inst L)
  instFields : List ((Inst L × Scalar) × Value L)
  heap : List (Table L)

abbrev Lua (L : CLib) := Prog (World L) LuaError

/-- The module right after it has loaded a schema. -/
def fresh {L : CLib} (env : L.Env) (heap : List (Table L)) : World L :=
  ⟨env,⟨env,[],[]⟩,⟨env,[],[]⟩,[],[],[],[],[],heap⟩

/-- `_reader` and `_writer` have the same entries. -/
def access (t : Nat) (msg : Bytes) : Option Access :=
  let kind : Nat → Option Kind
    | 1 | 7 | 8 | 10 | 11 => some .int
    | 2 => some .real
    | 3 => some .bool
    | 4 | 5 | 9 => some .string
    | 6 => some (.message msg)
    | _ => none
  if t < 128 then (kind t).map fun k => ⟨k,false⟩ else (kind (t - 128)).map fun k => ⟨k,true⟩

def reader : Nat → Bytes → Option Access := access

def writer : Nat → Bytes → Option Access := access

/-- The pattern and the format letter of a type. -/
def patternType (t : Nat) : Option (Bytes × Bytes) :=
  match t with
  | 1 | 4 | 8 => some (ascii "%d",ascii "i")
  | 2 => some (ascii "%F",ascii "r")
  | 3 => some (ascii "%d",ascii "b")
  | 5 | 9 => some (ascii "%s",ascii "s")
  | 6 => some (ascii "%s",ascii "m")
  | 7 | 10 | 11 => some (ascii "%D",ascii "d")
  | 129 | 132 | 136 => some (ascii "%a",ascii "I")
  | 130 => some (ascii "%a",ascii "R")
  | 131 => some (ascii "%a",ascii "B")
  | 133 | 137 => some (ascii "%a",ascii "S")
  | 134 => some (ascii "%a",ascii "M")
  | 135 | 138 | 139 => some (ascii "%a",ascii "D")
  | _ => none

end MyProgram.Protobuf
