import MyProgram.Lib.LuaPack

/-! The message layouts of `protopack.lua`. An error that Lua raises is `none`. -/
namespace MyProgram.Protopack
open Lib LuaPack

/-- The library that is handed to the functions: it turns messages into strings and
strings into messages. -/
structure Protobuf (α β : Type) where
  encode : Bytes → α → Bytes
  decode : Bytes → Bytes → β

variable {α β : Type}

/-- `string.format` of the fields behind the header. -/
def packFormat (lead : String) (namelen pblen : Int) : Bytes :=
  ascii lead ++ (ascii " H c" ++ (signedDecimal namelen ++ (ascii " I c" ++ signedDecimal pblen)))

def unpackFormat (namelen pblen : Int) : Bytes :=
  ascii "> c" ++ (signedDecimal namelen ++ (ascii " I c" ++ signedDecimal pblen))

/-- What the packing functions share. The header starts the format with `lead` and has
the values `head datalen`. -/
def packFields (lead : String) (head : Int → List Value) (name : Bytes) (msg : α) (protobuf : Protobuf α β)
    (roomid : Option Int) : Option Bytes :=
  let pbstr := protobuf.encode name msg
  let pblen : Int := pbstr.length
  let namelen : Int := name.length
  let datalen := 2 + namelen + 4 + pblen
  let headRoomid := roomid.getD 0
  stringPack (packFormat lead namelen pblen)
    (head datalen ++ [.int namelen,.str name,.int headRoomid,.str pbstr])

def packRaw (type uid : Int) (name : Bytes) (msg : α) (protobuf : Protobuf α β) (roomid : Option Int) : Option Bytes :=
  packFields ">I L" (fun _ => [.int type,.int uid]) name msg protobuf roomid

def packAgent (type : Int) (name : Bytes) (msg : α) (protobuf : Protobuf α β) (roomid : Option Int) : Option Bytes :=
  packFields "> I I" (fun datalen => [.int type,.int datalen]) name msg protobuf roomid

def pack (name : Bytes) (msg : α) (protobuf : Protobuf α β) (roomid : Option Int) : Option Bytes :=
  packFields "> I" (fun datalen => [.int datalen]) name msg protobuf roomid

/-- Name and payload of a string in which `head` bytes are neither, the name's length is
at `lenpos` and the name at `namepos`. -/
def unpackFields (head : Int) (lenpos namepos : Nat) (str : Bytes) : Option (Bytes × Bytes) :=
  let datalen := (str.length : Int) - head
  match stringUnpack (ascii "> H") str lenpos with
  | some [.int namelen] =>
    let pblen := datalen - namelen
    match stringUnpack (unpackFormat namelen pblen) str namepos with
    | some [.str name,.int _,.str pbstr] => some (name,pbstr)
    | _ => none
  | _ => none

def unpackUid (str : Bytes) (pos : Nat) : Option Int :=
  match stringUnpack (ascii "> L") str pos with
  | some [.int uid] => some uid
  | _ => none

def unpackRaw (str : Bytes) (protobuf : Protobuf α β) : Option (Int × Bytes × β) := do
  let uid ← unpackUid str 5
  let (name,pbstr) ← unpackFields (4 + 8 + 2 + 4) 13 15 str
  pure (uid,name,protobuf.decode name pbstr)

def unpackAgent (str : Bytes) (protobuf : Protobuf α β) : Option (Int × Bytes × β) := do
  let uid ← unpackUid str 1
  let (name,pbstr) ← unpackFields (8 + 2 + 4) 9 11 str
  pure (uid,name,protobuf.decode name pbstr)

def unpack (str : Bytes) (protobuf : Protobuf α β) : Option (Bytes × β) := do
  let (name,pbstr) ← unpackFields (4 + 2 + 4) 5 7 str
  pure (name,protobuf.decode name pbstr)

/-- What all layouts have behind their header. -/
def body (name : Bytes) (roomid : Nat) (pbstr : Bytes) : Bytes :=
  toBytes 2 name.length ++ (name ++ (toBytes 4 roomid ++ pbstr))

/-- The 8 bytes of a user id. -/
def uidBytes (uid : Int) : Bytes := toBytes 8 (uid % 2^64).toNat

theorem length_body (name : Bytes) (roomid : Nat) (pbstr : Bytes) :
    ((body name roomid pbstr).length : Int) = 2 + name.length + 4 + pbstr.length := by
  simp only [body,List.length_append,length_toBytes]
  omega

private theorem signedDecimal_natCast (n : Nat) : signedDecimal n = decimal n := by
  rw [signedDecimal,if_neg (by omega),Int.natAbs_natCast]

private theorem run_string (fmt : Bytes) : Reader.ready.run (99 :: fmt) = Reader.unsized.run fmt := by
  rw [Reader.run_step (show Reader.step 99 .ready = some (.unsized,[]) from rfl)]
  exact Option.map_id'

/-- The options of the name, the room id and the payload. -/
private theorem run_fields (namelen pblen : Nat) :
    Reader.unsized.run (signedDecimal namelen ++ (ascii " I c" ++ signedDecimal pblen)) =
      some [.char namelen,.uint 4,.char pblen] := by
  have hlast : Reader.unsized.run (decimal pblen) = some [.char pblen] := by
    have h := Reader.run_decimal pblen []
    rwa [List.append_nil] at h
  have hroom : Reader.ready.run (ascii "I " ++ 99 :: decimal pblen) = some [.uint 4,.char pblen] := by
    rw [Reader.run_append (show Reader.ready.run (ascii "I ") = some [.uint 4] from rfl) (by decide),run_string,hlast]
    rfl
  rw [signedDecimal_natCast,signedDecimal_natCast,Reader.run_decimal]
  change Reader.run (.sized namelen) (32 :: (ascii "I " ++ 99 :: decimal pblen)) = _
  rw [Reader.run_step (show Reader.step 32 (.sized namelen) = some (.ready,[.char namelen]) from rfl),hroom]
  rfl

/-- The options behind the header. -/
private theorem run_body (namelen pblen : Nat) :
    Reader.ready.run (ascii " H c" ++ (signedDecimal namelen ++ (ascii " I c" ++ signedDecimal pblen))) =
      some [.uint 2,.char namelen,.uint 4,.char pblen] := by
  change Reader.ready.run (ascii " H " ++ 99 :: (signedDecimal namelen ++ (ascii " I c" ++ signedDecimal pblen))) = _
  rw [Reader.run_append (show Reader.ready.run (ascii " H ") = some [.uint 2] from rfl) (by decide),run_string,run_fields]
  rfl

private theorem parse_unpackFormat (namelen pblen : Nat) :
    parse (unpackFormat namelen pblen) = some [.big,.char namelen,.uint 4,.char pblen] := by
  change Reader.ready.run (ascii "> " ++ 99 :: (signedDecimal namelen ++ (ascii " I c" ++ signedDecimal pblen))) = _
  rw [Reader.run_append (show Reader.ready.run (ascii "> ") = some [.big] from rfl) (by decide),run_string,run_fields]
  rfl

/-- A negative length has a sign where the size of a `c` must start. -/
private theorem parse_unpackFormat_neg (namelen : Nat) {pblen : Int} (h : pblen < 0) : parse (unpackFormat namelen pblen) = none := by
  have hsign : signedDecimal pblen = 45 :: decimal pblen.natAbs := by rw [signedDecimal,if_pos h]
  have hroom : Reader.ready.run (ascii "I " ++ 99 :: signedDecimal pblen) = none := by
    rw [Reader.run_append (show Reader.ready.run (ascii "I ") = some [.uint 4] from rfl) (by decide),run_string,hsign]
    rfl
  change Reader.ready.run (ascii "> " ++ 99 :: (signedDecimal namelen ++ (ascii " I c" ++ signedDecimal pblen))) = _
  rw [Reader.run_append (show Reader.ready.run (ascii "> ") = some [.big] from rfl) (by decide),run_string,
    signedDecimal_natCast,Reader.run_decimal]
  change (Reader.run (.sized namelen) (32 :: (ascii "I " ++ 99 :: signedDecimal pblen))).map _ = _
  rw [Reader.run_step (show Reader.step 32 (.sized namelen) = some (.ready,[.char namelen]) from rfl),hroom]
  rfl

/-- The integers that an `I` holds. -/
def Unsigned32 (n : Int) : Prop := 0 ≤ n ∧ n < 2^32

instance (n : Int) : Decidable (Unsigned32 n) := inferInstanceAs (Decidable (_ ∧ _))

/-- Name, room id and length of the name fit their fields. -/
def Packable (name : Bytes) (roomid : Option Int) : Prop := name.length ≤ 65535 ∧ Unsigned32 (roomid.getD 0)

instance (name : Bytes) (roomid : Option Int) : Decidable (Packable name roomid) := inferInstanceAs (Decidable (_ ∧ _))

variable (type uid : Int) (name : Bytes) (msg : α) (protobuf : Protobuf α β) (roomid : Option Int)

/-- The packed fields behind the header, if they fit. -/
private theorem packItems_body (pbstr : Bytes) :
    packItems true [.uint 2,.char name.length,.uint 4,.char pbstr.length]
        [.int name.length,.str name,.int (roomid.getD 0),.str pbstr] =
      if Packable name roomid then some (body name (roomid.getD 0).toNat pbstr) else none := by
  have hend : packItems true [.char pbstr.length] [.str pbstr] = some pbstr := by
    rw [packItems_char,packItems_nil,Option.map_some,List.append_nil]
  rw [packItems_uint,packItems_char,packItems_uint,hend]
  by_cases hn : name.length ≤ 65535
  · rw [packUint_natCast name.length (by decide) (Nat.lt_succ_of_le hn)]
    by_cases hr : Unsigned32 (roomid.getD 0)
    · rw [if_pos ⟨hn,hr⟩,packUint,if_neg (by decide),if_pos ⟨hr.1,hr.2⟩]
      rfl
    · rw [if_neg fun h => hr h.2,(packUint_eq_none (by decide)).mpr fun h => hr ⟨h.1,h.2⟩]
      rfl
  · rw [if_neg fun h => hn h.1,(packUint_eq_none (by decide)).mpr]
    · rfl
    · push_cast
      omega

/-- One `I` in front. -/
private theorem packItems_I {items : List Item} {vs : List Value} (n : Int) :
    packItems true (.uint 4 :: items) (.int n :: vs) =
      if Unsigned32 n then (packItems true items vs).map (toBytes 4 n.toNat ++ ·) else none := by
  rw [packItems_uint]
  by_cases h : Unsigned32 n
  · rw [if_pos h,packUint,if_neg (by decide),if_pos ⟨h.1,h.2⟩]
    rfl
  · rw [if_neg h,(packUint_eq_none (by decide)).mpr fun hc => h ⟨hc.1,hc.2⟩]
    rfl

/-- The format of the header is read first. -/
private theorem packFields_eq {lead : String} {head : Int → List Value} {items : List Item}
    (h : Reader.ready.run (ascii lead) = some (.big :: items)) (hc : 99 ∉ ascii lead) :
    packFields lead head name msg protobuf roomid =
      packItems true (items ++ [.uint 2,.char name.length,.uint 4,.char (protobuf.encode name msg).length])
        (head (2 + name.length + 4 + (protobuf.encode name msg).length) ++
          [.int name.length,.str name,.int (roomid.getD 0),.str (protobuf.encode name msg)]) := by
  rw [packFields,stringPack,parse,packFormat,Reader.run_append h hc,run_body]
  rfl

/-- `pack_raw`: the type, the user id and the body, or an error. -/
theorem packRaw_eq : packRaw type uid name msg protobuf roomid =
    if Unsigned32 type ∧ Packable name roomid then
      some (toBytes 4 type.toNat ++ (uidBytes uid ++ body name (roomid.getD 0).toNat (protobuf.encode name msg)))
    else none := by
  rw [packRaw,packFields_eq name msg protobuf roomid
    (show Reader.ready.run (ascii ">I L") = some (.big :: [.uint 4,.uint 8]) from rfl) (by decide)]
  simp only [List.cons_append,List.nil_append]
  rw [packItems_I,packItems_uint,packItems_body,packUint,if_pos rfl]
  by_cases ht : Unsigned32 type <;> by_cases hp : Packable name roomid <;> simp [ht,hp,uidBytes]

private theorem unsigned32_natCast (n : Nat) : Unsigned32 n ↔ n < 2^32 := by
  rw [Unsigned32]
  omega

/-- `pack_agent`: the type, the length of the body and the body, or an error. -/
theorem packAgent_eq : packAgent type name msg protobuf roomid =
    let b := body name (roomid.getD 0).toNat (protobuf.encode name msg)
    if Unsigned32 type ∧ b.length < 2^32 ∧ Packable name roomid then some (toBytes 4 type.toNat ++ (toBytes 4 b.length ++ b))
    else none := by
  rw [packAgent,packFields_eq name msg protobuf roomid
    (show Reader.ready.run (ascii "> I I") = some (.big :: [.uint 4,.uint 4]) from rfl) (by decide),
    ← length_body name (roomid.getD 0).toNat]
  simp only [List.cons_append,List.nil_append]
  rw [packItems_I,packItems_I,packItems_body,Int.toNat_natCast]
  simp only [unsigned32_natCast]
  by_cases ht : Unsigned32 type <;> by_cases hp : Packable name roomid <;> simp [ht,hp]

/-- `pack`: the length of the body and the body, or an error. -/
theorem pack_eq : pack name msg protobuf roomid =
    let b := body name (roomid.getD 0).toNat (protobuf.encode name msg)
    if b.length < 2^32 ∧ Packable name roomid then some (toBytes 4 b.length ++ b) else none := by
  rw [pack,packFields_eq name msg protobuf roomid
    (show Reader.ready.run (ascii "> I") = some (.big :: [.uint 4]) from rfl) (by decide),
    ← length_body name (roomid.getD 0).toNat]
  simp only [List.cons_append,List.nil_append]
  rw [packItems_I,packItems_body,Int.toNat_natCast]
  simp only [unsigned32_natCast]
  by_cases hp : Packable name roomid <;> simp [hp]

/-- Behind a header of any length, name and payload are found where the body starts. -/
theorem unpackFields_body (header pbstr : Bytes) {room : Nat} (hn : name.length ≤ 65535) (hr : room < 2^32) :
    unpackFields (header.length + 2 + 4) (header.length + 1) (header.length + 3) (header ++ body name room pbstr) =
      some (name,pbstr) := by
  have hlen : stringUnpack (ascii "> H") (header ++ body name room pbstr) (header.length + 1) = some [.int name.length] := by
    rw [stringUnpack_append (show parse (ascii "> H") = some [.big,.uint 2] from rfl),unpackItems_big,body,
      unpackItems_uint (length_toBytes 2 _),unpackUint_toBytes (by decide) (Nat.lt_succ_of_le hn)]
    rfl
  have hpb : ((header ++ body name room pbstr).length : Int) - (header.length + 2 + 4) - name.length = pbstr.length := by
    rw [List.length_append]
    push_cast
    rw [length_body]
    omega
  have hrest : stringUnpack (unpackFormat name.length pbstr.length) (header ++ body name room pbstr) (header.length + 3) =
      some [.str name,.int room,.str pbstr] := by
    have hh : header.length + 3 = (header ++ toBytes 2 name.length).length + 1 := by simp
    rw [body,← List.append_assoc,hh,stringUnpack_append (parse_unpackFormat _ _),unpackItems_big,unpackItems_char,
      unpackItems_uint (length_toBytes 4 _),unpackUint_toBytes (by decide) (by omega)]
    have hlast : unpackItems true [.char pbstr.length] (pbstr ++ []) = some [.str pbstr] := by
      rw [unpackItems_char]
      rfl
    rw [List.append_nil] at hlast
    rw [hlast]
    rfl
  rw [unpackFields,hlen]
  simp only [hpb,hrest]

/-- A string that ends before its name does, or before the room id behind it, is an error. -/
theorem unpackFields_short {k : Nat} {str : Bytes}
    (h : str.length < k + 6 ∨ str.length < k + 6 + ofBytes ((str.drop k).take 2)) :
    unpackFields (k + 2 + 4) (k + 1) (k + 3) str = none := by
  have hf : parse (ascii "> H") = some [.big,.uint 2] := rfl
  rw [unpackFields]
  by_cases hk : str.length < k + 2
  · rw [stringUnpack_uint_short hf hk]
  · have hn : ((str.drop k).take 2).length ≠ 8 := by
      rw [List.length_take]
      omega
    rw [stringUnpack_uint hf (by omega),unpackUint_eq_ofBytes hn]
    have hpb : (str.length : Int) - (k + 2 + 4) - ofBytes ((str.drop k).take 2) < 0 := by omega
    simp only [stringUnpack,parse_unpackFormat_neg _ hpb,Option.bind_eq_bind,Option.bind_none]

theorem unpackUid_append (header rest : Bytes) (hl : -2^63 ≤ uid) (hu : uid < 2^63) :
    unpackUid (header ++ (uidBytes uid ++ rest)) (header.length + 1) = some uid := by
  rw [unpackUid,stringUnpack_append (show parse (ascii "> L") = some [.big,.uint 8] from rfl),unpackItems_big,uidBytes,
    unpackItems_uint (length_toBytes 8 _),unpackUint_eight hl hu]
  rfl

end MyProgram.Protopack
