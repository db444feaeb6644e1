import MyProgram.Protopack.Pack

/-! Whatever the packing functions of `protopack.lua` produce, the unpacking functions
take apart again. -/
namespace MyProgram.Protopack
open Lib LuaPack

variable {α β : Type} {type uid : Int} {name : Bytes} {roomid : Option Int}

section
variable {pbstr : Bytes} {room : Nat} (protobuf : Protobuf α β)

/-- `unpack_raw` behind any type. -/
theorem unpackRaw_body {lead : Bytes} (h4 : lead.length = 4) (hl : -2^63 ≤ uid) (hu : uid < 2^63)
    (hn : name.length ≤ 65535) (hr : room < 2^32) :
    unpackRaw (lead ++ (uidBytes uid ++ body name room pbstr)) protobuf = some (uid,name,protobuf.decode name pbstr) := by
  have huid : unpackUid (lead ++ (uidBytes uid ++ body name room pbstr)) 5 = some uid := by
    have h := unpackUid_append uid lead (body name room pbstr) hl hu
    rwa [h4] at h
  have hfields : unpackFields (4 + 8 + 2 + 4) 13 15 (lead ++ (uidBytes uid ++ body name room pbstr)) = some (name,pbstr) := by
    have h := unpackFields_body name (lead ++ uidBytes uid) pbstr hn hr
    rwa [List.length_append,h4,uidBytes,length_toBytes,List.append_assoc] at h
  rw [unpackRaw,huid,hfields]
  rfl

/-- `unpack_agent` takes the user id that was put in front. -/
theorem unpackAgent_body (hl : -2^63 ≤ uid) (hu : uid < 2^63) (hn : name.length ≤ 65535) (hr : room < 2^32) :
    unpackAgent (uidBytes uid ++ body name room pbstr) protobuf = some (uid,name,protobuf.decode name pbstr) := by
  have huid : unpackUid (uidBytes uid ++ body name room pbstr) 1 = some uid := unpackUid_append uid [] _ hl hu
  have hfields : unpackFields (8 + 2 + 4) 9 11 (uidBytes uid ++ body name room pbstr) = some (name,pbstr) := by
    have h := unpackFields_body name (uidBytes uid) pbstr hn hr
    rwa [uidBytes,length_toBytes] at h
  rw [unpackAgent,huid,hfields]
  rfl

/-- `unpack` behind any length. -/
theorem unpack_body {lead : Bytes} (h4 : lead.length = 4) (hn : name.length ≤ 65535) (hr : room < 2^32) :
    unpack (lead ++ body name room pbstr) protobuf = some (name,protobuf.decode name pbstr) := by
  have hfields : unpackFields (4 + 2 + 4) 5 7 (lead ++ body name room pbstr) = some (name,pbstr) := by
    have h := unpackFields_body name lead pbstr hn hr
    rwa [h4] at h
  rw [unpack,hfields]
  rfl

end

/-- The library that stores a byte string as it is. -/
def plain : Protobuf Bytes Bytes := ⟨fun _ msg => msg,fun _ pbstr => pbstr⟩

/-- For a type, a room id and a name that fit their fields, `unpack_raw` returns the user
id and the name that `pack_raw` was called with and decodes the encoded message; for
others `pack_raw` raises an error. -/
theorem unpackRaw_packRaw (hl : -2^63 ≤ uid) (hu : uid < 2^63) (msg : α) (protobuf : Protobuf α β) :
    (Unsigned32 type → Unsigned32 (roomid.getD 0) → name.length ≤ 65535 →
      ∃ str, packRaw type uid name msg protobuf roomid = some str ∧
        unpackRaw str protobuf = some (uid,name,protobuf.decode name (protobuf.encode name msg))) ∧
    (¬Unsigned32 type ∨ ¬Unsigned32 (roomid.getD 0) ∨ 65535 < name.length →
      packRaw type uid name msg protobuf roomid = none) := by
  rw [packRaw_eq]
  constructor
  · intro ht hr hn
    refine ⟨_,if_pos ⟨ht,hn,hr⟩,?_⟩
    apply unpackRaw_body protobuf (length_toBytes 4 _) hl hu hn
    have := hr.2
    omega
  · intro h
    apply if_neg
    rintro ⟨ht,hn,hr⟩
    rcases h with h | h | h
    · exact h ht
    · exact h hr
    · omega

theorem unpackRaw_packRaw_negative : (∃ str, packRaw 16 (-5) (ascii "pb.Test") [1,2] plain none = some str ∧
      unpackRaw str plain = some (-5,ascii "pb.Test",[1,2])) ∧
    packRaw (2^32) (-5) (ascii "pb.Test") [1,2] plain none = none := by
  have huid : -2^63 ≤ (-5 : Int) ∧ (-5 : Int) < 2^63 := by decide
  exact ⟨(unpackRaw_packRaw huid.1 huid.2 [1,2] plain).1 (by decide) (by decide) (by decide),
    (unpackRaw_packRaw huid.1 huid.2 [1,2] plain).2 (.inl (by decide))⟩

/-- The three layouts differ in their header only: there is one body behind all of them,
and behind each header it is taken apart to the same name and message. -/
theorem layouts_share_body (ht : Unsigned32 type) (hl : -2^63 ≤ uid) (hu : uid < 2^63) (hn : name.length ≤ 65535)
    (hr : Unsigned32 (roomid.getD 0)) (msg : α) (protobuf : Protobuf α β) :
    ∃ b, b = toBytes 2 name.length ++ (name ++ (toBytes 4 (roomid.getD 0).toNat ++ protobuf.encode name msg)) ∧
      (b.length < 2^32 →
        pack name msg protobuf roomid = some (toBytes 4 b.length ++ b) ∧
        packAgent type name msg protobuf roomid = some (toBytes 4 type.toNat ++ (toBytes 4 b.length ++ b)) ∧
        packRaw type uid name msg protobuf roomid = some (toBytes 4 type.toNat ++ (uidBytes uid ++ b))) ∧
      unpack (toBytes 4 b.length ++ b) protobuf = some (name,protobuf.decode name (protobuf.encode name msg)) ∧
      unpackAgent (uidBytes uid ++ b) protobuf = some (uid,name,protobuf.decode name (protobuf.encode name msg)) ∧
      unpackRaw (toBytes 4 type.toNat ++ (uidBytes uid ++ b)) protobuf =
        some (uid,name,protobuf.decode name (protobuf.encode name msg)) := by
  have hroom : (roomid.getD 0).toNat < 2^32 := by
    have := hr.2
    omega
  refine ⟨body name (roomid.getD 0).toNat (protobuf.encode name msg),rfl,fun hb => ⟨?_,?_,?_⟩,?_,?_,?_⟩
  · rw [pack_eq]
    exact if_pos ⟨hb,hn,hr⟩
  · rw [packAgent_eq]
    exact if_pos ⟨ht,hb,hn,hr⟩
  · rw [packRaw_eq]
    exact if_pos ⟨ht,hn,hr⟩
  · exact unpack_body protobuf (length_toBytes 4 _) hn hroom
  · exact unpackAgent_body protobuf hl hu hn hroom
  · exact unpackRaw_body protobuf (length_toBytes 4 _) hl hu hn hroom

theorem layouts_share_body_room : ∃ b, b = toBytes 2 7 ++ (ascii "pb.Test" ++ (toBytes 4 9 ++ [1,2])) ∧
    (b.length < 2^32 →
      pack (ascii "pb.Test") [1,2] plain (some 9) = some (toBytes 4 b.length ++ b) ∧
      packAgent 16 (ascii "pb.Test") [1,2] plain (some 9) = some (toBytes 4 16 ++ (toBytes 4 b.length ++ b)) ∧
      packRaw 16 (-5) (ascii "pb.Test") [1,2] plain (some 9) = some (toBytes 4 16 ++ (uidBytes (-5) ++ b))) ∧
    unpack (toBytes 4 b.length ++ b) plain = some (ascii "pb.Test",[1,2]) ∧
    unpackAgent (uidBytes (-5) ++ b) plain = some (-5,ascii "pb.Test",[1,2]) ∧
    unpackRaw (toBytes 4 16 ++ (uidBytes (-5) ++ b)) plain = some (-5,ascii "pb.Test",[1,2]) := by
  have ht : Unsigned32 16 := by decide
  have huid : -2^63 ≤ (-5 : Int) ∧ (-5 : Int) < 2^63 := by decide
  have hn : (ascii "pb.Test").length ≤ 65535 := by decide
  have hr : Unsigned32 ((some 9 : Option Int).getD 0) := by decide
  exact layouts_share_body ht huid.1 huid.2 hn hr [1,2] plain

end MyProgram.Protopack
