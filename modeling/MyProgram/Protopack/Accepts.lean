import MyProgram.Protopack.RoundTrip

/-! The unpacking functions of `protopack.lua` accept the strings that are long enough,
raise an error for all others and account for every byte. -/
namespace MyProgram.Protopack
open Lib LuaPack

variable {α β : Type} {str : Bytes} {k : Nat}

/-- The string ends before its fixed fields or before the end of its name. The length of
the name stands behind the first `k` bytes. -/
def TooShort (k : Nat) (str : Bytes) : Prop := str.length < k + 6 ∨ str.length < k + 6 + ofBytes ((str.drop k).take 2)

/-- Any 8 bytes are a user id. -/
private theorem exists_uid {u : Bytes} (h : u.length = 8) : ∃ uid : Int, -2^63 ≤ uid ∧ uid < 2^63 ∧ uidBytes uid = u := by
  have hlt := ofBytes_lt u
  rw [h] at hlt
  have hback : toBytes 8 (ofBytes u) = u := by
    rw [← h]
    exact toBytes_ofBytes u
  by_cases hb : ofBytes u < 2^63
  · have hv : ((ofBytes u : Int) % 2^64).toNat = ofBytes u := by omega
    exact ⟨ofBytes u,by omega,by omega,by rw [uidBytes,hv,hback]⟩
  · have hv : (((ofBytes u : Int) - 2^64) % 2^64).toNat = ofBytes u := by omega
    exact ⟨(ofBytes u : Int) - 2^64,by omega,by omega,by rw [uidBytes,hv,hback]⟩

/-- A string that is long enough is a header and a body. -/
private theorem exists_body (h : ¬TooShort k str) : ∃ name room pbstr, name.length ≤ 65535 ∧ room < 2^32 ∧
    str = str.take k ++ body name room pbstr := by
  obtain ⟨h6,hn⟩ := not_or.mp h
  have hlen : ((str.drop k).take 2).length = 2 := by
    rw [List.length_take,List.length_drop]
    omega
  have h16 := ofBytes_lt ((str.drop k).take 2)
  rw [hlen] at h16
  have hname : ((str.drop (k + 2)).take (ofBytes ((str.drop k).take 2))).length = ofBytes ((str.drop k).take 2) := by
    rw [List.length_take,List.length_drop]
    omega
  have hroom : (((str.drop (k + 2)).drop (ofBytes ((str.drop k).take 2))).take 4).length = 4 := by
    rw [List.length_take,List.length_drop,List.length_drop]
    omega
  have h32 := ofBytes_lt (((str.drop (k + 2)).drop (ofBytes ((str.drop k).take 2))).take 4)
  rw [hroom] at h32
  refine ⟨(str.drop (k + 2)).take (ofBytes ((str.drop k).take 2)),
    ofBytes (((str.drop (k + 2)).drop (ofBytes ((str.drop k).take 2))).take 4),
    ((str.drop (k + 2)).drop (ofBytes ((str.drop k).take 2))).drop 4,by omega,by omega,?_⟩
  have htwo := toBytes_ofBytes ((str.drop k).take 2)
  have hfour := toBytes_ofBytes (((str.drop (k + 2)).drop (ofBytes ((str.drop k).take 2))).take 4)
  rw [hlen] at htwo
  rw [hroom] at hfour
  rw [body,hname,htwo,hfour,List.take_append_drop,List.take_append_drop,← List.drop_drop,List.take_append_drop,
    List.take_append_drop]

/-- The header of such a string ends with a user id, if it has 8 bytes. -/
private theorem exists_header (h : ¬TooShort (k + 8) str) : ∃ uid name room pbstr, -2^63 ≤ uid ∧ uid < 2^63 ∧
    name.length ≤ 65535 ∧ room < 2^32 ∧ str = str.take k ++ (uidBytes uid ++ body name room pbstr) := by
  obtain ⟨name,room,pbstr,hn,hr,he⟩ := exists_body h
  have hlen : ((str.drop k).take 8).length = 8 := by
    have := not_or.mp h
    rw [List.length_take,List.length_drop]
    omega
  obtain ⟨uid,hl,hu,huid⟩ := exists_uid hlen
  refine ⟨uid,name,room,pbstr,hl,hu,hn,hr,?_⟩
  rw [huid,← List.append_assoc,← List.take_add]
  exact he

/-- A decoder that fails for short strings and takes all others apart. -/
private theorem outcome {γ : Type} {short : Prop} {split : Prop} {f : Protobuf α β → Option γ}
    (h : short → ∀ protobuf, f protobuf = none) (h' : ¬short → split) (hs : split → ∀ protobuf, f protobuf ≠ none) :
    (∀ protobuf, f protobuf = none ↔ short) ∧ (short ∨ split) := by
  by_cases hshort : short
  · exact ⟨fun protobuf => iff_of_true (h hshort protobuf) hshort,.inl hshort⟩
  · exact ⟨fun protobuf => iff_of_false (hs (h' hshort) protobuf) hshort,.inr (h' hshort)⟩

private theorem unpackRaw_short (h : TooShort 12 str) (protobuf : Protobuf α β) : unpackRaw str protobuf = none := by
  have hf : unpackFields (4 + 8 + 2 + 4) 13 15 str = none := unpackFields_short h
  rw [unpackRaw,hf]
  cases unpackUid str 5 <;> rfl

private theorem unpackAgent_short (h : TooShort 8 str) (protobuf : Protobuf α β) : unpackAgent str protobuf = none := by
  have hf : unpackFields (8 + 2 + 4) 9 11 str = none := unpackFields_short h
  rw [unpackAgent,hf]
  cases unpackUid str 1 <;> rfl

private theorem unpack_short (h : TooShort 4 str) (protobuf : Protobuf α β) : unpack str protobuf = none := by
  have hf : unpackFields (4 + 2 + 4) 5 7 str = none := unpackFields_short h
  rw [unpack,hf]
  rfl

private theorem length_four (h : ¬TooShort k str) (hk : 4 ≤ k) : (str.take 4).length = 4 := by
  have := not_or.mp h
  rw [List.length_take]
  omega

private theorem unpackRaw_split (h : ¬TooShort 12 str) : ∃ uid name room pbstr,
    (∀ protobuf : Protobuf α β, unpackRaw str protobuf = some (uid,name,protobuf.decode name pbstr)) ∧
    str = str.take 4 ++ (uidBytes uid ++ body name room pbstr) := by
  obtain ⟨uid,name,room,pbstr,hl,hu,hn,hr,he⟩ := exists_header (k := 4) h
  refine ⟨uid,name,room,pbstr,fun protobuf => ?_,he⟩
  have hb : unpackRaw (str.take 4 ++ (uidBytes uid ++ body name room pbstr)) protobuf = _ := unpackRaw_body protobuf (length_four h (by decide)) hl hu hn hr
  rwa [← he] at hb

private theorem unpackAgent_split (h : ¬TooShort 8 str) : ∃ uid name room pbstr,
    (∀ protobuf : Protobuf α β, unpackAgent str protobuf = some (uid,name,protobuf.decode name pbstr)) ∧
    str = uidBytes uid ++ body name room pbstr := by
  obtain ⟨uid,name,room,pbstr,hl,hu,hn,hr,he⟩ := exists_header (k := 0) h
  rw [List.take_zero,List.nil_append] at he
  refine ⟨uid,name,room,pbstr,fun protobuf => ?_,he⟩
  have hb : unpackAgent (uidBytes uid ++ body name room pbstr) protobuf = _ := unpackAgent_body protobuf hl hu hn hr
  rwa [← he] at hb

private theorem unpack_split (h : ¬TooShort 4 str) : ∃ name room pbstr,
    (∀ protobuf : Protobuf α β, unpack str protobuf = some (name,protobuf.decode name pbstr)) ∧
    str = str.take 4 ++ body name room pbstr := by
  obtain ⟨name,room,pbstr,hn,hr,he⟩ := exists_body h
  refine ⟨name,room,pbstr,fun protobuf => ?_,he⟩
  have hb : unpack (str.take 4 ++ body name room pbstr) protobuf = _ := unpack_body protobuf (length_four h (by decide)) hn hr
  rwa [← he] at hb

/-- `unpack_raw`, `unpack_agent` and `unpack` raise an error if and only if the string is
too short, and otherwise the values they extract are the whole string. -/
theorem unpack_accepts (str : Bytes) :
    (∀ protobuf : Protobuf α β, unpackRaw str protobuf = none ↔
      str.length < 18 ∨ str.length < 18 + ofBytes ((str.drop 12).take 2)) ∧
    (TooShort 12 str ∨ ∃ uid name room pbstr,
      (∀ protobuf : Protobuf α β, unpackRaw str protobuf = some (uid,name,protobuf.decode name pbstr)) ∧
      str = str.take 4 ++ (uidBytes uid ++ (toBytes 2 name.length ++ (name ++ (toBytes 4 room ++ pbstr))))) ∧
    (∀ protobuf : Protobuf α β, unpackAgent str protobuf = none ↔
      str.length < 14 ∨ str.length < 14 + ofBytes ((str.drop 8).take 2)) ∧
    (TooShort 8 str ∨ ∃ uid name room pbstr,
      (∀ protobuf : Protobuf α β, unpackAgent str protobuf = some (uid,name,protobuf.decode name pbstr)) ∧
      str = uidBytes uid ++ (toBytes 2 name.length ++ (name ++ (toBytes 4 room ++ pbstr)))) ∧
    (∀ protobuf : Protobuf α β, unpack str protobuf = none ↔
      str.length < 10 ∨ str.length < 10 + ofBytes ((str.drop 4).take 2)) ∧
    (TooShort 4 str ∨ ∃ name room pbstr,
      (∀ protobuf : Protobuf α β, unpack str protobuf = some (name,protobuf.decode name pbstr)) ∧
      str = str.take 4 ++ (toBytes 2 name.length ++ (name ++ (toBytes 4 room ++ pbstr)))) := by
  have hraw := outcome (f := fun protobuf : Protobuf α β => unpackRaw str protobuf) unpackRaw_short unpackRaw_split
    (by rintro ⟨uid,name,room,pbstr,hb,_⟩ protobuf; rw [hb]; simp)
  have hagent := outcome (f := fun protobuf : Protobuf α β => unpackAgent str protobuf) unpackAgent_short unpackAgent_split
    (by rintro ⟨uid,name,room,pbstr,hb,_⟩ protobuf; rw [hb]; simp)
  have hplain := outcome (f := fun protobuf : Protobuf α β => unpack str protobuf) unpack_short unpack_split
    (by rintro ⟨name,room,pbstr,hb,_⟩ protobuf; rw [hb]; simp)
  exact ⟨hraw.1,hraw.2,hagent.1,hagent.2,hplain.1,hplain.2⟩

end MyProgram.Protopack
