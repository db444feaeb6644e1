import MyProgram.Websocket.Model

/-! A frame that is written is read as what it was. -/
namespace MyProgram.Websocket
open Lib LuaPack

/-- Everything that is written. -/
def written (fx : List Effect) : Bytes := fx.flatMap fun
  | .write s => s
  | .message _ _ | .ping | .pong | .close _ _ => []

/-- A frame of any peer: the last one of its message or not, with a masking key or without. -/
structure Frame where
  fin : Bool
  op : Op
  key : Option Bytes
  payload : Bytes
  deriving DecidableEq, Repr

/-- What the code relies on in `crypt.xor_str`: masking twice with a key gives the text. -/
structure Masks (xorStr : Bytes → Bytes → Bytes) : Prop where
  length : ∀ s k, k.length = 4 → (xorStr s k).length = s.length
  twice : ∀ s k, k.length = 4 → xorStr (xorStr s k) k = s

namespace Frame

/-- The bytes of a frame. -/
def bytes (xorStr : Bytes → Bytes → Bytes) (f : Frame) : Bytes :=
  header ((if f.fin then 0x80 else 0) ||| f.op.code) (if f.key.isSome then 0x80 else 0x00) f.payload.length ++
    (f.key.getD [] ++ unmask xorStr f.key f.payload)

/-- Keys are of four bytes, and a payload is a Lua string. -/
def Valid (f : Frame) : Prop := (∀ k ∈ f.key, k.length = 4) ∧ f.payload.length < 2^63

end Frame

variable {xorStr : Bytes → Bytes → Bytes} {f : Frame} {s s' rest : Bytes}

@[simp] theorem read_append {n : Nat} (h : s.length = n) (rest : Bytes) : read n (s ++ rest) = .ok (s,rest) [] :=
  takeBytes_append h rest

theorem read_short {n : Nat} (h : s.length < n) : read n s = .fail .assertion .socketError := takeBytes_short h

theorem ofCode_code (op : Op) : Op.ofCode op.code = some op := by cases op <;> rfl

theorem read_two (a b : UInt8) (rest : Bytes) : read 2 ([a,b] ++ rest) = .ok ([a,b],rest) [] := read_append rfl rest

/-- The first byte gives the flag and the opcode back. -/
theorem first_byte (fin : Bool) (op : Op) :
    decide ((UInt8.ofNat ((if fin then 0x80 else 0) ||| op.code)).toNat &&& 0x80 ≠ 0) = fin ∧
      (UInt8.ofNat ((if fin then 0x80 else 0) ||| op.code)).toNat &&& 0x0f = op.code := by
  cases fin <;> cases op <;> decide

/-- The second byte gives the mask bit and the short length back. -/
theorem second_byte (masked : Bool) (n : Nat) (h : n < 128) :
    decide ((UInt8.ofNat ((if masked then 0x80 else 0) ||| n)).toNat &&& 0x80 ≠ 0) = masked ∧
      (UInt8.ofNat ((if masked then 0x80 else 0) ||| n)).toNat &&& 0x7f = n := by
  revert n
  cases masked <;> decide

/-- The header is two bytes and a length, which is read back. -/
theorem header_eq (v1 : Nat) (masked : Bool) (len : Nat) (h : len < 2^63) : ∃ n l, n < 128 ∧
    header v1 (if masked then 0x80 else 0x00) len = [UInt8.ofNat v1,UInt8.ofNat ((if masked then 0x80 else 0) ||| n)] ++ l ∧
      (∀ rest, readLength n (l ++ rest) = .ok (len,rest) []) ∧
      ∀ s : Bytes, s.length < l.length → readLength n s = .fail .assertion .socketError := by
  unfold header
  split
  · rename_i hlt
    refine ⟨len,[],by omega,by simp,fun rest => ?_,by simp⟩
    rw [readLength,if_neg (by omega),if_neg (by omega)]
    rfl
  · split
    · rename_i hle
      refine ⟨126,toBytes 2 len,by omega,rfl,fun rest => ?_,fun s hs => ?_⟩
      · rw [readLength,if_pos rfl,read_append (length_toBytes 2 len),Act.bind_ok]
        dsimp only
        rw [unpackUint_toBytes (by decide) (show len < 256^2 by omega)]
        rfl
      · rw [length_toBytes] at hs
        rw [readLength,if_pos rfl,read_short hs,Act.bind_fail]
    · refine ⟨127,toBytes 8 len,by omega,rfl,fun rest => ?_,fun s hs => ?_⟩
      · rw [readLength,if_neg (by omega),if_pos rfl,read_append (length_toBytes 8 len),Act.bind_ok]
        dsimp only
        have hread := unpackUint_eight (n := len) (by omega) (by omega)
        have hmod : ((len : Int) % 2^64).toNat = len := by omega
        rw [hmod] at hread
        rw [hread]
        rfl
      · rw [length_toBytes] at hs
        rw [readLength,if_neg (by omega),if_pos rfl,read_short hs,Act.bind_fail]

theorem length_unmask (hx : Masks xorStr) (hf : f.Valid) : (unmask xorStr f.key f.payload).length = f.payload.length := by
  cases hk : f.key with
  | none => rfl
  | some k => exact hx.length _ k (hf.1 k hk)

/-- Reading takes exactly the bytes of the frame. A server does not read a long one. -/
theorem readFrame_bytes (hx : Masks xorStr) (hf : f.Valid) (server : Bool) (rest : Bytes) :
    readFrame xorStr server (f.bytes xorStr ++ rest) =
      if server = true ∧ f.payload.length > MAX_FRAME_SIZE then .fail .assertion .tooLarge
      else .ok ((f.fin,f.op,f.payload),rest) [] := by
  obtain ⟨n,l,hn,hh,hlen,_⟩ := header_eq ((if f.fin then 0x80 else 0) ||| f.op.code) f.key.isSome f.payload.length hf.2
  obtain ⟨h₁,h₂⟩ := first_byte f.fin f.op
  obtain ⟨h₃,h₄⟩ := second_byte f.key.isSome n hn
  have hbytes : f.bytes xorStr ++ rest = [UInt8.ofNat ((if f.fin then 0x80 else 0) ||| f.op.code),
      UInt8.ofNat ((if f.key.isSome then 0x80 else 0) ||| n)] ++ (l ++ (f.key.getD [] ++ (unmask xorStr f.key f.payload ++ rest))) := by
    rw [Frame.bytes,hh]
    simp only [List.append_assoc]
  have hkey : readKey f.key.isSome (f.key.getD [] ++ (unmask xorStr f.key f.payload ++ rest)) =
      .ok (f.key,unmask xorStr f.key f.payload ++ rest) [] := by
    cases hk : f.key with
    | none => rfl
    | some k =>
      rw [Option.isSome_some,readKey,if_pos rfl,Option.getD_some,read_append (hf.1 k hk)]
      rfl
  have hl := length_unmask hx hf
  have hpay : readPayload f.payload.length (unmask xorStr f.key f.payload ++ rest) = .ok (unmask xorStr f.key f.payload,rest) [] := by
    rw [readPayload]
    split
    · exact read_append (by rw [hl]; simp) rest
    · have hnil : unmask xorStr f.key f.payload = [] := List.length_eq_zero_iff.mp (by rw [hl]; omega)
      rw [hnil]
      rfl
  have hun : unmask xorStr f.key (unmask xorStr f.key f.payload) = f.payload := by
    cases hk : f.key with
    | none => rfl
    | some k => exact hx.twice _ k (hf.1 k hk)
  rw [hbytes,readFrame,read_two]
  simp only [Act.bind_ok,Act.after_nil,List.getD_cons_zero,List.getD_cons_succ,h₁,h₂,h₃,h₄,hlen,ofCode_code,hkey,hpay,hun]
  split
  · rename_i h
    rw [if_pos ⟨h.1,by exact_mod_cast h.2⟩]
  · rename_i h
    rw [if_neg fun h' => h ⟨h'.1,by exact_mod_cast h'.2⟩]
    rfl

/-- From a frame that is not all there, nothing is read. -/
theorem readFrame_beginning (hx : Masks xorStr) (hf : f.Valid) (server : Bool) (hs : s <+: f.bytes xorStr) (hne : s ≠ f.bytes xorStr) :
    readFrame xorStr server s = .fail .assertion .socketError ∨
      readFrame xorStr server s = .fail .assertion .tooLarge ∧ server = true ∧ f.payload.length > MAX_FRAME_SIZE := by
  obtain ⟨n,l,hn,hh,hlen,hshort⟩ := header_eq ((if f.fin then 0x80 else 0) ||| f.op.code) f.key.isSome f.payload.length hf.2
  obtain ⟨h₃,h₄⟩ := second_byte f.key.isSome n hn
  rw [Frame.bytes,hh,List.append_assoc] at hs hne
  rcases beginning_append hs hne with ⟨_,h⟩ | ⟨s₁,rfl,hs,hne⟩
  · have h2 : s.length < 2 := h
    exact .inl (by rw [readFrame,read_short h2,Act.bind_fail])
  rw [readFrame,read_two]
  simp only [Act.bind_ok,Act.after_nil,List.getD_cons_zero,List.getD_cons_succ,h₃,h₄]
  rcases beginning_append hs hne with ⟨_,h⟩ | ⟨s₂,rfl,hs,hne⟩
  · exact .inl (by rw [hshort s₁ h,Act.bind_fail])
  simp only [hlen,Act.bind_ok,Act.after_nil]
  split
  · rename_i h
    exact .inr ⟨rfl,h.1,by exact_mod_cast h.2⟩
  refine .inl ?_
  have hkey : ∀ {t}, t <+: f.key.getD [] ++ unmask xorStr f.key f.payload → t ≠ f.key.getD [] ++ unmask xorStr f.key f.payload →
      readKey f.key.isSome t = .fail .assertion .socketError ∨ ∃ t', readKey f.key.isSome t = .ok (f.key,t') [] ∧
        t'.length < f.payload.length := by
    intro t ht htne
    have hless : ∀ t', t' <+: unmask xorStr f.key f.payload → t' ≠ unmask xorStr f.key f.payload → t'.length < f.payload.length := by
      intro t' h h'
      rw [← length_unmask hx hf]
      exact Nat.lt_of_le_of_ne h.length_le fun he => h' (h.eq_of_length he)
    cases hk : f.key with
    | none =>
      rw [hk] at ht htne hless
      exact .inr ⟨t,rfl,hless t ht htne⟩
    | some k =>
      rw [hk] at ht htne hless
      have hlk := hf.1 k hk
      rcases beginning_append ht htne with ⟨_,h⟩ | ⟨t',rfl,h,h'⟩
      · refine .inl ?_
        rw [Option.isSome_some,readKey,if_pos rfl,read_short (by rwa [Option.getD_some,hlk] at h),Act.bind_fail]
      · refine .inr ⟨t',?_,hless t' h h'⟩
        rw [Option.isSome_some,readKey,if_pos rfl,Option.getD_some,read_append hlk]
        rfl
  rcases hkey hs hne with h | ⟨t',h,hl⟩
  · rw [h,Act.bind_fail]
  · simp only [h,Act.bind_ok,Act.after_nil]
    rw [readPayload,if_pos (by omega),read_short (by simpa using hl),Act.bind_fail]

theorem packKey_eq {k : Nat} (h : k < 2^32) : packKey k = .ok (toBytes 4 k) [] := if_pos h

/-- The key is written, and the payload is masked. -/
theorem maskPayload_eq (payload : Bytes) (key : Option Nat) (hk : ∀ k ∈ key, k < 2^32) : ∃ fx,
    maskPayload xorStr payload key = .ok (unmask xorStr (key.map (toBytes 4)) payload) fx ∧
      written fx = (key.map (toBytes 4)).getD [] ∧ ∀ e ∈ fx, ∃ s, e = .write s := by
  cases key with
  | none =>
    refine ⟨[],?_,rfl,by simp⟩
    rw [maskPayload]
    rfl
  | some k =>
    refine ⟨[.write (toBytes 4 k)],?_,by simp [written],by simp⟩
    rw [maskPayload,packKey_eq (hk k rfl)]
    rfl

/-- A frame is written in up to three pieces. -/
theorem writeFrame_eq (hx : Masks xorStr) (op : Op) (payload : Bytes) (key : Option Nat) (hk : ∀ k ∈ key, k < 2^32) :
    ∃ fx, writeFrame xorStr op payload key = .ok () fx ∧
      written fx = Frame.bytes xorStr ⟨true,op,key.map (toBytes 4),payload⟩ ∧ ∀ e ∈ fx, ∃ s, e = .write s := by
  obtain ⟨fx,he,hw,ha⟩ := @maskPayload_eq xorStr payload key hk
  have hl : (unmask xorStr (key.map (toBytes 4)) payload).length = payload.length := by
    cases key with
    | none => rfl
    | some k => exact hx.length payload _ (length_toBytes 4 k)
  have hbytes : Frame.bytes xorStr ⟨true,op,key.map (toBytes 4),payload⟩ =
      header (0x80 ||| op.code) (if key.isSome then 0x80 else 0x00) payload.length ++
        ((key.map (toBytes 4)).getD [] ++ unmask xorStr (key.map (toBytes 4)) payload) := by
    rw [Frame.bytes,if_pos rfl,Option.isSome_map]
  rw [writeFrame,hbytes,he]
  generalize header _ _ _ = h
  simp only [Act.emit_eq,Act.bind_ok]
  by_cases hp : payload.length > 0
  · rw [if_pos hp]
    refine ⟨_,rfl,?_,?_⟩
    · simp [written,← hw]
    · simpa [or_imp,forall_and] using ha
  · have hnil : unmask xorStr (key.map (toBytes 4)) payload = [] := List.length_eq_zero_iff.mp (by omega)
    rw [if_neg hp,hnil]
    refine ⟨_,rfl,?_,?_⟩
    · simp [written,← hw]
    · simpa using ha

/-- Whatever is written by one side is read by the other side as it was, and exactly its bytes
are taken, masked or not and in each of the three forms of the length. A server
refuses frames over its limit. While some bytes are missing no frame is read. -/
theorem frame_round_trip (server : Bool) (op : Op) (payload : Bytes) (key : Option Nat) (rest : Bytes) (hx : Masks xorStr)
    (hk : ∀ k ∈ key, k < 2^32) (hl : payload.length < 2^63) : ∃ fx, writeFrame xorStr op payload key = .ok () fx ∧
      readFrame xorStr server (written fx ++ rest) = (if server = true ∧ payload.length > MAX_FRAME_SIZE then .fail .assertion .tooLarge
        else .ok ((true,op,payload),rest) []) ∧
      ∀ s, s <+: written fx → s ≠ written fx → readFrame xorStr server s = .fail .assertion .socketError ∨
        readFrame xorStr server s = .fail .assertion .tooLarge ∧ server = true ∧ payload.length > MAX_FRAME_SIZE := by
  obtain ⟨fx,he,hw,_⟩ := writeFrame_eq hx op payload key hk
  have hf : Frame.Valid ⟨true,op,key.map (toBytes 4),payload⟩ := by
    refine ⟨fun k hk => ?_,hl⟩
    obtain ⟨n,_,rfl⟩ := Option.map_eq_some_iff.mp hk
    exact length_toBytes 4 n
  refine ⟨fx,he,?_,fun s hs hne => ?_⟩
  · rw [hw]
    exact readFrame_bytes hx hf server rest
  · rw [hw] at hs hne
    exact readFrame_beginning hx hf server hs hne

/-- The code of a close frame without a reason is not read. -/
theorem readClose_closePayload {code : Nat} (h : code < 2^16) (reason : Bytes) :
    (closePayload (some code) reason).map readClose = some (if reason = [] then (none,none) else (some code,some reason)) := by
  rw [closePayload,packUint_natCast code (by decide) (by omega),Option.map_some,Option.map_some]
  have hl := length_toBytes 2 code
  by_cases hr : reason = []
  · rw [if_pos hr,hr,List.append_nil,readClose,if_neg (by omega)]
  · have hpos := List.length_pos_iff.mpr hr
    rw [if_neg hr,readClose,if_pos (by rw [List.length_append]; omega),List.take_left' hl,List.drop_left' hl,
      ofBytes_toBytes 2 code (by omega)]

/-- Masking with the bytes of a key in turn. -/
def xorBytes (s k : Bytes) : Bytes := s.zipIdx.map fun (b,i) => b ^^^ k.getD (i % 4) 0

theorem masks_xorBytes : Masks xorBytes := by
  refine ⟨fun s k _ => by simp [xorBytes],fun s k _ => ?_⟩
  refine List.ext_getElem (by simp [xorBytes]) fun i h _ => ?_
  simp [xorBytes,UInt8.xor_assoc]

theorem frame_round_trip_masked : readFrame xorBytes true ([0x82,0x83,0,0,1,2,0x41,0x42,0x42,0x05]) =
    .ok ((true,.binary,[0x41,0x42,0x43]),[0x05]) [] := by
  obtain ⟨fx,he,hr,_⟩ := frame_round_trip true .binary [0x41,0x42,0x43] (some 258) [0x05] masks_xorBytes
    (by simp) (by decide)
  have hfx : writeFrame xorBytes .binary [0x41,0x42,0x43] (some 258) =
      .ok () [.write [0x82,0x83],.write [0,0,1,2],.write [0x41,0x42,0x42]] := by decide
  rw [hfx] at he
  cases he
  exact hr

end MyProgram.Websocket
