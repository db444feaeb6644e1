import MyProgram.Lib.CString

/-! The binary formats of Lua's `string.pack` and `string.unpack`, without alignment,
for unsigned integers and strings of fixed size. An error that Lua raises is `none`. -/
namespace MyProgram.Lib.LuaPack

/-- A Lua value that is packed or unpacked. -/
inductive Value where
  | int (n : Int)
  | str (s : Bytes)
  deriving DecidableEq, Repr

/-- An option of a format string. -/
inductive Item where
  | big
  | little
  | uint (size : Nat)
  | char (size : Nat)
  deriving DecidableEq, Repr

/-- Where the reader of a format string is: between options, behind a `c` whose size is
missing, or inside the size. -/
inductive Reader where
  | ready
  | unsized
  | sized (n : Nat)
  deriving DecidableEq, Repr

namespace Reader

/-- An option without a size: `>`, `<`, a blank, `I`, `L`, `H` and `c`. -/
def letter (b : UInt8) : Option (Reader × List Item) :=
  if b = 62 then some (ready,[.big])
  else if b = 60 then some (ready,[.little])
  else if b = 32 then some (ready,[])
  else if b = 73 then some (ready,[.uint 4])
  else if b = 76 then some (ready,[.uint 8])
  else if b = 72 then some (ready,[.uint 2])
  else if b = 99 then some (unsized,[])
  else none

def step (b : UInt8) : Reader → Option (Reader × List Item)
  | ready => letter b
  | unsized => (digit 10 b).map fun d => (sized d,[])
  | sized n => match digit 10 b with
    | some d => some (sized (10 * n + d),[])
    | none => (letter b).map fun (r,l) => (r,.char n :: l)

def finish : Reader → Option (List Item)
  | ready => some []
  | unsized => none
  | sized n => some [.char n]

/-- The options of a format string. -/
def run : Reader → Bytes → Option (List Item)
  | r, [] => r.finish
  | r, b :: fmt => (r.step b).bind fun (r,l) => (run r fmt).map (l ++ ·)

end Reader

def parse (fmt : Bytes) : Option (List Item) := Reader.ready.run fmt

/-- The bytes of an unsigned integer: any value for the size of a Lua integer, which is
taken modulo 2^64, and one that fits for smaller sizes. -/
def packUint (size : Nat) (n : Int) : Option Bytes :=
  if size = 8 then some (toBytes 8 (n % 2^64).toNat)
  else if 0 ≤ n ∧ n < 256^size then some (toBytes size n.toNat)
  else none

/-- A value of 8 bytes becomes a Lua integer, which is signed. -/
def unpackUint (l : Bytes) : Int :=
  if l.length = 8 ∧ 2^63 ≤ ofBytes l then (ofBytes l : Int) - 2^64 else ofBytes l

/-- Pack the values; `big` is the current byte order. -/
def packItems (big : Bool) : List Item → List Value → Option Bytes
  | [], _ => some []
  | .big :: items, vs => packItems true items vs
  | .little :: items, vs => packItems false items vs
  | .uint size :: items, .int n :: vs => do
    let l ← packUint size n
    pure ((if big then l else l.reverse) ++ (← packItems big items vs))
  | .char size :: items, .str s :: vs => do
    if size < s.length then none
    else pure (s ++ List.replicate (size - s.length) 0 ++ (← packItems big items vs))
  | .uint _ :: _, _ | .char _ :: _, _ => none

/-- The values in the bytes that are left. -/
def unpackItems (big : Bool) : List Item → Bytes → Option (List Value)
  | [], _ => some []
  | .big :: items, s => unpackItems true items s
  | .little :: items, s => unpackItems false items s
  | .uint size :: items, s => do
    if s.length < size then none
    else
      let l := s.take size
      pure (.int (unpackUint (if big then l else l.reverse)) :: (← unpackItems big items (s.drop size)))
  | .char size :: items, s => do
    if s.length < size then none
    else pure (.str (s.take size) :: (← unpackItems big items (s.drop size)))

/-- `string.pack`. The byte order is the machine's, little endian, until the format
changes it. -/
def stringPack (fmt : Bytes) (vs : List Value) : Option Bytes := do
  packItems false (← parse fmt) vs

/-- `string.unpack` from the position `pos` on, which counts from 1. -/
def stringUnpack (fmt s : Bytes) (pos : Nat) : Option (List Value) := do
  let items ← parse fmt
  if pos = 0 ∨ s.length < pos - 1 then none
  else unpackItems false items (s.drop (pos - 1))

variable {items : List Item} {vs : List Value} {big : Bool} {size : Nat} {n : Int} {s rest : Bytes}

namespace Reader

theorem run_step {b : UInt8} {r r' : Reader} {l : List Item} (h : r.step b = some (r',l)) (fmt : Bytes) :
    run r (b :: fmt) = (run r' fmt).map (l ++ ·) := by
  rw [run,h]
  rfl

private theorem letter_ready {b : UInt8} {r : Reader} {l : List Item} (h : letter b = some (r,l)) (hb : b ≠ 99) : r = ready := by
  unfold letter at h
  split_ifs at h <;> simp_all

/-- A format without strings in front of another. -/
theorem run_append {l : Bytes} {items : List Item} (h : run ready l = some items) (hc : 99 ∉ l) (fmt : Bytes) :
    run ready (l ++ fmt) = (run ready fmt).map (items ++ ·) := by
  induction l generalizing items with
  | nil =>
    cases h
    exact Option.map_id'.symm
  | cons b l ih =>
    obtain ⟨hb,hl⟩ := not_or.mp (mt List.mem_cons.mpr hc)
    rw [run] at h
    obtain ⟨⟨r,out⟩,hs,h⟩ := Option.bind_eq_some_iff.mp h
    obtain ⟨rest,hr,rfl⟩ := Option.map_eq_some_iff.mp h
    have hready := letter_ready hs (Ne.symm hb)
    subst hready
    rw [List.cons_append,run_step hs,ih hr hl,Option.map_map]
    simp only [Function.comp_def,List.append_assoc]

private theorem run_digit {acc d : Nat} {b : UInt8} (h : digit 10 b = some d) (fmt : Bytes) :
    run (sized acc) (b :: fmt) = run (sized (10 * acc + d)) fmt := by
  rw [run_step (show step b (sized acc) = some (sized (10 * acc + d),[]) by rw [step,h])]
  exact Option.map_id'

/-- A printed number is read as the size behind a `c`. -/
theorem run_decimal (n : Nat) (fmt : Bytes) : run unsized (decimal n ++ fmt) = run (sized n) fmt := by
  obtain ⟨b,l,hl⟩ := List.exists_cons_of_ne_nil (decimal_ne_nil n)
  obtain ⟨d,hd⟩ : ∃ d, digit 10 b = some d := ⟨_,digit_ten (mem_decimal (n := n) (by rw [hl]; exact List.mem_cons_self))⟩
  have hfirst : run unsized (decimal n ++ fmt) = run (sized 0) (decimal n ++ fmt) := by
    rw [hl,List.cons_append,run_digit hd,Nat.mul_zero,Nat.zero_add,
      run_step (show step b unsized = some (sized d,[]) by rw [step,hd]; rfl)]
    exact Option.map_id'
  rw [hfirst]
  exact read_decimal (fun acc => run (sized acc)) (fun acc b d s h => run_digit h s) n fmt

end Reader

theorem packUint_eq_none (h : size ≠ 8) : packUint size n = none ↔ ¬(0 ≤ n ∧ n < 256^size) := by
  rw [packUint,if_neg h]
  split <;> simp_all

theorem packUint_natCast (m : Nat) (h : size ≠ 8) (hm : m < 256^size) : packUint size m = some (toBytes size m) := by
  rw [packUint,if_neg h,if_pos ⟨by omega,by exact_mod_cast hm⟩,Int.toNat_natCast]

theorem packItems_nil (vs : List Value) : packItems big [] vs = some [] := rfl

theorem packItems_uint (n : Int) : packItems true (.uint size :: items) (.int n :: vs) =
    (packUint size n).bind fun l => (packItems true items vs).map (l ++ ·) := by
  change (packUint size n).bind _ = _
  cases packUint size n with
  | none => rfl
  | some l => cases packItems true items vs <;> rfl

theorem packItems_char (s : Bytes) : packItems big (.char s.length :: items) (.str s :: vs) =
    (packItems big items vs).map (s ++ ·) := by
  change (if s.length < s.length then none else _) = _
  rw [if_neg (Nat.lt_irrefl _),Nat.sub_self,List.replicate_zero,List.append_nil]
  cases packItems big items vs <;> rfl

theorem unpackItems_big : unpackItems big (.big :: items) s = unpackItems true items s := rfl

/-- The integer is read once its bytes are there. -/
theorem unpackItems_cons_uint : unpackItems true (.uint size :: items) s =
    if s.length < size then none else (unpackItems true items (s.drop size)).map (.int (unpackUint (s.take size)) :: ·) := by
  change (if s.length < size then none else _) = _
  cases unpackItems true items (s.drop size) <;> rfl

theorem unpackItems_uint (h : s.length = size) : unpackItems true (.uint size :: items) (s ++ rest) =
    (unpackItems true items rest).map (.int (unpackUint s) :: ·) := by
  subst h
  rw [unpackItems_cons_uint,if_neg (by simp),List.take_left,List.drop_left]

theorem unpackItems_char (s : Bytes) : unpackItems big (.char s.length :: items) (s ++ rest) =
    (unpackItems big items rest).map (.str s :: ·) := by
  change (if (s ++ rest).length < s.length then none else _) = _
  rw [if_neg (by simp),List.take_left,List.drop_left]
  cases unpackItems big items rest <;> rfl

theorem unpackUint_toBytes {m : Nat} (h : size ≠ 8) (hm : m < 256^size) : unpackUint (toBytes size m) = m := by
  rw [unpackUint,if_neg (by simp [h]),ofBytes_toBytes size m hm]

/-- A Lua integer survives 8 bytes, negative ones included. -/
theorem unpackUint_eight (hl : -2^63 ≤ n) (hu : n < 2^63) : unpackUint (toBytes 8 (n % 2^64).toNat) = n := by
  have hv : ofBytes (toBytes 8 (n % 2^64).toNat) = (n % 2^64).toNat := by
    apply ofBytes_toBytes
    omega
  rw [unpackUint,hv,length_toBytes]
  split <;> omega

/-- Unpacking behind a header. -/
theorem stringUnpack_append {fmt header : Bytes} (hf : parse fmt = some items) :
    stringUnpack fmt (header ++ s) (header.length + 1) = unpackItems false items s := by
  rw [stringUnpack,hf]
  change (if header.length + 1 = 0 ∨ (header ++ s).length < header.length + 1 - 1 then none else _) = _
  rw [if_neg (by simp),Nat.add_sub_cancel,List.drop_left]

/-- An integer that ends behind the last byte is an error. -/
theorem stringUnpack_uint_short {fmt : Bytes} {k : Nat} (hf : parse fmt = some [.big,.uint size]) (h : s.length < k + size) :
    stringUnpack fmt s (k + 1) = none := by
  rw [stringUnpack,hf]
  change (if k + 1 = 0 ∨ s.length < k + 1 - 1 then none else _) = _
  split
  · rfl
  · rw [Nat.add_sub_cancel,unpackItems_big,unpackItems_cons_uint,if_pos (by rw [List.length_drop]; omega)]

/-- The integers of the other sizes than 8 are not negative. -/
theorem unpackUint_eq_ofBytes {l : Bytes} (h : l.length ≠ 8) : unpackUint l = ofBytes l := by
  rw [unpackUint,if_neg fun h' => h h'.1]

theorem stringUnpack_uint {fmt : Bytes} {k : Nat} (hf : parse fmt = some [.big,.uint size]) (h : k + size ≤ s.length) :
    stringUnpack fmt s (k + 1) = some [.int (unpackUint ((s.drop k).take size))] := by
  rw [stringUnpack,hf]
  change (if k + 1 = 0 ∨ s.length < k + 1 - 1 then none else _) = _
  rw [if_neg (by omega),Nat.add_sub_cancel,unpackItems_big,unpackItems_cons_uint,if_neg (by rw [List.length_drop]; omega)]
  rfl

end MyProgram.Lib.LuaPack
