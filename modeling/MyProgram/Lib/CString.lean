import MyProgram.Lib.CInt

/-! NUL-terminated strings in byte memory, and the C library functions that
convert between them and integers. -/
namespace MyProgram.Lib

/-- The bytes of an ASCII text. -/
def ascii (s : String) : Bytes := s.toList.map fun c => UInt8.ofNat c.toNat

/-- The string that starts at `p`, or nothing when no NUL follows in memory. -/
def cstring (mem : Bytes) (p : Nat) : Option Bytes :=
  if 0 ∈ mem.drop p then some ((mem.drop p).takeWhile (· ≠ 0)) else none

/-- `isspace` in the C locale. -/
def isSpace (b : UInt8) : Bool := b = 32 || (9 ≤ b && b ≤ 13)

/-- The value of a digit in bases up to 16. -/
def digit (base : Nat) (b : UInt8) : Option Nat :=
  let n := b.toNat
  let v := if 48 ≤ n ∧ n ≤ 57 then n - 48 else if 97 ≤ n ∧ n ≤ 102 then n - 87
    else if 65 ≤ n ∧ n ≤ 70 then n - 55 else base
  if v < base then some v else none

/-- Accumulate the leading digits of a string. -/
def digits (base : Nat) (acc : Nat) : Bytes → Nat
  | [] => acc
  | b :: s => match digit base b with
    | some d => digits base (base * acc + d) s
    | none => acc

/-- An optional sign: whether it is a minus, and what follows. -/
def signed : Bytes → Bool × Bytes
  | 45 :: s => (true,s)
  | 43 :: s => (false,s)
  | s => (false,s)

/-- The `0x` that base 16 allows before a hexadecimal digit. -/
def hexMark (base : Nat) : Bytes → Bytes
  | 48 :: x :: b :: s => if base = 16 ∧ (x = 120 ∨ x = 88) ∧ (digit 16 b).isSome then b :: s else 48 :: x :: b :: s
  | s => s

/-- Sign and magnitude of the number at the start of a string. -/
def number (base : Nat) (s : Bytes) : Bool × Nat :=
  let (minus,s) := signed (s.dropWhile isSpace)
  (minus,digits base 0 (hexMark base s))

/-- `strtol` with a 64-bit `long`. -/
def strtol (base : Nat) (s : Bytes) : Int :=
  let (minus,n) := number base s
  if minus then max (-2^63) (-n) else min (2^63 - 1) n

/-- `strtoul` with a 64-bit `unsigned long`. -/
def strtoul (base : Nat) (s : Bytes) : Nat :=
  let (minus,n) := number base s
  if 2^64 ≤ n then 2^64 - 1 else if minus then (2^64 - n) % 2^64 else n

/-- The conversion of a `long` to `int`. -/
def atoi (s : Bytes) : Int := wrap32 (strtol 10 s)

/-- `%u`. -/
def decimal (n : Nat) : Bytes := (Nat.toDigits 10 n).map fun c => UInt8.ofNat c.toNat

/-- `%d`. -/
def signedDecimal (n : Int) : Bytes := if n < 0 then 45 :: decimal n.natAbs else decimal n.natAbs

/-- `%x`. -/
def hexadecimal (n : Nat) : Bytes := (Nat.toDigits 16 n).map fun c => UInt8.ofNat c.toNat

/-- `strsep` with the separator blank: the memory with the separator overwritten
and where the next field starts. -/
def strsep (mem : Bytes) (p : Nat) : Option (Bytes × Option Nat) :=
  (cstring mem p).map fun s =>
    match s.idxOf? 32 with
    | some j => (mem.set (p + j) 0,some (p + j + 1))
    | none => (mem,none)

variable {mem s l : Bytes} {j n : Nat} {b : UInt8}

theorem cstring_append (h : 0 ∉ s) (l : Bytes) : cstring (s ++ 0 :: l) 0 = some s := by
  have hall : ∀ b ∈ s, decide (b ≠ 0) = true := fun b hb => decide_eq_true fun h0 => h (h0 ▸ hb)
  rw [cstring,List.drop_zero,if_pos (by simp),List.takeWhile_append_of_pos hall]
  simp

/-- A string behind other bytes. -/
theorem cstring_behind (front : Bytes) (h : 0 ∉ s) (l : Bytes) : cstring (front ++ (s ++ 0 :: l)) front.length = some s := by
  rw [cstring,List.drop_left]
  exact cstring_append h l

theorem exists_of_cstring (h : cstring mem 0 = some s) : 0 ∉ s ∧ ∃ l, mem = s ++ 0 :: l := by
  by_cases h0 : 0 ∈ mem
  · obtain ⟨t,l,rfl,ht⟩ := List.eq_append_cons_of_mem h0
    rw [cstring_append ht] at h
    cases h
    exact ⟨ht,l,rfl⟩
  · simp [cstring,h0] at h

/-- A NUL inside a string ends it there. -/
theorem cstring_set (h : cstring mem 0 = some s) (hj : j < s.length) : cstring (mem.set j 0) 0 = some (s.take j) := by
  obtain ⟨h0,l,rfl⟩ := exists_of_cstring h
  rw [List.set_append_left _ _ hj,List.set_eq_take_append_cons_drop,if_pos hj,List.append_assoc,List.cons_append]
  exact cstring_append (fun hm => h0 (List.mem_of_mem_take hm)) _

/-- A string without a blank is the last field. -/
theorem strsep_last (front : Bytes) (h0 : 0 ∉ s) (hs : 32 ∉ s) (l : Bytes) :
    strsep (front ++ (s ++ 0 :: l)) front.length = some (front ++ (s ++ 0 :: l),none) := by
  rw [strsep,cstring_behind front h0,Option.map_some,List.idxOf?_eq_none_iff.mpr hs]

theorem idxOf?_append_cons (h : b ∉ s) (l : Bytes) : (s ++ b :: l).idxOf? b = some s.length := by
  induction s with
  | nil => simp [List.idxOf?_cons]
  | cons c s ih =>
    obtain ⟨hc,hs⟩ := not_or.mp (mt List.mem_cons.mpr h)
    rw [List.cons_append,List.idxOf?_cons,if_neg (by simpa using Ne.symm hc),ih hs]
    rfl

theorem idxOf?_split {i : Nat} (h : s.idxOf? b = some i) : ∃ front back, s = front ++ b :: back ∧ front.length = i ∧ b ∉ front := by
  induction s generalizing i with
  | nil => cases h
  | cons c s ih =>
    rw [List.idxOf?_cons] at h
    split at h
    · rename_i hc
      cases h
      exact ⟨[],s,by rw [eq_of_beq hc]; rfl,rfl,by simp⟩
    · rename_i hc
      obtain ⟨n,hn,rfl⟩ := Option.map_eq_some_iff.mp h
      obtain ⟨front,back,rfl,rfl,hb⟩ := ih hn
      exact ⟨c :: front,back,rfl,rfl,by simpa [hb] using Ne.symm (by simpa using hc)⟩

/-- The first blank of a string becomes the end of the field. -/
theorem strsep_field (front : Bytes) {t : Bytes} (h0 : 0 ∉ s) (ht0 : 0 ∉ t) (hs : 32 ∉ s) (l : Bytes) :
    strsep (front ++ ((s ++ 32 :: t) ++ 0 :: l)) front.length =
      some (front ++ (s ++ 0 :: (t ++ 0 :: l)),some (front.length + s.length + 1)) := by
  have h0' : 0 ∉ s ++ 32 :: t := by simp [h0,ht0]
  rw [strsep,cstring_behind front h0',Option.map_some,idxOf?_append_cons hs]
  simp

private theorem toNat_of_isDigit {c : Char} (h : c.isDigit) : 48 ≤ c.toNat ∧ c.toNat ≤ 57 := by
  simp only [Char.isDigit,Bool.and_eq_true,decide_eq_true_eq] at h
  exact ⟨h.1,h.2⟩

/-- The text of a number consists of digits. -/
theorem mem_decimal (h : b ∈ decimal n) : 48 ≤ b.toNat ∧ b.toNat ≤ 57 := by
  obtain ⟨c,hc,rfl⟩ := List.mem_map.mp h
  have hd := toNat_of_isDigit (Nat.isDigit_of_mem_toDigits (by omega) (by omega) hc)
  rw [UInt8.toNat_ofNat_of_lt' (show c.toNat < 256 by omega)]
  exact hd

theorem decimal_ne_nil (n : Nat) : decimal n ≠ [] := by
  rw [decimal,Ne,List.map_eq_nil_iff]
  exact Nat.toDigits_ne_nil

theorem digit_ten (h : 48 ≤ b.toNat ∧ b.toNat ≤ 57) : digit 10 b = some (b.toNat - 48) := by
  have hv : b.toNat - 48 < 10 := by omega
  simp only [digit,h,and_self,if_true,hv]

private theorem read_toDigits {β : Type} (f : Nat → Bytes → β)
    (hf : ∀ acc b d s, digit 10 b = some d → f acc (b :: s) = f (10 * acc + d) s) (cs : List Char) (acc : Nat) (rest : Bytes)
    (h : ∀ c ∈ cs, c.isDigit) :
    f acc (cs.map (fun c => UInt8.ofNat c.toNat) ++ rest) = f (Nat.ofDigitChars 10 cs acc) rest := by
  induction cs generalizing acc with
  | nil => simp
  | cons c cs ih =>
    have hc := toNat_of_isDigit (h c List.mem_cons_self)
    have hb : (UInt8.ofNat c.toNat).toNat = c.toNat := UInt8.toNat_ofNat_of_lt' (show c.toNat < 256 by omega)
    rw [List.map_cons,List.cons_append,hf _ _ _ _ (digit_ten (by rw [hb]; exact hc)),hb,Nat.ofDigitChars_cons]
    exact ih _ fun c hc => h c (List.mem_cons_of_mem _ hc)

/-- A reader that accumulates decimal digits reads a printed number back. -/
theorem read_decimal {β : Type} (f : Nat → Bytes → β)
    (hf : ∀ acc b d s, digit 10 b = some d → f acc (b :: s) = f (10 * acc + d) s) (n : Nat) (rest : Bytes) :
    f 0 (decimal n ++ rest) = f n rest := by
  rw [decimal,read_toDigits f hf _ _ _ fun c hc => Nat.isDigit_of_mem_toDigits (by omega) (by omega) hc,
    Nat.ofDigitChars_ten_toDigits]

theorem digits_decimal (n : Nat) : digits 10 0 (decimal n) = n := by
  have h := read_decimal (digits 10) (fun acc b d s hd => by rw [digits,hd]) n []
  rwa [List.append_nil] at h

private theorem hexMark_ten (s : Bytes) : hexMark 10 s = s := by
  unfold hexMark
  split
  · exact if_neg (by omega)
  · rfl

private theorem signed_digit {s : Bytes} (h : 48 ≤ b.toNat) : signed (b :: s) = (false,b :: s) := by
  unfold signed
  split
  · rename_i heq
    cases heq
    exact absurd h (by decide)
  · rename_i heq
    cases heq
    exact absurd h (by decide)
  · rfl

private theorem not_isSpace (h : 33 ≤ b.toNat) : isSpace b = false := by
  have hlt : (13 : UInt8) < b := by
    rw [UInt8.lt_iff_toNat_lt]
    exact Nat.lt_of_lt_of_le (by decide) h
  have hne : b ≠ 32 := by
    rintro rfl
    exact absurd h (by decide)
  simp [isSpace,hne,hlt]

theorem mem_signedDecimal {n : Int} (h : b ∈ signedDecimal n) : 33 ≤ b.toNat := by
  rw [signedDecimal] at h
  split at h
  · rcases List.mem_cons.mp h with rfl | h
    · decide
    · exact Nat.le_trans (by decide) (mem_decimal h).1
  · exact Nat.le_trans (by decide) (mem_decimal h).1

/-- The sign of a printed number, and its digits behind it. -/
theorem signed_signedDecimal (n : Int) : signed ((signedDecimal n).dropWhile isSpace) = (decide (n < 0),decimal n.natAbs) := by
  obtain ⟨b,s,hs⟩ := List.exists_cons_of_ne_nil (decimal_ne_nil n.natAbs)
  have hb := mem_decimal (n := n.natAbs) (b := b) (by rw [hs]; exact List.mem_cons_self)
  rw [signedDecimal]
  split
  · rename_i hn
    rw [List.dropWhile_cons,if_neg (by decide),signed,decide_eq_true hn]
  · rename_i hn
    rw [hs,List.dropWhile_cons,if_neg (by rw [not_isSpace (by omega)]; decide),signed_digit hb.1,decide_eq_false hn]

/-- Sign and magnitude of a printed number. -/
theorem number_signedDecimal (n : Int) : number 10 (signedDecimal n) = (decide (n < 0),n.natAbs) := by
  rw [number,signed_signedDecimal]
  simp only [hexMark_ten,digits_decimal]

/-- `atoi` of a printed `int`. -/
theorem atoi_signedDecimal {n : Int} (h : -2^31 ≤ n) (h' : n < 2^31) : atoi (signedDecimal n) = n := by
  have hv : strtol 10 (signedDecimal n) = n := by
    rw [strtol,number_signedDecimal]
    dsimp only
    split
    · rename_i hn
      have hn := of_decide_eq_true hn
      omega
    · rename_i hn
      have hn : ¬n < 0 := by simpa using hn
      omega
  rw [atoi,hv,wrap32_eq h h']

private theorem digit_hexByte : ∀ d < 16, digit 16 (UInt8.ofNat d.digitChar.toNat) = some d := by
  decide

theorem digits_append {base : Nat} (h : ∀ b ∈ s, (digit base b).isSome) (acc : Nat) (l : Bytes) :
    digits base acc (s ++ l) = digits base (digits base acc s) l := by
  induction s generalizing acc with
  | nil => rfl
  | cons b s ih =>
    obtain ⟨d,hd⟩ := Option.isSome_iff_exists.mp (h b List.mem_cons_self)
    rw [List.cons_append,digits,digits,hd]
    exact ih (fun b hb => h b (List.mem_cons_of_mem _ hb)) _

/-- The text consists of digits of the base and its value is `n`. -/
def Numeral (base : Nat) (s : Bytes) (n : Nat) : Prop := (∀ b ∈ s, (digit base b).isSome) ∧ digits base 0 s = n

theorem numeral_hexadecimal (n : Nat) : Numeral 16 (hexadecimal n) n := by
  induction n using Nat.strongRecOn with
  | ind n ih =>
    by_cases hn : n < 16
    · rw [hexadecimal,Nat.toDigits_of_lt_base hn]
      have hd := digit_hexByte n hn
      refine ⟨by simp [hd],?_⟩
      rw [List.map_cons,digits,hd]
      simp [digits]
    · have hd := digit_hexByte (n % 16) (Nat.mod_lt _ (by decide))
      have hsplit : hexadecimal n = hexadecimal (n / 16) ++ [UInt8.ofNat (n % 16).digitChar.toNat] := by
        have h := Nat.toDigits_append_toDigits (b := 16) (n := n / 16) (d := n % 16) (by decide) (by omega)
          (Nat.mod_lt _ (by decide))
        rw [Nat.div_add_mod,Nat.toDigits_of_lt_base (Nat.mod_lt _ (by decide))] at h
        rw [hexadecimal,← h,List.map_append]
        rfl
      obtain ⟨hall,hv⟩ := ih (n / 16) (by omega)
      rw [hsplit]
      refine ⟨fun b hb => ?_,?_⟩
      · rcases List.mem_append.mp hb with hb | hb
        · exact hall b hb
        · rw [List.mem_singleton.mp hb,hd]
          rfl
      · rw [digits_append hall,hv,digits,hd]
        exact Nat.div_add_mod n 16

/-- A hexadecimal digit is no blank, no sign and no mark. -/
private theorem digit_sixteen (h : (digit 16 b).isSome) : 48 ≤ b.toNat ∧ b ≠ 120 ∧ b ≠ 88 := by
  refine ⟨?_,by rintro rfl; exact absurd h (by decide),by rintro rfl; exact absurd h (by decide)⟩
  by_contra hlt
  have hv : digit 16 b = none := by
    simp only [digit]
    split_ifs <;> first | rfl | omega
  rw [hv] at h
  cases h

theorem Numeral.le_toNat (h : Numeral 16 s n) (hb : b ∈ s) : 48 ≤ b.toNat := (digit_sixteen (h.1 b hb)).1

private theorem hexMark_digits (h : ∀ b ∈ s, (digit 16 b).isSome) : hexMark 16 s = s := by
  unfold hexMark
  split
  · rename_i x b s
    refine if_neg fun hx => ?_
    obtain ⟨_,h₁,h₂⟩ := digit_sixteen (h x (by simp))
    rcases hx.2.1 with hx | hx
    · exact h₁ hx
    · exact h₂ hx
  · rfl

/-- `strtoul` of a hexadecimal numeral. -/
theorem strtoul_numeral (h : Numeral 16 s n) (hn : n < 2^64) : strtoul 16 s = n := by
  obtain ⟨hall,rfl⟩ := h
  have hnum : number 16 s = (false,digits 16 0 s) := by
    cases s with
    | nil => rfl
    | cons b s =>
      have hb := (digit_sixteen (hall b List.mem_cons_self)).1
      rw [number,List.dropWhile_cons,if_neg (by rw [not_isSpace (by omega)]; decide),signed_digit hb]
      simp only [hexMark_digits hall]
  rw [strtoul,hnum]
  dsimp only
  rw [if_neg (by omega),if_neg Bool.false_ne_true]

end MyProgram.Lib
