import Mathlib.Data.List.TakeWhile
import MyProgram.Lib.CString

/-! String functions of Lua: substitution of patterns of a fixed width, and `tonumber` with a
base. -/
namespace MyProgram.Lib
variable {ε : Type}

theorem bind_eq_ok {α β : Type} {x : Except ε α} {f : α → Except ε β} {b : β} (h : (x >>= f) = .ok b) : ∃ a, x = .ok a ∧ f a = .ok b := by
  cases x with
  | error e => cases h
  | ok a => exact ⟨a,rfl,h⟩

theorem map_eq_ok {α β : Type} {f : α → β} {x : Except ε α} {b : β} (h : x.map f = .ok b) : ∃ a, x = .ok a ∧ b = f a := by
  cases x with
  | error e => cases h
  | ok a => exact ⟨a,rfl,(Except.ok.inj h).symm⟩

/-- `string.gsub`. The pattern matches `width` bytes where `found` says so; after a match the
search goes on behind it. -/
def gsubFrom (width : Nat) (found : Bytes → Bool) (repl : Bytes → Except ε Bytes) : Nat → Bytes → Except ε Bytes
  | _, [] => .ok []
  | skip + 1, _ :: rest => gsubFrom width found repl skip rest
  | 0, b :: rest =>
    if found (b :: rest) then do
      let r ← repl ((b :: rest).take width)
      let out ← gsubFrom width found repl (width - 1) rest
      pure (r ++ out)
    else do
      let out ← gsubFrom width found repl 0 rest
      pure (b :: out)

def gsub (width : Nat) (found : Bytes → Bool) (repl : Bytes → Except ε Bytes) (s : Bytes) : Except ε Bytes :=
  gsubFrom width found repl 0 s

/-- `tonumber(s, base)` for texts too short to overflow. -/
def tonumber (base : Nat) (s : Bytes) : Option Int :=
  let (minus,s) := signed (s.dropWhile isSpace)
  let ds := s.takeWhile fun b => (digit base b).isSome
  if ds.isEmpty then none
  else if !((s.drop ds.length).dropWhile isSpace).isEmpty then none
  else some (if minus then -(digits base 0 ds : Int) else digits base 0 ds)

variable {width : Nat} {found : Bytes → Bool} {repl : Bytes → Except ε Bytes}

@[simp] theorem gsub_nil : gsub width found repl [] = .ok [] := rfl

private theorem gsub_cons (b : UInt8) (s : Bytes) :
    gsub width found repl (b :: s) =
      if found (b :: s) then
        repl ((b :: s).take width) >>= fun r => gsubFrom width found repl (width - 1) s >>= fun out => pure (r ++ out)
      else gsub width found repl s >>= fun out => pure (b :: out) := rfl

/-- Where the pattern does not match, a byte is copied. -/
theorem gsub_copy {b : UInt8} {s : Bytes} (h : found (b :: s) = false) :
    gsub width found repl (b :: s) = (gsub width found repl s).map (b :: ·) := by
  rw [gsub_cons,h]
  cases gsub width found repl s <;> rfl

private theorem gsubFrom_behind (x s : Bytes) : gsubFrom width found repl x.length (x ++ s) = gsub width found repl s := by
  induction x with
  | nil => rfl
  | cons b x ih => exact ih

/-- A match is replaced. -/
theorem gsub_match {x s : Bytes} (hx : x.length = width) (h0 : x ≠ []) (h : found (x ++ s) = true) :
    gsub width found repl (x ++ s) = repl x >>= fun r => gsub width found repl s >>= fun out => pure (r ++ out) := by
  obtain ⟨b,x,rfl⟩ := List.exists_cons_of_ne_nil h0
  rw [List.cons_append] at h ⊢
  rw [gsub_cons,if_pos h,← List.cons_append,List.take_left' hx,← hx,List.length_cons,Nat.add_sub_cancel,gsubFrom_behind]

theorem digits_lt {base : Nat} (hb : 0 < base) (acc : Nat) (s : Bytes) : digits base acc s < base ^ s.length * (acc + 1) := by
  induction s generalizing acc with
  | nil => simp [digits]
  | cons b s ih =>
    rw [digits,List.length_cons]
    cases hd : digit base b with
    | none =>
      have hpos : 0 < base ^ (s.length + 1) := Nat.pow_pos hb
      exact Nat.lt_of_lt_of_le (Nat.lt_succ_self acc) (Nat.le_mul_of_pos_left _ hpos)
    | some d =>
      have hlt : d < base := by
        unfold digit at hd
        obtain ⟨hlt,he⟩ := Option.ite_none_right_eq_some.mp hd
        exact Option.some_inj.mp he ▸ hlt
      have hih := ih (base * acc + d)
      calc digits base (base * acc + d) s
        _ < base ^ s.length * (base * acc + d + 1) := hih
        _ ≤ base ^ s.length * (base * (acc + 1)) := Nat.mul_le_mul_left _ (by rw [Nat.mul_add]; omega)
        _ = base ^ (s.length + 1) * (acc + 1) := by rw [Nat.pow_succ,Nat.mul_assoc]

private theorem signed_cases (s : Bytes) : (signed s).2 = s ∨ ∃ b, (b = 45 ∨ b = 43) ∧ s = b :: (signed s).2 := by
  unfold signed
  split
  · exact .inr ⟨45,.inl rfl,rfl⟩
  · exact .inr ⟨43,.inr rfl,rfl⟩
  · exact .inl rfl

/-- A number is written as spaces, a sign, digits and spaces. -/
private theorem tonumber_eq_some {base : Nat} {s : Bytes} {n : Int} (h : tonumber base s = some n) :
    ∃ space sign ds rest, s = space ++ sign ++ ds ++ rest ∧ (∀ b ∈ space ++ rest, isSpace b = true) ∧
      (∀ b ∈ sign, b = 45 ∨ b = 43) ∧ (∀ b ∈ ds, (digit base b).isSome = true) ∧ n ≤ digits base 0 ds := by
  have hs : s.takeWhile isSpace ++ s.dropWhile isSpace = s := List.takeWhile_append_dropWhile
  obtain ⟨sign,hsign,hbytes⟩ : ∃ sign, s.dropWhile isSpace = sign ++ (signed (s.dropWhile isSpace)).2 ∧ ∀ b ∈ sign, b = 45 ∨ b = 43 := by
    rcases signed_cases (s.dropWhile isSpace) with he | ⟨b,hb,he⟩
    · exact ⟨[],he.symm,nofun⟩
    · exact ⟨[b],he,by simpa using hb⟩
  unfold tonumber at h
  generalize signed (s.dropWhile isSpace) = out at hsign h
  obtain ⟨minus,u⟩ := out
  dsimp only at hsign h
  have hdigit : ∀ b ∈ u.takeWhile fun b => (digit base b).isSome, (digit base b).isSome = true :=
    fun b hm => by simpa using List.mem_takeWhile_imp (p := fun b => (digit base b).isSome) hm
  have hu := List.prefix_iff_eq_append.mp (List.takeWhile_prefix (l := u) fun b => (digit base b).isSome)
  generalize u.takeWhile (fun b => (digit base b).isSome) = ds at h hu hdigit
  generalize u.drop ds.length = rest at h hu
  split at h
  · cases h
  split at h
  · cases h
  rename_i _ hrest
  refine ⟨s.takeWhile isSpace,sign,ds,rest,?_,fun b hb => ?_,hbytes,hdigit,?_⟩
  · rw [List.append_assoc,List.append_assoc,hu,← hsign,hs]
  · rcases List.mem_append.mp hb with hb | hb
    · exact List.mem_takeWhile_imp hb
    · exact List.dropWhile_eq_nil_iff.mp (by simpa using hrest) b hb
  · cases h
    split <;> omega

/-- A printed number is read back. -/
theorem tonumber_signedDecimal (n : Int) : tonumber 10 (signedDecimal n) = some n := by
  have htake : (decimal n.natAbs).takeWhile (fun b => (digit 10 b).isSome) = decimal n.natAbs := by
    refine List.takeWhile_eq_self_iff.mpr fun b hb => ?_
    rw [digit_ten (mem_decimal hb)]
    rfl
  have hdrop : ((decimal n.natAbs).drop (decimal n.natAbs).length).dropWhile isSpace = [] := by simp
  rw [tonumber,signed_signedDecimal]
  dsimp only
  rw [htake,hdrop,digits_decimal,if_neg (by simpa using decimal_ne_nil n.natAbs),if_neg (by decide)]
  split
  · rename_i hn
    have hn := of_decide_eq_true hn
    exact congrArg some (by omega)
  · rename_i hn
    have hn : ¬n < 0 := by simpa using hn
    exact congrArg some (by omega)

/-- A text that is a number has spaces, signs and digits only. -/
theorem tonumber_bytes {base : Nat} (hb : 0 < base) {s : Bytes} {n : Int} (h : tonumber base s = some n) :
    n < base ^ s.length ∧ ∀ b ∈ s, isSpace b = true ∨ b = 45 ∨ b = 43 ∨ (digit base b).isSome = true := by
  obtain ⟨space,sign,ds,rest,rfl,hspace,hsign,hdigit,hn⟩ := tonumber_eq_some h
  refine ⟨?_,fun b hm => ?_⟩
  · have hlt : digits base 0 ds < base ^ (space ++ sign ++ ds ++ rest).length := by
      have hd := digits_lt hb 0 ds
      refine Nat.lt_of_lt_of_le (by simpa using hd) (Nat.pow_le_pow_right hb ?_)
      simp only [List.length_append]
      omega
    have hlt' : (digits base 0 ds : Int) < (base : Int) ^ (space ++ sign ++ ds ++ rest).length := by exact_mod_cast hlt
    omega
  · simp only [List.mem_append,or_assoc] at hm
    rcases hm with hm | hm | hm | hm
    · exact .inl (hspace b (List.mem_append_left _ hm))
    · exact .inr ((hsign b hm).imp_right .inl)
    · exact .inr (.inr (.inr (hdigit b hm)))
    · exact .inl (hspace b (List.mem_append_right _ hm))

end MyProgram.Lib
