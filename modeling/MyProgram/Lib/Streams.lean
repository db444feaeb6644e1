import MyProgram.Lib.Act
import MyProgram.Lib.CInt

/-! Readers of a byte stream that ends: each takes a piece off the front, or fails at a
place of the program when the stream ends before. -/
namespace MyProgram.Lib
variable {σ ε : Type}

/-- Take `n` bytes. -/
def takeBytes (site : σ) (n : Nat) (s : Bytes) : Act σ ε (Bytes × Bytes) :=
  if s.length < n then .fail .assertion site else pure (s.take n,s.drop n)

/-- What is in front of the first CR LF and what is behind it. -/
def breakLine : Bytes → Option (Bytes × Bytes)
  | [] => none
  | b :: s =>
    if b = 13 ∧ s.head? = some 10 then some ([],s.tail) else (breakLine s).map fun x => (b :: x.1,x.2)

/-- Take a line, which CR LF ends. -/
def takeLine (site : σ) (s : Bytes) : Act σ ε (Bytes × Bytes) :=
  match breakLine s with
  | some x => pure x
  | none => .fail .assertion site

def crlf : Bytes := [13,10]

/-- A text without CR LF. -/
def Line (s : Bytes) : Prop := breakLine s = none

instance (s : Bytes) : Decidable (Line s) := inferInstanceAs (Decidable (_ = _))

variable {site : σ} {n : Nat} {a b s rest : Bytes}

/-- A beginning of two strings is one of the first, or the first and a beginning of the second. -/
theorem beginning_append (h : s <+: a ++ b) (hne : s ≠ a ++ b) :
    (s <+: a ∧ s.length < a.length) ∨ ∃ s', s = a ++ s' ∧ s' <+: b ∧ s' ≠ b := by
  rcases Nat.lt_or_ge s.length a.length with hl | hl
  · exact .inl ⟨List.prefix_of_prefix_length_le h (List.prefix_append a b) (by omega),hl⟩
  · obtain ⟨s',rfl⟩ := List.prefix_of_prefix_length_le (List.prefix_append a b) h hl
    refine .inr ⟨s',rfl,(List.prefix_append_right_inj a).mp h,fun he => hne ?_⟩
    rw [he]

@[simp] theorem takeBytes_append (h : s.length = n) (rest : Bytes) : (takeBytes site n (s ++ rest) : Act σ ε _) = .ok (s,rest) [] := by
  subst h
  simp [takeBytes]

theorem takeBytes_short (h : s.length < n) : (takeBytes site n s : Act σ ε _) = .fail .assertion site := if_pos h

theorem breakLine_append (h : Line s) (rest : Bytes) : breakLine (s ++ (crlf ++ rest)) = some (s,rest) := by
  induction s with
  | nil => rfl
  | cons b s ih =>
    rw [Line,breakLine] at h
    split at h
    · cases h
    · rename_i hb
      have hnot : ¬(b = 13 ∧ (s ++ (crlf ++ rest)).head? = some 10) := by
        rintro ⟨rfl,hh⟩
        cases s with
        | nil => cases hh
        | cons c s => exact hb ⟨rfl,hh⟩
      rw [List.cons_append,breakLine,if_neg hnot,ih (Option.map_eq_none_iff.mp h),Option.map_some]

/-- A line is not there before its last byte. -/
theorem breakLine_beginning (h : Line a) (hs : s <+: a ++ crlf) (hl : s.length < a.length + 2) : breakLine s = none := by
  induction a generalizing s with
  | nil =>
    obtain ⟨t,ht⟩ := hs
    match s, hl with
    | [], _ => rfl
    | [b], _ =>
      cases ht
      rfl
    | _ :: _ :: _, hl =>
      simp only [List.length_cons,List.length_nil] at hl
      omega
  | cons b a ih =>
    cases s with
    | nil => rfl
    | cons c s =>
      rw [List.cons_append] at hs
      obtain ⟨rfl,ht⟩ := List.cons_prefix_cons.mp hs
      rw [Line,breakLine] at h
      split at h
      · cases h
      · rename_i hb
        rw [breakLine,if_neg,ih (Option.map_eq_none_iff.mp h) ht (by simpa using hl),Option.map_none]
        rintro ⟨rfl,hh⟩
        refine hb ⟨rfl,?_⟩
        cases a with
        | nil =>
          cases s with
          | nil => cases hh
          | cons d s =>
            obtain ⟨rfl,_⟩ := List.cons_prefix_cons.mp ht
            cases hh
        | cons e a =>
          cases s with
          | nil => cases hh
          | cons d s =>
            obtain ⟨rfl,_⟩ := List.cons_prefix_cons.mp ht
            exact hh

theorem takeLine_append (h : Line s) (rest : Bytes) : (takeLine site (s ++ (crlf ++ rest)) : Act σ ε _) = .ok (s,rest) [] := by
  rw [takeLine,breakLine_append h]
  rfl

theorem takeLine_beginning (h : Line a) (hs : s <+: a ++ crlf) (hl : s.length < a.length + 2) :
    (takeLine site s : Act σ ε _) = .fail .assertion site := by
  rw [takeLine,breakLine_beginning h hs hl]

/-- A text in which every byte is printed is a line. -/
theorem line_of_printed (h : ∀ b ∈ s, 32 ≤ b.toNat) : Line s := by
  induction s with
  | nil => rfl
  | cons b s ih =>
    have hb : b ≠ 13 := by
      rintro rfl
      exact absurd (h 13 List.mem_cons_self) (by decide)
    rw [Line,breakLine,if_neg fun h' => hb h'.1,ih fun c hc => h c (List.mem_cons_of_mem _ hc),Option.map_none]

/-- A line is part of what was read. -/
theorem breakLine_length {x : Bytes × Bytes} (h : breakLine s = some x) : x.1.length + x.2.length + 2 = s.length := by
  induction s generalizing x with
  | nil => cases h
  | cons b s ih =>
    rw [breakLine] at h
    split at h
    · rename_i hb
      cases h
      cases s with
      | nil => cases hb.2
      | cons c s => simp
    · obtain ⟨y,hy,rfl⟩ := Option.map_eq_some_iff.mp h
      have := ih hy
      simp
      omega

end MyProgram.Lib
