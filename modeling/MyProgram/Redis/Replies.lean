import MyProgram.Redis.Model

/-! What a server sends is read back, from every stream that has all of it and from none
that has less. -/
namespace MyProgram.Redis
open Lib

/-- The replies of a server. -/
inductive Reply where
  | status (s : Bytes)
  | error (s : Bytes)
  | integer (n : Int)
  | bulk (s : Bytes)
  | nullBulk
  | array (l : List Reply)
  | nullArray

namespace Reply

mutual
/-- The bytes of a reply. -/
def encode : Reply → Bytes
  | .status s => 43 :: s ++ crlf
  | .error s => 45 :: s ++ crlf
  | .integer n => 58 :: signedDecimal n ++ crlf
  | .bulk s => 36 :: signedDecimal s.length ++ (crlf ++ (s ++ crlf))
  | .nullBulk => 36 :: signedDecimal (-1) ++ crlf
  | .array l => 42 :: signedDecimal l.length ++ (crlf ++ encodeAll l)
  | .nullArray => 42 :: signedDecimal (-1) ++ crlf

def encodeAll : List Reply → Bytes
  | [] => []
  | r :: l => r.encode ++ encodeAll l
end

mutual
def value : Reply → Value
  | .status s | .error s | .bulk s => .str s
  | .integer n => .int n
  | .nullBulk | .nullArray => .null
  | .array l => .table (values l)

def values : List Reply → List Value
  | [] => []
  | r :: l => r.value :: values l
end

mutual
/-- There is no error in it. -/
def ok : Reply → Bool
  | .error _ => false
  | .array l => allOk l
  | .status _ | .integer _ | .bulk _ | .nullBulk | .nullArray => true

def allOk : List Reply → Bool
  | [] => true
  | r :: l => r.ok && allOk l
end

mutual
/-- How deep its arrays are nested. -/
def depth : Reply → Nat
  | .array l => maxDepth l + 1
  | .status _ | .error _ | .integer _ | .bulk _ | .nullBulk | .nullArray => 1

def maxDepth : List Reply → Nat
  | [] => 0
  | r :: l => max r.depth (maxDepth l)
end

mutual
/-- Texts are lines, numbers are of 64 bits. -/
def Valid : Reply → Prop
  | .status s | .error s => Line s
  | .integer n => -2^63 ≤ n ∧ n < 2^63
  | .bulk s => s.length < 2^63
  | .array l => l.length < 2^63 ∧ AllValid l
  | .nullBulk | .nullArray => True

def AllValid : List Reply → Prop
  | [] => True
  | r :: l => r.Valid ∧ AllValid l
end

end Reply

variable {r : Reply} {l : List Reply} {depth : Nat} {s rest : Bytes} {f : Bytes → RespM Result}

theorem encode_array (l : List Reply) : (Reply.array l).encode = 42 :: signedDecimal l.length ++ (crlf ++ Reply.encodeAll l) := by
  rw [Reply.encode]

theorem encodeAll_cons (r : Reply) (l : List Reply) : Reply.encodeAll (r :: l) = r.encode ++ Reply.encodeAll l := by
  rw [Reply.encodeAll]

theorem toInteger_signedDecimal {n : Int} (h : -2^63 ≤ n ∧ n < 2^63) : toInteger (signedDecimal n) = some n := by
  rw [toInteger,tonumber_signedDecimal,Option.filter_some,if_pos (by simpa using h)]

theorem line_signedDecimal (n : Int) : Line (signedDecimal n) := line_of_printed fun b hb => by
  have := mem_signedDecimal hb
  omega

/-- A text behind one of the five characters is a line too. -/
theorem line_cons {b : UInt8} (hb : b ≠ 13) (h : Line s) : Line (b :: s) := by
  rw [Line,breakLine,if_neg fun h' => hb h'.1,h,Option.map_none]

/-- A response begins with a line. -/
theorem readResponse_line {b : UInt8} (hb : b ≠ 13) (h : Line s) (rest : Bytes) :
    readResponse (depth + 1) (b :: s ++ (crlf ++ rest)) = redcmd (fun s => readResponse depth s) (b :: s) rest := by
  rw [readResponse,takeLine_append (line_cons hb h),Act.bind_ok,Act.after_nil]

/-- The loop reads one reply after the other. -/
theorem readEach_all (h : ∀ r ∈ l, ∀ rest, f (r.encode ++ rest) = .ok ((r.ok,r.value),rest) []) (rest : Bytes) :
    readEach f l.length (Reply.encodeAll l ++ rest) = .ok ((Reply.allOk l,Reply.values l),rest) [] := by
  induction l with
  | nil => rfl
  | cons r l ih =>
    obtain ⟨hr,hl⟩ := List.forall_mem_cons.mp h
    rw [Reply.encodeAll,List.append_assoc,List.length_cons,readEach,hr,Act.bind_ok]
    dsimp only
    rw [ih hl]
    rfl

theorem values_eq (l : List Reply) : Reply.values l = l.map Reply.value := by
  induction l with
  | nil => rfl
  | cons r l ih => rw [Reply.values,ih,List.map_cons]

theorem allOk_iff : Reply.allOk l = true ↔ ∀ r ∈ l, r.ok = true := by
  induction l with
  | nil => simp [Reply.allOk]
  | cons r l ih => rw [Reply.allOk,Bool.and_eq_true,ih,List.forall_mem_cons]

theorem allValid_iff : Reply.AllValid l ↔ ∀ r ∈ l, r.Valid := by
  induction l with
  | nil => simp [Reply.AllValid]
  | cons r l ih => rw [Reply.AllValid,ih,List.forall_mem_cons]

theorem maxDepth_le : Reply.maxDepth l ≤ depth ↔ ∀ r ∈ l, r.depth ≤ depth := by
  induction l with
  | nil => simp [Reply.maxDepth]
  | cons r l ih => rw [Reply.maxDepth,max_le_iff,ih,List.forall_mem_cons]

theorem readBulk_text (hs : s.length < 2^63) (rest : Bytes) :
    readBulk (signedDecimal s.length) (s ++ (crlf ++ rest)) = .ok ((true,.str s),rest) [] := by
  rw [readBulk,toInteger_signedDecimal (by omega),← List.append_assoc]
  dsimp only
  rw [if_neg (by omega),Int.toNat_natCast,takeBytes_append (by simp [crlf]),Act.bind_ok]
  simp [crlf]

theorem readArray_all (hl : l.length < 2^63) (h : ∀ r ∈ l, ∀ rest, f (r.encode ++ rest) = .ok ((r.ok,r.value),rest) []) (rest : Bytes) :
    readArray f (signedDecimal l.length) (Reply.encodeAll l ++ rest) = .ok ((Reply.allOk l,.table (Reply.values l)),rest) [] := by
  rw [readArray,toInteger_signedDecimal (by omega)]
  dsimp only
  rw [if_neg (by omega),Int.toNat_natCast,readEach_all h,Act.bind_ok]
  rfl

/-- A reply is read as what it is, and nothing behind it is touched. -/
theorem readResponse_encode (hv : r.Valid) (hd : r.depth ≤ depth) (rest : Bytes) :
    readResponse depth (r.encode ++ rest) = .ok ((r.ok,r.value),rest) [] := by
  induction depth generalizing r rest with
  | zero => cases r <;> simp [Reply.depth] at hd
  | succ depth ih =>
    cases r with
    | status s =>
      rw [Reply.encode,List.append_assoc,readResponse_line (by decide) hv]
      simp [redcmd,Reply.ok,Reply.value]
    | error s =>
      rw [Reply.encode,List.append_assoc,readResponse_line (by decide) hv]
      simp [redcmd,Reply.ok,Reply.value]
    | integer n =>
      rw [Reply.encode,List.append_assoc,readResponse_line (by decide) (line_signedDecimal n)]
      simp [redcmd,toInteger_signedDecimal hv,Reply.ok,Reply.value]
    | nullBulk =>
      rw [Reply.encode,List.append_assoc,readResponse_line (by decide) (line_signedDecimal (-1))]
      simp [redcmd,readBulk,toInteger_signedDecimal (n := -1) (by decide),Reply.ok,Reply.value]
    | nullArray =>
      rw [Reply.encode,List.append_assoc,readResponse_line (by decide) (line_signedDecimal (-1))]
      simp [redcmd,readArray,toInteger_signedDecimal (n := -1) (by decide),Reply.ok,Reply.value]
    | bulk s =>
      rw [Reply.encode,List.append_assoc,List.append_assoc,List.append_assoc,readResponse_line (by decide) (line_signedDecimal s.length)]
      simp [redcmd,readBulk_text hv,Reply.ok,Reply.value]
    | array l =>
      obtain ⟨hl,hv⟩ := hv
      have hd : Reply.maxDepth l + 1 ≤ depth + 1 := hd
      have hall := readArray_all (f := fun s => readResponse depth s) hl
        (fun r hr rest => ih (allValid_iff.mp hv r hr) (maxDepth_le.mp (by omega) r hr) rest) rest
      rw [Reply.encode,List.append_assoc,List.append_assoc,readResponse_line (by decide) (line_signedDecimal l.length)]
      simp [redcmd,hall,Reply.ok,Reply.value]

/-- A piece of a line at the end of the stream. -/
theorem readResponse_short {b : UInt8} (hb : b ≠ 13) (h : Line s) {t : Bytes} (ht : t <+: b :: s ++ crlf)
    (hl : t.length < (b :: s ++ crlf).length) :
    readResponse (depth + 1) t = .fail .assertion .socketError := by
  rw [List.length_append] at hl
  rw [readResponse,takeLine_beginning (line_cons hb h) ht hl,Act.bind_fail]

/-- When the stream ends in the middle of some reply, so does the loop. -/
theorem readEach_beginning (h : ∀ r ∈ l, ∀ rest, f (r.encode ++ rest) = .ok ((r.ok,r.value),rest) [])
    (hp : ∀ r ∈ l, ∀ t, t <+: r.encode → t ≠ r.encode → f t = .fail .assertion .socketError) (hs : s <+: Reply.encodeAll l)
    (hne : s ≠ Reply.encodeAll l) : readEach f l.length s = .fail .assertion .socketError := by
  induction l generalizing s with
  | nil => exact absurd (List.prefix_nil.mp hs) hne
  | cons r l ih =>
    obtain ⟨hr,hl⟩ := List.forall_mem_cons.mp h
    obtain ⟨hpr,hpl⟩ := List.forall_mem_cons.mp hp
    rw [List.length_cons,readEach]
    rcases beginning_append hs hne with ⟨ht,hlt⟩ | ⟨t,rfl,ht,htne⟩
    · rw [hpr s ht (by rintro rfl; omega),Act.bind_fail]
    · rw [hr,Act.bind_ok]
      dsimp only
      rw [ih hl hpl ht htne]
      rfl

/-- From less than a reply nothing is read: the reader waits for more, and fails if the stream ends. -/
theorem readResponse_beginning (hv : r.Valid) (hd : r.depth ≤ depth) (hs : s <+: r.encode) (hne : s ≠ r.encode) :
    readResponse depth s = .fail .assertion .socketError := by
  induction depth generalizing r s with
  | zero => cases r <;> simp [Reply.depth] at hd
  | succ depth ih =>
    have hlt := Nat.lt_of_le_of_ne hs.length_le fun he => hne (hs.eq_of_length he)
    cases r with
    | status t | error t => exact readResponse_short (by decide) hv hs hlt
    | integer n => exact readResponse_short (by decide) (line_signedDecimal n) hs hlt
    | nullBulk | nullArray =>
      exact readResponse_short (by decide) (line_signedDecimal (-1)) hs hlt
    | bulk t =>
      have ht : t.length < 2^63 := hv
      rw [Reply.encode,← List.append_assoc] at hs hne
      rcases beginning_append hs hne with ⟨hs,hl⟩ | ⟨u,rfl,hu,hune⟩
      · exact readResponse_short (by decide) (line_signedDecimal t.length) hs hl
      · have hlt := Nat.lt_of_le_of_ne hu.length_le fun he => hune (hu.eq_of_length he)
        rw [List.append_assoc,readResponse_line (by decide) (line_signedDecimal t.length)]
        simp only [redcmd,if_true,readBulk,toInteger_signedDecimal (n := t.length) (by omega)]
        rw [if_neg (by omega),Int.toNat_natCast,takeBytes_short (by simpa [crlf] using hlt),Act.bind_fail]
    | array l =>
      obtain ⟨hl,hv⟩ := hv
      have hd : Reply.maxDepth l + 1 ≤ depth + 1 := hd
      have hdl : ∀ r ∈ l, r.depth ≤ depth := maxDepth_le.mp (by omega)
      rw [Reply.encode,← List.append_assoc] at hs hne
      rcases beginning_append hs hne with ⟨hs,hl⟩ | ⟨u,rfl,hu,hune⟩
      · exact readResponse_short (by decide) (line_signedDecimal l.length) hs hl
      · have heach := readEach_beginning (f := fun s => readResponse depth s)
          (fun r hr rest => readResponse_encode (allValid_iff.mp hv r hr) (hdl r hr) rest)
          (fun r hr t ht htne => ih (allValid_iff.mp hv r hr) (hdl r hr) ht htne) hu hune
        rw [List.append_assoc,readResponse_line (by decide) (line_signedDecimal l.length)]
        simp [redcmd,readArray,toInteger_signedDecimal (n := l.length) (by omega),heach]

/-- The reader comes to an end and leaves at most `n` bytes. -/
structure Ends {α : Type} (n : Nat) (x : RespM (α × Bytes)) : Prop where
  fails : ∀ k site, x = .fail k site → k ≠ .diverges
  leaves : ∀ a s fx, x = .ok (a,s) fx → s.length ≤ n

namespace Ends
variable {α β : Type} {n m : Nat}

theorem ok {a : α} (h : s.length ≤ n) : Ends n (.ok (a,s) []) :=
  ⟨fun _ _ he => (by cases he),fun _ _ _ he => (by cases he; exact h)⟩

theorem fail {k : FaultKind} {site : Site} (h : k ≠ .diverges) : Ends n (.fail k site : RespM (α × Bytes)) :=
  ⟨fun _ _ he => (by cases he; exact h),fun _ _ _ he => (by cases he)⟩

theorem bind {x : RespM (α × Bytes)} {g : α × Bytes → RespM (β × Bytes)} (hx : Ends m x)
    (hg : ∀ a s, s.length ≤ m → Ends n (g (a,s))) : Ends n (x >>= g) := by
  cases hr : x with
  | ok y fx =>
    obtain ⟨a,s⟩ := y
    have h := hg a s (hx.leaves a s fx hr)
    refine ⟨fun k site he => ?_,fun b t fx' he => ?_⟩
    · cases hy : g (a,s) with
      | ok z fz =>
        rw [Act.bind_ok,hy] at he
        cases he
      | fail k' site' =>
        rw [Act.bind_ok,hy] at he
        cases he
        exact h.fails k site hy
    · rw [Act.bind_ok] at he
      obtain ⟨fx₂,hy,_⟩ := Act.after_eq_ok.mp he
      exact h.leaves b t fx₂ hy
  | fail k site =>
    rw [Act.bind_fail]
    exact fail (hx.fails k site hr)

theorem takeBytes {k : Nat} (h : s.length ≤ n) : Ends n (takeBytes .socketError k s) := by
  unfold Lib.takeBytes
  split
  · exact fail (by decide)
  · exact ok (by rw [List.length_drop]; omega)

end Ends

theorem readEach_ends {n k : Nat} (hf : ∀ s, s.length ≤ n → Ends n (f s)) (hs : s.length ≤ n) : Ends n (readEach f k s) := by
  induction k generalizing s with
  | zero => exact .ok hs
  | succ k ih =>
    refine (hf s hs).bind fun a t ht => ?_
    obtain ⟨ok,v⟩ := a
    refine (ih ht).bind fun b u hu => ?_
    exact .ok hu

theorem redcmd_ends {n : Nat} {line : Bytes} (hf : ∀ s, s.length ≤ n → Ends n (f s)) (hs : s.length ≤ n) :
    Ends n (redcmd f line s) := by
  cases line with
  | nil => exact .fail (by decide)
  | cons b data =>
    rw [redcmd]
    split
    · unfold readBulk
      split
      · exact .fail (by decide)
      · split
        · exact .ok hs
        · exact (Ends.takeBytes hs).bind fun a t ht => .ok ht
    split
    · exact .ok hs
    split
    · exact .ok hs
    split
    · exact .ok hs
    split
    · unfold readArray
      split
      · exact .fail (by decide)
      · split
        · exact .ok hs
        · refine (readEach_ends hf hs).bind fun a t ht => ?_
          obtain ⟨noerr,bulk⟩ := a
          exact .ok ht
    · exact .fail (by decide)

/-- On any bytes the reader ends: arrays are not nested deeper than there are bytes. -/
theorem readResponse_ends (h : s.length < depth) : Ends s.length (readResponse depth s) := by
  induction depth generalizing s with
  | zero => omega
  | succ depth ih =>
    rw [readResponse]
    cases hl : breakLine s with
    | none =>
      rw [takeLine,hl]
      exact .fail (by decide)
    | some x =>
      obtain ⟨line,t⟩ := x
      have hlen : line.length + t.length + 2 = s.length := breakLine_length hl
      rw [takeLine,hl]
      have hends : Ends t.length (redcmd (fun s => readResponse depth s) line t) :=
        redcmd_ends (fun u hu => ⟨(ih (by omega)).fails,fun a v fx he => ((ih (by omega)).leaves a v fx he).trans hu⟩) (Nat.le_refl _)
      simp only [Act.pure_eq,Act.bind_ok,Act.after_nil]
      exact ⟨hends.fails,fun a v fx he => (hends.leaves a v fx he).trans (by omega)⟩

end MyProgram.Redis
