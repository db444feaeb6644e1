import MyProgram.SkynetGate.Commands

/-! The four loops with which the connect command takes its address and port out of the
message. -/
namespace MyProgram.SkynetGate
open Lib

/-- `while (*p != 0 && *p == ' ') ++p;`. More rounds than there are bytes do not happen:
the read behind the last byte is a fault. -/
def skipBlanks (tmp : Bytes) : Nat → Nat → GateM Nat
  | 0, _ => .fail .diverges .control
  | fuel+1, p => do
    let b ← Act.read .control tmp p
    if b ≠ 0 ∧ b = 32 then skipBlanks tmp fuel (p + 1) else pure p

/-- Write the next byte of a `char` array of `limit` bytes. -/
def writeNext (limit : Nat) (word : Bytes) (b : UInt8) : GateM Bytes :=
  if word.length < limit then pure (word ++ [b]) else .fail .outOfBounds .control

/-- `while (*p != 0 && *p != ' ') word[i++] = *p++;` and the NUL behind the word. -/
def copyLoop (tmp : Bytes) (limit : Nat) : Nat → Nat → Bytes → GateM (Bytes × Nat)
  | 0, _, _ => .fail .diverges .control
  | fuel+1, p, word => do
    let b ← Act.read .control tmp p
    if b ≠ 0 ∧ b ≠ 32 then do
      let word ← writeNext limit word b
      copyLoop tmp limit fuel (p + 1) word
    else do
      let _ ← writeNext limit word 0
      pure (word,p)

/-- The two loops for one word. -/
def loopWord (tmp : Bytes) (p limit : Nat) : GateM (Bytes × Nat) := do
  let p ← skipBlanks tmp (tmp.length + 1) p
  copyLoop tmp limit (tmp.length + 1) p []

/-- The strings `ip` and `port`. -/
def connectWords (tmp : Bytes) (i : Nat) : GateM (Bytes × Bytes) := do
  let (ip,p) ← loopWord tmp (i + 1) 100
  let (port,_) ← loopWord tmp p 50
  pure (ip,port)

/-- The next word of a text whose words are separated by spaces, and what follows it. -/
def nextWord (s : Bytes) : Bytes × Bytes :=
  ((s.dropWhile (· = 32)).takeWhile (· ≠ 32),(s.dropWhile (· = 32)).dropWhile (· ≠ 32))

def firstWord (s : Bytes) : Bytes := (nextWord s).1

def secondWord (s : Bytes) : Bytes := (nextWord (nextWord s).2).1

variable {tmp front s word rest : Bytes} {limit fuel p : Nat}

private theorem read_behind (front : Bytes) (b : UInt8) (rest : Bytes) :
    (Act.read .control (front ++ b :: rest) front.length : GateM UInt8) = .ok b [] :=
  Act.read_natCast (by simp)

/-- Blanks are skipped up to the first other byte, at the latest up to the NUL. -/
private theorem skipBlanks_spec (front : Bytes) (h0 : 0 ∉ s) (rest : Bytes) (fuel : Nat) (hf : s.length < fuel) :
    skipBlanks (front ++ (s ++ 0 :: rest)) fuel front.length = .ok (front.length + (s.takeWhile (· = 32)).length) [] := by
  obtain ⟨fuel,rfl⟩ : ∃ m, fuel = m + 1 := ⟨fuel - 1,by omega⟩
  induction s generalizing front fuel with
  | nil =>
    rw [skipBlanks,List.nil_append,read_behind,Act.bind_ok,Act.after_nil,if_neg (by decide)]
    rfl
  | cons b s ih =>
    have hs : 0 ∉ s := fun h => h0 (List.mem_cons_of_mem _ h)
    rw [List.length_cons] at hf
    rw [skipBlanks,List.cons_append,read_behind,Act.bind_ok,Act.after_nil]
    by_cases h32 : b = 32
    · subst h32
      obtain ⟨fuel,rfl⟩ : ∃ m, fuel = m + 1 := ⟨fuel - 1,by omega⟩
      have h := ih (front ++ [32]) hs fuel (by omega)
      rw [if_pos (by decide),List.takeWhile_cons_of_pos (by decide)]
      simpa [Nat.add_assoc,Nat.add_comm 1] using h
    · rw [if_neg fun h => h32 h.2,List.takeWhile_cons_of_neg (by simpa using h32)]
      rfl

/-- A word is copied if it and a NUL fit. -/
private theorem copyLoop_spec (front : Bytes) (h0 : 0 ∉ s) (rest word : Bytes) (limit fuel : Nat) (hf : s.length < fuel) :
    copyLoop (front ++ (s ++ 0 :: rest)) limit fuel front.length word =
      if (word ++ s.takeWhile (· ≠ 32)).length < limit then
        .ok (word ++ s.takeWhile (· ≠ 32),front.length + (s.takeWhile (· ≠ 32)).length) []
      else .fail .outOfBounds .control := by
  obtain ⟨fuel,rfl⟩ : ∃ m, fuel = m + 1 := ⟨fuel - 1,by omega⟩
  induction s generalizing front fuel word with
  | nil =>
    rw [copyLoop,List.nil_append,read_behind,Act.bind_ok,Act.after_nil,if_neg (by decide),writeNext,List.takeWhile_nil,
      List.append_nil]
    split <;> rfl
  | cons b s ih =>
    obtain ⟨hb,hs⟩ := not_or.mp (mt List.mem_cons.mpr h0)
    rw [List.length_cons] at hf
    rw [copyLoop,List.cons_append,read_behind,Act.bind_ok,Act.after_nil]
    by_cases h32 : b = 32
    · rw [if_neg fun h => h.2 h32,List.takeWhile_cons_of_neg (by simpa using h32),writeNext,List.append_nil]
      split <;> rfl
    · obtain ⟨fuel,rfl⟩ : ∃ m, fuel = m + 1 := ⟨fuel - 1,by omega⟩
      have h := ih (front ++ [b]) hs (word ++ [b]) fuel (by omega)
      rw [if_pos ⟨Ne.symm hb,h32⟩,List.takeWhile_cons_of_pos (by simpa using h32),writeNext]
      by_cases hl : word.length < limit
      · rw [if_pos hl,Act.pure_eq,Act.bind_ok,Act.after_nil]
        simpa [Nat.add_assoc,Nat.add_comm 1] using h
      · rw [if_neg hl,if_neg (by rw [List.length_append]; omega)]
        rfl

private theorem copyWord_eq (front : Bytes) (h0 : 0 ∉ s) (rest : Bytes) (limit : Nat) :
    copyWord (front ++ (s ++ 0 :: rest)) front.length limit =
      if (nextWord s).1.length < limit then
        .ok ((nextWord s).1,front.length + (s.takeWhile (· = 32)).length + (nextWord s).1.length) []
      else .fail .outOfBounds .control := by
  rw [copyWord,stringAt,cstring_behind front h0 rest]
  exact Act.after_nil _

/-- The two loops do what `copyWord` says. -/
private theorem loopWord_eq_copyWord (front : Bytes) (h0 : 0 ∉ s) (rest : Bytes) (limit : Nat) :
    loopWord (front ++ (s ++ 0 :: rest)) front.length limit = copyWord (front ++ (s ++ 0 :: rest)) front.length limit := by
  have h0' : 0 ∉ s.dropWhile (· = 32) := fun h => h0 ((List.dropWhile_sublist _).subset h)
  have hsplit : (front ++ s.takeWhile (· = 32)) ++ (s.dropWhile (· = 32) ++ 0 :: rest) = front ++ (s ++ 0 :: rest) := by
    rw [List.append_assoc,← List.append_assoc (s.takeWhile _),List.takeWhile_append_dropWhile]
  have hlen : s.length < (front ++ (s ++ 0 :: rest)).length + 1 := by simp only [List.length_append]; omega
  have hcopy := copyLoop_spec (front ++ s.takeWhile (· = 32)) h0' rest [] limit ((front ++ (s ++ 0 :: rest)).length + 1)
    ((List.dropWhile_sublist _).length_le.trans_lt hlen)
  rw [hsplit,List.nil_append] at hcopy
  rw [copyWord_eq front h0,loopWord,skipBlanks_spec front h0 rest _ hlen,Act.bind_ok,Act.after_nil,← List.length_append,hcopy]
  rfl

/-- Behind the NUL of the copy the first read is a fault. -/
private theorem loopWord_outside (h : tmp.length ≤ p) (limit : Nat) : loopWord tmp p limit = .fail .outOfBounds .control := by
  have hread : (Act.read .control tmp p : GateM UInt8) = .fail .outOfBounds .control := by
    rw [Act.read,if_pos (by omega),Int.toNat_natCast,List.getElem?_eq_none h]
  rw [loopWord,skipBlanks,hread]
  rfl

private theorem loopWord_eq (msg : Bytes) (p limit : Nat) : loopWord (msg ++ [0]) p limit = copyWord (msg ++ [0]) p limit := by
  by_cases h : p ≤ msg.length
  · have h0 : 0 ∈ (msg ++ [0]).drop p := by
      rw [List.drop_append_of_le_length h]
      simp
    obtain ⟨s,rest,hs,hs0⟩ := List.eq_append_cons_of_mem h0
    have he : msg.take p ++ (s ++ 0 :: rest) = msg ++ [0] := by
      rw [← hs,List.drop_append_of_le_length h,← List.append_assoc,List.take_append_drop]
    have hloop := loopWord_eq_copyWord (msg.take p) hs0 rest limit
    rwa [he,List.length_take_of_le h] at hloop
  · have hlen : (msg ++ [0]).length ≤ p := by
      rw [List.length_append,List.length_singleton]
      omega
    rw [loopWord_outside hlen,copyWord,stringAt,cstring,List.drop_eq_nil_of_le hlen]
    rfl

/-- The parser of the connect command is its loops. -/
theorem parseConnect_eq (msg : Bytes) (i : Nat) :
    parseConnect (msg ++ [0]) i = connectWords (msg ++ [0]) i >>= fun (ip,port) => pure (.connect ip (atoi port)) := by
  rw [parseConnect,connectWords]
  simp only [loopWord_eq,Act.bind_assoc]
  rfl

/-- The rest of the string stands where the first word ended. -/
private theorem exists_behind (front : Bytes) (s rest : Bytes) :
    ∃ front', front ++ (s ++ 0 :: rest) = front' ++ ((nextWord s).2 ++ 0 :: rest) ∧
      front'.length = front.length + (s.takeWhile (· = 32)).length + (nextWord s).1.length := by
  have hword : (nextWord s).1 ++ (nextWord s).2 = s.dropWhile (· = 32) := List.takeWhile_append_dropWhile
  refine ⟨front ++ s.takeWhile (· = 32) ++ (nextWord s).1,?_,by simp [Nat.add_assoc]⟩
  calc front ++ (s ++ 0 :: rest) = front ++ (s.takeWhile (· = 32) ++ s.dropWhile (· = 32) ++ 0 :: rest) := by
        rw [List.takeWhile_append_dropWhile]
    _ = front ++ s.takeWhile (· = 32) ++ (nextWord s).1 ++ ((nextWord s).2 ++ 0 :: rest) := by
        rw [← hword]
        simp

/-- What the four loops do with an argument that ends with a NUL. -/
private theorem connectWords_eq (front : Bytes) (h0 : 0 ∉ s) (rest : Bytes) {i : Nat} (hi : i + 1 = front.length) :
    connectWords (front ++ (s ++ 0 :: rest)) i =
      if (firstWord s).length < 100 ∧ (secondWord s).length < 50 then .ok (firstWord s,secondWord s) []
      else .fail .outOfBounds .control := by
  obtain ⟨front',hsplit,hlen⟩ := exists_behind front s rest
  have h0' : 0 ∉ (nextWord s).2 := fun h => h0 ((List.dropWhile_sublist _).subset ((List.dropWhile_sublist _).subset h))
  rw [connectWords,hi,loopWord_eq_copyWord front h0,copyWord_eq front h0]
  by_cases h₁ : (nextWord s).1.length < 100
  · rw [if_pos h₁,Act.bind_ok,Act.after_nil]
    simp only
    rw [← hlen,hsplit,loopWord_eq_copyWord front' h0',copyWord_eq front' h0']
    by_cases h₂ : (nextWord (nextWord s).2).1.length < 50
    · rw [if_pos h₂,if_pos ⟨h₁,h₂⟩]
      rfl
    · rw [if_neg h₂,if_neg fun h => h₂ h.2]
      rfl
  · rw [if_neg h₁,if_neg fun h => h₁ h.1]
    rfl

private theorem takeWhile_cut (h : 0 ∉ (s ++ 0 :: rest).takeWhile (· ≠ 32)) :
    (s ++ 0 :: rest).takeWhile (· ≠ 32) = s.takeWhile (· ≠ 32) ∧
      (s ++ 0 :: rest).dropWhile (· ≠ 32) = s.dropWhile (· ≠ 32) ++ 0 :: rest := by
  induction s with
  | nil => exact absurd (by simp) h
  | cons b s ih =>
    by_cases hb : b = 32
    · subst hb
      exact ⟨rfl,rfl⟩
    · have htake (l : Bytes) : (b :: l).takeWhile (· ≠ 32) = b :: l.takeWhile (· ≠ 32) :=
        List.takeWhile_cons_of_pos (by simpa using hb)
      have hdrop (l : Bytes) : (b :: l).dropWhile (· ≠ 32) = l.dropWhile (· ≠ 32) :=
        List.dropWhile_cons_of_pos (by simpa using hb)
      rw [List.cons_append,htake] at h
      obtain ⟨ht,hd⟩ := ih fun h0 => h (List.mem_cons_of_mem _ h0)
      rw [List.cons_append,htake,htake,hdrop,hdrop,ht]
      exact ⟨rfl,hd⟩

/-- A word that does not reach the NUL is the same without what follows it. -/
private theorem nextWord_cut (h : 0 ∉ (nextWord (s ++ 0 :: rest)).1) :
    nextWord (s ++ 0 :: rest) = ((nextWord s).1,(nextWord s).2 ++ 0 :: rest) := by
  have hskip : (s ++ 0 :: rest).dropWhile (· = 32) = s.dropWhile (· = 32) ++ 0 :: rest := by
    rw [List.dropWhile_append]
    split
    · rename_i he
      rw [List.isEmpty_iff.mp he]
      rfl
    · rfl
  rw [nextWord,hskip] at h ⊢
  obtain ⟨ht,hd⟩ := takeWhile_cut h
  rw [ht,hd]
  rfl

private theorem words_cut (h₁ : 0 ∉ firstWord (s ++ 0 :: rest)) (h₂ : 0 ∉ secondWord (s ++ 0 :: rest)) :
    firstWord (s ++ 0 :: rest) = firstWord s ∧ secondWord (s ++ 0 :: rest) = secondWord s := by
  have hfirst := nextWord_cut h₁
  rw [secondWord,hfirst] at h₂
  constructor
  · rw [firstWord,hfirst,firstWord]
  · rw [secondWord,hfirst,nextWord_cut h₂,secondWord]

/-- The message is `connect`, alone or with a space and an argument behind it. -/
private theorem exists_argument {msg : Bytes} (h : token msg = ascii "connect") :
    msg = ascii "connect" ∨ ∃ arg, msg = ascii "connect" ++ 32 :: arg := by
  have hsplit : token msg ++ msg.dropWhile (· ≠ 32) = msg := List.takeWhile_append_dropWhile
  rw [h] at hsplit
  cases hd : msg.dropWhile (· ≠ 32) with
  | nil => exact .inl (by rw [← hsplit,hd,List.append_nil])
  | cons b arg =>
    have hb := List.head?_dropWhile_not (fun b : UInt8 => decide (b ≠ 32)) msg
    rw [hd] at hb
    obtain rfl : b = 32 := by simpa using hb
    exact .inr ⟨arg,by rw [← hsplit,hd]⟩

/-- The words of an argument and of its part before the first NUL. -/
private theorem words_agree_iff {arg : Bytes} (h : arg ++ [0] = s ++ 0 :: rest) (h0 : 0 ∉ s) :
    firstWord s = firstWord arg ∧ secondWord s = secondWord arg ↔ 0 ∉ firstWord arg ∧ 0 ∉ secondWord arg := by
  have hsub : ∀ t : Bytes, (nextWord t).1 ⊆ t ∧ (nextWord t).2 ⊆ t := fun t =>
    ⟨fun b hb => (List.dropWhile_sublist _).subset ((List.takeWhile_sublist _).subset hb),
      fun b hb => (List.dropWhile_sublist _).subset ((List.dropWhile_sublist _).subset hb)⟩
  constructor
  · rintro ⟨h₁,h₂⟩
    rw [← h₁,← h₂]
    exact ⟨fun hm => h0 ((hsub s).1 hm),fun hm => h0 ((hsub s).2 ((hsub _).1 hm))⟩
  · rintro ⟨h₁,h₂⟩
    rcases List.eq_nil_or_concat rest with rfl | ⟨r,b,rfl⟩
    · obtain rfl : arg = s := List.append_cancel_right h
      exact ⟨rfl,rfl⟩
    · have hcat : arg ++ [0] = (s ++ 0 :: r) ++ [b] := by simpa using h
      obtain rfl := List.append_inj_left' hcat rfl
      obtain ⟨hf,hs⟩ := words_cut h₁ h₂
      exact ⟨hf.symm,hs.symm⟩

/-- The connect command stays inside the message and its two arrays and passes on the
first two words of its argument, if and only if there is an argument, both words fit, and
neither has a NUL in it. -/
theorem connect_in_bounds_iff (msg : Bytes) (h : token msg = ascii "connect") :
    ctrlParse msg = (connectWords (msg ++ [0]) 7 >>= fun (ip,port) => pure (.connect ip (atoi port))) ∧
    (connectWords (msg ++ [0]) 7 = .ok (firstWord (msg.drop 7),secondWord (msg.drop 7)) [] ↔
      7 < msg.length ∧ (firstWord (msg.drop 7)).length < 100 ∧ (secondWord (msg.drop 7)).length < 50 ∧
        0 ∉ firstWord (msg.drop 7) ∧ 0 ∉ secondWord (msg.drop 7)) := by
  constructor
  · rw [ctrlParse_eq,selected_of_token (k := .connect) h,Act.bind_ok,Act.after_nil,← parseConnect_eq]
    rw [parseSelected,Keyword.parse,h]
    rfl
  · rcases exists_argument h with rfl | ⟨arg,rfl⟩
    · refine iff_of_false (fun he => ?_) (fun hc => absurd hc.1 (by decide))
      rw [connectWords,loopWord_outside (by decide)] at he
      cases he
    · obtain ⟨s,rest,hs,h0⟩ := List.eq_append_cons_of_mem (show (0 : UInt8) ∈ arg ++ [0] by simp)
      have htmp : ascii "connect" ++ 32 :: arg ++ [0] = (ascii "connect" ++ [32]) ++ (s ++ 0 :: rest) := by
        rw [← hs]
        simp
      have hfirst : firstWord ((ascii "connect" ++ 32 :: arg).drop 7) = firstWord arg := rfl
      have hsecond : secondWord ((ascii "connect" ++ 32 :: arg).drop 7) = secondWord arg := rfl
      have hagree := words_agree_iff hs h0
      rw [htmp,connectWords_eq (ascii "connect" ++ [32]) h0 rest rfl,hfirst,hsecond]
      constructor
      · intro he
        split at he
        · rename_i hl
          obtain ⟨h₁,h₂⟩ : firstWord s = firstWord arg ∧ secondWord s = secondWord arg := by simpa using he
          rw [h₁,h₂] at hl
          exact ⟨by simp [ascii],hl.1,hl.2,hagree.mp ⟨h₁,h₂⟩⟩
        · cases he
      · rintro ⟨_,hl₁,hl₂,h0'⟩
        obtain ⟨h₁,h₂⟩ := hagree.mpr h0'
        rw [h₁,h₂,if_pos ⟨hl₁,hl₂⟩]

theorem connect_in_bounds_address :
    connectWords (ascii "connect  1.1.1.1 80" ++ [0]) 7 = .ok (ascii "1.1.1.1",ascii "80") [] :=
  (connect_in_bounds_iff (ascii "connect  1.1.1.1 80") (by decide)).2.mpr (by decide)

/-- Without an argument the first loop starts behind the NUL of the copy. -/
theorem connect_without_argument : token (ascii "connect") = ascii "connect" ∧
    connectWords (ascii "connect" ++ [0]) 7 = .fail .outOfBounds .control ∧
    ctrlParse (ascii "connect") = .fail .outOfBounds .control := by
  decide

end MyProgram.SkynetGate
