import MyProgram.Json.Model

/-! Which byte strings survive being encoded and decoded. -/
namespace MyProgram.Json
open Lib
variable {c x : UInt8} {s t r : Bytes}

/-- A byte that is written as a `\u` escape. -/
def Control (c : UInt8) : Prop := c < 32 ∧ escapeCharMap.lookup c = none

instance : DecidablePred Control := fun c => inferInstanceAs (Decidable (c < 32 ∧ escapeCharMap.lookup c = none))

/-- A backslash and a `u` with four bytes of encoded text behind them: this looks like an
escape once the string is encoded. -/
def Clashes (s : Bytes) : Prop := ∃ a t, s = a ++ 92 :: 117 :: t ∧ 4 ≤ (escape t).length

/-- A string in which the substitutions cannot go wrong. -/
def Fine (s : Bytes) : Prop := (∃ c ∈ s, Control c) → ¬Clashes s

theorem fine_of_no_control (h : ∀ c ∈ s, ¬Control c) : Fine s := fun ⟨c,hc,hcontrol⟩ => absurd hcontrol (h c hc)

theorem fine_of_no_u (h : 117 ∉ s) : Fine s := by
  rintro _ ⟨a,t,rfl,_⟩
  simp at h

/-- A byte as it is written. -/
private def token (c : UInt8) : Bytes := if c < 32 ∨ c = 92 ∨ c = 34 then escapeChar c else [c]

/-- A byte behind the substitution of the `\u` escapes. -/
private def half (c : UInt8) : Bytes := if Control c then [c] else token c

private theorem escape_cons : escape (c :: s) = token c ++ escape s := rfl

/-- How a byte is written: as it is, with a letter, or with its number. -/
private inductive Written (c : UInt8) : Prop
  | plain (h : token c = [c]) (hge : 32 ≤ c) (hb : c ≠ 92) (hq : c ≠ 34) (hc : ¬Control c) (hl : escapeCharMap.lookup c = none)
  | short (x : UInt8) (h : token c = [92,x]) (hx : x ≠ 117) (hge : 32 ≤ x) (hmem : (ascii "\\/\"bfnrtu").contains x = true)
      (hinv : escapeCharMapInv.lookup [92,x] = some c) (hc : ¬Control c) (hl : escapeCharMap.lookup c ≠ none)
  | control (h : token c = 92 :: 117 :: hex4 c) (hc : Control c)

private theorem written_short : escapeCharMap.all (fun e => token e.1 == [92,e.2.getD 1 0] && e.2.getD 1 0 != 117 &&
    decide (32 ≤ e.2.getD 1 0) && (ascii "\\/\"bfnrtu").contains (e.2.getD 1 0) &&
    escapeCharMapInv.lookup [92,e.2.getD 1 0] == some e.1) = true := by decide

private theorem written (c : UInt8) : Written c := by
  cases hl : escapeCharMap.lookup c with
  | some s =>
    obtain ⟨l₁,l₂,he,_⟩ := List.lookup_eq_some_iff.mp hl
    have hm : (c,s) ∈ escapeCharMap := by rw [he]; simp
    have hc : ¬Control c := fun h => by rw [h.2] at hl; cases hl
    have hall := List.all_eq_true.mp written_short _ hm
    simp only [Bool.and_eq_true,beq_iff_eq,bne_iff_ne,decide_eq_true_eq] at hall
    obtain ⟨⟨⟨⟨h,hx⟩,hge⟩,hmem⟩,hinv⟩ := hall
    exact .short _ h hx hge hmem hinv hc (by rw [hl]; simp)
  | none =>
    have hq : c ≠ 92 := fun h => by subst h; simp [escapeCharMap] at hl
    have hb : c ≠ 34 := fun h => by subst h; simp [escapeCharMap] at hl
    by_cases h32 : c < 32
    · refine .control ?_ ⟨h32,hl⟩
      rw [token,if_pos (.inl h32),escapeChar,hl]
    · refine .plain ?_ (UInt8.not_lt.mp h32) hq hb (fun h => h32 h.1) hl
      rw [token,if_neg (by simp [h32,hq,hb])]

/-! The loop that finds the closing quote. -/

/-- The flags behind a string. -/
private def flags (f : Flags) (s : Bytes) : Flags :=
  { f with unicode := f.unicode || s.any (decide <| Control ·), escape := f.escape || s.any fun c => (escapeCharMap.lookup c).isSome }

private theorem scan_unescaped (start : Nat) (f : Flags) (seen : Bytes) (x : UInt8) (rest : Bytes) :
    scanString start false f seen (x :: rest) =
      if x < 32 then .error (.message .controlCharacter (rest.length + 1))
      else if x = 34 then .ok (f,seen,rest)
      else scanString start (x = 92) f (seen ++ [x]) rest := rfl

private theorem scan_escaped (start : Nat) (f : Flags) (seen : Bytes) (x : UInt8) (rest : Bytes) :
    scanString start true f seen (x :: rest) =
      if x < 32 then .error (.message .controlCharacter (rest.length + 1))
      else if x = 117 then
        if !hasFourHex (rest.take 5) then .error (.message .invalidUnicodeEscape (rest.length + 1))
        else if startsSurrogate (rest.take 5) then scanString start false { f with surrogate := true } (seen ++ [x]) rest
        else scanString start false { f with unicode := true } (seen ++ [x]) rest
      else if !(ascii "\\/\"bfnrtu").contains x then .error (.message (.invalidEscape x) (rest.length + 1))
      else scanString start false { f with escape := true } (seen ++ [x]) rest := rfl

private theorem scan_plain (start : Nat) (f : Flags) (seen : Bytes) (hge : 32 ≤ x) (hb : x ≠ 92) (hq : x ≠ 34) (rest : Bytes) :
    scanString start false f seen (x :: rest) = scanString start false f (seen ++ [x]) rest := by
  rw [scan_unescaped,if_neg (by simpa using hge),if_neg hq,decide_eq_false hb]

private theorem scan_backslash (start : Nat) (f : Flags) (seen rest : Bytes) :
    scanString start false f seen (92 :: rest) = scanString start true f (seen ++ [92]) rest := by
  rw [scan_unescaped,if_neg (by decide),if_neg (by decide),decide_eq_true rfl]

/-- What is checked for the numbers below 32 holds of the bytes below 32. -/
private theorem of_all_small {P : UInt8 → Bool} (hall : (List.range 32).all (fun n => P (UInt8.ofNat n)) = true) (h : c < 32) :
    P c = true := by
  have hn : c.toNat < 32 := by simpa [UInt8.lt_iff_toNat_lt] using h
  simpa using List.all_eq_true.mp hall c.toNat (List.mem_range.mpr hn)

private theorem hex4_digits (h : c < 32) : ∀ d ∈ hex4 c, isHex d = true ∧ 32 ≤ d ∧ d ≠ 92 ∧ d ≠ 34 := by
  intro d hd
  have hall := of_all_small (P := fun c => (hex4 c).all fun d => isHex d && decide (32 ≤ d) && d != 92 && d != 34)
    (by decide) h
  simpa [and_assoc] using List.all_eq_true.mp hall d hd

private theorem scan_plains (start : Nat) (f : Flags) (seen l rest : Bytes) (h : ∀ d ∈ l, 32 ≤ d ∧ d ≠ 92 ∧ d ≠ 34) :
    scanString start false f seen (l ++ rest) = scanString start false f (seen ++ l) rest := by
  induction l generalizing seen with
  | nil => simp
  | cons d l ih =>
    obtain ⟨h1,h2,h3⟩ := h d List.mem_cons_self
    rw [List.cons_append,scan_plain _ _ _ h1 h2 h3,ih _ fun e he => h e (List.mem_cons_of_mem _ he)]
    simp

/-- The loop over one byte of the string. -/
private theorem scan_token (start : Nat) (f : Flags) (seen : Bytes) (c : UInt8) (rest : Bytes) :
    scanString start false f seen (token c ++ rest) = scanString start false (flags f [c]) (seen ++ token c) rest := by
  cases written c with
  | plain h hge hb hq hc hl =>
    rw [h,List.singleton_append,scan_plain _ _ _ hge hb hq]
    simp [flags,hc,hl]
  | short x h hx hge hmem hinv hc hl =>
    rw [h,List.cons_append,scan_backslash,List.singleton_append,scan_escaped,if_neg (by simpa using hge),if_neg hx,hmem]
    have hsome : (escapeCharMap.lookup c).isSome = true := Option.isSome_iff_ne_none.mpr hl
    simp [flags,hc,hsome]
  | control h hc =>
    have hd := hex4_digits hc.1
    obtain ⟨h1,h2,he⟩ : ∃ h1 h2, hex4 c = [48,48,h1,h2] := ⟨_,_,rfl⟩
    have hhex : hasFourHex ((hex4 c ++ rest).take 5) = true := by
      rw [he] at hd ⊢
      have hx1 := (hd h1 (by simp)).1
      have hx2 := (hd h2 (by simp)).1
      have hx0 : isHex 48 = true := by decide
      cases rest with
      | nil => simp [hasFourHex,hx0,hx1,hx2]
      | cons y rest => simp [hasFourHex,hx0,hx1,hx2]
    have hsur : startsSurrogate ((hex4 c ++ rest).take 5) = false := by
      rw [he]
      rfl
    rw [h,List.cons_append,scan_backslash,List.cons_append,scan_escaped,if_neg (by decide),if_pos rfl,hhex,hsur]
    have hrest := scan_plains start { f with unicode := true } (seen ++ [92,117]) (hex4 c) rest fun d hm => (hd d hm).2
    simpa [flags,hc,hc.2] using hrest

private theorem scan_escape (start : Nat) (f : Flags) (seen s r : Bytes) :
    scanString start false f seen (escape s ++ 34 :: r) = .ok (flags f s,seen ++ escape s,r) := by
  induction s generalizing f seen with
  | nil =>
    change scanString start false f seen (34 :: r) = _
    rw [scan_unescaped,if_neg (by decide),if_pos rfl]
    simp [escape,flags]
  | cons c s ih =>
    rw [escape_cons,List.append_assoc,scan_token,ih,List.append_assoc]
    simp [flags,Bool.or_assoc]

/-! The substitutions. -/

private theorem unicodeFound_of_ne (h : c ≠ 92) (l : Bytes) : unicodeFound (c :: l) = false := by
  unfold unicodeFound
  split
  · rename_i he
    cases he
    exact absurd rfl h
  · rfl

private theorem unicodeFound_short (hx : x ≠ 117) (l : Bytes) : unicodeFound (92 :: x :: l) = false := by
  unfold unicodeFound
  split
  · rename_i he
    cases he
    exact absurd rfl hx
  · rfl

private theorem escapeFound_of_ne (h : c ≠ 92) (l : Bytes) : escapeFound (c :: l) = false := by
  unfold escapeFound
  split
  · rename_i he
    cases he
    exact absurd rfl h
  · rfl

private theorem unicode_control (h : c < 32) : parseUnicodeEscape (92 :: 117 :: hex4 c) = .ok [c] := by
  have hall := of_all_small (P := fun c => decide (parseUnicodeEscape (92 :: 117 :: hex4 c) = .ok [c])) (by decide) h
  exact of_decide_eq_true hall

/-- Only an escaped backslash can be taken for the start of a `\u` escape. -/
private theorem unicode_token (c : UInt8) (l : Bytes) (h : c = 92 → unicodeFound (92 :: l) = false) :
    gsub 6 unicodeFound parseUnicodeEscape (token c ++ l) = (gsub 6 unicodeFound parseUnicodeEscape l).map (half c ++ ·) := by
  cases written c with
  | plain ht hge hb hq hc hl =>
    rw [half,if_neg hc,ht,List.singleton_append,gsub_copy (unicodeFound_of_ne hb l)]
    rfl
  | short x ht hx hge hmem hinv hc hl =>
    have hlast : unicodeFound (x :: l) = false := by
      by_cases hx92 : x = 92
      · subst hx92
        refine h ?_
        rw [show escapeCharMapInv.lookup [92,92] = some 92 from by decide] at hinv
        exact (Option.some_inj.mp hinv).symm
      · exact unicodeFound_of_ne hx92 l
    rw [half,if_neg hc,ht,List.cons_append,List.singleton_append,gsub_copy (unicodeFound_short hx l),gsub_copy hlast]
    cases gsub 6 unicodeFound parseUnicodeEscape l <;> rfl
  | control ht hc =>
    rw [half,if_pos hc,ht,gsub_match (show (92 :: 117 :: hex4 c).length = 6 from rfl) (List.cons_ne_nil _ _) rfl,
      unicode_control hc.1]
    cases gsub 6 unicodeFound parseUnicodeEscape l <;> rfl

private theorem escape_half (c : UInt8) (l : Bytes) :
    gsub 2 escapeFound unescape (half c ++ l) = (gsub 2 escapeFound unescape l).map (c :: ·) := by
  cases written c with
  | plain ht hge hb hq hc hl =>
    rw [half,if_neg hc,ht,List.singleton_append,gsub_copy (escapeFound_of_ne hb l)]
  | short x ht hx hge hmem hinv hc hl =>
    rw [half,if_neg hc,ht,gsub_match (show [92,x].length = 2 from rfl) (List.cons_ne_nil _ _) rfl,unescape,hinv]
    cases gsub 2 escapeFound unescape l <;> rfl
  | control ht hc =>
    have hne : c ≠ 92 := fun h => by
      rw [h] at hc
      exact absurd hc.1 (by decide)
    rw [half,if_pos hc,List.singleton_append,gsub_copy (escapeFound_of_ne hne l)]

private theorem token_head (h : c ≠ 117) (l : Bytes) : ∃ d m, token c ++ l = d :: m ∧ d ≠ 117 := by
  cases written c with
  | plain ht => exact ⟨c,l,by rw [ht]; rfl,h⟩
  | short x ht => exact ⟨92,x :: l,by rw [ht]; rfl,by decide⟩
  | control ht => exact ⟨92,117 :: hex4 c ++ l,by rw [ht]; rfl,by decide⟩

/-- Behind an escaped backslash a `\u` escape is found where the string has a `u`. -/
private theorem unicodeFound_escape (s : Bytes) :
    unicodeFound (92 :: escape s) = true ↔ ∃ t, s = 117 :: t ∧ 4 ≤ (escape t).length := by
  cases s with
  | nil => simp [escape,unicodeFound]
  | cons c s =>
    by_cases hc : c = 117
    · subst hc
      rw [escape_cons,show token 117 = [117] from by decide,List.singleton_append]
      constructor
      · intro h
        refine ⟨s,rfl,?_⟩
        unfold unicodeFound at h
        split at h
        · rename_i he
          simp only [List.cons.injEq] at he
          rw [he.2.2]
          simp
        · cases h
      · rintro ⟨t,ht,hlen⟩
        cases ht
        match he : escape s, hlen with
        | a :: b :: d :: e :: l, _ => rfl
    · obtain ⟨d,m,he,hd⟩ := token_head hc (escape s)
      rw [escape_cons,he,unicodeFound_short hd]
      simp [hc]

private theorem clashes_cons : Clashes (c :: s) ↔ (c = 92 ∧ unicodeFound (92 :: escape s) = true) ∨ Clashes s := by
  rw [unicodeFound_escape]
  constructor
  · rintro ⟨a,t,he,hlen⟩
    cases a with
    | nil =>
      cases he
      exact .inl ⟨rfl,t,rfl,hlen⟩
    | cons b a =>
      cases he
      exact .inr ⟨a,t,rfl,hlen⟩
  · rintro (⟨rfl,t,rfl,hlen⟩ | ⟨a,t,rfl,hlen⟩)
    · exact ⟨[],t,rfl,hlen⟩
    · exact ⟨c :: a,t,rfl,hlen⟩

private theorem unicode_escape (h : ¬Clashes s) : gsub 6 unicodeFound parseUnicodeEscape (escape s) = .ok (s.flatMap half) := by
  induction s with
  | nil => rfl
  | cons c s ih =>
    rw [clashes_cons,not_or,not_and,Bool.not_eq_true] at h
    rw [escape_cons,unicode_token c _ h.1,ih h.2]
    rfl

private theorem escape_halves (s : Bytes) : gsub 2 escapeFound unescape (s.flatMap half) = .ok s := by
  induction s with
  | nil => rfl
  | cons c s ih =>
    rw [List.flatMap_cons,escape_half,ih]
    rfl

private theorem substitute_eq (u e : Bool) (s : Bytes) : substitute ⟨u,false,e⟩ s =
    ((if u then gsub 6 unicodeFound parseUnicodeEscape s else pure s) >>= fun s => if e then gsub 2 escapeFound unescape s else pure s) := by
  cases u <;> cases e <;> rfl

private theorem substitute_fine (h : Fine s) : substitute (flags ⟨false,false,false⟩ s) (escape s) = .ok s := by
  have hunicode : (if s.any (decide <| Control ·) then gsub 6 unicodeFound parseUnicodeEscape (escape s) else pure (escape s)) =
      .ok (s.flatMap half) := by
    split
    · rename_i hu
      refine unicode_escape (h ?_)
      simpa using hu
    · rename_i hu
      have hnone : ∀ c ∈ s, ¬Control c := by simpa using hu
      refine congrArg Except.ok (List.flatMap_congr fun c hc => ?_)
      rw [half,if_neg (hnone c hc)]
      rfl
  have hescape : (if s.any (fun c => (escapeCharMap.lookup c).isSome) then gsub 2 escapeFound unescape (s.flatMap half)
      else pure (s.flatMap half)) = .ok s := by
    split
    · exact escape_halves s
    · rename_i he
      have hnone : ∀ c ∈ s, escapeCharMap.lookup c = none := by
        intro c hc
        exact Option.not_isSome_iff_eq_none.mp (List.any_eq_false.mp (Bool.eq_false_of_not_eq_true he) c hc)
      have hone : s.flatMap half = s.flatMap fun c => [c] := by
        refine List.flatMap_congr fun c hc => ?_
        cases written c with
        | plain ht hge hb hq hn => rw [half,if_neg hn,ht]
        | short x ht hx hge hmem hinv hn hl => exact absurd (hnone c hc) hl
        | control ht hn => rw [half,if_pos hn]
      rw [hone]
      simp [pure,Except.pure]
  rw [flags,Bool.false_or,Bool.false_or,substitute_eq,hunicode]
  exact hescape

/-- What a number of four digits becomes. -/
private theorem codepoint_short {n : Int} {cs : Bytes} (hn : n ≤ 0xffff) (h : codepointToUtf8 n = .ok cs) :
    ∃ c0 cs', cs = c0 :: cs' ∧ cs'.length ≤ 2 ∧ 92 ∉ cs' := by
  have hchar {m : Int} (h0 : 0 ≤ m) (h1 : m < 256) : char m = .ok (UInt8.ofNat m.toNat) := if_pos ⟨h0,h1⟩
  have hne {m : Int} (h0 : 128 ≤ m) (h1 : m < 256) : 92 ≠ UInt8.ofNat m.toNat := fun he => by
    have := congrArg UInt8.toNat he
    rw [UInt8.toNat_ofNat_of_lt' (by simp [UInt8.size]; omega)] at this
    simp at this
    omega
  unfold codepointToUtf8 at h
  split at h
  · by_cases h0 : 0 ≤ n
    · simp only [List.mapM_cons,List.mapM_nil,hchar h0 (by omega)] at h
      cases h
      exact ⟨_,[],rfl,by simp,by simp⟩
    · simp only [List.mapM_cons,char,if_neg (show ¬(0 ≤ n ∧ n < 256) by omega)] at h
      cases h
  split at h
  · simp only [List.mapM_cons,List.mapM_nil,hchar (m := n / 64 + 192) (by omega) (by omega),
      hchar (m := n % 64 + 128) (by omega) (by omega)] at h
    cases h
    exact ⟨_,_,rfl,by simp,by simpa using hne (by omega) (by omega)⟩
  · simp only [List.mapM_cons,List.mapM_nil,hchar (m := n / 4096 + 224) (by omega) (by omega),
      hchar (m := n % 4096 / 64 + 128) (by omega) (by omega),hchar (m := n % 64 + 128) (by omega) (by omega)] at h
    cases h
    refine ⟨_,_,rfl,by simp,?_⟩
    simp only [List.mem_cons,List.not_mem_nil,or_false,not_or]
    exact ⟨hne (by omega) (by omega),hne (by omega) (by omega)⟩

/-- Encoded text without a backslash stands for itself. -/
private theorem escape_prefix {u v : Bytes} (h : escape t = u ++ v) (hu : 92 ∉ u) : ∃ t', t = u ++ t' ∧ v = escape t' := by
  induction u generalizing t with
  | nil => exact ⟨t,rfl,h.symm⟩
  | cons b u ih =>
    obtain ⟨hb,hno⟩ := not_or.mp (mt List.mem_cons.mpr hu)
    cases t with
    | nil => cases h
    | cons c t =>
      rw [escape_cons] at h
      cases written c with
      | plain ht =>
        rw [ht] at h
        obtain ⟨rfl,hrest⟩ := List.cons.inj h
        obtain ⟨t',rfl,hv⟩ := ih hrest hno
        exact ⟨t',rfl,hv⟩
      | short x ht =>
        rw [ht] at h
        exact absurd (List.cons.inj h).1 hb
      | control ht =>
        rw [ht] at h
        exact absurd (List.cons.inj h).1 hb

private theorem escape_copies {u v : Bytes} (hu : 92 ∉ u) :
    gsub 2 escapeFound unescape (u ++ v) = (gsub 2 escapeFound unescape v).map (u ++ ·) := by
  induction u with
  | nil =>
    rw [List.nil_append]
    cases gsub 2 escapeFound unescape v <;> rfl
  | cons b u ih =>
    obtain ⟨hb,hu⟩ := not_or.mp (mt List.mem_cons.mpr hu)
    rw [List.cons_append,gsub_copy (escapeFound_of_ne (Ne.symm hb) _),ih hu]
    cases gsub 2 escapeFound unescape v <;> rfl

/-- Four bytes that are taken for a `\u` escape become at most three, and are no escapes
themselves. -/
private theorem unicode_four {u cs : Bytes} (hlen : u.length = 4) (h : parseUnicodeEscape (92 :: 117 :: u) = .ok cs) :
    92 ∉ u ∧ ∃ c0 cs', cs = c0 :: cs' ∧ cs'.length ≤ 2 ∧ 92 ∉ cs' := by
  have htake : ((92 :: 117 :: u).drop 2).take 4 = u := List.take_of_length_le (Nat.le_of_eq hlen)
  have hdrop : ((92 :: 117 :: u).drop 8).take 4 = [] := by
    rw [List.drop_eq_nil_of_le (by simp [hlen])]
    rfl
  rw [parseUnicodeEscape,htake,hdrop,show tonumber 16 [] = none from by decide] at h
  cases hn : tonumber 16 u with
  | none =>
    rw [hn] at h
    cases h
  | some n =>
    rw [hn] at h
    obtain ⟨hlt,hbytes⟩ := tonumber_bytes (by decide) hn
    rw [hlen] at hlt
    refine ⟨fun hm => ?_,codepoint_short (by omega) h⟩
    have := hbytes 92 hm
    revert this
    decide

private theorem unescape_length {u : Bytes} (h : unescape [92,c] = .ok u) : u.length ≤ 2 := by
  cases h
  split <;> simp

/-- A clash: the text that is taken for an escape is lost. -/
private theorem clash_shrinks {out y : Bytes} (hlen : 4 ≤ (escape t).length)
    (hout : gsub 6 unicodeFound parseUnicodeEscape (escape (92 :: 117 :: t)) = .ok out) (hy : gsub 2 escapeFound unescape out = .ok y) :
    ∃ t' out' y', t'.length + 4 = t.length ∧ gsub 6 unicodeFound parseUnicodeEscape (escape t') = .ok out' ∧
      gsub 2 escapeFound unescape out' = .ok y' ∧ y.length ≤ y'.length + 4 := by
  have hsplit : escape (92 :: 117 :: t) = 92 :: ((92 :: 117 :: (escape t).take 4) ++ (escape t).drop 4) := by
    rw [escape_cons,escape_cons,List.cons_append,List.cons_append,List.take_append_drop]
    rfl
  have htake : ((escape t).take 4).length = 4 := by
    rw [List.length_take]
    omega
  have hfound : unicodeFound ((92 :: 117 :: (escape t).take 4) ++ (escape t).drop 4) = true := by
    rw [List.cons_append,List.cons_append,List.take_append_drop]
    have := (unicodeFound_escape (117 :: t)).mpr ⟨t,rfl,hlen⟩
    rwa [escape_cons] at this
  have hcopy : unicodeFound (92 :: ((92 :: 117 :: (escape t).take 4) ++ (escape t).drop 4)) = false :=
    unicodeFound_short (by decide) _
  rw [hsplit,gsub_copy hcopy,gsub_match (by simp [htake]) (List.cons_ne_nil _ _) hfound] at hout
  obtain ⟨mid,hmid,rfl⟩ := map_eq_ok hout
  obtain ⟨cs,hcs,hmid⟩ := bind_eq_ok hmid
  obtain ⟨hno,c0,cs',rfl,hle,hno'⟩ := unicode_four htake hcs
  obtain ⟨t',ht,hdrop⟩ := escape_prefix (List.take_append_drop 4 (escape t)).symm hno
  rw [hdrop] at hmid
  obtain ⟨out',hz,hmid⟩ := bind_eq_ok hmid
  cases hmid
  have hgoal : gsub 2 escapeFound unescape (92 :: (c0 :: cs' ++ out')) =
      unescape [92,c0] >>= fun u => gsub 2 escapeFound unescape (cs' ++ out') >>= fun o => pure (u ++ o) :=
    gsub_match (show [92,c0].length = 2 from rfl) (List.cons_ne_nil _ _) rfl
  rw [hgoal,escape_copies hno'] at hy
  obtain ⟨u,hu,hy⟩ := bind_eq_ok hy
  obtain ⟨o,ho,hy⟩ := bind_eq_ok hy
  obtain ⟨y',hy',rfl⟩ := map_eq_ok ho
  cases hy
  refine ⟨t',out',y',?_,hz,hy',?_⟩
  · rw [ht,List.length_append,htake]
    omega
  · have hu2 := unescape_length hu
    simp only [List.length_append]
    omega

/-- Decoding never makes a string longer, and a clash makes it shorter. -/
private theorem shrinks {out y : Bytes} (hout : gsub 6 unicodeFound parseUnicodeEscape (escape s) = .ok out)
    (hy : gsub 2 escapeFound unescape out = .ok y) : y.length ≤ s.length ∧ (Clashes s → y.length < s.length) := by
  induction hn : s.length using Nat.strong_induction_on generalizing s out y with
  | _ n ih =>
  subst hn
  cases s with
  | nil =>
    cases hout
    cases hy
    exact ⟨Nat.le_refl _,fun ⟨a,t,he,_⟩ => absurd he (by simp)⟩
  | cons c s =>
    by_cases hf : c = 92 ∧ unicodeFound (92 :: escape s) = true
    · obtain ⟨rfl,hfound⟩ := hf
      obtain ⟨t,rfl,hlen⟩ := (unicodeFound_escape s).mp hfound
      obtain ⟨t',out',y',ht,hout',hy',hle⟩ := clash_shrinks hlen hout hy
      have hih := (ih t'.length (by simp only [List.length_cons]; omega) hout' hy' rfl).1
      simp only [List.length_cons]
      exact ⟨by omega,fun _ => by omega⟩
    · have hhead : c = 92 → unicodeFound (92 :: escape s) = false := fun hc => by simpa [hc] using hf
      rw [escape_cons,unicode_token c _ hhead] at hout
      obtain ⟨out',hout',rfl⟩ := map_eq_ok hout
      rw [escape_half] at hy
      obtain ⟨y',hy',rfl⟩ := map_eq_ok hy
      obtain ⟨hle,hlt⟩ := ih s.length (by simp) hout' hy' rfl
      simp only [List.length_cons]
      refine ⟨by omega,fun hcl => ?_⟩
      have := hlt ((clashes_cons.mp hcl).resolve_left hf)
      omega

private theorem parseString_eq (s r : Bytes) : parseString (escape s ++ 34 :: r) =
    match substitute (flags ⟨false,false,false⟩ s) (escape s) with
    | .ok s' => .ok (s',r)
    | .error e => .error (.raised e) := by
  rw [parseString,scan_escape,List.nil_append]
  rfl

/-- A string that is fine is read back. -/
theorem parseString_fine (h : Fine s) (r : Bytes) : parseString (escape s ++ 34 :: r) = .ok (s,r) := by
  rw [parseString_eq,substitute_fine h]

/-- Any other string is read back shorter, or not at all. -/
theorem parseString_not_fine (h : ¬Fine s) (r : Bytes) :
    (∃ y, parseString (escape s ++ 34 :: r) = .ok (y,r) ∧ y.length < s.length) ∨
      ∃ e, parseString (escape s ++ 34 :: r) = .error (.raised e) := by
  obtain ⟨hcontrol,hclash⟩ := Classical.not_imp.mp h
  rw [not_not] at hclash
  have hu : s.any (decide <| Control ·) = true := by simpa using hcontrol
  have he : s.any (fun c => (escapeCharMap.lookup c).isSome) = true := by
    obtain ⟨a,t,rfl,_⟩ := hclash
    rw [List.any_append,List.any_cons]
    simp [escapeCharMap]
  rw [parseString_eq,flags,hu,he,Bool.or_true,substitute_eq,if_pos rfl]
  simp only [if_true]
  cases hout : gsub 6 unicodeFound parseUnicodeEscape (escape s) with
  | error e => exact .inr ⟨e,rfl⟩
  | ok out =>
    cases hy : gsub 2 escapeFound unescape out with
    | error e => exact .inr ⟨e,by simp [bind,Except.bind,hy]⟩
    | ok y => exact .inl ⟨y,by simp [bind,Except.bind,hy],(shrinks hout hy).2 hclash⟩

end MyProgram.Json
