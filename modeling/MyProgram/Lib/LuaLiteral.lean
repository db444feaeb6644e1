import MyProgram.Lib.LuaPattern

/-! Patterns without magic characters, and where such a pattern stands in a text. -/
namespace MyProgram.Lib.LuaPattern

/-- The items of a pattern in which every byte stands for itself. -/
def literal (p : Bytes) : List Item := p.map fun b => .single (.lit b) .once

/-- Letters, digits and the underscore stand for themselves wherever they stand. -/
def isWord (b : UInt8) : Bool := isAlpha b || isDigit b || b == 95

variable {p k s t x news src : Bytes} {cs : List Capture} {last : Bool}

theorem not_word_of_mem (b : UInt8) (hb : b ∈ [36,37,40,41,42,43,45,46,63,91,94]) : isWord b = false := by
  have hall : ([36,37,40,41,42,43,45,46,63,91,94].all fun b => !isWord b) = true := by decide
  simpa using List.all_eq_true.mp hall b hb

private theorem ne_of_word {b c : UInt8} (hb : isWord b = true) (hc : c ∈ [36,37,40,41,42,43,45,46,63,91,94]) : b ≠ c := by
  intro h
  rw [h,not_word_of_mem c hc] at hb
  exact Bool.false_ne_true hb

private theorem parseSuffix_word (hk : ∀ b ∈ k, isWord b = true) : parseSuffix k = (.once,k) := by
  cases k with
  | nil => rfl
  | cons b k =>
    have hb := hk b (by simp)
    have h1 := ne_of_word hb (c := 63) (by decide)
    have h2 := ne_of_word hb (c := 42) (by decide)
    have h3 := ne_of_word hb (c := 43) (by decide)
    have h4 := ne_of_word hb (c := 45) (by decide)
    simp [parseSuffix,h1,h2,h3,h4]

private theorem parseFrom_word (hk : ∀ b ∈ k, isWord b = true) : parseFrom k.length k = literal k := by
  induction k with
  | nil => rfl
  | cons b k ih =>
    have hb := hk b (by simp)
    have hk := fun c hc => hk c (List.mem_cons_of_mem b hc)
    have h1 := ne_of_word hb (c := 36) (by decide)
    have h2 := ne_of_word hb (c := 37) (by decide)
    have h3 := ne_of_word hb (c := 40) (by decide)
    have h4 := ne_of_word hb (c := 41) (by decide)
    have h5 := ne_of_word hb (c := 46) (by decide)
    have h6 := ne_of_word hb (c := 91) (by decide)
    rw [List.length_cons]
    simp [parseFrom,parseSingle,parseSuffix_word hk,ih hk,literal,h1,h2,h3,h4]

/-- A dollar sign is an anchor at the end of a pattern only. -/
theorem parse_dollar (hne : k ≠ []) (hk : ∀ b ∈ k, isWord b = true) : parse (36 :: k) = literal (36 :: k) := by
  rw [parse,List.length_cons]
  simp [parseFrom,parseSingle,parseSuffix_word hk,parseFrom_word hk,literal,hne]

theorem doMatch_literal (p s : Bytes) (cs : List Capture) :
    doMatch (literal p) s cs = .ok (if p.isPrefixOf s then some (p.length,cs) else none) := by
  induction p generalizing s with
  | nil => rfl
  | cons b p ih =>
    have hstep : doMatch (literal (b :: p)) s cs = _ := doMatch_once (.lit b) (literal p) s cs
    rw [hstep]
    cases s with
    | nil => rfl
    | cons c s =>
      rw [run_cons,List.isPrefixOf_cons_cons]
      by_cases hbc : b = c
      · rw [if_pos (by simp [Single.test,hbc]),firstMatch_cons,List.drop_succ_cons,List.drop_zero,ih]
        by_cases hp : p.isPrefixOf s = true
        · simp [hp,hbc,Nat.add_comm]
          rfl
        · simp [hp]
          rfl
      · rw [if_neg (by simp [Single.test,hbc]),if_neg (by simp [hbc])]

theorem addS_copy {b : UInt8} (hb : b ≠ 37) : addS src t cs (b :: news) = (addS src t cs news).map (b :: ·) := by
  cases news <;> exact if_neg hb

theorem addS_plain (hn : 37 ∉ news) : addS src t cs news = .ok news := by
  induction news with
  | nil => rfl
  | cons b news ih =>
    obtain ⟨hb,hn⟩ := not_or.mp fun h => hn (List.mem_cons.mpr h)
    rw [addS_copy (Ne.symm hb),ih hn]
    rfl

private theorem addS_escape {d : UInt8} {out : Bytes} (h : addS src t [] (37 :: d :: news) = .ok out) :
    ∃ out', addS src t [] news = .ok out' ∧ (out = t ++ out' ∨ d = 37 ∧ out = 37 :: out') := by
  unfold addS at h
  rw [if_pos rfl] at h
  dsimp only at h
  by_cases hd : isDigit d = true
  · have hone : oneCapture src t [] (d.toNat - 49) = .ok t ∨ ∃ e, oneCapture src t [] (d.toNat - 49) = .error e := by
      by_cases h1 : d.toNat - 49 = 0
      · exact Or.inl (by simp [oneCapture,h1])
      · exact Or.inr ⟨"invalid capture index %" ++ toString (d.toNat - 49 + 1),by simp [oneCapture,h1]⟩
    have htext : (addS src t [] news >>= fun out => pure (t ++ out)) = .ok out := by
      rw [if_pos hd] at h
      by_cases h0 : d = 48
      · rw [if_pos h0] at h
        exact h
      · rw [if_neg h0] at h
        rcases hone with hv | ⟨e,hv⟩
        · rw [hv] at h
          exact h
        · rw [hv] at h
          cases h
    obtain ⟨out',hout,he⟩ := bind_eq_ok htext
    exact ⟨out',hout,Or.inl (Except.ok.inj he).symm⟩
  · rw [if_neg hd] at h
    by_cases h37 : d = 37
    · rw [if_pos h37] at h
      obtain ⟨out',hout,he⟩ := map_eq_ok h
      exact ⟨out',hout,Or.inr ⟨h37,he⟩⟩
    · rw [if_neg h37] at h
      cases h

private theorem addS_ne (n : Nat) (news : Bytes) : addS src (36 :: t) [] news ≠ .ok (List.replicate (n + 1) 37 ++ news) := by
  induction hl : news.length using Nat.strong_induction_on generalizing n news with
  | _ l ih =>
    intro h
    cases news with
    | nil => cases h
    | cons b news =>
      by_cases hb : b = 37
      · cases news with
        | nil =>
          rw [hb] at h
          cases h
        | cons d news =>
          rw [hb] at h
          obtain ⟨out,hout,he | ⟨hd,he⟩⟩ := addS_escape h
          · rw [List.replicate_succ] at he
            exact absurd (List.cons.inj he).1 (by decide)
          · rw [List.replicate_succ] at he
            have hout' : out = List.replicate (n + 1 + 1) 37 ++ news := by
              rw [← (List.cons.inj he).2,hd,List.replicate_succ',List.replicate_succ']
              simp
            rw [hout'] at hout
            exact ih news.length (by simp at hl; omega) (n + 1) news rfl hout
      · rw [addS_copy hb] at h
        obtain ⟨out,_,he⟩ := map_eq_ok h
        rw [List.replicate_succ] at he
        exact hb (List.cons.inj he).1.symm

/-- A replacement string is copied as it is when it has no escape, and only then. -/
theorem addS_eq_iff : addS src (36 :: t) [] news = .ok news ↔ 37 ∉ news := by
  refine ⟨fun h => ?_,addS_plain⟩
  induction news with
  | nil => exact List.not_mem_nil
  | cons b news ih =>
    by_cases hb : b = 37
    · cases news with
      | nil =>
        rw [hb] at h
        cases h
      | cons d news =>
        rw [hb] at h
        obtain ⟨out,hout,he | ⟨hd,he⟩⟩ := addS_escape h
        · exact absurd (List.cons.inj he).1 (by decide)
        · rw [← (List.cons.inj he).2,hd] at hout
          exact absurd hout (addS_ne 0 news)
    · rw [addS_copy hb] at h
      obtain ⟨out,hout,he⟩ := map_eq_ok h
      rw [← (List.cons.inj he).2] at hout
      intro hm
      rcases List.mem_cons.mp hm with hm | hm
      · exact hb hm.symm
      · exact ih hout hm

private theorem scan_literal_ok (hp : p ≠ []) (src news s : Bytes) (last : Bool) :
    ∃ ps, scanFrom (literal p) last 0 s = .ok ps ∧
      substitute src news ps = Lib.gsub p.length (fun s => p.isPrefixOf s) (fun text => addS src text [] news) s := by
  induction hn : s.length using Nat.strong_induction_on generalizing s last with
  | _ n ih =>
    by_cases hpre : p.isPrefixOf s = true
    · obtain ⟨s,rfl⟩ := List.isPrefixOf_iff_prefix.mp hpre
      have hlen := List.length_pos_of_ne_nil hp
      rw [List.length_append] at hn
      obtain ⟨ps,hps,hsub⟩ := ih s.length (by omega) s true rfl
      have hm : doMatch (literal p) (p ++ s) [] = .ok (some (p.length,[])) := by
        rw [doMatch_literal,if_pos hpre]
      refine ⟨.found p [] :: ps,?_,?_⟩
      · rw [scanFrom_found hp hm,hps]
        rfl
      · rw [gsub_match rfl hp hpre,substitute_found,hsub]
    · cases s with
      | nil =>
        refine ⟨[],?_,rfl⟩
        rw [scanFrom_nil,doMatch_literal,if_neg hpre]
        rfl
      | cons b s =>
        rw [List.length_cons] at hn
        obtain ⟨ps,hps,hsub⟩ := ih s.length (by omega) s false rfl
        refine ⟨.copy b :: ps,?_,?_⟩
        · rw [scanFrom_copy (by rw [doMatch_literal,if_neg hpre]),hps]
          rfl
        · rw [gsub_copy (Bool.eq_false_iff.mpr hpre),substitute_copy,hsub]

/-- `string.gsub` with such a pattern searches for the bytes of the pattern. -/
theorem gsub_literal (hp : p ≠ []) (hscan : scan p s = scanFrom (literal p) false 0 s) (news : Bytes) :
    gsub s p news = Lib.gsub p.length (fun s => p.isPrefixOf s) (fun text => addS s text [] news) s := by
  obtain ⟨ps,hps,hsub⟩ := scan_literal_ok hp s news s false
  rw [gsub,hscan,hps,← hsub]
  rfl

/-- At how many places of a text the pattern stands. -/
def occurrences (p : Bytes) : Bytes → Nat
  | [] => 0
  | b :: s => (if p.isPrefixOf (b :: s) then 1 else 0) + occurrences p s

theorem occurrences_cons (p : Bytes) (b : UInt8) (s : Bytes) :
    occurrences p (b :: s) = (if p.isPrefixOf (b :: s) then 1 else 0) + occurrences p s := rfl

theorem occurrences_append_le (p x s : Bytes) : occurrences p s ≤ occurrences p (x ++ s) := by
  induction x with
  | nil => exact le_rfl
  | cons b x ih =>
    rw [List.cons_append,occurrences_cons]
    omega

theorem occurrences_append_self (hp : p ≠ []) (s : Bytes) : occurrences p s + 1 ≤ occurrences p (p ++ s) := by
  obtain ⟨b,p',rfl⟩ := List.exists_cons_of_ne_nil hp
  have hle := occurrences_append_le (b :: p') p' s
  have hpre : (b :: p').isPrefixOf (b :: (p' ++ s)) = true :=
    List.isPrefixOf_iff_prefix.mpr (List.prefix_append (b :: p') s)
  rw [List.cons_append,occurrences_cons,if_pos hpre]
  omega

/-- Text in which the pattern does not begin is copied. -/
theorem gsub_copies {repl : Bytes → Except LuaError Bytes} {width : Nat} (h : occurrences p (x ++ s) = occurrences p s) :
    Lib.gsub width (fun s => p.isPrefixOf s) repl (x ++ s) =
      (Lib.gsub width (fun s => p.isPrefixOf s) repl s).map (x ++ ·) := by
  induction x with
  | nil => cases hs : Lib.gsub width (fun s => p.isPrefixOf s) repl s <;> simp [hs,Except.map]
  | cons b x ih =>
    have hle := occurrences_append_le p x s
    rw [List.cons_append,occurrences_cons] at h
    have hb : p.isPrefixOf (b :: (x ++ s)) = false := by
      rw [Bool.eq_false_iff]
      intro hb
      rw [if_pos hb] at h
      omega
    rw [hb] at h
    rw [List.cons_append,gsub_copy hb,ih (by simpa using h)]
    cases Lib.gsub width (fun s => p.isPrefixOf s) repl s <;> rfl

end MyProgram.Lib.LuaPattern
