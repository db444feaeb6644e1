import MyProgram.Lib.LuaPattern

/-! The string functions of `luaext.lua` that take a separator: it is put into a Lua pattern
as it stands. -/
namespace MyProgram.Luaext.Separators
open Lib LuaPattern

/-- `string.split`; the callback collects what is found. -/
def split (s delim : Bytes) : Except LuaError (List Bytes) :=
  let pattern := ascii "[^" ++ delim ++ ascii "]+"
  gsubCalls s pattern

def ltrim (s : Bytes) (c : Option Bytes) : Except LuaError Bytes :=
  let pattern := ascii "^" ++ c.getD (ascii "%s") ++ ascii "+"
  gsub s pattern []

def rtrim (s : Bytes) (c : Option Bytes) : Except LuaError Bytes :=
  let pattern := c.getD (ascii "%s") ++ ascii "+" ++ ascii "$"
  gsub s pattern []

def trim (s : Bytes) (c : Option Bytes) : Except LuaError Bytes := do
  let s ← ltrim s c
  rtrim s c

/-- The non-empty parts between the separators, in order. -/
def SplitLiteral (s : Bytes) (c : UInt8) : Prop := split s [c] = .ok ((s.splitOn c).filter (· ≠ []))

/-- The text without its leading separators. -/
def LtrimLiteral (s : Bytes) (c : UInt8) : Prop := ltrim s (some [c]) = .ok (s.dropWhile (· = c))

/-- The text without its trailing separators. -/
def RtrimLiteral (s : Bytes) (c : UInt8) : Prop := rtrim s (some [c]) = .ok (s.rdropWhile (· = c))

/-- The text without its leading and trailing separators. -/
def TrimLiteral (s : Bytes) (c : UInt8) : Prop :=
  trim s (some [c]) = .ok ((s.dropWhile (· = c)).rdropWhile (· = c))

variable {s : Bytes} {b c : UInt8} {cs : List Capture}

/-- Neither a plus sign nor the separator. -/
def Apart (c : UInt8) (o : Option UInt8) : Prop := ∀ b ∈ o, b ≠ 43 ∧ b ≠ c

/-- `[` and `)` are malformed, a dot is any character, and behind `%` and `(` the plus sign
of the pattern stands for itself. -/
def LtrimReads (s : Bytes) (c : UInt8) : Prop :=
  c ≠ 91 ∧ c ≠ 41 ∧ (c = 46 → ∀ b ∈ s, b = 46) ∧ (c = 37 ∨ c = 40 → Apart c s.head?)

/-- The same at the end, where `^` is an anchor. -/
def RtrimReads (s : Bytes) (c : UInt8) : Prop :=
  c ≠ 91 ∧ c ≠ 41 ∧ (c = 46 → ∀ b ∈ s, b = 46) ∧ (c = 37 ∨ c = 40 → Apart c s.getLast?) ∧
    (c = 94 → s ≠ [43] ∧ ∀ b ∈ s.getLast?, b ≠ 94)

def TrimReads (s : Bytes) (c : UInt8) : Prop :=
  c ≠ 91 ∧ c ≠ 41 ∧ (c = 46 → ∀ b ∈ s, b = 46) ∧ (c = 37 ∨ c = 40 → Apart c s.head? ∧ Apart c s.getLast?) ∧
    (c = 94 → s.dropWhile (· = 94) ≠ [43] ∧ ∀ b ∈ (s.dropWhile (· = 94)).getLast?, b ≠ 94)

/-- A text without one plus sign at its start. -/
def dropPlus (s : Bytes) : Bytes := if s.head? = some 43 then s.tail else s

/-- A text without one plus sign at its end. -/
def dropLastPlus (s : Bytes) : Bytes := if s.getLast? = some 43 then s.dropLast else s

theorem split_literal_iff (s : Bytes) (c : UInt8) : SplitLiteral s c ↔ c ≠ 37 := by
  constructor
  · rintro h rfl
    have hp : parse (ascii "[^" ++ [37] ++ ascii "]+") = [.malformed "malformed pattern (missing ']')"] := by decide
    rw [SplitLiteral,split,gsubCalls] at h
    change (scanFrom (parse (ascii "[^" ++ [37] ++ ascii "]+")) false 0 s >>= firstValues s) = _ at h
    rw [hp,scanFrom_error rfl] at h
    cases h
  · intro hc
    have hp : parse [91,94,c,93,43] = [.single (.set true [c]) .plus] := by
      simp [parse,parseFrom,parseSingle,parseSuffix,setBody,hc]
    have htest (b : UInt8) : (!(Single.set true [c]).test b) = (b == c) := by
      simp [Single.test,inSet,Bool.beq_comm]
    rw [SplitLiteral,split,gsubCalls]
    change (scanFrom (parse [91,94,c,93,43]) false 0 s >>= firstValues s) = _
    rw [hp,scan_runs,List.splitOn_eq_splitOnP]
    simp only [htest]

theorem ltrim_eq (s : Bytes) (c : UInt8) : ltrim s (some [c]) = scanStart (parse [c,43]) s >>= substitute s [] := rfl

theorem rtrim_eq (s : Bytes) (hc : c ≠ 94) :
    rtrim s (some [c]) = scanFrom (parse [c,43,36]) false 0 s >>= substitute s [] := by
  have hp : scan (c :: [43,36]) s = scanFrom (parse [c,43,36]) false 0 s := by
    unfold scan
    split
    · rename_i p he
      exact absurd (List.cons.inj he).1 hc
    · rfl
  change scan (c :: [43,36]) s >>= substitute s [] = _
  rw [hp]

/-- The separators that stand for themselves before a repetition. -/
def Plain (c : UInt8) : Prop := c ≠ 37 ∧ c ≠ 40 ∧ c ≠ 41 ∧ c ≠ 46 ∧ c ≠ 91

theorem parse_plain (h : Plain c) : parse [c,43] = [.single (.lit c) .plus] ∧ parse [c,43,36] = [.single (.lit c) .plus,.atEnd] := by
  obtain ⟨h1,h2,h3,_,_⟩ := h
  constructor <;> simp [parse,parseFrom,parseSingle,parseSuffix,h1,h2,h3]

/-- The whole run is taken at the start. -/
theorem ltrim_run {x : Single} (hp : parse [c,43] = [.single x .plus]) : ltrim s (some [c]) = .ok (s.dropWhile x.test) := by
  have hm := doMatch_plus x s []
  rw [ltrim_eq,hp,← drop_run]
  by_cases hr : run x s = 0
  · rw [if_pos hr] at hm
    rw [removeStart_none hm,hr,List.drop_zero]
  · rw [if_neg hr] at hm
    exact removeStart hm

theorem rtrim_run {x : Single} (hc : c ≠ 94) (hp : parse [c,43,36] = [.single x .plus,.atEnd]) :
    rtrim s (some [c]) = .ok (s.rdropWhile x.test) := by
  rw [rtrim_eq s hc,hp,← stripEnd_all]
  exact removeEnd rfl (fun s => doMatch_plus_end x s []) s

/-- One plus sign and nothing else. -/
theorem doMatch_sign {x : Single} (hx : ∀ b, x.test b = (43 == b)) (s : Bytes) (cs : List Capture) :
    doMatch [.single x .once] s cs = .ok (if s.head? = some 43 then some (1,cs) else none) := by
  rw [doMatch_once]
  cases s with
  | nil => rfl
  | cons b s =>
    rw [run_cons,hx]
    by_cases hb : b = 43
    · simp [hb,firstMatch_cons]
      rfl
    · simp [hb,Ne.symm hb]

theorem doMatch_sign_end {x : Single} (hx : ∀ b, x.test b = (43 == b)) (s : Bytes) (cs : List Capture) :
    doMatch [.single x .once,.atEnd] s cs = .ok (if s == [43] then some (1,cs) else none) := by
  rw [doMatch_once]
  cases s with
  | nil => rfl
  | cons b s =>
    rw [run_cons,hx]
    by_cases hb : b = 43
    · cases s with
      | nil =>
        simp [hb,firstMatch_cons]
        rfl
      | cons a s =>
        simp [hb,firstMatch_cons]
        rfl
    · simp [hb,Ne.symm hb]

theorem ltrim_sign (hc : c = 37 ∨ c = 40) : ltrim s (some [c]) = .ok (dropPlus s) := by
  obtain ⟨cs,hm⟩ : ∃ cs, doMatch (parse [c,43]) s [] = .ok (if s.head? = some 43 then some (1,cs) else none) := by
    rcases hc with rfl | rfl
    · exact ⟨[],doMatch_sign (x := .cls 43) (fun _ => rfl) s []⟩
    · exact ⟨[.opened s],doMatch_sign (x := .lit 43) (fun _ => rfl) s [.opened s]⟩
  rw [ltrim_eq,dropPlus]
  by_cases hh : s.head? = some 43
  · rw [if_pos hh] at hm ⊢
    rw [removeStart hm,List.drop_one]
  · rw [if_neg hh] at hm ⊢
    exact removeStart_none hm

theorem rtrim_sign (hc : c = 37 ∨ c = 40) : rtrim s (some [c]) = .ok (dropLastPlus s) := by
  obtain ⟨cs,hm⟩ : ∃ cs, ∀ s : Bytes, doMatch (parse [c,43,36]) s [] = .ok (if s == [43] then some (s.length,cs) else none) := by
    have hlen (s : Bytes) (cs : List Capture) :
        (if s == [43] then some (1,cs) else none) = (if s == [43] then some (s.length,cs) else none) := by
      split
      · rename_i hs
        rw [eq_of_beq hs]
        rfl
      · rfl
    rcases hc with rfl | rfl
    · exact ⟨[],fun s => by rw [← hlen]; exact doMatch_sign_end (x := .cls 43) (fun _ => rfl) s []⟩
    · refine ⟨[.opened [43]],fun s => ?_⟩
      rw [← hlen]
      refine (doMatch_sign_end (x := .lit 43) (fun _ => rfl) s [.opened s]).trans ?_
      split
      · rename_i hs
        rw [eq_of_beq hs]
      · rfl
  rw [rtrim_eq s (by rcases hc with rfl | rfl <;> decide),dropLastPlus,← stripEnd_single]
  exact removeEnd rfl hm s

theorem trim_malformed (hc : c = 91 ∨ c = 41) : ∃ e, ltrim s (some [c]) = .error e ∧ rtrim s (some [c]) = .error e := by
  rcases hc with rfl | rfl
  · refine ⟨"malformed pattern (missing ']')",rfl,?_⟩
    rw [rtrim_eq s (by decide),scanFrom_error (e := "malformed pattern (missing ']')") rfl]
    rfl
  · refine ⟨"invalid pattern capture",rfl,?_⟩
    rw [rtrim_eq s (by decide),scanFrom_error (e := "invalid pattern capture") rfl]
    rfl

/-- With `^` the pattern is anchored, and its plus sign is a character. -/
theorem rtrim_caret (s : Bytes) : rtrim s (some [94]) = .ok (if s = [43] then [] else s) := by
  have hm := doMatch_sign_end (x := .lit 43) (fun _ => rfl) s []
  change scanStart (parse [43,36]) s >>= substitute s [] = _
  have hp : parse [43,36] = [.single (.lit 43) .once,.atEnd] := by decide
  rw [hp]
  by_cases hs : s = [43]
  · subst hs
    have hm : doMatch [.single (.lit 43) .once,.atEnd] [43] [] = .ok (some (1,[])) := rfl
    rw [removeStart hm,if_pos rfl]
    rfl
  · rw [if_neg (by simpa using hs)] at hm
    rw [removeStart_none hm,if_neg hs]

theorem dropPlus_eq_iff (hc : c ≠ 43) : dropPlus s = s.dropWhile (· = c) ↔ Apart c s.head? := by
  cases s with
  | nil => simp [dropPlus,Apart]
  | cons b s =>
    have hlen := (List.dropWhile_sublist (· = c) (l := s)).length_le
    by_cases hb : b = 43
    · subst hb
      rw [List.dropWhile_cons_of_neg (by simpa using hc.symm)]
      simp [dropPlus,Apart]
    · by_cases hbc : b = c
      · subst hbc
        simp only [dropPlus,Apart,List.head?_cons,Option.some.injEq,hb,if_false,List.dropWhile_cons_of_pos,decide_true]
        constructor
        · intro h
          rw [← h,List.length_cons] at hlen
          omega
        · intro h
          exact absurd rfl (h b rfl).2
      · rw [List.dropWhile_cons_of_neg (by simpa using hbc)]
        simp [dropPlus,Apart,hb,hbc]

theorem dropLastPlus_eq_iff (hc : c ≠ 43) : dropLastPlus s = s.rdropWhile (· = c) ↔ Apart c s.getLast? := by
  induction s using List.reverseRecOn with
  | nil => simp [dropLastPlus,Apart]
  | append_singleton s b _ =>
    have hlen := (List.rdropWhile_prefix (· = c) (l := s)).length_le
    rw [List.rdropWhile_concat]
    by_cases hb : b = 43
    · subst hb
      rw [if_neg (by simpa using hc.symm)]
      simp [dropLastPlus,Apart]
    · by_cases hbc : b = c
      · subst hbc
        simp only [dropLastPlus,Apart,List.getLast?_concat,Option.some.injEq,hb,if_false,decide_true,if_true]
        constructor
        · intro h
          rw [← h,List.length_append,List.length_singleton] at hlen
          omega
        · intro h
          exact absurd rfl (h b rfl).2
      · rw [if_neg (by simpa using hbc)]
        simp [dropLastPlus,Apart,hb,hbc]

/-- What is left after trimming starts and ends with another character. -/
theorem trimmed_apart (s : Bytes) (c : UInt8) :
    ((s.dropWhile (· = c)).rdropWhile (· = c)).head? ≠ some c ∧
      ((s.dropWhile (· = c)).rdropWhile (· = c)).getLast? ≠ some c := by
  constructor
  · intro h
    obtain ⟨t,ht⟩ := List.rdropWhile_prefix (· = c) (l := s.dropWhile (· = c))
    have hd := List.head?_dropWhile_not (· = c) s
    rw [← ht,List.head?_append,h] at hd
    simp at hd
  · intro h
    have hne : (s.dropWhile (· = c)).rdropWhile (· = c) ≠ [] := by
      intro hnil
      rw [hnil] at h
      cases h
    have hl := List.rdropWhile_last_not (· = c) (s.dropWhile (· = c)) hne
    rw [List.getLast?_eq_some_getLast hne] at h
    exact hl (by simpa using h)

/-- Where a plus sign in front is dropped, the separators at the end cannot make up for it. -/
private theorem trim_sign_plus {t : Bytes} (hc : c ≠ 43) :
    dropLastPlus (dropPlus (43 :: t)) ≠ ((43 :: t).dropWhile (· = c)).rdropWhile (· = c) := by
  intro h
  have hlast := (trimmed_apart (43 :: t) c).2
  have hdrop : dropPlus (43 :: t) = t := rfl
  rw [List.dropWhile_cons_of_neg (by simpa using hc.symm)] at h hlast
  rw [hdrop] at h
  by_cases hl : t.getLast? = some c
  · have ht : dropLastPlus t = t := by rw [dropLastPlus,hl,if_neg (by simpa using hc)]
    rw [← h,ht] at hlast
    exact hlast hl
  · have hkeep : (43 :: t).rdropWhile (· = c) = 43 :: t := by
      rw [List.rdropWhile_eq_self_iff]
      intro hne he
      have he : (43 :: t).getLast hne = c := by simpa using he
      cases t with
      | nil => exact hc he.symm
      | cons a t => exact hl (by rw [List.getLast?_eq_some_getLast (List.cons_ne_nil a t)]; exact congrArg some he)
    have hlen : (dropLastPlus t).length ≤ t.length := by
      unfold dropLastPlus
      split <;> simp
    rw [h,hkeep,List.length_cons] at hlen
    omega

/-- A separator in front stays. -/
private theorem trim_sign_separator {t : Bytes} (hc : c ≠ 43) :
    dropLastPlus (dropPlus (c :: t)) ≠ ((c :: t).dropWhile (· = c)).rdropWhile (· = c) := by
  intro h
  have hhead := (trimmed_apart (c :: t) c).1
  have hdrop : dropPlus (c :: t) = c :: t := by rw [dropPlus,List.head?_cons,if_neg (by simpa using hc)]
  rw [← h,hdrop] at hhead
  apply hhead
  unfold dropLastPlus
  split
  · rename_i h43
    cases t with
    | nil => exact absurd (Option.some.inj h43) hc
    | cons a t => rfl
  · rfl

theorem trim_sign_iff (hc : c ≠ 43) :
    dropLastPlus (dropPlus s) = (s.dropWhile (· = c)).rdropWhile (· = c) ↔ Apart c s.head? ∧ Apart c s.getLast? := by
  have hboth (hh : Apart c s.head?) : dropLastPlus (dropPlus s) = (s.dropWhile (· = c)).rdropWhile (· = c) ↔ Apart c s.getLast? := by
    have hd := (dropPlus_eq_iff hc).mpr hh
    have hs : dropPlus s = s := by
      unfold dropPlus
      split
      · rename_i h43
        exact absurd rfl (hh 43 h43).1
      · rfl
    rw [← hd,hs,dropLastPlus_eq_iff hc]
  constructor
  · intro h
    have hh : Apart c s.head? := by
      intro b hb
      obtain ⟨t,rfl⟩ := List.head?_eq_some_iff.mp hb
      constructor
      · rintro rfl
        exact trim_sign_plus hc h
      · rintro rfl
        exact trim_sign_separator hc h
    exact ⟨hh,(hboth hh).mp h⟩
  · rintro ⟨hh,hl⟩
    exact (hboth hh).mpr hl

/-- How a separator is read before a repetition. -/
theorem separator_cases (c : UInt8) : (c = 91 ∨ c = 41) ∨ c = 46 ∨ (c = 37 ∨ c = 40) ∨ Plain c := by
  unfold Plain
  tauto

theorem lit_test (c : UInt8) : (Single.lit c).test = fun b => decide (b = c) := by
  funext b
  rw [Single.test,Bool.beq_comm,beq_eq_decide]

theorem any_dropWhile (s : Bytes) : s.dropWhile Single.any.test = [] := by
  rw [List.dropWhile_eq_nil_iff]
  intro b _
  rfl

theorem ltrim_literal_iff (s : Bytes) (c : UInt8) : LtrimLiteral s c ↔ LtrimReads s c := by
  unfold LtrimLiteral LtrimReads
  rcases separator_cases c with hc | rfl | hc | hc
  · obtain ⟨e,he,_⟩ := trim_malformed (s := s) hc
    rw [he]
    rcases hc with rfl | rfl <;> simp
  · have hp : parse [46,43] = [.single .any .plus] := by decide
    rw [ltrim_run hp,any_dropWhile,Except.ok.injEq,eq_comm,List.dropWhile_eq_nil_iff]
    simp
  · rw [ltrim_sign hc,Except.ok.injEq,dropPlus_eq_iff (by rcases hc with rfl | rfl <;> decide)]
    rcases hc with rfl | rfl <;> simp
  · rw [ltrim_run (parse_plain hc).1,lit_test]
    obtain ⟨h1,h2,h3,h4,h5⟩ := hc
    simp [h1,h2,h3,h4,h5]

theorem rdropWhile_self_iff : s = s.rdropWhile (· = c) ↔ ∀ b ∈ s.getLast?, b ≠ c := by
  rw [eq_comm,List.rdropWhile_eq_self_iff]
  constructor
  · intro h b hb
    obtain ⟨hne,rfl⟩ := List.mem_getLast?_eq_getLast hb
    simpa using h hne
  · intro h hne
    simpa using h _ (List.getLast?_eq_some_getLast hne)

theorem rtrim_literal_iff (s : Bytes) (c : UInt8) : RtrimLiteral s c ↔ RtrimReads s c := by
  unfold RtrimLiteral RtrimReads
  rcases separator_cases c with hc | rfl | hc | hc
  · obtain ⟨e,_,he⟩ := trim_malformed (s := s) hc
    rw [he]
    rcases hc with rfl | rfl <;> simp
  · have hp : parse [46,43,36] = [.single .any .plus,.atEnd] := by decide
    have hall : s.rdropWhile Single.any.test = [] := List.rdropWhile_eq_nil_iff.mpr fun _ _ => rfl
    rw [rtrim_run (by decide) hp,hall,Except.ok.injEq,eq_comm,List.rdropWhile_eq_nil_iff]
    simp
  · rw [rtrim_sign hc,Except.ok.injEq,dropLastPlus_eq_iff (by rcases hc with rfl | rfl <;> decide)]
    rcases hc with rfl | rfl <;> simp
  · by_cases hcaret : c = 94
    · subst hcaret
      rw [rtrim_caret,Except.ok.injEq]
      by_cases hs : s = [43]
      · subst hs
        simp [List.rdropWhile]
      · rw [if_neg hs,rdropWhile_self_iff]
        simp [hs]
    · rw [rtrim_run hcaret (parse_plain hc).2,lit_test]
      obtain ⟨h1,h2,h3,h4,h5⟩ := hc
      simp [h1,h2,h3,h4,h5,hcaret]

theorem trim_literal_iff (s : Bytes) (c : UInt8) : TrimLiteral s c ↔ TrimReads s c := by
  unfold TrimLiteral TrimReads
  rw [trim]
  rcases separator_cases c with hc | rfl | hc | hc
  · obtain ⟨e,he,_⟩ := trim_malformed (s := s) hc
    rw [he]
    rcases hc with rfl | rfl <;> simp [Bind.bind,Except.bind]
  · have hp : parse [46,43] = [.single .any .plus] := by decide
    have hp' : parse [46,43,36] = [.single .any .plus,.atEnd] := by decide
    rw [ltrim_run hp,any_dropWhile]
    change rtrim [] (some [46]) = _ ↔ _
    rw [rtrim_run (by decide) hp',List.rdropWhile_nil,Except.ok.injEq,eq_comm,List.rdropWhile_eq_nil_iff]
    have hdots : (∀ b ∈ s.dropWhile (· = 46), decide (b = 46) = true) ↔ ∀ b ∈ s, b = 46 := by
      constructor
      · intro h
        have hnil : s.dropWhile (· = 46) = [] := by
          cases hd : s.dropWhile (· = 46) with
          | nil => rfl
          | cons b t =>
            have hb := List.head?_dropWhile_not (· = 46) s
            rw [hd] at hb h
            exact absurd (h b (by simp)) (by simpa using hb)
        simpa using List.dropWhile_eq_nil_iff.mp hnil
      · intro h b hb
        exact decide_eq_true (h b ((List.dropWhile_sublist _).mem hb))
    rw [hdots]
    simp
  · rw [ltrim_sign hc]
    change rtrim _ _ = _ ↔ _
    rw [rtrim_sign hc,Except.ok.injEq,trim_sign_iff (by rcases hc with rfl | rfl <;> decide)]
    rcases hc with rfl | rfl <;> simp
  · rw [ltrim_run (parse_plain hc).1,lit_test]
    change RtrimLiteral _ _ ↔ _
    rw [rtrim_literal_iff,RtrimReads]
    obtain ⟨h1,h2,h3,h4,h5⟩ := hc
    by_cases hcaret : c = 94
    · subst hcaret
      simp
    · simp [h1,h2,h3,h4,h5,hcaret]

end MyProgram.Luaext.Separators
