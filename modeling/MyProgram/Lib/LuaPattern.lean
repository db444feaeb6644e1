import MyProgram.Lib.LuaString
import Mathlib.Data.List.DropRight

/-! Lua's string patterns and the functions that search with them. Left out are the items
`%b`, `%f` and the back references. -/
namespace MyProgram.Lib

/-- The message of an error that Lua raises. -/
abbrev LuaError := String

namespace LuaPattern

def isDigit (b : UInt8) : Bool := 48 ≤ b && b ≤ 57

def isLower (b : UInt8) : Bool := 97 ≤ b && b ≤ 122

def isUpper (b : UInt8) : Bool := 65 ≤ b && b ≤ 90

def isAlpha (b : UInt8) : Bool := isLower b || isUpper b

def isGraph (b : UInt8) : Bool := 33 ≤ b && b ≤ 126

/-- `match_class`: the class letters in the C locale; any other byte stands for itself. -/
def matchClass (c cl : UInt8) : Bool :=
  let res : Option Bool := match Char.ofNat (if isUpper cl then cl + 32 else cl).toNat with
    | 'a' => some (isAlpha c)
    | 'c' => some (c < 32 || c == 127)
    | 'd' => some (isDigit c)
    | 'g' => some (isGraph c)
    | 'l' => some (isLower c)
    | 'p' => some (isGraph c && !(isAlpha c || isDigit c))
    | 's' => some (isSpace c)
    | 'u' => some (isUpper c)
    | 'w' => some (isAlpha c || isDigit c)
    | 'x' => some (isDigit c || (97 ≤ c && c ≤ 102) || (65 ≤ c && c ≤ 70))
    | 'z' => some (c == 0)
    | _ => none
  match res with
  | some r => if isUpper cl then !r else r
  | none => cl == c

/-- `matchbracketclass` over what stands between the brackets. -/
def inSet (c : UInt8) : Bytes → Bool
  | [] => false
  | 37 :: cl :: set => matchClass c cl || inSet c set
  | lo :: 45 :: hi :: set => (lo ≤ c && c ≤ hi) || inSet c set
  | b :: set => b == c || inSet c set

/-- What matches one byte. -/
inductive Single where
  | any
  | lit (b : UInt8)
  | cls (b : UInt8)
  | set (neg : Bool) (bytes : Bytes)
  deriving DecidableEq, Repr

/-- `singlematch`. -/
def Single.test : Single → UInt8 → Bool
  | .any, _ => true
  | .lit b, c => b == c
  | .cls cl, c => matchClass c cl
  | .set neg bytes, c => inSet c bytes != neg

/-- How often a single may match: not marked, `?`, `*`, `+` or `-`. -/
inductive Suffix where
  | once | optional | star | plus | minus
  deriving DecidableEq, Repr

/-- The lengths to try, in order, where `k` bytes match the single. -/
def Suffix.lengths : Suffix → Nat → List Nat
  | .once, k => if 0 < k then [1] else []
  | .optional, k => if 0 < k then [1,0] else [0]
  | .star, k => (List.range (k + 1)).reverse
  | .plus, k => (List.range' 1 k).reverse
  | .minus, k => List.range (k + 1)

/-- A malformed item raises its error when the search gets to it. -/
inductive Item where
  | single (x : Single) (q : Suffix)
  | openCapture | position | closeCapture | atEnd
  | malformed (e : LuaError)
  deriving DecidableEq, Repr

/-- The bytes of a set up to its closing bracket, which does not close as the first byte. -/
def setBody : Bool → Bytes → Option (Bytes × Bytes)
  | _, [] => none
  | first, b :: rest =>
    if b = 93 ∧ first = false then some ([],rest)
    else match rest with
      | b' :: rest' =>
        if b = 37 then (setBody false rest').map fun r => (b :: b' :: r.1,r.2)
        else (setBody false (b' :: rest')).map fun r => (b :: r.1,r.2)
      | [] => none

/-- `classEnd`: one single and the pattern behind it. -/
def parseSingle : Bytes → Except LuaError (Single × Bytes)
  | [] => .error "malformed pattern"
  | 37 :: [] => .error "malformed pattern (ends with '%')"
  | 37 :: cl :: p => .ok (.cls cl,p)
  | 46 :: p => .ok (.any,p)
  | 91 :: p =>
    let (neg,body) := match p with
      | 94 :: p => (true,p)
      | p => (false,p)
    match setBody true body with
    | some (bytes,p) => .ok (.set neg bytes,p)
    | none => .error "malformed pattern (missing ']')"
  | b :: p => .ok (.lit b,p)

def parseSuffix : Bytes → Suffix × Bytes
  | 63 :: p => (.optional,p)
  | 42 :: p => (.star,p)
  | 43 :: p => (.plus,p)
  | 45 :: p => (.minus,p)
  | p => (.once,p)

/-- The items of a pattern, in at most `fuel` of its bytes. -/
def parseFrom : Nat → Bytes → List Item
  | 0, _ => []
  | _, [] => []
  | fuel+1, 40 :: 41 :: p => .position :: parseFrom fuel p
  | fuel+1, 40 :: p => .openCapture :: parseFrom fuel p
  | fuel+1, 41 :: p => .closeCapture :: parseFrom fuel p
  | _, [36] => [.atEnd]
  | fuel+1, p => match parseSingle p with
    | .error e => [.malformed e]
    | .ok (x,p) => .single x (parseSuffix p).1 :: parseFrom fuel (parseSuffix p).2

def parse (p : Bytes) : List Item := parseFrom p.length p

/-- A capture, still open with the subject from its start on, closed, or a position with
the length of the subject from there. -/
inductive Capture where
  | opened (s : Bytes)
  | closed (text : Bytes)
  | position (left : Nat)
  deriving DecidableEq, Repr

/-- Close the capture that was opened last. The latest stands first. -/
def closeCapture (s : Bytes) : List Capture → Option (List Capture)
  | [] => none
  | .opened s₀ :: cs => some (.closed (s₀.take (s₀.length - s.length)) :: cs)
  | c :: cs => (closeCapture s cs).map (c :: ·)

/-- The first of the lengths with which the rest of the pattern matches. -/
def firstMatch (f : Nat → Except LuaError (Option (Nat × List Capture))) : List Nat → Except LuaError (Option (Nat × List Capture))
  | [] => .ok none
  | i :: is => do
    match ← f i with
    | some (n,cs) => pure (some (i + n,cs))
    | none => firstMatch f is

/-- The bytes at the start that match a single. -/
def run (x : Single) (s : Bytes) : Nat := (s.takeWhile x.test).length

/-- `do_match`: the length of the match at the start of `s`, with its captures. -/
def doMatch : List Item → Bytes → List Capture → Except LuaError (Option (Nat × List Capture))
  | [], _, cs => .ok (some (0,cs))
  | .single x q :: is, s, cs => firstMatch (fun i => doMatch is (s.drop i) cs) (q.lengths (run x s))
  | .openCapture :: is, s, cs => doMatch is s (.opened s :: cs)
  | .position :: is, s, cs => doMatch is s (.position s.length :: cs)
  | .closeCapture :: is, s, cs => match closeCapture s cs with
    | some cs => doMatch is s cs
    | none => .error "invalid pattern capture"
  | .atEnd :: is, s, cs => if s.isEmpty then doMatch is s cs else .ok none
  | .malformed e :: _, _, _ => .error e

/-- A subject as a search sees it: bytes between matches, and matches. -/
inductive Piece where
  | copy (b : UInt8)
  | found (text : Bytes) (captures : List Capture)
  deriving DecidableEq, Repr

/-- The search from left to right. `skip` bytes belong to the last match; directly behind it
an empty match does not count. -/
def scanFrom (is : List Item) : Bool → Nat → Bytes → Except LuaError (List Piece)
  | _, _+1, [] => .ok []
  | _, skip+1, _ :: s => scanFrom is true skip s
  | last, 0, [] => do
    match ← doMatch is [] [] with
    | some (_,cs) => pure (if last then [] else [.found [] cs])
    | none => pure []
  | last, 0, b :: s => do
    match ← doMatch is (b :: s) [] with
    | some (n+1,cs) => do
      let out ← scanFrom is true n s
      pure (.found ((b :: s).take (n + 1)) cs :: out)
    | some (0,cs) => do
      let out ← scanFrom is false 0 s
      pure (if last then .copy b :: out else .found [] cs :: .copy b :: out)
    | none => do
      let out ← scanFrom is false 0 s
      pure (.copy b :: out)

/-- An anchored pattern is tried at the start only. -/
def scanStart (is : List Item) (s : Bytes) : Except LuaError (List Piece) := do
  match ← doMatch is s [] with
  | some (n,cs) => pure (.found (s.take n) cs :: (s.drop n).map .copy)
  | none => pure (s.map .copy)

/-- The search of `gsub`. -/
def scan (p s : Bytes) : Except LuaError (List Piece) :=
  match p with
  | 94 :: p => scanStart (parse p) s
  | p => scanFrom (parse p) false 0 s

/-- `push_onecapture`; a position as its decimal text. -/
def oneCapture (src text : Bytes) (cs : List Capture) (l : Nat) : Except LuaError Bytes :=
  match cs.reverse[l]? with
  | some (.closed t) => .ok t
  | some (.position left) => .ok (ascii (toString (src.length - left + 1)))
  | some (.opened _) => .error "unfinished capture"
  | none => if l = 0 then .ok text else .error ("invalid capture index %" ++ toString (l + 1))

/-- `add_s`: a replacement string with its escapes. -/
def addS (src text : Bytes) (cs : List Capture) : Bytes → Except LuaError Bytes
  | [] => .ok []
  | b :: news =>
    if b = 37 then match news with
      | d :: news =>
        if isDigit d then do
          let value ← if d = 48 then pure text else oneCapture src text cs (d.toNat - 49)
          let out ← addS src text cs news
          pure (value ++ out)
        else if d = 37 then (addS src text cs news).map (37 :: ·)
        else .error "invalid use of '%' in replacement string"
      | [] => .error "invalid use of '%' in replacement string"
    else (addS src text cs news).map (b :: ·)

/-- The text with each match replaced. -/
def substitute (src news : Bytes) : List Piece → Except LuaError Bytes
  | [] => .ok []
  | .copy b :: ps => (substitute src news ps).map (b :: ·)
  | .found text cs :: ps => do
    let value ← addS src text cs news
    let out ← substitute src news ps
    pure (value ++ out)

/-- `string.gsub` with a replacement string. -/
def gsub (s p news : Bytes) : Except LuaError Bytes := scan p s >>= substitute s news

/-- What each match gives a callback or a loop: its first capture, or the whole match. -/
def firstValues (src : Bytes) : List Piece → Except LuaError (List Bytes)
  | [] => .ok []
  | .copy _ :: ps => firstValues src ps
  | .found text cs :: ps => do
    let value ← oneCapture src text cs 0
    let out ← firstValues src ps
    pure (value :: out)

/-- The calls of `string.gsub` with a function. -/
def gsubCalls (s p : Bytes) : Except LuaError (List Bytes) := scan p s >>= firstValues s

/-- `string.gmatch`, for which `^` is no anchor. -/
def gmatch (s p : Bytes) : Except LuaError (List Bytes) := scanFrom (parse p) false 0 s >>= firstValues s

variable {x : Single} {is : List Item} {s s' w src : Bytes} {cs : List Capture} {b : UInt8} {n : Nat} {last : Bool}

@[simp] theorem run_nil (x : Single) : run x [] = 0 := rfl

theorem run_cons (x : Single) (b : UInt8) (s : Bytes) : run x (b :: s) = if x.test b then run x s + 1 else 0 := by
  rw [run,List.takeWhile_cons]
  split <;> rfl

theorem run_le (x : Single) (s : Bytes) : run x s ≤ s.length := (List.takeWhile_sublist _).length_le

theorem drop_run (x : Single) (s : Bytes) : s.drop (run x s) = s.dropWhile x.test := by
  induction s with
  | nil => rfl
  | cons b s ih =>
    rw [run_cons,List.dropWhile_cons]
    split
    · exact ih
    · rfl

theorem run_eq_length_iff : run x s = s.length ↔ ∀ b ∈ s, x.test b = true := by
  induction s with
  | nil => simp
  | cons b s ih =>
    rw [run_cons,List.length_cons,List.forall_mem_cons,← ih]
    split
    · rename_i hb
      simp [hb]
    · rename_i hb
      simp [hb]

theorem firstMatch_cons (f : Nat → Except LuaError (Option (Nat × List Capture))) (i : Nat) (l : List Nat) :
    firstMatch f (i :: l) = f i >>= fun
      | some (n,cs) => pure (some (i + n,cs))
      | none => firstMatch f l := rfl

theorem doMatch_single (x : Single) (q : Suffix) (is : List Item) (s : Bytes) (cs : List Capture) :
    doMatch (.single x q :: is) s cs = firstMatch (fun i => doMatch is (s.drop i) cs) (q.lengths (run x s)) := rfl

theorem doMatch_atEnd (is : List Item) (s : Bytes) (cs : List Capture) :
    doMatch (.atEnd :: is) s cs = if s.isEmpty then doMatch is s cs else .ok none := rfl

theorem scanFrom_skip (is : List Item) (last : Bool) (n : Nat) (b : UInt8) (s : Bytes) :
    scanFrom is last (n + 1) (b :: s) = scanFrom is true n s := rfl

theorem scanFrom_nil (is : List Item) (last : Bool) :
    scanFrom is last 0 [] = doMatch is [] [] >>= fun
      | some (_,cs) => pure (if last then [] else [.found [] cs])
      | none => pure [] := rfl

theorem scanFrom_cons (is : List Item) (last : Bool) (b : UInt8) (s : Bytes) :
    scanFrom is last 0 (b :: s) = doMatch is (b :: s) [] >>= fun
      | some (n+1,cs) => scanFrom is true n s >>= fun out => pure (.found ((b :: s).take (n + 1)) cs :: out)
      | some (0,cs) => scanFrom is false 0 s >>= fun out => pure (if last then .copy b :: out else .found [] cs :: .copy b :: out)
      | none => scanFrom is false 0 s >>= fun out => pure (.copy b :: out) := rfl

theorem substitute_copy (src news : Bytes) (b : UInt8) (ps : List Piece) :
    substitute src news (.copy b :: ps) = (substitute src news ps).map (b :: ·) := rfl

theorem substitute_found (src news text : Bytes) (cs : List Capture) (ps : List Piece) :
    substitute src news (.found text cs :: ps) =
      addS src text cs news >>= fun value => substitute src news ps >>= fun out => pure (value ++ out) := rfl

theorem firstMatch_none {f : Nat → Except LuaError (Option (Nat × List Capture))} {l : List Nat} (h : ∀ i ∈ l, f i = .ok none) :
    firstMatch f l = .ok none := by
  induction l with
  | nil => rfl
  | cons i l ih =>
    rw [firstMatch_cons,h i (by simp)]
    exact ih fun j hj => h j (by simp [hj])

private theorem plus_lengths (k : Nat) : Suffix.plus.lengths (k + 1) = (k + 1) :: Suffix.plus.lengths k := by
  simp [Suffix.lengths,List.range'_1_concat,Nat.add_comm]

private theorem plus_lengths_le {k i : Nat} (h : i ∈ Suffix.plus.lengths k) : i ≤ k := by
  simp only [Suffix.lengths,List.mem_reverse,List.mem_range'_1] at h
  omega

/-- A repeated single takes all the bytes it can. -/
theorem doMatch_plus (x : Single) (s : Bytes) (cs : List Capture) :
    doMatch [.single x .plus] s cs = .ok (if run x s = 0 then none else some (run x s,cs)) := by
  rw [doMatch_single]
  cases hk : run x s with
  | zero => rfl
  | succ k =>
    rw [plus_lengths,firstMatch_cons]
    rfl

/-- A repeated single at the end of the subject. -/
theorem doMatch_plus_end (x : Single) (s : Bytes) (cs : List Capture) :
    doMatch [.single x .plus,.atEnd] s cs = .ok (if !s.isEmpty && s.all x.test then some (s.length,cs) else none) := by
  have hstep (i : Nat) : doMatch [.atEnd] (s.drop i) cs = .ok (if s.length ≤ i then some (0,cs) else none) := by
    rw [doMatch_atEnd]
    by_cases hi : s.length ≤ i
    · rw [if_pos (by simpa using hi),if_pos hi]
      rfl
    · rw [if_neg (by simpa using hi),if_neg hi]
  rw [doMatch_single]
  simp only [hstep]
  by_cases hall : run x s = s.length
  · cases hs : s with
    | nil => rfl
    | cons b s' =>
      have hcond : (!s.isEmpty && s.all x.test) = true := by
        rw [List.all_eq_true.mpr (run_eq_length_iff.mp hall),hs]
        rfl
      rw [← hs,if_pos hcond,hall,hs,List.length_cons,plus_lengths,firstMatch_cons,← List.length_cons,
        ← hs,if_pos le_rfl]
      rfl
  · have hlt := run_le x s
    rw [if_neg fun h => hall (run_eq_length_iff.mpr (List.all_eq_true.mp (Bool.and_eq_true_iff.mp h).2))]
    refine firstMatch_none fun i hi => ?_
    have := plus_lengths_le hi
    rw [if_neg (by omega)]

/-- A single that stands for one byte. -/
theorem doMatch_once (x : Single) (is : List Item) (s : Bytes) (cs : List Capture) :
    doMatch (.single x .once :: is) s cs =
      if 0 < run x s then firstMatch (fun i => doMatch is (s.drop i) cs) [1] else .ok none := by
  rw [doMatch_single,Suffix.lengths]
  split <;> rfl

/-- The rest of a match is passed over. -/
theorem scanFrom_behind (is : List Item) (t s : Bytes) : scanFrom is true t.length (t ++ s) = scanFrom is true 0 s := by
  induction t with
  | nil => rfl
  | cons b t ih =>
    rw [List.length_cons,List.cons_append,scanFrom_skip]
    exact ih

/-- Where the pattern does not match, a byte is copied. -/
theorem scanFrom_copy (h : doMatch is (b :: s) [] = .ok none) :
    scanFrom is last 0 (b :: s) = (scanFrom is false 0 s).map (.copy b :: ·) := by
  rw [scanFrom_cons,h]
  cases scanFrom is false 0 s <;> rfl

/-- Behind a match the search goes on. -/
theorem scanFrom_found {t : Bytes} (ht : t ≠ []) (h : doMatch is (t ++ s) [] = .ok (some (t.length,cs))) :
    scanFrom is last 0 (t ++ s) = (scanFrom is true 0 s).map (.found t cs :: ·) := by
  obtain ⟨b,t,rfl⟩ := List.exists_cons_of_ne_nil ht
  have hb := scanFrom_behind is t s
  rw [List.cons_append] at h ⊢
  rw [scanFrom_cons,h]
  change (scanFrom is true t.length (t ++ s) >>= fun out => pure (Piece.found ((b :: (t ++ s)).take (t.length + 1)) cs :: out)) = _
  rw [hb,List.take_succ_cons,List.take_left]
  cases scanFrom is true 0 s <;> rfl

theorem scanFrom_error {e : LuaError} (h : doMatch is s [] = .error e) : scanFrom is last 0 s = .error e := by
  cases s with
  | nil =>
    rw [scanFrom_nil,h]
    rfl
  | cons b s =>
    rw [scanFrom_cons,h]
    rfl

private theorem splitOnP_run {p : UInt8 → Bool} {t : Bytes} (hne : t ≠ []) (ht : ∀ b ∈ t, p b = false)
    (hs : ∀ b ∈ s.head?, p b = true) :
    ((t ++ s).splitOnP p).filter (· ≠ []) = t :: (s.splitOnP p).filter (· ≠ []) := by
  cases s with
  | nil => simp [List.splitOnP_eq_singleton ht,hne]
  | cons b s =>
    rw [List.splitOnP_append_cons_of_forall_mem ht b (hs b rfl),List.splitOnP_cons_eq_if_modifyHead,if_pos (hs b rfl)]
    simp [hne]

/-- A search for the runs of a single finds the non-empty parts between other bytes. -/
theorem scan_runs (x : Single) (src s : Bytes) (last : Bool) :
    (scanFrom [.single x .plus] last 0 s >>= firstValues src) = .ok ((s.splitOnP fun b => !x.test b).filter (· ≠ [])) := by
  induction hn : s.length using Nat.strong_induction_on generalizing s last with
  | _ n ih =>
    cases s with
    | nil =>
      rw [scanFrom_nil,doMatch_plus]
      rfl
    | cons b s =>
      rw [List.length_cons] at hn
      cases hb : x.test b with
      | false =>
        have hih := ih s.length (by omega) s false rfl
        have hskip : ((b :: s).splitOnP fun b => !x.test b).filter (· ≠ []) = (s.splitOnP fun b => !x.test b).filter (· ≠ []) := by
          rw [List.splitOnP_cons_eq_if_modifyHead,hb]
          simp
        rw [scanFrom_copy (by rw [doMatch_plus,run_cons,hb]; rfl),hskip,← hih]
        cases scanFrom [.single x .plus] false 0 s <;> rfl
      | true =>
        have hlen : (s.dropWhile x.test).length ≤ s.length := (List.dropWhile_sublist _).length_le
        have hih := ih (s.dropWhile x.test).length (by omega) (s.dropWhile x.test) true rfl
        have hsplit : b :: s = (b :: s).takeWhile x.test ++ s.dropWhile x.test := by
          rw [List.takeWhile_cons,if_pos hb,List.cons_append,List.takeWhile_append_dropWhile]
        have hne : (b :: s).takeWhile x.test ≠ [] := by simp [hb]
        have hm : doMatch [.single x .plus] ((b :: s).takeWhile x.test ++ s.dropWhile x.test) [] =
            .ok (some (((b :: s).takeWhile x.test).length,[])) := by
          rw [← hsplit,doMatch_plus,← run,if_neg (by rw [run_cons,hb]; exact Nat.succ_ne_zero _)]
        have hrest : ∀ c ∈ (s.dropWhile x.test).head?, (!x.test c) = true := by
          intro c hc
          have := List.head?_dropWhile_not x.test s
          rw [Option.mem_def.mp hc] at this
          simpa using this
        rw [hsplit,scanFrom_found hne hm,splitOnP_run hne (fun c hc => by simp [List.mem_takeWhile_imp hc]) hrest]
        obtain ⟨ps,hps,hvalues⟩ := bind_eq_ok hih
        rw [hps]
        change (firstValues src (.found _ [] :: ps)) = _
        rw [firstValues]
        change (firstValues src ps >>= fun out => pure (_ :: out)) = _
        rw [hvalues]
        rfl

theorem substitute_copies (src news s : Bytes) : substitute src news (s.map .copy) = .ok s := by
  induction s with
  | nil => rfl
  | cons b s ih =>
    rw [List.map_cons,substitute_copy,ih]
    rfl

/-- What is left when the match at the start is removed. -/
theorem removeStart (h : doMatch is s [] = .ok (some (n,cs))) : (scanStart is s >>= substitute src []) = .ok (s.drop n) := by
  rw [scanStart,h]
  change (substitute src [] (.found (s.take n) cs :: (s.drop n).map .copy)) = _
  rw [substitute_found,substitute_copies]
  rfl

theorem removeStart_none (h : doMatch is s [] = .ok none) : (scanStart is s >>= substitute src []) = .ok s := by
  rw [scanStart,h]
  exact substitute_copies src [] s

/-- A text without the longest part at its end that has a property. -/
def stripEnd (q : Bytes → Bool) : Bytes → Bytes
  | [] => []
  | b :: s => if q (b :: s) then [] else b :: stripEnd q s

theorem stripEnd_cons (q : Bytes → Bool) (b : UInt8) (s : Bytes) :
    stripEnd q (b :: s) = if q (b :: s) then [] else b :: stripEnd q s := rfl

/-- A pattern that matches only up to the end of the subject removes such a part. -/
theorem removeEnd {q : Bytes → Bool} (h0 : q [] = false)
    (h : ∀ s, doMatch is s [] = .ok (if q s then some (s.length,cs) else none)) (s : Bytes) :
    (scanFrom is last 0 s >>= substitute src []) = .ok (stripEnd q s) := by
  induction s generalizing last with
  | nil =>
    rw [scanFrom_nil,h,h0]
    rfl
  | cons b s ih =>
    rw [stripEnd_cons]
    cases hq : q (b :: s) with
    | true =>
      have hm : doMatch is ((b :: s) ++ []) [] = .ok (some ((b :: s).length,cs)) := by
        rw [List.append_nil,h,hq]
        rfl
      have hend : scanFrom is true 0 [] = .ok [] := by
        rw [scanFrom_nil,h,h0]
        rfl
      have hf : scanFrom is last 0 ((b :: s) ++ []) = _ := scanFrom_found (List.cons_ne_nil b s) hm
      rw [List.append_nil,hend] at hf
      rw [hf]
      rfl
    | false =>
      have hih : (scanFrom is false 0 s >>= substitute src []) = .ok (stripEnd q s) := ih
      have hm : doMatch is (b :: s) [] = .ok none := by
        rw [h,hq]
        rfl
      rw [scanFrom_copy hm]
      obtain ⟨ps,hps,hsub⟩ := bind_eq_ok hih
      rw [hps]
      change (substitute src [] (.copy b :: ps)) = _
      rw [substitute_copy,hsub]
      rfl

theorem stripEnd_all (p : UInt8 → Bool) (s : Bytes) : stripEnd (fun s => !s.isEmpty && s.all p) s = s.rdropWhile p := by
  induction s with
  | nil => rfl
  | cons b s ih =>
    rw [stripEnd_cons,ih]
    by_cases hall : (b :: s).all p = true
    · rw [if_pos (by simpa using hall),eq_comm,List.rdropWhile_eq_nil_iff]
      simpa using hall
    · rw [if_neg (by simpa using hall)]
      unfold List.rdropWhile
      rw [List.reverse_cons,List.dropWhile_append]
      split
      · rename_i hs
        have hs : ∀ c ∈ s, p c = true := by
          rw [List.isEmpty_iff,List.dropWhile_eq_nil_iff] at hs
          intro c hc
          exact hs c (List.mem_reverse.mpr hc)
        have hb : p b = false := by
          rw [Bool.eq_false_iff]
          intro hb
          exact hall (by rw [List.all_cons,hb,List.all_eq_true.mpr hs]; rfl)
        have hnil : s.reverse.dropWhile p = [] := List.dropWhile_eq_nil_iff.mpr fun c hc => hs c (List.mem_reverse.mp hc)
        rw [hnil,List.dropWhile_cons,hb]
        rfl
      · rw [List.reverse_append]
        rfl

theorem stripEnd_single (b : UInt8) (s : Bytes) :
    stripEnd (fun s => s == [b]) s = if s.getLast? = some b then s.dropLast else s := by
  induction s with
  | nil => rfl
  | cons a s ih =>
    rw [stripEnd_cons,ih]
    cases s with
    | nil =>
      by_cases ha : a = b
      · simp [ha]
      · simp [ha]
    | cons c s =>
      rw [if_neg (by simp),List.getLast?_cons_cons,List.dropLast_cons_cons]
      split <;> rfl

end LuaPattern
end MyProgram.Lib
