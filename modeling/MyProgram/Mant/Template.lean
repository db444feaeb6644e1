import MyProgram.Lib.LuaLiteral
import MyProgram.Lib.Assoc
import Mathlib.Data.List.MinMax

/-! The configuration that `MTools.lua` writes from a template: `string.gsub` runs over the
text once for each entry of the export table, in the order of `pairs`. -/
namespace MyProgram.Mant
open Lib LuaPattern

/-- A value of the export table. -/
inductive Value where
  | str (s : Bytes) | num (n : Int) | bool (b : Bool)
  deriving DecidableEq, Repr

def tostring : Value → Bytes
  | .str s => s
  | .num n => ascii (toString n)
  | .bool b => ascii (toString b)

/-- A key stands once in a table, and is an identifier. -/
structure ExportTable where
  entries : List (Bytes × Value)
  distinct : (entries.map Prod.fst).Nodup
  word : ∀ e ∈ entries, e.1 ≠ [] ∧ e.1.all isWord = true

/-- What a file system does with a path that is opened for writing, and what it leaves of a
content that it cannot write in full. -/
structure FileSystem where
  opens : Bytes → Bool
  cut : Bytes → Bytes → Option Bytes

/-- Every file opens, and every content is written in full. -/
def FileSystem.sound : FileSystem := ⟨fun _ => true,fun _ _ => none⟩

abbrev Files := List (Bytes × Bytes)

def writefile (fs : FileSystem) (files : Files) (path content : Bytes) : Bool × Files :=
  if fs.opens path then match fs.cut path content with
    | some part => (false,assign files path (some part))
    | none => (true,assign files path (some content))
  else (false,files)

/-- The loop over the export table, whose entries come in some order. -/
def replaceLoop : List (Bytes × Value) → Bytes → Except LuaError Bytes
  | [], template_cp => .ok template_cp
  | (key,value) :: entries, template_cp => do
    let old := 36 :: key
    let new := tostring value
    let template_cp ← gsub template_cp old new
    replaceLoop entries template_cp

def export_to_template (fs : FileSystem) (files : Files) (order : List (Bytes × Value)) (template config_name : Bytes) :
    Except LuaError Files := do
  let template_cp ← replaceLoop order template
  pure (writefile fs files config_name template_cp).2

/-- A template in parts: `$` with a key, or one byte. -/
inductive Token where
  | lit (b : UInt8)
  | key (k : Bytes)
  deriving DecidableEq, Repr

/-- The longest key at the start of a text. -/
def longestKey (keys : List Bytes) (s : Bytes) : Option Bytes := (keys.filter (·.isPrefixOf s)).argmax List.length

def tokenize (keys : List Bytes) : Nat → Bytes → List Token
  | _, [] => []
  | skip+1, _ :: s => tokenize keys skip s
  | 0, b :: s => match if b = 36 then longestKey keys s else none with
    | some k => .key k :: tokenize keys k.length s
    | none => .lit b :: tokenize keys 0 s

/-- The text of a part when the keys in `done` are replaced. -/
def Token.text (done : List Bytes) (value : Bytes → Bytes) : Token → Bytes
  | .lit b => [b]
  | .key k => if k ∈ done then value k else 36 :: k

def render (done : List Bytes) (value : Bytes → Bytes) (toks : List Token) : Bytes := toks.flatMap (Token.text done value)

namespace ExportTable

def keys (t : ExportTable) : List Bytes := t.entries.map Prod.fst

def value (t : ExportTable) (k : Bytes) : Bytes := ((tableIndex t.entries k).map tostring).getD []

def tokens (t : ExportTable) (template : Bytes) : List Token := tokenize t.keys 0 template

/-- The template with some of its keys replaced, all at one time. -/
def replaced (t : ExportTable) (done : List Bytes) (template : Bytes) : Bytes := render done t.value (t.tokens template)

/-- Every `$k` of the template replaced by its value, at one time. -/
def simultaneous (t : ExportTable) (template : Bytes) : Bytes := t.replaced t.keys template

/-- The values that are put in have no `%`; and when some keys are replaced, `$` with another
key stands only where the template has it. -/
def Separate (t : ExportTable) (template : Bytes) : Prop :=
  (∀ k ∈ t.keys, .key k ∈ t.tokens template → 37 ∉ t.value k) ∧
  ∀ done ∈ t.keys.sublists, ∀ k ∈ t.keys, k ∉ done →
    occurrences (36 :: k) (t.replaced done template) = (t.tokens template).count (.key k)

/-- A substitution that goes beyond the template: it finds its key where the template does not
have it, or it does not copy the value. -/
def Strays (t : ExportTable) (template template_cp k : Bytes) : Prop :=
  occurrences (36 :: k) template_cp ≠ (t.tokens template).count (.key k) ∨
  .key k ∈ t.tokens template ∧ addS template_cp (36 :: k) [] (t.value k) ≠ .ok (t.value k)

instance (t : ExportTable) (template : Bytes) : Decidable (t.Separate template) := inferInstanceAs (Decidable (_ ∧ _))

end ExportTable

variable {t : ExportTable} {keys done done' ks : List Bytes} {value : Bytes → Bytes} {toks : List Token} {k s src template : Bytes}

theorem longestKey_eq_some : longestKey keys s = some k ↔ k ∈ keys ∧ k <+: s ∧ ∀ k' ∈ keys, k' <+: s → k'.length ≤ k.length := by
  have hmem (k' : Bytes) : k' ∈ keys.filter (·.isPrefixOf s) ↔ k' ∈ keys ∧ k' <+: s := by
    rw [List.mem_filter,List.isPrefixOf_iff_prefix]
  have hspec : ∀ k₀, longestKey keys s = some k₀ → (k₀ ∈ keys ∧ k₀ <+: s) ∧ ∀ k' ∈ keys, k' <+: s → k'.length ≤ k₀.length := by
    intro k₀ h
    refine ⟨(hmem k₀).mp (List.argmax_mem (Option.mem_def.mpr h)),fun k' hk hp => ?_⟩
    exact List.le_of_mem_argmax ((hmem k').mpr ⟨hk,hp⟩) (Option.mem_def.mpr h)
  constructor
  · intro h
    obtain ⟨⟨hk,hp⟩,hmax⟩ := hspec k h
    exact ⟨hk,hp,hmax⟩
  · rintro ⟨hk,hp,hmax⟩
    cases h : longestKey keys s with
    | none =>
      have hnil := List.argmax_eq_none.mp h
      exact absurd ((hmem k).mpr ⟨hk,hp⟩) (by rw [hnil]; exact List.not_mem_nil)
    | some k₀ =>
      obtain ⟨⟨hk₀,hp₀⟩,hmax₀⟩ := hspec k₀ h
      have hpre : k₀ <+: k := List.prefix_of_prefix_length_le hp₀ hp (hmax k₀ hk₀ hp₀)
      rw [hpre.eq_of_length_le (hmax₀ k hk hp)]

theorem render_cons (tok : Token) (toks : List Token) :
    render done value (tok :: toks) = tok.text done value ++ render done value toks := List.flatMap_cons

/-- With nothing replaced, the parts are the template. -/
theorem render_tokenize (keys : List Bytes) (value : Bytes → Bytes) (skip : Nat) (s : Bytes) :
    render [] value (tokenize keys skip s) = s.drop skip := by
  induction s generalizing skip with
  | nil => cases skip <;> rfl
  | cons b s ih =>
    cases skip with
    | succ skip => exact ih skip
    | zero =>
      rw [tokenize]
      split
      · rename_i k hk
        split at hk
        · rename_i hb
          obtain ⟨_,⟨s',rfl⟩,_⟩ := longestKey_eq_some.mp hk
          rw [render_cons,ih,List.drop_left,Token.text,if_neg List.not_mem_nil,hb]
          rfl
        · cases hk
      · rw [render_cons,ih]
        rfl

theorem render_congr (h : ∀ k, k ∈ done ↔ k ∈ done') : render done value toks = render done' value toks := by
  refine List.flatMap_congr fun tok _ => ?_
  cases tok with
  | lit b => rfl
  | key k => simp only [Token.text,h]

theorem count_le_occurrences (value : Bytes → Bytes) (hk : k ∉ done) (toks : List Token) :
    toks.count (.key k) ≤ occurrences (36 :: k) (render done value toks) := by
  induction toks with
  | nil => exact Nat.zero_le _
  | cons tok toks ih =>
    rw [render_cons]
    by_cases ht : tok = .key k
    · have hself := occurrences_append_self (List.cons_ne_nil 36 k) (render done value toks)
      rw [ht,List.count_cons_self,Token.text,if_neg hk]
      omega
    · have hle := occurrences_append_le (36 :: k) (tok.text done value) (render done value toks)
      rw [List.count_cons_of_ne ht]
      omega

/-- One substitution replaces the parts of its key, when `$` with the key stands nowhere
else. -/
theorem gsub_render (hk : k ∉ done) (hv : .key k ∈ toks → 37 ∉ value k)
    (h : occurrences (36 :: k) (render done value toks) = toks.count (.key k)) :
    Lib.gsub (36 :: k).length (fun s => (36 :: k).isPrefixOf s) (fun text => addS src text [] (value k)) (render done value toks) =
      .ok (render (k :: done) value toks) := by
  induction toks with
  | nil => rfl
  | cons tok toks ih =>
    have hge := count_le_occurrences value hk toks
    have hv' : .key k ∈ toks → 37 ∉ value k := fun hm => hv (List.mem_cons_of_mem tok hm)
    rw [render_cons] at h
    rw [render_cons,render_cons]
    by_cases ht : tok = .key k
    · have hself := occurrences_append_self (List.cons_ne_nil 36 k) (render done value toks)
      have hnew : tok.text (k :: done) value = value k := by
        rw [ht,Token.text,if_pos List.mem_cons_self]
      have hpre : (36 :: k).isPrefixOf ((36 :: k) ++ render done value toks) = true :=
        List.isPrefixOf_iff_prefix.mpr (List.prefix_append _ _)
      rw [hnew]
      rw [ht,List.count_cons_self,Token.text,if_neg hk] at h
      rw [ht,Token.text,if_neg hk,gsub_match rfl (List.cons_ne_nil 36 k) hpre,
        addS_plain (hv (by rw [ht]; exact List.mem_cons_self)),ih hv' (by omega)]
      rfl
    · have hle := occurrences_append_le (36 :: k) (tok.text done value) (render done value toks)
      have hsame : tok.text (k :: done) value = tok.text done value := by
        cases tok with
        | lit b => rfl
        | key k' => simp only [Token.text,List.mem_cons,or_iff_right fun he => ht (congrArg Token.key he)]
      rw [List.count_cons_of_ne ht] at h
      rw [gsub_copies (by omega),ih hv' (by omega),hsame]
      rfl

namespace ExportTable

theorem value_of_mem (t : ExportTable) {v : Value} (h : (k,v) ∈ t.entries) : t.value k = tostring v := by
  rw [value,tableIndex,lookup_of_mem t.distinct h]
  rfl

theorem replaced_congr (t : ExportTable) (h : ∀ k, k ∈ done ↔ k ∈ done') : t.replaced done template = t.replaced done' template :=
  render_congr h

/-- `Separate` for some of the keys. -/
structure SeparateOn (t : ExportTable) (template : Bytes) (ks : List Bytes) : Prop where
  keys : ∀ k ∈ ks, k ∈ t.keys
  plain : ∀ k ∈ ks, .key k ∈ t.tokens template → 37 ∉ t.value k
  placed : ∀ done : List Bytes, (∀ k ∈ done, k ∈ ks) → ∀ k ∈ ks, k ∉ done →
    occurrences (36 :: k) (t.replaced done template) = (t.tokens template).count (.key k)

theorem mem_filter_mem (h : ∀ k ∈ done, k ∈ ks) (k : Bytes) : k ∈ done ↔ k ∈ ks.filter (· ∈ done) := by
  rw [List.mem_filter,decide_eq_true_iff]
  exact ⟨fun hd => ⟨h k hd,hd⟩,And.right⟩

theorem Separate.on (h : t.Separate template) : t.SeparateOn template t.keys where
  keys k hk := hk
  plain := h.1
  placed done hdone k hk hn := by
    have hmem := mem_filter_mem hdone
    rw [t.replaced_congr hmem]
    exact h.2 _ (List.mem_sublists.mpr List.filter_sublist) k hk (fun hf => hn ((hmem k).mpr hf))

/-- One step of the loop. -/
theorem SeparateOn.gsub (h : t.SeparateOn template ks) {v : Value} (he : (k,v) ∈ t.entries) (hk : k ∈ ks)
    (hdone : ∀ k ∈ done, k ∈ ks) (hn : k ∉ done) :
    LuaPattern.gsub (t.replaced done template) (36 :: k) (tostring v) = .ok (t.replaced (k :: done) template) := by
  obtain ⟨hne,hword⟩ := t.word _ he
  have hscan : scan (36 :: k) (t.replaced done template) = scanFrom (literal (36 :: k)) false 0 (t.replaced done template) := by
    rw [← parse_dollar hne (List.all_eq_true.mp hword)]
    rfl
  rw [gsub_literal (List.cons_ne_nil 36 k) hscan,← t.value_of_mem he]
  exact gsub_render hn (h.plain k hk) (h.placed done hdone k hk hn)

/-- What is replaced after some of the entries does not depend on their order. -/
theorem SeparateOn.replaceLoop (h : t.SeparateOn template ks) (order : List (Bytes × Value))
    (ho : ∀ e ∈ order, e ∈ t.entries ∧ e.1 ∈ ks) (hnd : (order.map Prod.fst).Nodup) (done : List Bytes) (hdone : ∀ k ∈ done, k ∈ ks)
    (hdisj : ∀ e ∈ order, e.1 ∉ done) :
    ∃ done', (∀ k, k ∈ done' ↔ k ∈ done ∨ k ∈ order.map Prod.fst) ∧
      Mant.replaceLoop order (t.replaced done template) = .ok (t.replaced done' template) := by
  induction order generalizing done with
  | nil => exact ⟨done,by simp,rfl⟩
  | cons e order ih =>
    obtain ⟨key,v⟩ := e
    obtain ⟨hnot,hnd⟩ := List.nodup_cons.mp hnd
    obtain ⟨he,hk⟩ := ho _ List.mem_cons_self
    have hdisj' : ∀ e ∈ order, e.1 ∉ key :: done := by
      intro e hm hc
      rcases List.mem_cons.mp hc with hc | hc
      · exact hnot (List.mem_map.mpr ⟨e,hm,hc⟩)
      · exact hdisj e (List.mem_cons_of_mem _ hm) hc
    obtain ⟨done',hd,hrun⟩ := ih (fun e hm => ho e (List.mem_cons_of_mem _ hm)) hnd (key :: done) (List.forall_mem_cons.mpr ⟨hk,hdone⟩) hdisj'
    refine ⟨done',fun k => ?_,?_⟩
    · rw [hd k,List.mem_cons,List.map_cons,List.mem_cons]
      tauto
    · rw [Mant.replaceLoop,h.gsub he hk hdone (hdisj _ List.mem_cons_self)]
      exact hrun

theorem SeparateOn.run (h : t.SeparateOn template ks) (order : List (Bytes × Value)) (ho : ∀ e ∈ order, e ∈ t.entries ∧ e.1 ∈ ks)
    (hnd : (order.map Prod.fst).Nodup) :
    Mant.replaceLoop order template = .ok (t.replaced (order.map Prod.fst) template) := by
  obtain ⟨done,hd,hrun⟩ := h.replaceLoop order ho hnd [] (by simp) (by simp)
  have hstart : t.replaced [] template = template := render_tokenize t.keys t.value 0 template
  rw [hstart] at hrun
  rw [hrun,t.replaced_congr fun k => (hd k).trans (or_iff_right List.not_mem_nil)]

/-- A run over the entries of some keys, and behind it the entry of another. -/
theorem SeparateOn.exists_order (h : t.SeparateOn template ks) (hk : k ∈ t.keys) (hn : k ∉ ks) :
    ∃ before v after, (before ++ (k,v) :: after).Perm t.entries ∧
      Mant.replaceLoop before template = .ok (t.replaced ks template) := by
  obtain ⟨⟨k,v⟩,he,rfl⟩ := List.mem_map.mp hk
  have hrest : (k,v) ∈ t.entries.filter fun e => !decide (e.1 ∈ ks) := List.mem_filter.mpr ⟨he,by simpa using hn⟩
  have hbefore : ∀ e ∈ t.entries.filter (·.1 ∈ ks), e ∈ t.entries ∧ e.1 ∈ ks := by
    intro e hm
    obtain ⟨hm,hks⟩ := List.mem_filter.mp hm
    exact ⟨hm,of_decide_eq_true hks⟩
  have hkeys (k' : Bytes) : k' ∈ (t.entries.filter (·.1 ∈ ks)).map Prod.fst ↔ k' ∈ ks := by
    constructor
    · intro hm
      obtain ⟨e,he',rfl⟩ := List.mem_map.mp hm
      exact (hbefore e he').2
    · intro hm
      obtain ⟨e,he',rfl⟩ := List.mem_map.mp (h.keys k' hm)
      exact List.mem_map.mpr ⟨e,List.mem_filter.mpr ⟨he',decide_eq_true hm⟩,rfl⟩
  refine ⟨t.entries.filter (·.1 ∈ ks),v,(t.entries.filter fun e => !decide (e.1 ∈ ks)).erase (k,v),?_,?_⟩
  · exact ((List.perm_cons_erase hrest).symm.append_left _).trans (List.filter_append_perm _ _)
  · rw [h.run _ hbefore (t.distinct.sublist (List.filter_sublist.map Prod.fst)),t.replaced_congr hkeys]

/-- Of the keys that stand in a wrong place, one is reached before the others. -/
theorem exists_strays (hplain : ∀ k ∈ t.keys, .key k ∈ t.tokens template → 37 ∉ t.value k) (hks : ∀ k ∈ ks, k ∈ t.keys)
    (hnd : ks.Nodup) (hk : k ∈ t.keys) (hn : k ∉ ks)
    (hocc : occurrences (36 :: k) (t.replaced ks template) ≠ (t.tokens template).count (.key k)) :
    ∃ before k v after text, (before ++ (k,v) :: after).Perm t.entries ∧
      Mant.replaceLoop before template = .ok text ∧ t.Strays template text k := by
  induction hl : ks.length using Nat.strong_induction_on generalizing ks k with
  | _ l ih =>
    by_cases hsub : ∃ done : List Bytes, (∀ k ∈ done, k ∈ ks) ∧ ∃ k' ∈ ks, k' ∉ done ∧
        occurrences (36 :: k') (t.replaced done template) ≠ (t.tokens template).count (.key k')
    · obtain ⟨done,hdone,k',hk',hn',hocc'⟩ := hsub
      have hmem := mem_filter_mem hdone
      have hlt : (ks.filter (· ∈ done)).length < ks.length :=
        List.length_filter_lt_length_iff_exists.mpr ⟨k',hk',by simpa using hn'⟩
      rw [t.replaced_congr hmem] at hocc'
      exact ih _ (hl ▸ hlt) (fun k hm => hks k (List.mem_filter.mp hm).1) (hnd.filter _) (hks k' hk')
        (fun hf => hn' ((hmem k').mpr hf)) hocc' rfl
    · have hon : t.SeparateOn template ks := by
        refine ⟨hks,fun k hm => hplain k (hks k hm),fun done hdone k' hk' hn' => ?_⟩
        by_contra hne
        exact hsub ⟨done,hdone,k',hk',hn',hne⟩
      obtain ⟨before,v,after,hperm,hrun⟩ := hon.exists_order hk hn
      exact ⟨before,k,v,after,_,hperm,hrun,Or.inl hocc⟩

/-- In every order the file gets the template with all keys replaced at one time, if the table
is separate in the template. If it is not, some order comes to a substitution that goes beyond
the template. -/
theorem export_to_template_ordered (t : ExportTable) (template : Bytes) :
    (t.Separate template → ∀ order : List (Bytes × Value), order.Perm t.entries →
      ∀ (fs : FileSystem) (files : Files) (config_name : Bytes),
        export_to_template fs files order template config_name = .ok (writefile fs files config_name (t.simultaneous template)).2) ∧
    (¬ t.Separate template → ∃ before k v after text, (before ++ (k,v) :: after).Perm t.entries ∧
      replaceLoop before template = .ok text ∧ t.Strays template text k) := by
  constructor
  · intro h order ho fs files config_name
    have hkeys : (order.map Prod.fst).Perm t.keys := ho.map Prod.fst
    have hrun := h.on.run order (fun e hm => ⟨ho.mem_iff.mp hm,hkeys.mem_iff.mp (List.mem_map_of_mem hm)⟩)
      (hkeys.nodup_iff.mpr t.distinct)
    rw [t.replaced_congr fun k => hkeys.mem_iff] at hrun
    rw [export_to_template,hrun]
    rfl
  · intro h
    by_contra hnone
    have hplain : ∀ k ∈ t.keys, .key k ∈ t.tokens template → 37 ∉ t.value k := by
      intro k hk htok hv
      have hnil : t.SeparateOn template [] := ⟨by simp,by simp,by simp⟩
      obtain ⟨before,v,after,hperm,hrun⟩ := hnil.exists_order hk List.not_mem_nil
      exact hnone ⟨before,k,v,after,_,hperm,hrun,Or.inr ⟨htok,fun hadd => addS_eq_iff.mp hadd hv⟩⟩
    refine h ⟨hplain,fun done hdone k hk hn => ?_⟩
    by_contra hocc
    have hsub := List.mem_sublists.mp hdone
    exact hnone (exists_strays hplain (fun k hm => hsub.subset hm) (t.distinct.sublist hsub) hk hn hocc)

def node : ExportTable where
  entries := [(ascii "service_name",.str (ascii "main")),(ascii "daemon",.bool true),(ascii "service_id",.num 1)]
  distinct := by decide
  word := by decide

theorem export_to_template_ordered_node :
    export_to_template .sound [] node.entries.reverse (ascii "$daemon $service_id $id") (ascii "MT") =
      .ok [(ascii "MT",ascii "true 1 $id")] := by
  have h := (export_to_template_ordered node (ascii "$daemon $service_id $id")).1 (by decide) node.entries.reverse
    (List.reverse_perm _) .sound [] (ascii "MT")
  exact h.trans (by decide)

/-- A key that begins another one, `$` in a value, and `%` in a value. -/
theorem order_dependent : ∃ prefixed dollar percent : ExportTable,
    prefixed.entries = [(ascii "a",.str (ascii "1")),(ascii "ab",.str (ascii "2"))] ∧
    export_to_template .sound [] prefixed.entries (ascii "$ab") (ascii "MT") = .ok [(ascii "MT",ascii "1b")] ∧
    export_to_template .sound [] prefixed.entries.reverse (ascii "$ab") (ascii "MT") = .ok [(ascii "MT",ascii "2")] ∧
    prefixed.simultaneous (ascii "$ab") = ascii "2" ∧
    dollar.entries = [(ascii "a",.str (ascii "$b")),(ascii "b",.str (ascii "2"))] ∧
    export_to_template .sound [] dollar.entries (ascii "$a") (ascii "MT") = .ok [(ascii "MT",ascii "2")] ∧
    export_to_template .sound [] dollar.entries.reverse (ascii "$a") (ascii "MT") = .ok [(ascii "MT",ascii "$b")] ∧
    percent.entries = [(ascii "a",.str (ascii "5%"))] ∧
    export_to_template .sound [] percent.entries (ascii "$a") (ascii "MT") = .error "invalid use of '%' in replacement string" := by
  refine ⟨⟨_,?_,?_⟩,⟨_,?_,?_⟩,⟨_,?_,?_⟩,rfl,?_,?_,?_,rfl,?_,?_,rfl,?_⟩
  all_goals decide

end ExportTable
end MyProgram.Mant
