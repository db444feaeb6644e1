import MyProgram.Mysql.Model
import MyProgram.Lib.Assoc
import Mathlib.Data.Finset.Card

/-! Result objects (`MysqlResult` and `MysqlRow`): columns by name. -/
namespace MyProgram.Mysql
open Lib

/-- The loop of the constructor. -/
def fieldLoop (i : Nat) : List Bytes → List (Bytes × Nat) → List (Bytes × Nat)
  | [], m_field => m_field
  | name :: names, m_field => fieldLoop (i + 1) names (assign m_field name (some i))

/-- The stored result holds the rows that are still to be fetched. -/
structure MysqlResult where
  m_result : Option ResultSet
  m_field : List (Bytes × Nat)
  deriving DecidableEq, Repr

/-- A row; it belongs to the result that it was fetched from. -/
structure MysqlRow where
  m_row : List Bytes
  deriving DecidableEq, Repr

inductive RowSite where
  | column
  deriving DecidableEq, Repr

namespace MysqlResult

def new (m_result : Option ResultSet) : MysqlResult :=
  ⟨m_result,match m_result with
    | none => []
    | some r => fieldLoop 0 r.fields []⟩

/-- The values from column `i` on, `left` of them. -/
def copyLoop (r : List (Option Bytes)) (i : Nat) : Nat → Act RowSite Empty (List Bytes)
  | 0 => pure []
  | left+1 => do
    let value ← Act.read .column r i
    let m_row ← copyLoop r (i + 1) left
    pure (value.getD [] :: m_row)

def fetch_row (q : MysqlResult) (_row : MysqlRow) : Act RowSite Empty (MysqlResult × MysqlRow × Bool) :=
  match q.m_result with
  | none => pure (q,⟨[]⟩,false)
  | some ⟨_,[]⟩ => pure (q,⟨[]⟩,false)
  | some ⟨fields,r :: rows⟩ => do
    let m_row ← copyLoop r 0 q.m_field.length
    pure ({ q with m_result := some ⟨fields,rows⟩ },⟨m_row⟩,!m_row.isEmpty)

def name2idx (q : MysqlResult) (name : Bytes) : Int :=
  match tableIndex q.m_field name with
  | none => -1
  | some i => i

/-- `MysqlRow::get_string` of a row of the result. -/
def get_string (q : MysqlResult) (row : MysqlRow) (key : Bytes) : Bytes :=
  let idx := q.name2idx key
  if idx < 0 ∨ row.m_row.length ≤ idx then [] else (row.m_row[idx.toNat]?).getD []

end MysqlResult

variable {q q' : MysqlResult} {row row' : MysqlRow} {names : List Bytes} {r : List (Option Bytes)} {rows : List (List (Option Bytes))}
  {name : Bytes} {i j left : Nat} {m : List (Bytes × Nat)}

theorem fieldLoop_of_notMem (h : name ∉ names) (i : Nat) (m : List (Bytes × Nat)) :
    tableIndex (fieldLoop i names m) name = tableIndex m name := by
  induction names generalizing i m with
  | nil => rfl
  | cons n names ih =>
    obtain ⟨hn,hns⟩ := not_or.mp (mt List.mem_cons.mpr h)
    rw [fieldLoop,ih hns,tableIndex_assign,if_neg hn]

/-- The last column of a name is kept. -/
theorem fieldLoop_eq_some (hj : names[j]? = some name) (hlast : ∀ k, j < k → names[k]? ≠ some name) (i : Nat)
    (m : List (Bytes × Nat)) : tableIndex (fieldLoop i names m) name = some (i + j) := by
  induction names generalizing i j m with
  | nil => simp at hj
  | cons n names ih =>
    rw [fieldLoop]
    cases j with
    | zero =>
      have hn : n = name := by simpa using hj
      have hno : name ∉ names := by
        intro hm
        obtain ⟨k,hk,he⟩ := List.mem_iff_getElem.mp hm
        exact hlast (k + 1) (by omega) (by simp [hk,he])
      rw [fieldLoop_of_notMem hno,tableIndex_assign,if_pos hn.symm]
      rfl
    | succ j =>
      rw [ih (by simpa using hj) (fun k hk => by simpa using hlast (k + 1) (by omega))]
      congr 1
      omega

/-- The map has one entry for each different name. -/
theorem fieldLoop_keys (hm : (m.map Prod.fst).Nodup) (i : Nat) (names : List Bytes) :
    ((fieldLoop i names m).map Prod.fst).Nodup ∧
      ((fieldLoop i names m).map Prod.fst).toFinset = (m.map Prod.fst).toFinset ∪ names.toFinset := by
  induction names generalizing i m with
  | nil => simpa [fieldLoop] using hm
  | cons name names ih =>
    have hkeys := keys_assign m name i
    have hnd : ((assign m name (some i)).map Prod.fst).Nodup := by
      rw [hkeys]
      split
      · exact hm
      · rename_i hno
        rw [List.nodup_append]
        exact ⟨hm,List.nodup_singleton name,fun a ha b hb he => hno (by rwa [← List.mem_singleton.mp hb,← he])⟩
    have hset : ((assign m name (some i)).map Prod.fst).toFinset = (m.map Prod.fst).toFinset ∪ {name} := by
      rw [hkeys]
      split
      · rename_i hin
        rw [Finset.union_eq_left.mpr (by simpa using hin)]
      · rw [List.toFinset_append]
        rfl
    rw [fieldLoop]
    obtain ⟨hnd',hset'⟩ := ih hnd (i + 1)
    refine ⟨hnd',?_⟩
    rw [hset',hset,List.toFinset_cons,Finset.union_assoc]
    congr 1

theorem fieldLoop_length (names : List Bytes) : (fieldLoop 0 names []).length = names.dedup.length := by
  obtain ⟨hnd,hset⟩ := fieldLoop_keys (m := []) List.nodup_nil 0 names
  have hset : ((fieldLoop 0 names []).map Prod.fst).toFinset = names.toFinset := by simpa using hset
  rw [← List.length_map (f := Prod.fst),← List.toFinset_card_of_nodup hnd,hset,List.card_toFinset]

namespace MysqlResult

/-- The result of a query: its map is that of the constructor and every row has one value
for each column. -/
structure Of (q : MysqlResult) (names : List Bytes) : Prop where
  fields : q.m_field = fieldLoop 0 names []
  stored : ∀ r, q.m_result = some r → r.fields = names ∧ ∀ row ∈ r.rows, row.length = names.length

theorem new_of {r : ResultSet} (h : ∀ row ∈ r.rows, row.length = r.fields.length) : (new (some r)).Of r.fields := by
  refine ⟨rfl,?_⟩
  intro r' hr
  cases hr
  exact ⟨rfl,h⟩

theorem copyLoop_eq (r : List (Option Bytes)) (i left : Nat) (h : i + left ≤ r.length) :
    copyLoop r i left = .ok (((r.drop i).take left).map (·.getD [])) [] := by
  induction left generalizing i with
  | zero => simp [copyLoop]
  | succ left ih =>
    have hlt : i < r.length := by omega
    rw [copyLoop,Act.read_natCast (List.getElem?_eq_getElem hlt),Act.bind_ok,ih (i + 1) (by omega),
      List.drop_eq_getElem_cons hlt]
    rfl

/-- Fetching copies as many values as there are different names. -/
theorem Of.fetch_eq (h : q.Of names) (hr : q.m_result = some ⟨names,r :: rows⟩) (row : MysqlRow) :
    q.fetch_row row = .ok ({ q with m_result := some ⟨names,rows⟩ },⟨(r.take names.dedup.length).map (·.getD [])⟩,
      !((r.take names.dedup.length).map (·.getD [])).isEmpty) [] := by
  have hlen := (h.stored _ hr).2 r (by simp)
  have hle := (List.dedup_sublist names).length_le
  rw [fetch_row,hr]
  dsimp only
  rw [copyLoop_eq r 0 _ (by rw [h.fields,fieldLoop_length]; omega),h.fields,fieldLoop_length]
  rfl

/-- What is fetched from a result leaves a result of the same query. -/
theorem Of.fetch (h : q.Of names) {ok : Bool} {fx : List Empty} (hf : q.fetch_row row = .ok (q',row',ok) fx) : q'.Of names := by
  cases hr : q.m_result with
  | none =>
    rw [fetch_row,hr] at hf
    cases hf
    exact h
  | some s =>
    obtain ⟨fields,rows⟩ := s
    cases rows with
    | nil =>
      rw [fetch_row,hr] at hf
      cases hf
      exact h
    | cons r rows =>
      obtain ⟨hfields,hrows⟩ := h.stored _ hr
      subst hfields
      rw [h.fetch_eq hr] at hf
      cases hf
      refine ⟨h.fields,?_⟩
      intro s hs
      cases hs
      exact ⟨rfl,fun row hrow => hrows row (by simp [hrow])⟩

/-- The text of a column, with NULL as the empty string. -/
def column (r : List (Option Bytes)) (i : Nat) : Bytes := (r[i]?.join).getD []

/-- The name stands at `i` and nowhere else. -/
def Only (names : List Bytes) (name : Bytes) (i : Nat) : Prop := names[i]? = some name ∧ names.count name = 1

/-- Every column with a name of its own is read by that name. -/
def ColumnAccess (q : MysqlResult) (row : MysqlRow) (names : List Bytes) (r : List (Option Bytes)) : Prop :=
  ∀ i name, Only names name i → q.get_string row name = column r i

/-- Such columns that are not empty stand before as many places as there are different names. -/
def InFront (names : List Bytes) (r : List (Option Bytes)) : Prop :=
  ∀ i name, Only names name i → column r i ≠ [] → i < names.dedup.length

theorem Only.last (h : Only names name i) (k : Nat) (hk : i < k) : names[k]? ≠ some name := by
  intro hn
  obtain ⟨hi,hc⟩ := h
  obtain ⟨hil,hi⟩ := List.getElem?_eq_some_iff.mp hi
  obtain ⟨hkl,hn⟩ := List.getElem?_eq_some_iff.mp hn
  have h1 : 0 < (names.take k).count name := by
    rw [List.count_pos_iff,← hi]
    exact List.mem_take_iff_getElem.mpr ⟨i,by omega,rfl⟩
  have h2 : 0 < (names.drop k).count name := by
    rw [List.count_pos_iff,← hn]
    exact List.mem_drop_iff_getElem.mpr ⟨0,by omega,by simp⟩
  have hsum := congrArg (List.count name) (List.take_append_drop k names)
  rw [List.count_append] at hsum
  omega

/-- A name leads to its last column if that has been copied. -/
theorem get_string_of_last (hf : q.m_field = fieldLoop 0 names []) (hj : names[j]? = some name)
    (hlast : ∀ k, j < k → names[k]? ≠ some name) (m_row : List Bytes) : q.get_string ⟨m_row⟩ name = (m_row[j]?).getD [] := by
  have hidx : q.name2idx name = j := by
    rw [name2idx,hf,fieldLoop_eq_some hj hlast]
    simp
  rw [get_string,hidx]
  dsimp only
  split
  · rename_i hout
    have hout : m_row.length ≤ j := by omega
    rw [List.getElem?_eq_none hout]
    rfl
  · rw [Int.toNat_natCast]

theorem get_string_of_notMem (hf : q.m_field = fieldLoop 0 names []) (hn : name ∉ names) (m_row : List Bytes) :
    q.get_string ⟨m_row⟩ name = [] := by
  have hidx : q.name2idx name = -1 := by
    rw [name2idx,hf,fieldLoop_of_notMem hn]
    rfl
  rw [get_string,hidx]
  exact if_pos (Or.inl (by decide))

/-- The client reads a fetched row like the row object. -/
theorem get_string_eq_getString {r : ResultSet} (hf : q.m_field = fieldLoop 0 r.fields []) (m_row : List Bytes) (key : Bytes) :
    q.get_string ⟨m_row⟩ key = MysqlClient.getString r m_row key := by
  rw [MysqlClient.getString]
  cases hidx : r.fields.reverse.idxOf? key with
  | none =>
    have hn : key ∉ r.fields.reverse := List.idxOf?_eq_none_iff.mp hidx
    exact get_string_of_notMem hf (fun hm => hn (List.mem_reverse.mpr hm)) m_row
  | some k =>
    obtain ⟨hk,hkey,hfirst⟩ := List.idxOf?_eq_some_iff.mp hidx
    rw [List.length_reverse] at hk
    rw [List.getElem_reverse] at hkey
    refine get_string_of_last hf (by rw [List.getElem?_eq_getElem (by omega),hkey]) (fun l hl hname => ?_) m_row
    obtain ⟨hll,hname⟩ := List.getElem?_eq_some_iff.mp hname
    have hl' := hfirst (r.fields.length - 1 - l) (by omega)
    rw [List.getElem_reverse] at hl'
    exact hl' (by simpa [show r.fields.length - 1 - (r.fields.length - 1 - l) = l by omega] using hname)

/-- The client fetches a row like a fresh result object. -/
theorem fetch_row_eq_fetchRow {r : ResultSet} (h : ∀ row ∈ r.rows, row.length = r.fields.length) :
    ∃ q', q'.m_field = fieldLoop 0 r.fields [] ∧ (new (some r)).fetch_row ⟨[]⟩ =
      .ok (q',⟨(MysqlClient.fetchRow r).getD []⟩,(MysqlClient.fetchRow r).isSome) [] := by
  obtain ⟨fields,rows⟩ := r
  cases rows with
  | nil => exact ⟨_,rfl,rfl⟩
  | cons row rows =>
    have hfetch := (new_of h).fetch_eq rfl ⟨[]⟩
    have hrow : MysqlClient.fetchRow ⟨fields,row :: rows⟩ = if ((row.take fields.dedup.length).map (·.getD [])).isEmpty then none
        else some ((row.take fields.dedup.length).map (·.getD [])) := rfl
    refine ⟨⟨some ⟨fields,rows⟩,fieldLoop 0 fields []⟩,rfl,hfetch.trans ?_⟩
    rw [hrow]
    dsimp only
    cases (row.take fields.dedup.length).map (·.getD []) <;> rfl

/-- After a successful fetch, access by name is right for every name that occurs once if
and only if no non-empty column of such a name stands too far behind. -/
theorem column_access_iff (hq : q.Of names) (hr : q.m_result = some ⟨names,r :: rows⟩)
    (hf : q.fetch_row row = .ok (q',row',true) []) : ColumnAccess q' row' names r ↔ InFront names r := by
  rw [hq.fetch_eq hr] at hf
  simp only [Act.ok.injEq,Prod.mk.injEq] at hf
  obtain ⟨⟨rfl,rfl,_⟩,_⟩ := hf
  have hget (i : Nat) (name : Bytes) (ho : Only names name i) :
      get_string ⟨some ⟨names,rows⟩,q.m_field⟩ ⟨(r.take names.dedup.length).map (·.getD [])⟩ name =
        if i < names.dedup.length then column r i else [] := by
    have hfields : (⟨some ⟨names,rows⟩,q.m_field⟩ : MysqlResult).m_field = fieldLoop 0 names [] := hq.fields
    rw [get_string_of_last hfields ho.1 ho.last,List.getElem?_map,List.getElem?_take]
    split
    · rw [column]
      cases r[i]? <;> rfl
    · rfl
  constructor
  · intro h i name ho hne
    by_contra hi
    have := h i name ho
    rw [hget i name ho,if_neg hi] at this
    exact hne this.symm
  · intro h i name ho
    rw [hget i name ho]
    by_cases hi : i < names.dedup.length
    · exact if_pos hi
    · rw [if_neg hi]
      by_contra hne
      exact hi (h i name ho (Ne.symm hne))

/-- The columns of a join on id. -/
def joined : ResultSet := ⟨[ascii "id",ascii "id",ascii "name"],[[some (ascii "1"),some (ascii "1"),some (ascii "x")],[none,none,none]]⟩

theorem column_access_iff_joined : ∃ q₁ row₁ q₂ row₂,
    (new (some joined)).fetch_row ⟨[]⟩ = .ok (q₁,row₁,true) [] ∧ q₁.fetch_row row₁ = .ok (q₂,row₂,true) [] ∧
    ¬ ColumnAccess q₁ row₁ joined.fields [some (ascii "1"),some (ascii "1"),some (ascii "x")] ∧
    ColumnAccess q₂ row₂ joined.fields [none,none,none] := by
  have h₀ : (new (some joined)).Of joined.fields := new_of (by decide)
  have h₁ : (new (some joined)).fetch_row ⟨[]⟩ = .ok (_,_,true) [] := h₀.fetch_eq rfl ⟨[]⟩
  have h₂ := (h₀.fetch h₁).fetch_eq rfl ⟨[ascii "1",ascii "1"]⟩
  refine ⟨_,_,_,_,h₁,h₂,?_,?_⟩
  · rw [column_access_iff h₀ rfl h₁]
    intro h
    exact absurd (h 2 (ascii "name") ⟨by decide,by decide⟩ (by decide)) (by decide)
  · rw [column_access_iff (h₀.fetch h₁) rfl h₂]
    intro i name _ hne
    exact absurd (by rcases i with _ | _ | _ | i <;> rfl) hne

/-- The third column of the join is not copied, and its name reads as empty. -/
theorem third_column_lost : ∃ q row, (new (some joined)).fetch_row ⟨[]⟩ = .ok (q,row,true) [] ∧
    row.m_row = [ascii "1",ascii "1"] ∧ joined.fields.count (ascii "name") = 1 ∧ q.get_string row (ascii "name") = [] ∧
    ¬ ColumnAccess q row joined.fields [some (ascii "1"),some (ascii "1"),some (ascii "x")] := by
  refine ⟨⟨some ⟨joined.fields,[[none,none,none]]⟩,(new (some joined)).m_field⟩,⟨[ascii "1",ascii "1"]⟩,by decide,rfl,
    by decide,by decide,?_⟩
  intro h
  exact absurd (h 2 (ascii "name") ⟨by decide,by decide⟩) (by decide)

end MysqlResult

end MyProgram.Mysql
