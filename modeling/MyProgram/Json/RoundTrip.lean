import MyProgram.Json.Tables

/-! Which values come back from `json.decode(json.encode(v))`. -/
namespace MyProgram.Json
open Lib
variable {N : Numbers} {v : Value N} {c : UInt8} {s r : Bytes}

/-- A value that was read back. -/
private structure Back (v v' : Value N) : Prop where
  ne_nil : v' ≠ .nil
  same_iff : Same v' (keyed v) ↔ Good v

/-- What follows a value in an encoded text. -/
private def Delimited (r : Bytes) : Prop := ∀ b ∈ r.head?, isDelim b = true

/-- A value that is not good may also make Lua raise an error. -/
private def Outcome (v : Value N) (r : Bytes) (o : Parse (Value N × Bytes)) : Prop :=
  (∃ v', o = .ok (v',r) ∧ Back v v') ∨ ¬Good v ∧ ∃ e, o = .error (.raised e)

private def Reads (v : Value N) : Prop :=
  ∀ s, encode v = .ok s → ∀ fuel r, s.length < fuel → Delimited r → Outcome v r (parse fuel (s ++ r))

private theorem takeWhile_delimited (hs : s.all (fun b => !isDelim b) = true) (hr : Delimited r) :
    (s ++ r).takeWhile (fun b => !isDelim b) = s := by
  rw [List.takeWhile_append_of_pos (List.all_eq_true.mp hs)]
  cases r with
  | nil => simp
  | cons b r => simp [hr b rfl]

private theorem reads_bool (b : Bool) : Reads (.bool b : Value N) := by
  intro s hs fuel r hlen hr
  obtain ⟨fuel,rfl⟩ := Nat.exists_eq_succ_of_ne_zero (Nat.ne_zero_of_lt hlen)
  refine .inl ⟨.bool b,?_,⟨nofun,iff_of_true (Same.refl _) (good_bool b)⟩⟩
  cases b with
  | true =>
    cases hs
    have hw : (ascii "true" ++ r).takeWhile (fun b => !isDelim b) = ascii "true" := takeWhile_delimited (by decide) hr
    show parseLiteral (ascii "true" ++ r) = _
    rw [parseLiteral,hw]
    rfl
  | false =>
    cases hs
    have hw : (ascii "false" ++ r).takeWhile (fun b => !isDelim b) = ascii "false" := takeWhile_delimited (by decide) hr
    show parseLiteral (ascii "false" ++ r) = _
    rw [parseLiteral,hw]
    rfl

private theorem reads_str (t : Bytes) : Reads (.str t : Value N) := by
  intro s hs fuel r hlen hr
  obtain ⟨fuel,rfl⟩ := Nat.exists_eq_succ_of_ne_zero (Nat.ne_zero_of_lt hlen)
  cases hs
  have hparse : parse (fuel + 1) (encodeString t ++ r) = (parseString (escape t ++ 34 :: r)).map fun p => (.str (N := N) p.1,p.2) := by
    rw [encodeString,List.cons_append,List.append_assoc]
    rfl
  rw [hparse]
  by_cases ht : Fine t
  · rw [parseString_fine ht]
    exact .inl ⟨.str t,rfl,⟨nofun,iff_of_true (Same.refl _) (good_str.mpr ht)⟩⟩
  · have hbad : ¬Good (.str t : Value N) := mt good_str.mp ht
    rcases parseString_not_fine ht r with ⟨y,hy,hlt⟩ | ⟨e,he⟩
    · rw [hy]
      refine .inl ⟨.str y,rfl,⟨nofun,iff_of_false (fun hsame => ?_) hbad⟩⟩
      cases hsame []
      omega
    · rw [he]
      exact .inr ⟨hbad,e,rfl⟩

/-! The text of a table. -/

private theorem mapM_eq_ok {ε α β : Type} {f : α → Except ε β} {l : List α} {l' : List β} (h : l.mapM f = .ok l') :
    List.Forall₂ (fun a b => f a = .ok b) l l' := by
  induction l generalizing l' with
  | nil =>
    cases h
    exact .nil
  | cons a l ih =>
    rw [List.mapM_cons] at h
    obtain ⟨b,hb,h⟩ := bind_eq_ok h
    obtain ⟨l'',hl,h⟩ := bind_eq_ok h
    cases h
    exact .cons hb (ih hl)

private theorem isArray_map {α β : Type} (g : α → β) (es : List (Key × α)) : isArray (es.map fun e => (e.1,g e.2)) = isArray es := by
  have hall : (es.map fun e => (e.1,g e.2)).all (·.1.isNumber) = es.all (·.1.isNumber) := by
    rw [List.all_map]
    rfl
  rw [isArray,isArray,lookup_map,hall,Option.isSome_map,List.isEmpty_map]

private theorem ipairs_map {α β : Type} (g : α → β) (es : List (Key × α)) : ipairs (es.map fun e => (e.1,g e.2)) = (ipairs es).map g := by
  have hfrom (fuel i : Nat) : ipairsFrom (es.map fun e => (e.1,g e.2)) fuel i = (ipairsFrom es fuel i).map g := by
    induction fuel generalizing i with
    | zero => rfl
    | succ fuel ih =>
      rw [ipairsFrom,ipairsFrom,lookup_map,ih]
      cases es.lookup (.int i) <;> rfl
  rw [ipairs,ipairs,List.length_map,hfrom]

/-- An entry and its text in an object. -/
private def Member (e : Key × Value N) (p : Bytes) : Prop := ∃ t, encode e.2 = .ok t ∧ p = encodeString e.1.tostring ++ 58 :: t

/-- What a table is encoded to. -/
private theorem encode_table {es : List (Key × Value N)} {b : Nat} (h : encode (.table es b) = .ok s) :
    (isArray es = true ∧ ∃ parts, List.Forall₂ (fun v p => encode v = .ok p) (ipairs es) parts ∧ s = 91 :: ([44].intercalate parts ++ [93])) ∨
      (isArray es = false ∧ ∃ parts, List.Forall₂ Member es parts ∧ s = 123 :: ([44].intercalate parts ++ [125])) := by
  rw [encode,encodeEntries_eq,encodeTable,isArray_map,ipairs_map] at h
  split at h
  · rename_i ha
    split at h
    · cases h
    · rw [encodeArray] at h
      obtain ⟨parts,hparts,hs⟩ := bind_eq_ok h
      cases hs
      have hvalues := mapM_eq_ok hparts
      rw [List.forall₂_map_left_iff] at hvalues
      exact .inl ⟨ha,parts,hvalues,rfl⟩
  · rename_i ha
    rw [encodeObject] at h
    obtain ⟨parts,hparts,hs⟩ := bind_eq_ok h
    cases hs
    refine .inr ⟨by simpa using ha,parts,?_,rfl⟩
    have hmembers := mapM_eq_ok hparts
    rw [List.forall₂_map_left_iff] at hmembers
    refine hmembers.imp fun e p hp => ?_
    obtain ⟨t,ht,hp⟩ := bind_eq_ok hp
    exact ⟨t,ht,(Except.ok.inj hp).symm⟩

private theorem skipSpaces_cons (h : isSpaceChar c = false) : skipSpaces (c :: s) = c :: s := by
  rw [skipSpaces,List.dropWhile_cons,h]
  rfl

/-- How an encoded value starts. -/
private theorem encode_head (hv : Legal v) (hs : encode v = .ok s) : ∃ c t, s = c :: t ∧ isSpaceChar c = false ∧ c ≠ 93 := by
  cases v with
  | nil => exact absurd hv not_legal_nil
  | number n => exact absurd hv (not_legal_number n)
  | bool b =>
    cases hs
    cases b with
    | true => exact ⟨116,_,rfl,by decide,by decide⟩
    | false => exact ⟨102,_,rfl,by decide,by decide⟩
  | str t =>
    cases hs
    exact ⟨34,_,rfl,by decide,by decide⟩
  | table es b =>
    rcases encode_table hs with ⟨_,parts,_,rfl⟩ | ⟨_,parts,_,rfl⟩
    · exact ⟨91,_,rfl,by decide,by decide⟩
    · exact ⟨123,_,rfl,by decide,by decide⟩

/-- What follows an entry: the next ones, or the end of the table. -/
private def behind (close : UInt8) (parts : List Bytes) (r : Bytes) : Bytes :=
  match parts with
  | [] => close :: r
  | p :: parts => 44 :: ([44].intercalate (p :: parts) ++ close :: r)

private theorem intercalate_behind (close : UInt8) (p : Bytes) (parts : List Bytes) (r : Bytes) :
    [44].intercalate (p :: parts) ++ close :: r = p ++ behind close parts r := by
  cases parts with
  | nil => simp [behind]
  | cons q parts => simp [behind,List.intercalate_cons_cons]

private theorem delimited_behind {close : UInt8} (h : isDelim close = true) (parts : List Bytes) (r : Bytes) :
    Delimited (behind close parts r) := by
  intro b hb
  cases parts with
  | nil =>
    cases hb
    exact h
  | cons p parts =>
    cases hb
    decide

/-! The loop of arrays. -/

section ArrayLoop
variable {read : Bytes → Parse (Value N × Bytes)} {fuel n : Nat} {res : List (Key × Value N)} {x : Value N} {rest : Bytes}

private theorem parseArray_end : parseArray read (fuel + 1) n res (93 :: r) = .ok (.ofEntries res,r) := rfl

private theorem parseArray_eq (hsp : isSpaceChar c = false) (hc : c ≠ 93) : parseArray read (fuel + 1) n res (c :: s) =
    (read (c :: s) >>= fun p => match skipSpaces p.2 with
      | 93 :: rest => .ok (.ofEntries (assign res (.int n) p.1.field),rest)
      | 44 :: rest => parseArray read fuel (n + 1) (assign res (.int n) p.1.field) rest
      | rest => .error (.message .expectedArrayEnd (rest.length - 1))) := by
  rw [parseArray,skipSpaces_cons hsp]
  split
  · rename_i he
    exact absurd (List.cons.inj he).1 hc
  · rfl

end ArrayLoop

private theorem Value.field_of_ne {v : Value N} (h : v ≠ .nil) : v.field = some v := by
  cases v with
  | nil => exact absurd rfl h
  | _ => rfl

private def numberedFrom (n : Nat) : List (Value N) → List (Key × Value N)
  | [] => []
  | v :: vs => (.int n,v) :: numberedFrom (n + 1) vs

/-- The loop reads the values one by one. -/
private theorem parseArray_reads {f : Nat} {vs : List (Value N)} {parts : List Bytes}
    (hparts : List.Forall₂ (fun v p => encode v = .ok p) vs parts) (hvs : ∀ v ∈ vs, Legal v ∧ Reads v) (hf : ∀ p ∈ parts, p.length < f)
    {fuel n : Nat} {res : List (Key × Value N)} (hfuel : parts.length < fuel) (hres : ∀ k ∈ res.map Prod.fst, ∃ i < n, k = .int i) :
    (∃ vs', parseArray (parse f) fuel n res ([44].intercalate parts ++ 93 :: r) = .ok (.ofEntries (res ++ numberedFrom n vs'),r) ∧
        List.Forall₂ Back vs vs') ∨
      (∃ v ∈ vs, ¬Good v) ∧ ∃ e, parseArray (parse f) fuel n res ([44].intercalate parts ++ 93 :: r) = .error (.raised e) := by
  obtain ⟨fuel,rfl⟩ := Nat.exists_eq_succ_of_ne_zero (Nat.ne_zero_of_lt hfuel)
  induction hparts generalizing fuel n res with
  | nil =>
    refine .inl ⟨[],?_,.nil⟩
    rw [numberedFrom,List.append_nil]
    exact parseArray_end
  | @cons v p vs parts hv hparts ih =>
    obtain ⟨hlegal,hreads⟩ := hvs v List.mem_cons_self
    obtain ⟨c,t,rfl,hsp,hc⟩ := encode_head hlegal hv
    rw [intercalate_behind,List.cons_append,parseArray_eq hsp hc,← List.cons_append]
    rcases hreads _ hv f _ (hf _ List.mem_cons_self) (delimited_behind (show isDelim 93 = true by decide) parts r) with ⟨x,hx,hback⟩ | ⟨hbad,e,he⟩
    · have hnew : Key.int n ∉ res.map Prod.fst := fun hm => by
        obtain ⟨i,hi,he⟩ := hres _ hm
        cases he
        omega
      have hassign : assign res (.int n) x.field = res ++ [(Key.int n,x)] := by
        rw [Value.field_of_ne hback.ne_nil,assign_of_notMem hnew]
      rw [hx]
      cases parts with
      | nil =>
        cases hparts
        refine .inl ⟨[x],?_,.cons hback .nil⟩
        show Except.ok (Value.ofEntries (assign res (.int n) x.field),r) = _
        rw [hassign]
        rfl
      | cons q parts =>
        obtain ⟨fuel,rfl⟩ : ∃ k, fuel = k + 1 := ⟨fuel - 1,by simp only [List.length_cons] at hfuel; omega⟩
        have hres' : ∀ k ∈ (assign res (.int n) x.field).map Prod.fst, ∃ i < n + 1, k = .int i := by
          rw [hassign,List.map_append]
          intro k hk
          rcases List.mem_append.mp hk with hk | hk
          · obtain ⟨i,hi,he⟩ := hres k hk
            exact ⟨i,by omega,he⟩
          · exact ⟨n,by omega,by simpa using hk⟩
        have hnext := ih (fun v hv => hvs v (List.mem_cons_of_mem _ hv)) (fun p hp => hf p (List.mem_cons_of_mem _ hp)) hres' fuel
          (by simp only [List.length_cons] at hfuel ⊢; omega)
        rcases hnext with ⟨vs',he,hvs'⟩ | ⟨⟨v',hv',hbad⟩,e,he⟩
        · refine .inl ⟨x :: vs',he.trans ?_,.cons hback hvs'⟩
          rw [hassign,numberedFrom,List.append_assoc,List.singleton_append]
        · exact .inr ⟨⟨v',List.mem_cons_of_mem _ hv',hbad⟩,e,he⟩
    · rw [he]
      exact .inr ⟨⟨v,List.mem_cons_self,hbad⟩,e,rfl⟩

/-! What arrays come back as. -/

private theorem lookup_numberedFrom {vs : List (Value N)} {n : Nat} {k : Key} {x : Value N} :
    (numberedFrom n vs).lookup k = some x ↔ ∃ i, k = .int (n + i : Nat) ∧ vs[i]? = some x := by
  induction vs generalizing n with
  | nil => simp [numberedFrom]
  | cons v vs ih =>
    rw [numberedFrom,lookup_cons_ite]
    by_cases hk : k = .int n
    · rw [if_pos hk]
      constructor
      · intro hx
        exact ⟨0,hk,hx⟩
      · rintro ⟨i,hi,hx⟩
        have hi0 : i = 0 := by
          have := Key.int.inj (hk.symm.trans hi)
          omega
        rw [hi0] at hx
        exact hx
    · rw [if_neg hk,ih]
      constructor
      · rintro ⟨i,hi,hx⟩
        exact ⟨i + 1,by rw [hi]; congr 1; omega,hx⟩
      · rintro ⟨i,hi,hx⟩
        cases i with
        | zero => exact absurd hi hk
        | succ i => exact ⟨i,by rw [hi]; congr 1; omega,hx⟩

private theorem ipairsFrom_get {es : List (Key × Value N)} {fuel n i : Nat} {x : Value N} (h : (ipairsFrom es fuel n)[i]? = some x) :
    es.lookup (.int (n + i : Nat)) = some x := by
  induction fuel generalizing n i with
  | zero => cases h
  | succ fuel ih =>
    rw [ipairsFrom] at h
    cases hl : es.lookup (.int n) with
    | none =>
      rw [hl] at h
      cases h
    | some v =>
      rw [hl] at h
      cases i with
      | zero =>
        cases h
        exact hl
      | succ i =>
        rw [show n + (i + 1) = n + 1 + i by omega]
        exact ih h

private theorem ipairsFrom_length {es : List (Key × Value N)} {fuel n : Nat}
    (h : ∀ i < fuel, (es.lookup (.int (n + i : Nat))).isSome = true) : (ipairsFrom es fuel n).length = fuel := by
  induction fuel generalizing n with
  | zero => rfl
  | succ fuel ih =>
    obtain ⟨v,hv⟩ := Option.isSome_iff_exists.mp (h 0 (by omega))
    rw [ipairsFrom,show es.lookup (.int n) = some v from hv]
    show (ipairsFrom es fuel (n + 1)).length + 1 = fuel + 1
    rw [ih fun i hi => ?_]
    have := h (i + 1) (by omega)
    rwa [show n + (i + 1) = n + 1 + i by omega] at this

private theorem ipairsFrom_length_le (es : List (Key × Value N)) (fuel n : Nat) : (ipairsFrom es fuel n).length ≤ fuel := by
  induction fuel generalizing n with
  | zero => exact Nat.le_refl _
  | succ fuel ih =>
    rw [ipairsFrom]
    split
    · exact Nat.succ_le_succ (ih _)
    · exact Nat.zero_le _

private theorem forall₂_get {α β : Type} {R : α → β → Prop} {l : List α} {l' : List β} (h : List.Forall₂ R l l') {i : Nat} {a : α}
    (ha : l[i]? = some a) : ∃ b, l'[i]? = some b ∧ R a b := by
  induction h generalizing i with
  | nil => cases ha
  | cons hab _ ih =>
    cases i with
    | zero =>
      cases ha
      exact ⟨_,rfl,hab⟩
    | succ i => exact ih ha

private theorem nodup_keys {es : List (Key × Value N)} (h : (es.map (·.1.tostring)).Nodup) : (es.map Prod.fst).Nodup := by
  refine List.Nodup.of_map Key.tostring ?_
  rwa [List.map_map]

/-- Numbers are fine as keys. -/
private theorem fine_int (i : Int) : Fine (Key.int i).tostring := by
  refine fine_of_no_control fun c hc hcontrol => ?_
  have hge := mem_signedDecimal hc
  have hlt := UInt8.lt_iff_toNat_lt.mp hcontrol.1
  exact absurd hlt (by simp; omega)

private theorem isNumber_of_isArray {es : List (Key × Value N)} (ha : isArray es = true) {e : Key × Value N} (he : e ∈ es) :
    ∃ i, e.1 = .int i := by
  have := List.all_eq_true.mp (Bool.and_eq_true_iff.mp ha).2 e he
  cases hk : e.1 with
  | int i => exact ⟨i,rfl⟩
  | str s =>
    rw [hk] at this
    cases this

/-- In a dense table every number up to the length is a key. -/
private theorem Dense.lookup {es : List (Key × Value N)} (hd : Dense es) (hn : (es.map Prod.fst).Nodup) {i : Nat} (hi : i < es.length) :
    (es.lookup (.int (1 + i : Nat))).isSome = true := by
  have hsub : es.map Prod.fst ⊆ (List.range es.length).map fun i => Key.int (1 + i : Nat) := by
    intro k hk
    obtain ⟨e,he,rfl⟩ := List.mem_map.mp hk
    obtain ⟨i,hki,h1,hle⟩ := hd e he
    exact List.mem_map.mpr ⟨i - 1,List.mem_range.mpr (by omega),by rw [hki]; congr 1; omega⟩
  have hperm := (List.subperm_of_subset hn hsub).perm_of_length_le (by simp)
  have hm : Key.int (1 + i : Nat) ∈ es.map Prod.fst := hperm.mem_iff.mpr (List.mem_map.mpr ⟨i,List.mem_range.mpr hi,rfl⟩)
  obtain ⟨e,he,hk⟩ := List.mem_map.mp hm
  rw [lookup_of_mem hn (show (Key.int (1 + i : Nat),e.2) ∈ es by rw [← hk]; exact he)]
  rfl

/-- What an array came back with is one of its entries. -/
private theorem array_origin {es : List (Key × Value N)} {vs : List (Value N)} {k : Key} {x : Value N}
    (hback : List.Forall₂ Back (ipairs es) vs) (hx : (numberedFrom 1 vs).lookup k = some x) :
    ∃ i w, k = .int (1 + i : Nat) ∧ i < es.length ∧ es.lookup k = some w ∧ Back w x := by
  obtain ⟨i,rfl,hi⟩ := lookup_numberedFrom.mp hx
  obtain ⟨w,hw,hb⟩ := forall₂_get hback.flip hi
  obtain ⟨hlt,_⟩ := List.getElem?_eq_some_iff.mp hw
  exact ⟨i,w,rfl,Nat.lt_of_lt_of_le hlt (ipairsFrom_length_le es es.length 1),ipairsFrom_get hw,hb⟩

/-- A dense array comes back with every entry. -/
private theorem array_kept {es : List (Key × Value N)} {vs : List (Value N)} {k : Key} {v : Value N}
    (hback : List.Forall₂ Back (ipairs es) vs) (hd : Dense es) (hn : (es.map Prod.fst).Nodup) (hl : es.lookup k = some v) :
    ∃ x, (numberedFrom 1 vs).lookup k = some x ∧ Back v x := by
  obtain ⟨i,hk,h1,hle⟩ := hd _ (mem_of_lookup hl)
  have hki : k = .int (1 + (i - 1) : Nat) := by
    rw [show 1 + (i - 1) = i by omega]
    exact hk
  have hlen : (ipairs es).length = es.length := ipairsFrom_length fun i hi => hd.lookup hn hi
  obtain ⟨w,hw⟩ : ∃ w, (ipairs es)[i - 1]? = some w := ⟨_,List.getElem?_eq_getElem (show i - 1 < (ipairs es).length by omega)⟩
  have hwl : es.lookup k = some w := by
    rw [hki]
    exact ipairsFrom_get hw
  rw [hl] at hwl
  cases hwl
  obtain ⟨x,hx,hb⟩ := forall₂_get hback hw
  exact ⟨x,lookup_numberedFrom.mpr ⟨i - 1,hki,hx⟩,hb⟩

/-- An array comes back as it was exactly when it is good. -/
private theorem array_same_iff {es : List (Key × Value N)} {b : Nat} {vs : List (Value N)} (hv : Legal (.table es b))
    (ha : isArray es = true) (hback : List.Forall₂ Back (ipairs es) vs) :
    Same (.ofEntries (numberedFrom 1 vs)) (keyed (.table es b)) ↔ Good (.table es b) := by
  have hn := nodup_keys (legal_table.mp hv).1.1
  rw [keyed,if_pos ha,keyedEntries_eq,Value.ofEntries,same_table,good_table]
  constructor
  · intro h
    have hentry : ∀ e ∈ es, (∃ i : Nat, e.1 = .int i ∧ 1 ≤ i ∧ i ≤ es.length) ∧ Good e.2 := by
      intro e he
      have hl : es.lookup e.1 = some e.2 := lookup_of_mem hn he
      have hrel := h e.1
      rw [lookup_map,hl,Option.map_some] at hrel
      generalize ho : (numberedFrom 1 vs).lookup e.1 = o at hrel
      cases hrel with
      | some hsame =>
        obtain ⟨i,w,hk,hi,hw,hb⟩ := array_origin hback ho
        rw [hl] at hw
        cases hw
        exact ⟨⟨1 + i,hk,by omega,by omega⟩,hb.same_iff.mp hsame⟩
    refine ⟨⟨fun e he => ?_,fun _ e he => (hentry e he).1⟩,fun e he => (hentry e he).2⟩
    obtain ⟨i,hi⟩ := isNumber_of_isArray ha he
    rw [hi]
    exact fine_int i
  · rintro ⟨⟨_,hdense⟩,hgood⟩ k
    rw [lookup_map]
    cases hl : es.lookup k with
    | none =>
      cases ho : (numberedFrom 1 vs).lookup k with
      | none => exact .none
      | some x =>
        obtain ⟨i,w,_,_,hw,_⟩ := array_origin hback ho
        rw [hl] at hw
        cases hw
    | some v =>
      obtain ⟨x,hx,hb⟩ := array_kept hback (hdense ha) hn hl
      rw [hx]
      exact .some (hb.same_iff.mpr (hgood _ (mem_of_lookup hl)))

/-! The loop of objects. -/

private theorem parseObject_eq {read : Bytes → Parse (Value N × Bytes)} {fuel : Nat} {res : List (Key × Value N)} {text : Bytes} :
    parseObject read (fuel + 1) res (34 :: text) = (parseString text >>= fun p => match skipSpaces p.2 with
      | 58 :: rest => read (skipSpaces rest) >>= fun q => match skipSpaces q.2 with
        | 125 :: rest => .ok (.ofEntries (assign res (.str p.1) q.1.field),rest)
        | 44 :: rest => parseObject read fuel (assign res (.str p.1) q.1.field) rest
        | rest => .error (.message .expectedObjectEnd (rest.length - 1))
      | rest => .error (.message .expectedColon rest.length)) := by
  rw [parseObject,skipSpaces_cons (by decide)]
  rfl

private theorem parseObject_value {read : Bytes → Parse (Value N × Bytes)} {fuel : Nat} {res : List (Key × Value N)} {text k rest : Bytes}
    (hk : parseString text = .ok (k,58 :: rest)) (hskip : skipSpaces rest = rest) :
    parseObject read (fuel + 1) res (34 :: text) = (read rest >>= fun q => match skipSpaces q.2 with
      | 125 :: rest => .ok (.ofEntries (assign res (.str k) q.1.field),rest)
      | 44 :: rest => parseObject read fuel (assign res (.str k) q.1.field) rest
      | rest => .error (.message .expectedObjectEnd (rest.length - 1))) := by
  have hcolon : skipSpaces (58 :: rest) = 58 :: rest := skipSpaces_cons (by decide)
  rw [parseObject_eq,hk]
  simp only [bind,Except.bind,hcolon,hskip]

/-- An entry that was read back. A key that is not fine comes back shorter. -/
private structure BackEntry (e d : Key × Value N) : Prop where
  key : ∃ k, d.1 = .str k ∧ (Fine e.1.tostring → k = e.1.tostring) ∧ (¬Fine e.1.tostring → k.length < e.1.tostring.length)
  value : Back e.2 d.2

/-- Reading a key. -/
private theorem parseKey (k rest : Bytes) :
    (∃ k', parseString (escape k ++ 34 :: rest) = .ok (k',rest) ∧ (Fine k → k' = k) ∧ (¬Fine k → k'.length < k.length)) ∨
      ¬Fine k ∧ ∃ e, parseString (escape k ++ 34 :: rest) = .error (.raised e) := by
  by_cases hk : Fine k
  · exact .inl ⟨k,parseString_fine hk rest,fun _ => rfl,fun h => absurd hk h⟩
  · rcases parseString_not_fine hk rest with ⟨k',he,hlt⟩ | ⟨e,he⟩
    · exact .inl ⟨k',he,fun h => absurd h hk,fun _ => hlt⟩
    · exact .inr ⟨hk,e,he⟩

/-- An entry that comes back as it was. -/
private def GoodEntry (e : Key × Value N) : Prop := Fine e.1.tostring ∧ Good e.2

/-- The loop reads the entries one by one. -/
private theorem parseObject_reads {f : Nat} {es : List (Key × Value N)} {parts : List Bytes} (hparts : List.Forall₂ Member es parts)
    (hes : ∀ e ∈ es, Legal e.2 ∧ Reads e.2) (hf : ∀ p ∈ parts, p.length < f) (res : List (Key × Value N)) {fuel : Nat}
    (hfuel : parts.length < fuel) :
    (∃ ds, parseObject (parse f) fuel res ([44].intercalate parts ++ 125 :: r) = .ok (.ofEntries (assignAll res ds),r) ∧
        List.Forall₂ BackEntry es ds) ∨
      (∃ e ∈ es, ¬GoodEntry e) ∧ ∃ e, parseObject (parse f) fuel res ([44].intercalate parts ++ 125 :: r) = .error (.raised e) := by
  obtain ⟨fuel,rfl⟩ := Nat.exists_eq_succ_of_ne_zero (Nat.ne_zero_of_lt hfuel)
  induction hparts generalizing fuel res with
  | nil => exact .inl ⟨[],rfl,.nil⟩
  | @cons e p es parts hp hparts ih =>
    obtain ⟨t,ht,rfl⟩ := hp
    obtain ⟨hlegal,hreads⟩ := hes e List.mem_cons_self
    have htext : encodeString e.1.tostring ++ 58 :: t ++ behind 125 parts r =
        34 :: (escape e.1.tostring ++ 34 :: (58 :: (t ++ behind 125 parts r))) := by
      simp [encodeString]
    have hlen : t.length < f := by
      have := hf _ List.mem_cons_self
      simp only [List.length_append,List.length_cons] at this
      omega
    have hskip : skipSpaces (t ++ behind 125 parts r) = t ++ behind 125 parts r := by
      obtain ⟨c,t',rfl,hsp,_⟩ := encode_head hlegal ht
      exact skipSpaces_cons hsp
    rw [intercalate_behind,htext]
    rcases parseKey e.1.tostring (58 :: (t ++ behind 125 parts r)) with ⟨k,hk,hfine,hnot⟩ | ⟨hnot,err,hk⟩
    · rw [parseObject_value hk hskip]
      rcases hreads t ht f _ hlen (delimited_behind (show isDelim 125 = true by decide) parts r) with ⟨x,hx,hback⟩ | ⟨hbad,err,hx⟩
      · have hentry : BackEntry e (.str k,x) := ⟨⟨k,rfl,hfine,hnot⟩,hback⟩
        have hfield : x.field = some x := Value.field_of_ne hback.ne_nil
        rw [hx]
        cases parts with
        | nil =>
          cases hparts
          refine .inl ⟨[(.str k,x)],?_,.cons hentry .nil⟩
          show Except.ok (Value.ofEntries (assign res (.str k) x.field),r) = _
          rw [hfield]
          rfl
        | cons q parts =>
          obtain ⟨fuel,rfl⟩ : ∃ k, fuel = k + 1 := ⟨fuel - 1,by simp only [List.length_cons] at hfuel; omega⟩
          have hnext := ih (fun e he => hes e (List.mem_cons_of_mem _ he)) (fun p hp => hf p (List.mem_cons_of_mem _ hp))
            (assign res (.str k) x.field) fuel (by simp only [List.length_cons] at hfuel ⊢; omega)
          rcases hnext with ⟨ds,he,hds⟩ | ⟨⟨e',he',hbad⟩,err,he⟩
          · refine .inl ⟨(.str k,x) :: ds,he.trans ?_,.cons hentry hds⟩
            rw [hfield]
            rfl
          · exact .inr ⟨⟨e',List.mem_cons_of_mem _ he',hbad⟩,err,he⟩
      · rw [hx]
        exact .inr ⟨⟨e,List.mem_cons_self,fun h => hbad h.2⟩,err,rfl⟩
    · rw [parseObject_eq,hk]
      exact .inr ⟨⟨e,List.mem_cons_self,fun h => hnot h.1⟩,err,rfl⟩

/-! What objects come back as. -/

private theorem forall₂_mem {α β : Type} {R : α → β → Prop} {l : List α} {l' : List β} (h : List.Forall₂ R l l') {a : α} (ha : a ∈ l) :
    ∃ b ∈ l', R a b := by
  obtain ⟨i,hi⟩ := List.mem_iff_getElem?.mp ha
  obtain ⟨b,hb,hab⟩ := forall₂_get h hi
  exact ⟨b,List.mem_of_getElem? hb,hab⟩

private theorem exists_longest {α : Type} (f : α → Nat) (p : α → Prop) {l : List α} (h : ∃ a ∈ l, p a) :
    ∃ a ∈ l, p a ∧ ∀ b ∈ l, p b → f b ≤ f a := by
  induction l with
  | nil => simp at h
  | cons a l ih =>
    by_cases hl : ∃ b ∈ l, p b
    · obtain ⟨b,hb,hpb,hmax⟩ := ih hl
      by_cases ha : p a ∧ f b < f a
      · refine ⟨a,List.mem_cons_self,ha.1,fun c hc hpc => ?_⟩
        rcases List.mem_cons.mp hc with rfl | hc
        · exact Nat.le_refl _
        · exact Nat.le_trans (hmax c hc hpc) (Nat.le_of_lt ha.2)
      · refine ⟨b,List.mem_cons_of_mem _ hb,hpb,fun c hc hpc => ?_⟩
        rcases List.mem_cons.mp hc with rfl | hc
        · exact Nat.not_lt.mp fun hlt => ha ⟨hpc,hlt⟩
        · exact hmax c hc hpc
    · obtain ⟨b,hb,hpb⟩ := h
      rcases List.mem_cons.mp hb with rfl | hb
      · refine ⟨b,List.mem_cons_self,hpb,fun c hc hpc => ?_⟩
        rcases List.mem_cons.mp hc with rfl | hc
        · exact Nat.le_refl _
        · exact absurd ⟨c,hc,hpc⟩ hl
      · exact absurd ⟨b,hb,hpb⟩ hl

/-- The entries that an object should come back with. -/
private def expected (es : List (Key × Value N)) : List (Key × Value N) := es.map fun e => (.str e.1.tostring,keyed e.2)

private theorem nodup_expected {es : List (Key × Value N)} (h : (es.map (·.1.tostring)).Nodup) : ((expected es).map Prod.fst).Nodup := by
  have he : (expected es).map Prod.fst = (es.map (·.1.tostring)).map Key.str := by
    rw [expected,List.map_map,List.map_map]
    rfl
  rw [he]
  exact h.map fun _ _ => Key.str.inj

/-- With fine keys the entries are assigned to the keys that are expected. -/
private theorem keys_of_fine {es ds : List (Key × Value N)} (hds : List.Forall₂ BackEntry es ds) (hfine : ∀ e ∈ es, Fine e.1.tostring) :
    ds.map Prod.fst = (expected es).map Prod.fst := by
  induction hds with
  | nil => rfl
  | @cons e d es ds he hds ih =>
    obtain ⟨k,hd,hk,_⟩ := he.key
    rw [List.map_cons,hd,hk (hfine e List.mem_cons_self),ih fun e he => hfine e (List.mem_cons_of_mem _ he)]
    rfl

/-- A key that is not fine is missing afterwards, at the latest the longest one. -/
private theorem fine_of_same {es ds : List (Key × Value N)} (hn : (es.map (·.1.tostring)).Nodup) (hds : List.Forall₂ BackEntry es ds)
    (h : ∀ k, Option.Rel Same ((assignAll [] ds).lookup k) ((expected es).lookup k)) : ∀ e ∈ es, Fine e.1.tostring := by
  by_contra hbad
  push Not at hbad
  obtain ⟨e,he,hnot,hmax⟩ := exists_longest (fun e : Key × Value N => e.1.tostring.length) (fun e => ¬Fine e.1.tostring) hbad
  have hl : (expected es).lookup (.str e.1.tostring) = some (keyed e.2) :=
    lookup_of_mem (nodup_expected hn) (List.mem_map.mpr ⟨e,he,rfl⟩)
  have hmem : Key.str e.1.tostring ∈ ds.map Prod.fst := by
    by_contra hm
    have hrel := h (.str e.1.tostring)
    rw [lookup_assignAll_of_notMem hm,hl] at hrel
    cases hrel
  obtain ⟨d,hd,hk⟩ := List.mem_map.mp hmem
  obtain ⟨e',he',hback⟩ := forall₂_mem hds.flip hd
  obtain ⟨k,hdk,hfine,hshort⟩ := hback.key
  have hke : k = e.1.tostring := Key.str.inj (hdk.symm.trans hk)
  by_cases hf : Fine e'.1.tostring
  · rw [← hke,hfine hf] at hnot
    exact hnot hf
  · have h1 := hshort hf
    have h2 := hmax e' he' hf
    rw [hke] at h1
    omega

private theorem lookup_back {es ds : List (Key × Value N)} (hn : (es.map (·.1.tostring)).Nodup) (hds : List.Forall₂ BackEntry es ds)
    (hfine : ∀ e ∈ es, Fine e.1.tostring) {e : Key × Value N} (he : e ∈ es) :
    ∃ x, (assignAll [] ds).lookup (.str e.1.tostring) = some x ∧ Back e.2 x := by
  obtain ⟨d,hd,hback⟩ := forall₂_mem hds he
  obtain ⟨k,hdk,hk,_⟩ := hback.key
  have hkey : d.1 = .str e.1.tostring := by rw [hdk,hk (hfine e he)]
  have hnd : (ds.map Prod.fst).Nodup := by
    rw [keys_of_fine hds hfine]
    exact nodup_expected hn
  refine ⟨d.2,lookup_assignAll hnd ?_,hback.value⟩
  rw [← hkey]
  exact hd

/-- An object comes back as it was exactly when it is good. -/
private theorem object_same_iff {es ds : List (Key × Value N)} {b : Nat} (hv : Legal (.table es b)) (ha : isArray es = false)
    (hds : List.Forall₂ BackEntry es ds) :
    Same (.ofEntries (assignAll [] ds)) (keyed (.table es b)) ↔ Good (.table es b) := by
  have hn := (legal_table.mp hv).1.1
  have hkeyed : keyed (.table es b) = .table (expected es) b := by
    rw [keyed,ha,if_neg Bool.false_ne_true,keyedEntries_eq,List.map_map]
    rfl
  rw [hkeyed,Value.ofEntries,same_table,good_table]
  constructor
  · intro h
    have hfine := fine_of_same hn hds h
    refine ⟨⟨hfine,fun ha' => by rw [ha] at ha'; cases ha'⟩,fun e he => ?_⟩
    obtain ⟨x,hx,hback⟩ := lookup_back hn hds hfine he
    have hrel := h (.str e.1.tostring)
    rw [hx,lookup_of_mem (nodup_expected hn) (List.mem_map.mpr ⟨e,he,rfl⟩)] at hrel
    cases hrel with
    | some hsame => exact hback.same_iff.mp hsame
  · rintro ⟨⟨hfine,_⟩,hgood⟩ k
    cases hl : (expected es).lookup k with
    | none =>
      have hm : k ∉ ds.map Prod.fst := by
        rw [keys_of_fine hds hfine]
        intro hm
        obtain ⟨p,hp,rfl⟩ := List.mem_map.mp hm
        rw [lookup_of_mem (nodup_expected hn) hp] at hl
        cases hl
      rw [lookup_assignAll_of_notMem hm]
      exact .none
    | some y =>
      obtain ⟨e,he,hey⟩ := List.mem_map.mp (mem_of_lookup hl)
      cases hey
      obtain ⟨x,hx,hback⟩ := lookup_back hn hds hfine he
      rw [hx]
      exact .some (hback.same_iff.mpr (hgood e he))

/-! All values. -/

private theorem length_le_intercalate (parts : List Bytes) :
    parts.length ≤ ([44].intercalate parts).length + 1 ∧ ∀ p ∈ parts, p.length ≤ ([44].intercalate parts).length := by
  induction parts with
  | nil => simp
  | cons p parts ih =>
    cases parts with
    | nil => simp
    | cons q parts =>
      rw [List.intercalate_cons_cons]
      simp only [List.length_append,List.length_cons,List.length_nil] at ih ⊢
      refine ⟨by omega,fun p' hp' => ?_⟩
      rcases List.mem_cons.mp hp' with rfl | hp'
      · omega
      · have := ih.2 p' hp'
        omega

private theorem mem_ipairs {es : List (Key × Value N)} (h : v ∈ ipairs es) : ∃ e ∈ es, e.2 = v := by
  obtain ⟨i,hi⟩ := List.mem_iff_getElem?.mp h
  exact ⟨_,mem_of_lookup (ipairsFrom_get hi),rfl⟩

private theorem reads_table {es : List (Key × Value N)} {b : Nat} (hv : Legal (.table es b)) (ih : ∀ e ∈ es, Reads e.2) :
    Reads (.table es b) := by
  intro s hs fuel r hlen hr
  obtain ⟨fuel,rfl⟩ := Nat.exists_eq_succ_of_ne_zero (Nat.ne_zero_of_lt hlen)
  have hlegal := (legal_table.mp hv).2
  rcases encode_table hs with ⟨ha,parts,hparts,rfl⟩ | ⟨ha,parts,hparts,rfl⟩
  · obtain ⟨hcount,hlong⟩ := length_le_intercalate parts
    simp only [List.length_cons,List.length_append,List.length_nil] at hlen
    have htext : parse (N := N) (fuel + 1) (91 :: ([44].intercalate parts ++ [93]) ++ r) =
        parseArray (parse fuel) fuel 1 [] ([44].intercalate parts ++ 93 :: r) := by
      rw [List.cons_append,List.append_assoc]
      rfl
    rw [htext]
    have hvs : ∀ v ∈ ipairs es, Legal v ∧ Reads v := by
      intro v hm
      obtain ⟨e,he,rfl⟩ := mem_ipairs hm
      exact ⟨hlegal e he,ih e he⟩
    have hshort : ∀ p ∈ parts, p.length < fuel := fun p hp => by
      have := hlong p hp
      omega
    have hempty : ∀ k ∈ ([] : List (Key × Value N)).map Prod.fst, ∃ i < 1, k = .int (i : Nat) := fun _ hk => nomatch hk
    rcases parseArray_reads (r := r) hparts hvs hshort (show parts.length < fuel by omega) hempty with
      ⟨vs,he,hback⟩ | ⟨⟨v,hm,hbad⟩,e,he⟩
    · exact .inl ⟨.ofEntries (numberedFrom 1 vs),he,⟨nofun,array_same_iff hv ha hback⟩⟩
    · obtain ⟨e',he',rfl⟩ := mem_ipairs hm
      exact .inr ⟨fun hg => hbad ((good_table.mp hg).2 e' he'),e,he⟩
  · obtain ⟨hcount,hlong⟩ := length_le_intercalate parts
    simp only [List.length_cons,List.length_append,List.length_nil] at hlen
    have htext : parse (N := N) (fuel + 1) (123 :: ([44].intercalate parts ++ [125]) ++ r) =
        parseObject (parse fuel) fuel [] ([44].intercalate parts ++ 125 :: r) := by
      rw [List.cons_append,List.append_assoc]
      rfl
    rw [htext]
    have hshort : ∀ p ∈ parts, p.length < fuel := fun p hp => by
      have := hlong p hp
      omega
    rcases parseObject_reads (r := r) hparts (fun e he => ⟨hlegal e he,ih e he⟩) hshort [] (show parts.length < fuel by omega) with
      ⟨ds,he,hds⟩ | ⟨⟨e',he',hbad⟩,e,he⟩
    · exact .inl ⟨.ofEntries (assignAll [] ds),he,⟨nofun,object_same_iff hv ha hds⟩⟩
    · refine .inr ⟨fun hg => hbad ?_,e,he⟩
      exact ⟨(good_table.mp hg).1.1 e' he',(good_table.mp hg).2 e' he'⟩

private theorem reads_of_legal (v : Value N) : Legal v → Reads v := by
  induction v using Value.induct with
  | nil => exact fun hv => absurd hv not_legal_nil
  | number n => exact fun hv => absurd hv (not_legal_number n)
  | bool b => exact fun _ => reads_bool b
  | str s => exact fun _ => reads_str s
  | table es b ih => exact fun hv => reads_table hv fun e he => ih e he ((legal_table.mp hv).2 e he)

/-- A value that can be encoded comes back from `json.decode`, with the keys of its objects as
strings and no entry lost, exactly when its strings have no clash of substitutions and its
arrays are dense. -/
theorem decode_encode_iff (hv : Legal v) (hs : encode v = .ok s) :
    (∃ v' : Value N, decode s = .ok v' ∧ Same v' (keyed v)) ↔ Good v := by
  obtain ⟨c,t,hst,hsp,_⟩ := encode_head hv hs
  have hskip : skipSpaces s = s := by
    rw [hst]
    exact skipSpaces_cons hsp
  have hreads := reads_of_legal v hv s hs (s.length + 1) [] (Nat.lt_succ_self _) (fun _ hb => nomatch hb)
  rw [List.append_nil] at hreads
  unfold decode
  rw [hskip]
  rcases hreads with ⟨v',hparse,hback⟩ | ⟨hbad,e,hparse⟩
  · rw [hparse]
    refine Iff.trans ?_ hback.same_iff
    constructor
    · rintro ⟨w,hw,hsame⟩
      cases hw
      exact hsame
    · exact fun hsame => ⟨v',rfl,hsame⟩
  · rw [hparse]
    refine iff_of_false ?_ hbad
    rintro ⟨w,hw,_⟩
    cases hw

/-- Integers as numbers. -/
def integers : Numbers :=
  ⟨Int,fun _ => true,signedDecimal,fun s => if signedDecimal (atoi s) = s then some (atoi s) else none⟩

/-- An array with an object in it that has a number as a key, and strings with a backslash, a
line feed and a control character. -/
def nested : Value integers :=
  .table [(.int 2,.table [(.int 7,.str (ascii "\\u0041")),(.str (ascii "a\n"),.bool false)] 0),(.int 1,.str (ascii "\\\x01"))] 2

theorem decode_encode_nested :
    ∃ s, encode nested = .ok s ∧ ∃ v' : Value integers, decode s = .ok v' ∧ Same v' (keyed nested) := by
  refine ⟨_,rfl,(decode_encode_iff ?_ rfl).mpr ?_⟩
  · have hinner : Legal (.table [(.int 7,.str (ascii "\\u0041")),(.str (ascii "a\n"),.bool false)] 0 : Value integers) :=
      legal_table.mpr ⟨⟨by decide,.inl rfl,rfl⟩,by simp⟩
    exact legal_table.mpr ⟨⟨by decide,.inr nofun,rfl⟩,by simpa using hinner⟩
  · have hinner : Good (.table [(.int 7,.str (ascii "\\u0041")),(.str (ascii "a\n"),.bool false)] 0 : Value integers) := by
      refine good_table.mpr ⟨⟨?_,nofun⟩,?_⟩
      · simpa using ⟨fine_int 7,fine_of_no_u (by decide)⟩
      · have hplain : (ascii "\\u0041").all (fun c => !decide (Control c)) = true := by decide
        have hfine : Fine (ascii "\\u0041") := fine_of_no_control fun c hc => by simpa using List.all_eq_true.mp hplain c hc
        simpa using hfine
    refine good_table.mpr ⟨⟨?_,fun _ => ?_⟩,?_⟩
    · simpa using ⟨fine_int 2,fine_int 1⟩
    · simpa [Dense] using ⟨⟨2,rfl,by decide⟩,⟨1,rfl,by decide⟩⟩
    · simpa using ⟨hinner,fine_of_no_u (by decide)⟩

/-- A backslash before `u0041` is lost in a string with a control character, and the entries
behind a gap in an array whose border is its length. -/
theorem clash_and_gap_lost :
    (Legal (.str (ascii "\\u0041\x01") : Value integers) ∧ ∃ s, encode (.str (ascii "\\u0041\x01") : Value integers) = .ok s ∧
        decode s = .ok (.str (ascii "\\A\x01") : Value integers) ∧
        ¬Same (.str (ascii "\\A\x01")) (keyed (.str (ascii "\\u0041\x01") : Value integers))) ∧
      Legal (.table [(.int 1,.bool true),(.int 3,.bool true),(.int 0,.bool true)] 3 : Value integers) ∧
        ∃ s, encode (.table [(.int 1,.bool true),(.int 3,.bool true),(.int 0,.bool true)] 3 : Value integers) = .ok s ∧
          decode s = .ok (.table [(.int 1,.bool true)] 1 : Value integers) ∧
          ¬Same (.table [(.int 1,.bool true)] 1)
            (keyed (.table [(.int 1,.bool true),(.int 3,.bool true),(.int 0,.bool true)] 3 : Value integers)) := by
  refine ⟨⟨legal_str _,_,rfl,rfl,fun h => ?_⟩,?_,_,rfl,rfl,fun h => nomatch h [.int 3]⟩
  · exact absurd (Shape.str.inj (Option.some.inj (h []))) (by decide)
  · exact legal_table.mpr ⟨⟨by decide,.inr nofun,rfl⟩,by simp⟩

end MyProgram.Json
