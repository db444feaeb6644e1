import MyProgram.Lib.CInt

/-! Length-prefixed framing of byte streams: a frame is a big-endian length in
`w` bytes and that many bytes of body. Readers refuse lengths from `limit` on. -/
namespace MyProgram.Lib

/-- The encoding of one body. -/
def frame (w : Nat) (body : Bytes) : Bytes := toBytes w body.length ++ body

section
variable (w limit : Nat) (skip : Bool)

/-- Cut the first complete frame off a stream. With `skip` its body goes with the
header, else only the header is taken off. -/
def cut (s : Bytes) : Option (Bytes × Bytes) :=
  let n := ofBytes (s.take w)
  if s.length < w ∨ limit ≤ n ∨ s.length < w + n then none
  else some ((s.drop w).take n,s.drop (if skip then w + n else w))

/-- Cut off at most `fuel` frames. -/
def deframeAux : Nat → Bytes → List Bytes × Bytes
  | 0, s => ([],s)
  | fuel+1, s => match cut w limit skip s with
    | none => ([],s)
    | some (body,rest) => (body :: (deframeAux fuel rest).1,(deframeAux fuel rest).2)

/-- The bodies of the frames a stream starts with, and what is left of it. -/
def deframe (s : Bytes) : List Bytes × Bytes := deframeAux w limit skip s.length s

/-- The stream starts with a length that readers refuse. -/
def Oversized (s : Bytes) : Prop := w ≤ s.length ∧ limit ≤ ofBytes (s.take w)

end

instance (w limit : Nat) (s : Bytes) : Decidable (Oversized w limit s) := inferInstanceAs (Decidable (_ ∧ _))

variable {w limit : Nat} {skip : Bool} {s x y body rest : Bytes}

theorem cut_eq_some : cut w limit skip s = some (body,rest) ↔
    w ≤ s.length ∧ ofBytes (s.take w) < limit ∧ w + ofBytes (s.take w) ≤ s.length ∧
      body = (s.drop w).take (ofBytes (s.take w)) ∧
      rest = s.drop (if skip then w + ofBytes (s.take w) else w) := by
  simp only [cut]
  split
  · rename_i h
    constructor
    · intro he
      cases he
    · rintro ⟨h1,h2,h3,_⟩
      omega
  · rename_i h
    simp only [Option.some.injEq,Prod.mk.injEq,eq_comm]
    constructor
    · rintro ⟨h1,h2⟩
      exact ⟨by omega,by omega,by omega,h1,h2⟩
    · rintro ⟨_,_,_,h1,h2⟩
      exact ⟨h1,h2⟩

theorem cut_oversized (h : Oversized w limit s) : cut w limit skip s = none := by
  simp only [cut]
  rw [if_pos (.inr (.inl h.2))]

/-- A stream without a complete or refused frame is shorter than the longest frame. -/
theorem length_of_cut_none (h : cut w limit skip s = none) (ho : ¬ Oversized w limit s) : s.length < w + limit := by
  by_contra hge
  have hsmall : ofBytes (s.take w) < limit := by
    by_contra hbig
    exact ho ⟨by omega,by omega⟩
  simp only [cut] at h
  rw [if_neg (by omega)] at h
  cases h

theorem cut_length (hw : 0 < w) (h : cut w limit skip s = some (body,rest)) : rest.length < s.length := by
  obtain ⟨h1,_,_,_,rfl⟩ := cut_eq_some.mp h
  rw [List.length_drop]
  split <;> omega

/-- A complete frame stays the first one whatever follows. -/
theorem cut_append (h : cut w limit skip s = some (body,rest)) (y : Bytes) :
    cut w limit skip (s ++ y) = some (body,rest ++ y) := by
  obtain ⟨h1,h2,h3,rfl,rfl⟩ := cut_eq_some.mp h
  rw [cut_eq_some,List.take_append_of_le_length h1,List.length_append]
  refine ⟨by omega,h2,by omega,?_,?_⟩
  · rw [List.drop_append_of_le_length h1,List.take_append_of_le_length (by rw [List.length_drop]; omega)]
  · rw [List.drop_append_of_le_length (by split <;> omega)]

private theorem deframeAux_zero (s : Bytes) : deframeAux w limit skip 0 s = ([],s) := rfl

private theorem deframeAux_succ (fuel : Nat) (s : Bytes) : deframeAux w limit skip (fuel + 1) s =
    (cut w limit skip s).elim ([],s) fun p => (p.1 :: (deframeAux w limit skip fuel p.2).1,(deframeAux w limit skip fuel p.2).2) := by
  show (match cut w limit skip s with | none => _ | some (_,_) => _) = _
  cases cut w limit skip s <;> rfl

private theorem deframeAux_enough (hw : 0 < w) {fuel fuel' : Nat} (h : s.length ≤ fuel) (h' : s.length ≤ fuel') :
    deframeAux w limit skip fuel s = deframeAux w limit skip fuel' s := by
  induction fuel generalizing s fuel' with
  | zero =>
    have hs : s = [] := List.length_eq_zero_iff.mp (by omega)
    subst hs
    cases fuel' with
    | zero => rfl
    | succ fuel' => simp [deframeAux_succ,deframeAux_zero,cut,hw]
  | succ fuel ih =>
    cases fuel' with
    | zero =>
      have hs : s = [] := List.length_eq_zero_iff.mp (by omega)
      subst hs
      simp [deframeAux_succ,deframeAux_zero,cut,hw]
    | succ fuel' =>
      rw [deframeAux_succ,deframeAux_succ]
      cases hc : cut w limit skip s with
      | none => rfl
      | some p =>
        have hlt := cut_length hw hc
        rw [Option.elim_some,Option.elim_some,ih (show p.2.length ≤ fuel by omega) (show p.2.length ≤ fuel' by omega)]

theorem deframe_of_none (h : cut w limit skip s = none) : deframe w limit skip s = ([],s) := by
  unfold deframe
  cases s.length with
  | zero => rfl
  | succ n => rw [deframeAux_succ,h,Option.elim_none]

theorem deframe_of_some (hw : 0 < w) (h : cut w limit skip s = some (body,rest)) :
    deframe w limit skip s = (body :: (deframe w limit skip rest).1,(deframe w limit skip rest).2) := by
  have hlt := cut_length hw h
  unfold deframe
  have hrest : deframeAux w limit skip s.length rest = deframeAux w limit skip rest.length rest :=
    deframeAux_enough hw hlt.le le_rfl
  rw [deframeAux_enough hw le_rfl (show s.length ≤ s.length + 1 by omega),deframeAux_succ,h,Option.elim_some,hrest]

/-- What is left of a stream starts with no complete frame. -/
theorem cut_deframe (limit : Nat) (skip : Bool) (hw : 0 < w) (s : Bytes) : cut w limit skip (deframe w limit skip s).2 = none := by
  induction hn : s.length using Nat.strongRecOn generalizing s with
  | _ n ih =>
    cases hc : cut w limit skip s with
    | none => rw [deframe_of_none hc]; exact hc
    | some p =>
      rw [deframe_of_some hw hc]
      exact ih p.2.length (hn ▸ cut_length hw hc) p.2 rfl

/-- Framing does not depend on where a stream is cut into chunks. -/
theorem deframe_append (limit : Nat) (skip : Bool) (hw : 0 < w) (x y : Bytes) :
    deframe w limit skip (x ++ y) =
      ((deframe w limit skip x).1 ++ (deframe w limit skip ((deframe w limit skip x).2 ++ y)).1,
        (deframe w limit skip ((deframe w limit skip x).2 ++ y)).2) := by
  induction hn : x.length using Nat.strongRecOn generalizing x with
  | _ n ih =>
    cases hc : cut w limit skip x with
    | none => simp [deframe_of_none hc]
    | some p =>
      have hr := ih p.2.length (hn ▸ cut_length hw hc) p.2 rfl
      rw [deframe_of_some hw hc,deframe_of_some hw (cut_append hc y),hr]
      simp

theorem length_frame (w : Nat) (body : Bytes) : (frame w body).length = w + body.length := by
  simp [frame]

private theorem take_frame (w : Nat) (body s : Bytes) : (frame w body ++ s).take w = toBytes w body.length := by
  simp [frame]

theorem cut_frame (hl : body.length < limit) (hw : body.length < 256^w) (s : Bytes) :
    cut w limit true (frame w body ++ s) = some (body,s) := by
  rw [cut_eq_some,take_frame,ofBytes_toBytes _ _ hw]
  have hd : (frame w body ++ s).drop w = body ++ s := by
    rw [frame,List.append_assoc,List.drop_left' (length_toBytes w _)]
  refine ⟨by rw [List.length_append,length_frame]; omega,hl,by rw [List.length_append,length_frame]; omega,?_,?_⟩
  · rw [hd,List.take_left]
  · rw [if_pos rfl,← List.drop_drop,hd,List.drop_left]

/-- An encoded sequence is taken apart into its bodies. -/
theorem deframe_frames (hw : 0 < w) (hl : limit ≤ 256^w) (frames : List Bytes) (hf : ∀ b ∈ frames, b.length < limit) :
    deframe w limit true (frames.flatMap (frame w)) = (frames,[]) := by
  induction frames with
  | nil => rfl
  | cons b frames ih =>
    have hb := hf b List.mem_cons_self
    rw [List.flatMap_cons,deframe_of_some hw (cut_frame hb (by omega) _),ih fun b hm => hf b (List.mem_cons_of_mem _ hm)]

/-- A proper beginning of an encoded frame holds no complete frame. -/
theorem cut_beginning (limit : Nat) (skip : Bool) (hw : body.length < 256^w) (h : s <+: frame w body) (hne : s ≠ frame w body) :
    cut w limit skip s = none ∧ ¬ (limit ≤ 256^w ∧ body.length < limit ∧ Oversized w limit s) := by
  obtain ⟨t,ht⟩ := h
  have hlen : s.length < w + body.length := by
    have hl := congrArg List.length ht
    rw [List.length_append,length_frame] at hl
    have : t ≠ [] := by
      rintro rfl
      exact hne (by simpa using ht)
    have := List.length_pos_of_ne_nil this
    omega
  have hhead (hle : w ≤ s.length) : ofBytes (s.take w) = body.length := by
    have := congrArg (List.take w) ht
    rw [List.take_append_of_le_length hle] at this
    rw [this]
    have h2 := take_frame w body []
    rw [List.append_nil] at h2
    rw [h2,ofBytes_toBytes _ _ hw]
  refine ⟨?_,?_⟩
  · cases hc : cut w limit skip s with
    | none => rfl
    | some p =>
      obtain ⟨h1,_,h3,_⟩ := cut_eq_some.mp (show cut w limit skip s = some (p.1,p.2) from hc)
      rw [hhead h1] at h3
      omega
  · rintro ⟨_,hl,h1,h2⟩
    rw [hhead h1] at h2
    omega

/-- The complete frames at the beginning of an encoded sequence, and the beginning
of the next one behind them. -/
theorem deframe_beginning (hw : 0 < w) (hl : limit ≤ 256^w) (frames : List Bytes)
    (hf : ∀ b ∈ frames, b.length < limit) (h : s <+: frames.flatMap (frame w)) :
    ∃ k ≤ frames.length, s = (frames.take k).flatMap (frame w) ++ (deframe w limit true s).2 ∧
      (deframe w limit true s).1 = frames.take k ∧ ¬ Oversized w limit (deframe w limit true s).2 ∧
      match frames[k]? with
      | some next => (deframe w limit true s).2 <+: frame w next ∧ (deframe w limit true s).2 ≠ frame w next
      | none => (deframe w limit true s).2 = [] := by
  induction frames generalizing s with
  | nil =>
    have hs : s = [] := by simpa using h
    subst hs
    have hc : cut w limit true [] = none := by simp [cut,hw]
    exact ⟨0,le_rfl,by simp [deframe_of_none hc],by simp [deframe_of_none hc],
      by simp [deframe_of_none hc,Oversized]; omega,by simp [deframe_of_none hc]⟩
  | cons b frames ih =>
    have hb := hf b (by simp)
    have hb' : b.length < 256^w := by omega
    rw [List.flatMap_cons] at h
    by_cases hshort : s <+: frame w b ∧ s ≠ frame w b
    · obtain ⟨hc,ho⟩ := cut_beginning limit true hb' hshort.1 hshort.2
      rw [deframe_of_none hc]
      exact ⟨0,by omega,by simp,by simp,fun h => ho ⟨hl,hb,h⟩,hshort⟩
    · obtain ⟨t,rfl⟩ : frame w b <+: s := by
        rcases List.prefix_or_prefix_of_prefix h (List.prefix_append (frame w b) _) with hs | hs
        · have heq : s = frame w b := by
            by_contra hne
            exact hshort ⟨hs,hne⟩
          rw [heq]
        · exact hs
      have ht : t <+: frames.flatMap (frame w) := (List.prefix_append_right_inj _).mp h
      obtain ⟨k,hk,hs,hbs,ho,hnext⟩ := ih (fun b hb => hf b (by simp [hb])) ht
      rw [deframe_of_some hw (cut_frame hb hb' t)]
      refine ⟨k + 1,by simpa using hk,?_,by simp [hbs],ho,hnext⟩
      rw [List.take_succ_cons,List.flatMap_cons,List.append_assoc]
      exact congrArg (frame w b ++ ·) hs

end MyProgram.Lib
