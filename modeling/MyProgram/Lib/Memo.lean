import Mathlib.Tactic.Common

/-! Stateful computations with memo tables: when what the tables hold cannot be told from
computing it again. -/
namespace MyProgram.Lib

/-- A computation on a state that may raise an error; the state survives the error. -/
def Prog (σ ε α : Type) : Type := σ → Except ε α × σ

namespace Prog
variable {σ ε α β K V ν : Type}

instance : Monad (Prog σ ε) where
  pure a := fun w => (.ok a,w)
  bind m f := fun w => match m w with
    | (.ok a,w') => f a w'
    | (.error e,w') => (.error e,w')

def throw (e : ε) : Prog σ ε α := fun w => (.error e,w)

def modify (f : σ → σ) : Prog σ ε Unit := fun w => (.ok (),f w)

/-- Read something off the state. -/
def read (p : σ → Except ε α) : Prog σ ε α := fun w => (p w,w)

def orError (e : ε) : Option α → Except ε α
  | some a => .ok a
  | none => .error e

/-- Continue with a value that is there. -/
def assert (e : ε) (o : Option α) : Prog σ ε α := read fun _ => orError e o

theorem bind_eq (m : Prog σ ε α) (f : α → Prog σ ε β) (w : σ) :
    (m >>= f) w = match m w with
      | (.ok a,w') => f a w'
      | (.error e,w') => (.error e,w') := rfl

theorem read_bind (p : σ → Except ε α) (q : α → σ → Except ε β) :
    (read p >>= fun a => read (q a)) = read fun w => p w >>= fun a => q a w := by
  funext w
  rw [bind_eq,read,read]
  cases p w with
  | ok a => rfl
  | error e => rfl

end Prog

/-- A memo table inside a state. -/
structure Memo (σ K V : Type) where
  entries : σ → List (K × V)
  add : K → V → σ → σ

namespace Memo
variable {σ ε α K V : Type}

/-- The entry for a key, which is made on first use. What cannot be made is not kept. -/
def fetch [DecidableEq K] (c : Memo σ K V) (k : K) (create : Prog σ ε (Option V)) : Prog σ ε (Option V) := fun w =>
  match (c.entries w).lookup k with
  | some v => (.ok (some v),w)
  | none => match create w with
    | (.ok (some v),w') => (.ok (some v),c.add k v w')
    | (.ok none,w') => (.ok none,w')
    | (.error e,w') => (.error e,w')

/-- Every entry is what `spec` gives for its key. -/
def Answers (l : List (K × V)) (spec : K → Except ε (Option V)) : Prop := ∀ k v, (k,v) ∈ l → spec k = .ok (some v)

theorem Answers.nil (spec : K → Except ε (Option V)) : Answers [] spec := fun _ _ h => absurd h List.not_mem_nil

theorem Answers.cons {l : List (K × V)} {spec : K → Except ε (Option V)} {k : K} {v : V} (h : Answers l spec)
    (hk : spec k = .ok (some v)) : Answers ((k,v) :: l) spec := by
  intro k' v' hm
  rcases List.mem_cons.mp hm with he | hm
  · cases he
    exact hk
  · exact h k' v' hm

end Memo

section Views
variable {σ ε α β K V ν : Type}

/-- What is observed of a state, and when its memo tables are in order. -/
structure View (σ ν : Type) where
  seen : σ → ν
  Sound : σ → Prop

/-- In sound states the computation does to what is seen what `n` does, which knows no
memo tables. -/
def View.Refines (V : View σ ν) (m : Prog σ ε α) (n : Prog ν ε α) : Prop :=
  ∀ w, V.Sound w → (m w).1 = (n (V.seen w)).1 ∧ V.seen (m w).2 = (n (V.seen w)).2 ∧ V.Sound (m w).2

/-- The memo tables cannot be told from computing again. -/
def View.Transparent (V : View σ ν) (m : Prog σ ε α) : Prop := ∃ n : Prog ν ε α, V.Refines m n

/-- The entries of a memo table are what `spec` says, and so are those to come. -/
structure View.Keeps (W : View σ ν) (c : Memo σ K V) (spec : K → ν → Except ε (Option V)) : Prop where
  sound : ∀ w, W.Sound w → Memo.Answers (c.entries w) fun k => spec k (W.seen w)
  add : ∀ w k v, W.Sound w → spec k (W.seen w) = .ok (some v) → W.seen (c.add k v w) = W.seen w ∧ W.Sound (c.add k v w)

namespace View
variable {W : View σ ν} {m : Prog σ ε α} {n : Prog ν ε α} {f : α → Prog σ ε β} {g : α → Prog ν ε β}

theorem Refines.pure (a : α) : W.Refines (pure a : Prog σ ε α) (pure a) := fun _ hw => ⟨rfl,rfl,hw⟩

theorem Refines.throw (e : ε) : W.Refines (Prog.throw e : Prog σ ε α) (Prog.throw e) := fun _ hw => ⟨rfl,rfl,hw⟩

theorem Refines.bind (hm : W.Refines m n) (hf : ∀ a, W.Refines (f a) (g a)) : W.Refines (m >>= f) (n >>= g) := by
  intro w hw
  obtain ⟨hr,hs,hn⟩ := hm w hw
  simp only [Prog.bind_eq]
  generalize m w = out at hr hs hn
  generalize n (W.seen w) = out' at hr hs
  obtain ⟨r,w'⟩ := out
  obtain ⟨r',v'⟩ := out'
  obtain rfl : r = r' := hr
  obtain rfl : W.seen w' = v' := hs
  cases r with
  | ok a => exact hf a w' hn
  | error e => exact ⟨rfl,rfl,hn⟩

/-- Something that is read off what is seen. -/
theorem Refines.read {p : σ → Except ε α} {q : ν → Except ε α} (h : ∀ w, p w = q (W.seen w)) :
    W.Refines (Prog.read p) (Prog.read q) := fun w hw => ⟨h w,rfl,hw⟩

/-- A memo table answers as its specification does. -/
theorem Refines.fetch [DecidableEq K] {c : Memo σ K V} {spec : K → ν → Except ε (Option V)} {create : Prog σ ε (Option V)} {k : K}
    (hk : W.Keeps c spec) (hc : W.Refines create (Prog.read (spec k))) : W.Refines (c.fetch k create) (Prog.read (spec k)) := by
  intro w hw
  unfold Memo.fetch
  cases hl : (c.entries w).lookup k with
  | some v =>
    obtain ⟨l₁,l₂,he,_⟩ := List.lookup_eq_some_iff.mp hl
    have hm : (k,v) ∈ c.entries w := by rw [he]; simp
    exact ⟨(hk.sound w hw k v hm).symm,rfl,hw⟩
  | none =>
    obtain ⟨hr,hs,hn⟩ := hc w hw
    dsimp only
    generalize create w = out at hr hs hn
    obtain ⟨r,w'⟩ := out
    change r = spec k (W.seen w) at hr
    change W.seen w' = W.seen w at hs
    cases r with
    | error e => exact ⟨hr,hs,hn⟩
    | ok o => cases o with
      | none => exact ⟨hr,hs,hn⟩
      | some v =>
        obtain ⟨hseen,hsound⟩ := hk.add w' k v hn (by rw [hs]; exact hr.symm)
        exact ⟨hr,hseen.trans hs,hsound⟩

/-- Two sound states that look the same cannot be told apart. -/
theorem Transparent.same {w w' : σ} (h : W.Transparent m) (hw : W.Sound w) (hw' : W.Sound w') (hs : W.seen w = W.seen w') :
    (m w).1 = (m w').1 ∧ W.seen (m w).2 = W.seen (m w').2 ∧ W.Sound (m w).2 ∧ W.Sound (m w').2 := by
  obtain ⟨n,hn⟩ := h
  obtain ⟨hr,hv,ho⟩ := hn w hw
  obtain ⟨hr',hv',ho'⟩ := hn w' hw'
  rw [← hs] at hr' hv'
  exact ⟨hr.trans hr'.symm,hv.trans hv'.symm,ho,ho'⟩

theorem Transparent.pure (a : α) : W.Transparent (pure a : Prog σ ε α) := ⟨_,.pure a⟩

theorem Transparent.throw (e : ε) : W.Transparent (Prog.throw e : Prog σ ε α) := ⟨_,.throw e⟩

theorem Transparent.read {p : σ → Except ε α} (q : ν → Except ε α) (h : ∀ w, p w = q (W.seen w)) :
    W.Transparent (Prog.read p) := ⟨_,.read h⟩

theorem Transparent.bind (hm : W.Transparent m) (hf : ∀ a, W.Transparent (f a)) : W.Transparent (m >>= f) := by
  obtain ⟨n,hn⟩ := hm
  choose g hg using hf
  exact ⟨_,hn.bind hg⟩

theorem Transparent.foldlM {γ : Type} {f : β → γ → Prog σ ε β} (h : ∀ b c, W.Transparent (f b c)) (l : List γ) (b : β) :
    W.Transparent (l.foldlM f b) := by
  induction l generalizing b with
  | nil => exact .pure b
  | cons c l ih => exact (h b c).bind ih

end View

end Views

end MyProgram.Lib
