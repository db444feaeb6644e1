import MyProgram.SkynetGate.Service

/-! Which control messages `_ctrl` takes for which command. -/
namespace MyProgram.SkynetGate
open Lib

/-- The commands, in the order in which `_ctrl` tries them. -/
inductive Keyword where
  | kick | forward | broker | start | close | connect | listen
  deriving DecidableEq, Repr

namespace Keyword

def text : Keyword → String
  | .kick => "kick"
  | .forward => "forward"
  | .broker => "broker"
  | .start => "start"
  | .close => "close"
  | .connect => "connect"
  | .listen => "listen"

def bytes (k : Keyword) : Bytes := ascii k.text

def all : List Keyword := [.kick,.forward,.broker,.start,.close,.connect,.listen]

theorem mem_all (k : Keyword) : k ∈ all := by cases k <;> decide

/-- What the branch of a keyword reads from the message. -/
def parse (k : Keyword) (tmp : Bytes) (sz i : Nat) : GateM Command :=
  match k with
  | .kick => do pure (.kick (atoi (← stringAt (parm tmp sz i) 0)))
  | .forward => parseForward tmp sz i
  | .broker => do pure (.broker (← stringAt (parm tmp sz i) 0))
  | .start => do pure (.start (atoi (← stringAt (parm tmp sz i) 0)))
  | .close => pure .close
  | .connect => parseConnect tmp i
  | .listen => pure .listen

end Keyword

/-- The bytes of a message before its first space. -/
def token (msg : Bytes) : Bytes := msg.takeWhile (· ≠ 32)

/-- The comparisons of `_ctrl`: the first keyword that equals the token in its first
`i` bytes. -/
def select (tmp : Bytes) (i : Nat) : List Keyword → GateM (Option Keyword)
  | [] => pure none
  | k :: ks => do
    if ← isCommand tmp i k.text then pure (some k) else select tmp i ks

/-- The keyword whose branch runs. -/
def selected (msg : Bytes) : GateM (Option Keyword) :=
  if msg.length = 0 then pure none else select (msg ++ [0]) (token msg).length Keyword.all

/-- What follows the comparisons. -/
def parseSelected (msg : Bytes) : Option Keyword → GateM Command
  | some k => k.parse (msg ++ [0]) msg.length (token msg).length
  | none =>
    if msg.length = 0 then pure .empty
    else do
      skynetError (ascii "[gate] Unkown command : " ++ (← stringAt (msg ++ [0]) 0))
      pure .unknown

variable {α : Type} {msg t s rest : Bytes} {k k' : Keyword} {ks : List Keyword}

private theorem memcmpZero_eq (t rest s : Bytes) : memcmpZero t.length (t ++ rest) s =
    if t <+: s then .ok true [] else if s <+: t then .fail .outOfBounds .control else .ok false [] := by
  induction t generalizing s with
  | nil => simp [memcmpZero]
  | cons a t ih =>
    cases s with
    | nil => simp [memcmpZero]
    | cons b s =>
      rw [List.length_cons,List.cons_append,memcmpZero,ih]
      by_cases hab : a = b
      · simp [hab]
      · simp [hab,Ne.symm hab]

/-- The comparisons end with no keyword, with one that begins like the token, or behind
the end of one that the token continues with a NUL. -/
private theorem select_cases (t rest : Bytes) (ks : List Keyword) :
    (select (t ++ rest) t.length ks = .ok none [] ∧ ∀ k ∈ ks, ¬t <+: k.bytes ++ [0] ∧ ¬k.bytes ++ [0] <+: t) ∨
    (∃ k : Keyword, t <+: k.bytes ++ [0] ∧ select (t ++ rest) t.length ks = .ok (some k) []) ∨
    (∃ k : Keyword, k.bytes ++ [0] <+: t ∧ select (t ++ rest) t.length ks = .fail .outOfBounds .control) := by
  induction ks with
  | nil => exact .inl ⟨rfl,by simp⟩
  | cons k ks ih =>
    have hcmp : isCommand (t ++ rest) t.length k.text = if t <+: k.bytes ++ [0] then .ok true []
        else if k.bytes ++ [0] <+: t then .fail .outOfBounds .control else .ok false [] := memcmpZero_eq t rest _
    rw [select,hcmp]
    by_cases h₁ : t <+: k.bytes ++ [0]
    · rw [if_pos h₁]
      exact .inr (.inl ⟨k,h₁,rfl⟩)
    · rw [if_neg h₁]
      by_cases h₂ : k.bytes ++ [0] <+: t
      · rw [if_pos h₂]
        exact .inr (.inr ⟨k,h₂,rfl⟩)
      · rw [if_neg h₂,Act.bind_ok,Act.after_nil,if_neg Bool.false_ne_true]
        refine ih.imp_left fun ⟨he,hall⟩ => ⟨he,fun k' hk' => ?_⟩
        rcases List.mem_cons.mp hk' with rfl | hk'
        · exact ⟨h₁,h₂⟩
        · exact hall k' hk'

private theorem select_bind (tmp : Bytes) (i : Nat) (k : Keyword) (ks : List Keyword) (f : Option Keyword → GateM α) :
    (select tmp i (k :: ks) >>= f) =
      isCommand tmp i k.text >>= fun b => if b then f (some k) else select tmp i ks >>= f := by
  rw [select,Act.bind_assoc]
  congr 1
  funext b
  cases b with
  | true => exact Act.after_nil _
  | false => rfl

/-- Reading a message is choosing the branch and reading what it needs. -/
theorem ctrlParse_eq (msg : Bytes) : ctrlParse msg = selected msg >>= parseSelected msg := by
  unfold ctrlParse selected
  by_cases h : msg.length = 0
  · rw [if_pos h,if_pos h,Act.pure_eq,Act.pure_eq,Act.bind_ok,Act.after_nil,parseSelected,if_pos h]
    rfl
  · rw [if_neg h,if_neg h]
    simp only [Keyword.all,select_bind]
    simp only [select,Act.pure_eq,Act.bind_ok,Act.after_nil,parseSelected,if_neg h]
    rfl

/-- The message leaves the gate as it is and asks for nothing but log lines. -/
def Ignored (answers : Answers) (g : Gate) (msg : Bytes) (source : UInt32) : Prop :=
  ∃ fx, ctrl answers g msg source = .ok g fx ∧ ∀ e ∈ fx, ∃ text, e = .error text

/-- The branch of a keyword runs if and only if the token is that keyword, and other
messages are ignored. -/
def ExactlyRecognised (msg : Bytes) : Prop :=
  (∀ k : Keyword, selected msg = .ok (some k) [] ↔ token msg = k.bytes) ∧
  ((∀ k : Keyword, token msg ≠ k.bytes) → ∀ answers g source, Ignored answers g msg source)

/-- The token is neither the start of a longer keyword nor a keyword with a NUL behind it. -/
def Unambiguous (msg : Bytes) : Prop :=
  msg = [] ∨ ∀ k : Keyword, (token msg <+: k.bytes → token msg = k.bytes) ∧ ¬ k.bytes ++ [0] <+: token msg

private theorem bytes_injective (h : k.bytes = k'.bytes) : k = k' := by
  revert h
  cases k <;> cases k' <;> decide

/-- No keyword starts another, also not with its NUL. -/
private theorem bytes_incomparable (h : k.bytes <+: k'.bytes) : k = k' := by
  revert h
  cases k <;> cases k' <;> decide

private theorem zero_notMem_bytes (k : Keyword) : 0 ∉ k.bytes := by
  cases k <;> decide

private theorem selected_cases (h : msg ≠ []) :
    (selected msg = .ok none [] ∧ ∀ k : Keyword, ¬token msg <+: k.bytes ++ [0] ∧ ¬k.bytes ++ [0] <+: token msg) ∨
    (∃ k : Keyword, token msg <+: k.bytes ++ [0] ∧ selected msg = .ok (some k) []) ∨
    (∃ k : Keyword, k.bytes ++ [0] <+: token msg ∧ selected msg = .fail .outOfBounds .control) := by
  have hmem : msg ++ [0] = token msg ++ (msg.dropWhile (· ≠ 32) ++ [0]) := by
    rw [token,← List.append_assoc,List.takeWhile_append_dropWhile]
  rw [selected,if_neg (by simpa using h),hmem]
  refine (select_cases _ _ Keyword.all).imp_left fun ⟨he,hall⟩ => ⟨he,fun k => hall k k.mem_all⟩

/-- The branch of a keyword runs for the token that is this keyword. -/
theorem selected_of_token (h : token msg = k.bytes) : selected msg = .ok (some k) [] := by
  have hne : msg ≠ [] := by
    rintro rfl
    revert h
    cases k <;> decide
  rcases selected_cases hne with ⟨_,hno⟩ | ⟨k',hp,he⟩ | ⟨k',hp,_⟩
  · exact absurd (h ▸ List.prefix_append _ _) (hno k).1
  · rw [h] at hp
    rcases List.prefix_concat_iff.mp hp with hp | hp
    · exact absurd (hp ▸ List.mem_append_right _ (List.mem_singleton_self _)) (zero_notMem_bytes k)
    · rw [he,bytes_incomparable hp]
  · rw [h] at hp
    exact absurd (hp.subset (by simp)) (zero_notMem_bytes k)

private theorem ctrl_eq (answers : Answers) (g : Gate) (msg : Bytes) (source : UInt32) :
    ctrl answers g msg source = selected msg >>= fun k => parseSelected msg k >>= ctrlRun answers g source := by
  rw [ctrl,ctrlParse_eq,Act.bind_assoc]

private theorem ignored_of_selected (h : selected msg = .ok none []) (answers : Answers) (g : Gate) (source : UInt32) :
    Ignored answers g msg source := by
  rw [Ignored,ctrl_eq,h,Act.bind_ok,Act.after_nil,parseSelected]
  by_cases h0 : msg.length = 0
  · rw [if_pos h0]
    exact ⟨[],rfl,by simp⟩
  · rw [if_neg h0]
    have hs : stringAt (msg ++ [0]) 0 = .ok ((msg ++ [0]).takeWhile (· ≠ 0)) [] := by
      rw [stringAt,cstring,List.drop_zero,if_pos (by simp)]
      rfl
    rw [hs]
    exact ⟨[_],rfl,by simp⟩

/-- The branch that runs is the one `selected` names, and the messages whose commands are
recognised exactly are those whose token is unambiguous. -/
theorem commands_recognised_iff (msg : Bytes) :
    (∀ answers g source, ctrl answers g msg source =
      selected msg >>= fun k => parseSelected msg k >>= ctrlRun answers g source) ∧
    (ExactlyRecognised msg ↔ Unambiguous msg) := by
  refine ⟨fun answers g source => ctrl_eq answers g msg source,?_,?_⟩
  · intro ⟨hsel,hign⟩
    by_contra hamb
    obtain ⟨hne,hall⟩ := not_or.mp hamb
    apply hall
    intro k
    rcases selected_cases hne with ⟨_,hno⟩ | ⟨k',_,he⟩ | ⟨k',_,he⟩
    · exact ⟨fun hp => absurd (hp.trans (List.prefix_append _ _)) (hno k).1,(hno k).2⟩
    · -- the token is the keyword whose branch runs, and no other one is close to it
      rw [(hsel k').mp he]
      refine ⟨fun hp => by rw [bytes_incomparable hp],fun hp => ?_⟩
      exact zero_notMem_bytes k' (hp.subset (by simp))
    · have hnone : ∀ k : Keyword, token msg ≠ k.bytes := by
        intro k hk
        have hk := (hsel k).mpr hk
        rw [he] at hk
        cases hk
      obtain ⟨fx,hc,_⟩ := hign hnone ⟨0,0,0⟩ gateCreate 0
      rw [ctrl_eq,he] at hc
      cases hc
  · intro h
    by_cases hne : msg = []
    · subst hne
      exact ⟨fun k => by cases k <;> decide,fun _ _ _ _ => ignored_of_selected rfl _ _ _⟩
    have hall := h.resolve_left hne
    rcases selected_cases hne with ⟨he,hno⟩ | ⟨k',hp,he⟩ | ⟨k',hp,_⟩
    · refine ⟨fun k => ⟨fun hk => ?_,fun hk => ?_⟩,fun _ _ _ _ => ignored_of_selected he _ _ _⟩
      · rw [he] at hk
        cases hk
      · exact absurd (hk ▸ List.prefix_append _ _) (hno k).1
    · have hk' : token msg = k'.bytes := by
        rcases List.prefix_concat_iff.mp hp with hp | hp
        · exact absurd (hp ▸ List.prefix_rfl) (hall k').2
        · exact (hall k').1 hp
      refine ⟨fun k => ⟨fun hk => ?_,fun hk => ?_⟩,fun hnone => absurd hk' (hnone k')⟩
      · rw [he] at hk
        cases hk
        exact hk'
      · rw [he,bytes_injective (hk'.symm.trans hk)]
    · exact absurd hp (hall k').2

/-- The letter `c` alone closes the listener. -/
theorem single_letter_closes : token (ascii "c") = ascii "c" ∧ selected (ascii "c") = .ok (some .close) [] ∧
    ctrl ⟨0,0,0⟩ { gateCreate with listenId := 7 } (ascii "c") 9 = .ok gateCreate [.socketClose 7] ∧
    ¬ExactlyRecognised (ascii "c") := by
  refine ⟨rfl,rfl,rfl,fun h => ?_⟩
  exact absurd ((h.1 .close).mp rfl) (by decide)

end MyProgram.SkynetGate
