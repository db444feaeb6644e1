import MyProgram.Epoll.Server
import MyProgram.Lib.CString
import MyProgram.Lib.Runs

/-! What the server prints for a read, against everything it has read before: one array
serves all connections. -/
namespace MyProgram.Epoll
open Lib

/-- The bytes that the next step reads, if it is a successful read. -/
def Server.nextRead (s : Server) : Input → Option Bytes
  | .handle none => match s.events with
    | .conn fd :: _ => (s.conns.find? (·.fd = fd)).map fun c => c.unread.take MAXLINE
    | _ => none
  | _ => none

/-- The server with all that it has read so far. -/
structure Session where
  server : Server
  texts : List Bytes

def Session.start : Session := ⟨.start,[]⟩

def sessionStep (q : Session) (x : Input) : ServerM Session := do
  let server ← serverStep q.server x
  pure ⟨server,q.texts ++ (q.server.nextRead x).toList⟩

/-- Reads get fewer bytes than fill the line, and no NUL. -/
def Textual (q : Session) (x : Input) : Prop := ∀ d ∈ q.server.nextRead x, d.length < MAXLINE ∧ 0 ∉ d

instance (q : Session) (x : Input) : Decidable (Textual q x) :=
  inferInstanceAs (Decidable (∀ d ∈ q.server.nextRead x, d.length < MAXLINE ∧ 0 ∉ d))

/-- What appears of the printed array, or nothing when it holds no NUL to stop at. -/
def Effect.text : Effect → Option Bytes
  | .print line => cstring line 0

/-- The array starts with the remains `a` of all texts, which reach as far as the
longest one with its newline. -/
structure Remains (line a : Bytes) (texts : List Bytes) : Prop where
  zeros : line = a ++ List.replicate (MAXLINE - a.length) 0
  length : a.length ≤ MAXLINE
  text : 0 ∉ a
  covers : ∀ e ∈ texts, e.length < a.length
  longest : a = [] ∨ ∃ e ∈ texts, a.length = e.length + 1

variable {s s' : Server} {q q' : Session} {x : Input} {fx : List Effect} {d a line : Bytes} {texts : List Bytes}
  {tr : Trace Input Effect}

/-- The remains after one more read. -/
def overlay (d a : Bytes) : Bytes := d ++ 10 :: a.drop (d.length + 1)

theorem length_overlay (d a : Bytes) : (overlay d a).length = max (d.length + 1) a.length := by
  rw [overlay,List.length_append,List.length_cons,List.length_drop]
  omega

/-- Storing a text and its newline over the line. -/
theorem set_line (h : line = a ++ List.replicate (MAXLINE - a.length) 0) (hd : d.length < MAXLINE) :
    (d ++ line.drop d.length).set d.length 10 =
      overlay d a ++ List.replicate (MAXLINE - (overlay d a).length) 0 := by
  have hlen : d.length < line.length := by
    rw [h,List.length_append,List.length_replicate]
    omega
  obtain ⟨b,hb⟩ : ∃ b, line.drop d.length = b :: line.drop (d.length + 1) := ⟨_,List.drop_eq_getElem_cons hlen⟩
  have hdrop : line.drop (d.length + 1) = a.drop (d.length + 1) ++ List.replicate (MAXLINE - (overlay d a).length) 0 := by
    rw [h,List.drop_append,List.drop_replicate,length_overlay]
    congr 2
    omega
  rw [hb,List.set_append_right _ _ le_rfl,Nat.sub_self,List.set_cons_zero,hdrop,overlay,List.append_assoc,
    List.cons_append]

theorem Remains.read (h : Remains line a texts) (hd : d.length < MAXLINE) (h0 : 0 ∉ d) :
    Remains ((d ++ line.drop d.length).set d.length 10) (overlay d a) (texts ++ [d]) := by
  have hlen := length_overlay d a
  have hle := h.length
  refine ⟨set_line h.zeros hd,?_,?_,?_,.inr ?_⟩
  · omega
  · rw [overlay,List.mem_append,List.mem_cons]
    rintro (hm | hm | hm)
    · exact h0 hm
    · cases hm
    · exact h.text (List.mem_of_mem_drop hm)
  · intro e he
    rcases List.mem_append.mp he with he | he
    · have := h.covers e he
      omega
    · rw [List.mem_singleton.mp he]
      omega
  · rcases Nat.lt_or_ge (d.length + 1) a.length with hlong | hshort
    · rcases h.longest with rfl | ⟨e,he,hea⟩
      · simp at hlong
      · exact ⟨e,by simp [he],by omega⟩
    · exact ⟨d,by simp,by omega⟩

/-- The text shown is the bytes read with the newline exactly if nothing longer was
read before and room is left for a NUL. -/
theorem Remains.shown_iff (h : Remains line a texts) (hd : d.length < MAXLINE) (h0 : 0 ∉ d) :
    cstring ((d ++ line.drop d.length).set d.length 10) 0 = some (d ++ [10]) ↔
      d.length + 1 < MAXLINE ∧ ∀ e ∈ texts, e.length ≤ d.length := by
  have hr := h.read hd h0
  have hlen := length_overlay d a
  rw [hr.zeros]
  constructor
  · intro hc
    obtain ⟨_,l,hl⟩ := exists_of_cstring hc
    have hroom : (overlay d a).length < MAXLINE := by
      by_contra hfull
      rw [show MAXLINE - (overlay d a).length = 0 by omega,List.replicate_zero,List.append_nil] at hl
      exact hr.text (hl ▸ by simp)
    obtain ⟨k,hk⟩ : ∃ k, MAXLINE - (overlay d a).length = k + 1 := ⟨MAXLINE - (overlay d a).length - 1,by omega⟩
    rw [hk,List.replicate_succ,cstring_append hr.text] at hc
    have hsame := congrArg List.length (Option.some.inj hc)
    rw [List.length_append,List.length_singleton] at hsame
    refine ⟨by omega,fun e he => ?_⟩
    have := h.covers e he
    omega
  · rintro ⟨hroom,hall⟩
    have hshort : a.length ≤ d.length + 1 := by
      rcases h.longest with rfl | ⟨e,he,hea⟩
      · exact Nat.zero_le _
      · have := hall e he
        omega
    have hov : overlay d a = d ++ [10] := by rw [overlay,List.drop_eq_nil_of_le hshort]
    obtain ⟨k,hk⟩ : ∃ k, MAXLINE - (d ++ [10]).length = k + 1 := by
      refine ⟨MAXLINE - (d.length + 1) - 1,?_⟩
      rw [List.length_append,List.length_singleton]
      omega
    have ht := hr.text
    rw [hov] at ht ⊢
    rw [hk,List.replicate_succ,cstring_append ht]

theorem endLine_eq_ok (h : s.endLine d = .ok s' fx) (hs : s.line = line) :
    d.length < MAXLINE ∧ s'.line = (d ++ line.drop d.length).set d.length 10 ∧ fx = [.print s'.line] := by
  subst hs
  unfold Server.endLine at h
  split at h
  · rename_i hlt
    cases h
    exact ⟨hlt,rfl,rfl⟩
  · cases h

/-- A step that reads stores and prints its text; the other steps leave the line alone. -/
theorem serverStep_line (h : serverStep s x = .ok s' fx) :
    match s.nextRead x with
    | some d => d.length < MAXLINE ∧ s'.line = (d ++ s.line.drop d.length).set d.length 10 ∧ fx = [.print s'.line]
    | none => s'.line = s.line := by
  cases x with
  | connect fd => cases h; rfl
  | receive fd bytes => cases h; rfl
  | hangUp fd => cases h; rfl
  | wake events => cases h; rfl
  | handle error =>
    unfold serverStep at h
    cases hev : s.events with
    | nil =>
      rw [hev] at h
      cases h
      cases error <;> simp [Server.nextRead,hev]
    | cons e events =>
      rw [hev] at h
      cases e with
      | listener =>
        have hn : s.nextRead (.handle error) = none := by cases error <;> simp [Server.nextRead,hev]
        rw [hn]
        simp only [Server.handleEvent,Server.acceptOne] at h
        cases error with
        | some e => cases h; rfl
        | none =>
          split at h
          · rename_i hnone
            cases hnone
          · split at h
            · cases h
            · cases h
              rfl
      | conn fd =>
        simp only [Server.handleEvent,Server.readOne] at h
        split at h
        · rename_i c hc
          rw [Server.nextRead,hev]
          simp only [hc,Option.map_some]
          split at h
          · split at h
            · exact endLine_eq_ok h rfl
            · exact endLine_eq_ok h rfl
          · cases h
        · cases h

theorem sessionStep_eq_ok (h : sessionStep q x = .ok q' fx) :
    serverStep q.server x = .ok q'.server fx ∧ q'.texts = q.texts ++ (q.server.nextRead x).toList := by
  obtain ⟨s',fx₁,fx₂,hs,hr,rfl⟩ := Act.bind_eq_ok.mp h
  cases hr
  rw [List.append_nil]
  exact ⟨hs,rfl⟩

theorem session_remains (h : Run sessionStep (fun _ q x => Textual q x) .start tr q) :
    ∃ a, Remains q.server.line a q.texts := by
  refine h.invariant (fun _ q => ∃ a, Remains q.server.line a q.texts) ?_ ?_
  · exact ⟨[],rfl,Nat.zero_le _,by simp,by simp [Session.start],.inl rfl⟩
  · rintro tr q x q' fx ⟨a,ha⟩ hg he
    obtain ⟨hs,ht⟩ := sessionStep_eq_ok he
    have hl := serverStep_line hs
    cases hd : q.server.nextRead x with
    | none =>
      rw [hd] at hl ht
      exact ⟨a,by rw [hl,ht]; simpa using ha⟩
    | some d =>
      rw [hd] at hl ht
      obtain ⟨hlt,hline,_⟩ := hl
      exact ⟨overlay d a,by rw [hline,ht]; exact ha.read hlt (hg d hd).2⟩

/-- In any run, the text printed for a read is that of the read alone exactly if no
earlier read was longer and a NUL is left behind it. -/
theorem printed_alone_iff (hr : Run sessionStep (fun _ q x => Textual q x) .start tr q) (hg : Textual q x)
    (hd : q.server.nextRead x = some d) (he : sessionStep q x = .ok q' fx) :
    fx.map Effect.text = [some (d ++ [10])] ↔ d.length + 1 < MAXLINE ∧ ∀ e ∈ q.texts, e.length ≤ d.length := by
  obtain ⟨a,ha⟩ := session_remains hr
  have hl := serverStep_line (sessionStep_eq_ok he).1
  rw [hd] at hl
  obtain ⟨hlt,hline,rfl⟩ := hl
  rw [← ha.shown_iff hlt (hg d hd).2,← hline]
  simp [Effect.text]

/-- Connection 5 sends these texts, each read before the next arrives. -/
def conversation : List Input := [.connect 5,.wake [.listener],.handle none,
  .receive 5 [97,98,99],.wake [.conn 5],.handle none,.receive 5 [120],.wake [.conn 5]]

theorem printed_alone_iff_shorter : ∃ tr q q' fx, Run sessionStep (fun _ q x => Textual q x) .start tr q ∧
    tr.map (·.1) = conversation ∧ sessionStep q (.handle none) = .ok q' fx ∧
    fx.map Effect.text ≠ [some ([120] ++ [10])] := by
  have hcheck : runCheck sessionStep (fun _ q x => Textual q x)
      (fun _ q => q.server.nextRead (.handle none) = some [120] ∧ q.texts = [[97,98,99]] ∧
        (sessionStep q (.handle none)).holds (fun _ _ => true)) conversation [] .start = true := by decide
  obtain ⟨tr,q,hr,hm,hd,ht,hh⟩ := Run.of_runCheck hcheck
  obtain ⟨q',fx,he,_⟩ := Act.exists_of_holds hh
  refine ⟨tr,q,q',fx,hr,hm,he,fun h => ?_⟩
  have hg : Textual q (.handle none) := by
    intro d hd'
    rw [hd] at hd'
    cases hd'
    exact ⟨by decide,by decide⟩
  obtain ⟨_,hall⟩ := (printed_alone_iff hr hg hd he).mp h
  have := hall [97,98,99] (by rw [ht]; simp)
  simp at this

/-- The text "x" behind "abc" is printed with the rest of "abc". -/
theorem longer_text_shows : ∃ tr q, Run sessionStep (fun _ q x => Textual q x) .start tr q ∧
    tr.map (·.1) = conversation ++ [.handle none] ∧ q.texts = [ascii "abc",ascii "x"] ∧
    (tr.flatMap (·.2)).map Effect.text = [some (ascii "abc\n"),some (ascii "x\nc\n")] := by
  have hcheck : runCheck sessionStep (fun _ q x => Textual q x)
      (fun tr q => q.texts = [ascii "abc",ascii "x"] ∧
        (tr.flatMap (·.2)).map Effect.text = [some (ascii "abc\n"),some (ascii "x\nc\n")])
      (conversation ++ [.handle none]) [] .start = true := by decide
  obtain ⟨tr,q,hr,hm,ht,hx⟩ := Run.of_runCheck hcheck
  exact ⟨tr,q,hr,hm,ht,hx⟩

end MyProgram.Epoll
