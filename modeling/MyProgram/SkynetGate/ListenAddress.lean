import MyProgram.SkynetGate.Listening

/-! Which address the listen command uses: `start_listen` cuts the stored address at
its colon, so that the second command sees the host only. -/
namespace MyProgram.SkynetGate
open Lib

/-- Host and port of an address text, and the text that `start_listen` leaves. -/
def hostPort (s : Bytes) : Bytes × Int × Bytes :=
  match s.idxOf? 58 with
  | none => ([],atoi s,s)
  | some j => if atoi (s.drop (j + 1)) ≤ 0 then ([],atoi (s.drop (j + 1)),s) else (s.take j,atoi (s.drop (j + 1)),s.take j)

/-- The listen call for an address text, if its port is valid. -/
def listenCall (s : Bytes) : List (Bytes × Int) :=
  if (hostPort s).2.1 ≤ 0 then [] else [((hostPort s).1,(hostPort s).2.1)]

/-- Host and port of the listen calls of a step. -/
def listened (fx : List Effect) : List (Bytes × Int) :=
  fx.filterMap fun
    | .socketListen host port _ _ => some (host,port)
    | _ => none

/-- The address text has no colon, or no positive number behind it or in front of it. -/
def Reusable (s : Bytes) : Prop :=
  ∀ j, s.idxOf? 58 = some j → atoi (s.drop (j + 1)) ≤ 0 ∨ atoi (s.take j) ≤ 0

/-- The input is a close or a listen command. -/
def CloseOrListen (_ : Trace Input Effect) (_ : Gate) (x : Input) : Prop :=
  commandOf x = some .close ∨ commandOf x = some .listen

instance (tr : Trace Input Effect) (g : Gate) (x : Input) : Decidable (CloseOrListen tr g x) :=
  inferInstanceAs (Decidable (_ ∨ _))

variable {g g₀ g' : Gate} {x : Input} {fx : List Effect} {addr s : Bytes}

private theorem idxOf?_take {j : Nat} (h : s.idxOf? 58 = some j) : j < s.length ∧ (s.take j).idxOf? 58 = none := by
  obtain ⟨hlt,_,hne⟩ := List.idxOf?_eq_some_iff.mp h
  refine ⟨hlt,List.idxOf?_eq_none_iff.mpr fun hm => ?_⟩
  obtain ⟨i,hi,he⟩ := List.mem_take_iff_getElem.mp hm
  exact hne i (by omega) he

/-- The stored text is read as it stands, and cut in front of the colon if its port
is valid. -/
private theorem listenAddress_hostPort (h : cstring addr 0 = some s) :
    ∃ addr', listenAddress addr = .ok ((hostPort s).1,(hostPort s).2.1,addr') [] ∧ cstring addr' 0 = some (hostPort s).2.2 := by
  rw [listenAddress,h]
  cases hj : s.idxOf? 58 with
  | none => exact ⟨addr,by simp [hostPort,hj],by simpa [hostPort,hj] using h⟩
  | some j =>
    by_cases hp : atoi (s.drop (j + 1)) ≤ 0
    · exact ⟨addr,by simp [hostPort,hj,hp],by simpa [hostPort,hj,hp] using h⟩
    · exact ⟨addr.set j 0,by simp [hostPort,hj,hp],by simpa [hostPort,hj,hp] using cstring_set h (idxOf?_take hj).1⟩

private theorem listened_external (fx : List Effect) : listened fx = listened (external fx) := by
  rw [listened,listened,external,List.filterMap_filter]
  congr 1
  funext e
  cases e <;> rfl

private theorem exists_text {command : Command} (hx : commandOf x = some command) :
    ∃ source msg fx, x.incoming = .text source msg ∧ ctrlParse msg = .ok command fx ∧ external fx = [] := by
  unfold commandOf at hx
  split at hx
  · rename_i source msg hin
    split at hx
    · rename_i fx hp
      cases hx
      exact ⟨source,msg,fx,hin,hp,(quiet_ctrlParse msg).external hp⟩
    · cases hx
  · cases hx

private theorem startListen_returns {host : Bytes} {port : Int} {addr' : Bytes}
    (h : listenAddress addr = .ok (host,port,addr') []) (answer : Int) (g : Gate) :
    ∃ g' code fx, startListen answer g addr = .ok (g',addr',code) fx := by
  rw [startListen,h,Act.bind_ok,Act.after_nil]
  dsimp only
  split
  · exact ⟨_,_,_,rfl⟩
  · split
    · exact ⟨_,_,_,rfl⟩
    · exact ⟨_,_,_,rfl⟩

/-- The listen command returns, with the call for the stored text. -/
private theorem listen_step (h : cstring g.bind 0 = some s) (hx : commandOf x = some .listen) :
    ∃ g' fx, gateStep g x = .ok g' fx ∧ cstring g'.bind 0 = some (hostPort s).2.2 ∧ listened fx = listenCall s := by
  obtain ⟨source,msg,fx₁,hin,hp,hq⟩ := exists_text hx
  obtain ⟨addr',ha,hc⟩ := listenAddress_hostPort h
  obtain ⟨g₁,code,fx₂,hs⟩ := startListen_returns ha x.answers.listen g
  refine ⟨{ g₁ with bind := addr' },fx₁ ++ fx₂,?_,hc,?_⟩
  · rw [gateStep_text hin,ctrl,hp,Act.bind_ok,ctrlRun,hs]
    simp
  · rw [listened_external,external_append,hq,List.nil_append,listenCall]
    obtain ⟨host,port,ha',⟨hle,_,hext⟩ | ⟨hlt,_,hext⟩⟩ := startListen_cases hs
    · cases ha.symm.trans ha'
      rw [hext,if_pos hle]
      rfl
    · cases ha.symm.trans ha'
      rw [hext,if_neg (show ¬ (hostPort s).2.1 ≤ 0 by omega)]
      split <;> rfl

/-- The close command makes no listen call and keeps the stored text. -/
private theorem close_step (hx : commandOf x = some .close) (he : gateStep g x = .ok g' fx) :
    g'.bind = g.bind ∧ listened fx = [] := by
  obtain ⟨source,msg,fx₁,hin,hp,hq⟩ := exists_text hx
  rw [gateStep_text hin,ctrl] at he
  obtain ⟨command,fx₂,fx₃,hp',hr,rfl⟩ := Act.bind_eq_ok.mp he
  cases hp.symm.trans hp'
  rw [listened_external,external_append,hq,List.nil_append]
  rw [ctrlRun] at hr
  split at hr
  · cases hr
    exact ⟨rfl,rfl⟩
  · cases hr
    exact ⟨rfl,rfl⟩

/-- A text whose port is invalid is left alone and leads to no call. -/
private def Inert (s : Bytes) : Prop := (hostPort s).2.1 ≤ 0 ∧ (hostPort s).2.2 = s

/-- A reusable text stays as it is, or is cut to an inert one. -/
private theorem Reusable.left (h : Reusable s) : (hostPort s).2.2 = s ∨ Inert (hostPort s).2.2 := by
  cases hj : s.idxOf? 58 with
  | none => exact .inl (by simp [hostPort,hj])
  | some j =>
    by_cases hp : atoi (s.drop (j + 1)) ≤ 0
    · exact .inl (by simp [hostPort,hj,hp])
    · have hcut : (hostPort s).2.2 = s.take j := by simp [hostPort,hj,hp]
      have hhost := (h j hj).resolve_left hp
      rw [hcut,Inert,hostPort,(idxOf?_take hj).2]
      exact .inr ⟨hhost,rfl⟩

/-- Any other text is cut to a host that is taken for a port. -/
private theorem exists_of_not_reusable (h : ¬ Reusable s) :
    ∃ a, a ∈ listenCall (hostPort s).2.2 ∧ a ∉ listenCall s := by
  simp only [Reusable,not_forall,not_or,not_le] at h
  obtain ⟨j,hj,hp,hhost⟩ := h
  have hs : hostPort s = (s.take j,atoi (s.drop (j + 1)),s.take j) := by
    rw [hostPort,hj]
    exact if_neg (by omega)
  have ht : hostPort (s.take j) = ([],atoi (s.take j),s.take j) := by rw [hostPort,(idxOf?_take hj).2]
  refine ⟨([],atoi (s.take j)),?_,?_⟩
  · rw [hs,listenCall,ht,if_neg (by simpa using hhost)]
    exact List.mem_singleton_self _
  · rw [listenCall,hs,if_neg (by simpa using hp)]
    intro hm
    have hnil : s.take j = [] := (congrArg Prod.fst (List.mem_singleton.mp hm)).symm
    rw [hnil] at hhost
    cases hhost

/-- A run of close and listen commands makes no other call than the one for the text
stored at its start if and only if this text is reusable. -/
private theorem run_listened_iff (h : cstring g₀.bind 0 = some s) :
    (∀ tr g, Run gateStep CloseOrListen g₀ tr g → ∀ a ∈ tr.flatMap (fun e => listened e.2), a ∈ listenCall s) ↔ Reusable s := by
  constructor
  · intro hall
    by_contra hnot
    obtain ⟨a,ha,hna⟩ := exists_of_not_reusable hnot
    have hl : commandOf (relisten 0) = some .listen := by decide
    obtain ⟨g₁,fx₁,he₁,hb₁,_⟩ := listen_step h hl
    obtain ⟨g₂,fx₂,he₂,_,hfx₂⟩ := listen_step hb₁ hl
    refine hna (hall _ g₂ ((Run.nil.snoc (.inr hl) he₁).snoc (.inr hl) he₂) a ?_)
    rw [List.flatMap_append,List.mem_append]
    right
    simpa [hfx₂] using ha
  · intro hr tr g hrun
    refine (hrun.invariant (fun tr g => (cstring g.bind 0 = some s ∨ ∃ t, cstring g.bind 0 = some t ∧ Inert t) ∧
      ∀ a ∈ tr.flatMap (fun e => listened e.2), a ∈ listenCall s) ⟨.inl h,by simp⟩ ?_).2
    intro tr g x g' fx ⟨hbind,hpast⟩ hx he
    have hsnoc (hfx : ∀ a ∈ listened fx, a ∈ listenCall s) :
        ∀ a ∈ (tr ++ [(x,fx)]).flatMap (fun e => listened e.2), a ∈ listenCall s := by
      intro a ha
      rw [List.flatMap_append,List.mem_append] at ha
      rcases ha with ha | ha
      · exact hpast a ha
      · exact hfx a (by simpa using ha)
    rcases hx with hx | hx
    · obtain ⟨hb,hfx⟩ := close_step hx he
      rw [hb]
      exact ⟨hbind,hsnoc (by simp [hfx])⟩
    · rcases hbind with hs | ⟨t,ht,hin⟩
      · obtain ⟨g₁,fx₁,he₁,hb,hfx⟩ := listen_step hs hx
        cases he₁.symm.trans he
        refine ⟨?_,hsnoc (by rw [hfx]; exact fun a ha => ha)⟩
        rcases hr.left with hleft | hleft
        · exact .inl (by rw [hb,hleft])
        · exact .inr ⟨_,hb,hleft⟩
      · obtain ⟨g₁,fx₁,he₁,hb,hfx⟩ := listen_step ht hx
        cases he₁.symm.trans he
        rw [hin.2] at hb
        refine ⟨.inr ⟨t,hb,hin⟩,hsnoc ?_⟩
        rw [hfx,listenCall,if_pos hin.1]
        simp

/-- The address text of a parameter string, none for one that starts with `!`. -/
def boundText (parm : Bytes) : Bytes := if (scanParm parm).1.head? = some 33 then [] else (scanParm parm).1

variable {setup : Setup} {parm : Bytes} {code : Int}

private theorem scanParm_word (h0 : 0 ∉ parm) : 0 ∉ (scanParm parm).1 ∧ (scanParm parm).1.length ≤ parm.length := by
  have hsub : List.Sublist (scanParm parm).1 parm := (List.takeWhile_sublist _).trans (List.dropWhile_sublist _)
  exact ⟨fun h => h0 (hsub.subset h),hsub.length_le⟩

/-- `gate_init` stores the address text and listens on it. -/
private theorem init_bind (h0 : 0 ∉ parm) (hi : gateInit setup gateCreate (some parm) = .ok (g₀,code) fx) :
    cstring g₀.bind 0 = some (boundText parm) ∧ listened fx = listenCall (boundText parm) := by
  obtain ⟨hword,hlen⟩ := scanParm_word h0
  rw [gateInit] at hi
  dsimp only at hi
  obtain ⟨hash,fx₁,fx₂,hh,h₁,rfl⟩ := Act.bind_eq_ok.mp hi
  obtain ⟨_,_,_,_,rfl⟩ := Hashid.init_spec hh
  unfold boundText
  generalize (scanParm parm).1 = word at *
  split at h₁
  · cases h₁
  · rename_i first rest
    split at h₁
    · rename_i hfirst
      cases h₁
      rw [hfirst,List.head?_cons,if_pos rfl]
      exact ⟨cstring_append (s := []) (by simp) (List.replicate 199 0),rfl⟩
    · rename_i hfirst
      rw [List.head?_cons,if_neg (by simpa using hfirst)]
      split at h₁
      · cases h₁
      · rename_i hsz
        obtain ⟨⟨g₁,addr',code₁⟩,fx₃,fx₄,hs,h₂,rfl⟩ := Act.bind_eq_ok.mp h₁
        cases h₂
        obtain ⟨addr'',ha,_⟩ := listenAddress_hostPort (cstring_append hword [])
        have hpad : 200 - (first :: rest).length = (199 - (first :: rest).length) + 1 := by omega
        have hbind : cstring ((first :: rest) ++ List.replicate (200 - (first :: rest).length) 0) 0 = some (first :: rest) := by
          rw [hpad,List.replicate_succ]
          exact cstring_append hword _
        rw [listened_external,List.nil_append,List.append_nil,listenCall]
        obtain ⟨host,port,ha',⟨hle,rfl,hext⟩ | ⟨hlt,rfl,hext⟩⟩ := startListen_cases hs
        · cases ha.symm.trans ha'
          rw [hext,if_pos hle]
          exact ⟨hbind,rfl⟩
        · cases ha.symm.trans ha'
          rw [hext,if_neg (show ¬ (hostPort (first :: rest)).2.1 ≤ 0 by omega)]
          refine ⟨hbind,?_⟩
          split <;> rfl

/-- Every listen call of close and listen commands uses the address that `gate_init`
listened on if and only if the address text is reusable. -/
theorem relisten_keeps_address_iff (h0 : 0 ∉ parm) (hi : gateInit setup gateCreate (some parm) = .ok (g₀,code) fx) :
    (∀ tr g, Run gateStep CloseOrListen g₀ tr g → ∀ a ∈ tr.flatMap (fun e => listened e.2), a ∈ listened fx) ↔
      Reusable (boundText parm) := by
  obtain ⟨hb,hfx⟩ := init_bind h0 hi
  rw [hfx]
  exact run_listened_iff hb

theorem relisten_keeps_address_iff_any_host : ∃ g₀ code fx,
    gateInit twoOnline gateCreate (some (ascii "0.0.0.0:8888 9")) = .ok (g₀,code) fx ∧
    listened fx = [(ascii "0.0.0.0",8888)] ∧ Reusable (boundText (ascii "0.0.0.0:8888 9")) ∧
    ∀ tr g, Run gateStep CloseOrListen g₀ tr g → ∀ a ∈ tr.flatMap (fun e => listened e.2), a ∈ listened fx := by
  obtain ⟨⟨g₀,code⟩,fx,hi,hp⟩ := Act.exists_of_holds (x := gateInit twoOnline gateCreate (some (ascii "0.0.0.0:8888 9")))
    (p := fun _ fx => decide (listened fx = [(ascii "0.0.0.0",8888)])) (by decide)
  have hr : Reusable (boundText (ascii "0.0.0.0:8888 9")) := by
    have hj : (boundText (ascii "0.0.0.0:8888 9")).idxOf? 58 = some 7 := by decide
    intro j h
    cases hj.symm.trans h
    exact .inr (by decide)
  exact ⟨g₀,code,fx,hi,of_decide_eq_true hp,hr,(relisten_keeps_address_iff (by decide) hi).mpr hr⟩

/-- The second listen command takes the host for a port. -/
theorem relisten_changes_address : ∃ g₀ code fx tr g,
    gateInit twoOnline gateCreate (some (ascii "127.0.0.1:8888 9")) = .ok (g₀,code) fx ∧
    Run gateStep CloseOrListen g₀ tr g ∧
    tr.map (·.1) = [control "close" (-1),relisten 8,control "close" (-1),relisten 9] ∧
    listened fx = [(ascii "127.0.0.1",8888)] ∧
    tr.flatMap (fun e => listened e.2) = [(ascii "127.0.0.1",8888),([],127)] := by
  obtain ⟨g₀,code,fx,tr,g,hi,hr,hm,hl,hp⟩ := gateRun_of_start (fun _ => CloseOrListen)
    (fun fx tr _ => listened fx = [(ascii "127.0.0.1",8888)] ∧
      tr.flatMap (fun e => listened e.2) = [(ascii "127.0.0.1",8888),([],127)])
    twoOnline (ascii "127.0.0.1:8888 9") [control "close" (-1),relisten 8,control "close" (-1),relisten 9] (by decide)
  exact ⟨g₀,code,fx,tr,g,hi,hr,hm,hl,hp⟩

end MyProgram.SkynetGate
