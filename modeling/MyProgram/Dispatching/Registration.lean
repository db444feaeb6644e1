import MyProgram.Dispatching.Model

/-! Registering a list of message names, and what dispatching does afterwards. -/
namespace MyProgram.Dispatching
open Lib LuaPattern
variable {F P : Type} {w w' : World F P} {d : Dispatcher F P} {name : Bytes} {names client_names : List Bytes}
  {obj : Option (Val P)} {f : F}

/-- The last run of letters of a name. -/
def lastRun (name : Bytes) : Option Bytes := ((name.splitOnP fun b => !isAlpha b).filter (· ≠ [])).getLast?

/-- The function for a name. -/
def matching (d : Dispatcher F P) (name : Bytes) : Option F := (lastRun name).bind fun run => tableIndex d.ftable run

/-- The handlers called so far. -/
def calls (w : World F P) : List (F × List (Option (Val P))) := w.log.filterMap fun
  | .call f args => some (f,args)
  | _ => none

/-- Each name with a function has its handler, nothing else has changed, and a message with
such a name is handed to that function alone. -/
structure Registered (w w' : World F P) (names : List Bytes) (obj : Option (Val P)) : Prop where
  handler : ∀ name ∈ names, ∀ f, matching w.dispatcher name = some f → tableIndex w'.dispatcher.map name = some ⟨f,obj⟩
  frame : ∀ name, name ∉ names ∨ matching w.dispatcher name = none →
    tableIndex w'.dispatcher.map name = tableIndex w.dispatcher.map name
  dispatched : ∀ name ∈ names, ∀ f, matching w.dispatcher name = some f → ∀ sv uid msg session source protobuf,
    calls (dispatch sv uid name msg session source protobuf w').2 =
      calls w' ++ [(f,if truthy obj then [obj,uid,msg,session,source,protobuf] else [uid,msg,session,source,protobuf])]

/-- `regs` returns with everything registered. -/
def RegsComplete (w : World F P) (protobuf : Option (Val P)) (names : List Bytes) (obj : Option (Val P)) : Prop :=
  ∃ w', regs protobuf names obj w = (.ok (),w') ∧ Registered w w' names obj

/-- Some character of the name is a letter. -/
def HasLetter (name : Bytes) : Prop := ∃ b ∈ name, isAlpha b = true

theorem gmatch_letters (name : Bytes) : gmatch name (ascii "%a+") = .ok ((name.splitOnP fun b => !isAlpha b).filter (· ≠ [])) := by
  have hp : parse (ascii "%a+") = [.single (.cls 97) .plus] := by decide
  rw [gmatch,hp,scan_runs]
  rfl

theorem lastRun_eq_none : lastRun name = none ↔ ¬HasLetter name := by
  rw [lastRun,List.getLast?_eq_none_iff,HasLetter]
  induction name with
  | nil => simp
  | cons b name ih =>
    rw [List.splitOnP_cons_eq_if_modifyHead]
    cases hb : isAlpha b with
    | false => simpa [hb] using ih
    | true =>
      obtain ⟨x,xs,hx⟩ := List.exists_cons_of_ne_nil (List.splitOnP_ne_nil (fun b => !isAlpha b) name)
      simp [hx,hb]

/-- What one round of the loop does to the map. -/
theorem reg_eq (name : Bytes) (obj : Option (Val P)) (w : World F P) : _reg name obj w = match matching w.dispatcher name with
    | some f => (.ok (true,lastRun name),
        { w with dispatcher := { w.dispatcher with map := assign w.dispatcher.map name (some ⟨f,obj⟩) } })
    | none => (.ok (false,lastRun name),w) := by
  rw [_reg,Prog.bind_eq,Prog.read,gmatch_letters]
  dsimp only
  rw [Prog.bind_eq,self,Prog.read]
  dsimp only
  rw [← lastRun,← matching]
  cases matching w.dispatcher name <;> rfl

theorem matching_congr {d d' : Dispatcher F P} (h : d'.ftable = d.ftable) (name : Bytes) : matching d' name = matching d name := by
  rw [matching,matching,h]

/-- The entry of a name after it has been registered, if it has a function, in front of
the one it had. -/
def entry (d : Dispatcher F P) (obj : Option (Val P)) (name : Bytes) : Option (Handler F P) :=
  (matching d name).map fun f => ⟨f,obj⟩

/-- A round for a name with a letter goes on with the others. -/
theorem regsLoop_cons (hl : HasLetter name) (names client_names : List Bytes) (obj : Option (Val P)) (w : World F P) :
    ∃ client_names' w', regsLoop obj (name :: names) client_names w = regsLoop obj names client_names' w' ∧
      w'.dispatcher.ftable = w.dispatcher.ftable ∧
      ∀ k, tableIndex w'.dispatcher.map k = (if k = name then entry w.dispatcher obj k else none).or (tableIndex w.dispatcher.map k) := by
  obtain ⟨run,hrun⟩ : ∃ run, lastRun name = some run := Option.ne_none_iff_exists'.mp fun h => lastRun_eq_none.mp h hl
  rw [regsLoop,Prog.bind_eq,reg_eq,hrun]
  cases hm : matching w.dispatcher name with
  | some f =>
    refine ⟨_,_,rfl,rfl,fun k => ?_⟩
    change tableIndex (assign w.dispatcher.map name (some ⟨f,obj⟩)) k = _
    rw [tableIndex_assign]
    by_cases hk : k = name
    · rw [if_pos hk,if_pos hk,hk,entry,hm]
      rfl
    · rw [if_neg hk,if_neg hk]
      rfl
  | none =>
    refine ⟨_,_,rfl,rfl,fun k => ?_⟩
    by_cases hk : k = name
    · rw [if_pos hk,hk,entry,hm]
      rfl
    · rw [if_neg hk]
      rfl

/-- A name without a letter ends the loop. -/
theorem regsLoop_nameless (hl : ¬HasLetter name) (names client_names : List Bytes) (obj : Option (Val P)) (w : World F P) :
    ∃ e w', regsLoop obj (name :: names) client_names w = (.error e,w') := by
  have hrun := lastRun_eq_none.mpr hl
  have hm : matching w.dispatcher name = none := by rw [matching,hrun]; rfl
  rw [regsLoop,Prog.bind_eq,reg_eq,hm,hrun]
  exact ⟨_,_,rfl⟩

theorem regsLoop_ok (h : ∀ name ∈ names, HasLetter name) (client_names : List Bytes) (obj : Option (Val P)) (w : World F P) :
    ∃ out w', regsLoop obj names client_names w = (.ok out,w') ∧
      ∀ k, tableIndex w'.dispatcher.map k = (if k ∈ names then entry w.dispatcher obj k else none).or (tableIndex w.dispatcher.map k) := by
  induction names generalizing client_names w with
  | nil => exact ⟨client_names,w,rfl,fun k => by simp⟩
  | cons name names ih =>
    obtain ⟨client_names',w₁,hstep,hft,hmap⟩ := regsLoop_cons (h name (by simp)) names client_names obj w
    obtain ⟨out,w',hloop,hrest⟩ := ih (fun n hn => h n (by simp [hn])) client_names' w₁
    refine ⟨out,w',hstep.trans hloop,fun k => ?_⟩
    rw [hrest,hmap,entry,matching_congr hft,← entry]
    by_cases hk : k = name
    · by_cases hn : k ∈ names
      · rw [if_pos hn,if_pos hk,if_pos (by simp [hn])]
        cases entry w.dispatcher obj k <;> rfl
      · rw [if_neg hn,if_pos hk,if_pos (by simp [hk])]
        rfl
    · rw [if_neg hk]
      simp [hk]

theorem regsLoop_error (h : ¬∀ name ∈ names, HasLetter name) (client_names : List Bytes) (obj : Option (Val P)) (w : World F P) :
    ∃ e w', regsLoop obj names client_names w = (.error e,w') := by
  induction names generalizing client_names w with
  | nil => simp at h
  | cons name names ih =>
    by_cases hl : HasLetter name
    · obtain ⟨client_names',w₁,hstep,_⟩ := regsLoop_cons hl names client_names obj w
      rw [hstep]
      refine ih (fun hall => h fun n hn => ?_) client_names' w₁
      rcases List.mem_cons.mp hn with rfl | hn
      · exact hl
      · exact hall n hn
    · exact regsLoop_nameless hl names client_names obj w

/-- A computation that calls no handler. -/
def Quiet {α : Type} (m : Lua F P α) : Prop := ∀ w, calls (m w).2 = calls w

namespace Quiet
variable {α β : Type}

theorem pure (a : α) : Quiet (F := F) (P := P) (pure a) := fun _ => rfl

theorem read (p : World F P → Except LuaError α) : Quiet (Prog.read p) := fun _ => rfl

theorem bind {m : Lua F P α} {g : α → Lua F P β} (hm : Quiet m) (hg : ∀ a, Quiet (g a)) : Quiet (m >>= g) := by
  intro w
  have h := hm w
  rw [Prog.bind_eq]
  cases hr : m w with
  | mk r w' =>
    rw [hr] at h
    cases r with
    | error e => exact h
    | ok a => exact (hg a w').trans h

theorem ite {c : Prop} [Decidable c] {m m' : Lua F P α} (h : Quiet m) (h' : Quiet m') : Quiet (if c then m else m') := by
  split
  · exact h
  · exact h'

theorem redirect (source session : Option (Val P)) (data : Bytes) : Quiet (F := F) (emit (.redirect source session data)) := by
  intro w
  change (w.log ++ [_]).filterMap _ = _
  rw [List.filterMap_append]
  exact List.append_nil _

theorem send (address : Option (Val P)) (data : Bytes) : Quiet (F := F) (emit (.send address data)) := by
  intro w
  change (w.log ++ [_]).filterMap _ = _
  rw [List.filterMap_append]
  exact List.append_nil _

theorem respond (sv : Services F P) (uid session source protobuf rsp_pb_name rsp : Option (Val P)) :
    Quiet (respond sv uid session source protobuf rsp_pb_name rsp) := by
  unfold Dispatching.respond
  refine ite (bind (read _) fun b => ite ?_ (pure _)) (pure _)
  exact bind (read _) fun name => bind (read _) fun data => redirect source session data

theorem postLog (sv : Services F P) (name : Bytes) : Quiet (postLog sv name) := by
  unfold Dispatching.postLog
  refine bind (read _) fun ctx => ?_
  cases ctx with
  | none => exact pure _
  | some ctx => exact ite (bind (read _) fun data => send ctx.log_address data) (pure _)

end Quiet

/-- A message with a registered name is handed to its handler, and to no other. -/
theorem calls_dispatch (sv : Services F P) (uid msg session source protobuf : Option (Val P))
    (h : tableIndex w.dispatcher.map name = some ⟨f,obj⟩) :
    calls (dispatch sv uid name msg session source protobuf w).2 =
      calls w ++ [(f,if truthy obj then [obj,uid,msg,session,source,protobuf] else [uid,msg,session,source,protobuf])] := by
  let args := if truthy obj then [obj,uid,msg,session,source,protobuf] else [uid,msg,session,source,protobuf]
  let w₁ : World F P := { w with dispatcher := { w.dispatcher with last_name := name } }
  have hinvoke : calls (invoke sv f args w₁).2 = calls w ++ [(f,args)] := by
    change (w.log ++ [Effect.call f args]).filterMap _ = _
    rw [List.filterMap_append]
    rfl
  have hd : dispatch sv uid name msg session source protobuf w =
      (invoke sv f args >>= fun r => respond sv uid session source protobuf r.1 r.2 >>= fun _ => postLog sv name) w₁ := by
    rw [dispatch,Prog.bind_eq,setSelf,Prog.modify]
    dsimp only
    rw [Prog.bind_eq,self,Prog.read]
    dsimp only
    rw [h]
  have hrest (r : Option (Val P) × Option (Val P)) :
      Quiet (respond sv uid session source protobuf r.1 r.2 >>= fun _ => postLog sv name) :=
    (Quiet.respond sv uid session source protobuf r.1 r.2).bind fun _ => Quiet.postLog sv name
  rw [hd,Prog.bind_eq,← hinvoke]
  cases hr : invoke sv f args w₁ with
  | mk r w₂ =>
    cases r with
    | error e => rfl
    | ok r => exact hrest r w₂

/-- A list of names is registered completely exactly if each of them has a letter. -/
theorem regs_complete_iff (w : World F P) (protobuf : Option (Val P)) (names : List Bytes) (obj : Option (Val P)) :
    RegsComplete w protobuf names obj ↔ ∀ name ∈ names, HasLetter name := by
  constructor
  · rintro ⟨w',hr,_⟩
    by_contra h
    obtain ⟨e,w₁,he⟩ := regsLoop_error h [] obj w
    rw [regs,Prog.bind_eq,he] at hr
    cases hr
  · intro h
    obtain ⟨out,w',hloop,hmap⟩ := regsLoop_ok h [] obj w
    have hhandler (name : Bytes) (hn : name ∈ names) (f : F) (hm : matching w.dispatcher name = some f) :
        tableIndex w'.dispatcher.map name = some ⟨f,obj⟩ := by
      rw [hmap,if_pos hn,entry,hm]
      rfl
    refine ⟨w',?_,hhandler,fun name hno => ?_,fun name hn f hm sv uid msg session source protobuf => ?_⟩
    · rw [regs,Prog.bind_eq,hloop]
      rfl
    · rw [hmap]
      rcases hno with hno | hno
      · rw [if_neg hno]
        rfl
      · rw [entry,hno]
        split <;> rfl
    · exact calls_dispatch sv uid msg session source protobuf (hhandler name hn f hm)

/-- Two functions, named a and b. -/
def twoFunctions : World Nat Unit := ⟨.new [(ascii "a",0),(ascii "b",1)],fun _ => ⟨none,none,none,none⟩,[]⟩

/-- The name in the middle has no letter: an error is raised, and the name behind it is not registered. -/
theorem nameless_stops_registration : ∃ e w',
    regs none [ascii "a",ascii "1",ascii "b"] none twoFunctions = (.error e,w') ∧
      tableIndex w'.dispatcher.map (ascii "a") = some ⟨0,none⟩ ∧ tableIndex w'.dispatcher.map (ascii "b") = none ∧
      matching twoFunctions.dispatcher (ascii "b") = some 1 ∧
      ¬ RegsComplete twoFunctions none [ascii "a",ascii "1",ascii "b"] none := by
  refine ⟨_,_,rfl,by decide,by decide,by decide,?_⟩
  rintro ⟨w',hr,_⟩
  cases (Prod.ext_iff.mp hr).1

end MyProgram.Dispatching
