import MyProgram.Mysql.Model
import MyProgram.Lib.Handles
import MyProgram.Lib.Runs

/-! Which handles of the library are open between the calls of a client. -/
namespace MyProgram.Mysql
open Lib

namespace Effect

/-- What a call of the library does with its handle. Closing NULL does nothing. -/
def handleCall : Effect → Option (HandleCall Handle)
  | .init answer => answer.map .acquire
  | .options h _ _ | .realConnect h _ _ _ _ _ _ | .setCharacterSet h _ | .ping h | .realQuery h _ | .affectedRows h
  | .storeResult h => some (.use h)
  | .close h => h.map .release

end Effect

def handleCalls (fx : List Effect) : List (HandleCall Handle) := fx.filterMap Effect.handleCall

/-- The call gets as far as `init_mysql_ctx`. -/
def dials (c : MysqlClient) (call : Call) : Bool :=
  match call.request with
  | .connect ipPort _ _ _ => ipPort.contains 58
  | _ => c.m_mysql_ctx.isNone || call.answers.ping != 0

/-- `mysql_real_connect` does not fail if the call comes to it. -/
def Connects (c : MysqlClient) (call : Call) : Prop :=
  dials c call = true → call.answers.init.isSome = true → call.answers.connect = true

instance (c : MysqlClient) (call : Call) : Decidable (Connects c call) := inferInstanceAs (Decidable (_ → _))

/-- Between calls the client's handle, if it has one, is the only one that is open, the
handles were used and closed while they were open, and the destructor leaves none. -/
def Owned (tr : Trace Call Effect) (c : MysqlClient) : Prop :=
  handlesAfter [] (handleCalls (tr.flatMap (·.2))) = some c.m_mysql_ctx.toList ∧
  ∃ fx, c.destroy = .ok () fx ∧ handlesAfter [] (handleCalls (tr.flatMap (·.2) ++ fx)) = some []

variable {c c' : MysqlClient} {a : Answers} {call : Call} {fx : List Effect} {tr : Trace Call Effect} {dial : Bool} {port : Int}

@[simp] private theorem handleCalls_append (fx fx' : List Effect) :
    handleCalls (fx ++ fx') = handleCalls fx ++ handleCalls fx' := List.filterMap_append

/-- What a call that may come to `init_mysql_ctx` leaves: the handle of the client and the
open handles. -/
structure Leaves (a : Answers) (dial : Bool) (c c' : MysqlClient) (fx : List Effect) : Prop where
  ctx : c'.m_mysql_ctx = if dial then (if a.connect then a.init else none) else c.m_mysql_ctx
  opened : handlesAfter c.m_mysql_ctx.toList (handleCalls fx) = some (if dial then a.init.toList else c.m_mysql_ctx.toList)

/-- The client's handle may be used. -/
private theorem Leaves.use (h : Leaves a dial c c' fx) {k : Handle} (hk : c'.m_mysql_ctx = some k) {e : Effect}
    (he : e.handleCall = some (.use k)) : Leaves a dial c c' (fx ++ [e]) := by
  have hopen : (if dial then a.init.toList else c.m_mysql_ctx.toList) = [k] := by
    have hctx := h.ctx
    rw [hk] at hctx
    cases dial with
    | false => simpa using congrArg Option.toList hctx.symm
    | true =>
      rw [if_pos rfl] at hctx ⊢
      split at hctx
      · rw [← hctx]
        rfl
      · cases hctx
  have hone : handleCalls [e] = [.use k] := by simp [handleCalls,he]
  refine ⟨h.ctx,?_⟩
  rw [handleCalls_append,handlesAfter_append,h.opened,hopen,hone]
  simp

private theorem initMysqlCtx_leaves (a : Answers) (c : MysqlClient) :
    ∃ c' fx, c.initMysqlCtx a = .ok c' fx ∧ Leaves a true c c' fx := by
  have hclose (cs : List (HandleCall Handle)) : handlesAfter c.m_mysql_ctx.toList (handleCalls [.close c.m_mysql_ctx] ++ cs) = handlesAfter [] cs := by
    cases hc : c.m_mysql_ctx with
    | none => rfl
    | some h => simp [handleCalls,Effect.handleCall]
  have hsplit (fx : List Effect) : handleCalls (.close c.m_mysql_ctx :: fx) = handleCalls [.close c.m_mysql_ctx] ++ handleCalls fx :=
    handleCalls_append [_] fx
  rw [MysqlClient.initMysqlCtx]
  cases hi : a.init with
  | none =>
    refine ⟨_,_,rfl,?_,?_⟩
    · rw [hi,ite_self]
      rfl
    · simp only [List.append_nil,List.cons_append,List.nil_append]
      rw [hsplit,hclose,hi]
      rfl
  | some h =>
    cases ha : a.connect with
    | true =>
      refine ⟨_,_,rfl,by simp [ha,hi],?_⟩
      simp only [List.append_nil,List.cons_append,List.nil_append]
      rw [hsplit,hclose,hi]
      simp [handleCalls,Effect.handleCall]
    | false =>
      refine ⟨_,_,rfl,by simp [ha],?_⟩
      simp only [List.append_nil,List.cons_append,List.nil_append]
      rw [hsplit,hclose,hi]
      simp [handleCalls,Effect.handleCall]

private theorem isDead_eq (a : Answers) (c : MysqlClient) : ∃ fx, c.isDead a = .ok (c.m_mysql_ctx.isNone || a.ping != 0) fx ∧
    handlesAfter c.m_mysql_ctx.toList (handleCalls fx) = some c.m_mysql_ctx.toList := by
  rw [MysqlClient.isDead]
  cases hc : c.m_mysql_ctx with
  | none => exact ⟨[],rfl,rfl⟩
  | some h =>
    have hping : decide (a.ping ≠ 0) = (a.ping != 0) := by
      by_cases h0 : a.ping = 0 <;> simp [h0]
    exact ⟨[.ping h],by simp only [hping]; rfl,by simp [handleCalls,Effect.handleCall]⟩

private theorem mysqlReconnect_leaves (a : Answers) (c : MysqlClient) :
    ∃ c' fx, c.mysqlReconnect a = .ok (c',c'.m_mysql_ctx) fx ∧ Leaves a (c.m_mysql_ctx.isNone || a.ping != 0) c c' fx := by
  obtain ⟨fx₁,he₁,hh₁⟩ := isDead_eq a c
  rw [MysqlClient.mysqlReconnect,he₁]
  cases hd : (c.m_mysql_ctx.isNone || a.ping != 0) with
  | false => exact ⟨c,fx₁,by simp,rfl,hh₁⟩
  | true =>
    obtain ⟨c',fx₂,he₂,hl⟩ := initMysqlCtx_leaves a c
    refine ⟨c',fx₁ ++ fx₂,by simp [he₂],hl.ctx,?_⟩
    rw [handleCalls_append,handlesAfter_append,hh₁]
    exact hl.opened

private theorem mysqlExec_leaves (a : Answers) (c : MysqlClient) (sql : Bytes) :
    ∃ c' r fx, c.mysqlExec a sql = .ok (c',r) fx ∧ Leaves a (c.m_mysql_ctx.isNone || a.ping != 0) c c' fx := by
  obtain ⟨c',fx,he,hl⟩ := mysqlReconnect_leaves a c
  rw [MysqlClient.mysqlExec,he]
  cases hc : c'.m_mysql_ctx with
  | none => exact ⟨c',false,fx,by simp,hl⟩
  | some h => exact ⟨c',_,_,rfl,hl.use hc rfl⟩

private theorem clientStep_leaves (c : MysqlClient) (call : Call) :
    ∃ c' fx, clientStep c call = .ok c' fx ∧ Leaves call.answers (dials c call) c c' fx := by
  obtain ⟨request,a⟩ := call
  cases request with
  | connect ipPort user password database =>
    simp only [dials,clientStep,MysqlClient.mysqlConnect]
    cases hi : ipPort.idxOf? 58 with
    | none =>
      have hno : ipPort.contains 58 = false := by simpa using List.idxOf?_eq_none_iff.mp hi
      exact ⟨c,[],rfl,by rw [hno]; rfl,by rw [hno]; rfl⟩
    | some i =>
      have hyes : ipPort.contains 58 = true := by
        rw [List.contains_iff_mem,← List.isSome_idxOf?,hi]
        rfl
      obtain ⟨c',fx,he,hl⟩ := initMysqlCtx_leaves a { c with
        m_ip := ipPort.take i
        m_port := atoi (ipPort.drop (i + 1))
        m_database := database
        m_user := user
        m_password := password }
      exact ⟨c',fx,by simp [he],by rw [hyes]; exact ⟨hl.ctx,hl.opened⟩⟩
  | reconnect =>
    obtain ⟨c',fx,he,hl⟩ := mysqlReconnect_leaves a c
    exact ⟨c',fx,by simp [clientStep,he],hl⟩
  | exec sql =>
    obtain ⟨c',r,fx,he,hl⟩ := mysqlExec_leaves a c sql
    exact ⟨c',fx,by simp [clientStep,he],hl⟩
  | lastAffectedRows =>
    obtain ⟨c',fx,he,hl⟩ := mysqlReconnect_leaves a c
    simp only [clientStep,MysqlClient.mysqlLastAffectedRows,he]
    cases hc : c'.m_mysql_ctx with
    | none => exact ⟨c',fx,by simp,hl⟩
    | some h => exact ⟨c',fx ++ [Effect.affectedRows h],by simp,hl.use hc rfl⟩
  | insertId =>
    obtain ⟨c',r,fx,he,hl⟩ := mysqlExec_leaves a c (ascii "select  @@IDENTITY as id;")
    simp only [clientStep,MysqlClient.getInsertId,he,MysqlClient.storeResult]
    cases hc : c'.m_mysql_ctx with
    | none => exact ⟨c',fx,by simp [hc],hl⟩
    | some h => exact ⟨c',fx ++ [Effect.storeResult h],by simp [hc],hl.use hc rfl⟩

/-- The open handles after a call are the client's exactly when connecting did not fail. -/
private theorem Leaves.owned_iff (h : Leaves call.answers (dials c call) c c' fx) :
    handlesAfter c.m_mysql_ctx.toList (handleCalls fx) = some c'.m_mysql_ctx.toList ↔ Connects c call := by
  rw [h.opened,h.ctx,Option.some_inj,Connects]
  cases dials c call with
  | false => simp
  | true =>
    cases call.answers.init with
    | none => simp
    | some k => cases call.answers.connect <;> simp

private theorem handlesAfter_snoc {hs : List Handle} (h : handlesAfter [] (handleCalls (tr.flatMap (·.2))) = some hs) (call : Call) (fx : List Effect) :
    handlesAfter [] (handleCalls ((tr ++ [(call,fx)]).flatMap (·.2))) = handlesAfter hs (handleCalls fx) := by
  rw [List.flatMap_append,handleCalls_append,handlesAfter_append,h]
  simp

private theorem owned_of_held (h : handlesAfter [] (handleCalls (tr.flatMap (·.2))) = some c.m_mysql_ctx.toList) : Owned tr c := by
  refine ⟨h,?_⟩
  simp only [handleCalls_append,handlesAfter_append,h]
  rw [MysqlClient.destroy]
  cases c.m_mysql_ctx with
  | none => exact ⟨[],rfl,rfl⟩
  | some k => exact ⟨[.close (some k)],rfl,by simp [handleCalls,Effect.handleCall]⟩

/-- In every run in which no connection attempt fails, the client owns exactly the open
handle. From each state of such a run, a call whose connection attempt fails breaks this. -/
theorem handle_owned (hr : Run clientStep (fun _ c call => Connects c call) (.new port) tr c) :
    Owned tr c ∧ ∀ call, ¬Connects c call → ∃ c' fx, clientStep c call = .ok c' fx ∧ ¬Owned (tr ++ [(call,fx)]) c' := by
  have hinv : handlesAfter [] (handleCalls (tr.flatMap (·.2))) = some c.m_mysql_ctx.toList := by
    refine hr.invariant (fun tr c => handlesAfter [] (handleCalls (tr.flatMap (·.2))) = some c.m_mysql_ctx.toList) rfl ?_
    intro tr c call c' fx h hc he
    obtain ⟨c₁,fx₁,he₁,hl⟩ := clientStep_leaves c call
    rw [he] at he₁
    cases he₁
    rw [handlesAfter_snoc h]
    exact hl.owned_iff.mpr hc
  refine ⟨owned_of_held hinv,fun call hc => ?_⟩
  obtain ⟨c',fx,he,hl⟩ := clientStep_leaves c call
  refine ⟨c',fx,he,fun ho => hc (hl.owned_iff.mp ?_)⟩
  rw [← handlesAfter_snoc hinv call]
  exact ho.1

/-- The first connection breaks, and the client gets another one. -/
theorem handle_owned_reconnected : ∃ tr c, Run clientStep (fun _ c call => Connects c call) (.new 0) tr c ∧
    tr.map (·.1.request) = [.connect (ascii "127.0.0.1:3306") (ascii "root") [] (ascii "db"),.exec (ascii "select 1"),.insertId] ∧
    c.m_mysql_ctx = some 2 ∧ Owned tr c := by
  have hcheck : runCheck clientStep (fun _ c call => Connects c call)
      (fun tr (c : MysqlClient) => tr.map (·.1.request) = [.connect (ascii "127.0.0.1:3306") (ascii "root") [] (ascii "db"),
        .exec (ascii "select 1"),.insertId] ∧ c.m_mysql_ctx = some 2)
      [⟨.connect (ascii "127.0.0.1:3306") (ascii "root") [] (ascii "db"),⟨some 1,true,0,0,0,none⟩⟩,
        ⟨.exec (ascii "select 1"),⟨some 2,true,1,0,0,none⟩⟩,⟨.insertId,⟨none,false,0,0,0,none⟩⟩] [] (.new 0) = true := by
    decide
  obtain ⟨tr,c,hr,_,hreq,hctx⟩ := Run.of_runCheck hcheck
  exact ⟨tr,c,hr,hreq,hctx,(handle_owned hr).1⟩

/-- A connection attempt that fails. -/
def refused : Call :=
  ⟨.connect (ascii "127.0.0.1:3306") (ascii "root") [] (ascii "db"),⟨some 1,false,0,0,0,none⟩⟩

/-- It leaves the handle of `mysql_init` open and the client without it. -/
theorem failed_connect_leaks : ∃ c fx, clientStep (.new 0) refused = .ok c fx ∧ c.m_mysql_ctx = none ∧
    handlesAfter [] (handleCalls fx) = some [1] ∧ c.destroy = .ok () [] ∧ ¬Owned [(refused,fx)] c := by
  obtain ⟨c,fx,he,hp⟩ := Act.exists_of_holds (x := clientStep (.new 0) refused)
    (p := fun (c : MysqlClient) fx => decide (c.m_mysql_ctx = none ∧ handlesAfter [] (handleCalls fx) = some [1] ∧ c.destroy = .ok () []))
    (by decide)
  obtain ⟨hctx,hheld,hd⟩ := of_decide_eq_true hp
  refine ⟨c,fx,he,hctx,hheld,hd,fun ho => ?_⟩
  have hnone : handlesAfter [] (handleCalls fx) = some [] := by
    have h := ho.1
    rw [hctx] at h
    simpa using h
  rw [hheld] at hnone
  cases hnone

end MyProgram.Mysql
