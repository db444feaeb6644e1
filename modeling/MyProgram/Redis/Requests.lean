import MyProgram.Redis.Replies

/-! What a client sends is a reply of bulk strings too, and the responses to a pipeline
come back in its order. -/
namespace MyProgram.Redis
open Lib

def Msg.args : Msg → List (Option Bytes)
  | .none => []
  | .table l => l
  | .single msg => [some msg]

/-- A field that is `nil` is sent as a null. -/
def argumentReply : Option Bytes → Reply
  | none => .nullBulk
  | some v => .bulk v

/-- A command as the server reads it. -/
def commandReply (cmd : Bytes) (args : List (Option Bytes)) : Reply := .array (.bulk (upper cmd) :: args.map argumentReply)

def opReply (op : List Bytes) : Reply := .array (op.map .bulk)

variable {depth : Nat} {cmd rest : Bytes} {msg : Msg} {l : List Reply} {op : List Bytes} {ops : List (List Bytes)}

theorem signedDecimal_ofNat (n : Nat) : signedDecimal n = decimal n := by
  rw [signedDecimal,if_neg (by omega)]
  rfl

@[simp] theorem length_upper (cmd : Bytes) : (upper cmd).length = cmd.length := List.length_map _

/-- CR LF stands in front of each argument and not behind it. -/
theorem flatten_arguments (args : List (Option Bytes)) :
    (args.flatMap argument).flatten ++ crlf = crlf ++ Reply.encodeAll (args.map argumentReply) := by
  induction args with
  | nil => rfl
  | cons v args ih =>
    rw [List.flatMap_cons,List.flatten_append,List.append_assoc,ih]
    cases v with
    | none =>
      have hnull : ascii "$-1" = 36 :: signedDecimal (-1) := by decide
      simp [argument,argumentReply,Reply.encodeAll,Reply.encode,hnull]
    | some v => simp [argument,argumentReply,Reply.encodeAll,Reply.encode,headerCache,signedDecimal_ofNat]

theorem flatten_composeMessage (cmd : Bytes) (msg : Msg) : (composeMessage cmd msg).flatten = (commandReply cmd msg.args).encode := by
  have hargs := flatten_arguments msg.args
  have hcmd : ∀ n : Nat, ∀ t, countCache n ++ (commandCache cmd ++ (crlf ++ t)) =
      42 :: signedDecimal n ++ (crlf ++ ((Reply.bulk (upper cmd)).encode ++ t)) := by
    intro n t
    simp [countCache,commandCache,Reply.encode,signedDecimal_ofNat]
  have hall : (commandReply cmd msg.args).encode = countCache (msg.args.length + 1) ++ (commandCache cmd ++
      ((msg.args.flatMap argument).flatten ++ crlf)) := by
    rw [hargs,hcmd,commandReply,encode_array,encodeAll_cons,List.length_cons,List.length_map]
  rw [hall]
  cases msg with
  | none => simp [composeMessage,commandNpCache,Msg.args]
  | table l => simp [composeMessage,Msg.args]
  | single s => simp [composeMessage,Msg.args,argument]

theorem flatten_composeTable (lines op : List Bytes) : (composeTable lines op).flatten = lines.flatten ++ (opReply op).encode := by
  have hargs := flatten_arguments (op.map some)
  have hflat : (op.map some).flatMap argument = op.flatMap fun v => [headerCache v.length,v] := by rw [List.flatMap_map]; rfl
  rw [hflat,List.map_map] at hargs
  rw [composeTable,List.flatten_append,List.flatten_append,List.flatten_cons,List.flatten_singleton,List.append_assoc,List.append_assoc,hargs]
  simp [opReply,Reply.encode,countCache,signedDecimal_ofNat]
  rfl

theorem flatten_pipeline (ops : List (List Bytes)) (lines : List Bytes) :
    (ops.foldl composeTable lines).flatten = lines.flatten ++ Reply.encodeAll (ops.map opReply) := by
  induction ops generalizing lines with
  | nil => simp [Reply.encodeAll]
  | cons op ops ih =>
    rw [List.foldl_cons,ih,flatten_composeTable,List.append_assoc]
    rfl

/-- What fits into the memory. -/
def Sized (cmd : Bytes) (args : List (Option Bytes)) : Prop :=
  cmd.length < 2^63 ∧ args.length + 1 < 2^63 ∧ ∀ v ∈ args, ∀ s ∈ v, s.length < 2^63

theorem commandReply_spec {args : List (Option Bytes)} (h : Sized cmd args) :
    (commandReply cmd args).Valid ∧ (commandReply cmd args).depth ≤ 2 ∧ (commandReply cmd args).ok = true ∧
      (commandReply cmd args).value = .table (.str (upper cmd) :: args.map fun v => v.elim .null .str) := by
  obtain ⟨hc,hl,ha⟩ := h
  have hcmd : (Reply.bulk (upper cmd)).Valid := by
    rw [Reply.Valid,length_upper]
    exact hc
  have hargs : ∀ v ∈ args, (argumentReply v).Valid ∧ (argumentReply v).depth ≤ 1 ∧ (argumentReply v).ok = true := by
    intro v hv
    cases v with
    | none => exact ⟨trivial,Nat.le_refl 1,rfl⟩
    | some s => exact ⟨ha (some s) hv s rfl,Nat.le_refl 1,rfl⟩
  refine ⟨⟨by simpa using hl,hcmd,allValid_iff.mpr (List.forall_mem_map.mpr fun v hv => (hargs v hv).1)⟩,?_,?_,?_⟩
  · refine Nat.succ_le_succ (max_le (Nat.le_refl 1) (maxDepth_le.mpr (List.forall_mem_map.mpr fun v hv => (hargs v hv).2.1)))
  · exact allOk_iff.mpr (List.forall_mem_cons.mpr ⟨rfl,List.forall_mem_map.mpr fun v hv => (hargs v hv).2.2⟩)
  · rw [commandReply,Reply.value,values_eq,List.map_cons,List.map_map]
    congr 2
    exact List.map_congr_left fun v _ => by cases v <;> rfl

theorem opReply_spec (h : Sized [] (op.map some)) :
    (opReply op).Valid ∧ (opReply op).depth ≤ 2 ∧ (opReply op).ok = true ∧ (opReply op).value = .table (op.map .str) := by
  obtain ⟨_,hl,ha⟩ := h
  have ha := List.forall_mem_map.mp ha
  refine ⟨⟨by rw [List.length_map] at hl ⊢; omega,allValid_iff.mpr (List.forall_mem_map.mpr fun v hv => ha v hv v rfl)⟩,?_,?_,?_⟩
  · exact Nat.succ_le_succ (maxDepth_le.mpr (List.forall_mem_map.mpr fun v _ => Nat.le_refl 1))
  · exact allOk_iff.mpr (List.forall_mem_map.mpr fun v _ => rfl)
  · rw [opReply,Reply.value,values_eq,List.map_map]
    rfl

/-- The replies to the commands of a pipeline, one after the other. -/
theorem pipelineResponses_all (hv : Reply.AllValid l) (hd : Reply.maxDepth l ≤ depth) (rest : Bytes) :
    pipelineResponses depth l.length (Reply.encodeAll l ++ rest) = .ok (l.map fun r => (r.ok,r.value),rest) [] := by
  induction l with
  | nil => rfl
  | cons r l ih =>
    obtain ⟨hr,hl⟩ := hv
    obtain ⟨hdr,hdl⟩ := max_le_iff.mp hd
    rw [encodeAll_cons,List.append_assoc,List.length_cons,pipelineResponses,readResponse_encode hr hdr,Act.bind_ok]
    dsimp only
    rw [ih hl hdl]
    rfl

theorem pipelineLast_all (hv : Reply.AllValid l) (hd : Reply.maxDepth l ≤ depth) (last : Bool × Value) (rest : Bytes) :
    pipelineLast depth l.length last (Reply.encodeAll l ++ rest) = .ok ((l.getLast?.map fun r => (r.ok,r.value)).getD last,rest) [] := by
  induction l generalizing last with
  | nil => rfl
  | cons r l ih =>
    obtain ⟨hr,hl⟩ := hv
    obtain ⟨hdr,hdl⟩ := max_le_iff.mp hd
    rw [encodeAll_cons,List.append_assoc,List.length_cons,pipelineLast,readResponse_encode hr hdr,Act.bind_ok]
    dsimp only
    rw [ih hl hdl,Act.after_nil]
    cases l with
    | nil => rfl
    | cons a l =>
      rw [List.getLast?_cons_cons,List.getLast?_cons]
      rfl

end MyProgram.Redis
