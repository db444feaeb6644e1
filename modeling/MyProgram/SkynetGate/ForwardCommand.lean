import MyProgram.SkynetGate.Commands
import MyProgram.SkynetGate.ConnectionTable

/-! What the forward command reads of a control message: its argument is moved to the
front of the copy, and what it does not cover stays behind it. -/
namespace MyProgram.SkynetGate
open Lib

/-- The fields of a forward command at the start of memory. -/
def forwardFields (tmp : Bytes) : GateM Command := do
  let (tmp,client) ← fieldAt tmp 0
  match client with
  | none => pure .forwardIncomplete
  | some agent => do
    let idstr ← stringAt tmp 0
    let id := atoi idstr
    skynetError (ascii "forward id  = " ++ signedDecimal id)
    let (tmp,client) ← fieldAt tmp agent
    match client with
    | none => pure .forwardIncomplete
    | some client => do
      let agentHandle := UInt32.ofNat (strtoul 16 (← stringAt tmp (agent + 1)))
      skynetError (ascii "forward agent_handle = " ++ decimal agentHandle.toNat)
      let clientHandle := UInt32.ofNat (strtoul 16 (← stringAt tmp (client + 1)))
      skynetError (ascii "forward client_handle = " ++ decimal clientHandle.toNat)
      pure (.forward id agentHandle clientHandle)

/-- A forward command with `n` spaces before its argument. -/
def forwardMsg (n : Nat) (arg : Bytes) : Bytes := ascii "forward" ++ (List.replicate n 32 ++ arg)

/-- The bytes of the copy that the moved argument and its NUL do not cover. -/
def stale (n : Nat) (arg : Bytes) : Bytes := (forwardMsg n arg ++ [0]).drop (arg.length + 1)

/-- The spaces separate the argument from the command. -/
def Separated (n : Nat) (arg : Bytes) : Prop := arg = [] ∨ 0 < n

variable {arg X Y Z rest : Bytes} {n : Nat}

theorem parseForward_eq (tmp : Bytes) (sz i : Nat) : parseForward tmp sz i =
    skynetError (ascii "forward i  = " ++ decimal i) >>= fun _ => forwardFields (parm tmp sz i) := rfl

/-- Where the argument goes. -/
private theorem parm_forward (hs : arg.head? ≠ some 32) :
    parm (forwardMsg n arg ++ [0]) (forwardMsg n arg).length 7 = arg ++ 0 :: stale n arg := by
  have hblank : arg.dropWhile (· = 32) = arg := by
    cases arg with
    | nil => rfl
    | cons b arg => exact List.dropWhile_cons_of_neg (by simpa using hs)
  have harg : (((forwardMsg n arg ++ [0]).take (forwardMsg n arg).length).drop 7).dropWhile (· = 32) = arg := by
    rw [List.take_left]
    change (List.replicate n 32 ++ arg).dropWhile (· = 32) = arg
    rw [List.dropWhile_append_of_pos (by simp),hblank]
  rw [parm,harg,List.append_assoc]
  rfl

private theorem token_forward (h : Separated n arg) : token (forwardMsg n arg) = Keyword.forward.bytes := by
  have hrest : (List.replicate n 32 ++ arg).takeWhile (· ≠ 32) = [] := by
    cases n with
    | zero =>
      obtain rfl := h.resolve_right (Nat.lt_irrefl 0)
      rfl
    | succ n => rfl
  have hall : (ascii "forward").all (· ≠ 32) = true := by decide
  rw [token,forwardMsg,List.takeWhile_append_of_pos (List.all_eq_true.mp hall),hrest,List.append_nil]
  rfl

/-- The command after its log line, as a function of the argument and of what is behind it. -/
private theorem ctrlParse_forward (hs : arg.head? ≠ some 32) (h : Separated n arg) : ctrlParse (forwardMsg n arg) =
    skynetError (ascii "forward i  = 7") >>= fun _ => forwardFields (arg ++ 0 :: stale n arg) := by
  rw [ctrlParse_eq,selected_of_token (token_forward h),Act.bind_ok,Act.after_nil,parseSelected,Keyword.parse,
    parseForward_eq,token_forward h,← parm_forward hs]
  rfl

private theorem fieldAt_last (front : Bytes) (h0 : 0 ∉ X) (hX : 32 ∉ X) (rest : Bytes) :
    fieldAt (front ++ (X ++ 0 :: rest)) front.length = .ok (front ++ (X ++ 0 :: rest),none) [] := by
  rw [fieldAt,strsep_last front h0 hX]
  rfl

private theorem fieldAt_field (front : Bytes) (h0 : 0 ∉ X) (h0' : 0 ∉ Y) (hX : 32 ∉ X) (rest : Bytes) :
    fieldAt (front ++ ((X ++ 32 :: Y) ++ 0 :: rest)) front.length =
      .ok (front ++ (X ++ 0 :: (Y ++ 0 :: rest)),some (front.length + X.length + 1)) [] := by
  rw [fieldAt,strsep_field front h0 h0' hX]
  rfl

private theorem stringAt_behind (front : Bytes) (h0 : 0 ∉ X) (rest : Bytes) :
    stringAt (front ++ (X ++ 0 :: rest)) front.length = .ok X [] := by
  rw [stringAt,cstring_behind front h0]
  rfl

/-- No space: the command is ignored. -/
private theorem forwardFields_none (h0 : 0 ∉ X) (hX : 32 ∉ X) (rest : Bytes) :
    forwardFields (X ++ 0 :: rest) = .ok .forwardIncomplete [] := by
  have hf := fieldAt_last [] h0 hX rest
  rw [forwardFields]
  simp only [List.nil_append,List.length_nil] at hf
  rw [hf]
  rfl

/-- One space: the command is ignored after it has logged the id. -/
private theorem forwardFields_one (h0 : 0 ∉ X) (hX : 32 ∉ X) (h0' : 0 ∉ Y) (hY : 32 ∉ Y) (rest : Bytes) :
    forwardFields ((X ++ 32 :: Y) ++ 0 :: rest) =
      .ok .forwardIncomplete [.error (ascii "forward id  = " ++ signedDecimal (atoi X))] := by
  have hf := fieldAt_field [] h0 h0' hX rest
  have hid := stringAt_behind [] h0 (Y ++ 0 :: rest)
  have hf' := fieldAt_last (X ++ [0]) h0' hY rest
  simp only [List.nil_append,List.length_nil,Nat.zero_add] at hf hid
  simp only [List.append_assoc,List.singleton_append,List.length_append,List.length_singleton] at hf'
  rw [forwardFields,hf,Act.bind_ok,Act.after_nil]
  simp only [hid,hf',Act.bind_ok,Act.after_nil]
  rfl

/-- The text that is read as the agent's handle: the second field without its first byte,
and the third field when the second is empty. -/
def agentText : Bytes → Bytes → Bytes
  | [], third => third
  | _ :: second, _ => second

/-- The last lines of the command, with the text that is read as the client's handle. -/
def clientRead (id : Int) (agent : Bytes) (client : Bytes) : GateM Command :=
  .ok (.forward id (UInt32.ofNat (strtoul 16 agent)) (UInt32.ofNat (strtoul 16 client)))
    [.error (ascii "forward id  = " ++ signedDecimal id),
      .error (ascii "forward agent_handle = " ++ decimal (UInt32.ofNat (strtoul 16 agent)).toNat),
      .error (ascii "forward client_handle = " ++ decimal (UInt32.ofNat (strtoul 16 client)).toNat)]

/-- Two spaces: the client's handle is read one byte behind the start of the third field. -/
private theorem forwardFields_two (hX0 : 0 ∉ X) (hX : 32 ∉ X) (hY0 : 0 ∉ Y) (hY : 32 ∉ Y) (hZ0 : 0 ∉ Z) (rest : Bytes) :
    forwardFields ((X ++ 32 :: (Y ++ 32 :: Z)) ++ 0 :: rest) =
      stringAt (X ++ 0 :: (Y ++ 0 :: (Z ++ 0 :: rest))) (X.length + 1 + Y.length + 1 + 1) >>=
        clientRead (atoi X) (agentText Y Z) := by
  have hYZ : 0 ∉ Y ++ 32 :: Z := by simp [hY0,hZ0]
  have hf := fieldAt_field [] hX0 hYZ hX rest
  have hid := stringAt_behind [] hX0 ((Y ++ 32 :: Z) ++ 0 :: rest)
  have hf' := fieldAt_field (X ++ [0]) hY0 hZ0 hY rest
  have hagent : stringAt (X ++ 0 :: (Y ++ 0 :: (Z ++ 0 :: rest))) (X.length + 1 + 1) = .ok (agentText Y Z) [] := by
    cases Y with
    | nil =>
      have h := stringAt_behind (X ++ [0,0]) hZ0 rest
      simpa [agentText] using h
    | cons y Y =>
      have h := stringAt_behind (X ++ [0,y]) (fun h => hY0 (List.mem_cons_of_mem _ h)) (Z ++ 0 :: rest)
      simpa [agentText] using h
  simp only [List.nil_append,List.length_nil,Nat.zero_add] at hf hid
  simp only [List.append_assoc,List.length_append,List.length_singleton,List.cons_append,List.nil_append] at hf hid hf'
  rw [List.append_assoc,List.cons_append,List.append_assoc,List.cons_append,forwardFields,hf,Act.bind_ok,Act.after_nil]
  simp only [hid,hf',hagent,Act.bind_ok,Act.after_nil,skynetError,Act.emit_eq]
  cases hc : cstring (X ++ 0 :: (Y ++ 0 :: (Z ++ 0 :: rest))) (X.length + 1 + Y.length + 1 + 1) with
  | none =>
    rw [stringAt,hc]
    rfl
  | some c =>
    rw [stringAt,hc]
    rfl

/-- The command has the same effect however many spaces precede its argument. -/
def SameEffect (arg : Bytes) : Prop := ∀ n n', Separated n arg → Separated n' arg → ∀ answers g source,
  ctrl answers g (forwardMsg n arg) source = ctrl answers g (forwardMsg n' arg) source

/-- Nothing behind the NUL of the moved argument is read: the command does the same
whatever is there, also when the memory ends there. -/
def ReadsArgumentOnly (arg : Bytes) : Prop := ∃ c fx, ∀ rest, forwardFields (arg ++ 0 :: rest) = .ok c fx

/-- Two fields with a space behind each of them, and no third. -/
def EndsBehindAgent (arg : Bytes) : Prop := ∃ X Y, 32 ∉ X ∧ 32 ∉ Y ∧ arg = X ++ 32 :: (Y ++ [32])

/-- The argument with the handles written as `a` and `c`. -/
def forwardText (fd : Int) (a c : Bytes) : Bytes := signedDecimal fd ++ 32 :: ((58 :: a) ++ 32 :: (58 :: c))

/-- How many fields an argument has. -/
private theorem fields_cases (arg : Bytes) : 32 ∉ arg ∨ (∃ X Y, 32 ∉ X ∧ 32 ∉ Y ∧ arg = X ++ 32 :: Y) ∨
    ∃ X Y Z, 32 ∉ X ∧ 32 ∉ Y ∧ arg = X ++ 32 :: (Y ++ 32 :: Z) := by
  by_cases h : 32 ∈ arg
  · obtain ⟨X,R,rfl,hX⟩ := List.eq_append_cons_of_mem h
    by_cases h' : 32 ∈ R
    · obtain ⟨Y,Z,rfl,hY⟩ := List.eq_append_cons_of_mem h'
      exact .inr (.inr ⟨X,Y,Z,hX,hY,rfl⟩)
    · exact .inr (.inl ⟨X,R,hX,h',rfl⟩)
  · exact .inl h

/-- A third field is read without its first byte. -/
private theorem forwardFields_three {z : UInt8} (hX : 32 ∉ X) (hY : 32 ∉ Y) (h0 : 0 ∉ X ++ 32 :: (Y ++ 32 :: z :: Z)) (rest : Bytes) :
    forwardFields ((X ++ 32 :: (Y ++ 32 :: z :: Z)) ++ 0 :: rest) = clientRead (atoi X) (agentText Y (z :: Z)) Z := by
  simp only [List.mem_append,List.mem_cons,not_or] at h0
  obtain ⟨hX0,_,hY0,_,hz,hZ0⟩ := h0
  have hclient := stringAt_behind (X ++ 0 :: (Y ++ [0,z])) hZ0 rest
  rw [forwardFields_two hX0 hX hY0 hY (by simp [hz,hZ0])]
  have hpos : (X ++ 0 :: (Y ++ [0,z])).length = X.length + 1 + Y.length + 1 + 1 := by
    simp only [List.length_append,List.length_cons,List.length_nil]
    omega
  rw [hpos] at hclient
  simp only [List.append_assoc,List.cons_append,List.nil_append] at hclient ⊢
  rw [hclient,Act.bind_ok,Act.after_nil]

private theorem readsArgumentOnly (h0 : 0 ∉ arg) (h : ¬EndsBehindAgent arg) : ReadsArgumentOnly arg := by
  rcases fields_cases arg with hX | ⟨X,Y,hX,hY,rfl⟩ | ⟨X,Y,Z,hX,hY,rfl⟩
  · exact ⟨_,_,forwardFields_none h0 hX⟩
  · simp only [List.mem_append,List.mem_cons,not_or] at h0
    exact ⟨_,_,forwardFields_one h0.1 hX h0.2.2 hY⟩
  · cases Z with
    | nil => exact absurd ⟨X,Y,hX,hY,rfl⟩ h
    | cons z Z => exact ⟨_,_,forwardFields_three hX hY h0⟩

/-- Without a third field the byte behind the NUL is read. -/
private theorem not_readsArgumentOnly (h0 : 0 ∉ arg) (h : EndsBehindAgent arg) : ¬ReadsArgumentOnly arg := by
  obtain ⟨X,Y,hX,hY,rfl⟩ := h
  rintro ⟨c,fx,he⟩
  simp only [List.mem_append,List.mem_cons,not_or] at h0
  have hend := he []
  rw [forwardFields_two h0.1 hX h0.2.2.1 hY (by simp),stringAt,cstring,List.drop_eq_nil_of_le] at hend
  · cases hend
  · simp only [List.length_append,List.length_cons,List.length_nil]
    omega

/-- The forward command depends on its argument alone if and only if the argument does not
end behind its second space; a complete argument is read as written. -/
theorem forward_reads_argument_iff (arg : Bytes) (h0 : 0 ∉ arg) (hs : arg.head? ≠ some 32) :
    (∀ n, Separated n arg → ctrlParse (forwardMsg n arg) =
      skynetError (ascii "forward i  = 7") >>= fun _ => forwardFields (arg ++ 0 :: stale n arg)) ∧
    (SameEffect arg ∧ ReadsArgumentOnly arg ↔ ¬EndsBehindAgent arg) ∧
    ∀ (fd : Int) (agent client : UInt32) (a c : Bytes), -2^31 ≤ fd → fd < 2^31 → Numeral 16 a agent.toNat →
      Numeral 16 c client.toNat → arg = forwardText fd a c →
      ∀ n, Separated n arg → ∃ fx, ctrlParse (forwardMsg n arg) = .ok (.forward fd agent client) fx := by
  refine ⟨fun n hn => ctrlParse_forward hs hn,⟨fun h hend => not_readsArgumentOnly h0 hend h.2,fun h => ?_⟩,?_⟩
  · obtain ⟨c,fx,he⟩ := readsArgumentOnly h0 h
    refine ⟨fun n n' hn hn' answers g source => ?_,c,fx,he⟩
    rw [ctrl,ctrl,ctrlParse_forward hs hn,ctrlParse_forward hs hn',he,he]
  · rintro fd agent client a c hl hu ha hc rfl n hn
    have hblank (l : Bytes) (h33 : ∀ b ∈ l, 33 ≤ b.toNat) : 32 ∉ l := fun hb => absurd (h33 32 hb) (by decide)
    have hfd : 32 ∉ signedDecimal fd := hblank _ fun b hb => mem_signedDecimal hb
    have hagent : 32 ∉ 58 :: a := by
      apply hblank
      intro b hb
      rcases List.mem_cons.mp hb with rfl | hb
      · decide
      · exact Nat.le_trans (by decide) (ha.le_toNat hb)
    have hread : forwardFields (forwardText fd a c ++ 0 :: stale n (forwardText fd a c)) = clientRead (atoi (signedDecimal fd)) a c :=
      forwardFields_three hfd hagent h0 _
    have hlt (v : UInt32) : v.toNat < 2^64 := Nat.lt_trans v.toNat_lt (by decide)
    rw [ctrlParse_forward hs hn,hread,clientRead,atoi_signedDecimal hl hu,strtoul_numeral ha (hlt agent),
      strtoul_numeral hc (hlt client),UInt32.ofNat_toNat,UInt32.ofNat_toNat]
    exact ⟨_,rfl⟩

/-- The command that the agent of a player sends. -/
theorem forward_reads_argument_handles : ∃ fx,
    ctrlParse (ascii "forward  16 :c800001f :0") = .ok (.forward 16 0xc800001f 0) fx := by
  have htext : forwardText 16 (hexadecimal 0xc800001f) (hexadecimal 0) = ascii "16 :c800001f :0" := by decide
  have hread := (forward_reads_argument_iff (ascii "16 :c800001f :0") (by decide) (by decide)).2.2
    16 0xc800001f 0 _ _ (by decide) (by decide) (numeral_hexadecimal 0xc800001f) (numeral_hexadecimal 0) htext.symm
  exact hread 2 (.inr (by decide))

/-- With one space the rest of the old message behind the NUL is ` :abcd `, with two it
is the whole argument: the client's handle is 0 or 4. -/
theorem forward_reads_stale_bytes : ∃ g₀ tr g g₁ g₂ fx₁ fx₂, Started twoOnline (ascii "127.0.0.1:8888 9") g₀ ∧
    Run gateStep (fun _ g x => Fresh g x) g₀ tr g ∧ tr.map (·.1) = [event (.accept 7 4 [])] ∧
    ctrl ⟨-1,-1,0⟩ g (ascii "forward 4 :abcd ") 1 = .ok g₁ fx₁ ∧ g₁.conn.map Connection.client = [0,0] ∧
    ctrl ⟨-1,-1,0⟩ g (ascii "forward  4 :abcd ") 1 = .ok g₂ fx₂ ∧ g₂.conn.map Connection.client = [4,0] ∧
    ¬SameEffect (ascii "4 :abcd ") := by
  obtain ⟨g₀,code,fx,tr,g,hi,hr,hm,hp⟩ := gateRun_of_start (fun _ _ g x => Fresh g x)
    (fun _ _ (g : Gate) =>
      (ctrl ⟨-1,-1,0⟩ g (ascii "forward 4 :abcd ") 1).holds (fun g' _ => g'.conn.map Connection.client = [0,0]) = true ∧
      (ctrl ⟨-1,-1,0⟩ g (ascii "forward  4 :abcd ") 1).holds (fun g' _ => g'.conn.map Connection.client = [4,0]) = true)
    twoOnline (ascii "127.0.0.1:8888 9") [event (.accept 7 4 [])] (by decide)
  obtain ⟨g₁,fx₁,he₁,hc₁⟩ := Act.exists_of_holds hp.1
  obtain ⟨g₂,fx₂,he₂,hc₂⟩ := Act.exists_of_holds hp.2
  have hc₁ := of_decide_eq_true hc₁
  have hc₂ := of_decide_eq_true hc₂
  refine ⟨g₀,tr,g,g₁,g₂,fx₁,fx₂,⟨code,fx,hi⟩,hr,hm,he₁,hc₁,he₂,hc₂,fun h => ?_⟩
  have hsame := h 1 2 (.inr (by decide)) (.inr (by decide)) ⟨-1,-1,0⟩ g 1
  change ctrl ⟨-1,-1,0⟩ g (ascii "forward 4 :abcd ") 1 = ctrl ⟨-1,-1,0⟩ g (ascii "forward  4 :abcd ") 1 at hsame
  rw [he₁,he₂] at hsame
  cases hsame
  rw [hc₁] at hc₂
  cases hc₂

end MyProgram.SkynetGate
