import MyProgram.SkynetGate.Hashid
import MyProgram.SkynetGate.Databuffer
import MyProgram.SkynetGate.Control

/-! Which effects the parts of the gate can have at all, whatever state they are
called in. -/
namespace MyProgram.SkynetGate
open Lib

/-- The computation has no effects. -/
abbrev Silent {α : Type} (x : GateM α) : Prop := x.Ensures (fun _ => False) (fun _ => True)

/-- The computation only writes log lines. -/
abbrev Logs {α : Type} (x : GateM α) : Prop := x.Ensures (fun e => ∃ text, e = .error text) (fun _ => True)

/-- The computation only frees chunks. -/
abbrev Frees {α : Type} (Q : α → Prop) (x : GateM α) : Prop := x.Ensures (fun e => ∃ b, e = .free b) Q

theorem silent_lookup (hi : Hashid) (id : Int) : Silent (hashidLookup hi id) := by
  have hloop (fuel : Nat) (c : Option Nat) : Silent (lookupLoop hi id fuel c) := by
    fun_induction lookupLoop hi id fuel c with
    | case1 => exact .pure trivial
    | case2 => exact .fail _ _
    | case3 fuel c ih => exact .bind (.read _ _ _) fun n _ => .ite (.pure trivial) (ih n)
  exact .bind (.read _ _ _) fun _ _ => hloop _ _

theorem silent_remove (hi : Hashid) (id : Int) : Silent (hashidRemove hi id) := by
  have hnode (i : Int) : Silent (hi.node i) := .read _ _ _
  have hloop (fuel c : Nat) : Silent (removeLoop hi id fuel c) := by
    induction fuel generalizing c with
    | zero => exact .fail _ _
    | succ fuel ih =>
      refine .bind (hnode c) fun n _ => ?_
      split
      · exact .pure trivial
      · exact .bind (hnode _) fun _ _ => .ite (.pure trivial) (ih _)
  refine .bind (.read _ _ _) fun first _ => ?_
  split
  · exact .pure trivial
  · refine .bind (hnode _) fun _ _ => .ite (.pure trivial) (.bind (hloop _ _) fun r _ => ?_)
    split
    · exact .pure trivial
    · exact .bind (hnode _) fun _ _ => .bind (hnode _) fun _ _ => .pure trivial

theorem silent_insert (hi : Hashid) (id : Int) : Silent (hashidInsert hi id) := by
  have hnode (i : Int) : Silent (hi.node i) := .read _ _ _
  have hloop (i left : Nat) : Silent (insertLoop hi id i left) := by
    induction left generalizing i with
    | zero => exact .pure trivial
    | succ left ih => exact .bind (hnode _) fun _ _ => .ite (.pure trivial) (ih _)
  refine .bind (hloop _ _) fun c _ => ?_
  split
  · exact .fail _ _
  · exact .bind (hnode _) fun _ _ => .ite (.fail _ _) (.bind (.read _ _ _) fun _ _ => .pure trivial)

private theorem logs_error (text : Bytes) : Logs (skynetError text) := .emit ⟨text,rfl⟩

private theorem logs_stringAt (mem : Bytes) (p : Nat) : Logs (stringAt mem p) := by
  unfold stringAt
  split
  · exact .pure trivial
  · exact .fail _ _

private theorem logs_fieldAt (mem : Bytes) (p : Nat) : Logs (fieldAt mem p) := by
  unfold fieldAt
  split
  · exact .pure trivial
  · exact .fail _ _

private theorem logs_memcmpZero (i : Nat) (command keyword : Bytes) : Logs (memcmpZero i command keyword) := by
  fun_induction memcmpZero i command keyword with
  | case1 => exact .pure trivial
  | case2 i command b keyword ih => exact ih
  | case3 => exact .pure trivial
  | case4 => exact .fail _ _

private theorem logs_parseForward (tmp : Bytes) (sz i : Nat) : Logs (parseForward tmp sz i) := by
  refine .bind (logs_error _) fun _ _ => .bind (logs_fieldAt _ _) fun ⟨tmp,client⟩ _ => ?_
  cases client with
  | none => exact .pure trivial
  | some agent =>
    refine .bind (logs_stringAt _ _) fun _ _ => .bind (logs_error _) fun _ _ =>
      .bind (logs_fieldAt _ _) fun ⟨tmp,client⟩ _ => ?_
    cases client with
    | none => exact .pure trivial
    | some client =>
      exact .bind (logs_stringAt _ _) fun _ _ => .bind (logs_error _) fun _ _ => .bind (logs_stringAt _ _) fun _ _ =>
        .bind (logs_error _) fun _ _ => .pure trivial

private theorem logs_copyWord (tmp : Bytes) (p limit : Nat) : Logs (copyWord tmp p limit) :=
  .bind (logs_stringAt _ _) fun _ _ => .ite (.pure trivial) (.fail _ _)

/-- Reading a control message has no effect but log lines. -/
theorem logs_ctrlParse (msg : Bytes) : Logs (ctrlParse msg) := by
  have hkey (i : Nat) (keyword : String) {α : Type} {x y : GateM α} (hx : Logs x) (hy : Logs y) :
      Logs (isCommand (msg ++ [0]) i keyword >>= fun b => if b then x else y) :=
    .bind (logs_memcmpZero _ _ _) fun _ _ => .ite hx hy
  have harg {α : Type} (mem : Bytes) (f : Bytes → α) : Logs (stringAt mem 0 >>= fun s => pure (f s)) :=
    .bind (logs_stringAt _ _) fun _ _ => .pure trivial
  refine .ite (.pure trivial) (hkey _ _ (harg _ _) (hkey _ _ (logs_parseForward _ _ _) (hkey _ _ (harg _ _)
    (hkey _ _ (harg _ _) (hkey _ _ (.pure trivial) (hkey _ _ ?_ (hkey _ _ (.pure trivial) ?_)))))))
  · exact .bind (logs_copyWord _ _ _) fun _ _ => .bind (logs_copyWord _ _ _) fun _ _ => .pure trivial
  · exact .bind (logs_stringAt _ _) fun _ _ => .bind (logs_error _) fun _ _ => .pure trivial

private theorem frees_skynetFree (b : Option Buffer) : Frees (fun _ => True) (skynetFree b) := by
  cases b with
  | none => exact .pure trivial
  | some b => exact .emit ⟨b,rfl⟩

/-- Returning a node frees its chunk and keeps the blocks. -/
theorem frees_returnMessage (db : Databuffer) (mp : Messagepool) :
    Frees (fun r => r.2.pool = mp.pool) (returnMessage db mp) := by
  have hjoin (x : GateM Databuffer) (hx : Silent x) (b : Option Buffer) (mp' : Messagepool) (hp : mp'.pool = mp.pool) :
      Frees (fun r => r.2.pool = mp.pool) (x >>= fun db => skynetFree b >>= fun _ => pure (db,mp')) := by
    apply Act.Ensures.bind (hx.mono (fun _ h => h.elim) fun _ h => h)
    intro db _
    exact .bind (frees_skynetFree b) fun _ _ => .pure hp
  rw [returnMessage]
  split
  · exact .fail _ _
  · dsimp only
    split
    · split
      · exact hjoin _ (.pure trivial) _ _ rfl
      · exact hjoin _ (.fail _ _) _ _ rfl
    · exact hjoin _ (.pure trivial) _ _ rfl

private theorem frees_copyFrom (b : Option Buffer) (offset n : Int) : Frees (fun _ => True) (copyFrom b offset n) := by
  unfold copyFrom
  split
  · exact .fail _ _
  · exact .ite (.pure trivial) (.fail _ _)

private theorem frees_readLoop (fuel : Nat) (db : Databuffer) (mp : Messagepool) (sz : Int) :
    Frees (fun r => r.2.1.pool = mp.pool) (readLoop fuel db mp sz) := by
  induction fuel generalizing db mp sz with
  | zero => exact .fail _ _
  | succ fuel ih =>
    rw [readLoop]
    split
    · exact .fail _ _
    · dsimp only
      split
      · exact .bind (frees_copyFrom _ _ _) fun _ _ => .pure rfl
      · split
        · exact .bind (frees_copyFrom _ _ _) fun _ _ => .bind (frees_returnMessage _ mp) fun _ hr => .pure hr
        · apply Act.Ensures.bind (frees_copyFrom _ _ _)
          intro _ _
          apply Act.Ensures.bind (frees_returnMessage _ mp)
          intro r hr
          apply Act.Ensures.bind (ih _ r.2 _)
          intro r' hr'
          exact .pure (hr'.trans hr)

theorem frees_databufferRead (db : Databuffer) (mp : Messagepool) (sz : Int) :
    Frees (fun r => r.2.1.pool = mp.pool) (databufferRead db mp sz) := .ite (.fail _ _) (frees_readLoop _ _ mp _)

private theorem frees_clearLoop (fuel : Nat) (db : Databuffer) (mp : Messagepool) :
    Frees (fun mp' => mp'.pool = mp.pool) (clearLoop fuel db mp) := by
  induction fuel generalizing db mp with
  | zero => exact .fail _ _
  | succ fuel ih =>
    rw [clearLoop]
    split
    · exact .pure rfl
    · apply Act.Ensures.bind (frees_returnMessage db mp)
      intro r hr
      exact (ih r.1 r.2).mono (fun _ h => h) fun _ h => h.trans hr

theorem frees_databufferClear (db : Databuffer) (mp : Messagepool) :
    Frees (fun r => r.2.pool = mp.pool) (databufferClear db mp) :=
  .bind (frees_clearLoop _ db mp) fun _ hr => .pure hr

/-- A push allocates a block when the free list is empty. -/
theorem silent_databufferPush (db : Databuffer) (mp : Messagepool) (data : Buffer) :
    (databufferPush db mp data).Ensures (fun _ => False) fun r => r.2.pool = mp.pool ∨ r.2.pool = mp.nodes :: mp.pool := by
  have htake : (takeMessage mp).2.pool = mp.pool ∨ (takeMessage mp).2.pool = mp.nodes :: mp.pool := by
    unfold takeMessage
    split
    · exact .inl rfl
    · exact .inr rfl
  rw [databufferPush]
  dsimp only
  split
  · exact .ite (.pure htake) (.fail _ _)
  · split
    · exact .fail _ _
    · exact .pure htake

private theorem silent_headerValue (plen : Bytes) (headerSize : Int) : Silent (headerValue plen headerSize) := by
  have hbyte (i : Int) : Silent (Act.read .databuffer plen i) := .read _ _ _
  apply Act.Ensures.bind (hbyte 0)
  intro _ _
  apply Act.Ensures.bind (hbyte 1)
  intro _ _
  exact .ite (.pure trivial) (.bind (hbyte 2) fun _ _ => .bind (hbyte 3) fun _ _ => .pure trivial)

theorem frees_databufferReadheader (db : Databuffer) (mp : Messagepool) (headerSize : Int) :
    Frees (fun _ => True) (databufferReadheader db mp headerSize) := by
  refine .ite (.ite (.pure trivial) ?_) (.pure trivial)
  apply Act.Ensures.bind (frees_databufferRead _ _ _)
  intro r _
  apply Act.Ensures.bind ((silent_headerValue r.2.2 headerSize).mono (fun _ h => h.elim) fun _ h => h)
  intro _ _
  exact .pure trivial

end MyProgram.SkynetGate
