import MyProgram.Protobuf.Module

/-! When a reloaded schema behaves as if it had been loaded first. -/
namespace MyProgram.Protobuf
open Lib
variable {L : CLib}

/-- A function for a field that can be called. -/
def callable (table : Nat → Bytes → Option Access) (env : L.Env) (k : Bytes × Scalar) : Except LuaError Access :=
  if k.2 = .str (ascii "_CType") then .error .call
  else typeEntry table env k >>= Prog.orError .call

/-- What a message that a reader made stores for a field. -/
def fieldEntry (env : L.Env) (k : Inst L × Scalar) : Except LuaError (Option (Value L)) :=
  callable reader env (k.1.ctype,k.2) >>= fun a => a.read k.1 k.2

/-- What `default_table` stores for a type. -/
def defaultEntry (env : L.Env) (typename : Bytes) : Except LuaError (Option (Inst L)) :=
  match L.rmessageNew env typename [] with
  | some obj => .ok (some ⟨obj,typename,[]⟩)
  | none => .error (.assertion (.str (ascii "assertion failed!")))

/-- Every entry of the memo tables is what the environment gives. -/
structure Current (env : L.Env) (w : World L) : Prop where
  encodeTypes : Memo.Answers w.encodeTypeCache (typeEntry writer env)
  decodeTypes : Memo.Answers w.decodeTypeCache (typeEntry reader env)
  patterns : Memo.Answers w.patternCache (patternCreate env)
  defaults : Memo.Answers w.defaultCache (defaultEntry env)
  fields : Memo.Answers w.instFields (fieldEntry env)

/-- The environment and the tables of the application. -/
def view : View (World L) (L.Env × List (Table L)) := ⟨fun w => (w.P,w.heap),fun w => Current w.P w⟩

private theorem keeps_encodeTypes : (view (L := L)).Keeps encodeTypes fun k v => typeEntry writer v.1 k where
  sound _ hw := hw.encodeTypes
  add _ _ _ hw h := ⟨rfl,hw.encodeTypes.cons h,hw.decodeTypes,hw.patterns,hw.defaults,hw.fields⟩

private theorem keeps_decodeTypes : (view (L := L)).Keeps decodeTypes fun k v => typeEntry reader v.1 k where
  sound _ hw := hw.decodeTypes
  add _ _ _ hw h := ⟨rfl,hw.encodeTypes,hw.decodeTypes.cons h,hw.patterns,hw.defaults,hw.fields⟩

private theorem keeps_patterns : (view (L := L)).Keeps patterns fun k v => patternCreate v.1 k where
  sound _ hw := hw.patterns
  add _ _ _ hw h := ⟨rfl,hw.encodeTypes,hw.decodeTypes,hw.patterns.cons h,hw.defaults,hw.fields⟩

private theorem keeps_defaults : (view (L := L)).Keeps defaults fun k v => defaultEntry v.1 k where
  sound _ hw := hw.defaults
  add _ _ _ hw h := ⟨rfl,hw.encodeTypes,hw.decodeTypes,hw.patterns,hw.defaults.cons h,hw.fields⟩

private theorem keeps_fieldsRead : (view (L := L)).Keeps fieldsRead fun k v => fieldEntry v.1 k where
  sound _ hw := hw.fields
  add _ _ _ hw h := ⟨rfl,hw.encodeTypes,hw.decodeTypes,hw.patterns,hw.defaults,hw.fields.cons h⟩

/-! The memo tables. -/

private theorem assert_transparent {α : Type} (e : LuaError) (o : Option α) : view.Transparent (Prog.assert e o : Lua L α) :=
  .read (fun _ => Prog.orError e o) fun _ => rfl

private theorem typeField_refines {cache : Memo (World L) (Bytes × Scalar) Access} {table : Nat → Bytes → Option Access}
    (hk : view.Keeps cache fun k v => typeEntry table v.1 k) (ctype : Bytes) (key : Scalar) :
    view.Refines (typeField cache table ctype key) (Prog.read fun v => callable table v.1 (ctype,key)) := by
  unfold typeField callable
  split
  · exact .throw _
  · rw [← Prog.read_bind]
    exact (View.Refines.fetch hk (.read fun _ => rfl)).bind fun _ => .read fun _ => rfl

/-- Messages that readers made, with the fields that they have stored. -/
private theorem index_inst (i : Inst L) (key : Scalar) : view.Transparent (i.index key) := by
  unfold Inst.index
  split
  · exact .pure _
  · refine .bind ⟨_,.fetch keeps_fieldsRead ?_⟩ fun _ => .pure _
    rw [show (fun v : L.Env × List (Table L) => fieldEntry v.1 (i,key)) =
      fun v => callable reader v.1 (i.ctype,key) >>= fun a => a.read i key from rfl,← Prog.read_bind]
    exact (typeField_refines keeps_decodeTypes _ _).bind fun _ => .read fun _ => rfl

/-- The garbage collector is not seen. -/
private theorem gc_refines (f : World L → Gc L) : view.Refines (Prog.modify fun w => { w with gc := f w } : Lua L Unit) (pure ()) :=
  fun _ hw => ⟨rfl,rfl,hw.encodeTypes,hw.decodeTypes,hw.patterns,hw.defaults,hw.fields⟩

private theorem defaultTable_transparent (typename : Bytes) : view.Transparent (defaultTable (L := L) typename) := by
  unfold defaultTable
  refine .bind ⟨_,.fetch keeps_defaults ?_⟩ fun i => ?_
  · have hentry : (Prog.read fun v : L.Env × List (Table L) => defaultEntry v.1 typename) = (do
        let obj ← Prog.read fun v => .ok (L.rmessageNew v.1 typename [])
        let obj ← Prog.assert (.assertion (.str (ascii "assertion failed!"))) obj
        pure ()
        pure (some ⟨obj,typename,[]⟩)) := by
      funext v
      rw [Prog.read,defaultEntry,Prog.bind_eq,Prog.read]
      cases L.rmessageNew v.1 typename [] with
      | some obj => rfl
      | none => rfl
    rw [hentry]
    exact .bind (.read fun _ => rfl) fun obj => .bind (.read fun _ => rfl) fun obj => .bind (gc_refines _) fun _ => .pure _
  · exact assert_transparent _ _

private theorem patternOf_transparent (pattern : Bytes) : view.Transparent (patternOf (L := L) pattern) := by
  unfold patternOf
  refine .bind ⟨_,.fetch keeps_patterns ?_⟩ fun i => ?_
  · have hentry : (Prog.read fun v : L.Env × List (Table L) => patternCreate v.1 pattern) =
        Prog.read (fun v => patternCreate v.1 pattern) >>= fun pat => pure () >>= fun _ => pure pat := by
      funext v
      rw [Prog.bind_eq,Prog.read]
      cases patternCreate v.1 pattern with
      | ok p => rfl
      | error e => rfl
    rw [hentry]
    exact .bind (.read fun _ => rfl) fun pat => .bind (gc_refines _) fun _ => .pure pat
  · exact assert_transparent _ _

/-! The tables of the application. -/

private theorem of_heap {α : Type} {m : Lua L α} (r : L.Env → List (Table L) → Except LuaError α)
    (h : List (Table L) → List (Table L)) (hm : ∀ w, m w = (r w.P w.heap,{ w with heap := h w.heap })) : view.Transparent m := by
  refine ⟨fun v => (r v.1 v.2,v.1,h v.2),fun w hw => ?_⟩
  rw [hm]
  exact ⟨rfl,rfl,hw.encodeTypes,hw.decodeTypes,hw.patterns,hw.defaults,hw.fields⟩

private theorem alloc_transparent (t : Table L) : view.Transparent (alloc t) :=
  of_heap (fun _ heap => .ok heap.length) (· ++ [t]) fun _ => rfl

private theorem tableAt_transparent (id : Nat) : view.Transparent (tableAt (L := L) id) :=
  .read (fun v => v.2[id]?.elim (.error .index) .ok) fun w => by
    change _ = w.heap[id]?.elim _ _
    cases w.heap[id]? <;> rfl

private theorem rawset_transparent (id : Nat) (key : Scalar) (v : Value L) : view.Transparent (rawset id key v) :=
  of_heap (fun _ _ => .ok ()) _ fun _ => rfl

private theorem setmetatable_transparent (id : Nat) (m : Meta L) : view.Transparent (setmetatable id m) :=
  of_heap (fun _ _ => .ok ()) _ fun _ => rfl

private theorem lib_transparent {α : Type} (x : Except Scalar α) : view.Transparent (lib x : Lua L α) := .read (fun _ => raise x) fun _ => rfl

private theorem storeItem_transparent (item : Item) : view.Transparent (storeItem (L := L) item) := by
  cases item with
  | scalar v => exact .pure _
  | message typename buffer => exact (alloc_transparent _).bind fun _ => .pure _

private theorem storeField_transparent (f : Field) : view.Transparent (storeField (L := L) f) := by
  cases f with
  | single item => exact storeItem_transparent item
  | repeated items =>
    refine (View.Transparent.foldlM (fun _ item => ?_) items []).bind fun _ => (alloc_transparent _).bind fun _ => .pure _
    exact (storeItem_transparent item).bind fun _ => .pure _

private theorem storeFields_transparent (fields : List Field) : view.Transparent (storeFields (L := L) fields) :=
  .foldlM (fun _ f => (storeField_transparent f).bind fun _ => .pure _) fields []

private theorem decodeInto_transparent (id : Nat) (typename buffer : Bytes) (length : Option Nat) :
    view.Transparent (decodeInto (L := L) id typename buffer length) := by
  refine .bind (.read (fun v => .ok (L.decode v.1 typename buffer length)) fun _ => rfl) fun out => .bind (.foldlM (fun _ f => ?_) _ _) fun _ => ?_
  · exact (storeField_transparent f.2).bind fun _ => rawset_transparent _ _ _
  · exact lib_transparent _

private theorem expand_transparent (id : Nat) : view.Transparent (expand (L := L) id) := by
  refine (tableAt_transparent id).bind fun t => (rawset_transparent _ _ _).bind fun _ => (rawset_transparent _ _ _).bind fun _ => ?_
  split
  · refine (decodeInto_transparent _ _ _ _).bind fun ok => ?_
    split
    · exact (defaultTable_transparent _).bind fun _ => setmetatable_transparent _ _
    · exact .throw _
  · exact .throw _

private theorem sharedIndex_transparent (t : Shared L) (key : Scalar) : view.Transparent (t.index key) := by
  cases t with
  | inst i => exact index_inst i key
  | scalars l => exact .pure _
  | insts l => exact .pure _

private theorem defaultIndex_transparent (id : Nat) (i : Inst L) (key : Scalar) : view.Transparent (defaultIndex id i key) := by
  refine (index_inst i key).bind fun v => ?_
  split
  · exact (alloc_transparent _).bind fun _ => (rawset_transparent _ _ _).bind fun _ => .pure _
  · exact .pure _

private theorem indexExpanded_transparent (id : Nat) (key : Scalar) : view.Transparent (indexExpanded (L := L) id key) := by
  refine (tableAt_transparent id).bind fun t => ?_
  split
  · exact .pure _
  · exact defaultIndex_transparent _ _ _
  · exact .pure _

private theorem index_transparent (v : Value L) (key : Scalar) : view.Transparent (index v key) := by
  cases v with
  | scalar v => exact .throw _
  | shared t => exact sharedIndex_transparent t key
  | table id =>
    refine (tableAt_transparent id).bind fun t => ?_
    split
    · exact .pure _
    · exact .pure _
    · exact sharedIndex_transparent _ _
    · exact defaultIndex_transparent _ _ _
    · exact (expand_transparent id).bind fun _ => indexExpanded_transparent _ _

/-! The four functions. -/

private theorem decode_transparent (typename buffer : Bytes) (length : Option Nat) :
    view.Transparent (decode (L := L) typename buffer length) := by
  refine (alloc_transparent _).bind fun id => (decodeInto_transparent _ _ _ _).bind fun ok => ?_
  split
  · exact (defaultTable_transparent _).bind fun _ => (setmetatable_transparent _ _).bind fun _ => .pure _
  · exact .bind (.read (fun v => .ok (L.lastError v.1)) fun _ => rfl) fun _ => .pure _

private theorem pairs_transparent (v : Value L) : view.Transparent (pairs v) := by
  unfold pairs
  split
  · exact .throw _
  · exact .throw _
  · exact .pure _
  · exact .pure _
  · refine (tableAt_transparent _).bind fun t => ?_
    split
    · exact (expand_transparent _).bind fun _ => (tableAt_transparent _).bind fun _ => .pure _
    · exact .pure _

private theorem ipairsNext_transparent (v : Value L) (n : Nat) : view.Transparent (ipairsNext v n) := by
  unfold ipairsNext
  split
  · exact .pure _
  · exact index_transparent _ _

private theorem writeValue_transparent {encode : Encoder L} (he : ∀ m h type v, view.Transparent (encode m h type v))
    (kind : Kind) (m : L.WMessage) (h : Nat) (key : Scalar) (v : Value L) : view.Transparent (writeValue encode kind m h key v) := by
  have hv : view.Transparent (Prog.read fun _ => v.toScalar : Lua L Scalar) := .read (fun _ => v.toScalar) fun _ => rfl
  cases kind with
  | int => exact hv.bind fun _ => lib_transparent _
  | real => exact hv.bind fun _ => lib_transparent _
  | string => exact hv.bind fun _ => lib_transparent _
  | bool => exact lib_transparent _
  | message type => exact (lib_transparent _).bind fun _ => he _ _ _ _

private theorem writeLoop_transparent {encode : Encoder L} (he : ∀ m h type v, view.Transparent (encode m h type v))
    (kind : Kind) (h : Nat) (key : Scalar) (v : Value L) (fuel n : Nat) (m : L.WMessage) :
    view.Transparent (writeLoop encode kind h key v fuel n m) := by
  induction fuel generalizing n m with
  | zero => exact .throw _
  | succ fuel ih =>
    refine (ipairsNext_transparent v n).bind fun x => ?_
    split
    · exact .pure _
    · exact (writeValue_transparent he _ _ _ _ _).bind fun m => ih _ _

private theorem encodeMessage_transparent (fuel : Nat) (m : L.WMessage) (h : Nat) (messageType : Bytes) (t : Value L) :
    view.Transparent (encodeMessage fuel m h messageType t) := by
  induction fuel generalizing m h messageType t with
  | zero => exact .throw _
  | succ fuel ih =>
    refine (pairs_transparent t).bind fun entries => .foldlM (fun m e => ?_) _ _
    refine .bind ⟨_,typeField_refines keeps_encodeTypes _ _⟩ fun a => ?_
    split
    · exact writeLoop_transparent ih _ _ _ _ _ _ _
    · exact writeValue_transparent ih _ _ _ _ _

private theorem encode_transparent (fuel : Nat) (message : Bytes) (t : Value L)
    (func : Option (Bytes → Except LuaError (List Scalar))) : view.Transparent (encode fuel message t func) := by
  refine .bind (.read (fun v => .ok (L.wmessageNew v.1 message)) fun _ => rfl) fun encoder =>
    (assert_transparent _ _).bind fun encoder => (encodeMessage_transparent _ _ _ _ _).bind fun m => ?_
  split
  · rename_i f
    exact .bind (.read (fun _ => f (L.wmessageBuffer m)) fun _ => rfl) fun _ => .pure _
  · exact .pure _

private theorem argOf_transparent (v : Value L) : view.Transparent (argOf v) := by
  unfold argOf
  split
  · exact .pure _
  · exact .pure _
  · exact .pure _
  · exact .pure _
  · exact (tableAt_transparent _).bind fun _ => .pure _

private theorem runCall_transparent (fuel : Nat) (c : Call L) : view.Transparent (runCall fuel c) := by
  cases c with
  | encode message t func => exact encode_transparent _ _ _ _
  | decode typename buffer length => exact decode_transparent _ _ _
  | pack pattern args =>
    refine (patternOf_transparent pattern).bind fun pat => .bind (.foldlM (fun _ v => ?_) _ _) fun args => ?_
    · exact (argOf_transparent v).bind fun _ => .pure _
    · exact (lib_transparent _).bind fun out => storeFields_transparent out
  | unpack pattern buffer length =>
    exact (patternOf_transparent pattern).bind fun pat => (lib_transparent _).bind fun out => storeFields_transparent out
  | read t key => exact (index_transparent t key).bind fun _ => .pure _
  | newTable fields => exact (alloc_transparent _).bind fun _ => .pure _
  | setField id key v => exact (rawset_transparent _ _ _).bind fun _ => .pure _

/-- Two modules whose tables are current and that look the same answer alike for good. -/
private theorem results_same (fuel : Nat) (cs : List (Call L)) {w w' : World L} (hw : view.Sound w) (hw' : view.Sound w')
    (hs : view.seen w = view.seen w') : (results fuel cs w).1 = (results fuel cs w').1 := by
  induction cs generalizing w w' with
  | nil => rfl
  | cons c cs ih =>
    obtain ⟨hr,hv,ho,ho'⟩ := (runCall_transparent fuel c).same hw hw' hs
    simp only [results]
    rw [hr,ih ho ho' hv]

private theorem fresh_current (env : L.Env) (heap : List (Table L)) : Current env (fresh env heap) :=
  ⟨.nil _,.nil _,.nil _,.nil _,.nil _⟩

/-- A file `a` with a message `A` of one field, `optional int32 x = 1`. -/
def numberFile : Bytes :=
  [0x0a,0x13,0x0a,0x01,0x61,0x22,0x0e,0x0a,0x01,0x41,0x12,0x09,0x0a,0x01,0x78,0x18,0x01,0x20,0x01,0x28,0x05]

/-- The same with `optional string x = 1`. -/
def textFile : Bytes :=
  [0x0a,0x13,0x0a,0x01,0x61,0x22,0x0e,0x0a,0x01,0x41,0x12,0x09,0x0a,0x01,0x78,0x18,0x01,0x20,0x01,0x28,0x09]

/-- The first with a second field, `optional string y = 2`. -/
def widerFile : Bytes :=
  [0x0a,0x1e,0x0a,0x01,0x61,0x22,0x19,0x0a,0x01,0x41,0x12,0x09,0x0a,0x01,0x78,0x18,0x01,0x20,0x01,0x28,0x05,
    0x12,0x09,0x0a,0x01,0x79,0x18,0x02,0x20,0x01,0x28,0x09]

/-- The fields of `A` with their types in the C library and their numbers. -/
def described : List (Bytes × List (Bytes × Nat × Nat)) :=
  [(numberFile,[(ascii "x",1,1)]),(textFile,[(ascii "x",5,1)]),(widerFile,[(ascii "x",1,1),(ascii "y",5,2)])]

/-- The C library for these files, short values and empty buffers. -/
def smallLib : CLib where
  Env := List (Bytes × List (Bytes × Nat × Nat))
  WMessage := List (Bytes × Nat × Nat) × Bytes
  RMessage := List (Bytes × Nat × Nat)
  Pattern := Unit
  decEq := inferInstance
  envNew := []
  envRegister env file := match described.lookup file with
    | some fields => .ok ((ascii "A",fields) :: env)
    | none => .error (.str (ascii "register fail"))
  envType env type key := match env.lookup type, key with
    | some fields, .str name => .ok (((fields.lookup name).map (·.1)).getD 0,[])
    | _, _ => .ok (0,[])
  lastError _ := .str []
  wmessageNew env type := (env.lookup type).map (·,[])
  wmessageReal _ _ _ _ := .error (.str (ascii "number expected"))
  wmessageString m _ key v := match key, v with
    | .str name, .str s => .ok (m.1,m.2 ++ [UInt8.ofNat (((m.1.lookup name).map (·.2)).getD 0 * 8 + 2),UInt8.ofNat s.length] ++ s)
    | _, _ => .error (.str (ascii "string expected"))
  wmessageInt m _ key v := match key, v with
    | .str name, .int i => .ok (m.1,m.2 ++ [UInt8.ofNat (((m.1.lookup name).map (·.2)).getD 0 * 8),UInt8.ofNat i.toNat])
    | _, _ => .error (.str (ascii "number expected"))
  wmessageMessage _ _ _ := .error (.str (ascii "no message"))
  wmessageBuffer m := m.2
  rmessageNew env type _ := env.lookup type
  rmessageReal _ _ _ := .ok (.real 0)
  rmessageString _ _ _ := .ok (.str [])
  rmessageInt _ _ _ := .ok (.int 0)
  rmessageMessage _ _ := .ok none
  rmessageMessages _ _ := .ok []
  rmessageSize _ _ := .ok 0
  patternNew _ _ _ := none
  patternSize _ := 0
  patternUnpack _ _ _ _ _ := .ok []
  patternPack _ _ _ _ := .ok []
  decode env type buffer _ := ([],.ok (buffer.isEmpty && (env.lookup type).isSome))

/-- The application makes a table and encodes it as an `A`. -/
def encodeA (id : Nat) (fields : List (Scalar × Value smallLib)) : List (Call smallLib) :=
  [.newTable fields,.encode (ascii "A") (.table id) none]

/-- The module after it has loaded `numberFile` and encoded `x = 5`. -/
def encodedFive : World smallLib :=
  (results 9 (encodeA 0 [(.str (ascii "x"),.scalar (.int 5))]) (fresh [(ascii "A",[(ascii "x",1,1)])] [])).2

end MyProgram.Protobuf
