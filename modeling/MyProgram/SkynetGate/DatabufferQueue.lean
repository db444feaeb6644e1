import MyProgram.SkynetGate.Databuffer
import MyProgram.Lib.Chain
import Mathlib.Data.List.Forall2

/-! A databuffer is a byte queue: what each operation does to the unread bytes,
to the nodes it owns and to the free list, and that it touches nothing else. -/
namespace MyProgram.SkynetGate
open Lib

/-- The buffers that a step freed, in order. -/
def frees (fx : List Effect) : List Buffer :=
  fx.filterMap fun
    | .free b => some b
    | _ => none

@[simp] theorem frees_nil : frees [] = [] := rfl

@[simp] theorem frees_append (fx fx' : List Effect) : frees (fx ++ fx') = frees fx ++ frees fx' :=
  List.filterMap_append

@[simp] theorem frees_cons_free (b : Buffer) (fx : List Effect) : frees (.free b :: fx) = b :: frees fx := rfl

/-- The bytes of queued chunks of which `off` bytes of the first have been read. -/
def unread (bs : List Buffer) (off : Nat) : Bytes := (bs.flatMap (·.bytes)).drop off

/-- The chunks `bs` hang on the databuffer in the nodes `l`. -/
structure Linked (mp : Messagepool) (db : Databuffer) (l : List Nat) (bs : List Buffer) : Prop where
  chain : Chain mp.next db.head l
  tail : db.tail = l.getLast?
  node : List.Forall₂ (fun a b => (mp.node a).buffer = some b ∧ (mp.node a).size = b.bytes.length) l bs

/-- The read position lies inside the first chunk, or nothing of it is read. -/
def Inside (bs : List Buffer) (off : Nat) : Prop := off = 0 ∨ ∃ b, bs.head? = some b ∧ off < b.bytes.length

/-- How a pool changes when the nodes `t` are returned to it. -/
structure Returned (mp mp' : Messagepool) (t : List Nat) : Prop where
  pool : mp'.pool = mp.pool
  node : ∀ x, x ∉ t → mp'.node x = mp.node x
  free : ∀ f, Chain mp.next mp.freelist f → (∀ x ∈ f, x ∉ t) → Chain mp'.next mp'.freelist (t.reverse ++ f)

variable {mp mp' mp'' : Messagepool} {db db' : Databuffer} {l t : List Nat} {bs : List Buffer} {a off : Nat}

theorem Returned.refl (mp : Messagepool) : Returned mp mp [] := ⟨rfl,fun _ _ => rfl,fun _ h _ => h⟩

theorem Returned.trans (h : Returned mp mp' [a]) (h' : Returned mp' mp'' t) (ha : a ∉ t) :
    Returned mp mp'' (a :: t) := by
  refine ⟨h'.pool.trans h.pool,fun x hx => ?_,fun f hf hd => ?_⟩
  · rw [h'.node x (by simp_all),h.node x (by simp_all)]
  · have h1 := h.free f hf (fun x hx => by have := hd x hx; simp_all)
    have h2 := h'.free ([a].reverse ++ f) h1 (fun x hx => by
      rcases List.mem_append.mp hx with hx | hx
      · have : x = a := by simpa using hx
        exact this ▸ ha
      · have := hd x hx
        simp_all)
    simpa using h2

theorem Linked.length_eq (h : Linked mp db l bs) : l.length = bs.length := h.node.length_eq

private theorem node_frame (h : List.Forall₂
      (fun a b => (mp.node a).buffer = some b ∧ (mp.node a).size = ((b : Buffer).bytes.length : Int)) l bs)
    (he : ∀ x ∈ l, (mp'.node x).buffer = (mp.node x).buffer ∧ (mp'.node x).size = (mp.node x).size) :
    List.Forall₂ (fun a b => (mp'.node a).buffer = some b ∧ (mp'.node a).size = b.bytes.length) l bs := by
  induction h with
  | nil => exact .nil
  | cons hab _ ih =>
    refine .cons ?_ (ih (fun x hx => he x (by simp [hx])))
    rw [(he _ (by simp)).1,(he _ (by simp)).2]
    exact hab

/-- Writes to other nodes leave the queued chunks alone. -/
theorem Linked.frame (h : Linked mp db l bs) (he : ∀ x ∈ l, mp'.node x = mp.node x) : Linked mp' db l bs :=
  ⟨h.chain.congr (fun x hx => congrArg Message.next (he x hx)),h.tail,
    node_frame h.node (fun x hx => by rw [he x hx]; exact ⟨rfl,rfl⟩)⟩

/-- Returning the first node frees its chunk. -/
theorem returnMessage_spec {b : Buffer} (h : Linked mp db (a :: l) (b :: bs)) :
    ∃ db' mp', returnMessage db mp = .ok (db',mp') [.free b] ∧ Linked mp' db' l bs ∧
      db'.offset = db.offset ∧ db'.size = db.size ∧ db'.header = db.header ∧ Returned mp mp' [a] := by
  have hnd := List.nodup_cons.mp h.chain.nodup
  obtain ⟨hhead,hchain⟩ := h.chain
  obtain ⟨⟨hbuf,_⟩,hrest⟩ := List.forall₂_cons.mp h.node
  set mp' : Messagepool := { mp with
    node := Function.update mp.node a ⟨none,0,mp.freelist⟩
    freelist := some a } with hmp
  have hnode (x : Nat) (hx : x ≠ a) : mp'.node x = mp.node x := Function.update_of_ne hx _ _
  have hnext (x : Nat) (hx : x ≠ a) : mp'.next x = mp.next x := congrArg Message.next (hnode x hx)
  have hret : Returned mp mp' [a] := by
    refine ⟨rfl,fun x hx => hnode x (by simpa using hx),fun f hf hd => ⟨rfl,?_⟩⟩
    have hna : mp'.next a = mp.freelist := congrArg Message.next (Function.update_self a _ mp.node)
    rw [hna]
    exact hf.congr (fun x hx => hnext x (by simpa using hd x hx))
  have hchain' : Chain mp'.next (mp.next a) l := hchain.congr (fun x hx => hnext x (by rintro rfl; exact hnd.1 hx))
  have hsame : ∀ x ∈ l, (mp'.node x).buffer = (mp.node x).buffer ∧ (mp'.node x).size = (mp.node x).size := fun x hx => by
    rw [hnode x (by rintro rfl; exact hnd.1 hx)]
    exact ⟨rfl,rfl⟩
  have hrest' := node_frame hrest hsame
  rw [returnMessage,hhead]
  cases l with
  | nil =>
    have hn : (mp.node a).next = none := hchain
    have ht : db.tail = some a := h.tail
    refine ⟨{ db with head := none, tail := none },mp',?_,⟨rfl,rfl,hrest'⟩,rfl,rfl,rfl,hret⟩
    simp [hn,ht,hbuf,skynetFree,hmp]
  | cons c l =>
    have hn : (mp.node a).next = some c := hchain.1
    refine ⟨{ db with head := some c },mp',?_,⟨?_,?_,hrest'⟩,rfl,rfl,rfl,hret⟩
    · simp [hn,hbuf,skynetFree,hmp]
    · rw [← hn]
      exact hchain'
    · rw [h.tail,List.getLast?_cons_cons]

private theorem unread_cons (b : Buffer) (bs : List Buffer) (h : off ≤ b.bytes.length) :
    unread (b :: bs) off = b.bytes.drop off ++ unread bs 0 := by
  simp [unread,List.drop_append_of_le_length h]

private theorem inside_le {b : Buffer} (h : Inside (b :: bs) off) : off ≤ b.bytes.length := by
  rcases h with rfl | ⟨b',hb,hlt⟩
  · exact Nat.zero_le _
  · cases hb
    exact hlt.le

private theorem copyFrom_eq (b : Buffer) {n : Nat} (h : off + n ≤ b.bytes.length) :
    copyFrom (some b) off n = .ok ((b.bytes.drop off).take n) [] := by
  have hc : 0 ≤ (off : Int) ∧ 0 ≤ (n : Int) ∧ (off : Int) + n ≤ b.bytes.length := by omega
  simp [copyFrom,hc]

/-- Reading takes the first unread bytes off the queue, returning the nodes of the
chunks that are used up. The induction is on the queued chunks. -/
private theorem readLoop_spec (fuel sz : Nat) (h : Linked mp db l bs) (hoff : db.offset = off)
    (hin : Inside bs off) (hpos : 0 < sz) (hsz : sz ≤ (unread bs off).length) (hf : l.length < fuel) :
    ∃ db' mp' k, ∃ off' : Nat,
      readLoop fuel db mp sz = .ok (db',mp',(unread bs off).take sz) ((bs.take k).map .free) ∧
      Linked mp' db' (l.drop k) (bs.drop k) ∧ db'.offset = off' ∧ Inside (bs.drop k) off' ∧
      unread (bs.drop k) off' = (unread bs off).drop sz ∧ Returned mp mp' (l.take k) ∧
      db'.size = db.size ∧ db'.header = db.header := by
  induction bs generalizing mp db l off fuel sz with
  | nil =>
    simp [unread] at hsz
    omega
  | cons b bs ih =>
    cases l with
    | nil => cases h.node
    | cons a l =>
      obtain ⟨⟨hbuf,hsize⟩,_⟩ := List.forall₂_cons.mp h.node
      have hle := inside_le hin
      have hun := unread_cons b bs hle
      have hlen : (unread (b :: bs) off).length = b.bytes.length - off + (unread bs 0).length := by
        rw [hun,List.length_append,List.length_drop]
      cases fuel with
      | zero => simp at hf
      | succ fuel =>
        rw [readLoop]
        split
        · rename_i hn
          rw [h.chain.1] at hn
          cases hn
        rename_i m hm
        rw [h.chain.1] at hm
        cases hm
        simp only [hbuf,hsize,hoff]
        rcases Nat.lt_trichotomy sz (b.bytes.length - off) with hlt | heq | hgt
        · -- the chunk outlasts the read
          rw [if_pos (by omega),copyFrom_eq b (by omega)]
          refine ⟨{ db with offset := off + sz },mp,0,off + sz,?_,⟨h.chain,h.tail,h.node⟩,by push_cast; rfl,.inr ⟨b,rfl,by omega⟩,?_,
            .refl mp,rfl,rfl⟩
          · simp [hun,List.take_append_of_le_length (show sz ≤ (b.bytes.drop off).length by simp; omega)]
          · simp [unread,List.drop_drop]
        · -- the read ends with the chunk
          rw [if_neg (by omega),if_pos (by omega),copyFrom_eq b (by omega)]
          have h' : Linked mp { db with offset := 0 } (a :: l) (b :: bs) := ⟨h.chain,h.tail,h.node⟩
          obtain ⟨db',mp',he,hl',ho,hs,hh,hret⟩ := returnMessage_spec h'
          refine ⟨db',mp',1,0,?_,hl',ho,.inl rfl,?_,hret,hs,hh⟩
          · have hall : (b.bytes.drop off).length = sz := by simp; omega
            simp only [Act.bind_ok,he,Act.pure_eq,Act.after_ok,hun,← hall,List.take_length,List.take_left]
            simp
          · have hall : (b.bytes.drop off).length = sz := by simp; omega
            simp [hun,← hall]
        · -- the chunk is used up first
          rw [if_neg (by omega),if_neg (by omega),
            show (b.bytes.length : Int) - off = ((b.bytes.length - off : Nat) : Int) by omega,copyFrom_eq b (by omega)]
          obtain ⟨db₁,mp₁,he,hl₁,_,hs₁,hh₁,hret₁⟩ := returnMessage_spec h
          have hl₁' : Linked mp₁ { db₁ with offset := 0 } l bs := ⟨hl₁.chain,hl₁.tail,hl₁.node⟩
          obtain ⟨db',mp',k,off',hr,hl',ho,hin',hu,hret,hs,hh⟩ := ih fuel
            (sz - (b.bytes.length - off)) hl₁' (show _ = ((0 : Nat) : Int) from rfl) (.inl rfl) (by omega) (by omega)
            (by simpa using hf)
          have hnd := List.nodup_cons.mp h.chain.nodup
          refine ⟨db',mp',k + 1,off',?_,hl',ho,hin',?_,
            hret₁.trans hret (fun hm => hnd.1 (List.mem_of_mem_take hm)),hs.trans hs₁,hh.trans hh₁⟩
          · rw [show ((sz : Int) - ((b.bytes.length - off : Nat) : Int)) = ((sz - (b.bytes.length - off) : Nat) : Int) by omega]
            simp only [Act.bind_ok,he,hr,Act.pure_eq,Act.after_ok]
            rw [hun,List.take_append,List.length_drop]
            simp [List.take_of_length_le (show (b.bytes.drop off).length ≤ sz by simp; omega)]
          · rw [List.drop_succ_cons,hu,hun,List.drop_append,List.length_drop]
            simp [List.drop_of_length_le (show (b.bytes.drop off).length ≤ sz by simp; omega)]

/-- A databuffer with its part of the pool: its own nodes `l`, the free list and
the nodes `rest` of all other databuffers are all the nodes there are. -/
structure Owns (mp : Messagepool) (db : Databuffer) (rest l free : List Nat) (bs : List Buffer) (off : Nat) :
    Prop where
  linked : Linked mp db l bs
  offset : db.offset = off
  inside : Inside bs off
  size : db.size = wrap32 (unread bs off).length
  freelist : Chain mp.next mp.freelist free
  perm : (free ++ (l ++ rest)).Perm (List.range mp.nodes)

/-- The databuffer queues the chunks `bs`, read up to `off`, beside other owners. -/
def Holds (mp : Messagepool) (db : Databuffer) (rest : List Nat) (bs : List Buffer) (off : Nat) : Prop :=
  ∃ l free, Owns mp db rest l free bs off

/-- The nodes of the other owners are as they were. -/
def Keeps (mp mp' : Messagepool) (rest : List Nat) : Prop := ∀ x ∈ rest, mp'.node x = mp.node x

theorem Keeps.trans {rest : List Nat} (h : Keeps mp mp' rest) (h' : Keeps mp' mp'' rest) : Keeps mp mp'' rest :=
  fun x hx => (h' x hx).trans (h x hx)

variable {rest free : List Nat}

private theorem Owns.disjoint (h : Owns mp db rest l free bs off) :
    (∀ x ∈ free, x ∉ l) ∧ ∀ x ∈ rest, x ∉ free ∧ x ∉ l := by
  have hnd := (h.perm.nodup_iff).mpr List.nodup_range
  simp only [List.nodup_append,List.mem_append] at hnd
  exact ⟨fun x hx hl => hnd.2.2 x hx x (.inl hl) rfl,
    fun x hx => ⟨fun hf => hnd.2.2 x hf x (.inr hx) rfl,fun hl => hnd.2.1.2.2 x hl x hx rfl⟩⟩

private theorem Owns.length_le (h : Owns mp db rest l free bs off) : l.length ≤ mp.nodes := by
  have := h.perm.length_eq
  simp only [List.length_append,List.length_range] at this
  omega

private theorem owns_returned (h : Owns mp db rest l free bs off) (k : Nat) (hr : Returned mp mp' (l.take k)) :
    Chain mp'.next mp'.freelist ((l.take k).reverse ++ free) ∧
      ((l.take k).reverse ++ free ++ (l.drop k ++ rest)).Perm (List.range mp'.nodes) ∧ Keeps mp mp' rest := by
  obtain ⟨hfl,hrest⟩ := h.disjoint
  refine ⟨hr.free free h.freelist (fun x hx hm => hfl x hx (List.mem_of_mem_take hm)),?_,
    fun x hx => hr.node x (fun hm => (hrest x hx).2 (List.mem_of_mem_take hm))⟩
  rw [show mp'.nodes = mp.nodes by rw [Messagepool.nodes,Messagepool.nodes,hr.pool]]
  refine List.Perm.trans ?_ h.perm
  rw [List.append_assoc]
  calc ((l.take k).reverse ++ (free ++ (l.drop k ++ rest))).Perm (l.take k ++ (free ++ (l.drop k ++ rest))) :=
        (List.reverse_perm _).append_right _
    List.Perm _ (free ++ (l.take k ++ (l.drop k ++ rest))) := List.perm_append_comm_assoc _ _ _
    _ = free ++ (l ++ rest) := by rw [← List.append_assoc (l.take k),List.take_append_drop]

/-- `databuffer_read` of `sz` buffered bytes returns them in order, leaves the
rest queued and frees the chunks that are used up. -/
theorem databufferRead_spec (h : Holds mp db rest bs off) {sz : Nat} (hpos : 0 < sz) (hsz : (sz : Int) ≤ db.size) :
    ∃ db' mp' freed bs' off', databufferRead db mp sz = .ok (db',mp',(unread bs off).take sz) (freed.map .free) ∧
      Holds mp' db' rest bs' off' ∧ unread bs' off' = (unread bs off).drop sz ∧ freed ++ bs' = bs ∧
      sz ≤ (unread bs off).length ∧ db'.header = db.header ∧ db'.size = db.size - sz ∧ Keeps mp mp' rest := by
  obtain ⟨l,free,h⟩ := h
  have hle : sz ≤ (unread bs off).length := by
    have := wrap32_natCast_le (unread bs off).length
    have := h.size
    omega
  have hlink : Linked mp { db with size := db.size - sz } l bs := ⟨h.linked.chain,h.linked.tail,h.linked.node⟩
  obtain ⟨db',mp',k,off',he,hl',ho,hin,hu,hr,hs,hh⟩ := readLoop_spec (mp.nodes + 1) sz hlink h.offset h.inside hpos
    hle (Nat.lt_succ_of_le h.length_le)
  obtain ⟨hf',hp',hkeep⟩ := owns_returned h k hr
  refine ⟨db',mp',bs.take k,bs.drop k,off',?_,⟨l.drop k,(l.take k).reverse ++ free,hl',ho,hin,?_,hf',hp'⟩,hu,
    List.take_append_drop k bs,hle,hh,hs,hkeep⟩
  · rw [databufferRead,if_neg (by omega),he]
  · rw [hs,hu,List.length_drop]
    change db.size - sz = _
    rw [h.size] at hsz ⊢
    exact wrap32_sub hsz

private theorem clearLoop_spec (fuel : Nat) (h : Linked mp db l bs) (hf : l.length < fuel) :
    ∃ mp', clearLoop fuel db mp = .ok mp' (bs.map .free) ∧ Returned mp mp' l := by
  induction bs generalizing mp db l fuel with
  | nil =>
    cases h.node
    cases fuel with
    | zero => simp at hf
    | succ fuel =>
      have hh : db.head = none := h.chain
      exact ⟨mp,by simp [clearLoop,hh],.refl mp⟩
  | cons b bs ih =>
    cases l with
    | nil => cases h.node
    | cons a l =>
      cases fuel with
      | zero => simp at hf
      | succ fuel =>
        obtain ⟨db₁,mp₁,he,hl₁,_,_,_,hr₁⟩ := returnMessage_spec h
        obtain ⟨mp',hc,hr⟩ := ih fuel hl₁ (by simpa using hf)
        refine ⟨mp',?_,hr₁.trans hr (List.nodup_cons.mp h.chain.nodup).1⟩
        rw [clearLoop,h.chain.1]
        simp [he,hc]

/-- `databuffer_clear` frees every queued chunk and leaves zeroed memory. -/
theorem databufferClear_spec (h : Holds mp db rest bs off) :
    ∃ mp', databufferClear db mp = .ok (.zero,mp') (bs.map .free) ∧ Holds mp' .zero rest [] 0 ∧ Keeps mp mp' rest := by
  obtain ⟨l,free,h⟩ := h
  obtain ⟨mp',he,hr⟩ := clearLoop_spec (mp.nodes + 1) h.linked (Nat.lt_succ_of_le h.length_le)
  obtain ⟨hf',hp',hkeep⟩ := owns_returned h l.length (by rwa [List.take_length])
  refine ⟨mp',by simp [databufferClear,he],⟨[],(l.take l.length).reverse ++ free,⟨rfl,rfl,.nil⟩,rfl,.inl rfl,rfl,hf',?_⟩,
    hkeep⟩
  simpa using hp'

/-- A taken node leaves the free list, or heads a block of new nodes. -/
private theorem takeMessage_spec (hf : Chain mp.next mp.freelist free) :
    ∃ m mp' free', takeMessage mp = (m,mp') ∧ Chain mp'.next mp'.freelist free' ∧
      (∀ x < mp.nodes, mp'.node x = mp.node x) ∧
      ∀ q, (free ++ q).Perm (List.range mp.nodes) → (m :: (free' ++ q)).Perm (List.range mp'.nodes) := by
  unfold takeMessage
  split
  · rename_i m hm
    rw [hm] at hf
    obtain ⟨free',rfl,hc⟩ := hf.head_some
    exact ⟨m,_,free',rfl,hc,fun _ _ => rfl,fun _ hq => hq⟩
  · rename_i hm
    rw [hm,Chain.none_iff] at hf
    subst hf
    have hnodes : (newBlock mp).nodes = mp.nodes + MESSAGEPOOL := by
      simp [Messagepool.nodes,newBlock,Nat.mul_add]
    refine ⟨mp.nodes,newBlock mp,List.range' (mp.nodes + 1) 1022,rfl,?_,fun x hx => ?_,fun q hq => ?_⟩
    · have hnext (i : Nat) (hi : i < 1022) :
          (newBlock mp).next (mp.nodes + 1 + i) = if i = 1021 then none else some (mp.nodes + 1 + i + 1) := by
        have hin : mp.nodes < mp.nodes + 1 + i ∧ mp.nodes + 1 + i < mp.nodes + MESSAGEPOOL := by
          simp only [MESSAGEPOOL]
          omega
        have hlast : mp.nodes + 1 + i = mp.nodes + (MESSAGEPOOL - 1) ↔ i = 1021 := by
          simp only [MESSAGEPOOL]
          omega
        simp only [Messagepool.next,newBlock,hin,and_self,if_true,hlast]
      refine Chain.range' (n := 1022) (fun i hi => ?_) (fun _ => ?_)
      · rw [hnext i (by omega),if_neg (by omega)]
      · rw [hnext 1021 (by omega),if_pos rfl]
    · simp only [newBlock]
      rw [if_neg (by omega)]
    · rw [hnodes,List.range_eq_range',List.range'_append_1.symm,← List.range_eq_range',Nat.zero_add]
      have hblock : List.range' mp.nodes MESSAGEPOOL = mp.nodes :: List.range' (mp.nodes + 1) 1022 := rfl
      rw [hblock]
      rw [List.nil_append] at hq
      calc (mp.nodes :: (List.range' (mp.nodes + 1) 1022 ++ q)).Perm
            ((mp.nodes :: List.range' (mp.nodes + 1) 1022) ++ List.range mp.nodes) :=
          (hq.append_left _).cons _
        List.Perm _ (List.range mp.nodes ++ mp.nodes :: List.range' (mp.nodes + 1) 1022) := List.perm_append_comm

private theorem unread_push (h : Inside bs off) (data : Buffer) :
    unread (bs ++ [data]) off = unread bs off ++ data.bytes := by
  have hle : off ≤ (bs.flatMap (·.bytes)).length := by
    rcases h with rfl | ⟨b,hb,hlt⟩
    · exact Nat.zero_le _
    · cases bs with
      | nil => cases hb
      | cons c bs =>
        cases hb
        simp
        omega
  simp [unread,List.drop_append_of_le_length hle]

private theorem inside_push (h : Inside bs off) (data : Buffer) : Inside (bs ++ [data]) off := by
  rcases h with rfl | ⟨b,hb,hlt⟩
  · exact .inl rfl
  · exact .inr ⟨b,by simp [List.head?_append,hb],hlt⟩

/-- A node behind the last one of the queue. -/
private theorem Linked.concat {t m : Nat} {data : Buffer} (h : Linked mp db (l ++ [t]) bs) (hm : m ∉ l ++ [t])
    (hnode : mp.node m = ⟨some data,data.bytes.length,none⟩) (hhead : db'.head = db.head) (htail : db'.tail = some m) :
    Linked { mp with node := Function.update mp.node t { mp.node t with next := some m } } db' (l ++ [t] ++ [m]) (bs ++ [data]) := by
  set mp' : Messagepool := { mp with node := Function.update mp.node t { mp.node t with next := some m } }
  have htm : m ≠ t := fun he => hm (by simp [he])
  have hother (x : Nat) (hx : x ≠ t) : mp'.node x = mp.node x := Function.update_of_ne hx _ _
  have ht : mp'.node t = { mp.node t with next := some m } := Function.update_self ..
  have hlt : t ∉ l := fun hmem => by
    have hnd := h.chain.nodup
    simp only [List.nodup_append,List.mem_singleton] at hnd
    exact hnd.2.2 t hmem t rfl rfl
  refine ⟨?_,by rw [htail]; simp,List.rel_append (node_frame h.node fun x _ => ?_) (.cons ?_ .nil)⟩
  · rw [hhead]
    refine h.chain.concat (fun x hx => congrArg Message.next (hother x (by rintro rfl; exact hlt hx))) ?_ ?_
    · rw [Messagepool.next,ht]
    · rw [Messagepool.next,hother m htm,hnode]
  · by_cases hxt : x = t
    · rw [hxt,ht]
      exact ⟨rfl,rfl⟩
    · rw [hother x hxt]
      exact ⟨rfl,rfl⟩
  · rw [hother m htm,hnode]
    exact ⟨rfl,rfl⟩

/-- `databuffer_push` appends its data to the queued bytes. -/
theorem databufferPush_spec (h : Holds mp db rest bs off) (data : Buffer) :
    ∃ db' mp', databufferPush db mp data = .ok (db',mp') [] ∧ Holds mp' db' rest (bs ++ [data]) off ∧
      unread (bs ++ [data]) off = unread bs off ++ data.bytes ∧ db'.header = db.header ∧ Keeps mp mp' rest := by
  obtain ⟨l,free,h⟩ := h
  obtain ⟨m,mp₁,free',htake,hfree,hold,hperm⟩ := takeMessage_spec h.freelist
  have hp := hperm (l ++ rest) h.perm
  have hlt : ∀ x ∈ l ++ rest, x < mp.nodes := fun x hx => by
    simpa using h.perm.subset (List.mem_append_right free hx)
  have hnd := hp.nodup_iff.mpr List.nodup_range
  simp only [List.nodup_cons,List.nodup_append,List.mem_append,not_or] at hnd
  obtain ⟨⟨hmf,hml,hmr⟩,_,⟨_,_,hlr⟩,hfx⟩ := hnd
  have hun := unread_push h.inside data
  have hsize : wrap32 (db.size + data.bytes.length) = wrap32 (unread (bs ++ [data]) off).length := by
    rw [h.size,wrap32_add_left,hun,List.length_append]
    push_cast
    rfl
  have hperm' : (free' ++ (l ++ [m] ++ rest)).Perm (List.range mp₁.nodes) := by
    refine List.Perm.trans ?_ hp
    rw [List.append_assoc,List.singleton_append,← List.append_assoc,← List.append_assoc free']
    exact List.perm_middle
  set mp₂ : Messagepool := { mp₁ with node := Function.update mp₁.node m ⟨some data,data.bytes.length,none⟩ } with h₂
  have hnode (x : Nat) (hx : x ≠ m) : mp₂.node x = mp₁.node x := Function.update_of_ne hx _ _
  have hm₂ : mp₂.node m = ⟨some data,data.bytes.length,none⟩ := Function.update_self ..
  have hkeep : ∀ x ∈ l ++ rest, mp₂.node x = mp.node x := fun x hx => by
    rw [hnode x (by rintro rfl; exact (List.mem_append.mp hx).elim hml hmr),hold x (hlt x hx)]
  have hlink := h.linked.frame (show ∀ x ∈ l, mp₂.node x = mp.node x from fun x hx => hkeep x (List.mem_append_left _ hx))
  have hfree₂ : Chain mp₂.next mp₂.freelist free' :=
    hfree.congr (fun x hx => congrArg Message.next (hnode x (by rintro rfl; exact hmf hx)))
  rw [databufferPush,htake]
  rcases List.eq_nil_or_concat l with rfl | ⟨l',t,hl⟩
  · -- the node is the first and the last
    cases h.linked.node
    have hh : db.head = none := h.linked.chain
    have ht : db.tail = none := h.linked.tail
    refine ⟨{ db with size := wrap32 (db.size + data.bytes.length), head := some m, tail := some m },mp₂,?_,
      ⟨[m],free',⟨⟨rfl,congrArg Message.next hm₂⟩,rfl,.cons ?_ .nil⟩,h.offset,inside_push h.inside data,hsize,hfree₂,hperm'⟩,
      hun,rfl,fun x hx => hkeep x (by simpa using hx)⟩
    · simp [hh,ht,h₂]
    · rw [hm₂]
      exact ⟨rfl,rfl⟩
  · rw [List.concat_eq_append] at hl
    subst hl
    have htl : t ∈ l' ++ [t] := by simp
    have ht : db.tail = some t := by rw [h.linked.tail]; simp
    obtain ⟨c,hc⟩ : ∃ c, db.head = some c := by
      refine Option.ne_none_iff_exists'.mp fun hd => ?_
      have hchain := h.linked.chain
      rw [hd,Chain.none_iff] at hchain
      simp at hchain
    have hother (x : Nat) (hx : x ≠ t) : Function.update mp₂.node t { mp₂.node t with next := some m } x = mp₂.node x :=
      Function.update_of_ne hx _ _
    refine ⟨{ db with size := wrap32 (db.size + data.bytes.length), tail := some m },
      { mp₂ with node := Function.update mp₂.node t { mp₂.node t with next := some m } },?_,
      ⟨l' ++ [t] ++ [m],free',hlink.concat hml hm₂ rfl rfl,h.offset,inside_push h.inside data,hsize,?_,hperm'⟩,hun,rfl,?_⟩
    · simp [hc,ht,h₂]
    · exact hfree₂.congr fun x hx => congrArg Message.next (hother x (by
        rintro rfl
        exact hfx x hx x (.inl htl) rfl))
    · intro x hx
      dsimp only
      rw [hother x (by rintro rfl; exact hlr x htl x hx rfl)]
      exact hkeep x (List.mem_append_right _ hx)

end MyProgram.SkynetGate
