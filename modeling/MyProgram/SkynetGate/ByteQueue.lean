import MyProgram.SkynetGate.PoolNodes

/-! Databuffers that share a pool refine byte queues. -/
namespace MyProgram.SkynetGate
open Lib

namespace Shared

/-- The unread bytes of each databuffer. -/
def contents (s : Shared) : List Bytes := s.dbs.map (queued s.mp)

/-- A push leaves a number of unread bytes that is an `int`. -/
def Fits (s : Shared) : BufferOp → Prop
  | .push i data => ∀ db, s.dbs[i]? = some db → (queued s.mp db).length + data.bytes.length < 2^31
  | _ => True

instance (s : Shared) (op : BufferOp) : Decidable (s.Fits op) :=
  match op with
  | .push i data => inferInstanceAs (Decidable (∀ db ∈ s.dbs[i]?, (queued s.mp db).length + data.bytes.length < 2^31))
  | .read _ _ => .isTrue trivial
  | .clear _ => .isTrue trivial

/-- The read position is at the start of the first chunk or inside it. -/
def AtHead (s : Shared) (db : Databuffer) : Prop :=
  db.offset = 0 ∨ ∃ m, db.head = some m ∧ 0 ≤ db.offset ∧ db.offset < (s.mp.node m).size

end Shared

/-- The operation on byte queues, with the bytes it hands out. -/
def queueStep (qs : List Bytes) : BufferOp → List Bytes × Bytes
  | .push i data => (qs.modify i (· ++ data.bytes),[])
  | .read i sz => (qs.modify i (·.drop sz.toNat),((qs[i]?).getD []).take sz.toNat)
  | .clear i => (qs.modify i fun _ => [],[])

/-- Operations one after another on byte queues. -/
def queueRun (qs : List Bytes) (ops : List BufferOp) : List Bytes := ops.foldl (fun qs op => (queueStep qs op).1) qs

variable {s s' : Shared} {db db' : Databuffer} {mp' : Messagepool} {i : Nat} {op : BufferOp} {f : Bytes → Bytes}

/-- The operation returns and does what the byte queues do; a read gets the same bytes. -/
structure QueueRefines (s : Shared) (op : BufferOp) (s' : Shared) (fx : List Effect) : Prop where
  returns : bufferStep s op = .ok s' fx
  contents : s'.contents = (queueStep s.contents op).1
  output : ∀ i sz db, op = .read i sz → s.dbs[i]? = some db → ∃ db' mp', s' = s.set i db' mp' ∧
    databufferRead db s.mp sz = .ok (db',mp',(queueStep s.contents op).2) fx

/-- One databuffer changes, the others keep their bytes. -/
private theorem contents_set (hi : s.dbs[i]? = some db) (hf : queued mp' db' = f (queued s.mp db))
    (ho : ∀ (j : Nat) dbj, j ≠ i → s.dbs[j]? = some dbj → queued mp' dbj = queued s.mp dbj) :
    (s.set i db' mp').contents = s.contents.modify i f := by
  refine List.ext_getElem? fun j => ?_
  rw [Shared.contents,Shared.contents,Shared.set,List.getElem?_map,List.getElem?_modify,List.getElem?_map]
  by_cases hj : i = j
  · subst hj
    rw [List.getElem?_set_self (List.getElem?_eq_some_iff.mp hi).1,hi]
    simp [hf]
  · rw [List.getElem?_set_ne hj]
    simp only [if_neg hj]
    cases hdb : s.dbs[j]? with
    | none => rfl
    | some dbj => simp [ho j dbj (Ne.symm hj) hdb]

private theorem queued_eq {rest : List Nat} {bs : List Buffer} {off : Nat} (h : Holds mp' db rest bs off) :
    queued mp' db = unread bs off := congrArg ByteStream.content (Carries.streamOf_eq ⟨off,h,rfl⟩)

private theorem step_refines (h : Sharing s.mp s.dbs) (hop : s.Callable op) :
    ∃ s' fx, QueueRefines s op s' fx ∧ Sharing s'.mp s'.dbs := by
  cases op with
  | push i data =>
    have hi := List.getElem?_eq_getElem hop
    obtain ⟨rest,bs,⟨off,hh,_⟩,hfocus⟩ := h.focus hi
    obtain ⟨db',mp',he,hh',hun,_,hk⟩ := databufferPush_spec hh data
    obtain ⟨hs',hothers⟩ := hfocus mp' db' _ _ ⟨off,hh',rfl⟩ hk
    refine ⟨s.set i db' mp',[],⟨?_,?_,?_⟩,hs'⟩
    · simp [bufferStep,Act.read_natCast hi,he]
    · refine contents_set hi ?_ fun j dbj hne hj => congrArg ByteStream.content (hothers j dbj hne hj)
      rw [queued_eq hh,queued_eq hh',hun]
    · intro j sz db hread
      cases hread
  | read i sz =>
    obtain ⟨hlt,hpos,hle⟩ := hop
    have hi := List.getElem?_eq_getElem hlt
    obtain ⟨n,rfl⟩ := Int.eq_ofNat_of_zero_le hpos.le
    obtain ⟨rest,bs,⟨off,hh,_⟩,hfocus⟩ := h.focus hi
    obtain ⟨db',mp',freed,bs',off',he,hh',hun,_,_,_,_,hk⟩ := databufferRead_spec hh (by omega) hle
    obtain ⟨hs',hothers⟩ := hfocus mp' db' _ _ ⟨off',hh',rfl⟩ hk
    refine ⟨s.set i db' mp',freed.map .free,⟨?_,?_,?_⟩,hs'⟩
    · simp [bufferStep,Act.read_natCast hi,he]
    · refine contents_set hi ?_ fun j dbj hne hj => congrArg ByteStream.content (hothers j dbj hne hj)
      rw [queued_eq hh,queued_eq hh',hun,Int.toNat_natCast]
    · intro j sz db hread hdb
      cases hread
      cases hi.symm.trans hdb
      have hin : s.contents[i]? = some (unread bs off) := by
        rw [Shared.contents,List.getElem?_map,hi,Option.map_some,queued_eq hh]
      refine ⟨db',mp',rfl,?_⟩
      rw [he,queueStep,hin,Option.getD_some,Int.toNat_natCast]
  | clear i =>
    have hi := List.getElem?_eq_getElem hop
    obtain ⟨rest,bs,⟨off,hh,_⟩,hfocus⟩ := h.focus hi
    obtain ⟨mp',he,hh',hk⟩ := databufferClear_spec hh
    obtain ⟨hs',hothers⟩ := hfocus mp' .zero _ _ ⟨0,hh',rfl⟩ hk
    refine ⟨s.set i .zero mp',bs.map .free,⟨?_,?_,?_⟩,hs'⟩
    · simp [bufferStep,Act.read_natCast hi,he]
    · refine contents_set hi ?_ fun j dbj hne hj => congrArg ByteStream.content (hothers j dbj hne hj)
      rw [queued_eq hh']
      rfl
    · intro j sz db hread
      cases hread

/-- A databuffer that shares the pool counts its unread bytes, and reads on in its first chunk. -/
private theorem sharing_sound (h : Sharing s.mp s.dbs) (hi : s.dbs[i]? = some db) (hfit : (queued s.mp db).length < 2^31) :
    (queued s.mp db).length = db.size ∧ s.AtHead db := by
  obtain ⟨qs,hp⟩ := h
  obtain ⟨q,hq⟩ := hp.queue hi
  have hs := hp.each i db q hi hq
  obtain ⟨off,hh,hst⟩ := hp.carries hi hq
  have hlen : queued s.mp db = unread q.chunks q.offset := congrArg ByteStream.content (hp.carries hi hq).streamOf_eq
  refine ⟨?_,?_⟩
  · rw [hs.size,← hlen,wrap32_eq (by omega) (by omega)]
  · unfold Shared.AtHead
    rw [hs.offset]
    rcases hs.inside with h0 | ⟨b,hb,hlt⟩
    · exact .inl (by rw [h0]; rfl)
    · obtain ⟨bs,hbs⟩ := List.head?_eq_some_iff.mp hb
      have hnode := hs.linked.node
      have hchain := hs.linked.chain
      rw [hbs] at hnode
      cases hnodes : q.nodes with
      | nil =>
        rw [hnodes] at hnode
        cases hnode
      | cons m l =>
        rw [hnodes] at hnode hchain
        refine .inr ⟨m,hchain.1,by omega,?_⟩
        rw [(List.forall₂_cons.mp hnode).1.2]
        omega

/-- All unread bytes can be counted in an `int`. -/
private def Counted (s : Shared) : Prop := ∀ b ∈ s.contents, b.length < 2^31

private theorem counted_step (h : Counted s) (hfit : s.Fits op) (hc : s'.contents = (queueStep s.contents op).1) : Counted s' := by
  intro b hb
  rw [hc] at hb
  obtain ⟨j,hj⟩ := List.mem_iff_getElem?.mp hb
  have hold (b : Bytes) (k : Nat) (hk : s.contents[k]? = some b) : b.length < 2^31 := h b (List.mem_of_getElem? hk)
  cases op with
  | push i data =>
    rw [queueStep,List.getElem?_modify] at hj
    obtain ⟨b₀,hb₀,hbb⟩ := Option.map_eq_some_iff.mp hj
    split at hbb
    · rename_i hij
      subst hij
      rw [Shared.contents,List.getElem?_map] at hb₀
      obtain ⟨db,hdb,rfl⟩ := Option.map_eq_some_iff.mp hb₀
      have := hfit db hdb
      rw [← hbb,List.length_append]
      exact this
    · exact hbb ▸ hold b₀ j hb₀
  | read i sz =>
    rw [queueStep,List.getElem?_modify] at hj
    obtain ⟨b₀,hb₀,hbb⟩ := Option.map_eq_some_iff.mp hj
    have hlt := hold b₀ j hb₀
    split at hbb
    · rw [← hbb,List.length_drop]
      omega
    · exact hbb ▸ hlt
  | clear i =>
    rw [queueStep,List.getElem?_modify] at hj
    obtain ⟨b₀,hb₀,hbb⟩ := Option.map_eq_some_iff.mp hj
    split at hbb
    · rw [← hbb]
      decide
    · exact hbb ▸ hold b₀ j hb₀

/-- From zeroed memory on, in whatever order any number of databuffers are pushed to, read
and cleared, they are byte queues: every operation that may be called returns and does to
the unread bytes what it does to the queue. -/
theorem databuffers_are_queues {n : Nat} {tr : Trace BufferOp Effect}
    (h : Run bufferStep (fun _ s op => s.Callable op ∧ s.Fits op) (.zero n) tr s) :
    s.contents = queueRun (List.replicate n []) (tr.map (·.1)) ∧
      (∀ (i : Nat) db, s.dbs[i]? = some db → (queued s.mp db).length = db.size ∧ s.AtHead db) ∧
      ∀ op, s.Callable op → s.Fits op → ∃ s' fx, QueueRefines s op s' fx := by
  have hinv : Sharing s.mp s.dbs ∧ Counted s ∧ s.contents = queueRun (List.replicate n []) (tr.map (·.1)) := by
    refine h.invariant (fun tr s => Sharing s.mp s.dbs ∧ Counted s ∧ s.contents = queueRun (List.replicate n []) (tr.map (·.1))) ?_ ?_
    · have hzero : (Shared.zero n).contents = List.replicate n [] := by
        rw [Shared.contents,Shared.zero,List.map_replicate]
        congr 1
      refine ⟨Sharing.zero n,fun b hb => ?_,hzero⟩
      rw [hzero] at hb
      rw [List.eq_of_mem_replicate hb]
      decide
    · rintro tr s op s' fx ⟨hs,hcount,hrun⟩ ⟨hop,hfit⟩ he
      obtain ⟨s'',fx',href,hs'⟩ := step_refines hs hop
      rw [href.returns] at he
      cases he
      refine ⟨hs',counted_step hcount hfit href.contents,?_⟩
      rw [href.contents,hrun,queueRun,queueRun,List.map_append,List.foldl_append]
      rfl
  obtain ⟨hs,hcount,hrun⟩ := hinv
  refine ⟨hrun,fun i db hi => sharing_sound hs hi ?_,fun op hop _ => ?_⟩
  · exact hcount _ (List.mem_map.mpr ⟨db,List.mem_of_getElem? hi,rfl⟩)
  · obtain ⟨s',fx,href,_⟩ := step_refines hs hop
    exact ⟨s',fx,href⟩

theorem databuffers_are_queues_two : ∃ tr s, Run bufferStep (fun _ s op => s.Callable op ∧ s.Fits op) (.zero 2) tr s ∧
    tr.map (·.1) = mixedOps ∧ s.contents = [[],[]] ∧
    ∀ (i : Nat) db, s.dbs[i]? = some db → (queued s.mp db).length = db.size ∧ s.AtHead db := by
  have hc : runCheck bufferStep (fun _ s op => s.Callable op ∧ s.Fits op) (fun _ _ => True) mixedOps [] (.zero 2) = true := by
    decide
  obtain ⟨tr,s,hr,hm,_⟩ := Run.of_runCheck hc
  obtain ⟨hrun,hsound,_⟩ := databuffers_are_queues hr
  refine ⟨tr,s,hr,hm,?_,hsound⟩
  rw [hrun,hm]
  rfl

end MyProgram.SkynetGate
