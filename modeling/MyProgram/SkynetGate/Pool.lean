import MyProgram.SkynetGate.Framing

/-! Databuffers that share one message pool. -/
namespace MyProgram.SkynetGate
open Lib

/-- What a databuffer owns: its nodes, the chunks in them and the read position. -/
structure Queue where
  nodes : List Nat
  chunks : List Buffer
  offset : Nat

/-- The databuffer has the shape of the queue. -/
structure Queues (mp : Messagepool) (db : Databuffer) (q : Queue) : Prop where
  linked : Linked mp db q.nodes q.chunks
  offset : db.offset = q.offset
  inside : Inside q.chunks q.offset
  size : db.size = wrap32 (unread q.chunks q.offset).length

/-- Every node of the pool is in the free list or in one of the queues, once. -/
structure Pooled (mp : Messagepool) (dbs : List Databuffer) (qs : List Queue) : Prop where
  length : dbs.length = qs.length
  each : ∀ (i : Nat) db q, dbs[i]? = some db → qs[i]? = some q → Queues mp db q
  free : ∃ free, Chain mp.next mp.freelist free ∧ (free ++ qs.flatMap (·.nodes)).Perm (List.range mp.nodes)

variable {mp mp' : Messagepool} {dbs : List Databuffer} {qs : List Queue} {db db' : Databuffer} {q q' : Queue} {i j : Nat}

/-- The nodes of all queues but one. -/
def others (qs : List Queue) (i : Nat) : List Nat := (qs.eraseIdx i).flatMap (·.nodes)

/-- One entry of a list of lists apart from the others. -/
theorem flatMap_perm_eraseIdx {α β : Type} {l : List α} {a : α} (f : α → List β) (h : l[i]? = some a) :
    (l.flatMap f).Perm (f a ++ (l.eraseIdx i).flatMap f) := by
  obtain ⟨hlt,rfl⟩ := List.getElem?_eq_some_iff.mp h
  rw [← List.flatMap_cons]
  exact (List.getElem_cons_eraseIdx_perm hlt).symm.flatMap_right _

private theorem perm_others (hq : qs[i]? = some q) : (qs.flatMap (·.nodes)).Perm (q.nodes ++ others qs i) :=
  flatMap_perm_eraseIdx _ hq

private theorem others_set (q : Queue) : others (qs.set i q) i = others qs i := by
  rw [others,others,List.eraseIdx_set_eq]

private theorem mem_others (hj : qs[j]? = some q) (hne : j ≠ i) {a : Nat} (ha : a ∈ q.nodes) : a ∈ others qs i := by
  rw [others,List.mem_flatMap]
  refine ⟨q,?_,ha⟩
  rw [List.mem_eraseIdx_iff_getElem?]
  exact ⟨j,hne,hj⟩

namespace Pooled

theorem queue (h : Pooled mp dbs qs) (hi : dbs[i]? = some db) : ∃ q, qs[i]? = some q := by
  have hlt := (List.getElem?_eq_some_iff.mp hi).1
  exact ⟨_,List.getElem?_eq_getElem (h.length ▸ hlt)⟩

private theorem owns (h : Pooled mp dbs qs) (hi : dbs[i]? = some db) (hq : qs[i]? = some q) :
    ∃ free, Owns mp db (others qs i) q.nodes free q.chunks q.offset := by
  obtain ⟨free,hf,hp⟩ := h.free
  have hs := h.each i db q hi hq
  exact ⟨free,hs.linked,hs.offset,hs.inside,hs.size,hf,((perm_others hq).append_left free).symm.trans hp⟩

theorem carries (h : Pooled mp dbs qs) (hi : dbs[i]? = some db) (hq : qs[i]? = some q) :
    Carries mp db (others qs i) q.chunks ⟨db.header,unread q.chunks q.offset⟩ := by
  obtain ⟨free,ho⟩ := h.owns hi hq
  exact ⟨q.offset,⟨q.nodes,free,ho⟩,rfl⟩

/-- Changing one databuffer within its own part of the pool. -/
theorem set (h : Pooled mp dbs qs) (hi : dbs[i]? = some db) {bs : List Buffer} {st : ByteStream}
    (hc : Carries mp' db' (others qs i) bs st) (hk : Keeps mp mp' (others qs i)) :
    ∃ q, q.chunks = bs ∧ Pooled mp' (dbs.set i db') (qs.set i q) := by
  obtain ⟨q₀,hq₀⟩ := h.queue hi
  have hlt := (List.getElem?_eq_some_iff.mp hi).1
  have hlt' := (List.getElem?_eq_some_iff.mp hq₀).1
  obtain ⟨off,⟨l,free,ho⟩,_⟩ := hc
  have hself : (qs.set i ⟨l,bs,off⟩)[i]? = some ⟨l,bs,off⟩ := List.getElem?_set_self hlt'
  refine ⟨⟨l,bs,off⟩,rfl,by simpa using h.length,fun j dbj qj hj hqj => ?_,free,ho.freelist,?_⟩
  · by_cases hne : j = i
    · subst hne
      rw [List.getElem?_set_self hlt] at hj
      rw [hself] at hqj
      cases hj
      cases hqj
      exact ⟨ho.linked,ho.offset,ho.inside,ho.size⟩
    · rw [List.getElem?_set_ne (Ne.symm hne)] at hj hqj
      have hs := h.each j dbj qj hj hqj
      exact ⟨hs.linked.frame (fun x hx => hk x (mem_others hqj hne hx)),hs.offset,hs.inside,hs.size⟩
  · have hp := perm_others hself
    rw [others_set] at hp
    exact (hp.append_left free).trans ho.perm

end Pooled

/-- The databuffers share the pool. -/
def Sharing (mp : Messagepool) (dbs : List Databuffer) : Prop := ∃ qs, Pooled mp dbs qs

/-- Each sharing databuffer can be worked on alone, and whatever respects its part of
the pool leaves the streams of the others as they were. -/
theorem Sharing.focus (h : Sharing mp dbs) (hi : dbs[i]? = some db) :
    ∃ rest bs, Carries mp db rest bs (streamOf mp db) ∧
      ∀ mp' db' bs' st', Carries mp' db' rest bs' st' → Keeps mp mp' rest →
        Sharing mp' (dbs.set i db') ∧
          ∀ (j : Nat) dbj, j ≠ i → dbs[j]? = some dbj → streamOf mp' dbj = streamOf mp dbj := by
  obtain ⟨qs,h⟩ := h
  obtain ⟨q,hq⟩ := h.queue hi
  have hc := h.carries hi hq
  refine ⟨others qs i,q.chunks,by rwa [hc.streamOf_eq],fun mp' db' bs' st' hc' hk => ?_⟩
  obtain ⟨q',_,hp'⟩ := h.set hi hc' hk
  refine ⟨⟨_,hp'⟩,fun j dbj hne hj => ?_⟩
  obtain ⟨qj,hqj⟩ := h.queue hj
  have hj' : (dbs.set i db')[j]? = some dbj := by rwa [List.getElem?_set_ne (Ne.symm hne)]
  have hqj' : (qs.set i q')[j]? = some qj := by rwa [List.getElem?_set_ne (Ne.symm hne)]
  rw [(h.carries hj hqj).streamOf_eq,(hp'.carries hj' hqj').streamOf_eq]

/-- Empty databuffers share the empty pool. -/
theorem Sharing.zero (n : Nat) : Sharing .zero (List.replicate n .zero) := by
  refine ⟨List.replicate n ⟨[],[],0⟩,by simp,fun i db q hdb hq => ?_,[],rfl,by simp [Messagepool.nodes,Messagepool.zero]⟩
  have hdb := List.eq_of_mem_replicate (List.mem_of_getElem? hdb)
  have hq := List.eq_of_mem_replicate (List.mem_of_getElem? hq)
  subst hdb hq
  exact ⟨⟨rfl,rfl,.nil⟩,rfl,.inl rfl,rfl⟩

end MyProgram.SkynetGate
