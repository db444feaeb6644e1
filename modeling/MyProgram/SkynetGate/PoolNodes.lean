import MyProgram.SkynetGate.Effects
import MyProgram.SkynetGate.Pool

/-! Where the nodes of the pool are while any number of databuffers are filled,
read and cleared in any order. -/
namespace MyProgram.SkynetGate
open Lib

/-- Databuffers beside the pool they share. -/
structure Shared where
  dbs : List Databuffer
  mp : Messagepool

/-- An operation on the `i`-th databuffer. -/
inductive BufferOp where
  | push (i : Nat) (data : Buffer)
  | read (i : Nat) (sz : Int)
  | clear (i : Nat)
  deriving DecidableEq, Repr

namespace Shared

/-- Databuffers and pool in zeroed memory. -/
def zero (n : Nat) : Shared := ⟨List.replicate n .zero,.zero⟩

def set (s : Shared) (i : Nat) (db : Databuffer) (mp : Messagepool) : Shared := ⟨s.dbs.set i db,mp⟩

/-- All nodes of the blocks allocated so far. -/
def blockNodes (mp : Messagepool) : List Nat := mp.pool.flatMap fun b => List.range' b MESSAGEPOOL

/-- The databuffer exists, and a read asks for something it has. -/
def Callable (s : Shared) : BufferOp → Prop
  | .push i _ | .clear i => i < s.dbs.length
  | .read i sz => ∃ h : i < s.dbs.length, 0 < sz ∧ sz ≤ s.dbs[i].size

instance (s : Shared) (op : BufferOp) : Decidable (s.Callable op) :=
  match op with
  | .push i _ => inferInstanceAs (Decidable (i < s.dbs.length))
  | .read i sz => inferInstanceAs (Decidable (∃ h : i < s.dbs.length, 0 < sz ∧ sz ≤ s.dbs[i].size))
  | .clear i => inferInstanceAs (Decidable (i < s.dbs.length))

/-- The free list and the chains of the databuffers, which have every node once. -/
structure Conserves (s : Shared) (free : List Nat) (chains : List (List Nat)) : Prop where
  freelist : Chain s.mp.next s.mp.freelist free
  queues : List.Forall₂ (fun db l => Chain s.mp.next db.head l) s.dbs chains
  distinct : (blockNodes s.mp).Nodup
  once : (free ++ chains.flatten).Perm (blockNodes s.mp)
  count : (free ++ chains.flatten).length = 1023 * s.mp.pool.length

end Shared

/-- Apply an operation; the bytes that are read go to the caller. -/
def bufferStep (s : Shared) : BufferOp → GateM Shared
  | .push i data => do
    let db ← Act.read .databuffer s.dbs i
    let (db,mp) ← databufferPush db s.mp data
    pure (s.set i db mp)
  | .read i sz => do
    let db ← Act.read .databuffer s.dbs i
    let (db,mp,_) ← databufferRead db s.mp sz
    pure (s.set i db mp)
  | .clear i => do
    let db ← Act.read .databuffer s.dbs i
    let (db,mp) ← databufferClear db s.mp
    pure (s.set i db mp)

variable {s s' : Shared} {mp : Messagepool} {db : Databuffer}

/-- The blocks lie one behind the other, latest first. -/
private def Stacked (mp : Messagepool) : Prop := (Shared.blockNodes mp).Perm (List.range mp.nodes)

private theorem stacked_cons {mp' : Messagepool} (h : Stacked mp) (hp : mp'.pool = mp.nodes :: mp.pool) : Stacked mp' := by
  have hn : mp'.nodes = mp.nodes + MESSAGEPOOL := by
    rw [Messagepool.nodes,hp,List.length_cons,Messagepool.nodes]
    exact Nat.mul_succ _ _
  rw [Stacked,Shared.blockNodes,hp,List.flatMap_cons,hn,List.range_add,← List.range'_eq_map_range]
  exact (h.append_left _).trans List.perm_append_comm

private theorem stacked_same {mp' : Messagepool} (h : Stacked mp) (hp : mp'.pool = mp.pool) : Stacked mp' := by
  rw [Stacked,Shared.blockNodes,Messagepool.nodes,hp]
  exact h

variable {qs : List Queue} {i : Nat}

/-- What holds between two operations. -/
private def Kept (s : Shared) : Prop := Sharing s.mp s.dbs ∧ Stacked s.mp

/-- Whatever one databuffer leaves in its own part of the pool is left in all of it. -/
private theorem kept_set {mp' : Messagepool} {db' : Databuffer} {bs : List Buffer} {st : ByteStream} (h : Pooled s.mp s.dbs qs)
    (hi : s.dbs[i]? = some db) (hc : Carries mp' db' (others qs i) bs st) (hk : Keeps s.mp mp' (others qs i))
    (hs : Stacked mp') : Kept (s.set i db' mp') := by
  obtain ⟨q,_,hq⟩ := h.set hi hc hk
  exact ⟨⟨_,hq⟩,hs⟩

/-- Every operation that may be called returns and keeps what holds. -/
private theorem bufferStep_keeps (h : Kept s) (op : BufferOp) (hop : s.Callable op) :
    ∃ s' fx, bufferStep s op = .ok s' fx ∧ Kept s' := by
  obtain ⟨⟨qs,hp⟩,hst⟩ := h
  cases op with
  | push i data =>
    have hi := List.getElem?_eq_getElem hop
    obtain ⟨q,hq⟩ := hp.queue hi
    obtain ⟨off,hh,_⟩ := hp.carries hi hq
    obtain ⟨db',mp',he,hh',_,_,hk⟩ := databufferPush_spec hh data
    refine ⟨s.set i db' mp',[],?_,kept_set hp hi ⟨_,hh',rfl⟩ hk ?_⟩
    · simp [bufferStep,Act.read_natCast hi,he]
    · rcases (silent_databufferPush _ s.mp data _ _ he).1 with hpool | hpool
      · exact stacked_same hst hpool
      · exact stacked_cons hst hpool
  | read i sz =>
    obtain ⟨hlt,hpos,hle⟩ := hop
    have hi := List.getElem?_eq_getElem hlt
    obtain ⟨n,rfl⟩ := Int.eq_ofNat_of_zero_le hpos.le
    obtain ⟨q,hq⟩ := hp.queue hi
    obtain ⟨off,hh,_⟩ := hp.carries hi hq
    obtain ⟨db',mp',freed,bs',off',he,hh',_,_,_,_,_,hk⟩ := databufferRead_spec hh (by omega) hle
    refine ⟨s.set i db' mp',freed.map .free,?_,kept_set hp hi ⟨_,hh',rfl⟩ hk ?_⟩
    · simp [bufferStep,Act.read_natCast hi,he]
    · exact stacked_same hst (frees_databufferRead _ s.mp _ _ _ he).1
  | clear i =>
    have hi := List.getElem?_eq_getElem hop
    obtain ⟨q,hq⟩ := hp.queue hi
    obtain ⟨off,hh,_⟩ := hp.carries hi hq
    obtain ⟨mp',he,hh',hk⟩ := databufferClear_spec hh
    refine ⟨s.set i .zero mp',q.chunks.map .free,?_,kept_set hp hi ⟨_,hh',rfl⟩ hk ?_⟩
    · simp [bufferStep,Act.read_natCast hi,he]
    · exact stacked_same hst (frees_databufferClear _ s.mp _ _ he).1

private theorem queues_chains (hp : Pooled s.mp s.dbs qs) :
    List.Forall₂ (fun db l => Chain s.mp.next db.head l) s.dbs (qs.map (·.nodes)) := by
  rw [List.forall₂_map_right_iff,List.forall₂_iff_get]
  refine ⟨hp.length,fun i hi hi' => ?_⟩
  exact (hp.each i _ _ (List.getElem?_eq_getElem hi) (List.getElem?_eq_getElem hi')).linked.chain

private theorem Kept.conserves (h : Kept s) : ∃ free chains, s.Conserves free chains := by
  obtain ⟨⟨qs,hp⟩,hst⟩ := h
  obtain ⟨free,hf,hperm⟩ := hp.free
  rw [List.flatMap_def] at hperm
  refine ⟨free,qs.map (·.nodes),hf,queues_chains hp,hst.nodup_iff.mpr List.nodup_range,hperm.trans hst.symm,?_⟩
  rw [hperm.length_eq,List.length_range]
  rfl

/-- However many databuffers share the pool and in whatever order they are pushed to,
read and cleared: every operation returns, and every node of every block is in the free
list or in the chain of one databuffer, once. -/
theorem pool_nodes_conserved {n : Nat} {tr : Trace BufferOp Effect}
    (h : Run bufferStep (fun _ s op => s.Callable op) (.zero n) tr s) :
    (∀ op, s.Callable op → ∃ s' fx, bufferStep s op = .ok s' fx) ∧ ∃ free chains, s.Conserves free chains := by
  have hk : Kept s := by
    apply h.invariant fun _ s => Kept s
    · exact ⟨Sharing.zero n,.refl _⟩
    · intro tr s op s' fx hk hop he
      obtain ⟨s'',fx',he',hk'⟩ := bufferStep_keeps hk op hop
      rw [he] at he'
      cases he'
      exact hk'
  refine ⟨fun op hop => ?_,hk.conserves⟩
  obtain ⟨s',fx,he,_⟩ := bufferStep_keeps hk op hop
  exact ⟨s',fx,he⟩

def mixedOps : List BufferOp :=
  [.push 0 ⟨1,[1,2],by decide⟩,.push 1 ⟨2,[3],by decide⟩,.push 0 ⟨3,[4],by decide⟩,.read 0 3,.clear 1,.push 1 ⟨4,[],by decide⟩]

theorem pool_nodes_conserved_two : ∃ tr s, Run bufferStep (fun _ s op => s.Callable op) (.zero 2) tr s ∧
    tr.map (·.1) = mixedOps ∧ s.mp.pool = [0] ∧ ∃ free chains, s.Conserves free chains := by
  have hc : runCheck bufferStep (fun _ s op => s.Callable op) (fun _ s => s.mp.pool = [0]) mixedOps [] (.zero 2) = true := by
    decide
  obtain ⟨tr,s,hr,hm,hp⟩ := Run.of_runCheck hc
  exact ⟨tr,s,hr,hm,hp,(pool_nodes_conserved hr).2⟩

end MyProgram.SkynetGate
