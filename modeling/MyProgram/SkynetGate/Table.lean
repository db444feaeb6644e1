import MyProgram.SkynetGate.Pool
import MyProgram.SkynetGate.Switch
import MyProgram.SkynetGate.HashidUpdate

/-! The invariant of the gate's tables, the sessions they stand for, and what the
updates of a table entry do to them. -/
namespace MyProgram.SkynetGate
open Lib

namespace Hashid
variable {hi hi' : Hashid} {id : Int} {s : Nat}

theorem slot_insert (w : hi.Wf) (w' : hi'.Wf) (h0 : 0 ≤ id) (hnew : hi.slot id = none) (hs : hi.idAt s = some (-1))
    (hid : hi'.idAt = Function.update hi.idAt s (some id)) : hi'.slot = Function.update hi.slot id (some s) := by
  have hnone := (w.slot_eq_none.mp hnew).resolve_left (by omega)
  funext k
  apply Option.ext
  intro t
  rw [w'.slot_eq_some,hid]
  by_cases hk : k = id
  · subst hk
    rw [Function.update_self]
    by_cases ht : t = s
    · subst ht
      rw [Function.update_self]
      simp
      omega
    · rw [Function.update_of_ne ht]
      constructor
      · rintro ⟨_,h⟩
        exact absurd h (hnone t)
      · intro h
        exact absurd (Option.some.inj h).symm ht
  · rw [Function.update_of_ne hk,w.slot_eq_some]
    by_cases ht : t = s
    · subst ht
      rw [Function.update_self,hs]
      constructor
      · rintro ⟨_,h⟩
        exact absurd (Option.some.inj h).symm hk
      · rintro ⟨hne,h⟩
        exact absurd (Option.some.inj h).symm hne
    · rw [Function.update_of_ne ht]

theorem slot_remove (w : hi.Wf) (w' : hi'.Wf) (hs : hi.slot id = some s)
    (hid : hi'.idAt = Function.update hi.idAt s (some (-1))) : hi'.slot = Function.update hi.slot id none := by
  obtain ⟨hne,hs⟩ := w.slot_eq_some.mp hs
  funext k
  apply Option.ext
  intro t
  rw [w'.slot_eq_some,hid]
  by_cases ht : t = s
  · subst ht
    rw [Function.update_self]
    by_cases hk : k = id
    · subst hk
      rw [Function.update_self]
      simp
      omega
    · rw [Function.update_of_ne hk,w.slot_eq_some,hs]
      constructor
      · rintro ⟨hk',h⟩
        exact absurd (Option.some.inj h).symm hk'
      · rintro ⟨_,h⟩
        exact absurd (Option.some.inj h).symm hk
  · rw [Function.update_of_ne ht]
    by_cases hk : k = id
    · subst hk
      rw [Function.update_self]
      constructor
      · rintro ⟨_,h⟩
        exact absurd (w.inj t s k hne h hs) ht
      · intro h
        cases h
    · rw [Function.update_of_ne hk,w.slot_eq_some]

end Hashid

/-- The session in a connection record. -/
def sessionOf (mp : Messagepool) (c : Connection) : Session := ⟨c.id,c.agent,c.client,streamOf mp c.buffer⟩

namespace Gate

def session (g : Gate) (id : Int) : Option Session := (g.hash.slot id).bind fun s => g.conn[s]?.map (sessionOf g.mp)

/-- The switch that the gate implements. -/
def switch (g : Gate) : Switch := ⟨g.listenId,g.watchdog,g.broker,g.clientTag,g.bind,g.session⟩

/-- The hash is well formed, there is a record for each of its slots, the records of
free slots are cleared and all buffers share the pool. -/
structure Inv (g : Gate) : Prop where
  wf : g.hash.Wf
  length : g.conn.length = g.hash.id.length
  max : g.maxConnection = g.conn.length
  headerSize : g.headerSize = 4
  sharing : Sharing g.mp (g.conn.map (·.buffer))
  free : ∀ s, g.hash.idAt s = some (-1) → g.conn[s]? = some .cleared

variable {g : Gate} {id : Int} {s : Nat} {c c' : Connection}

namespace Inv

theorem record (h : g.Inv) {i : Int} (hs : g.hash.idAt s = some i) : ∃ c, g.conn[s]? = some c := by
  have hlt := Hashid.idAt_lt hs
  exact ⟨_,List.getElem?_eq_getElem (h.length ▸ hlt)⟩

/-- Looking a socket up finds its session's record, or the socket has no session. -/
theorem lookup (h : g.Inv) (id : Int) :
    (∃ s c, hashidLookup g.hash id = .ok (s : Nat) [] ∧ g.hash.slot id = some s ∧ g.conn[s]? = some c ∧
      g.session id = some (sessionOf g.mp c)) ∨
    (hashidLookup g.hash id = .ok (-1) [] ∧ g.hash.slot id = none ∧ g.session id = none) := by
  have hl := h.wf.lookup_eq id
  cases hs : g.hash.slot id with
  | none =>
    rw [hs] at hl
    exact .inr ⟨hl,rfl,by rw [session,hs]; rfl⟩
  | some s =>
    rw [hs] at hl
    obtain ⟨c,hc⟩ := h.record (h.wf.slot_eq_some.mp hs).2
    exact .inl ⟨s,c,hl,rfl,hc,by rw [session,hs]; simp [hc]⟩

theorem slot_eq_none (h : g.Inv) : g.hash.slot id = none ↔ g.session id = none := by
  rcases h.lookup id with ⟨s,c,_,hs,_,he⟩ | ⟨_,hs,he⟩
  · simp [hs,he]
  · simp [hs,he]

/-- A step from `g` to `g'` that touches slot `s` and its record only. The slot
belongs to `id`, before or after. -/
structure Touches (g g' : Gate) (id : Int) (s : Nat) (c' : Connection) (kept : Bool) : Prop where
  wf : g'.hash.Wf
  hashLength : g'.hash.id.length = g.hash.id.length
  idAt : ∀ t, t ≠ s → g'.hash.idAt t = g.hash.idAt t
  cleared : g'.hash.idAt s = some (-1) → c' = .cleared
  slot : g'.hash.slot = Function.update g.hash.slot id (if kept then some s else none)
  owner : ∀ k, k ≠ id → g.hash.slot k ≠ some s
  conn : g'.conn = g.conn.set s c'
  max : g'.maxConnection = g.maxConnection
  headerSize : g'.headerSize = g.headerSize

/-- A record can be worked on alone: what respects its part of the pool keeps the
invariant and the sessions of all other sockets. -/
theorem focus (h : g.Inv) (hc : g.conn[s]? = some c) :
    ∃ rest bs, Carries g.mp c.buffer rest bs (streamOf g.mp c.buffer) ∧
      ∀ g' id c' kept bs' st', Touches g g' id s c' kept → Carries g'.mp c'.buffer rest bs' st' →
        Keeps g.mp g'.mp rest →
        g'.Inv ∧ g'.session = Function.update g.session id (if kept then some ⟨c'.id,c'.agent,c'.client,st'⟩ else none) := by
  have hlt := (List.getElem?_eq_some_iff.mp hc).1
  obtain ⟨rest,bs,hcar,hset⟩ := h.sharing.focus (show (g.conn.map (·.buffer))[s]? = some c.buffer by simp [hc])
  refine ⟨rest,bs,hcar,fun g' id c' kept bs' st' ht hcar' hk => ?_⟩
  obtain ⟨hshare,hother⟩ := hset g'.mp c'.buffer bs' st' hcar' hk
  have hself : g'.conn[s]? = some c' := by rw [ht.conn,List.getElem?_set_self hlt]
  have hne (t : Nat) (hts : t ≠ s) : g'.conn[t]? = g.conn[t]? := by rw [ht.conn,List.getElem?_set_ne (Ne.symm hts)]
  refine ⟨⟨ht.wf,?_,?_,?_,?_,fun t hf => ?_⟩,?_⟩
  · rw [ht.conn,List.length_set,h.length,ht.hashLength]
  · rw [ht.max,h.max,ht.conn,List.length_set]
  · rw [ht.headerSize,h.headerSize]
  · rwa [ht.conn,List.map_set]
  · by_cases hts : t = s
    · subst hts
      rw [hself,ht.cleared hf]
    · rw [hne t hts]
      exact h.free t (ht.idAt t hts ▸ hf)
  · funext k
    rw [session,ht.slot]
    by_cases hk : k = id
    · subst hk
      rw [Function.update_self,Function.update_self]
      cases kept <;> simp [hself,sessionOf,hcar'.streamOf_eq]
    · rw [Function.update_of_ne hk,Function.update_of_ne hk,session]
      cases hs : g.hash.slot k with
      | none => rfl
      | some t =>
        have hts : t ≠ s := by
          rintro rfl
          exact ht.owner k hk hs
        obtain ⟨ct,hct⟩ := h.record (h.wf.slot_eq_some.mp hs).2
        have hstream := hother t ct.buffer hts (by simp [hct])
        simp [hne t hts,hct,sessionOf,hstream]

private theorem owner (h : g.Inv) (hs : g.hash.slot id = some s) (k : Int) (hk : k ≠ id) : g.hash.slot k ≠ some s := by
  intro he
  have h1 := (h.wf.slot_eq_some.mp hs).2
  have h2 := (h.wf.slot_eq_some.mp he).2
  rw [h1] at h2
  exact hk (Option.some.inj h2).symm

/-- A change of a registered socket's record. -/
theorem touches_record (h : g.Inv) (hs : g.hash.slot id = some s) (c' : Connection) (mp : Messagepool) :
    Touches g ({ g with mp }.setConn s c') id s c' true where
  wf := h.wf
  hashLength := rfl
  idAt _ _ := rfl
  cleared hf := by
    obtain ⟨hne,he⟩ := h.wf.slot_eq_some.mp hs
    exact absurd (Option.some.inj (he.symm.trans hf)) hne
  slot := by
    rw [if_pos rfl,← hs]
    exact (Function.update_eq_self id g.hash.slot).symm
  owner := h.owner hs
  conn := rfl
  max := rfl
  headerSize := rfl

/-- A fresh id enters a free slot, whose record is written. -/
theorem register (h : g.Inv) (h0 : 0 ≤ id) (hnew : g.session id = none) {hash : Hashid} {r : Int} {fx : List Effect}
    (hi : hashidInsert g.hash id = .ok (hash,r) fx) :
    ∃ s : Nat, r = s ∧ fx = [] ∧ g.conn[s]? = some .cleared ∧ ∀ c', c'.buffer = .zero →
      ({ g with hash }.setConn s c').Inv ∧
      ({ g with hash }.setConn s c').session = Function.update g.session id (some ⟨c'.id,c'.agent,c'.client,⟨0,[]⟩⟩) := by
  have hslot := h.slot_eq_none.mpr hnew
  obtain ⟨s,hr,hfx,hs,hw,hid,hlen,_⟩ := h.wf.insert_spec h0 hslot hi
  have hc := h.free s hs
  obtain ⟨rest,bs,hcar,hset⟩ := h.focus hc
  refine ⟨s,hr,hfx,hc,fun c' hz => ?_⟩
  have htouch : Touches g ({ g with hash }.setConn s c') id s c' true := {
    wf := hw
    hashLength := hlen
    idAt := fun t ht => by
      change hash.idAt t = _
      rw [hid,Function.update_of_ne ht]
    cleared := fun hf => by
      change hash.idAt s = _ at hf
      rw [hid,Function.update_self] at hf
      have := Option.some.inj hf
      omega
    slot := Hashid.slot_insert h.wf hw h0 hslot hs hid
    owner := fun k _ he => by
      obtain ⟨hne,he⟩ := h.wf.slot_eq_some.mp he
      rw [hs] at he
      exact hne (Option.some.inj he).symm
    conn := rfl
    max := rfl
    headerSize := rfl }
  have hbuf : Connection.cleared.buffer = c'.buffer := hz.symm
  rw [hbuf] at hcar
  obtain ⟨hinv,hses⟩ := hset _ id c' true bs _ htouch hcar (fun _ _ => rfl)
  refine ⟨hinv,?_⟩
  rw [hses,if_pos rfl,hz,streamOf_zero]

/-- Removing a socket clears its record and gives its chunks back. -/
theorem remove (h : g.Inv) (id : Int) :
    ∃ hash, hashidRemove g.hash id = .ok (hash,Hashid.ret (g.hash.slot id)) [] ∧
      match g.hash.slot id with
      | none => hash = g.hash
      | some s => ∀ c, g.conn[s]? = some c → ∃ mp fx, databufferClear c.buffer g.mp = .ok (.zero,mp) fx ∧
        visible fx = [] ∧ ({ g with hash, mp }.setConn s .cleared).Inv ∧
        ({ g with hash, mp }.setConn s .cleared).session = Function.update g.session id none := by
  obtain ⟨hash,hr,hw,hlen,hm⟩ := h.wf.remove_spec id
  refine ⟨hash,hr,?_⟩
  cases hs : g.hash.slot id with
  | none =>
    rw [hs] at hm
    exact hm
  | some s =>
    rw [hs] at hm
    obtain ⟨hid,_⟩ := hm
    intro c hc
    obtain ⟨rest,bs,hcar,hset⟩ := h.focus hc
    obtain ⟨mp,fx,he,hl⟩ := clear_leaves hcar
    refine ⟨mp,fx,he,hl.out,?_⟩
    have htouch : Touches g ({ g with hash, mp }.setConn s .cleared) id s .cleared false := {
      wf := hw
      hashLength := hlen
      idAt := fun t ht => by
        change hash.idAt t = _
        rw [hid,Function.update_of_ne ht]
      cleared := fun _ => rfl
      slot := Hashid.slot_remove h.wf hw hs hid
      owner := h.owner hs
      conn := rfl
      max := rfl
      headerSize := rfl }
    exact hset _ id .cleared false [] _ htouch hl.carries hl.keeps

end Inv
end Gate
end MyProgram.SkynetGate
