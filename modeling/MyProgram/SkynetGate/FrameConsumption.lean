import MyProgram.SkynetGate.FrameDelivery

/-! How much of the stream one frame takes off, for each destination that
`_forward` knows. -/
namespace MyProgram.SkynetGate
open Lib
variable {mp mp₁ : Messagepool} {db₁ : Databuffer} {rest : List Nat} {bs : List Buffer} {s : ByteStream} {fx₁ : List Effect}
  {g : Gate} {c : Connection} {n : Nat}

/-- `_forward` and `databuffer_reset` leave a buffer that expects a header at the
start of `left`. -/
def ContinuesWith (g : Gate) (c : Connection) (mp : Messagepool) (rest : List Nat) (size : Int) (left : Bytes) : Prop :=
  ∃ c' mp' bs' fx, forward g c mp size = .ok (c',mp') fx ∧ Carries mp' (databufferReset c'.buffer) rest bs' ⟨0,left⟩

/-- `_forward` takes the body off exactly when there is somebody to send it to. -/
private theorem continuesWith_iff (h : Carries mp c.buffer rest bs s) (hpos : 0 < n) (hn : (n : Int) ≤ s.size) :
    ContinuesWith g c mp rest n (s.content.drop n) ↔ routed g c := by
  obtain ⟨db,mp',bs',fx,he,hl⟩ := forward_leaves (g := g) h hpos hn
  have hreset := hl.carries.setHeader 0
  constructor
  · rintro ⟨c₁,mp₁,bs₁,fx₁,he₁,hc₁⟩
    rw [he] at he₁
    cases he₁
    -- the two streams have different sizes when nothing is taken off
    by_contra hr
    rw [if_neg hr] at hreset
    have hsize : (ByteStream.mk 0 (s.content.drop n)).size = s.size := hc₁.size.symm.trans hreset.size
    rw [ByteStream.size_drop hn] at hsize
    omega
  · intro hr
    rw [if_pos hr] at hreset
    exact ⟨_,mp',bs',fx,he,hreset⟩

/-- When `databuffer_readheader` has announced a frame of `n` bytes, the frame is
taken off whole if and only if the broker, the agent or the watchdog is set. -/
theorem frame_consumed_iff_routed (hg : g.headerSize = 4) (h : Carries mp c.buffer rest bs s)
    (he : databufferReadheader c.buffer mp g.headerSize = .ok (db₁,mp₁,(n : Int)) fx₁) (hpos : 0 < n) :
    ∃ bs₁ body left, Carries mp₁ db₁ rest bs₁ ⟨n,body ++ left⟩ ∧ body.length = n ∧
      (ContinuesWith g { c with buffer := db₁ } mp₁ rest n left ↔ g.broker ≠ 0 ∨ c.agent ≠ 0 ∨ g.watchdog ≠ 0) := by
  obtain ⟨db,mp',bs₁,fx,he',hl⟩ := readheader_leaves h
  rw [hg,he',Act.ok.injEq,Prod.mk.injEq,Prod.mk.injEq] at he
  obtain ⟨⟨rfl,rfl,hsize⟩,rfl⟩ := he
  rcases hr : s.readheader with ⟨⟨header,content⟩,size⟩
  rw [hr] at hl hsize
  subst hsize
  obtain ⟨rfl,hle,_⟩ := ByteStream.readheader_nonneg hr (by omega)
  have hlen : n ≤ content.length := by
    have hcount := ByteStream.size_le ⟨n,content⟩
    dsimp only at hcount
    omega
  refine ⟨bs₁,content.take n,content.drop n,by rw [List.take_append_drop]; exact hl.carries,by simp [hlen],?_⟩
  rw [continuesWith_iff (c := { c with buffer := db }) hl.carries hpos hle]
  simp [routed]

/-- The first chunk of a fresh connection. -/
private theorem push_zero (data : Buffer) : ∃ db mp, databufferPush .zero .zero data = .ok (db,mp) [] ∧
    Carries mp db [] [data] ⟨0,data.bytes⟩ := by
  obtain ⟨off,hh,hs⟩ := Carries.zeroed
  obtain ⟨db,mp,he,hh',hu,hd,_⟩ := databufferPush_spec hh data
  have hnil : unread [] off = [] := (congrArg ByteStream.content hs).symm
  rw [hnil,List.nil_append,List.nil_append] at hu
  exact ⟨db,mp,he,off,hh',by rw [hu,hd]; rfl⟩

/-- A frame of one byte for the watchdog, and the start of the next header. -/
theorem frame_consumed_watched : ∃ db mp db₁ mp₁ fx₁ bs₁ body left,
    databufferPush .zero .zero ⟨0,[0,0,0,1,7,0,0],by decide⟩ = .ok (db,mp) [] ∧
    databufferReadheader db mp watched.headerSize = .ok (db₁,mp₁,((1 : Nat) : Int)) fx₁ ∧
    Carries mp₁ db₁ [] bs₁ ⟨(1 : Nat),body ++ left⟩ ∧ body.length = 1 ∧
    ContinuesWith watched { Connection.cleared with buffer := db₁ } mp₁ [] (1 : Nat) left := by
  obtain ⟨db,mp,he,hc⟩ := push_zero ⟨0,[0,0,0,1,7,0,0],by decide⟩
  obtain ⟨db₁,mp₁,bs₁,fx₁,he₁,_⟩ := readheader_leaves hc
  have hone : (ByteStream.mk 0 [0,0,0,1,7,0,0]).readheader.2 = ((1 : Nat) : Int) := by decide
  rw [hone] at he₁
  obtain ⟨bs₂,body,left,hc₂,hlen,hiff⟩ := frame_consumed_iff_routed (g := watched) (n := 1)
    (c := { Connection.cleared with buffer := db }) rfl hc he₁ (by decide)
  exact ⟨db,mp,db₁,mp₁,fx₁,bs₂,body,left,he,he₁,hc₂,hlen,hiff.mpr (.inr (.inr (by decide)))⟩

/-- A gate without a broker and with a watchdog of zero. -/
def unwatched : Gate := { watched with watchdog := 0 }

/-- A frame of five bytes stays where it is, and the next header is read inside it. -/
theorem unrouted_frame_left : ∃ db mp db₁ mp₁ bs₁ fx₁,
    databufferPush .zero .zero ⟨0,[0,0,0,5,0,0,0,1,8],by decide⟩ = .ok (db,mp) [] ∧
    databufferReadheader db mp unwatched.headerSize = .ok (db₁,mp₁,5) fx₁ ∧
    Carries mp₁ db₁ [] bs₁ ⟨5,[0,0,0,1,8]⟩ ∧
    ¬ ContinuesWith unwatched { Connection.cleared with buffer := db₁ } mp₁ [] 5 [] ∧
    ∃ c₂ mp₂ db₃ mp₃ fx₃, forward unwatched { Connection.cleared with buffer := db₁ } mp₁ 5 = .ok (c₂,mp₂) [] ∧
      databufferReadheader (databufferReset c₂.buffer) mp₂ unwatched.headerSize = .ok (db₃,mp₃,1) fx₃ := by
  obtain ⟨db,mp,he,hc⟩ := push_zero ⟨0,[0,0,0,5,0,0,0,1,8],by decide⟩
  obtain ⟨db₁,mp₁,bs₁,fx₁,he₁,hl₁⟩ := readheader_leaves hc
  have hread : (ByteStream.mk 0 [0,0,0,5,0,0,0,1,8]).readheader = (⟨5,[0,0,0,1,8]⟩,5) := by decide
  rw [hread] at he₁ hl₁
  obtain ⟨db₃,mp₃,_,fx₃,he₃,_⟩ := readheader_leaves (hl₁.carries.setHeader 0)
  have hinside : (ByteStream.mk 0 [0,0,0,1,8]).readheader.2 = 1 := by decide
  rw [hinside] at he₃
  have hiff := continuesWith_iff (g := unwatched) (c := { Connection.cleared with buffer := db₁ }) (n := 5) hl₁.carries
    (by decide) (by decide)
  refine ⟨db,mp,db₁,mp₁,bs₁,fx₁,he,he₁,hl₁.carries,fun h => ?_,_,mp₁,db₃,mp₃,fx₃,rfl,he₃⟩
  rw [routed_setBuffer] at hiff
  exact absurd (hiff.mp h) (by decide)

end MyProgram.SkynetGate
