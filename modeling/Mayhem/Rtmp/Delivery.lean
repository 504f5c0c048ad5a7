import Mayhem.Rtmp.Handshake
import Mayhem.Rtmp.Multiplex
import Mayhem.Rtmp.Projection

/-! What the client writes behind its handshake reaches the `pkt` callback of the server, whole
and in order, however the stream is cut and whatever the owners do. On every way through the
receive loop the server follows the receiver that takes the chunks one by one. -/
namespace Mayhem

namespace Intake

variable {b : Intake} {chunkSz : ℕ}

theorem requestSize_alloc (hs : b.Sound) (sz : ℕ) : sz ≤ (b.requestSize sz).alloc := by
  have hsize := hs.size
  unfold requestSize updateSize
  rw [RBuf.currentBufSz]
  split_ifs with h
  · omega
  · exact Nat.le_add_right _ _

/-- The loop never leaves less than a header and a chunk, once it has them. -/
theorem shuffle_alloc {n : ℕ} (hn : n ≤ chunkSz + RTMP_HDR_MAX_SZ) (h : n ≤ b.alloc) (taken : ℕ) :
    n ≤ (b.shuffle chunkSz taken).alloc := by
  unfold shuffle updateSize
  dsimp only
  split_ifs
  · exact hn
  · exact h

end Intake

namespace Served

variable {o : ServerOwner} {r : Served}

/-- Sends, closes and resets leave the buffer alone and forget no call. -/
structure Quiet (r r' : Served) : Prop where
  intake : r'.intake = r.intake
  calls : r.calls <+: r'.calls

theorem Quiet.refl (r : Served) : r.Quiet r := ⟨rfl, List.prefix_refl _⟩

theorem Quiet.trans {a b c : Served} (hab : a.Quiet b) (hbc : b.Quiet c) : a.Quiet c :=
  ⟨hbc.intake.trans hab.intake, hab.calls.trans hbc.calls⟩

theorem reset_quiet (r : Served) (s : ConnState) : r.Quiet (r.reset o s) := by
  unfold reset
  dsimp only
  split_ifs
  · exact ⟨rfl, List.prefix_append _ _⟩
  · exact ⟨rfl, List.prefix_append _ _⟩

theorem rtmpSendRaw_quiet (r : Served) (buf : List UInt8) : r.Quiet (r.rtmpSendRaw o buf).1 := by
  unfold rtmpSendRaw
  obtain ⟨e, ks, out⟩ := sendRaw r.sock.script buf
  dsimp only
  have hsent : r.Quiet { r with sock := ⟨ks, r.sock.sent ++ out⟩ } := ⟨rfl, List.prefix_refl _⟩
  cases e with
  | sent => exact hsent
  | blocked => exact hsent
  | failed => exact hsent.trans (reset_quiet _ _)
  | closed => exact hsent.trans (reset_quiet _ _)

theorem sendAll_quiet (r : Served) (bufs : List (List UInt8)) : r.Quiet (r.sendAll o bufs).1 := by
  induction bufs generalizing r with
  | nil => exact .refl r
  | cons buf bufs ih =>
    have hraw := r.rtmpSendRaw_quiet (o := o) buf
    unfold sendAll
    cases hres : r.rtmpSendRaw o buf with
    | mk r' ok =>
      rw [hres] at hraw
      cases ok with
      | true => exact hraw.trans (ih r')
      | false => exact hraw

theorem perform_quiet (r : Served) (plan : Plan) : r.Quiet (r.perform o plan) := by
  induction plan generalizing r with
  | done => exact .refl r
  | send x next ih =>
    have hstack : r.Quiet { r with stack := r.stack.tail } := ⟨rfl, List.prefix_refl _⟩
    exact (hstack.trans (sendAll_quiet _ _)).trans (ih _ _)
  | close next ih =>
    have hclose : r.Quiet r.rtmpdClose := ⟨rfl, List.prefix_refl _⟩
    exact hclose.trans (ih _)

/-- A callback adds its own call, and what its owner does adds no packet. -/
theorem callback_quiet (r : Served) (c : ServerCall) :
    (r.call c).SamePkts (r.callback o c) ∧ (r.call c).Quiet (r.callback o c) :=
  ⟨perform_samePkts _ _, perform_quiet _ _⟩

end Served

namespace Server

variable {o : ServerOwner} {r : Server} {full : List UInt8} {ref : Rtmpd} {cs : List Chunk}

/-- A server that has been told of the connection and has handed over what `ref` has, with the
chunks `cs` of the stream `full` still to be consumed. -/
structure Tracks (full : List UInt8) (r : Server) (ref : Rtmpd) (cs : List Chunk) : Prop where
  told : .connected ∈ r.calls
  bytes : r.intake.consumed ++ cs.flatMap Chunk.bytes = full
  pos : 1 ≤ r.chunkSz
  room : r.chunkSz + RTMP_HDR_MAX_SZ ≤ r.intake.alloc
  chunkSz : ref.chunkSz = r.chunkSz
  pkts : r.pkts = ref.pkts
  agrees : ∀ c, SameUnder (Rtmp.frontType cs c) (r.chan c) (ref.chan c)
  sound : Rtmp.Sound ref.chan
  wf : Rtmpd.endpoint.WellFormed ref cs
  one : ∀ c ∈ cs, c.form = .one

theorem acceptChunk_spec (r : Server) (c : Chunk) :
    ((endpoint o).acceptChunk r c).chunkSz = r.chunkSz ∧
      ((endpoint o).acceptChunk r c).intake = r.intake ∧
      ((endpoint o).acceptChunk r c).pkts = r.pkts ++ (c.finishes (r.chan c.chan)).toList ∧
      r.calls <+: ((endpoint o).acceptChunk r c).calls := by
  unfold Endpoint.acceptChunk
  dsimp only [endpoint]
  cases c.finishes (r.chan c.chan) with
  | none => exact ⟨rfl, rfl, (List.append_nil _).symm, List.prefix_refl _⟩
  | some msg =>
    obtain ⟨hsz, hpkts⟩ := r.toServed.rtmpDispatch_pkts (o := o) msg
    have hquiet := (r.toServed.callback_quiet (o := o) (.pkt msg)).2
    exact ⟨hsz, hquiet.intake, hpkts, (List.prefix_append _ _).trans hquiet.calls⟩

namespace Tracks

/-- What is in the buffer or on its way is what the chunks to come say. -/
theorem queue (h : r.Tracks full ref cs) (hs : r.intake.Sound) (hr : r.intake.received <+: full) :
    r.intake.rbuf.contents ++ full.drop r.intake.received.length = cs.flatMap Chunk.bytes := by
  obtain ⟨rest, rfl⟩ := hr
  have hbytes := h.bytes
  rw [← hs.bytes, List.append_assoc] at hbytes
  rw [List.drop_left, List.append_cancel_left hbytes]

/-- With something in the buffer there is a chunk it is the front of. -/
theorem front (h : r.Tracks full ref cs) (hs : r.intake.Sound) (hr : r.intake.received <+: full)
    (hcur : r.intake.rbuf.cur ≠ 0) : ∃ c cs', cs = c :: cs' ∧
      r.intake.rbuf.mem.bytes 0 r.intake.rbuf.cur ++ full.drop r.intake.received.length =
        c.bytes ++ cs'.flatMap Chunk.bytes := by
  have hqueue := h.queue hs hr
  cases cs with
  | nil =>
    have hlen := congrArg List.length hqueue
    rw [List.length_append, RBuf.contents, Memory.bytes_length, List.flatMap_nil, List.length_nil]
      at hlen
    omega
  | cons c cs' => exact ⟨c, cs', rfl, hqueue⟩

variable {c : Chunk}

/-- What the two receivers agree on for the front chunk. -/
theorem enter (h : r.Tracks full ref (c :: cs)) :
    c.enter (r.chan c.chan) = c.enter (ref.chan c.chan) ∧ c.Ok ∧
      (c.hdr.htype = 3 → (r.chan c.chan).curTs ≠ 0xffffff) ∧
      c.Fills r.chunkSz (r.chan c.chan) := by
  obtain ⟨hc, hfill, -⟩ := h.wf
  have hagree : SameUnder c.hdr.htype (r.chan c.chan) (ref.chan c.chan) := by
    simpa [Rtmp.frontType] using h.agrees c.chan
  refine ⟨hagree.enter_eq, hc, fun h3 => ?_, ?_⟩
  · rw [hagree.curTs (by omega)]
    exact h.sound.plain _
  · rw [Chunk.Fills, hagree.enter_eq, ← h.chunkSz]
    exact hfill

/-- A call on an incomplete chunk marks only what the retry overwrites. -/
theorem wait (h : r.Tracks full ref (c :: cs)) {queue : List UInt8}
    (hcur : 1 ≤ r.intake.rbuf.cur)
    (hfront : r.intake.rbuf.mem.bytes 0 r.intake.rbuf.cur ++ queue =
      c.bytes ++ cs.flatMap Chunk.bytes) (chan : ℕ) :
    SameUnder (Rtmp.frontType (c :: cs) chan)
      (Function.update r.chan (basicHdr r.intake.rbuf.mem).chan
        (headIn r.intake.rbuf.mem r.chan).1.begin.giveBack chan) (ref.chan chan) := by
  obtain ⟨-, hc, hplain, -⟩ := h.enter
  have hform : c.form.len ≤ r.intake.rbuf.cur := by
    rw [h.one c List.mem_cons_self]
    exact hcur
  have hbasic := front_basic hc hfront hform
  by_cases hne : chan = c.chan
  · subst hne
    have hbusy : ∀ b, (headIn r.intake.rbuf.mem r.chan).1.pBuf = some b → b.data ≠ [] := by
      intro b hb
      rw [headIn, (msgHdr_keeps _ _ _ _).1, (h.agrees _).pBuf] at hb
      exact h.sound.busy _ b hb
    have hhead : SameUnder c.hdr.htype
        (msgHdr r.intake.rbuf.mem (sizes c.hdr.htype) c.form.len (r.chan c.chan)).1
        (r.chan c.chan) :=
      msgHdr_sameUnder c.hdr.htype_lt r.intake.rbuf.mem c.form.len hplain
    have hagree := h.agrees c.chan
    have hin : (headIn r.intake.rbuf.mem r.chan).1 =
        (msgHdr r.intake.rbuf.mem (sizes c.hdr.htype) c.form.len (r.chan c.chan)).1 := by
      rw [headIn, hbasic]
    rw [show (basicHdr r.intake.rbuf.mem).chan = c.chan from congrArg _ hbasic,
      Function.update_self]
    rw [Rtmp.frontType, if_pos rfl] at hagree ⊢
    exact (((giveBack_begin hbusy).of_three _).trans (hin ▸ hhead)).trans hagree
  · rw [show (basicHdr r.intake.rbuf.mem).chan = c.chan from congrArg _ hbasic,
      Function.update_of_ne hne]
    exact h.agrees chan

/-- The front chunk ends where it does, not where stale bytes say. -/
theorem chunkEnd_eq (h : r.Tracks full ref (c :: cs)) {queue : List UInt8}
    (hfront : r.intake.rbuf.mem.bytes 0 r.intake.rbuf.cur ++ queue =
      c.bytes ++ cs.flatMap Chunk.bytes) (hall : c.bytes.length ≤ r.intake.rbuf.cur) :
    r.intake.rbuf.mem.bytes 0 c.bytes.length = c.bytes ∧
      chunkEnd r.chunkSz r.intake.rbuf.mem r.chan = c.bytes.length := by
  obtain ⟨-, hc, hts, hfill⟩ := h.enter
  have hbytes : r.intake.rbuf.mem.bytes 0 c.bytes.length = c.bytes := by
    rw [front_bytes hfront hall le_rfl, List.take_length]
  exact ⟨hbytes, chunkEnd_head hc hts hfill
    ((Memory.bytes_append_iff _ 0 c.head c.body).mp hbytes).1⟩

/-- A chunk of one-byte form fits the allocation. -/
theorem fits (h : r.Tracks full ref (c :: cs)) : c.bytes.length ≤ r.intake.alloc := by
  obtain ⟨-, -, -, hfill⟩ := h.enter
  have hbody : c.body.length ≤ r.chunkSz := by
    rw [Chunk.Fills, RtmpChan.bodySz_eq_min] at hfill
    exact hfill.trans_le (Nat.min_le_right _ _)
  have hhdr := c.hdr.len_le
  have hform : c.form.len = 1 := by rw [h.one c List.mem_cons_self]; rfl
  have hroom := h.room
  rw [RTMP_HDR_MAX_SZ] at hroom
  rw [Chunk.bytes_length, hform]
  omega

/-- A chunk that is not all there leaves room for more of it. -/
theorem space (h : r.Tracks full ref cs) (hs : r.intake.Sound) (hr : r.intake.received <+: full)
    (hshort : r.intake.rbuf.cur = 0 ∨
      r.intake.rbuf.cur < chunkEnd r.chunkSz r.intake.rbuf.mem r.chan) :
    r.intake.rbuf.space ≠ 0 := by
  have hsize := hs.size
  have hroom := h.room
  rw [RTMP_HDR_MAX_SZ] at hroom
  by_cases h0 : r.intake.rbuf.cur = 0
  · omega
  obtain ⟨c, cs', rfl, hfront⟩ := h.front hs hr h0
  have hfits := h.fits
  by_contra hfull
  have hall : c.bytes.length ≤ r.intake.rbuf.cur := by omega
  have hend := (h.chunkEnd_eq hfront hall).2
  omega

/-- A whole chunk at the front takes both receivers one chunk further. -/
theorem take (h : r.Tracks full ref cs) (hs : r.intake.Sound) (hr : r.intake.received <+: full)
    (h0 : r.intake.rbuf.cur ≠ 0)
    (hlong : chunkEnd r.chunkSz r.intake.rbuf.mem r.chan ≤ r.intake.rbuf.cur) :
    ∃ c cs', cs = c :: cs' ∧
      Tracks full
        { (endpoint o).accept r r.intake.rbuf.mem with
          intake := ((endpoint o).accept r r.intake.rbuf.mem).intake.shuffle
            ((endpoint o).accept r r.intake.rbuf.mem).chunkSz
            (chunkEnd r.chunkSz r.intake.rbuf.mem r.chan) }
        (Rtmpd.endpoint.acceptChunk ref c) cs' := by
  obtain ⟨c, cs', rfl, hfront⟩ := h.front hs hr h0
  obtain ⟨henter, hc, hts, hfill⟩ := h.enter
  obtain ⟨-, hfillr, hwf⟩ := h.wf
  have hall : c.bytes.length ≤ r.intake.rbuf.cur := by
    by_contra hlt
    have hshort := front_short hc hts hfill hfront (by omega) (by omega)
    omega
  obtain ⟨hbytes, hend⟩ := h.chunkEnd_eq hfront hall
  have haccept : (endpoint o).accept r r.intake.rbuf.mem = (endpoint o).acceptChunk r c :=
    Endpoint.accept_eq (E := endpoint o) hc hts hfill hbytes
  obtain ⟨hsz, hin, hpkts, hcalls⟩ := acceptChunk_spec (o := o) r c
  have hchan : ((endpoint o).acceptChunk r c).chan =
      Function.update r.chan c.chan (c.leave (r.chan c.chan)) :=
    Endpoint.acceptChunk_chan (E := endpoint o) r c
  have hchan' : (Rtmpd.endpoint.acceptChunk ref c).chan =
      Function.update ref.chan c.chan (c.leave (ref.chan c.chan)) :=
    Endpoint.acceptChunk_chan (E := Rtmpd.endpoint) ref c
  have hfin : c.finishes (r.chan c.chan) = c.finishes (ref.chan c.chan) := by
    simp only [Chunk.finishes, henter]
  rw [haccept, hend]
  refine ⟨c, cs', rfl, ?_⟩
  constructor
  · exact hcalls.subset h.told
  · show (Intake.shuffle _ _ _).consumed ++ _ = full
    rw [Intake.shuffle_consumed, hin, hbytes, List.append_assoc, ← List.flatMap_cons]
    exact h.bytes
  · exact hsz.symm ▸ h.pos
  · show _ ≤ (Intake.shuffle _ _ _).alloc
    rw [hsz, hin]
    exact Intake.shuffle_alloc le_rfl h.room _
  · have hsteady : (Rtmpd.endpoint.acceptChunk ref c).chunkSz = ref.chunkSz :=
      Rtmpd.steady.acceptChunk
    exact hsteady.trans (h.chunkSz.trans hsz.symm)
  · have hsame : ((endpoint o).acceptChunk r c).pkts = (Rtmpd.endpoint.acceptChunk ref c).pkts := by
      rw [hpkts, Rtmpd.acceptChunk_pkts, h.pkts, hfin]
    exact hsame
  · intro chan
    show SameUnder _ (((endpoint o).acceptChunk r c).chan chan) _
    rw [hchan, hchan']
    by_cases heq : chan = c.chan
    · rw [heq, Function.update_self, Function.update_self, Chunk.leave, Chunk.leave, henter]
      exact .refl _ _
    · rw [Function.update_of_ne heq, Function.update_of_ne heq]
      have h3 := h.agrees chan
      rw [Rtmp.frontType, if_neg heq] at h3
      exact h3.of_three _
  · have hpos : 1 ≤ ref.chunkSz := h.chunkSz ▸ h.pos
    rw [hchan']
    exact h.sound.leave hc hpos hfillr
  · exact hwf
  · exact fun d hd => h.one d (List.mem_cons_of_mem c hd)

/-- Fields that no packet depends on. -/
theorem set (h : r.Tracks full ref cs) (bs : List UInt8) (decoded : Option (ℕ × UInt8)) :
    Tracks full { r with intake := r.intake.fill bs, decoded := decoded } ref cs :=
  ⟨h.told, h.bytes, h.pos, h.room, h.chunkSz, h.pkts, h.agrees, h.sound, h.wf, h.one⟩

theorem mark (h : r.Tracks full ref cs) (decoded : Option (ℕ × UInt8)) :
    Tracks full { r with decoded := decoded } ref cs :=
  ⟨h.told, h.bytes, h.pos, h.room, h.chunkSz, h.pkts, h.agrees, h.sound, h.wf, h.one⟩

end Tracks

/-- A receive that delivers fills the buffer or leaves everything. -/
theorem fillRcvBuf_eq {queue : List UInt8} {ans : Recv} (hd : ans.Delivers)
    {s : Server × List UInt8} (h : r.fillRcvBuf o queue ans = some s) :
    s.1 = r ∨ ∃ bs, s.1 = { r with intake := r.intake.fill bs } := by
  by_cases hspace : r.intake.rbuf.space = 0
  · simp [fillRcvBuf, hspace] at h
  cases ans with
  | upTo n =>
    by_cases hq : queue = []
    · simp only [fillRcvBuf, if_neg hspace, if_pos hq] at h
      exact .inl (congrArg Prod.fst (Option.some.inj h).symm)
    · simp only [fillRcvBuf, if_neg hspace, if_neg hq] at h
      exact .inr ⟨_, congrArg Prod.fst (Option.some.inj h).symm⟩
  | again =>
    simp only [fillRcvBuf, if_neg hspace] at h
    exact .inl (congrArg Prod.fst (Option.some.inj h).symm)
  | fails => exact hd.elim
  | eof => exact hd.elim

theorem fillRcvBuf_ne_none {queue : List UInt8} {ans : Recv} (hspace : r.intake.rbuf.space ≠ 0) :
    r.fillRcvBuf o queue ans ≠ none := by
  unfold fillRcvBuf
  rw [if_neg hspace]
  cases ans with
  | upTo n =>
    dsimp only
    split_ifs <;> exact Option.some_ne_none _
  | again => exact Option.some_ne_none _
  | fails => exact Option.some_ne_none _
  | eof => exact Option.some_ne_none _

/-- What the decoder notes of its first call. -/
def noted (r : Server) : Server :=
  { r with decoded := some (r.decoded.getD (r.intake.consumed.length, r.intake.rbuf.mem 0)) }

/-- The drain of a server behind its handshake is a call of the decoder. -/
theorem drain_ready (h0 : r.intake.rbuf.cur ≠ 0) (hst : r.state = .ready) (rand : List UInt8) :
    r.rtmpDrainBuf o rand = some
      (if r.intake.rbuf.cur < chunkEnd r.chunkSz r.intake.rbuf.mem r.chan then
        ((endpoint o).setChan r.noted (Function.update r.chan (basicHdr r.intake.rbuf.mem).chan
          (headIn r.intake.rbuf.mem r.chan).1.begin.giveBack), none)
      else ((endpoint o).accept r.noted r.intake.rbuf.mem,
        some (chunkEnd r.chunkSz r.intake.rbuf.mem r.chan))) := by
  have hdecode : r.rtmpDrainBuf o rand =
      some ((endpoint o).decodeRtmp r.noted r.intake.rbuf.mem r.intake.rbuf.cur) := by
    simp only [rtmpDrainBuf, if_neg h0, hst, decodeRtmp, noted]
  rw [hdecode, Endpoint.decodeRtmp_eq _ (by omega)]
  rfl

namespace Tracks

variable {queue rand : List UInt8} {ans : Recv} {s : Server × List UInt8}

theorem fill (h : r.Tracks full ref cs) (hd : ans.Delivers)
    (hfill : r.fillRcvBuf o queue ans = some s) : s.1.Tracks full ref cs := by
  obtain hs | ⟨bs, hs⟩ := fillRcvBuf_eq hd hfill
  · exact hs ▸ h
  · rw [hs]
    exact h.set bs r.decoded

/-- One round behind the handshake: the same packets are still to come. -/
theorem pass (h : r.Tracks full ref cs) (hs : r.intake.Sound) (hr : r.intake.received <+: full)
    (hst : r.state = .ready) (hd : ans.Delivers)
    (hpass : pass o (r, queue) rand ans = some s) :
    ∃ ref' cs', s.1.Tracks full ref' cs' ∧
      Rtmpd.endpoint.acceptAll ref' cs' = Rtmpd.endpoint.acceptAll ref cs := by
  by_cases h0 : r.intake.rbuf.cur = 0
  · simp only [Server.pass, rtmpDrainBuf, if_pos h0] at hpass
    exact ⟨ref, cs, h.fill hd hpass, rfl⟩
  simp only [Server.pass, drain_ready h0 hst] at hpass
  by_cases hshort : r.intake.rbuf.cur < chunkEnd r.chunkSz r.intake.rbuf.mem r.chan
  · rw [if_pos hshort] at hpass
    obtain ⟨c, cs', rfl, hfront⟩ := h.front hs hr h0
    refine ⟨ref, _, fill ?_ hd hpass, rfl⟩
    exact ⟨h.told, h.bytes, h.pos, h.room, h.chunkSz, h.pkts,
      h.wait (Nat.one_le_iff_ne_zero.mpr h0) hfront, h.sound, h.wf, h.one⟩
  · have hpos := chunkEnd_pos r.chunkSz r.intake.rbuf.mem r.chan
    rw [if_neg hshort] at hpass
    obtain ⟨c, cs', rfl, htake⟩ := (h.mark r.noted.decoded).take (o := o) hs hr h0
      (Nat.not_lt.mp hshort)
    have hcur : ¬ ((endpoint o).accept r.noted r.intake.rbuf.mem).intake.rbuf.cur <
        chunkEnd r.chunkSz r.intake.rbuf.mem r.chan := by
      have hkept := accept_kept (o := o) r.noted r.intake.rbuf.mem
      rw [hkept.resized.cur]
      exact hshort
    simp only [if_neg (Nat.ne_of_gt hpos), if_neg hcur] at hpass
    refine ⟨_, cs', ?_, rfl⟩
    rw [← Option.some.inj hpass]
    exact htake

/-- No assertion fails behind the handshake. -/
theorem pass_ne_none (h : r.Tracks full ref cs) (hs : r.intake.Sound)
    (hr : r.intake.received <+: full) (hst : r.state = .ready) :
    Server.pass o (r, queue) rand ans ≠ none := by
  by_cases h0 : r.intake.rbuf.cur = 0
  · simp only [Server.pass, rtmpDrainBuf, if_pos h0]
    exact fillRcvBuf_ne_none (h.space hs hr (.inl h0))
  simp only [Server.pass, drain_ready h0 hst]
  by_cases hshort : r.intake.rbuf.cur < chunkEnd r.chunkSz r.intake.rbuf.mem r.chan
  · rw [if_pos hshort]
    exact fillRcvBuf_ne_none (r := (endpoint o).setChan r.noted _)
      (h.space hs hr (.inr hshort))
  · have hpos := chunkEnd_pos r.chunkSz r.intake.rbuf.mem r.chan
    have hcur : ¬ ((endpoint o).accept r.noted r.intake.rbuf.mem).intake.rbuf.cur <
        chunkEnd r.chunkSz r.intake.rbuf.mem r.chan := by
      have hkept := accept_kept (o := o) r.noted r.intake.rbuf.mem
      rw [hkept.resized.cur]
      exact hshort
    simp only [if_neg hshort, if_neg (Nat.ne_of_gt hpos), if_neg hcur]
    exact Option.some_ne_none _

/-- With the whole stream received, a decoder that waits has handed everything over. -/
theorem finished (h : r.Tracks full ref cs) (hs : r.intake.Sound) (hr : r.intake.received = full)
    (hst : r.state = .ready) (hwait : (r.rtmpDrainBuf o rand).map Prod.snd = some none) :
    cs = [] := by
  have hqueue := h.queue hs (hr ▸ List.prefix_refl _)
  rw [hr, List.drop_length, List.append_nil] at hqueue
  cases cs with
  | nil => rfl
  | cons c cs' =>
    have hfront : r.intake.rbuf.mem.bytes 0 r.intake.rbuf.cur ++ [] =
        c.bytes ++ cs'.flatMap Chunk.bytes := (List.append_nil _).trans hqueue
    have hlen := congrArg List.length hqueue
    rw [RBuf.contents, Memory.bytes_length, List.flatMap_cons, List.length_append] at hlen
    have hpos := List.length_pos_iff.mpr c.bytes_ne_nil
    have hend := (h.chunkEnd_eq hfront (by omega)).2
    rw [drain_ready (by omega) hst, if_neg (by omega)] at hwait
    simp at hwait

end Tracks

/-! ### In front of the first chunk -/

/-- A server that is still at its handshake. -/
structure Early (r : Server) : Prop where
  untold : .connected ∉ r.calls
  chan : r.chan = fun _ => {}
  pkts : r.pkts = []
  room : r.mask = .read → r.chunkSz = GREETING_LEN ∧ GREETING_LEN ≤ r.intake.alloc

/-- A handshake, and chunks with one-byte headers that a fresh receiver can take. -/
structure Carries (full : List UInt8) (cs : List Chunk) : Prop where
  bytes : ∃ hs, hs.length = FULL_LEN ∧ full = hs ++ cs.flatMap Chunk.bytes
  wf : Rtmpd.endpoint.WellFormed (Rtmpd.fresh RTMP_DEFAULT_CHUNK_SZ) cs
  one : ∀ c ∈ cs, c.form = .one

namespace Early

variable {stream queue rand : List UInt8} {ans : Recv} {s : Server × List UInt8}

theorem listen (h : r.Early) (hs : r.intake.Sound) : (r.listenCb o).Early := by
  have h1537 : ¬ RTMP_HANDSHAKE_LEN + 1 = 0 := by decide
  unfold listenCb Served.transition Served.init Served.rbufRequestSize Served.entered
  simp only [if_neg h1537, if_true]
  exact ⟨h.untold, h.chan, h.pkts, fun _ => ⟨rfl, Intake.requestSize_alloc hs _⟩⟩

theorem fill (h : r.Early) (hd : ans.Delivers) (hfill : r.fillRcvBuf o queue ans = some s) :
    s.1.Early := by
  obtain hs | ⟨bs, hs⟩ := fillRcvBuf_eq hd hfill
  · exact hs ▸ h
  · rw [hs]
    exact ⟨h.untold, h.chan, h.pkts, h.room⟩

variable (o queue rand ans) in
/-- A round in front of the reply. -/
theorem waiting (h : r.Early) (hset : r.Settled stream) (hm : r.mask = .read)
    (hst : r.state = .handshake1) (hsent : r.sock.sent = []) (hc : r.intake.consumed = [])
    (hk : FullOrAgain FULL_LEN r.sock.script) :
    pass o (r, queue) rand ans ≠ none ∧
      ∀ s, ans.Delivers → pass o (r, queue) rand ans = some s → s.1.Early := by
  obtain ⟨hsz, halloc⟩ := h.room hm
  have hsize := hset.sound.size
  have hgreeting : GREETING_LEN = RTMP_HANDSHAKE_LEN + 1 := rfl
  by_cases h0 : r.intake.rbuf.cur = 0
  · simp only [pass, rtmpDrainBuf, if_pos h0]
    exact ⟨fillRcvBuf_ne_none (by omega), fun s hd hpass => h.fill hd hpass⟩
  by_cases hlen : r.intake.rbuf.cur < RTMP_HANDSHAKE_LEN + 1
  · have hspace : r.intake.rbuf.space ≠ 0 := by omega
    simp only [pass, rtmpDrainBuf, if_neg h0, hst, Served.handshake1Req, if_pos hlen]
    exact ⟨fillRcvBuf_ne_none hspace, fun s hd hpass => h.fill hd hpass⟩
  have hfull : GREETING_LEN ≤ r.intake.rbuf.cur := Nat.not_lt.mp hlen
  obtain ⟨ks, buf, -, -, hreq | hreq⟩ := Served.handshake1Req_outcome (o := o) hset.sound
    hset.received hc hsent hfull hk rand
  · simp only [pass, rtmpDrainBuf, if_neg h0, hst, hreq, if_true]
    refine ⟨Option.some_ne_none _, fun s _ hpass => ?_⟩
    obtain rfl := Option.some.inj hpass
    exact ⟨h.untold, h.chan, h.pkts, h.room⟩
  · simp only [pass, rtmpDrainBuf, if_neg h0, hst, hreq]
    rw [if_neg (by decide), if_neg (Nat.not_lt.mpr hfull)]
    refine ⟨Option.some_ne_none _, fun s _ hpass => ?_⟩
    obtain rfl := Option.some.inj hpass
    refine ⟨h.untold, h.chan, h.pkts, fun _ => ⟨hsz, ?_⟩⟩
    exact Intake.shuffle_alloc (by rw [hsz]; exact Nat.le_add_right _ _) halloc _

variable (o queue rand ans) in
/-- A round behind the reply: with C2 the server is where its first chunk begins. -/
theorem replied (h : r.Early) (hset : r.Settled stream) (hu : r.Untold) (hm : r.mask = .read)
    (hst : r.state = .handshake2) (hsent : r.sock.sent = r.hello)
    (hc : r.intake.consumed.length = GREETING_LEN) (hr : r.Replied stream)
    (hcarry : Carries full cs) (hfull : stream <+: full) :
    pass o (r, queue) rand ans ≠ none ∧
      ∀ s, ans.Delivers → queue = stream.drop r.intake.received.length →
        pass o (r, queue) rand ans = some s →
          s.1.Early ∨ s.1.Tracks full (Rtmpd.fresh RTMP_DEFAULT_CHUNK_SZ) cs := by
  obtain ⟨hsz, halloc⟩ := h.room hm
  have hsize := hset.sound.size
  have hgreeting : GREETING_LEN = RTMP_HANDSHAKE_LEN + 1 := rfl
  by_cases h0 : r.intake.rbuf.cur = 0
  · simp only [pass, rtmpDrainBuf, if_pos h0]
    exact ⟨fillRcvBuf_ne_none (by omega), fun s hd _ hpass => .inl (h.fill hd hpass)⟩
  by_cases hlen : r.intake.rbuf.cur < RTMP_HANDSHAKE_LEN
  · have hspace : r.intake.rbuf.space ≠ 0 := by omega
    simp only [pass, rtmpDrainBuf, if_neg h0, hst, Served.handshake2Req, if_pos hlen]
    exact ⟨fillRcvBuf_ne_none hspace, fun s hd _ hpass => .inl (h.fill hd hpass)⟩
  have h128 : ¬ RTMP_DEFAULT_CHUNK_SZ = 0 := by decide
  set r₁ : Served := { r.toServed with
    chunkSz := RTMP_DEFAULT_CHUNK_SZ
    intake := r.intake.requestSize RTMP_DEFAULT_CHUNK_SZ
    state := .ready
    greeted := some r.sock.sent } with hr₁
  have hreq : r.toServed.handshake2Req o = (r₁.callback o .connected, some RTMP_HANDSHAKE_LEN) := by
    unfold Served.handshake2Req
    rw [if_neg hlen]
    simp only [Served.rbufRequestSize, if_neg h128, Served.transition, Served.entered, if_true, hr₁]
  obtain ⟨⟨hsz₁, hpkts₁⟩, ⟨hin₁, hcalls₁⟩⟩ := r₁.callback_quiet (o := o) .connected
  have htold : .connected ∈ (r₁.callback o .connected).calls :=
    hcalls₁.subset (List.mem_append_right _ List.mem_cons_self)
  set r₂ := r₁.callback o .connected with hr₂
  have hcur₁ : ¬ r₂.intake.rbuf.cur < RTMP_HANDSHAKE_LEN := by
    rw [hin₁]
    show ¬ (r.intake.requestSize _).rbuf.cur < _
    rwa [Intake.requestSize_cur]
  have hpass : pass o (r, queue) rand ans = some ({ r with
      toServed := { r₂ with
        intake := r₂.intake.shuffle r₂.chunkSz RTMP_HANDSHAKE_LEN } }, queue) := by
    simp only [pass, rtmpDrainBuf, if_neg h0, hst, hreq, if_neg hcur₁]
    rw [if_neg (by decide)]
  refine ⟨hpass ▸ Option.some_ne_none _, fun s hd hqueue hs => .inr ?_⟩
  have hset' := (pass_replied (o := o) hd hset hu hm hst hsent hc hr rand (hqueue ▸ hs)).settled
  obtain rfl := Option.some.inj (hpass.symm.trans hs)
  obtain ⟨hs, hhs, rfl⟩ := hcarry.bytes
  have hcons : (r₂.intake.shuffle r₂.chunkSz
      RTMP_HANDSHAKE_LEN).consumed = hs := by
    have hfront : _ ++ _ <+: hs ++ cs.flatMap Chunk.bytes :=
      hset'.sound.bytes ▸ hset'.received.trans hfull
    have hlen' : (r₂.intake.shuffle r₂.chunkSz
        RTMP_HANDSHAKE_LEN).consumed.length = hs.length := by
      rw [Intake.shuffle_consumed, List.length_append, Memory.bytes_length, hin₁]
      show (r.intake.requestSize _).consumed.length + _ = _
      rw [Intake.requestSize_consumed, hc, hhs]
      rfl
    obtain ⟨tail, htail⟩ := (List.prefix_append _ _).trans hfront
    exact (List.append_inj htail hlen').1
  have hsz' : r₂.chunkSz = RTMP_DEFAULT_CHUNK_SZ := hsz₁
  have hroom : RTMP_DEFAULT_CHUNK_SZ + RTMP_HDR_MAX_SZ ≤
      (r.intake.requestSize RTMP_DEFAULT_CHUNK_SZ).alloc := by
    unfold Intake.requestSize
    split_ifs
    · exact (show _ ≤ GREETING_LEN by decide).trans halloc
    · exact le_rfl
  constructor
  · exact htold
  · exact congrArg (· ++ cs.flatMap Chunk.bytes) hcons
  · exact hsz'.symm ▸ (by decide : 1 ≤ RTMP_DEFAULT_CHUNK_SZ)
  · show r₂.chunkSz + _ ≤ (Intake.shuffle _ _ _).alloc
    rw [hsz', hin₁]
    exact Intake.shuffle_alloc le_rfl hroom _
  · exact hsz'.symm
  · have hnone : (r₁.call .connected).pkts = [] := by
      rw [Served.pkts, Served.call, List.filterMap_append]
      exact congrArg (· ++ []) h.pkts
    exact hpkts₁.trans hnone
  · intro c
    rw [h.chan]
    exact .refl _ _
  · exact ⟨fun _ => (by decide : (0 : UInt32) ≠ 0xffffff), fun _ _ hb => by cases hb⟩
  · exact hcarry.wf
  · exact hcarry.one

end Early

/-- A whole greeting or its answer in the buffer is not waited for. -/
theorem handshake1Req_some {l : Served} (h : GREETING_LEN ≤ l.intake.rbuf.cur) (rand : List UInt8) :
    (l.handshake1Req o rand).2 ≠ none := by
  have hall : ¬ l.intake.rbuf.cur < RTMP_HANDSHAKE_LEN + 1 := Nat.not_lt.mpr h
  unfold Served.handshake1Req
  rw [if_neg hall]
  split <;> exact Option.some_ne_none _

theorem handshake2Req_some {l : Served} (h : RTMP_HANDSHAKE_LEN ≤ l.intake.rbuf.cur) :
    (l.handshake2Req o).2 ≠ none := by
  unfold Served.handshake2Req
  rw [if_neg (Nat.not_lt.mpr h)]
  split
  · exact Option.some_ne_none _
  · split <;> exact Option.some_ne_none _

/-- The server is at its handshake, or has handed over a front of what `cs` carries. -/
def OnTrack (full : List UInt8) (cs : List Chunk) (r : Server) : Prop :=
  r.Early ∨ ∃ ref rest, r.Tracks full ref rest ∧ Rtmpd.endpoint.acceptAll ref rest =
    Rtmpd.endpoint.acceptAll (Rtmpd.fresh RTMP_DEFAULT_CHUNK_SZ) cs

theorem OnTrack.early (h : r.OnTrack full cs) (hno : .connected ∉ r.calls) : r.Early := by
  obtain h | ⟨ref, rest, h, -⟩ := h
  · exact h
  · exact absurd h.told hno

theorem OnTrack.tracks (h : r.OnTrack full cs) (hyes : .connected ∈ r.calls) :
    ∃ ref rest, r.Tracks full ref rest ∧ Rtmpd.endpoint.acceptAll ref rest =
      Rtmpd.endpoint.acceptAll (Rtmpd.fresh RTMP_DEFAULT_CHUNK_SZ) cs := by
  obtain h | h := h
  · exact absurd hyes h.untold
  · exact h

theorem told_calls {l : Served} {stream : List UInt8} (h : l.Told stream) :
    .connected ∈ l.calls := by
  have honce := h.once
  exact List.count_pos_iff.mp (by omega)

theorem told_ready {l : Served} {stream : List UInt8} (h : l.Told stream) (hm : l.mask = .read) :
    l.state = .ready := by
  rcases h.mask with ⟨-, hst⟩ | hdel
  · exact hst
  · rw [hm] at hdel
    cases hdel

/-- One round of the receive loop: no assertion fails, and the server stays on track. -/
theorem OnTrack.round (o : ServerOwner) (rand : List UInt8) {stream : List UInt8} {ans : Recv}
    (h : r.OnTrack full cs) (hcarry : Carries full cs) (hset : r.Settled stream) (hfull : stream <+: full)
    (hm : r.mask = .read) (hk : FullOrAgain FULL_LEN r.sock.script) (hd : ans.Delivers) :
    Server.pass o (r, stream.drop r.intake.received.length) rand ans ≠ none ∧
      ∀ s, Server.pass o (r, stream.drop r.intake.received.length) rand ans = some s →
        s.1.OnTrack full cs := by
  cases hset.phase with
  | listening _ hm' =>
    rw [hm] at hm'
    cases hm'
  | waiting hu _ hst hsent hc =>
    have hwait := (h.early hu.calls).waiting o (stream.drop r.intake.received.length) rand ans
      hset hm hst hsent hc hk
    exact ⟨hwait.1, fun s hs => .inl (hwait.2 s hd hs)⟩
  | replied hu _ hst hsent hc hr =>
    have hreply := (h.early hu.calls).replied o (stream.drop r.intake.received.length) rand ans
      hset hu hm hst hsent hc hr hcarry hfull
    refine ⟨hreply.1, fun s hs => ?_⟩
    exact (hreply.2 s hd rfl hs).imp id fun ht => ⟨_, cs, ht, rfl⟩
  | told ht =>
    have hst := told_ready ht hm
    have hr := hset.received.trans hfull
    obtain ⟨ref, rest, htrack, hall⟩ := h.tracks (told_calls ht)
    refine ⟨htrack.pass_ne_none hset.sound hr hst, fun s hs => .inr ?_⟩
    obtain ⟨ref', rest', htrack', hall'⟩ := htrack.pass hset.sound hr hst hd hs
    exact ⟨ref', rest', htrack', hall'.trans hall⟩

/-- What has been handed over is a front of what there is to hand over. -/
theorem OnTrack.pkts (h : r.OnTrack full cs) : r.pkts <+:
    (Rtmpd.endpoint.acceptAll (Rtmpd.fresh RTMP_DEFAULT_CHUNK_SZ) cs).pkts := by
  obtain h | ⟨ref, rest, h, hall⟩ := h
  · rw [h.pkts]
    exact List.nil_prefix
  · rw [h.pkts, ← hall]
    exact Rtmpd.acceptAll_pkts rest

/-- With the whole stream received, a server that waits has handed everything over. -/
theorem OnTrack.finished {rand : List UInt8} (h : r.OnTrack full cs) (hcarry : Carries full cs)
    (hset : r.Settled full) (hr : r.intake.received = full) (hm : r.mask = .read)
    (hwait : (r.rtmpDrainBuf o rand).map Prod.snd = some none) :
    r.pkts = (Rtmpd.endpoint.acceptAll (Rtmpd.fresh RTMP_DEFAULT_CHUNK_SZ) cs).pkts := by
  obtain ⟨hs, hhs, hbytes⟩ := hcarry.bytes
  have hlen := hset.sound.length
  have hlong : FULL_LEN ≤ full.length := by
    rw [hbytes, List.length_append]
    omega
  rw [hr] at hlen
  cases hset.phase with
  | listening _ hm' =>
    rw [hm] at hm'
    cases hm'
  | waiting hu _ hst hsent hc =>
    rw [hc, List.length_nil] at hlen
    have hgreeting : GREETING_LEN ≤ FULL_LEN := by decide
    have hsome := handshake1Req_some (o := o) (l := r.toServed) (by omega) rand
    have h0 : r.intake.rbuf.cur ≠ 0 := by
      have : 0 < GREETING_LEN := by decide
      omega
    simp only [rtmpDrainBuf, if_neg h0, hst, Option.map_some, Option.some.injEq] at hwait
    exact absurd hwait hsome
  | replied hu _ hst hsent hc hrep =>
    have hsum : FULL_LEN = GREETING_LEN + RTMP_HANDSHAKE_LEN := by decide
    have hsome := handshake2Req_some (o := o) (l := r.toServed) (by omega)
    have h0 : r.intake.rbuf.cur ≠ 0 := by
      have : 0 < RTMP_HANDSHAKE_LEN := by decide
      omega
    simp only [rtmpDrainBuf, if_neg h0, hst, Option.map_some, Option.some.injEq] at hwait
    exact absurd hwait hsome
  | told ht =>
    obtain ⟨ref, rest, htrack, hall⟩ := h.tracks (told_calls ht)
    have hnil := htrack.finished hset.sound hr (told_ready ht hm) hwait
    rw [htrack.pkts, ← hall, hnil]
    rfl

/-! ### A silent owner -/

section Silent

variable {queue : List UInt8} {s : Server × List UInt8}

theorem accept_silent (r : Server) (m : Memory) :
    ((endpoint .silent).accept r m).mask = r.mask ∧ ((endpoint .silent).accept r m).state = r.state ∧
      ((endpoint .silent).accept r m).intake = r.intake := by
  unfold Endpoint.accept
  dsimp only [endpoint]
  split_ifs <;> exact ⟨rfl, rfl, rfl⟩

/-- A receive takes something in, or there is nothing. -/
theorem fillRcvBuf_grows {n : ℕ} (h : r.fillRcvBuf .silent queue (.upTo n) = some s) :
    s.1.mask = r.mask ∧ s.1.state = r.state ∧ s.1.intake.consumed = r.intake.consumed ∧
      (queue = [] ∨ r.intake.received.length < s.1.intake.received.length) := by
  by_cases hspace : r.intake.rbuf.space = 0
  · simp [fillRcvBuf, hspace] at h
  by_cases hq : queue = []
  · simp only [fillRcvBuf, if_neg hspace, if_pos hq] at h
    obtain rfl := Option.some.inj h
    exact ⟨rfl, rfl, rfl, .inl hq⟩
  · simp only [fillRcvBuf, if_neg hspace, if_neg hq] at h
    obtain rfl := Option.some.inj h
    refine ⟨rfl, rfl, rfl, .inr ?_⟩
    have hpos := List.length_pos_iff.mpr hq
    simp only [Intake.fill, List.length_append, List.length_take]
    omega

/-- Behind the handshake a round of a silent server takes something in or consumes a chunk, unless
everything has been received and it waits. -/
theorem pass_grows (hst : r.state = .ready) {n : ℕ}
    (h : pass .silent (r, queue) [] (.upTo n) = some s) :
    s.1.mask = r.mask ∧ s.1.state = r.state ∧
      (queue = [] ∧ (r.rtmpDrainBuf .silent []).map Prod.snd = some none ∨
        r.intake.received.length + r.intake.consumed.length <
          s.1.intake.received.length + s.1.intake.consumed.length) := by
  by_cases h0 : r.intake.rbuf.cur = 0
  · simp only [pass, rtmpDrainBuf, if_pos h0] at h
    obtain ⟨hm, hst', hc, hgrows⟩ := fillRcvBuf_grows h
    refine ⟨hm, hst', hgrows.imp (fun hq => ⟨hq, by simp [rtmpDrainBuf, h0]⟩) fun hlt => ?_⟩
    rw [hc]
    exact Nat.add_lt_add_right hlt _
  have hdrain := drain_ready (o := .silent) h0 hst []
  by_cases hshort : r.intake.rbuf.cur < chunkEnd r.chunkSz r.intake.rbuf.mem r.chan
  · rw [if_pos hshort] at hdrain
    simp only [pass, hdrain] at h
    obtain ⟨hm, hst', hc, hgrows⟩ := fillRcvBuf_grows h
    refine ⟨hm, hst', hgrows.imp (fun hq => ⟨hq, by rw [hdrain]; rfl⟩) fun hlt => ?_⟩
    rw [hc]
    exact Nat.add_lt_add_right hlt _
  · obtain ⟨hm, hst', hin⟩ := accept_silent r.noted r.intake.rbuf.mem
    have hpos := chunkEnd_pos r.chunkSz r.intake.rbuf.mem r.chan
    rw [if_neg hshort] at hdrain
    simp only [pass, hdrain, if_neg (Nat.ne_of_gt hpos)] at h
    rw [if_neg (by rw [hin]; exact hshort)] at h
    obtain rfl := Option.some.inj h
    refine ⟨hm, hst', .inr ?_⟩
    dsimp only
    rw [Intake.shuffle_received, Intake.shuffle_consumed, hin, List.length_append, Memory.bytes_length]
    exact Nat.add_lt_add_left (Nat.lt_add_of_pos_right hpos) _

end Silent

end Server

namespace Peers

open Server (Carries)

variable {o : Owner} {p : ServerOwner} {s s' : Peers} {full : List UInt8} {cs : List Chunk}

/-- The client takes back nothing of what it has written. -/
theorem Settled.client_sent (h : s.Settled) (hstep : Step o p s s') :
    s.client.conn.sock.sent <+: s'.client.conn.sock.sent := by
  cases hstep with
  | connect ks rand hk hm =>
    rw [(h.client.phase.of_unset hm).2.2]
    exact List.nil_prefix
  | write ks rand r hk hm hr =>
    rw [(h.client.phase.of_write hm).2.2]
    exact List.nil_prefix
  | read ks ans res hk hd hm hres =>
    have hset := client_answer ks h.client
    obtain ht | ⟨hu, hst, hsent, hlen⟩ := hset.phase.of_read hm
    · exact (Client.pass_told hd hset ht hm hres).sent
    · exact (Client.pass_waiting hd hset hu hm hst hsent hlen hk hres).sent
  | act ks plan hc hkilled =>
    exact ((Owned.keptRule o).perform (s.client.answer ks).toOwned plan).sent
  | listen ks hm => exact List.prefix_refl _
  | serve ks rand ans res hk hd hm hres => exact List.prefix_refl _
  | serverAct ks plan hc hkilled => exact List.prefix_refl _

theorem on_track_answer (ks : List SendRes) (h : s.server.OnTrack full cs) :
    (s.server.answer ks).OnTrack full cs := by
  obtain h | ⟨ref, rest, h, hall⟩ := h
  · exact .inl ⟨h.untold, h.chan, h.pkts, h.room⟩
  · exact .inr ⟨ref, rest, ⟨h.told, h.bytes, h.pos, h.room, h.chunkSz, h.pkts, h.agrees, h.sound,
      h.wf, h.one⟩, hall⟩

theorem on_track_step (h : s.server.OnTrack full cs) (hset : s.Settled) (hcarry : Carries full cs)
    (hfull : s.client.conn.sock.sent <+: full) (hstep : Step o p s s') :
    s'.server.OnTrack full cs := by
  cases hstep with
  | connect => exact h
  | write => exact h
  | read => exact h
  | act => exact h
  | listen ks hm =>
    have hu := ((server_answer ks hset.server).phase.of_unset hm).1
    have hearly := (on_track_answer ks h).early hu.calls
    exact .inl (hearly.listen hset.server.sound)
  | serve ks rand ans res hk hd hm hres =>
    have hround := (on_track_answer ks h).round p rand hcarry (server_answer ks hset.server)
      hfull hm hk hd
    exact hround.2 res hres
  | serverAct ks plan hc hkilled =>
    obtain ⟨ref, rest, ht, hall⟩ := (on_track_answer ks h).tracks hc
    have hquiet := (s.server.answer ks).toServed.perform_quiet (o := p) plan
    have hsame := (s.server.answer ks).toServed.perform_samePkts (o := p) plan
    refine .inr ⟨ref, rest, ⟨hquiet.calls.subset ht.told, ?_, ?_, ?_, ?_, ?_, ht.agrees, ht.sound,
      ht.wf, ht.one⟩, hall⟩
    · exact hquiet.intake.symm ▸ ht.bytes
    · exact hsame.chunkSz.symm ▸ ht.pos
    · show (Served.perform p _ plan).chunkSz + _ ≤ (Served.perform p _ plan).intake.alloc
      rw [hsame.chunkSz, hquiet.intake]
      exact ht.room
    · exact ht.chunkSz.trans hsame.chunkSz.symm
    · exact hsame.pkts.trans ht.pkts

theorem on_track_run {heap stack heap' stack' : List Memory} (hcarry : Carries full cs)
    (hrun : Relation.ReflTransGen (Step o p) (start heap stack heap' stack') s)
    (hfull : s.client.conn.sock.sent <+: full) : s.server.OnTrack full cs := by
  induction hrun with
  | refl => exact .inl ⟨List.not_mem_nil, rfl, rfl, nofun⟩
  | tail hrun hstep ih =>
    have hset := (start_settled heap stack heap' stack').run hrun
    have hmid := (hset.client_sent hstep).trans hfull
    exact on_track_step (ih hmid) hset hcarry hmid hstep

/-- The stream of a client that sends the messages `xs` behind its handshake. -/
def wire (hs : List UInt8) (xs : List OutMsg) : List UInt8 :=
  hs ++ (xs.flatMap (·.chunks RTMP_DEFAULT_CHUNK_SZ)).flatMap Chunk.bytes

theorem carries_wire {hs : List UInt8} (hhs : hs.length = FULL_LEN) {xs : List OutMsg}
    (hxs : ∀ x ∈ xs, x.Ok ∧ x.chan.val < 64) :
    Carries (wire hs xs) (xs.flatMap (·.chunks RTMP_DEFAULT_CHUNK_SZ)) ∧
      (Rtmpd.endpoint.acceptAll (Rtmpd.fresh RTMP_DEFAULT_CHUNK_SZ)
        (xs.flatMap (·.chunks RTMP_DEFAULT_CHUNK_SZ))).pkts = handed (fun _ => 0) xs := by
  have hsound : Rtmp.Sound (Rtmpd.fresh RTMP_DEFAULT_CHUNK_SZ).chan :=
    ⟨fun _ => (by decide : (0 : UInt32) ≠ 0xffffff), fun _ _ hb => by cases hb⟩
  obtain ⟨hwf, hpkts⟩ := Rtmpd.acceptAll_msgs (fun x hx => (hxs x hx).1)
    (by decide : 1 ≤ RTMP_DEFAULT_CHUNK_SZ) hsound (fun _ _ => rfl)
  refine ⟨⟨⟨hs, hhs, rfl⟩, hwf, fun c hc => ?_⟩, hpkts⟩
  obtain ⟨x, hx, hcx⟩ := List.mem_flatMap.mp hc
  exact x.chunks_form (hxs x hx).2 hcx

section Wire

variable {heap stack heap' stack' : List Memory} {hs : List UInt8} {xs : List OutMsg}
  (hrun : Relation.ReflTransGen (Step o p) (start heap stack heap' stack') s)
  (hhs : hs.length = FULL_LEN) (hxs : ∀ x ∈ xs, x.Ok ∧ x.chan.val < 64)

include hrun hhs hxs

/-- What has been handed over is a front of the messages. -/
theorem pkts_front (hsent : s.client.conn.sock.sent <+: wire hs xs) :
    s.server.pkts <+: handed (fun _ => 0) xs := by
  obtain ⟨hcarry, hpkts⟩ := carries_wire hhs hxs
  exact hpkts ▸ (on_track_run hcarry hrun hsent).pkts

/-- Once everything is received and the server waits, nothing is missing. -/
theorem pkts_all (hsent : s.client.conn.sock.sent = wire hs xs) (hnone : s.toServer = [])
    (hm : s.server.mask = .read) {ks : List SendRes} {rand : List UInt8}
    (hwait : ((s.server.answer ks).rtmpDrainBuf p rand).map Prod.snd = some none) :
    s.server.pkts = handed (fun _ => 0) xs := by
  obtain ⟨hcarry, hpkts⟩ := carries_wire hhs hxs
  have hset := ((start_settled heap stack heap' stack').run hrun).server
  have htrack := on_track_run hcarry hrun (hsent ▸ List.prefix_refl _)
  have hreceived : s.server.intake.received = wire hs xs := by
    obtain ⟨tail, htail⟩ := hset.received
    rw [toServer, ← htail, List.drop_left] at hnone
    rw [← hsent, ← htail, hnone, List.append_nil]
  rw [← hpkts]
  exact (on_track_answer ks htrack).finished hcarry (hsent ▸ server_answer ks hset) hreceived hm hwait

end Wire

/-- Messages that the client writes behind its handshake come to the callback of the server one
behind the other, in every run and under any cuts of the stream; no assertion of the receive loop
fails, and once all of it is received and the server waits for more, none is missing. -/
theorem messages_delivered {heap stack heap' stack' : List Memory} {hs : List UInt8} {xs : List OutMsg}
    (hrun : Relation.ReflTransGen (Step o p) (start heap stack heap' stack') s)
    (hhs : hs.length = FULL_LEN) (hxs : ∀ x ∈ xs, x.Ok ∧ x.chan.val < 64)
    (hsent : s.client.conn.sock.sent <+: wire hs xs) :
    s.server.pkts <+: handed (fun _ => 0) xs ∧
      (∀ ks rand ans, FullOrAgain FULL_LEN ks → ans.Delivers → s.server.mask = .read →
        Server.pass p (s.server.answer ks, s.toServer) rand ans ≠ none) ∧
      (∀ ks rand, s.client.conn.sock.sent = wire hs xs → s.toServer = [] →
        s.server.mask = .read →
        ((s.server.answer ks).rtmpDrainBuf p rand).map Prod.snd = some none →
          s.server.pkts = handed (fun _ => 0) xs) := by
  refine ⟨pkts_front hrun hhs hxs hsent, fun ks rand ans hk hd hm => ?_,
    fun ks rand hall hnone hm hwait => pkts_all hrun hhs hxs hall hnone hm hwait⟩
  have hcarry := (carries_wire hhs hxs).1
  have hset := ((start_settled heap stack heap' stack').run hrun).server
  have htrack := on_track_run hcarry hrun hsent
  exact ((on_track_answer ks htrack).round p rand hcarry (server_answer ks hset) hsent hm hk hd).1

/-! ### A conversation -/

/-- A silent server that is called often enough is left with nothing to receive, and has handed
over every message. -/
theorem serve_all {heap stack heap' stack' : List Memory} {hs : List UInt8} {xs : List OutMsg}
    (hrun : Relation.ReflTransGen (Step o .silent) (start heap stack heap' stack') s)
    (hhs : hs.length = FULL_LEN) (hxs : ∀ x ∈ xs, x.Ok ∧ x.chan.val < 64)
    (hsent : s.client.conn.sock.sent = wire hs xs) (hm : s.server.mask = .read)
    (hst : s.server.state = .ready) : ∃ s', Relation.ReflTransGen (Step o .silent)
      (start heap stack heap' stack') s' ∧ s'.client = s.client ∧
        s'.server.pkts = handed (fun _ => 0) xs := by
  -- what is still to be received and what is still to be consumed
  induction hn : 2 * (wire hs xs).length -
      (s.server.intake.received.length + s.server.intake.consumed.length) using Nat.strong_induction_on
    generalizing s with
  | _ n ih =>
    have hfull : s.client.conn.sock.sent <+: wire hs xs := hsent ▸ List.prefix_refl _
    have hset := ((start_settled heap stack heap' stack').run hrun).server
    have htrack := on_track_run (carries_wire hhs hxs).1 hrun hfull
    have hk : FullOrAgain FULL_LEN [] := fun _ hk => absurd hk List.not_mem_nil
    have hd : (Recv.upTo 4999).Delivers := trivial
    obtain ⟨res, hres⟩ := Option.ne_none_iff_exists'.mp ((on_track_answer [] htrack).round .silent []
      (carries_wire hhs hxs).1 (server_answer [] hset) hfull hm hk hd).1
    obtain ⟨hm', hst', hgrows⟩ := Server.pass_grows (r := s.server.answer []) hst hres
    rcases hgrows with ⟨hnone, hwait⟩ | hgrows
    · exact ⟨s, hrun, rfl, pkts_all hrun hhs hxs hsent hnone hm hwait⟩
    · have hstep : Step o .silent s { s with server := res.1 } :=
        .serve [] [] (.upTo 4999) res hk hd hm hres
      have hrun' := hrun.tail hstep
      have hset' := ((start_settled heap stack heap' stack').run hrun').server
      have hlen := hset'.received.length_le
      have hbytes := hset'.sound.length
      change s.server.intake.received.length + s.server.intake.consumed.length < _ at hgrows
      rw [hsent] at hlen
      dsimp only at hlen hbytes
      obtain ⟨s', hs', hclient, hpkts⟩ := ih _ (by dsimp only; omega) hrun' hsent (hm'.trans hm) (hst'.trans hst) rfl
      exact ⟨s', hs', hclient, hpkts⟩

/-- An invoke and a flex message on one channel. -/
def greetings : List OutMsg :=
  [⟨⟨3, three_lt_chans⟩, 0, 1, RTMP_MSG_INVOKE, [5, 1, 1]⟩,
    ⟨⟨3, three_lt_chans⟩, 0, 0x1191, RTMP_MSG_FLEX_MESSAGE, [0, 5]⟩]

/-- The handshake, the sends, and `n` more rounds of the server. -/
def talk (xs : List OutMsg) (n : ℕ) : List Turn :=
  [.connect, .listen, .serve, .serve, .read, .read, .serve, .serve] ++
    xs.map (fun x => .act (.send x fun _ => .done)) ++ List.replicate n .serve

/-- Whether the server has received everything in the end and waits. -/
def talkEnds (xs : List OutMsg) (n : ℕ) : Option Bool :=
  ((talk xs n).foldlM (turn .silent .silent) (start [] [] [] [])).map fun s =>
    decide (s.client.conn.sock.sent.drop FULL_LEN = wire [] xs) &&
      decide (s.toServer = []) && decide (s.server.mask = .read) &&
      decide (FULL_LEN ≤ s.client.conn.sock.sent.length) &&
      decide (((s.server.answer []).rtmpDrainBuf .silent []).map Prod.snd = some none)

theorem talk_ends {xs : List OutMsg} {n : ℕ} (h : talkEnds xs n = some true) :
    ∃ (s : Peers) (hs : List UInt8),
      Relation.ReflTransGen (Step .silent .silent) (start [] [] [] []) s ∧ hs.length = FULL_LEN ∧
      s.client.conn.sock.sent = wire hs xs ∧ s.toServer = [] ∧ s.server.mask = .read ∧
      ((s.server.answer []).rtmpDrainBuf .silent []).map Prod.snd = some none := by
  obtain ⟨s, hs, htrue⟩ := Option.map_eq_some_iff.mp h
  simp only [Bool.and_eq_true, decide_eq_true_eq] at htrue
  obtain ⟨⟨⟨⟨hdrop, hnone⟩, hm⟩, hlen⟩, hwait⟩ := htrue
  refine ⟨s, s.client.conn.sock.sent.take FULL_LEN, turns_run hs, List.length_take_of_le hlen, ?_,
    hnone, hm, hwait⟩
  exact (List.take_append_drop FULL_LEN _).symm.trans (congrArg (List.append _) hdrop)

/-- Whether the client has written everything before the server receives the messages. -/
def talkBegins (xs : List OutMsg) : Option Bool :=
  ((talk xs 0).foldlM (turn .silent .silent) (start [] [] [] [])).map fun s =>
    decide (s.client.conn.sock.sent.drop FULL_LEN = wire [] xs) &&
      decide (FULL_LEN ≤ s.client.conn.sock.sent.length) && decide (s.server.mask = .read) &&
      decide (s.server.state = .ready)

theorem talk_served {xs : List OutMsg} (hxs : ∀ x ∈ xs, x.Ok ∧ x.chan.val < 64)
    (h : talkBegins xs = some true) : ∃ (s : Peers) (hs : List UInt8),
      Relation.ReflTransGen (Step .silent .silent) (start [] [] [] []) s ∧ hs.length = FULL_LEN ∧
      s.client.conn.sock.sent = wire hs xs ∧ s.server.pkts = handed (fun _ => 0) xs := by
  obtain ⟨s, hs, htrue⟩ := Option.map_eq_some_iff.mp h
  simp only [Bool.and_eq_true, decide_eq_true_eq] at htrue
  obtain ⟨⟨⟨hdrop, hlen⟩, hm⟩, hst⟩ := htrue
  have hfront : (s.client.conn.sock.sent.take FULL_LEN).length = FULL_LEN :=
    List.length_take_of_le hlen
  have hsent : s.client.conn.sock.sent = wire (s.client.conn.sock.sent.take FULL_LEN) xs :=
    (List.take_append_drop FULL_LEN _).symm.trans (congrArg (List.append _) hdrop)
  obtain ⟨s', hrun, hclient, hpkts⟩ := serve_all (turns_run hs) hfront hxs hsent hm hst
  exact ⟨s', _, hrun, hfront, hclient ▸ hsent, hpkts⟩

theorem greetings_end : talkEnds greetings 4 = some true := by
  decide +kernel

theorem messages_delivered_talk : ∃ s : Peers,
    Relation.ReflTransGen (Step .silent .silent) (start [] [] [] []) s ∧ s.server.pkts =
      [⟨3, 0, 1, RTMP_MSG_INVOKE, [5, 1, 1]⟩, ⟨3, 0, 0x1192, RTMP_MSG_FLEX_MESSAGE, [0, 5]⟩] := by
  obtain ⟨s, hs, hrun, hhs, hsent, hnone, hm, hwait⟩ := talk_ends greetings_end
  have hxs : ∀ x ∈ greetings, x.Ok ∧ x.chan.val < 64 := by
    intro x hx
    rcases List.mem_cons.mp hx with rfl | hx
    · exact ⟨⟨by decide, by decide, by decide, by decide⟩, by decide⟩
    · rw [List.mem_singleton.mp hx]
      exact ⟨⟨by decide, by decide, by decide, by decide⟩, by decide⟩
  obtain ⟨-, -, hend⟩ := messages_delivered hrun hhs hxs (hsent ▸ List.prefix_refl _)
  exact ⟨s, hrun, (hend [] [] hsent hnone hm hwait).trans (by decide)⟩

end Peers
end Mayhem
