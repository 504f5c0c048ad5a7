import Mayhem.Rtmp.Buffer

/-! The messages a byte stream carries do not depend on how it is cut into receives. Every
run follows the receiver that takes the chunks of the stream one by one. A call on an
incomplete chunk may already have stored fields from stale bytes behind it; as long as the
basic header was complete, the retry overwrites every one of them. -/
namespace Mayhem

/-- Channels that differ at most in the fields a header of type `t` overwrites, and in
`p_left` while no message is in progress. -/
structure SameUnder (t : ℕ) (pkt pkt' : RtmpChan) : Prop where
  pBuf : pkt.pBuf = pkt'.pBuf
  pLeft : pkt.pBuf ≠ none → pkt.pLeft = pkt'.pLeft
  ts : pkt.ts = pkt'.ts
  curTs : 3 ≤ t → pkt.curTs = pkt'.curTs
  sz : 2 ≤ t → pkt.sz = pkt'.sz
  type : 2 ≤ t → pkt.type = pkt'.type
  dest : 1 ≤ t → pkt.dest = pkt'.dest

namespace SameUnder

variable {t : ℕ} {pkt pkt' pkt'' : RtmpChan}

theorem refl (t : ℕ) (pkt : RtmpChan) : SameUnder t pkt pkt :=
  ⟨rfl, fun _ => rfl, rfl, fun _ => rfl, fun _ => rfl, fun _ => rfl, fun _ => rfl⟩

theorem trans (h : SameUnder t pkt pkt') (h' : SameUnder t pkt' pkt'') :
    SameUnder t pkt pkt'' where
  pBuf := h.pBuf.trans h'.pBuf
  pLeft hb := (h.pLeft hb).trans (h'.pLeft (h.pBuf ▸ hb))
  ts := h.ts.trans h'.ts
  curTs ht := (h.curTs ht).trans (h'.curTs ht)
  sz ht := (h.sz ht).trans (h'.sz ht)
  type ht := (h.type ht).trans (h'.type ht)
  dest ht := (h.dest ht).trans (h'.dest ht)

/-- A header that carries more leaves less to agree on. -/
theorem of_three (h : SameUnder 3 pkt pkt') (t : ℕ) : SameUnder t pkt pkt' where
  pBuf := h.pBuf
  pLeft := h.pLeft
  ts := h.ts
  curTs _ := h.curTs le_rfl
  sz _ := h.sz (by omega)
  type _ := h.type (by omega)
  dest _ := h.dest (by omega)

/-- The header of the chunk itself removes every difference. -/
theorem enter_eq {c : Chunk} (h : SameUnder c.hdr.htype pkt pkt') : c.enter pkt = c.enter pkt' := by
  obtain ⟨hb, hl, hts, hc, hs, hy, hd⟩ := h
  obtain ⟨form, chan, hdr, body⟩ := c
  obtain ⟨b, l, ct, ts, sz, d, y⟩ := pkt
  obtain ⟨b', l', ct', ts', sz', d', y'⟩ := pkt'
  dsimp only at hb hl hts hc hs hy hd
  subst hb hts
  cases hdr <;> cases b <;> simp_all [Chunk.enter, MsgHdr.apply, MsgHdr.htype, RtmpChan.begin]

end SameUnder

/-- A partial header of type `t` only stores fields that a whole one overwrites. -/
theorem msgHdr_sameUnder {t : ℕ} (ht : t < 4) (m : Memory) (ptr : ℕ) {pkt : RtmpChan}
    (hts : t = 3 → pkt.curTs ≠ 0xffffff) : SameUnder t (msgHdr m (sizes t) ptr pkt).1 pkt := by
  rw [msgHdr_eq ht]
  refine ⟨rfl, fun _ => rfl, rfl, fun h3 => ?_, fun h2 => if_neg (by omega),
    fun h2 => if_neg (by omega), fun h1 => if_neg (by omega)⟩
  obtain rfl : t = 3 := by omega
  exact if_neg (hts rfl)

theorem giveBack_begin {pkt : RtmpChan} (h : ∀ b, pkt.pBuf = some b → b.data ≠ []) :
    SameUnder 3 pkt.begin.giveBack pkt := by
  cases hb : pkt.pBuf with
  | none =>
    rw [RtmpChan.begin_idle hb]
    exact ⟨hb.symm, fun h => absurd rfl h, rfl, fun _ => rfl, fun _ => rfl, fun _ => rfl, fun _ => rfl⟩
  | some b =>
    have hgive : pkt.giveBack = pkt := by
      obtain ⟨n, data⟩ := b
      cases data with
      | nil => exact absurd rfl (h _ hb)
      | cons x xs => simp [RtmpChan.giveBack, hb]
    rw [RtmpChan.begin_busy hb, hgive]
    exact .refl 3 pkt

/-! ### The chunk at the front of the buffer -/

section Front

variable {c : Chunk} {m : Memory} {tbl : ChanTable} {cur chunkSz : ℕ} {queue rest : List UInt8}

theorem front_bytes (h : m.bytes 0 cur ++ queue = c.bytes ++ rest) {n : ℕ} (hn : n ≤ cur)
    (hlen : n ≤ c.bytes.length) : m.bytes 0 n = c.bytes.take n := by
  have htake := congrArg (List.take n) h
  rwa [List.take_append_of_le_length (by rwa [Memory.bytes_length]),
    List.take_append_of_le_length hlen, Memory.bytes_take, Nat.min_eq_left hn] at htake

/-- The first byte alone gives the header type and the length of the basic header. -/
theorem front_first (hc : c.Ok) (h : m.bytes 0 cur ++ queue = c.bytes ++ rest) (hcur : 1 ≤ cur) :
    (m 0).toNat / 64 = c.hdr.htype ∧ basicLen (m 0) = c.form.len := by
  have hpos := c.form.len_pos
  obtain ⟨b, bs, hform⟩ : ∃ b bs, c.form.bytes c.hdr.htype c.chan = b :: bs :=
    List.exists_cons_of_length_pos (by rwa [BasicForm.bytes_length])
  have hone := front_bytes h hcur (by rw [Chunk.bytes_length]; omega)
  have hbyte : m 0 = b := by
    simpa [Memory.bytes, Chunk.bytes, Chunk.head, hform] using hone
  rw [hbyte]
  exact BasicForm.first_byte hc.1 c.hdr.htype_lt hform

theorem front_basic (hc : c.Ok) (h : m.bytes 0 cur ++ queue = c.bytes ++ rest)
    (hcur : c.form.len ≤ cur) : basicHdr m = ⟨c.hdr.htype, c.chan, c.form.len⟩ := by
  apply basicHdr_of_head hc
  rw [front_bytes h hcur (by rw [Chunk.bytes_length]; omega), Chunk.bytes, Chunk.head,
    List.append_assoc, List.take_left' (BasicForm.bytes_length ..)]

theorem front_head (h : m.bytes 0 cur ++ queue = c.bytes ++ rest) (hcur : c.head.length ≤ cur) :
    m.bytes 0 c.head.length = c.head := by
  rw [front_bytes h hcur (by rw [Chunk.bytes, List.length_append]; omega), Chunk.bytes,
    List.take_left]

/-- Whatever lies behind it, a chunk that is not all there is found incomplete. -/
theorem front_short (hc : c.Ok) (hts : c.hdr.htype = 3 → (tbl c.chan).curTs ≠ 0xffffff)
    (hfill : c.Fills chunkSz (tbl c.chan)) (h : m.bytes 0 cur ++ queue = c.bytes ++ rest)
    (hcur : 1 ≤ cur) (hlen : cur < c.bytes.length) : cur < chunkEnd chunkSz m tbl := by
  rcases Nat.lt_or_ge cur c.form.len with hbasic | hbasic
  · have hptr := basicHdr_ptr_eq m
    rw [(front_first hc h hcur).2] at hptr
    rw [chunkEnd, headIn_snd]
    omega
  rcases Nat.lt_or_ge cur c.head.length with hhead | hhead
  · have hmsg : msgLen c.hdr.htype = c.hdr.len := by cases c.hdr <;> rfl
    rw [Chunk.head_length] at hhead
    rw [chunkEnd, headIn_snd]
    simp only [front_basic hc h hbasic, hmsg]
    omega
  · rwa [chunkEnd_head hc hts hfill (front_head h hhead)]

end Front

/-! ### The receiver that takes chunk by chunk -/

namespace Rtmp

/-- Take the chunks of a stream one by one, until the connection is reset. -/
def takesAll : Rtmp → List Chunk → Rtmp
  | r, [] => r
  | r, c :: cs => if r.live then (endpoint.acceptChunk r c).takesAll cs else r

/-- A stream of whole chunks, with timestamp fields below the sentinel and bodies as long
as the receiver expects. What follows a reset is not read. -/
def WellFormed : Rtmp → List Chunk → Prop
  | _, [] => True
  | r, c :: cs => r.live →
    c.Ok ∧ c.Fills r.chunkSz (r.chan c.chan) ∧ WellFormed (endpoint.acceptChunk r c) cs

/-- Between two chunks no channel holds the sentinel or an empty buffer. -/
structure Sound (tbl : ChanTable) : Prop where
  plain : ∀ c, (tbl c).curTs ≠ 0xffffff
  busy : ∀ c b, (tbl c).pBuf = some b → b.data ≠ []

/-- The fields in which a partial header of the front chunk may have left its mark. -/
def frontType (cs : List Chunk) (chan : ℕ) : ℕ :=
  match cs with
  | [] => 3
  | c :: _ => if chan = c.chan then c.hdr.htype else 3

/-- A run `s` that has dispatched what the chunk by chunk receiver `r` has, with the
chunks `cs` still to come. -/
structure Follows (r : Rtmp) (cs : List Chunk) (s : Rtmp × List UInt8) : Prop where
  bytes : s.1.rbuf.contents ++ s.2 = cs.flatMap Chunk.bytes
  line : s.1.toLine = r.toLine
  agrees : ∀ c, SameUnder (frontType cs c) (s.1.chan c) (r.chan c)
  sound : Sound r.chan
  wf : WellFormed r cs

/-- The front chunk is not cut inside its basic header, unless it is of type 3, and no
chunk size is announced that fits the buffer only without the slack while more than a
chunk has been received behind it. -/
structure Smooth (s : Rtmp × List UInt8) : Prop where
  cut : 1 ≤ s.1.rbuf.cur → basicLen (s.1.rbuf.mem 0) ≤ s.1.rbuf.cur ∨ (s.1.rbuf.mem 0).toNat / 64 = 3
  announce : AnnounceFits s.1

instance (s : Rtmp × List UInt8) : Decidable (Smooth s) :=
  decidable_of_iff (_ ∧ _) ⟨fun h => ⟨h.1, h.2⟩, fun h => ⟨h.cut, h.announce⟩⟩

instance decidableWellFormed : (r : Rtmp) → (cs : List Chunk) → Decidable (WellFormed r cs)
  | _, [] => isTrue trivial
  | r, c :: cs =>
    have := decidableWellFormed (endpoint.acceptChunk r c) cs
    inferInstanceAs (Decidable (r.live = true → _ ∧ _ ∧ _))

/-- One round of a run whose receives all succeed. -/
def Deliver (s s' : Rtmp × List UInt8) : Prop := s.1.live ∧ ∃ n, pass s (.upTo n) = some s'

/-! ### What one round keeps -/

/-- A body stored into the channel it fills either completes the message or is not empty. -/
theorem body_ne_nil {c : Chunk} {pkt : RtmpChan} {chunkSz : ℕ} (hcs : 1 ≤ chunkSz)
    (hfill : c.Fills chunkSz pkt) (hleft : ((c.enter pkt).store c.body).pLeft ≠ 0) :
    c.body ≠ [] := by
  intro hnil
  rw [Chunk.Fills, RtmpChan.bodySz_eq_min, hnil, List.length_nil] at hfill
  simp only [RtmpChan.store, hnil, List.length_nil, Nat.sub_zero] at hleft
  omega

theorem enter_curTs (c : Chunk) (pkt : RtmpChan) : (c.enter pkt).curTs = (c.hdr.apply pkt).curTs := by
  unfold Chunk.enter RtmpChan.begin
  split <;> rfl

theorem Sound.leave {tbl : ChanTable} (h : Sound tbl) {c : Chunk} (hc : c.Ok) {chunkSz : ℕ}
    (hcs : 1 ≤ chunkSz) (hfill : c.Fills chunkSz (tbl c.chan)) :
    Sound (Function.update tbl c.chan (c.leave (tbl c.chan))) := by
  have hcur : (c.leave (tbl c.chan)).curTs ≠ 0xffffff := by
    have hleave : (c.leave (tbl c.chan)).curTs = (c.enter (tbl c.chan)).curTs := by
      unfold Chunk.leave
      dsimp only
      split_ifs <;> rfl
    rw [hleave, enter_curTs]
    exact hc.2.apply_curTs (h.plain c.chan)
  refine ⟨fun c' => ?_, fun c' b hb => ?_⟩
  · by_cases heq : c' = c.chan
    · rwa [heq, Function.update_self]
    · rw [Function.update_of_ne heq]
      exact h.plain c'
  · by_cases heq : c' = c.chan
    · rw [heq, Function.update_self, Chunk.leave] at hb
      split_ifs at hb with hleft
      · cases hb
      · obtain ⟨b', -, rfl⟩ := Option.map_eq_some_iff.mp hb
        simp [body_ne_nil hcs hfill hleft]
    · rw [Function.update_of_ne heq] at hb
      exact h.busy c' b hb

theorem acceptChunk_toLine {s r : Rtmp} {c : Chunk} (hline : s.toLine = r.toLine)
    (henter : c.enter (s.chan c.chan) = c.enter (r.chan c.chan)) :
    (endpoint.acceptChunk s c).toLine = (endpoint.acceptChunk r c).toLine := by
  have hfin : c.finishes (s.chan c.chan) = c.finishes (r.chan c.chan) := by
    simp only [Chunk.finishes, henter]
  simp only [Endpoint.acceptChunk, endpoint, hfin]
  cases c.finishes (r.chan c.chan) with
  | none => exact hline
  | some msg => exact Link.rtmpDispatch_toLine hline msg

namespace Follows

variable {r : Rtmp} {cs : List Chunk} {s : Rtmp × List UInt8}

theorem nil_cur (h : Follows r [] s) : s.1.rbuf.cur = 0 := by
  have hnil := congrArg List.length h.bytes
  simp only [RBuf.contents, List.length_append, Memory.bytes_length, List.flatMap_nil,
    List.length_nil] at hnil
  omega

/-- A call on an incomplete chunk marks only what the retry overwrites. -/
theorem waiting (h : Follows r cs s) (hlive : r.live) (hcut : Smooth s) (chan : ℕ) :
    SameUnder (frontType cs chan) (s.1.waiting.chan chan) (r.chan chan) := by
  unfold Rtmp.waiting
  split_ifs with h0
  · exact h.agrees chan
  dsimp only
  by_cases hne : chan = (basicHdr s.1.rbuf.mem).chan
  swap
  · rw [Function.update_of_ne hne]
    exact h.agrees chan
  cases cs with
  | nil => exact absurd h.nil_cur h0
  | cons c cs =>
    obtain ⟨hc, -, -⟩ := h.wf hlive
    have hfront : s.1.rbuf.mem.bytes 0 s.1.rbuf.cur ++ s.2 = c.bytes ++ cs.flatMap Chunk.bytes :=
      h.bytes
    obtain ⟨htype, hlen⟩ := front_first hc hfront (by omega)
    set m := s.1.rbuf.mem
    rw [hne, Function.update_self]
    -- a partial basic header has passed for that of another channel, but of type 3
    have hfront' : frontType (c :: cs) (basicHdr m).chan = (basicHdr m).type := by
      rcases hcut.cut (by omega) with hbasic | h3
      · rw [front_basic hc hfront (hlen ▸ hbasic)]
        exact if_pos rfl
      · rw [basicHdr_type, h3, frontType, ← htype, h3, ite_self]
    have hplain : (basicHdr m).type = 3 → (s.1.chan (basicHdr m).chan).curTs ≠ 0xffffff := by
      intro h3
      rw [(h.agrees _).curTs (by rw [hfront', h3])]
      exact h.sound.plain _
    have hbusy : ∀ b, (headIn m s.1.chan).1.pBuf = some b → b.data ≠ [] := by
      intro b hb
      rw [headIn, (msgHdr_keeps _ _ _ _).1, (h.agrees _).pBuf] at hb
      exact h.sound.busy _ b hb
    have hhead := msgHdr_sameUnder (basicHdr_type_lt m) m (basicHdr m).ptr hplain
    exact (((giveBack_begin hbusy).of_three _).trans (hfront' ▸ hhead)).trans (h.agrees _)

/-- What the receivers agree on for the front chunk. -/
theorem front {c : Chunk} (h : Follows r (c :: cs) s) (hlive : r.live) :
    c.Ok ∧ (c.hdr.htype = 3 → (s.1.chan c.chan).curTs ≠ 0xffffff) ∧
      c.enter (s.1.chan c.chan) = c.enter (r.chan c.chan) ∧
      c.Fills s.1.chunkSz (s.1.chan c.chan) := by
  obtain ⟨hc, hfill, -⟩ := h.wf hlive
  have hagree : SameUnder c.hdr.htype (s.1.chan c.chan) (r.chan c.chan) := by
    simpa [frontType] using h.agrees c.chan
  have henter := hagree.enter_eq
  refine ⟨hc, fun h3 => ?_, henter, ?_⟩
  · rw [hagree.curTs (by omega)]
    exact h.sound.plain _
  · rw [Chunk.Fills, henter, show s.1.chunkSz = r.chunkSz from congrArg Line.chunkSz h.line]
    exact hfill

/-- The front chunk ends where it does, not where stale bytes say. -/
theorem frontEnd_eq {c : Chunk} (h : Follows r (c :: cs) s) (hlive : r.live)
    (hall : c.bytes.length ≤ s.1.rbuf.cur) :
    s.1.rbuf.mem.bytes 0 c.bytes.length = c.bytes ∧ s.1.frontEnd = c.bytes.length := by
  obtain ⟨hc, hts, -, hfill⟩ := h.front hlive
  have hbytes : s.1.rbuf.mem.bytes 0 c.bytes.length = c.bytes := by
    rw [front_bytes h.bytes hall le_rfl, List.take_length]
  exact ⟨hbytes, chunkEnd_head hc hts hfill
    ((Memory.bytes_append_iff _ 0 c.head c.body).mp hbytes).1⟩

theorem length_le {c : Chunk} (h : Follows r (c :: cs) s) (hlive : r.live)
    (htake : s.1.frontEnd ≤ s.1.rbuf.cur) : c.bytes.length ≤ s.1.rbuf.cur := by
  obtain ⟨hc, hts, -, hfill⟩ := h.front hlive
  have hpos : 1 ≤ s.1.frontEnd := chunkEnd_pos _ _ _
  by_contra hlt
  have hshort := front_short hc hts hfill h.bytes (by omega) (by omega)
  exact absurd htake (Nat.not_le.mpr hshort)

/-- A whole chunk at the front takes both receivers one chunk further. -/
theorem take {c : Chunk} (h : Follows r (c :: cs) s) (hlive : r.live) (hcs : 1 ≤ s.1.chunkSz)
    (htake : s.1.frontEnd ≤ s.1.rbuf.cur) :
    Follows (endpoint.acceptChunk r c) cs
      ((endpoint.accept s.1 s.1.rbuf.mem).shuffle s.1.frontEnd, s.2) := by
  obtain ⟨-, hfillr, hwf⟩ := h.wf hlive
  obtain ⟨hc, hts, henter, hfill⟩ := h.front hlive
  have hall := h.length_le hlive htake
  obtain ⟨hbytes, hend⟩ := h.frontEnd_eq hlive hall
  have haccept : endpoint.accept s.1 s.1.rbuf.mem = endpoint.acceptChunk s.1 c :=
    Endpoint.accept_eq (E := endpoint) hc hts hfill hbytes
  obtain ⟨hline, hchan, -⟩ := shuffle_spec (endpoint.accept s.1 s.1.rbuf.mem)
    s.1.frontEnd (by rw [accept_cur]; exact htake)
  have htbl : ∀ t : Rtmp, (endpoint.acceptChunk t c).chan =
      Function.update t.chan c.chan (c.leave (t.chan c.chan)) :=
    fun t => Endpoint.acceptChunk_chan (E := endpoint) t c
  refine ⟨?_, ?_, fun c' => ?_, ?_, hwf⟩
  · rw [shuffle_contents, accept_contents, hend]
    have hdrop := congrArg (List.drop c.bytes.length) h.bytes
    rwa [List.flatMap_cons, List.drop_left,
      List.drop_append_of_le_length (by rwa [RBuf.contents, Memory.bytes_length])] at hdrop
  · rw [hline, haccept]
    exact acceptChunk_toLine h.line henter
  · rw [hchan, haccept, htbl, htbl]
    by_cases heq : c' = c.chan
    · rw [heq, Function.update_self, Function.update_self, Chunk.leave, Chunk.leave, henter]
      exact .refl _ _
    · rw [Function.update_of_ne heq, Function.update_of_ne heq]
      have h3 := h.agrees c'
      rw [frontType, if_neg heq] at h3
      exact h3.of_three _
  · rw [htbl]
    have hsz : s.1.chunkSz = r.chunkSz := congrArg Line.chunkSz h.line
    exact h.sound.leave hc (hsz ▸ hcs) hfillr

/-- One round leads to a state from which the same messages are still to come. -/
theorem step {s' : Rtmp × List UInt8} (h : Follows r cs s) (hinv : Invariant s) (hcut : Smooth s)
    (hstep : Deliver s s') :
    ∃ r' cs', Follows r' cs' s' ∧ r'.takesAll cs' = r.takesAll cs := by
  obtain ⟨hlive, n, hpass⟩ := hstep
  obtain ⟨hst, hroom⟩ := hinv hlive
  have hlive' : r.live := by
    rw [live, ← congrArg Line.conn h.line]
    exact hlive
  rcases Nat.lt_or_ge s.1.rbuf.cur s.1.frontEnd with hwait | htake
  · rw [show s = (s.1, s.2) from rfl, pass_wait hst hwait] at hpass
    obtain ⟨bs, hqueue, -, hs'⟩ := fillRcvBuf_upTo hpass
    have hlink := s.1.waiting_toLink
    refine ⟨r, cs, ⟨?_, ?_, fun c => ?_, h.sound, h.wf⟩, rfl⟩
    · rw [hs', RBuf.received_contents, congrArg Link.rbuf hlink, List.append_assoc, ← hqueue]
      exact h.bytes
    · rw [hs', congrArg Link.toLine hlink]
      exact h.line
    · rw [hs']
      exact h.waiting hlive' hcut c
  · rw [show s = (s.1, s.2) from rfl, pass_take hst htake] at hpass
    obtain rfl := Option.some.inj hpass
    have hpos : 1 ≤ s.1.frontEnd := chunkEnd_pos _ _ _
    cases cs with
    | nil =>
      have h0 := h.nil_cur
      omega
    | cons c cs =>
      refine ⟨_, _, h.take hlive' hroom.chunk htake, ?_⟩
      rw [takesAll, if_pos hlive']

/-- The header of a chunk without extended timestamp leaves room for its body. -/
theorem headerFits (h : Follows r cs s) (hlive : r.live) : HeaderFits s.1 := by
  intro hcur htype hsent
  cases cs with
  | nil =>
    have h0 := h.nil_cur
    omega
  | cons c cs =>
    obtain ⟨hc, hts, -, -⟩ := h.front hlive
    have hptr := basicHdr_ptr_eq s.1.rbuf.mem
    rw [(front_first hc h.bytes (by omega)).2] at hptr
    have hbasic := front_basic hc h.bytes (by omega)
    have hlen : c.hdr.len = 11 := by
      rw [hbasic] at htype
      cases hhdr : c.hdr <;> simp_all [MsgHdr.htype, MsgHdr.len]
    have hhead := (headIn_head hc hts (front_head h.bytes
      (by rw [Chunk.head_length, hlen]; omega))).2
    have hfield : tsField s.1.rbuf.mem (basicHdr s.1.rbuf.mem).type (basicHdr s.1.rbuf.mem).ptr
        (s.1.chan (basicHdr s.1.rbuf.mem).chan) = 0xffffff := by
      rw [htype]
      exact hsent
    have hend := headIn_snd s.1.rbuf.mem s.1.chan
    rw [hhead, if_pos hfield, htype, hptr, Chunk.head_length, hlen, msgLen] at hend
    omega

end Follows

/-- Nothing is left to do for a run: the connection was reset, or everything has been
received and the buffer needs more data. -/
def Finished (s : Rtmp × List UInt8) : Prop :=
  s.1.live = false ∨ s.2 = [] ∧ ∃ r', s.1.rtmpDrainBuf = some (r', none)

theorem Follows.finished {r : Rtmp} {cs : List Chunk} {s : Rtmp × List UInt8} (h : Follows r cs s)
    (hinv : Invariant s) (hfin : Finished s) : r.takesAll cs = r := by
  have hlive : s.1.live = r.live := congrArg (fun l : Line => !l.conn.connReset) h.line
  cases cs with
  | nil => rfl
  | cons c cs =>
    cases hr : r.live with
    | false => simp [takesAll, hr]
    | true =>
      obtain hdead | ⟨hq, r', hdrain⟩ := hfin
      · simp [hlive, hr] at hdead
      have hall : c.bytes.length ≤ s.1.rbuf.cur := by
        have hbytes := congrArg List.length h.bytes
        simp only [hq, RBuf.contents, List.append_nil, Memory.bytes_length, List.flatMap_cons,
          List.length_append] at hbytes
        omega
      have hend := (h.frontEnd_eq hr hall).2
      rw [drain_take (hinv (hlive.trans hr)).1 (hend.trans_le hall)] at hdrain
      cases hdrain

/-- Every run over a stream follows the receiver that takes its chunks one by one. -/
theorem follows_of_run {r : Rtmp} {cs : List Chunk} {s₀ s : Rtmp × List UInt8}
    (h : Follows r cs s₀) (hinv : Invariant s₀) (hrun : Run.Under Smooth Deliver s₀ s) :
    Invariant s ∧ ∃ r' cs', Follows r' cs' s ∧ r'.takesAll cs' = r.takesAll cs := by
  let Inv (s : Rtmp × List UInt8) : Prop := Invariant s ∧
    ∃ r' cs', Follows r' cs' s ∧ r'.takesAll cs' = r.takesAll cs
  have hstart : Inv s₀ := ⟨hinv, r, cs, h, rfl⟩
  have hstep : ∀ s s', Inv s → Smooth s → Deliver s s' → Inv s' := by
    rintro s s' ⟨hinv, r', cs', hfol, hall⟩ hsmooth ⟨hlive, n, hpass⟩
    obtain ⟨r'', cs'', hfol', hall'⟩ := hfol.step hinv hsmooth ⟨hlive, n, hpass⟩
    exact ⟨invariant_step hinv hsmooth.announce ⟨hlive, _, hpass⟩, r'', cs'', hfol',
      hall'.trans hall⟩
  exact @Run.invariant _ Smooth Deliver s₀ s Inv hstep hstart hrun

theorem AfterHandshake.follows {s₀ s : Rtmp × List UInt8} {cs : List Chunk}
    (h₀ : AfterHandshake s₀.1) (h : AfterHandshake s.1) (hline : s.1.toLine = s₀.1.toLine)
    (hwf : WellFormed s₀.1 cs) (hbytes : s.1.rbuf.contents ++ s.2 = cs.flatMap Chunk.bytes) :
    Follows s₀.1 cs s where
  bytes := hbytes
  line := hline
  agrees c := by
    rw [h.chan, h₀.chan]
    exact .refl _ _
  sound := by
    rw [h₀.chan]
    exact ⟨fun _ => by decide, fun _ _ hb => by cases hb⟩
  wf := hwf

/-- Two runs over one stream, whose cuts spare the basic headers and whose chunk sizes fit
the buffer with the slack, never fail an assertion and dispatch the same messages. -/
theorem segmentation_independent {s₀ s₀' s s' : Rtmp × List UInt8} {cs : List Chunk}
    (h₀ : AfterHandshake s₀.1) (h₀' : AfterHandshake s₀'.1)
    (hline : s₀'.1.toLine = s₀.1.toLine) (hwf : WellFormed s₀.1 cs)
    (hbytes : s₀.1.rbuf.contents ++ s₀.2 = cs.flatMap Chunk.bytes)
    (hbytes' : s₀'.1.rbuf.contents ++ s₀'.2 = cs.flatMap Chunk.bytes)
    (hrun : Run.Under Smooth Deliver s₀ s) (hrun' : Run.Under Smooth Deliver s₀' s') :
    (Smooth s → s.1.live → ∀ n, pass s (.upTo n) ≠ none) ∧
      (Finished s → Finished s' → s.1.trace = s'.1.trace) := by
  obtain ⟨hinv, r, cs₁, hfol, hall⟩ :=
    follows_of_run (h₀.follows h₀ rfl hwf hbytes) h₀.invariant hrun
  obtain ⟨hinv', r', cs₂, hfol', hall'⟩ :=
    follows_of_run (h₀.follows h₀' hline hwf hbytes') h₀'.invariant hrun'
  constructor
  · intro hsmooth hlive n
    obtain ⟨hst, hroom⟩ := hinv hlive
    have hr : r.live := (congrArg (fun l : Line => !l.conn.connReset) hfol.line).symm.trans hlive
    rw [show s = (s.1, s.2) from rfl]
    rcases Nat.lt_or_ge s.1.rbuf.cur s.1.frontEnd with hwait | htake
    · rw [pass_wait hst hwait]
      apply fillRcvBuf_ne_none
      rw [congrArg Link.rbuf s.1.waiting_toLink]
      exact space_pos hroom (hfol.headerFits hr) hwait
    · rw [pass_take hst htake]
      exact Option.some_ne_none _
  · intro hfin hfin'
    calc s.1.trace = r.trace := congrArg Line.trace hfol.line
      _ = r'.trace := by rw [← hfol.finished hinv hfin, hall, ← hall', hfol'.finished hinv' hfin']
      _ = s'.1.trace := (congrArg Line.trace hfol'.line).symm

/-- One chunk in one piece and in two. -/
theorem segmentation_independent_one :
    ∃ s s', Run.Under Smooth Deliver (established, [2, 0, 0, 9, 0, 0, 1, 8, 0, 0, 0, 0, 7]) s ∧
      Run.Under Smooth Deliver (established, [2, 0, 0, 9, 0, 0, 1, 8, 0, 0, 0, 0, 7]) s' ∧
      s.1.trace = [⟨2, 0, 9, 8, [7]⟩] ∧ s.1.trace = s'.1.trace := by
  have hwhole : Run.Under Smooth Deliver
      (established, [2, 0, 0, 9, 0, 0, 1, 8, 0, 0, 0, 0, 7]) _ :=
    .tail (.tail .refl ⟨by decide, rfl, 12, rfl⟩) ⟨by decide, rfl, 0, rfl⟩
  have hcut : Run.Under Smooth Deliver
      (established, [2, 0, 0, 9, 0, 0, 1, 8, 0, 0, 0, 0, 7]) _ :=
    .tail (.tail (.tail .refl ⟨by decide, rfl, 0, rfl⟩) ⟨by decide, rfl, 11, rfl⟩)
      ⟨by decide, rfl, 0, rfl⟩
  refine ⟨_, _, hwhole, hcut, rfl, ?_⟩
  have hwf : WellFormed established [⟨.one, 2, .full 9 1 8 0, [7]⟩] := by decide
  exact (segmentation_independent established_afterHandshake established_afterHandshake rfl hwf rfl
    rfl hwhole hcut).2
    (.inr ⟨rfl, _, rfl⟩) (.inr ⟨rfl, _, rfl⟩)

/-- Three messages with two-byte basic headers and one more of type 3 on the first channel. -/
def cutChunks : List Chunk :=
  [⟨.two, 66, .full 1 1 8 5, [0xaa]⟩, ⟨.two, 66, .medium 1 1 8, [0xbb]⟩,
    ⟨.two, 70, .full 1 1 8 6, [0xcc]⟩, ⟨.two, 66, .none, [0xdd]⟩]

/-- With the third basic header cut in two, its first byte passes for a header of channel 66
and a stale byte becomes the destination of the last message. -/
theorem segmentation_dependent :
    AfterHandshake established ∧ WellFormed established cutChunks ∧
      (pump (established, cutChunks.flatMap Chunk.bytes) (List.replicate 5 (.upTo 99))).map
        (fun s => (s.2, s.1.rtmpDrainBuf.map Prod.snd, s.1.trace.map Msg.dest)) =
          some ([], some none, [5, 5, 6, 5]) ∧
      (pump (established, cutChunks.flatMap Chunk.bytes)
        [.upTo 23, .upTo 0, .upTo 0, .upTo 0, .upTo 99, .upTo 0, .upTo 0]).map
        (fun s => (s.2, s.1.rtmpDrainBuf.map Prod.snd, s.1.trace.map Msg.dest)) =
          some ([], some none, [5, 5, 6, 0xbb]) :=
  ⟨established_afterHandshake, by decide, by decide +kernel, by decide +kernel⟩

end Rtmp
end Mayhem
