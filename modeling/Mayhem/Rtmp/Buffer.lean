import Mayhem.Rtmp.Pump

/-! The size of the receive buffer. `rtmp_pump` only asks for more data with room left
in the buffer as long as the buffer holds a chunk and its slack. Two things break that: a
header longer than the slack, and a chunk size that is taken to fit because it is compared
with the size of buffer and slack together. -/
namespace Mayhem
namespace Rtmp

/-- Room for a chunk and the slack for its header. -/
structure Room (r : Rtmp) : Prop where
  chunk : 1 ≤ r.chunkSz
  slack : r.chunkSz + RTMP_HDR_MAX_SZ ≤ r.rbuf.currentBufSz

/-- A full header with an extended timestamp leaves room for its body. -/
def HeaderFits (r : Rtmp) : Prop :=
  (basicHdr r.rbuf.mem).ptr + 11 ≤ r.rbuf.cur → (basicHdr r.rbuf.mem).type = 0 →
    decodeInt24 r.rbuf.mem (basicHdr r.rbuf.mem).ptr = 0xffffff →
      r.frontEnd ≤ r.rbuf.currentBufSz

/-- A chunk size that the buffer holds only without the slack does not come with more than
a chunk received behind it. -/
def AnnounceFits (r : Rtmp) : Prop :=
  r.frontEnd ≤ r.rbuf.cur → ∀ msg ∈ r.frontMsg, ∀ v ∈ msg.announces,
    v ≤ r.rbuf.currentBufSz → r.rbuf.currentBufSz < v + RTMP_HDR_MAX_SZ →
      r.rbuf.cur - r.frontEnd ≤ v

instance (r : Rtmp) : Decidable r.HeaderFits := by
  unfold HeaderFits
  infer_instance

instance (r : Rtmp) : Decidable r.AnnounceFits := by
  unfold AnnounceFits
  infer_instance

/-- The state in front of a round takes neither of the two ways to run out of room. -/
structure FitsBuffer (s : Rtmp × List UInt8) : Prop where
  header : HeaderFits s.1
  announce : AnnounceFits s.1

/-- What holds of a live connection in every round. -/
def Invariant (s : Rtmp × List UInt8) : Prop :=
  s.1.live → s.1.conn.state = .handshake2 ∧ s.1.Room

theorem AfterHandshake.invariant {s : Rtmp × List UInt8} (h : AfterHandshake s.1) : Invariant s :=
  fun _ => ⟨h.state, by rw [h.chunkSz]; decide, by rw [h.chunkSz, h.bufSz]⟩

/-- With room for a chunk and its slack, a full buffer holds the front chunk. -/
theorem space_pos {r : Rtmp} (hroom : r.Room) (hfit : r.HeaderFits)
    (hwait : r.rbuf.cur < r.frontEnd) : 0 < r.rbuf.space := by
  by_contra hfull
  have hchunk := hroom.chunk
  have hslack := hroom.slack
  have hcur : r.rbuf.cur = r.rbuf.currentBufSz := by
    rw [RBuf.currentBufSz]
    omega
  have hbody := (headIn r.rbuf.mem r.chan).1.begin.bodySz_le r.chunkSz
  have hend : r.frontEnd = (headIn r.rbuf.mem r.chan).2 +
    (headIn r.rbuf.mem r.chan).1.begin.bodySz r.chunkSz := rfl
  obtain ⟨ht, hsent, -⟩ := headIn_long r.rbuf.mem r.chan (by omega)
  have hptr := (basicHdr_ptr r.rbuf.mem).2
  rw [RTMP_HDR_MAX_SZ] at hslack
  have := hfit (by omega) ht hsent
  omega

/-- Behind a chunk there is room again for one of the size then in force. -/
theorem room_take {r : Rtmp} (hroom : r.Room) (hfit : r.AnnounceFits)
    (htake : r.frontEnd ≤ r.rbuf.cur) :
    ((endpoint.accept r r.rbuf.mem).shuffle r.frontEnd).Room := by
  obtain ⟨hchunk, hslack⟩ := hroom
  have hannounce := hfit htake
  have hcases := accept_cases r r.rbuf.mem
  have hcur := accept_cur r r.rbuf.mem
  set a := endpoint.accept r r.rbuf.mem
  obtain ⟨hline, -, hbuf⟩ := shuffle_spec a r.frontEnd (by rw [hcur]; exact htake)
  have hsz : (a.shuffle r.frontEnd).chunkSz = a.chunkSz := congrArg Line.chunkSz hline
  suffices h : 1 ≤ a.chunkSz ∧ (a.chunkSz + RTMP_HDR_MAX_SZ ≤ a.rbuf.currentBufSz ∨
      a.rbuf.cur - r.frontEnd ≤ a.chunkSz ∧ RTMP_HDR_MAX_SZ ≤ a.rbuf.currentBufSz) by
    refine ⟨by rw [hsz]; exact h.1, ?_⟩
    rw [hsz, hbuf]
    split_ifs with hresize
    · exact le_rfl
    · omega
  obtain ⟨-, hlink⟩ | ⟨msg, hmsg, hdisp⟩ := hcases
  · have hsz' : a.chunkSz = r.chunkSz := congrArg (fun l : Link => l.chunkSz) hlink
    have hbuf' : a.rbuf = r.rbuf := congrArg Link.rbuf hlink
    rw [hsz', hbuf']
    exact ⟨hchunk, .inl hslack⟩
  · have hafter : a.rbuf = r.rbuf.after msg := hdisp.rbuf
    rw [hdisp.chunkSz, hcur, hafter, Msg.chunkSzAfter, RBuf.after]
    cases hv : msg.announces with
    | none => exact ⟨hchunk, .inl hslack⟩
    | some v =>
      dsimp only
      by_cases h0 : v = 0
      · rw [if_pos h0, RBuf.requested, if_neg (by omega)]
        exact ⟨hchunk, .inl hslack⟩
      · rw [if_neg h0, RBuf.requested]
        by_cases hgrow : r.rbuf.currentBufSz < v
        · rw [if_pos ⟨h0, hgrow⟩]
          have hle : r.rbuf.cur ≤ v + RTMP_HDR_MAX_SZ := by
            rw [RBuf.currentBufSz] at hgrow
            omega
          rw [RBuf.realloc_currentBufSz hle]
          exact ⟨by omega, .inl le_rfl⟩
        · rw [if_neg (by omega)]
          have hsmall := hannounce msg hmsg v hv (by omega)
          omega

theorem invariant_step {s s' : Rtmp × List UInt8} (hinv : Invariant s) (hfit : s.1.AnnounceFits)
    (hstep : Step s s') : Invariant s' := by
  obtain ⟨r, queue⟩ := s
  obtain ⟨hlive, ans, hpass⟩ := hstep
  obtain ⟨hst, hroom⟩ := hinv hlive
  intro hlive'
  rcases Nat.lt_or_ge r.rbuf.cur r.frontEnd with hwait | htake
  · rw [pass_wait hst hwait] at hpass
    obtain ⟨bs, -, hlen, hr'⟩ := fillRcvBuf_spec hpass hlive'
    have hlink := r.waiting_toLink
    rw [hr']
    refine ⟨(congrArg (fun l : Link => l.conn.state) hlink).trans hst, ?_, ?_⟩
    · exact hroom.chunk.trans_eq (congrArg (fun l : Link => l.chunkSz) hlink).symm
    · rw [RBuf.received_currentBufSz hlen]
      have hbuf : r.waiting.rbuf = r.rbuf := congrArg Link.rbuf hlink
      have hsz : r.waiting.chunkSz = r.chunkSz := congrArg (fun l : Link => l.chunkSz) hlink
      rw [hbuf, hsz]
      exact hroom.slack
  · rw [pass_take hst htake] at hpass
    obtain rfl := Option.some.inj hpass
    refine ⟨?_, room_take hroom hfit htake⟩
    have hline := (shuffle_spec (endpoint.accept r r.rbuf.mem) r.frontEnd
      (by rw [accept_cur]; exact htake)).1
    have hconn := congrArg Line.conn hline
    rw [hconn]
    refine ((accept_keeps r r.rbuf.mem) ?_).2.trans hst
    rw [← hconn]
    simpa [live] using hlive'

/-- In every run of the receive loop that stays clear of the two ways to run out of room,
`rtmp_pump` asks for more data only with room for it, so that no assertion fails. -/
theorem room_for_data {s₀ s : Rtmp × List UInt8} (h₀ : AfterHandshake s₀.1)
    (hrun : Run.Under FitsBuffer Step s₀ s) (hfit : FitsBuffer s) (hlive : s.1.live) :
    (∀ r', s.1.rtmpDrainBuf = some (r', none) → 0 < r'.rbuf.space) ∧
      ∀ ans, pass s ans ≠ none := by
  have hinv : Invariant s :=
    Run.invariant (fun _ _ hinv hfit => invariant_step hinv hfit.announce) h₀.invariant hrun
  obtain ⟨hst, hroom⟩ := hinv hlive
  obtain ⟨r, queue⟩ := s
  rcases Nat.lt_or_ge r.rbuf.cur r.frontEnd with hwait | htake
  · have hspace : 0 < r.waiting.rbuf.space := by
      rw [show r.waiting.rbuf = r.rbuf from congrArg Link.rbuf r.waiting_toLink]
      exact space_pos hroom hfit.header hwait
    constructor
    · intro r' hr'
      rw [drain_wait hst hwait] at hr'
      obtain rfl := (Prod.mk.inj (Option.some.inj hr')).1
      exact hspace
    · intro ans
      rw [pass_wait hst hwait]
      exact fillRcvBuf_ne_none hspace ans
  · constructor
    · intro r' hr'
      rw [drain_take hst htake] at hr'
      exact absurd (Prod.mk.inj (Option.some.inj hr')).2 (by simp)
    · intro ans
      rw [pass_take hst htake]
      exact Option.some_ne_none _

/-- A chunk size of 130, and behind it a chunk of five bytes with an extended timestamp. -/
def announced : List UInt8 :=
  [2, 0, 0, 0, 0, 0, 4, 1, 0, 0, 0, 0, 0, 0, 0, 130] ++
    [3, 0xff, 0xff, 0xff, 0, 0, 5, 9, 0, 0, 0, 0, 0, 0, 0, 1, 1, 2, 3, 4, 5]

/-- The chunk size is received with the front of the other chunk behind it, and is taken. -/
theorem room_for_data_announced : ∃ s, Run.Under FitsBuffer Step (established, announced) s ∧
    s.1.chunkSz = 130 ∧ s.1.rbuf.cur = 16 ∧
      (∀ r', s.1.rtmpDrainBuf = some (r', none) → 0 < r'.rbuf.space) ∧ ∀ ans, pass s ans ≠ none := by
  have hrun : Run.Under FitsBuffer Step (established, announced) _ :=
    .tail (.tail .refl ⟨⟨by decide +kernel, by decide +kernel⟩, rfl, .upTo 31, rfl⟩)
      ⟨⟨by decide +kernel, by decide +kernel⟩, rfl, .upTo 0, rfl⟩
  exact ⟨_, hrun, rfl, rfl, room_for_data established_afterHandshake hrun
    ⟨by decide +kernel, by decide +kernel⟩ rfl⟩

/-- A chunk of 128 bytes with an extended timestamp: 144 bytes for a buffer of 142. -/
def extendedChunk : List UInt8 :=
  [2, 0xff, 0xff, 0xff, 0, 0, 128, 9, 0, 0, 0, 0, 1, 0, 0, 0] ++ List.replicate 128 0

theorem no_room_for_data :
    AfterHandshake established ∧ (pump (established, extendedChunk) [.upTo 143]).isSome ∧
      pump (established, extendedChunk) [.upTo 143, .upTo 0] = none :=
  ⟨established_afterHandshake, by decide +kernel, by
    rw [← Option.isNone_iff_eq_none]
    decide +kernel⟩

end Rtmp
end Mayhem
