import Mayhem.Rtmp.Server

/-! One message sent with `rtmp_send` and decoded by `rtmpd.c`. It comes back as it
was sent up to the timestamp `0xfffffe`, and from `0xffffff` on it does not. -/
namespace Mayhem

/-- Whatever the stack of the sender and the memory and table of the receiver hold,
the message arrives once and unchanged on an idle channel of accumulated timestamp 0. -/
def RoundTrips (chunkSz : ℕ) (chan : OutChan) (dest ts : UInt32) (type : UInt8)
    (p : List UInt8) : Prop :=
  ∀ (stack after : Memory) (r : Rtmpd), r.chunkSz = chunkSz → (r.chan chan).pBuf = none →
    (r.chan chan).ts = 0 → ∃ r', r.feed after (sendChunks stack chunkSz chan dest ts type p) =
        some r' ∧ r'.pkts = r.pkts ++ [⟨chan, dest, ts, type, p⟩] ∧ (r'.chan chan).pBuf = none

namespace Rtmpd

variable {after : Memory} {r r' : Rtmpd}

theorem feed_cons {c : List UInt8} {cs : List (List UInt8)} (h : r.feed after (c :: cs) = some r') :
    ∃ r₁, endpoint.takeChunk after r c = some r₁ ∧ r₁.feed after cs = some r' := by
  simpa [feed, Endpoint.feed, Option.bind_eq_some_iff] using h

theorem takeChunk_pkts_grow {c : List UInt8} (h : endpoint.takeChunk after r c = some r') :
    r.pkts <+: r'.pkts := by
  by_cases hc : c = []
  · simp [hc, Endpoint.takeChunk, Endpoint.decodeRtmp_nil] at h
  · obtain ⟨-, rfl⟩ := Endpoint.takeChunk_some hc h
    rw [accept_pkts]
    exact List.prefix_append _ _

/-- Packets handed over are never taken back. -/
theorem feed_pkts_grow {cs : List (List UInt8)} (h : r.feed after cs = some r') :
    r.pkts <+: r'.pkts := by
  induction cs generalizing r with
  | nil =>
    obtain rfl : r = r' := by simpa [feed, Endpoint.feed] using h
    exact List.prefix_rfl
  | cons c cs ih =>
    obtain ⟨r₁, htake, hfeed⟩ := feed_cons h
    exact (takeChunk_pkts_grow htake).trans (ih hfeed)

end Rtmpd

/-! ### Timestamps below the sentinel -/

theorem roundTrips_of_lt {chunkSz : ℕ} (hcs : 1 ≤ chunkSz) {chan : OutChan} (hchan : 2 ≤ chan.val)
    (dest : UInt32) {ts : UInt32} (type : UInt8) {p : List UInt8} (hp : p ≠ [])
    (hlen : p.length < 2 ^ 24) (hts : ts.toNat < 0xffffff) :
    RoundTrips chunkSz chan dest ts type p := by
  rintro stack after r rfl hidle hts0
  have hsz : (UInt32.ofNat p.length).toNat = p.length := by rw [UInt32.toNat_ofNat']; omega
  have h := (Endpoint.takesAll_chunksOf (E := Rtmpd.endpoint) (r := r)
    (p := p) (formOf_fits hchan) (show MsgHdr.Ok (.full ts (UInt32.ofNat p.length) type dest) from
      ⟨hts, by omega⟩) (ne_sentinel hts) hcs hidle hsz).feed after
  refine ⟨_, by rw [sendChunks_eq stack hcs chan dest ts type hp (by omega)]; exact h, ?_, ?_⟩
  · simp [Rtmpd.endpoint, Rtmpd.rtmpDispatch, MsgHdr.apply, hts0]
  · simp [Rtmpd.endpoint]

/-! ### Timestamps from the sentinel on -/

section Fails

variable {chunkSz : ℕ} {chan : OutChan} {dest ts : UInt32} {type : UInt8} {p : List UInt8}

theorem contChunks_cons (form : BasicForm) (chan chunkSz : ℕ) {q : List UInt8} (hq : q ≠ []) :
    ∃ cs, contChunks form chan chunkSz q.length q =
      ⟨form, chan, .none, q.take chunkSz⟩ :: cs := by
  obtain ⟨b, bs, rfl⟩ := List.exists_cons_of_ne_nil hq
  exact ⟨_, by simp [contChunks]; rfl⟩

/-- What a fresh receiver must read in the first chunk for the message to arrive: its
channel, no more than its body, and either the whole message or a channel that agrees
with the next chunk. -/
theorem first_of_feed (hcs : 1 ≤ chunkSz) (hchan : 2 ≤ chan.val) {after : Memory}
    {first : List UInt8} (hfirst : first ≠ []) {r' : Rtmpd}
    (h : (Rtmpd.fresh chunkSz).feed after (first :: (contChunks (formOf chan) chan chunkSz
      (p.drop chunkSz).length (p.drop chunkSz)).map Chunk.bytes) = some r')
    (hpkts : r'.pkts = [⟨chan, dest, ts, type, p⟩]) :
    let m := Memory.ofList first after
    let q := headIn m fun _ => {}
    let k := min q.1.sz.toNat chunkSz
    q.2 + k = first.length ∧ (basicHdr m).chan = chan ∧ k ≤ min chunkSz p.length ∧
      (q.1.sz.toNat = k → k = p.length ∧ q.1.curTs = ts) ∧
      (q.1.sz.toNat ≠ k → chunkSz < p.length ∧ (if q.1.curTs = 0xffffff then 4 else 0) +
        min (q.1.sz.toNat - k) chunkSz = min (p.length - chunkSz) chunkSz) := by
  intro m q k
  obtain ⟨r₁, htake, hrest⟩ := Rtmpd.feed_cons h
  obtain ⟨hend, hr₁⟩ := Endpoint.takeChunk_some hfirst htake
  obtain ⟨hk, hstored⟩ := stored_idle m (fun _ => {}) rfl chunkSz
  have hts : q.1.ts = 0 := (msgHdr_keeps _ _ _ _).2.2
  have hle : q.2 + k = first.length := by
    have h : q.2 + q.1.begin.bodySz chunkSz = first.length := hend
    rwa [hk] at h
  have hleft : (stored chunkSz m fun _ => {}).pLeft = q.1.sz.toNat - k := by rw [hstored]
  by_cases hdone : q.1.sz.toNat = k
  · -- the first chunk completes a message, which must be the one that was sent
    have hpk : r₁.pkts = [⟨(basicHdr m).chan, q.1.dest, q.1.ts + q.1.curTs, q.1.type,
        m.bytes q.2 k⟩] := by
      have hacc := Endpoint.accept_full (E := Rtmpd.endpoint) (r := Rtmpd.fresh chunkSz) (m := m)
        (by simp only [Rtmpd.endpoint, Rtmpd.fresh, hleft]; omega)
      rw [hr₁, hacc]
      simp only [Rtmpd.endpoint, Rtmpd.fresh, Rtmpd.rtmpDispatch, hstored]
      rfl
    have hpre := Rtmpd.feed_pkts_grow hrest
    rw [hpk, hpkts] at hpre
    obtain ⟨hc, -, hts', -, hp⟩ := Msg.mk.inj (List.cons_prefix_cons.mp hpre).1
    have hlen : k = p.length := by rw [← hp, Memory.bytes_length]
    refine ⟨hle, hc, ?_, fun _ => ⟨hlen, ?_⟩, fun hne => absurd hdone hne⟩
    · exact Nat.le_min.mpr ⟨Nat.min_le_right _ _, hlen.le⟩
    · simpa [hts] using hts'
  · -- the channel is midway, and the next chunk has to fit it
    have hkc : k = chunkSz := by omega
    have hacc : r₁ = ⟨chunkSz, Function.update (fun _ => {}) (basicHdr m).chan
        (stored chunkSz m fun _ => {}), []⟩ :=
      hr₁.trans (Endpoint.accept_part (E := Rtmpd.endpoint) (r := Rtmpd.fresh chunkSz) (m := m)
        (by simp only [Rtmpd.endpoint, Rtmpd.fresh, hleft]; omega))
    have hdrop : p.drop chunkSz ≠ [] := by
      intro hnil
      obtain rfl : r₁ = r' := by
        simpa [hnil, contChunks, Rtmpd.feed, Endpoint.feed] using hrest
      simp [hacc] at hpkts
    have hlt : chunkSz < p.length := by simpa using hdrop
    obtain ⟨cs, hcs'⟩ := contChunks_cons (formOf chan) chan chunkSz hdrop
    rw [hcs', List.map_cons] at hrest
    obtain ⟨r₂, htake₂, -⟩ := Rtmpd.feed_cons hrest
    have hcont := Endpoint.takeChunk_cont (formOf_fits hchan) htake₂
    simp only [hacc, Rtmpd.endpoint, List.length_take, List.length_drop] at hcont
    have hc : (basicHdr m).chan = chan := by
      by_contra hne
      rw [Function.update_of_ne (Ne.symm hne)] at hcont
      have hnone : (({} : RtmpChan).begin).bodySz chunkSz = 0 := by
        rw [RtmpChan.bodySz_eq_min]
        exact Nat.zero_min _
      rw [hnone, if_neg (by decide)] at hcont
      omega
    rw [hc, Function.update_self, hstored] at hcont
    refine ⟨hle, hc, by omega, fun heq => absurd heq hdone, fun _ => ⟨hlt, ?_⟩⟩
    rw [RtmpChan.bodySz_eq_min] at hcont
    simpa [RtmpChan.begin, Nat.min_comm chunkSz] using hcont

/-- Two fields of a full header in memory. -/
theorem full_fields (m : Memory) (form : BasicForm) (n : ℕ) {len : UInt32}
    (h : m.bytes 0 (form.len + 11) = Chunk.head ⟨form, n, .full ts len type dest, []⟩) :
    m.bytes 0 form.len = form.bytes 0 n ∧ m.bytes form.len 3 = encodeInt24 ts ∧
      m.bytes (form.len + 3) 3 = encodeInt24 len := by
  have hbasic := (m.bytes_append_iff 0 (form.bytes 0 n)
    (encodeInt24 ts ++ (encodeInt24 len ++ ([type] ++ encodeInt32le dest)))).mp
      (by simpa [Chunk.head, MsgHdr.bytes, MsgHdr.htype] using h)
  have hts := (m.bytes_append_iff _ _ _).mp hbasic.2
  have hlen := (m.bytes_append_iff _ _ _).mp hts.2
  simpa using And.intro hbasic.1 (And.intro hts.1 hlen.1)

/-- `0xffffff` is sent as it is, and the receiver takes the first four bytes of the
payload for its extension. -/
theorem not_roundTrips_sentinel (hcs : 1 ≤ chunkSz) (hchan : 2 ≤ chan.val) (hp : p ≠ [])
    (hlen : p.length < 2 ^ 24) : ¬ RoundTrips chunkSz chan dest 0xffffff type p := by
  intro h
  obtain ⟨r', hfeed, hpkts, -⟩ := h (fun _ => 0) (fun _ => 0) (Rtmpd.fresh chunkSz) rfl rfl rfl
  have hhead := hdrFull_bytes (fun _ => 0) chan dest 0xffffff type p.length (by decide)
  rw [sendChunks_cons _ hcs _ _ _ _ hp, hhead] at hfeed
  have hlast := first_of_feed hcs hchan (by simp [hp, Nat.ne_of_gt hcs]) hfeed hpkts
  set first := Chunk.head ⟨formOf chan, chan, .full 0xffffff (UInt32.ofNat p.length) type dest, []⟩
    ++ p.take chunkSz with hfirst
  set m := Memory.ofList first fun _ => 0 with hm
  obtain ⟨hend, -, -⟩ := hlast
  have hflen : first.length = (formOf chan).len + 11 + min chunkSz p.length := by
    simp [hfirst, MsgHdr.len]
  obtain ⟨hbasic, hts, hsz⟩ := full_fields m (formOf chan) chan (by
    have := Memory.bytes_ofList_append (Chunk.head ⟨formOf chan, chan,
      .full 0xffffff (UInt32.ofNat p.length) type dest, []⟩) (p.take chunkSz) fun _ => 0
    simpa only [Chunk.head_length, MsgHdr.len] using this)
  have hb := basicHdr_bytes (formOf_fits hchan) (by omega) hbasic
  have hn : (UInt32.ofNat p.length).toNat = p.length := by rw [UInt32.toNat_ofNat']; omega
  have hfield := decodeInt24_encode (by decide) hts
  have hlenField := decodeInt24_encode (by omega) hsz
  rw [headIn_snd] at hend
  simp only [headIn, hb, msgHdr_sz (by omega : 0 < 4), msgLen, tsField, hfield, hlenField,
    hflen] at hend
  simp only [if_pos (by omega : 0 < 3), if_pos (by omega : 0 < 2), if_true] at hend
  omega

/-- What `hdr_full` leaves behind with an extended timestamp. -/
theorem ext_fields (stack : Memory) (hlen : p.length < 2 ^ 24) (hts : 2 ^ 24 ≤ ts.toNat) :
    let W := (hdrFull stack chan dest ts type p.length).1
    W 0 ≠ 0 ∧ decodeInt24 W ((formOf chan).len + 3) = UInt32.ofNat p.length ∧
      ∀ i, (formOf chan).len + 11 ≤ i → W i = stack i := by
  intro W
  set W₀ := (hdrFull stack chan dest 0xffffff type p.length).1 with hW₀
  have hW : W = W₀.write 0 (encodeInt32 ts) := hdrFull_ext stack chan dest type p.length hts
  have hn : (UInt32.ofNat p.length).toNat = p.length := by rw [UInt32.toNat_ofNat']; omega
  refine ⟨fun h0 => ?_, ?_, fun i hi => hdrFull_after stack chan dest type p.length hi⟩
  · have hval := decodeInt32_encode (m := W) (p := 0) (v := ts)
      (by rw [hW]; exact Memory.bytes_write_self _ _ _)
    have hsum := decodeInt32_toNat W 0
    have h1 := (W (0 + 1)).toNat_lt
    have h2 := (W (0 + 2)).toNat_lt
    have h3 := (W (0 + 3)).toNat_lt
    rw [hval, h0, show (0 : UInt8).toNat = 0 from rfl] at hsum
    omega
  · have hhead := hdrFull_bytes stack chan dest 0xffffff type p.length (by decide)
    rw [hdrFull_snd, if_neg (by decide)] at hhead
    have hsz := (full_fields W₀ _ _ hhead).2.2
    have hpos := (formOf chan).len_pos
    apply decodeInt24_encode (by omega)
    rw [hW, Memory.bytes_write_after _ _ _ (by simp only [encodeInt32_length]; omega), hsz]

/-- From `2 ^ 24` on the timestamp is stored over the basic header. When the receiver still
finds the channel, it takes the extension from the uninitialised end of the header. -/
theorem not_roundTrips_ext (hcs : 1 ≤ chunkSz) (hchan : 2 ≤ chan.val) (hp : p ≠ [])
    (hlen : p.length < 2 ^ 24) (hts : 2 ^ 24 ≤ ts.toNat) :
    ¬ RoundTrips chunkSz chan dest ts type p := by
  intro h
  -- the junk reads as the sentinel again
  let stack : Memory := fun i => if i = (formOf chan).len + 11 then 0 else 0xff
  obtain ⟨r', hfeed, hpkts, -⟩ := h stack (fun _ => 0) (Rtmpd.fresh chunkSz) rfl rfl rfl
  rw [sendChunks_cons _ hcs _ _ _ _ hp] at hfeed
  set W := (hdrFull stack chan dest ts type p.length).1 with hW
  have hL : (hdrFull stack chan dest ts type p.length).2 = (formOf chan).len + 15 := by
    rw [hdrFull_snd, if_pos hts]
  rw [hL] at hfeed
  have hlast := first_of_feed hcs hchan (by simp [hp, Nat.ne_of_gt hcs]) hfeed hpkts
  set first := W.bytes 0 ((formOf chan).len + 15) ++ p.take chunkSz with hfirst
  set m := Memory.ofList first fun _ => 0 with hm
  have hmW : ∀ i < (formOf chan).len + 15, m i = W i := fun i hi =>
    Memory.bytes_inj.mp (by
      simpa using Memory.bytes_ofList_append (W.bytes 0 ((formOf chan).len + 15))
        (p.take chunkSz) fun _ => 0) i (Nat.zero_le i) (by omega)
  have hn : (UInt32.ofNat p.length).toNat = p.length := by rw [UInt32.toNat_ofNat']; omega
  obtain ⟨h0, hszW, hjunk⟩ : W 0 ≠ 0 ∧
      decodeInt24 W ((formOf chan).len + 3) = UInt32.ofNat p.length ∧
        ∀ i, (formOf chan).len + 11 ≤ i → W i = stack i := ext_fields stack hlen hts
  obtain ⟨hend, hchan', hk, hfull, hpart⟩ := hlast
  have hflen : first.length = (formOf chan).len + 15 + min chunkSz p.length := by
    simp [hfirst]
  have hpos := (formOf chan).len_pos
  have hlenField : decodeInt24 m ((formOf chan).len + 3) = UInt32.ofNat p.length :=
    (decodeInt24_congr (Memory.bytes_congr fun i _ hi => hmW i (by omega))).trans hszW
  have hext : decodeInt32 m ((formOf chan).len + 11) = 0xffffff := by
    apply decodeInt32_encode
    simp only [Memory.bytes, hmW _ (by omega : (formOf chan).len + 11 < _),
      hmW _ (by omega : (formOf chan).len + 11 + 1 < _),
      hmW _ (by omega : (formOf chan).len + 11 + 1 + 1 < _),
      hmW _ (by omega : (formOf chan).len + 11 + 1 + 1 + 1 < _)]
    rw [hjunk _ le_rfl, hjunk _ (by omega), hjunk _ (by omega), hjunk _ (by omega)]
    have hword : encodeInt32 0xffffff = [0, 0xff, 0xff, 0xff] := by decide
    simp [stack, hword]
  have hne : (m 0).toNat ≠ 0 := fun h => h0 (by
    rw [← hmW 0 (by omega)]
    exact UInt8.toNat_inj.mp h)
  rw [hflen] at hend
  -- only a full header with an extended timestamp is as long as what was written
  obtain ⟨ht0, hsent, hq⟩ := headIn_long m (fun _ => {}) (by rw [RTMP_HDR_MAX_SZ]; omega)
  have hptr := basicHdr_cases m
  have htype := basicHdr_type m
  by_cases heq : (basicHdr m).ptr = (formOf chan).len
  · -- length and channel are read right, the timestamp from the junk
    have hsz : (headIn m fun _ => {}).1.sz = UInt32.ofNat p.length := by
      rw [headIn, ht0, msgHdr_sz (by omega), if_pos (by omega), heq, hlenField]
    have hcurTs : (headIn m fun _ => {}).1.curTs = 0xffffff := by
      rw [headIn, ht0, msgHdr_curTs (by omega)]
      simp [tsField, heq ▸ hsent, msgLen, heq, hext]
    rw [hsz, hn] at hfull hpart
    by_cases hdone : p.length = min p.length chunkSz
    · have hts' := (hfull hdone).2
      rw [hcurTs] at hts'
      exact absurd hts (by rw [← hts']; decide)
    · obtain ⟨hlt, hnext⟩ := hpart hdone
      rw [if_pos hcurTs] at hnext
      omega
  · -- one byte off: the length that is read ends before the chunk does
    have hform := formOf_len chan
    have hshort : (headIn m fun _ => {}).1.sz.toNat < min chunkSz p.length := by
      split_ifs at hform <;> omega
    have := (hfull (by omega)).1
    omega

end Fails

/-- The round trip holds exactly for timestamps below the sentinel. -/
theorem roundTrips_iff {chunkSz : ℕ} (hcs : 1 ≤ chunkSz) {chan : OutChan} (hchan : 2 ≤ chan.val)
    (dest ts : UInt32) (type : UInt8) {p : List UInt8} (hp : p ≠ []) (hlen : p.length < 2 ^ 24) :
    RoundTrips chunkSz chan dest ts type p ↔ ts.toNat < 0xffffff := by
  refine ⟨fun h => ?_, roundTrips_of_lt hcs hchan dest type hp hlen⟩
  by_contra hge
  rcases Nat.lt_or_ge ts.toNat (2 ^ 24) with hlt | hext
  · obtain rfl : ts = 0xffffff := UInt32.toNat_inj.mp (by
      rw [show (0xffffff : UInt32).toNat = 0xffffff from rfl]; omega)
    exact not_roundTrips_sentinel hcs hchan hp hlen h
  · exact not_roundTrips_ext hcs hchan hp hlen hext h

theorem roundTrips_pong : RoundTrips RTMP_DEFAULT_CHUNK_SZ 2 0 0xfe227 RTMP_MSG_CTL [0, 7, 0, 0, 0, 1] :=
  (roundTrips_iff (by decide) (by decide) 0 0xfe227 RTMP_MSG_CTL (by decide) (by decide)).mpr
    (by decide)

/-- The read report of a session whose clock has passed `2 ^ 24`. -/
theorem not_roundTrips_readReport :
    ¬ RoundTrips RTMP_DEFAULT_CHUNK_SZ 2 0 0x1000000 RTMP_MSG_READ_REPORT [0, 0x10, 0, 0] :=
  not_roundTrips_ext (by decide) (by decide) (by decide) (by decide) (by decide)

end Mayhem
