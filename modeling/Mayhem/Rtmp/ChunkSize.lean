import Mathlib.Data.List.Induction
import Mayhem.Rtmp.Interleave
import Mayhem.Rtmp.Pump

/-! The chunk size of the two directions. `rtmp.c` keeps one size for both, so what the
peer announces for the messages it sends also cuts those it receives, and it has not been
told of any size but the default one. -/
namespace Mayhem

/-- The chunk size in force behind the messages of a peer. -/
def sizeAfter (trace : List Msg) : ℕ :=
  trace.foldl (fun chunkSz msg => msg.chunkSzAfter chunkSz) RTMP_DEFAULT_CHUNK_SZ

theorem sizeAfter_append (trace : List Msg) (msg : Msg) :
    sizeAfter (trace ++ [msg]) = msg.chunkSzAfter (sizeAfter trace) := by
  simp [sizeAfter]

theorem sizeAfter_pos (trace : List Msg) : 1 ≤ sizeAfter trace := by
  induction trace using List.reverseRecOn with
  | nil => decide
  | append_singleton trace msg ih =>
    rw [sizeAfter_append]
    exact msg.chunkSzAfter_pos ih

/-- Messages cut at `chunkSz` reach a server that decodes with the default size: each comes
back as it was sent, with nothing left over. -/
def Recovered (chunkSz : ℕ) : Prop :=
  ∀ x : OutMsg, x.Ok → ∀ (stack after : Memory) (s : Rtmpd), s.chunkSz = RTMP_DEFAULT_CHUNK_SZ →
    (s.chan x.chan).pBuf = none → (s.chan x.chan).ts = 0 →
      let bs := (x.sends stack chunkSz).flatten
      let res := Rtmpd.endpoint.decodeAll after bs.length s bs
      res.1.pkts = s.pkts ++ [x.msg] ∧ res.2 = []

/-! ### Runs of the client -/

namespace Rtmp

/-- The chunk size of a live connection is that of the messages dispatched so far. -/
structure SizeInv (s : Rtmp × List UInt8) : Prop where
  state : s.1.live → s.1.conn.state = .handshake2
  size : s.1.chunkSz = sizeAfter s.1.trace

theorem AfterHandshake.sizeInv {s : Rtmp × List UInt8} (h : AfterHandshake s.1) : SizeInv s :=
  ⟨fun _ => h.state, by rw [h.chunkSz, h.trace]; rfl⟩

/-- A refill leaves chunk size and messages alone. -/
theorem fillRcvBuf_keeps {r : Rtmp} {queue : List UInt8} {ans : Recv} {s : Rtmp × List UInt8}
    (h : r.fillRcvBuf queue ans = some s) : r.toLine.Keeps s.1.toLine := by
  by_cases hspace : r.rbuf.space = 0
  · simp [fillRcvBuf, hspace] at h
  cases ans with
  | upTo n =>
    obtain ⟨bs, -, -, hs⟩ := fillRcvBuf_upTo h
    rw [hs]
    exact .refl _
  | again =>
    simp only [fillRcvBuf, if_neg hspace] at h
    obtain rfl := Option.some.inj h
    exact .refl _
  | fails =>
    simp only [fillRcvBuf, if_neg hspace] at h
    obtain rfl := Option.some.inj h
    exact ⟨rfl, rfl, .of_reset _ rfl⟩
  | eof =>
    simp only [fillRcvBuf, if_neg hspace] at h
    obtain rfl := Option.some.inj h
    exact ⟨rfl, rfl, .of_reset _ rfl⟩

theorem sizeInv_step {s s' : Rtmp × List UInt8} (hinv : SizeInv s) (hstep : Step s s') :
    SizeInv s' := by
  obtain ⟨r, queue⟩ := s
  obtain ⟨hlive, ans, hpass⟩ := hstep
  obtain ⟨hst, hsize⟩ := hinv
  have hst := hst hlive
  dsimp only at hst hsize
  have hof : ∀ r' : Rtmp, r.conn.Keeps r'.conn → r'.live → r'.conn.state = .handshake2 :=
    fun r' hkeeps hlive' => (hkeeps (by simpa [live] using hlive')).2.trans hst
  rcases Nat.lt_or_ge r.rbuf.cur r.frontEnd with hwait | htake
  · rw [pass_wait hst hwait] at hpass
    have hkeeps := fillRcvBuf_keeps hpass
    rw [congrArg Link.toLine r.waiting_toLink] at hkeeps
    exact ⟨hof s'.1 hkeeps.conn, by rw [hkeeps.chunkSz, hkeeps.trace, hsize]⟩
  · rw [pass_take hst htake] at hpass
    obtain rfl := Option.some.inj hpass
    have hline := (shuffle_spec (endpoint.accept r r.rbuf.mem) r.frontEnd
      (by rw [accept_cur]; exact htake)).1
    refine ⟨hof _ (by rw [hline]; exact accept_keeps r r.rbuf.mem), ?_⟩
    rw [hline]
    obtain ⟨-, hlink⟩ | ⟨msg, -, hdisp⟩ := accept_cases r r.rbuf.mem
    · rw [congrArg Link.toLine hlink]
      exact hsize
    · rw [hdisp.chunkSz, hdisp.trace, sizeAfter_append, hsize]

end Rtmp

/-! ### What the server makes of it -/

theorem length_le_flatten {cs : List (List UInt8)} (h : ∀ c ∈ cs, c ≠ []) :
    cs.length ≤ cs.flatten.length := by
  induction cs with
  | nil => exact le_rfl
  | cons c cs ih =>
    have hpos := List.length_pos_iff.mpr (h c List.mem_cons_self)
    have hrest := ih fun d hd => h d (List.mem_cons_of_mem c hd)
    rw [List.flatten_cons, List.length_append, List.length_cons]
    omega

theorem recovered_default : Recovered RTMP_DEFAULT_CHUNK_SZ := by
  intro x hx stack after s hsz hidle hts
  have hlt := hx.ts
  have hcs : 1 ≤ s.chunkSz := by rw [hsz]; decide
  have hall := Endpoint.takesAll_chunksOf (E := Rtmpd.endpoint) (r := s)
    (formOf_fits hx.chan) hx.hdr_ok (ne_sentinel hx.ts) hcs hidle hx.toNat_len
  have hsends : x.sends stack RTMP_DEFAULT_CHUNK_SZ = (chunksOf (formOf x.chan) x.chan x.hdr
      (Rtmpd.endpoint.chunkSz s) x.payload).map Chunk.bytes := by
    rw [← hsz]
    exact sendChunks_eq stack hcs x.chan x.dest x.ts x.type hx.payload (by omega)
  have hne : ∀ c ∈ x.sends stack RTMP_DEFAULT_CHUNK_SZ, c ≠ [] := by
    rw [hsends]
    intro c hc
    obtain ⟨d, -, rfl⟩ := List.mem_map.mp hc
    exact d.bytes_ne_nil
  rw [← hsends] at hall
  have hres := hall.decodeAll hne after (length_le_flatten hne)
  dsimp only
  rw [hres]
  refine ⟨?_, rfl⟩
  simp [Rtmpd.endpoint, Rtmpd.rtmpDispatch, OutMsg.msg, OutMsg.hdr, MsgHdr.apply, hts]

/-- Packets handed over are never taken back. -/
theorem Rtmpd.decodeAll_pkts_grow (after : Memory) (n : ℕ) (s : Rtmpd) (bs : List UInt8) :
    s.pkts <+: (endpoint.decodeAll after n s bs).1.pkts := by
  induction n generalizing s bs with
  | zero => exact List.prefix_rfl
  | succ n ih =>
    by_cases hbs : bs = []
    · simp [Endpoint.decodeAll, hbs]
    rw [Endpoint.decodeAll_succ hbs]
    dsimp only
    split_ifs
    · exact List.prefix_rfl
    · refine List.IsPrefix.trans ?_ (ih _ _)
      rw [accept_pkts]
      exact List.prefix_append _ _

/-- A stream that yields a single message yields the one that its first chunk completes. -/
theorem Rtmpd.decodeAll_single {after : Memory} {n : ℕ} {s : Rtmpd} {bs : List UInt8}
    {msg msg' : Msg} (h : (endpoint.decodeAll after n s bs).1.pkts = s.pkts ++ [msg])
    (hmsg : completed s.chunkSz (Memory.ofList bs after) s.chan = some msg') : msg' = msg := by
  cases n with
  | zero => simp [Endpoint.decodeAll] at h
  | succ n =>
    by_cases hbs : bs = []
    · simp [Endpoint.decodeAll, hbs] at h
    rw [Endpoint.decodeAll_succ hbs] at h
    dsimp only at h
    split_ifs at h
    · simp [endpoint] at h
    · have hpre := decodeAll_pkts_grow after n
        (endpoint.accept s (Memory.ofList bs after))
        (bs.drop (chunkEnd (endpoint.chunkSz s) (Memory.ofList bs after) (endpoint.chan s)))
      rw [h, accept_pkts, hmsg, List.prefix_append_right_inj] at hpre
      simpa using hpre

/-- A message of `n` zeros. -/
def zeros (n : ℕ) : OutMsg := ⟨ctlChan, 0, 0, RTMP_MSG_AUDIO, List.replicate n 0⟩

theorem zeros_ok {n : ℕ} (h : 1 ≤ n) (hlt : n < 2 ^ 24) : (zeros n).Ok :=
  ⟨le_refl 2, Nat.zero_lt_succ _, by simpa [zeros] using Nat.ne_of_gt h, by simpa [zeros] using hlt⟩

/-- Below the default size the server stores the header of the second chunk. -/
theorem not_recovered_of_lt {chunkSz : ℕ} (hcs : 1 ≤ chunkSz) (hlt : chunkSz < RTMP_DEFAULT_CHUNK_SZ) :
    ¬ Recovered chunkSz := by
  intro h
  have hok : (zeros 128).Ok := zeros_ok (by decide) (by decide)
  have hrec := (h _ hok (fun _ => 0) (fun _ => 0) (Rtmpd.fresh 128) rfl rfl rfl).1
  set p : List UInt8 := List.replicate 128 0 with hp
  have hdrop : p.drop chunkSz ≠ [] := by
    rw [hp, List.drop_replicate, Ne, List.replicate_eq_nil_iff]
    exact Nat.sub_ne_zero_of_lt hlt
  set first : Chunk := ⟨formOf 2, 2, (zeros 128).hdr, []⟩ with hfirst
  -- the stream starts with the header, the first piece and the header of the second
  obtain ⟨rest, hbs⟩ : ∃ rest, ((zeros 128).sends (fun _ => 0) chunkSz).flatten =
      first.head ++ (p.take chunkSz ++ ([0xc2] ++ rest)) := by
    refine ⟨(p.drop chunkSz).take chunkSz ++ ((zeros 128).tail chunkSz
      ((p.drop chunkSz).drop chunkSz)).flatten, ?_⟩
    have hhead : ∀ body, Chunk.head ⟨formOf 2, 2, .none, body⟩ = [0xc2] := fun _ => rfl
    rw [OutMsg.sends_eq hok _ hcs, show (zeros 128).payload = p from rfl,
      OutMsg.tail_cons _ hcs hdrop]
    simp only [List.flatten_cons, Chunk.bytes, show (zeros 128).chan.val = 2 from rfl, hhead,
      List.append_assoc]
    rfl
  rw [hbs] at hrec
  set bs := first.head ++ (p.take chunkSz ++ ([0xc2] ++ rest)) with hbs'
  set m := Memory.ofList bs fun _ => 0 with hm
  have hhead := (m.bytes_append_iff 0 _ _).mp (Memory.bytes_ofList bs fun _ => 0)
  have htake := (m.bytes_append_iff _ _ _).mp hhead.2
  have hnext := (m.bytes_append_iff _ _ _).mp htake.2
  have hlen : first.head.length = 12 := rfl
  have hbyte : m (12 + chunkSz) = 0xc2 := by
    have htk : (p.take chunkSz).length = chunkSz := by
      rw [List.length_take, hp, List.length_replicate]
      exact Nat.min_eq_left hlt.le
    simpa [hlen, htk, Memory.bytes] using hnext.1
  have hsz : (UInt32.ofNat (zeros 128).payload.length).toNat = 128 :=
    hok.toNat_len.trans List.length_replicate
  have hmsg := completed_head 128 (fun _ => {}) (c := first)
    ⟨formOf_fits hok.chan, hok.hdr_ok⟩ (fun htype => absurd htype (by decide)) hhead.1 rfl hsz le_rfl
  have hpayload := congrArg Msg.payload (Rtmpd.decodeAll_single hrec hmsg)
  rw [hlen] at hpayload
  have hzero := Memory.eq_of_bytes hpayload hlt
  rw [hbyte, show (zeros 128).msg.payload = List.replicate 128 0 from rfl,
    List.getElem?_replicate_of_lt (show chunkSz < 128 from hlt)] at hzero
  exact absurd hzero (by decide)

/-- Above it the server takes the end of the first chunk for a header. -/
theorem not_recovered_of_gt {chunkSz : ℕ} (hgt : RTMP_DEFAULT_CHUNK_SZ < chunkSz) :
    ¬ Recovered chunkSz := by
  intro h
  have hok : (zeros 129).Ok := zeros_ok (by decide) (by decide)
  have hrec := (h _ hok (fun _ => 0) (fun _ => 0) (Rtmpd.fresh 128) rfl rfl rfl).1
  have hle : (zeros 129).payload.length ≤ chunkSz := hgt
  rw [OutMsg.sends_eq hok _ (by omega), List.take_of_length_le hle, List.drop_of_length_le hle,
    ((zeros 129).tail_eq_nil chunkSz).mpr rfl] at hrec
  exact absurd hrec (by decide +kernel)

namespace Rtmp

/-- In every state of every run behind the handshake: what the client sends is cut at the
default size, and is recovered by the server, exactly if the last chunk size that the peer
has announced is the default one. -/
theorem recovered_iff {s₀ s : Rtmp × List UInt8} (h₀ : AfterHandshake s₀.1)
    (hrun : Run.Under (fun _ => True) Step s₀ s) :
    ((∀ x : OutMsg, x.Ok → ∀ stack,
        x.sends stack s.1.chunkSz = x.sends stack RTMP_DEFAULT_CHUNK_SZ) ↔
      sizeAfter s.1.trace = RTMP_DEFAULT_CHUNK_SZ) ∧
    (Recovered s.1.chunkSz ↔ sizeAfter s.1.trace = RTMP_DEFAULT_CHUNK_SZ) := by
  have hinv : SizeInv s := Run.invariant (fun _ _ hinv _ => sizeInv_step hinv) h₀.sizeInv hrun
  have hpos := sizeAfter_pos s.1.trace
  have hrec : Recovered s.1.chunkSz → sizeAfter s.1.trace = RTMP_DEFAULT_CHUNK_SZ := by
    intro hrec
    rw [hinv.size] at hrec
    by_contra hne
    rcases Nat.lt_or_gt_of_ne hne with hlt | hgt
    · exact not_recovered_of_lt hpos hlt hrec
    · exact not_recovered_of_gt hgt hrec
  rw [hinv.size] at hrec ⊢
  refine ⟨⟨fun hcut => hrec ?_, fun h => by rw [h]; exact fun _ _ _ => rfl⟩, hrec, fun h => ?_⟩
  · intro x hx stack
    rw [hcut x hx stack]
    exact recovered_default x hx stack
  · rw [h]
    exact recovered_default

/-- A peer that announces the default size. -/
theorem recovered_iff_default :
    ∃ s, Run.Under (fun _ => True) Step
        (established, [2, 0, 0, 0, 0, 0, 4, 1, 0, 0, 0, 0, 0, 0, 0, 128]) s ∧
      s.1.trace = [⟨2, 0, 0, RTMP_MSG_CHUNK_SZ, [0, 0, 0, 128]⟩] ∧ Recovered s.1.chunkSz := by
  have hrun : Run.Under (fun _ => True) Step
      (established, [2, 0, 0, 0, 0, 0, 4, 1, 0, 0, 0, 0, 0, 0, 0, 128]) _ :=
    .tail (.tail .refl ⟨trivial, rfl, .upTo 15, rfl⟩) ⟨trivial, rfl, .again, rfl⟩
  exact ⟨_, hrun, rfl, (recovered_iff established_afterHandshake hrun).2.mpr (by decide)⟩

/-- A peer that announces 4096 no longer understands longer messages. -/
theorem not_recovered_resized :
    ∃ s, Run.Under (fun _ => True) Step
        (established, [2, 0, 0, 0, 0, 0, 4, 1, 0, 0, 0, 0, 0, 0, 16, 0]) s ∧
      AfterHandshake established ∧ s.1.chunkSz = 4096 ∧ ¬ Recovered s.1.chunkSz := by
  have hrun : Run.Under (fun _ => True) Step
      (established, [2, 0, 0, 0, 0, 0, 4, 1, 0, 0, 0, 0, 0, 0, 16, 0]) _ :=
    .tail (.tail .refl ⟨trivial, rfl, .upTo 15, rfl⟩) ⟨trivial, rfl, .again, rfl⟩
  exact ⟨_, hrun, established_afterHandshake, rfl, not_recovered_of_gt (by decide)⟩

end Rtmp
end Mayhem
