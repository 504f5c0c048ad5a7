import Mayhem.Lib.Interleave
import Mayhem.Rtmp.Server

/-! Messages on different channels whose chunks arrive interleaved. `Progress` ties a
channel to the chunks its message still has to come; a chunk of one channel advances it
and leaves the other channels as they were. -/
namespace Mayhem

/-- The arguments of `rtmp_send`. -/
structure OutMsg where
  chan : OutChan
  dest : UInt32
  ts : UInt32
  type : UInt8
  payload : List UInt8
deriving DecidableEq, Repr

namespace OutMsg

def msg (x : OutMsg) : Msg := ⟨x.chan, x.dest, x.ts, x.type, x.payload⟩

/-- The buffers `rtmp_send` makes of the message. -/
def sends (x : OutMsg) (stack : Memory) (chunkSz : ℕ) : List (List UInt8) :=
  sendChunks stack chunkSz x.chan x.dest x.ts x.type x.payload

/-- What the decoder can give back: a channel that fits a header, a timestamp below the
sentinel and a payload whose length fits 24 bits. -/
structure Ok (x : OutMsg) : Prop where
  chan : 2 ≤ x.chan.val
  ts : x.ts.toNat < 0xffffff
  payload : x.payload ≠ []
  len : x.payload.length < 2 ^ 24

def hdr (x : OutMsg) : MsgHdr := .full x.ts (UInt32.ofNat x.payload.length) x.type x.dest

theorem Ok.toNat_len {x : OutMsg} (hx : x.Ok) :
    (UInt32.ofNat x.payload.length).toNat = x.payload.length := by
  have := hx.len
  rw [UInt32.toNat_ofNat']
  omega

theorem Ok.hdr_ok {x : OutMsg} (hx : x.Ok) : x.hdr.Ok :=
  ⟨hx.ts, by rw [hx.toNat_len]; exact hx.len⟩

/-- The chunks of the message from the second on, once `rest` of its payload is to come. -/
def tail (x : OutMsg) (chunkSz : ℕ) (rest : List UInt8) : List (List UInt8) :=
  (contChunks (formOf x.chan) x.chan chunkSz rest.length rest).map Chunk.bytes

theorem sends_eq {x : OutMsg} (hx : x.Ok) (stack : Memory) {chunkSz : ℕ} (hcs : 1 ≤ chunkSz) :
    x.sends stack chunkSz =
      Chunk.bytes ⟨formOf x.chan, x.chan, x.hdr, x.payload.take chunkSz⟩ ::
        x.tail chunkSz (x.payload.drop chunkSz) := by
  have hts := hx.ts
  exact sendChunks_eq stack hcs x.chan x.dest x.ts x.type hx.payload (by omega)

theorem tail_eq_nil (x : OutMsg) (chunkSz : ℕ) {rest : List UInt8} :
    x.tail chunkSz rest = [] ↔ rest = [] := by
  cases rest <;> simp [tail, contChunks]

theorem tail_cons (x : OutMsg) {chunkSz : ℕ} (hcs : 1 ≤ chunkSz) {rest : List UInt8}
    (h : rest ≠ []) :
    x.tail chunkSz rest =
      Chunk.bytes ⟨formOf x.chan, x.chan, .none, rest.take chunkSz⟩ ::
        x.tail chunkSz (rest.drop chunkSz) := by
  obtain ⟨b, bs, rfl⟩ := List.exists_cons_of_ne_nil h
  have hlen : ((b :: bs).drop chunkSz).length ≤ bs.length := by
    rw [List.length_drop, List.length_cons]
    omega
  simp only [tail, List.length_cons, contChunks, if_neg h, List.map_cons,
    contChunks_fuel _ _ hcs hlen le_rfl]

end OutMsg

/-- How a channel and the chunks still to come of the message on it belong together. -/
inductive Progress (x : OutMsg) (stack : Memory) (chunkSz : ℕ) :
    RtmpChan → List (List UInt8) → Prop
  | ready {pkt} : pkt.pBuf = none → pkt.ts = 0 → Progress x stack chunkSz pkt (x.sends stack chunkSz)
  | midway {base : RtmpChan} {n : ℕ} {done rest : List UInt8} : rest ≠ [] → done ++ rest = x.payload → base.dest = x.dest →
      base.ts = 0 → base.curTs = x.ts → base.type = x.type →
      Progress x stack chunkSz (base.midway n done rest) (x.tail chunkSz rest)
  | settled {pkt} : pkt.pBuf = none → Progress x stack chunkSz pkt []

namespace Progress

variable {x : OutMsg} {stack after : Memory} {r : Rtmpd} {c : List UInt8} {cs : List (List UInt8)}

private theorem advance {base : RtmpChan} {n : ℕ} {done rest : List UInt8}
    (hp : done ++ rest = x.payload) (hd : base.dest = x.dest) (hz : base.ts = 0)
    (ht : base.curTs = x.ts) (hy : base.type = x.type)
    (htake : Rtmpd.endpoint.takeChunk after r c = some (if rest = [] then
      Rtmpd.endpoint.setChan (r.rtmpDispatch
          ⟨x.chan, base.dest, base.ts + base.curTs, base.type, done⟩)
        (Function.update r.chan x.chan base.settle)
      else Rtmpd.endpoint.setChan r (Function.update r.chan x.chan (base.midway n done rest)))) :
    ∃ pkt, Progress x stack r.chunkSz pkt (x.tail r.chunkSz rest) ∧
      Rtmpd.endpoint.takeChunk after r c = some ⟨r.chunkSz, Function.update r.chan x.chan pkt,
        r.pkts ++ if x.tail r.chunkSz rest = [] then [x.msg] else []⟩ := by
  by_cases hrest : rest = []
  · subst hrest
    refine ⟨base.settle, settled rfl, ?_⟩
    rw [htake, if_pos rfl, if_pos ((x.tail_eq_nil _).mpr rfl)]
    rw [List.append_nil] at hp
    simp [Rtmpd.rtmpDispatch, Rtmpd.endpoint, OutMsg.msg, hd, hz, ht, hy, hp]
  · refine ⟨base.midway n done rest, midway hrest hp hd hz ht hy, ?_⟩
    rw [htake, if_neg hrest, if_neg (mt (x.tail_eq_nil _).mp hrest), List.append_nil]
    rfl

variable (after) in
/-- One chunk of a message: the last one hands the message over, the others only
advance the channel. -/
theorem step (hx : x.Ok) (hcs : 1 ≤ r.chunkSz)
    (h : Progress x stack r.chunkSz (r.chan x.chan) (c :: cs)) :
    ∃ pkt, Progress x stack r.chunkSz pkt cs ∧ Rtmpd.endpoint.takeChunk after r c =
      some ⟨r.chunkSz, Function.update r.chan x.chan pkt,
        r.pkts ++ if cs = [] then [x.msg] else []⟩ := by
  have hfit := formOf_fits hx.chan
  generalize hpkt : r.chan x.chan = pkt at h
  generalize hl : c :: cs = l at h
  cases h with
  | ready hidle hts =>
    rw [OutMsg.sends_eq hx stack hcs] at hl
    obtain ⟨rfl, rfl⟩ := List.cons.inj hl
    obtain ⟨hfill, hstep⟩ := first_chunk (formOf x.chan) x.chan r.chunkSz r.chan
      x.hdr (by rw [hpkt]; exact hidle) hx.toNat_len
    have htake := (Endpoint.takes_of_step (E := Rtmpd.endpoint)
      (c := ⟨formOf x.chan, x.chan, x.hdr, x.payload.take r.chunkSz⟩) ⟨hfit, hx.hdr_ok⟩
      (by simp [OutMsg.hdr, MsgHdr.htype]) hfill hstep).takeChunk after
    exact advance (List.take_append_drop _ _) rfl (by simp [hpkt, hts]) rfl rfl htake
  | @midway base n done rest hrest hp hd hz ht hy =>
    rw [OutMsg.tail_cons x hcs hrest] at hl
    obtain ⟨rfl, rfl⟩ := List.cons.inj hl
    obtain ⟨hfill, hstep⟩ := cont_chunk (formOf x.chan) x.chan r.chunkSz r.chan
      hpkt
    have htake := (Endpoint.takes_of_step (E := Rtmpd.endpoint)
      (c := ⟨formOf x.chan, x.chan, .none, rest.take r.chunkSz⟩) ⟨hfit, trivial⟩
      (fun _ => by
        change (r.chan x.chan).curTs ≠ _
        rw [hpkt]
        exact ne_sentinel (ht ▸ hx.ts)) hfill hstep).takeChunk after
    exact advance (by rw [List.append_assoc, List.take_append_drop, hp]) hd hz ht hy htake
  | settled hidle => cases hl

end Progress

/-! ### A family of messages -/

variable {ι : Type} {x : ι → OutMsg} {stack : ι → Memory} {after : Memory} {r : Rtmpd}

/-- The receiver between two chunks: `f` is what is still to come. -/
structure Between (x : ι → OutMsg) (stack : ι → Memory) (r : Rtmpd)
    (f : ι → List (List UInt8)) : Prop where
  progress : ∀ i, Progress (x i) (stack i) r.chunkSz (r.chan (x i).chan) (f i)
  others : ∀ c, (∀ i, (x i).chan.val ≠ c) → (r.chan c).pBuf = none

theorem Between.idle {f : ι → List (List UInt8)} (h : Between x stack r f) (hf : ∀ i, f i = [])
    (c : ℕ) : (r.chan c).pBuf = none := by
  by_cases hc : ∀ i, (x i).chan.val ≠ c
  · exact h.others c hc
  · obtain ⟨i, rfl⟩ := not_forall_not.mp hc
    have hp := h.progress i
    rw [hf i] at hp
    generalize hpkt : r.chan (x i).chan = pkt at hp
    generalize hl : ([] : List (List UInt8)) = l at hp
    cases hp with
    | ready hidle hts => exact hidle
    | midway hrest => exact absurd (((x i).tail_eq_nil _).mp hl.symm) hrest
    | settled hidle => exact hidle

variable [DecidableEq ι]

variable (after) in
/-- A chunk of one message leaves the others where they are. -/
theorem Between.step {f : ι → List (List UInt8)} {i : ι} {c : List UInt8} {cs : List (List UInt8)}
    (hx : ∀ i, (x i).Ok) (hinj : Function.Injective fun i => (x i).chan) (hcs : 1 ≤ r.chunkSz)
    (h : Between x stack r f) (hi : f i = c :: cs) :
    ∃ r', Rtmpd.endpoint.takeChunk after r c = some r' ∧ r'.chunkSz = r.chunkSz ∧
      r'.pkts = r.pkts ++ (if cs = [] then [(x i).msg] else []) ∧
      Between x stack r' (Function.update f i cs) := by
  obtain ⟨pkt, hpkt, htake⟩ := Progress.step after (hx i) hcs (hi ▸ h.progress i)
  refine ⟨_, htake, rfl, rfl, fun j => ?_, fun c hc => ?_⟩
  · by_cases hj : j = i
    · subst hj
      simpa using hpkt
    · have hne : (x j).chan.val ≠ (x i).chan.val := fun heq => hj (hinj (Fin.ext heq))
      simpa [Function.update_of_ne hne, Function.update_of_ne hj] using h.progress j
  · simpa [Function.update_of_ne (Ne.symm (hc i))] using h.others c hc

variable (after) in
theorem Between.run {f : ι → List (List UInt8)} {out : List (ι × List UInt8)}
    (hx : ∀ i, (x i).Ok) (hinj : Function.Injective fun i => (x i).chan)
    (hout : Interleaves f out) (hcs : 1 ≤ r.chunkSz) (h : Between x stack r f) :
    ∃ r', r.feed after (out.map Prod.snd) = some r' ∧
      r'.pkts = r.pkts ++ (out.map Prod.fst).dedup.map (fun i => (x i).msg) ∧
      ∀ c, (r'.chan c).pBuf = none := by
  induction hout using Interleaves.induction generalizing r with
  | nil f hf => exact ⟨r, rfl, by simp, h.idle hf⟩
  | cons f i c cs out hi hout ih =>
    obtain ⟨r₁, htake, hsz, hpkts, hnext⟩ := h.step after hx hinj hcs hi
    obtain ⟨r', hfeed, hpkts', hidle⟩ := ih (hsz ▸ hcs) hnext
    have hlast : i ∈ out.map Prod.fst ↔ cs ≠ [] := by
      rw [hout.mem_tags, Function.update_self]
    refine ⟨r', ?_, ?_, hidle⟩
    · simpa [Rtmpd.feed, Endpoint.feed, htake] using hfeed
    · rw [hpkts', hpkts]
      by_cases hnil : cs = []
      · rw [List.map_cons, List.dedup_cons_of_notMem (mt hlast.mp (not_not.mpr hnil))]
        simp [hnil]
      · rw [List.map_cons, List.dedup_cons_of_mem (hlast.mpr hnil)]
        simp [hnil]

/-- Any interleaving of the chunks of messages on different channels is reassembled:
each message is handed over once, as it was sent, in the order of the last chunks
(`dedup` keeps the last of equal tags). -/
theorem feed_interleaved (hx : ∀ i, (x i).Ok) (hinj : Function.Injective fun i => (x i).chan)
    (hcs : 1 ≤ r.chunkSz) (hidle : ∀ c, (r.chan c).pBuf = none) (hts : ∀ c, (r.chan c).ts = 0)
    {out : List (ι × List UInt8)}
    (hout : Interleaves (fun i => (x i).sends (stack i) r.chunkSz) out) :
    ∃ r', r.feed after (out.map Prod.snd) = some r' ∧
      r'.pkts = r.pkts ++ (out.map Prod.fst).dedup.map (fun i => (x i).msg) ∧
      (∀ i, (out.map Prod.fst).dedup.count i = 1) ∧ ∀ c, (r'.chan c).pBuf = none := by
  have hstart : Between x stack r fun i => (x i).sends (stack i) r.chunkSz :=
    ⟨fun i => .ready (hidle _) (hts _), fun c _ => hidle c⟩
  obtain ⟨r', hfeed, hpkts, hend⟩ := hstart.run after hx hinj hout hcs
  refine ⟨r', hfeed, hpkts, hout.count_dedup fun i => ?_, hend⟩
  rw [OutMsg.sends_eq (hx i) _ hcs]
  exact List.cons_ne_nil _ _

/-- A one-byte message that overtakes the second chunk of another one. -/
theorem feed_interleaved_overtake :
    ∃ r', (Rtmpd.fresh 1).feed (fun _ => 0)
        [[0, 0, 0, 0, 5, 0, 0, 2, 8, 1, 0, 0, 0, 1], [2, 0, 0, 7, 0, 0, 1, 20, 0, 0, 0, 0, 9],
          [0xc0, 0, 2]] = some r' ∧
      r'.pkts = [⟨2, 0, 7, 20, [9]⟩, ⟨64, 1, 5, 8, [1, 2]⟩] ∧
      (∀ b, [false, true].count b = 1) ∧ ∀ c, (r'.chan c).pBuf = none :=
  @feed_interleaved Bool (fun b => cond b ⟨64, 1, 5, 8, [1, 2]⟩ ⟨2, 0, 7, 20, [9]⟩)
    (fun _ _ => 0) (fun _ => 0) (Rtmpd.fresh 1) _
    (fun b => by cases b <;> exact ⟨by decide, by decide, by decide, by decide⟩)
    (fun a b => by cases a <;> cases b <;> decide) le_rfl (fun _ => rfl) (fun _ => rfl)
    [(true, [0, 0, 0, 0, 5, 0, 0, 2, 8, 1, 0, 0, 0, 1]),
      (false, [2, 0, 0, 7, 0, 0, 1, 20, 0, 0, 0, 0, 9]), (true, [0xc0, 0, 2])]
    (fun b => by cases b <;> decide)

end Mayhem
