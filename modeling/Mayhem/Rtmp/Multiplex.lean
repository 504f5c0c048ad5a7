import Mayhem.Rtmp.Interleave
import Mayhem.Rtmp.Stream

/-! Streams of messages that share a connection. On every channel one message follows the
other, and the chunks of different channels come in any order. `Pending` ties a channel to the
chunks that are still to come on it and to the messages that these will complete. -/
namespace Mayhem

theorem contChunks_of_ne_nil (form : BasicForm) (chan : ℕ) {chunkSz : ℕ} (hcs : 1 ≤ chunkSz)
    {rest : List UInt8} (h : rest ≠ []) :
    contChunks form chan chunkSz rest.length rest =
      ⟨form, chan, .none, rest.take chunkSz⟩ ::
        contChunks form chan chunkSz (rest.drop chunkSz).length (rest.drop chunkSz) := by
  obtain ⟨b, bs, rfl⟩ := List.exists_cons_of_ne_nil h
  have hlen : ((b :: bs).drop chunkSz).length ≤ bs.length := by
    rw [List.length_drop, List.length_cons]
    omega
  rw [List.length_cons, contChunks, if_neg h, contChunks_fuel _ _ hcs hlen le_rfl]

namespace OutMsg

/-- The chunks `rtmp_send` makes of the message. -/
def chunks (x : OutMsg) (chunkSz : ℕ) : List Chunk :=
  chunksOf (formOf x.chan) x.chan x.hdr chunkSz x.payload

theorem sends_eq_chunks {x : OutMsg} (hx : x.Ok) (stack : Memory) {chunkSz : ℕ}
    (hcs : 1 ≤ chunkSz) : x.sends stack chunkSz = (x.chunks chunkSz).map Chunk.bytes := by
  have hts := hx.ts
  exact sendChunks_eq stack hcs x.chan x.dest x.ts x.type hx.payload (by omega)

/-- Channels below 64 are written in one byte. -/
theorem chunks_form (x : OutMsg) (h : x.chan.val < 64) {chunkSz : ℕ} {c : Chunk}
    (hc : c ∈ x.chunks chunkSz) : c.form = .one := by
  have hone : formOf x.chan = .one := if_pos h
  have hcont : ∀ fuel rest, ∀ d ∈ contChunks (formOf x.chan) x.chan chunkSz fuel rest,
      d.form = .one := by
    intro fuel
    induction fuel with
    | zero => exact fun _ _ hd => absurd hd List.not_mem_nil
    | succ fuel ih =>
      intro rest d hd
      rw [contChunks] at hd
      split_ifs at hd
      · exact absurd hd List.not_mem_nil
      · rcases List.mem_cons.mp hd with rfl | hd
        · exact hone
        · exact ih _ d hd
  rcases List.mem_cons.mp hc with rfl | hc
  · exact hone
  · exact hcont _ _ c hc

/-- The message on a channel that has come to the time `t`. -/
def msgAt (x : OutMsg) (t : UInt32) : Msg := ⟨x.chan, x.dest, t + x.ts, x.type, x.payload⟩

end OutMsg

/-- The messages of a channel as they are handed over: the time of each is added to the times
of those in front of it. -/
def stamped : UInt32 → List OutMsg → List Msg
  | _, [] => []
  | t, x :: xs => x.msgAt t :: stamped (t + x.ts) xs

/-! ### One channel -/

section Chunk

variable {c : Chunk} {pkt base : RtmpChan} {n : ℕ} {done rest : List UInt8}

/-- A chunk that leaves its channel midway finishes nothing. -/
theorem Chunk.leave_part (h : (c.enter pkt).store c.body = base.midway n done rest)
    (hrest : rest ≠ []) : c.leave pkt = base.midway n done rest ∧ c.finishes pkt = none := by
  have hleft : (base.midway n done rest).pLeft ≠ 0 := mt List.length_eq_zero_iff.mp hrest
  simp only [Chunk.leave, Chunk.finishes, h, if_neg hleft, and_self]

/-- The last chunk of a message settles its channel and finishes it. -/
theorem Chunk.leave_full (h : (c.enter pkt).store c.body = base.midway n done []) :
    c.leave pkt = base.settle ∧
      c.finishes pkt = some ⟨c.chan, base.dest, base.ts + base.curTs, base.type, done⟩ := by
  have hleft : (base.midway n done []).pLeft = 0 := rfl
  simp only [Chunk.leave, Chunk.finishes, h, if_pos hleft]
  exact ⟨rfl, rfl⟩

end Chunk

/-- A channel, the chunks still to come on it, and the messages that they complete. -/
inductive Pending (chunkSz : ℕ) (chan : OutChan) : RtmpChan → List Chunk → List Msg → Prop
  | idle {pkt : RtmpChan} {xs : List OutMsg} : (∀ x ∈ xs, x.Ok ∧ x.chan = chan) →
      pkt.pBuf = none →
        Pending chunkSz chan pkt (xs.flatMap (·.chunks chunkSz)) (stamped pkt.ts xs)
  | midway {base : RtmpChan} {n : ℕ} {done rest : List UInt8} {x : OutMsg} {xs : List OutMsg} :
      (∀ y ∈ x :: xs, y.Ok ∧ y.chan = chan) → rest ≠ [] → done ++ rest = x.payload →
        base.dest = x.dest → base.curTs = x.ts → base.type = x.type →
          Pending chunkSz chan (base.midway n done rest)
            (contChunks (formOf chan) chan chunkSz rest.length rest ++
              xs.flatMap (·.chunks chunkSz))
            (stamped base.ts (x :: xs))

namespace Pending

variable {chunkSz : ℕ} {chan : OutChan} {pkt : RtmpChan} {c : Chunk} {cs : List Chunk}
  {ms : List Msg}

/-- A chunk of `x` that stores up to `rest` of its payload. -/
private theorem advance (base : RtmpChan) {n : ℕ} {done rest : List UInt8} {x : OutMsg}
    {xs : List OutMsg} (hxs : ∀ y ∈ x :: xs, y.Ok ∧ y.chan = chan) (hchan : c.chan = chan)
    (hp : done ++ rest = x.payload) (hd : base.dest = x.dest) (ht : base.curTs = x.ts)
    (hy : base.type = x.type) (hstore : (c.enter pkt).store c.body = base.midway n done rest) :
    ∃ ms', stamped base.ts (x :: xs) = (c.finishes pkt).toList ++ ms' ∧
      Pending chunkSz chan (c.leave pkt) (contChunks (formOf chan) chan chunkSz rest.length rest ++
        xs.flatMap (·.chunks chunkSz)) ms' := by
  by_cases hrest : rest = []
  · subst hrest
    obtain ⟨hleave, hfin⟩ := Chunk.leave_full hstore
    have hx : x.chan = chan := (hxs x List.mem_cons_self).2
    refine ⟨stamped (base.ts + x.ts) xs, ?_, ?_⟩
    · rw [hfin, stamped, OutMsg.msgAt, hchan, hd, ht, hy, hx, ← hp, List.append_nil]
      rfl
    · have hts : base.settle.ts = base.ts + x.ts := by rw [← ht]; rfl
      rw [hleave, ← hts]
      exact .idle (fun y hy => hxs y (List.mem_cons_of_mem x hy)) rfl
  · obtain ⟨hleave, hfin⟩ := Chunk.leave_part hstore hrest
    refine ⟨stamped base.ts (x :: xs), ?_, ?_⟩
    · rw [hfin]
      rfl
    · rw [hleave]
      exact .midway hxs hrest hp hd ht hy

/-- One chunk: it fills its channel, and what it finishes is the next of the messages. -/
theorem step (hcs : 1 ≤ chunkSz) (h : Pending chunkSz chan pkt (c :: cs) ms) :
    c.Ok ∧ c.chan = chan ∧ (c.hdr.htype = 3 → pkt.curTs ≠ 0xffffff) ∧ c.Fills chunkSz pkt ∧
      ∃ ms', ms = (c.finishes pkt).toList ++ ms' ∧ Pending chunkSz chan (c.leave pkt) cs ms' := by
  generalize hl : c :: cs = l at h
  cases h with
  | @idle _ xs hxs hidle =>
    cases xs with
    | nil => cases hl
    | cons x xs =>
      obtain ⟨hx, hchan⟩ := hxs x List.mem_cons_self
      obtain ⟨rfl, rfl⟩ := List.cons.inj hl
      have henter : Chunk.enter ⟨formOf x.chan, x.chan, x.hdr, x.payload.take chunkSz⟩ pkt =
          (x.hdr.apply pkt).midway x.payload.length [] x.payload :=
        RtmpChan.begin_apply x.hdr hidle hx.toNat_len
      have hstore := (x.hdr.apply pkt).midway_store x.payload.length [] x.payload chunkSz
      rw [← henter] at hstore
      refine ⟨⟨formOf_fits hx.chan, hx.hdr_ok⟩, congrArg Fin.val hchan,
        fun h3 => absurd h3 (by simp [OutMsg.hdr, MsgHdr.htype]), ?_, ?_⟩
      · rw [Chunk.Fills, henter, RtmpChan.midway_bodySz]
      · rw [← hchan]
        have hxs' : ∀ y ∈ x :: xs, y.Ok ∧ y.chan = x.chan := by rwa [hchan]
        exact advance (x.hdr.apply pkt) hxs' rfl (List.take_append_drop chunkSz x.payload) rfl rfl rfl hstore
  | @midway base n done rest x xs hxs hrest hp hd ht hy =>
    obtain ⟨hx, hchan⟩ := hxs x List.mem_cons_self
    rw [contChunks_of_ne_nil _ _ hcs hrest] at hl
    obtain ⟨rfl, rfl⟩ := List.cons.inj hl
    have henter : Chunk.enter ⟨formOf chan, chan, .none, rest.take chunkSz⟩
        (base.midway n done rest) = base.midway n done rest := rfl
    have hstore := base.midway_store n done rest chunkSz
    rw [← henter] at hstore
    refine ⟨⟨formOf_fits (hchan ▸ hx.chan), trivial⟩, rfl, fun _ => ?_, ?_, ?_⟩
    · exact ne_sentinel (show base.curTs.toNat < _ from ht ▸ hx.ts)
    · rw [Chunk.Fills, henter, RtmpChan.midway_bodySz]
    · refine advance base hxs rfl ?_ hd ht hy hstore
      rw [List.append_assoc, List.take_append_drop, hp]

theorem nil (h : Pending chunkSz chan pkt [] ms) : pkt.pBuf = none ∧ ms = [] := by
  generalize hl : ([] : List Chunk) = l at h
  cases h with
  | @idle _ xs hxs hidle =>
    cases xs with
    | nil => exact ⟨hidle, rfl⟩
    | cons x xs => cases hl
  | @midway base n done rest x xs hxs hrest =>
    obtain ⟨b, bs, rfl⟩ := List.exists_cons_of_ne_nil hrest
    simp [contChunks] at hl

end Pending

/-! ### All channels -/

section Family

open Rtmpd (endpoint)

variable {ι : Type} {chan : ι → OutChan} {r : Rtmpd} {f : ι → List Chunk} {g : ι → List Msg}

/-- The receiver between two chunks: `f` are the chunks to come and `g` the messages. -/
def Waits (chan : ι → OutChan) (r : Rtmpd) (f : ι → List Chunk) (g : ι → List Msg) : Prop :=
  ∀ i, Pending r.chunkSz (chan i) (r.chan (chan i)) (f i) (g i)

variable [DecidableEq ι]

/-- A chunk on one channel leaves the others where they are. -/
theorem Waits.step {i : ι} {c : Chunk} {cs : List Chunk} (hinj : Function.Injective chan)
    (hcs : 1 ≤ r.chunkSz) (h : Waits chan r f g) (hi : f i = c :: cs) :
    ∃ ms', g i = (c.finishes (r.chan c.chan)).toList ++ ms' ∧ c.Ok ∧
      (c.hdr.htype = 3 → (r.chan c.chan).curTs ≠ 0xffffff) ∧
      c.Fills r.chunkSz (r.chan c.chan) ∧
      Waits chan (endpoint.acceptChunk r c) (Function.update f i cs) (Function.update g i ms') := by
  obtain ⟨hok, hchan, hts, hfill, ms', hms, hnext⟩ := Pending.step hcs (hi ▸ h i)
  rw [← hchan] at hts hfill hms hnext
  refine ⟨ms', hms, hok, hts, hfill, fun j => ?_⟩
  have htbl : (endpoint.acceptChunk r c).chan =
      Function.update r.chan c.chan (c.leave (r.chan c.chan)) :=
    Endpoint.acceptChunk_chan (E := endpoint) r c
  have hsz : (endpoint.acceptChunk r c).chunkSz = r.chunkSz := Rtmpd.steady.acceptChunk
  rw [htbl, hsz]
  by_cases hj : j = i
  · subst hj
    rw [← hchan]
    simpa using hnext
  · have hne : (chan j).val ≠ c.chan := fun heq =>
      hj (hinj (Fin.ext (heq.trans hchan)))
    simpa [Function.update_of_ne hne, Function.update_of_ne hj] using h j

/-- The chunks of all channels in any order: every channel gets its messages in order. -/
theorem Waits.run {out : List (ι × Chunk)} (hinj : Function.Injective chan)
    (hcs : 1 ≤ r.chunkSz) (h : Waits chan r f g) (hout : Interleaves f out) :
    endpoint.WellFormed r (out.map Prod.snd) ∧
      endpoint.TakesAll r (out.map fun x => x.2.bytes)
        (endpoint.acceptAll r (out.map Prod.snd)) ∧
      (∀ i, ((endpoint.acceptAll r (out.map Prod.snd)).chan (chan i)).pBuf = none) ∧
      ∃ tagged, Interleaves g tagged ∧
        (endpoint.acceptAll r (out.map Prod.snd)).pkts = r.pkts ++ tagged.map Prod.snd := by
  induction hout using Interleaves.induction generalizing r g with
  | nil f hf =>
    have hend : ∀ i, (r.chan (chan i)).pBuf = none ∧ g i = [] := fun i => Pending.nil (hf i ▸ h i)
    refine ⟨trivial, .nil, fun i => (hend i).1, [], ?_, by simp [Endpoint.acceptAll]⟩
    exact Interleaves.nil_iff.mpr fun i => (hend i).2
  | cons f i c cs out hi hout ih =>
    obtain ⟨ms', hms, hok, hts, hfill, hnext⟩ := h.step hinj hcs hi
    have hsz : (endpoint.acceptChunk r c).chunkSz = r.chunkSz := Rtmpd.steady.acceptChunk
    obtain ⟨hwf, htakes, hidle, tagged, htagged, hpkts⟩ := ih (hsz.symm ▸ hcs) hnext
    refine ⟨⟨hok, hfill, hwf⟩, .cons (Endpoint.takes_chunk hok hts hfill) htakes, hidle, ?_⟩
    have hall : (endpoint.acceptAll r (c :: out.map Prod.snd)).pkts =
        r.pkts ++ ((c.finishes (r.chan c.chan)).toList ++ tagged.map Prod.snd) := by
      rw [← List.append_assoc, ← Rtmpd.acceptChunk_pkts]
      exact hpkts
    cases hfin : c.finishes (r.chan c.chan) with
    | none =>
      rw [hfin] at hms hall
      have hg : Function.update g i ms' = g := by
        rw [Option.toList_none, List.nil_append] at hms
        rw [← hms, Function.update_eq_self]
      exact ⟨tagged, hg ▸ htagged, hall⟩
    | some msg =>
      rw [hfin] at hms hall
      exact ⟨(i, msg) :: tagged, htagged.cons hms, hall⟩

/-- The messages of every channel, sent one behind the other, arrive once and in order, however
the chunks of the channels are mixed: what is handed over is a mix of what was sent. -/
theorem multiplexed_fifo {xs : ι → List (OutMsg × Memory)} {out : List (ι × List UInt8)}
    (hinj : Function.Injective chan) (hxs : ∀ i, ∀ x ∈ xs i, x.1.Ok ∧ x.1.chan = chan i)
    (hcs : 1 ≤ r.chunkSz) (hidle : ∀ i, (r.chan (chan i)).pBuf = none)
    (hout : Interleaves (fun i => (xs i).flatMap fun x => x.1.sends x.2 r.chunkSz) out) :
    ∃ r' tagged, Interleaves (fun i => stamped (r.chan (chan i)).ts ((xs i).map Prod.fst)) tagged ∧
      r'.pkts = r.pkts ++ tagged.map Prod.snd ∧ (∀ i, (r'.chan (chan i)).pBuf = none) ∧
      ∀ after, r.feed after (out.map Prod.snd) = some r' ∧
        ∀ n, out.length ≤ n →
          endpoint.decodeAll after n r (out.map Prod.snd).flatten = (r', []) := by
  have hchunks : (fun i => (xs i).flatMap fun x => x.1.sends x.2 r.chunkSz) =
      fun i => (((xs i).map Prod.fst).flatMap (·.chunks r.chunkSz)).map Chunk.bytes := by
    funext i
    rw [List.map_flatMap, List.flatMap_map]
    exact List.flatMap_congr fun x hx => OutMsg.sends_eq_chunks (hxs i x hx).1 x.2 hcs
  rw [hchunks] at hout
  obtain ⟨out', hout', rfl⟩ := hout.of_map
  have hwaits : Waits chan r (fun i => ((xs i).map Prod.fst).flatMap (·.chunks r.chunkSz))
      fun i => stamped (r.chan (chan i)).ts ((xs i).map Prod.fst) := by
    refine fun i => .idle (fun x hx => ?_) (hidle i)
    obtain ⟨y, hy, rfl⟩ := List.mem_map.mp hx
    exact hxs i y hy
  obtain ⟨-, htakes, hend, tagged, htagged, hpkts⟩ := hwaits.run hinj hcs hout'
  have hbytes : (out'.map (Prod.map id Chunk.bytes)).map Prod.snd = out'.map fun x => x.2.bytes := by
    rw [List.map_map]
    rfl
  refine ⟨_, tagged, htagged, hpkts, hend, fun after => ?_⟩
  rw [hbytes]
  refine ⟨htakes.feed after, fun n hn => htakes.decodeAll (fun c hc => ?_) after ?_⟩
  · obtain ⟨x, -, rfl⟩ := List.mem_map.mp hc
    exact x.2.bytes_ne_nil
  · simpa using hn

/-- The channels of the two streams below. -/
def mixedChan (b : Bool) : OutChan := cond b ⟨64, Nat.le_of_ble_eq_true rfl⟩ ⟨2, Nat.le_of_ble_eq_true rfl⟩

/-- A channel of two messages, the first of which is overtaken between its chunks. -/
def mixedMsgs (b : Bool) : List (OutMsg × Memory) :=
  cond b
    [(⟨mixedChan b, 1, 5, 8, [1, 2]⟩, fun _ => 0), (⟨mixedChan b, 1, 3, 8, [7]⟩, fun _ => 0xff)]
    [(⟨mixedChan b, 0, 7, 20, [9]⟩, fun _ => 0)]

theorem multiplexed_fifo_mixed :
    ∃ r' tagged, Interleaves (fun b => stamped 0 ((mixedMsgs b).map Prod.fst)) tagged ∧
      r'.pkts = [] ++ tagged.map Prod.snd ∧
      (∀ b, (r'.chan (mixedChan b)).pBuf = none) ∧
      ∀ after, (Rtmpd.fresh 1).feed after [[0, 0, 0, 0, 5, 0, 0, 2, 8, 1, 0, 0, 0, 1],
          [2, 0, 0, 7, 0, 0, 1, 20, 0, 0, 0, 0, 9], [0xc0, 0, 2],
          [0, 0, 0, 0, 3, 0, 0, 1, 8, 1, 0, 0, 0, 7]] = some r' ∧
        ∀ n, 4 ≤ n → endpoint.decodeAll after n (Rtmpd.fresh 1)
          [0, 0, 0, 0, 5, 0, 0, 2, 8, 1, 0, 0, 0, 1, 2, 0, 0, 7, 0, 0, 1, 20, 0, 0, 0, 0, 9,
            0xc0, 0, 2, 0, 0, 0, 0, 3, 0, 0, 1, 8, 1, 0, 0, 0, 7] = (r', []) := by
  have hxs : ∀ b, ∀ x ∈ mixedMsgs b, x.1.Ok ∧ x.1.chan = mixedChan b := by
    intro b x hx
    cases b with
    | true =>
      rcases List.mem_cons.mp hx with rfl | hx
      · exact ⟨⟨by decide, by decide, by decide, by decide⟩, rfl⟩
      · obtain rfl := List.mem_singleton.mp hx
        exact ⟨⟨by decide, by decide, by decide, by decide⟩, rfl⟩
    | false =>
      obtain rfl := List.mem_singleton.mp hx
      exact ⟨⟨by decide, by decide, by decide, by decide⟩, rfl⟩
  exact @multiplexed_fifo Bool mixedChan (Rtmpd.fresh 1) _ mixedMsgs
    [(true, [0, 0, 0, 0, 5, 0, 0, 2, 8, 1, 0, 0, 0, 1]),
      (false, [2, 0, 0, 7, 0, 0, 1, 20, 0, 0, 0, 0, 9]), (true, [0xc0, 0, 2]),
      (true, [0, 0, 0, 0, 3, 0, 0, 1, 8, 1, 0, 0, 0, 7])]
    (fun a b => by cases a <;> cases b <;> decide) hxs le_rfl (fun _ => rfl)
    (fun b => by cases b <;> decide)

end Family

/-! ### One message behind the other -/

/-- What is handed over of messages on any channels, `t` being the times of the channels. -/
def handed : (ℕ → UInt32) → List OutMsg → List Msg
  | _, [] => []
  | t, x :: xs => x.msgAt (t x.chan) :: handed (Function.update t x.chan (t x.chan + x.ts)) xs

namespace Rtmpd

variable {r : Rtmpd} {x : OutMsg}

theorem wellFormed_chunks (hx : x.Ok) (hcs : 1 ≤ r.chunkSz)
    (hidle : (r.chan x.chan).pBuf = none) : endpoint.WellFormed r (x.chunks r.chunkSz) := by
  have hwaits : Waits (fun _ : Unit => x.chan) r (fun _ => [x].flatMap (·.chunks r.chunkSz))
      (fun _ => stamped (r.chan x.chan).ts [x]) := by
    refine fun _ => .idle (fun y hy => ?_) hidle
    rw [List.mem_singleton.mp hy]
    exact ⟨hx, rfl⟩
  have hout : Interleaves (fun _ : Unit => [x].flatMap (·.chunks r.chunkSz))
      ((x.chunks r.chunkSz).map fun c => ((), c)) := by
    intro i
    simp [Function.comp_def]
  have hwf := (hwaits.run (fun _ _ _ => rfl) hcs hout).1
  rwa [List.map_map, show (Prod.snd ∘ fun c : Chunk => ((), c)) = id from rfl, List.map_id] at hwf

/-- The chunks of one message on an idle channel. -/
theorem acceptAll_chunks (hx : x.Ok) (hcs : 1 ≤ r.chunkSz) (hs : Rtmp.Sound r.chan)
    (hidle : (r.chan x.chan).pBuf = none) :
    endpoint.acceptAll r (x.chunks r.chunkSz) = ⟨r.chunkSz,
      Function.update r.chan x.chan (x.hdr.apply (r.chan x.chan)).settle,
      r.pkts ++ [x.msgAt (r.chan x.chan).ts]⟩ := by
  have hwhole := (wellFormed_chunks hx hcs hidle).takesAll steady hcs hs
  have hmsg := Endpoint.takesAll_chunksOf (E := endpoint) (r := r) (p := x.payload)
    (formOf_fits hx.chan) hx.hdr_ok (hx.hdr_ok.apply_curTs (hs.plain x.chan)) hcs hidle hx.toNat_len
  exact hwhole.unique hmsg

/-- Messages sent one behind the other are handed over in that order, whatever their channels. -/
theorem acceptAll_msgs {xs : List OutMsg} (hxs : ∀ x ∈ xs, x.Ok) (hcs : 1 ≤ r.chunkSz)
    (hs : Rtmp.Sound r.chan) (hidle : ∀ x ∈ xs, (r.chan x.chan).pBuf = none) :
    endpoint.WellFormed r (xs.flatMap (·.chunks r.chunkSz)) ∧
      (endpoint.acceptAll r (xs.flatMap (·.chunks r.chunkSz))).pkts =
        r.pkts ++ handed (fun c => (r.chan c).ts) xs := by
  induction xs generalizing r with
  | nil => exact ⟨trivial, (List.append_nil _).symm⟩
  | cons x xs ih =>
    have hx := hxs x List.mem_cons_self
    have hidle' := hidle x List.mem_cons_self
    have hwf := wellFormed_chunks hx hcs hidle'
    have hone := acceptAll_chunks hx hcs hs hidle'
    set r₁ : Rtmpd := ⟨r.chunkSz,
      Function.update r.chan x.chan (x.hdr.apply (r.chan x.chan)).settle,
      r.pkts ++ [x.msgAt (r.chan x.chan).ts]⟩
    have hs₁ : Rtmp.Sound r₁.chan := hone ▸ hwf.sound_all steady hcs hs
    have hidle₁ : ∀ y ∈ xs, (r₁.chan y.chan).pBuf = none := by
      intro y hy
      by_cases hc : (y.chan : ℕ) = x.chan
      · simp [r₁, hc, RtmpChan.settle]
      · simpa [r₁, Function.update_of_ne hc] using hidle y (List.mem_cons_of_mem x hy)
    obtain ⟨hrest, hpkts⟩ := ih (r := r₁) (fun y hy => hxs y (List.mem_cons_of_mem x hy)) hcs hs₁ hidle₁
    have htimes : (fun c => (r₁.chan c).ts) =
        Function.update (fun c => (r.chan c).ts) x.chan ((r.chan x.chan).ts + x.ts) := by
      funext c
      by_cases hc : c = x.chan
      · subst hc
        simp [r₁, RtmpChan.settle, OutMsg.hdr, MsgHdr.apply]
      · simp [r₁, Function.update_of_ne hc]
    rw [List.flatMap_cons, Endpoint.acceptAll_append, hone]
    refine ⟨hwf.append (hone ▸ hrest), ?_⟩
    rw [hpkts, htimes, handed, List.append_assoc]
    rfl

end Rtmpd
end Mayhem
