import Mayhem.Rtmp.Interleave
import Mayhem.Rtmp.Pump

/-! Timestamps of received messages. A type 0 header carries an absolute time and the
others a delta; `decode_rtmp` adds whatever it finds to the time of the channel. -/
namespace Mayhem

/-- A message that a peer sends: how it writes the channel number, and the header of the
first chunk. -/
structure InMsg where
  form : BasicForm
  chan : ℕ
  hdr : MsgHdr
  payload : List UInt8
deriving DecidableEq, Repr

/-- A channel as RTMP sees it between two messages: its time, the timestamp field and the
length in force, and whether that field is a delta, which a type 3 header may repeat. -/
structure Clock where
  ts : UInt32
  field : UInt32
  delta : Bool
  len : UInt32
deriving DecidableEq, Repr

/-- The clocks of the channels in use. -/
abbrev Clocks := ℕ → Option Clock

namespace InMsg

def Ok (x : InMsg) : Prop := x.form.Fits x.chan ∧ x.hdr.Ok

instance (x : InMsg) : Decidable x.Ok := inferInstanceAs (Decidable (_ ∧ _))

/-- The chunks of the message. -/
def chunks (x : InMsg) (chunkSz : ℕ) : List (List UInt8) :=
  (chunksOf x.form x.chan x.hdr chunkSz x.payload).map Chunk.bytes

/-- What the header makes of the clock of its channel. The first header on a channel is of
type 0, and one of type 3 repeats a delta. -/
def clock (x : InMsg) (k : Option Clock) : Option Clock :=
  match x.hdr, k with
  | .full ts len _ _, _ => some ⟨ts, ts, false, len⟩
  | .medium ts len _, some c => some ⟨c.ts + ts, ts, true, len⟩
  | .small ts, some c => some ⟨c.ts + ts, ts, true, c.len⟩
  | .none, some ⟨t, ts, true, len⟩ => some ⟨t + ts, ts, true, len⟩
  | _, _ => none

/-- The clock behind a message of the length that is in force. -/
def advance (x : InMsg) (k : Option Clock) : Option Clock :=
  (x.clock k).filter fun c => c.len.toNat = x.payload.length

end InMsg

/-- The times of a well-formed sequence of messages on any channels. -/
def times : Clocks → List InMsg → Option (List UInt32)
  | _, [] => some []
  | k, x :: xs => do
    let c ← x.advance (k x.chan)
    let ts ← times (Function.update k x.chan (some c)) xs
    return c.ts :: ts

/-- Every type 0 header comes when the time of its channel is 0. -/
def Aligned : Clocks → List InMsg → Prop
  | _, [] => True
  | k, x :: xs => (x.hdr.htype = 0 → ∀ c ∈ k x.chan, c.ts = 0) ∧
      ∀ c ∈ x.advance (k x.chan), Aligned (Function.update k x.chan (some c)) xs

instance decidableAligned : (k : Clocks) → (xs : List InMsg) → Decidable (Aligned k xs)
  | _, [] => isTrue trivial
  | k, x :: xs =>
    have := fun c => decidableAligned (Function.update k x.chan (some c)) xs
    inferInstanceAs (Decidable ((_ → ∀ c ∈ k x.chan, _) ∧ ∀ c ∈ x.advance (k x.chan), _))

/-- What the decoder makes of the sequence: every field in force is added to the
accumulator of its channel. -/
def sums (acc : ℕ → UInt32) : Clocks → List InMsg → List UInt32
  | _, [] => []
  | k, x :: xs =>
    match x.advance (k x.chan) with
    | none => []
    | some c => (acc x.chan + c.field) ::
        sums (Function.update acc x.chan (acc x.chan + c.field))
          (Function.update k x.chan (some c)) xs

theorem times_cons {k : Clocks} {x : InMsg} {xs : List InMsg} {ts : List UInt32}
    (h : times k (x :: xs) = some ts) :
    ∃ c ts', x.advance (k x.chan) = some c ∧
      times (Function.update k x.chan (some c)) xs = some ts' ∧ ts = c.ts :: ts' := by
  simp only [times, Option.bind_eq_bind, Option.bind_eq_some_iff, Option.pure_def,
    Option.some.injEq] at h
  obtain ⟨c, hc, ts', hts, rfl⟩ := h
  exact ⟨c, ts', hc, hts, rfl⟩

/-- A type 0 header sets the clock, and the others move the one that is there. -/
theorem InMsg.clock_cases {x : InMsg} {k : Option Clock} {c : Clock} (h : x.clock k = some c) :
    (∃ ts len type sid, x.hdr = .full ts len type sid ∧ c = ⟨ts, ts, false, len⟩) ∨
      ∃ c₀, k = some c₀ ∧ c.ts = c₀.ts + c.field ∧
        ((∃ ts len type, x.hdr = .medium ts len type ∧ c.field = ts ∧ c.len = len) ∨
          (∃ ts, x.hdr = .small ts ∧ c.field = ts ∧ c.len = c₀.len) ∨
          (x.hdr = .none ∧ c.field = c₀.field ∧ c.len = c₀.len)) := by
  obtain ⟨form, chan, hdr, payload⟩ := x
  cases hdr with
  | full ts len type sid =>
    obtain rfl := Option.some.inj h
    exact .inl ⟨ts, len, type, sid, rfl, rfl⟩
  | medium ts len type =>
    cases k with
    | none => cases h
    | some c₀ =>
      obtain rfl := Option.some.inj h
      exact .inr ⟨c₀, rfl, rfl, .inl ⟨ts, len, type, rfl, rfl, rfl⟩⟩
  | small ts =>
    cases k with
    | none => cases h
    | some c₀ =>
      obtain rfl := Option.some.inj h
      exact .inr ⟨c₀, rfl, rfl, .inr (.inl ⟨ts, rfl, rfl, rfl⟩)⟩
  | none =>
    match k, h with
    | some ⟨t, ts, true, len⟩, h =>
      obtain rfl := Option.some.inj h
      exact .inr ⟨_, rfl, rfl, .inr (.inr ⟨rfl, rfl, rfl⟩)⟩

/-- The time behind a message is that of the channel plus the field in force, but for a
type 0 header, which sets it. -/
theorem InMsg.advance_ts {x : InMsg} {k : Option Clock} {c : Clock} (h : x.advance k = some c) :
    (x.hdr.htype = 0 ∧ c.ts = c.field) ∨
      (x.hdr.htype ≠ 0 ∧ ∃ c₀, k = some c₀ ∧ c.ts = c₀.ts + c.field) := by
  obtain ⟨hclock, -⟩ := Option.filter_eq_some_iff.mp h
  obtain ⟨ts, len, type, sid, hhdr, rfl⟩ | ⟨c₀, hk, hts, hhdr⟩ := InMsg.clock_cases hclock
  · exact .inl ⟨by rw [hhdr]; rfl, rfl⟩
  · have htype : x.hdr.htype ≠ 0 := by
      obtain ⟨ts, len, type, hhdr, -⟩ | ⟨ts, hhdr, -⟩ | ⟨hhdr, -⟩ := hhdr <;>
        simp [hhdr, MsgHdr.htype]
    exact .inr ⟨htype, c₀, hk, hts⟩

/-- Adding every field gives the times exactly where nothing is added to by a type 0
header. -/
theorem sums_eq_times_iff {k : Clocks} (acc : ℕ → UInt32) {xs : List InMsg} {ts : List UInt32}
    (hacc : ∀ chan, acc chan = ((k chan).map Clock.ts).getD 0) (h : times k xs = some ts) :
    sums acc k xs = ts ↔ Aligned k xs := by
  induction xs generalizing k acc ts with
  | nil =>
    obtain rfl := Option.some.inj h
    simp [sums, Aligned]
  | cons x xs ih =>
    obtain ⟨c, ts', hc, hts, rfl⟩ := times_cons h
    have hhead : acc x.chan + c.field = c.ts ↔ (x.hdr.htype = 0 → ∀ c ∈ k x.chan, c.ts = 0) := by
      rw [hacc]
      obtain ⟨h0, hfield⟩ | ⟨h0, c₀, hk, hfield⟩ := InMsg.advance_ts hc
      · cases hk : k x.chan <;> simp [h0, hfield]
      · simp [h0, hk, hfield]
    simp only [sums, hc, List.cons.injEq, hhead, Aligned, Option.mem_some_iff, forall_eq']
    refine and_congr_right fun halign => ih _ (fun chan => ?_) hts
    by_cases heq : chan = x.chan
    · subst heq
      simp [hhead.mpr halign]
    · simp only [Function.update_of_ne heq, hacc]

/-! ### The decoder -/

namespace Rtmp

/-- Receive messages one after another, each cut at the chunk size then in force. -/
def receive (after : Memory) (r : Rtmp) (xs : List InMsg) : Option Rtmp :=
  xs.foldlM (fun r x => endpoint.feed after r (x.chunks r.chunkSz)) r

/-- A channel between two messages holds what the clock says, but for the time. -/
structure Tracks (k : Option Clock) (pkt : RtmpChan) : Prop where
  idle : pkt.pBuf = none
  plain : pkt.curTs ≠ 0xffffff
  field : ∀ c, k = some c → pkt.curTs = c.field
  len : ∀ c, k = some c → pkt.sz = c.len

theorem Tracks.advance {x : InMsg} {k : Option Clock} {c : Clock} {pkt : RtmpChan}
    (h : Tracks k pkt) (hx : x.hdr.Ok) (hc : x.advance k = some c) :
    (x.hdr.apply pkt).sz.toNat = x.payload.length ∧ (x.hdr.apply pkt).curTs = c.field ∧
      Tracks (some c) (x.hdr.apply pkt).settle := by
  obtain ⟨hclock, hlen⟩ := Option.filter_eq_some_iff.mp hc
  have happly : (x.hdr.apply pkt).curTs = c.field ∧ (x.hdr.apply pkt).sz = c.len := by
    obtain ⟨ts, len, type, sid, hhdr, rfl⟩ | ⟨c₀, hk, -, hhdr⟩ := InMsg.clock_cases hclock
    · rw [hhdr]
      exact ⟨rfl, rfl⟩
    obtain ⟨ts, len, type, hhdr, hfield, hlen⟩ | ⟨ts, hhdr, hfield, hlen⟩ |
      ⟨hhdr, hfield, hlen⟩ := hhdr <;> rw [hhdr, hfield, hlen]
    · exact ⟨rfl, rfl⟩
    · exact ⟨rfl, h.len c₀ hk⟩
    · exact ⟨h.field c₀ hk, h.len c₀ hk⟩
  refine ⟨?_, happly.1, rfl, hx.apply_curTs h.plain, ?_, ?_⟩
  · rw [happly.2]
    exact of_decide_eq_true hlen
  · rintro _ ⟨⟩
    exact happly.1
  · rintro _ ⟨⟩
    exact happly.2

variable {r : Rtmp} {after : Memory}

variable (after) in
/-- One message is dispatched with its field added to the time of the channel. -/
theorem feed_inMsg {x : InMsg} {k : Clocks} {c : Clock} (hcs : 1 ≤ r.chunkSz)
    (htracks : ∀ chan, Tracks (k chan) (r.chan chan)) (hx : x.Ok)
    (hc : x.advance (k x.chan) = some c) :
    ∃ r', endpoint.feed after r (x.chunks r.chunkSz) = some r' ∧ 1 ≤ r'.chunkSz ∧
      r'.trace.map Msg.ts = r.trace.map Msg.ts ++ [(r.chan x.chan).ts + c.field] ∧
      (∀ chan, Tracks (Function.update k x.chan (some c) chan) (r'.chan chan)) ∧
      ∀ chan, (r'.chan chan).ts =
        Function.update (fun c => (r.chan c).ts) x.chan ((r.chan x.chan).ts + c.field) chan := by
  obtain ⟨hsz, hfield, hnext⟩ := (htracks x.chan).advance hx.2 hc
  have hfeed := (Endpoint.takesAll_chunksOf (E := endpoint) (r := r) (p := x.payload)
    hx.1 hx.2 (hx.2.apply_curTs (htracks x.chan).plain) hcs (htracks x.chan).idle hsz).feed after
  have hdisp := r.toLink.rtmpDispatch_spec ⟨x.chan, (x.hdr.apply (r.chan x.chan)).dest,
    (r.chan x.chan).ts + (x.hdr.apply (r.chan x.chan)).curTs,
    (x.hdr.apply (r.chan x.chan)).type, x.payload⟩
  refine ⟨_, hfeed, ?_, ?_, fun chan => ?_, fun chan => ?_⟩
  · exact (Msg.chunkSzAfter_pos _ hcs).trans_eq hdisp.chunkSz.symm
  · rw [← hfield]
    exact (congrArg (List.map Msg.ts) hdisp.trace).trans (by simp)
  · change Tracks _ (Function.update r.chan x.chan _ chan)
    by_cases heq : chan = x.chan
    · rw [heq, Function.update_self, Function.update_self]
      exact hnext
    · rw [Function.update_of_ne heq, Function.update_of_ne heq]
      exact htracks chan
  · change (Function.update r.chan x.chan (x.hdr.apply (r.chan x.chan)).settle chan).ts = _
    by_cases heq : chan = x.chan
    · rw [heq, Function.update_self, Function.update_self, ← hfield]
      simp [RtmpChan.settle]
    · rw [Function.update_of_ne heq, Function.update_of_ne heq]

variable (after) in
theorem receive_sums {xs : List InMsg} {k : Clocks} {ts : List UInt32} (hcs : 1 ≤ r.chunkSz)
    (htracks : ∀ chan, Tracks (k chan) (r.chan chan)) (hok : ∀ x ∈ xs, x.Ok)
    (h : times k xs = some ts) :
    ∃ r', receive after r xs = some r' ∧
      r'.trace.map Msg.ts = r.trace.map Msg.ts ++ sums (fun c => (r.chan c).ts) k xs := by
  induction xs generalizing r k ts with
  | nil => exact ⟨r, rfl, by simp [sums]⟩
  | cons x xs ih =>
    obtain ⟨c, ts', hc, hts, -⟩ := times_cons h
    obtain ⟨r₁, hfeed, hcs₁, htrace₁, htracks₁, hacc⟩ :=
      feed_inMsg after hcs htracks (hok x List.mem_cons_self) hc
    obtain ⟨r', hrest, htrace⟩ :=
      ih hcs₁ htracks₁ (fun y hy => hok y (List.mem_cons_of_mem x hy)) hts
    refine ⟨r', ?_, ?_⟩
    · simpa [receive, List.foldlM_cons, hfeed] using hrest
    · rw [htrace, htrace₁, funext hacc, sums, hc]
      simp

variable (after) in
/-- Well-formed messages on any channels are dispatched with their times exactly where
every type 0 header comes at time 0 of its channel. -/
theorem receive_times_iff {xs : List InMsg} {ts : List UInt32} (hchan : r.chan = fun _ => {})
    (hcs : 1 ≤ r.chunkSz) (hok : ∀ x ∈ xs, x.Ok) (h : times (fun _ => none) xs = some ts) :
    (∃ r', receive after r xs = some r' ∧
      r'.trace.map Msg.ts = r.trace.map Msg.ts ++ ts) ↔ Aligned (fun _ => none) xs := by
  have hstart : ∀ chan, Tracks none (r.chan chan) := fun chan => by
    have hplain : ({} : RtmpChan).curTs ≠ 0xffffff := by decide
    rw [hchan]
    exact ⟨rfl, hplain, nofun, nofun⟩
  obtain ⟨r₁, hrec, htrace⟩ := receive_sums after hcs hstart hok h
  have hsums := sums_eq_times_iff (fun c => (r.chan c).ts)
    (fun chan => by simp [hchan]) h
  rw [← hsums]
  constructor
  · rintro ⟨r', hr', htrace'⟩
    obtain rfl : r₁ = r' := Option.some.inj (hrec.symm.trans hr')
    exact List.append_cancel_left (htrace.symm.trans htrace')
  · intro heq
    exact ⟨r₁, hrec, heq ▸ htrace⟩

/-! ### Messages of `rtmp_send` -/

/-- Receive messages that the peer sends with `rtmp_send`, each with the stack it finds. -/
def receiveSent (after : Memory) (r : Rtmp) (xs : List (OutMsg × Memory)) : Option Rtmp :=
  xs.foldlM (fun r x => endpoint.feed after r (x.1.sends x.2 r.chunkSz)) r

end Rtmp

/-- The message as its receiver sees it coming. -/
def OutMsg.inMsg (x : OutMsg) : InMsg := ⟨formOf x.chan, x.chan, x.hdr, x.payload⟩

theorem OutMsg.Ok.inMsg {x : OutMsg} (hx : x.Ok) : x.inMsg.Ok := ⟨formOf_fits hx.chan, hx.hdr_ok⟩

theorem OutMsg.Ok.advance {x : OutMsg} (hx : x.Ok) (k : Option Clock) :
    x.inMsg.advance k = some ⟨x.ts, x.ts, false, UInt32.ofNat x.payload.length⟩ := by
  have hclock : x.inMsg.clock k =
      some ⟨x.ts, x.ts, false, UInt32.ofNat x.payload.length⟩ := rfl
  rw [InMsg.advance, hclock]
  exact Option.filter_some_pos (decide_eq_true hx.toNat_len)

/-- The times of messages of `rtmp_send` are those passed to it. -/
theorem times_inMsg {xs : List OutMsg} (hok : ∀ x ∈ xs, x.Ok) (k : Clocks) :
    times k (xs.map OutMsg.inMsg) = some (xs.map OutMsg.ts) := by
  induction xs generalizing k with
  | nil => rfl
  | cons x xs ih =>
    rw [List.map_cons, times, (hok x List.mem_cons_self).advance]
    simp [ih (fun y hy => hok y (List.mem_cons_of_mem x hy))]

/-- On one channel only the last timestamp may differ from 0. -/
theorem aligned_inMsg_iff {xs : List OutMsg} {chan : OutChan} (hok : ∀ x ∈ xs, x.Ok)
    (hchan : ∀ x ∈ xs, x.chan = chan) (k : Clocks) :
    Aligned k (xs.map OutMsg.inMsg) ↔
      (xs ≠ [] → ∀ c ∈ k chan, c.ts = 0) ∧ ∀ x ∈ xs.dropLast, x.ts = 0 := by
  induction xs generalizing k with
  | nil => simp [Aligned]
  | cons x xs ih =>
    have hx : x.inMsg.chan = chan.val := congrArg Fin.val (hchan x List.mem_cons_self)
    have hfull : x.inMsg.hdr.htype = 0 := rfl
    have hrest := ih (fun y hy => hok y (List.mem_cons_of_mem x hy))
      (fun y hy => hchan y (List.mem_cons_of_mem x hy))
      (Function.update k chan (some ⟨x.ts, x.ts, false, UInt32.ofNat x.payload.length⟩))
    rw [Function.update_self] at hrest
    simp only [List.map_cons, Aligned, (hok x List.mem_cons_self).advance, hx, hfull,
      Option.mem_some_iff, forall_eq', hrest]
    cases xs <;> simp

namespace Rtmp

variable {r : Rtmp} {after : Memory}

theorem takeChunk_chunkSz {c : List UInt8} {r' : Rtmp} (hcs : 1 ≤ r.chunkSz)
    (h : endpoint.takeChunk after r c = some r') : 1 ≤ r'.chunkSz := by
  by_cases hc : c = []
  · simp [hc, Endpoint.takeChunk, Endpoint.decodeRtmp_nil] at h
  obtain ⟨-, rfl⟩ := Endpoint.takeChunk_some hc h
  obtain ⟨-, hlink⟩ | ⟨msg, -, hdisp⟩ := accept_cases r (Memory.ofList c after)
  · exact hcs.trans_eq (congrArg (fun l : Link => l.chunkSz) hlink).symm
  · exact (msg.chunkSzAfter_pos hcs).trans_eq hdisp.chunkSz.symm

theorem feed_chunkSz {cs : List (List UInt8)} {r' : Rtmp} (hcs : 1 ≤ r.chunkSz)
    (h : endpoint.feed after r cs = some r') : 1 ≤ r'.chunkSz := by
  induction cs generalizing r with
  | nil =>
    obtain rfl := Option.some.inj h
    exact hcs
  | cons c cs ih =>
    rw [Endpoint.feed, List.foldlM_cons, Option.bind_eq_bind, Option.bind_eq_some_iff] at h
    obtain ⟨r₁, htake, hfeed⟩ := h
    exact ih (takeChunk_chunkSz hcs htake) hfeed

theorem receiveSent_eq {xs : List (OutMsg × Memory)} (hcs : 1 ≤ r.chunkSz)
    (hok : ∀ x ∈ xs, x.1.Ok) :
    receiveSent after r xs = receive after r (xs.map fun x => x.1.inMsg) := by
  induction xs generalizing r with
  | nil => rfl
  | cons x xs ih =>
    have hx := hok x List.mem_cons_self
    have hsends : x.1.sends x.2 r.chunkSz = x.1.inMsg.chunks r.chunkSz := by
      rw [OutMsg.sends_eq hx x.2 hcs]
      rfl
    simp only [receiveSent, receive, List.map_cons, List.foldlM_cons, hsends]
    cases hfeed : endpoint.feed after r (x.1.inMsg.chunks r.chunkSz) with
    | none => rfl
    | some r₁ =>
      exact ih (feed_chunkSz hcs hfeed) fun y hy => hok y (List.mem_cons_of_mem x hy)

/-- Timestamps come out as RTMP has them exactly where every type 0 header comes at time 0
of its channel. Of the messages of `rtmp_send` on one channel only the last may then have
a timestamp other than 0. -/
theorem timestamps_iff (hchan : r.chan = fun _ => {}) (hcs : 1 ≤ r.chunkSz) :
    (∀ (xs : List InMsg) (ts : List UInt32), (∀ x ∈ xs, x.Ok) →
      times (fun _ => none) xs = some ts →
        ((∃ r', receive after r xs = some r' ∧
          r'.trace.map Msg.ts = r.trace.map Msg.ts ++ ts) ↔ Aligned (fun _ => none) xs)) ∧
    ∀ (chan : OutChan) (xs : List (OutMsg × Memory)), (∀ x ∈ xs, x.1.Ok ∧ x.1.chan = chan) →
      ((∃ r', receiveSent after r xs = some r' ∧
        r'.trace.map Msg.ts = r.trace.map Msg.ts ++ xs.map fun x => x.1.ts) ↔
          ∀ x ∈ xs.dropLast, x.1.ts = 0) := by
  refine ⟨fun xs ts hok h => receive_times_iff after hchan hcs hok h, fun chan xs hxs => ?_⟩
  have hok : ∀ x ∈ xs.map Prod.fst, x.Ok := by
    simpa using fun x s hx => (hxs (x, s) hx).1
  have hon : ∀ x ∈ xs.map Prod.fst, x.chan = chan := by
    simpa using fun x s hx => (hxs (x, s) hx).2
  have hin : ∀ x ∈ (xs.map Prod.fst).map OutMsg.inMsg, x.Ok := by
    rintro _ hx
    obtain ⟨y, hy, rfl⟩ := List.mem_map.mp hx
    exact (hok y hy).inMsg
  have hiff := receive_times_iff after hchan hcs hin
    (times_inMsg hok fun _ => none)
  rw [aligned_inMsg_iff hok hon] at hiff
  rw [receiveSent_eq hcs fun x hx => (hxs x hx).1]
  simpa [← List.map_dropLast, Function.comp_def] using hiff

/-- An absolute time, a delta and the same delta again, on the channel of the first byte. -/
theorem timestamps_iff_deltas :
    ∃ r', receive (fun _ => 0) established [⟨.one, 5, .full 1000 1 8 1, [7]⟩,
        ⟨.one, 5, .small 40, [8]⟩, ⟨.one, 5, .none, [9]⟩] = some r' ∧
      r'.trace.map Msg.ts = [1000, 1040, 1080] :=
  ((@timestamps_iff established (fun _ => 0) rfl (by decide)).1
    [⟨.one, 5, .full 1000 1 8 1, [7]⟩, ⟨.one, 5, .small 40, [8]⟩, ⟨.one, 5, .none, [9]⟩]
    [1000, 1040, 1080] (by decide) (by decide)).mpr (by decide)

/-- Two messages of `rtmp_send` at 5 and 7 are dispatched at 5 and 12. -/
theorem timestamps_sent_twice :
    AfterHandshake established ∧ (receiveSent (fun _ => 0) established
      [(⟨4, 1, 5, 8, [1]⟩, fun _ => 0), (⟨4, 1, 7, 8, [2]⟩, fun _ => 0)]).map
        (fun r => r.trace.map Msg.ts) = some [5, 12] :=
  ⟨established_afterHandshake, by decide +kernel⟩

end Rtmp
end Mayhem
