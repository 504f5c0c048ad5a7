import Mayhem.Lib.Run
import Mayhem.Rtmp.Pump

/-! Reassembly against any peer. `decode_rtmp` is called on whatever lies in the buffer; next
to the channel table runs a history of the bodies that were accepted for the messages in
progress. -/
namespace Mayhem

/-- What a channel has taken of a message: the length in force when its first chunk was
accepted, and the bodies so far. -/
structure Part where
  sz : ℕ
  bodies : List (List UInt8)

abbrev Parts := ℕ → Option Part

/-- `decode_rtmp` on the `sz` bytes at `m` takes the chunk. -/
def Accepts (chunkSz : ℕ) (m : Memory) (sz : ℕ) (tbl : ChanTable) : Prop :=
  1 ≤ sz ∧ chunkEnd chunkSz m tbl ≤ sz

instance (chunkSz : ℕ) (m : Memory) (sz : ℕ) (tbl : ChanTable) :
    Decidable (Accepts chunkSz m sz tbl) := inferInstanceAs (Decidable (_ ∧ _))

/-- The body of the chunk at `m`. -/
def bodyIn (chunkSz : ℕ) (m : Memory) (tbl : ChanTable) : List UInt8 :=
  m.bytes (headIn m tbl).2 ((headIn m tbl).1.begin.bodySz chunkSz)

namespace Parts

/-- The message that the chunk at `m` belongs to, with its body added. -/
def extended (parts : Parts) (chunkSz : ℕ) (m : Memory) (tbl : ChanTable) : Part :=
  let body := bodyIn chunkSz m tbl
  match parts (basicHdr m).chan with
  | none => ⟨(headIn m tbl).1.sz.toNat, [body]⟩
  | some part => { part with bodies := part.bodies ++ [body] }

/-- The history behind a call: a message that is dispatched is in progress no longer. -/
def after (parts : Parts) (chunkSz : ℕ) (m : Memory) (sz : ℕ) (tbl : ChanTable) : Parts :=
  if Accepts chunkSz m sz tbl then
    Function.update parts (basicHdr m).chan
      (if (completed chunkSz m tbl).isSome then none else some (parts.extended chunkSz m tbl))
  else parts

end Parts

/-- A channel and its history: with a message in progress, the allocation holds what was
stored and what is left, which is something, and what was stored are the bodies. -/
inductive RtmpChan.Holds (pkt : RtmpChan) : Option Part → Prop
  | idle : pkt.pBuf = none → pkt.Holds none
  | busy {b : PBuf} {part : Part} : pkt.pBuf = some b → b.size = b.data.length + pkt.pLeft →
      0 < pkt.pLeft → b.data ≠ [] → b.data = part.bodies.flatten → b.size = part.sz →
      pkt.Holds (some part)

variable {chunkSz : ℕ} {m : Memory} {sz : ℕ} {tbl : ChanTable} {parts : Parts}

/-- A header leaves the message in progress alone. -/
theorem RtmpChan.Holds.head {o : Option Part} (h : (tbl (basicHdr m).chan).Holds o) :
    (headIn m tbl).1.Holds o := by
  obtain ⟨hbuf, hleft, -⟩ :
      (headIn m tbl).1.pBuf = (tbl (basicHdr m).chan).pBuf ∧
        (headIn m tbl).1.pLeft = (tbl (basicHdr m).chan).pLeft ∧ _ :=
    msgHdr_keeps m (sizes (basicHdr m).type) (basicHdr m).ptr (tbl (basicHdr m).chan)
  cases h with
  | idle hidle => exact .idle (hbuf.trans hidle)
  | busy hb hsize hpos hne hdata hsz =>
    exact .busy (hbuf.trans hb) (by rw [hleft]; exact hsize) (by rw [hleft]; exact hpos) hne
      hdata hsz

variable (chunkSz) in
/-- The buffer that `memcpy` stores the body into: what it holds and what it has room for. -/
theorem begin_buffer (h : (tbl (basicHdr m).chan).Holds (parts (basicHdr m).chan)) :
    ∃ b, (headIn m tbl).1.begin.pBuf = some b ∧
      b.size = b.data.length + (headIn m tbl).1.begin.pLeft ∧
      b.data ++ bodyIn chunkSz m tbl = (parts.extended chunkSz m tbl).bodies.flatten ∧
      b.size = (parts.extended chunkSz m tbl).sz := by
  have hhead := h.head
  unfold Parts.extended
  generalize parts (basicHdr m).chan = o at hhead
  cases hhead with
  | idle hidle =>
    rw [RtmpChan.begin_idle hidle]
    exact ⟨_, rfl, (Nat.zero_add _).symm, by simp, rfl⟩
  | busy hb hsize _ _ hdata hsz =>
    rw [RtmpChan.begin_busy hb]
    exact ⟨_, hb, hsize, by simp [hdata], hsz⟩

/-- A call that finds the chunk incomplete leaves the message in progress as it was. -/
theorem RtmpChan.Holds.giveBack {o : Option Part} (h : (tbl (basicHdr m).chan).Holds o) :
    (headIn m tbl).1.begin.giveBack.Holds o := by
  cases h.head with
  | idle hidle =>
    rw [RtmpChan.begin_idle hidle]
    exact .idle rfl
  | @busy b part hb hsize hpos hne hdata hsz =>
    obtain ⟨size, data⟩ := b
    obtain ⟨c, cs, rfl⟩ := List.exists_cons_of_ne_nil hne
    have hkeep : (headIn m tbl).1.begin.giveBack = (headIn m tbl).1 := by
      rw [RtmpChan.begin_busy hb]
      simp [RtmpChan.giveBack, hb]
    rw [hkeep]
    exact .busy hb hsize hpos hne hdata hsz

/-- What a call that takes the chunk stores: no more than there is room for, and all of it
if that completes the message. -/
structure Stores (parts : Parts) (chunkSz : ℕ) (m : Memory) (tbl : ChanTable) : Prop where
  room : ∃ b, (headIn m tbl).1.begin.pBuf = some b ∧
    b.data.length + (bodyIn chunkSz m tbl).length ≤ b.size
  payload : ∀ msg ∈ completed chunkSz m tbl,
    msg.payload = (parts.extended chunkSz m tbl).bodies.flatten ∧
      msg.payload.length = (parts.extended chunkSz m tbl).sz
  holds : completed chunkSz m tbl = none →
    (stored chunkSz m tbl).Holds (some (parts.extended chunkSz m tbl))

theorem stores_of_holds (hcs : 1 ≤ chunkSz)
    (h : (tbl (basicHdr m).chan).Holds (parts (basicHdr m).chan)) :
    Stores parts chunkSz m tbl := by
  obtain ⟨⟨size, data⟩, hb, hsize, hdata, hsz⟩ := begin_buffer chunkSz h
  dsimp only at hsize hdata hsz
  have hlen : (bodyIn chunkSz m tbl).length = min (headIn m tbl).1.begin.pLeft chunkSz := by
    rw [bodyIn, Memory.bytes_length, RtmpChan.bodySz_eq_min]
  have hstored : (stored chunkSz m tbl).pBuf = some ⟨size, data ++ bodyIn chunkSz m tbl⟩ := by
    simp [stored, RtmpChan.store, hb, bodyIn]
  have hleft : (stored chunkSz m tbl).pLeft =
      (headIn m tbl).1.begin.pLeft - (bodyIn chunkSz m tbl).length := by
    rw [stored_pLeft, hlen, RtmpChan.bodySz_eq_min]
  refine ⟨⟨_, hb, ?_⟩, ?_, ?_⟩
  · dsimp only
    omega
  · intro msg hmsg
    have h0 : (stored chunkSz m tbl).pLeft = 0 := by
      by_contra h0
      simp [completed, h0] at hmsg
    have hpay : msg.payload = data ++ bodyIn chunkSz m tbl := by
      simp only [completed, if_pos h0, Option.mem_def, Option.some.injEq] at hmsg
      simp [← hmsg, RtmpChan.msg, RtmpChan.data, hstored]
    refine ⟨hpay.trans hdata, ?_⟩
    rw [hpay, List.length_append, ← hsz]
    omega
  · intro hnone
    have h0 : (stored chunkSz m tbl).pLeft ≠ 0 := fun h0 => by simp [completed, h0] at hnone
    have hbody : bodyIn chunkSz m tbl ≠ [] := by
      rw [Ne, ← List.length_eq_zero_iff]
      omega
    refine .busy hstored ?_ (by omega) (by simp [hbody]) hdata hsz
    dsimp only
    rw [List.length_append]
    omega

namespace Rtmp

/-- A call of `decode_rtmp` on any bytes, or a step that leaves the channels alone, such as
a change of the chunk size. -/
inductive Call : Rtmp × Parts → Rtmp × Parts → Prop
  | decode {r parts} (m : Memory) (sz : ℕ) :
      Call (r, parts) ((r.decodeRtmp m sz).1, parts.after r.chunkSz m sz r.chan)
  | other {r r' : Rtmp} {parts} : r'.chan = r.chan → 1 ≤ r'.chunkSz → Call (r, parts) (r', parts)

structure Reassembles (s : Rtmp × Parts) : Prop where
  chunkSz : 1 ≤ s.1.chunkSz
  holds : ∀ chan, (s.1.chan chan).Holds (s.2 chan)

theorem decodeRtmp_refuse {r : Rtmp} {m : Memory} {sz : ℕ} (h : ¬ Accepts r.chunkSz m sz r.chan) :
    (r.decodeRtmp m sz).1.toLink = r.toLink ∧
      ((r.decodeRtmp m sz).1.chan = r.chan ∨ (r.decodeRtmp m sz).1.chan =
        Function.update r.chan (basicHdr m).chan (headIn m r.chan).1.begin.giveBack) := by
  rcases Nat.eq_zero_or_pos sz with rfl | hsz
  · rw [decodeRtmp, Endpoint.decodeRtmp_nil]
    exact ⟨rfl, .inl rfl⟩
  · have hshort : sz < chunkEnd r.chunkSz m r.chan := by
      by_contra hle
      exact h ⟨hsz, Nat.not_lt.mp hle⟩
    rw [decodeRtmp, Endpoint.decodeRtmp_eq m hsz, if_pos (by exact hshort)]
    exact ⟨rfl, .inr rfl⟩

theorem decodeRtmp_accept {r : Rtmp} {m : Memory} {sz : ℕ} (h : Accepts r.chunkSz m sz r.chan) :
    (r.decodeRtmp m sz).1 = endpoint.accept r m := by
  rw [decodeRtmp, Endpoint.decodeRtmp_eq m h.1, if_neg (by exact Nat.not_lt.mpr h.2)]

theorem reassembles_call {s s' : Rtmp × Parts} (h : Reassembles s) (hcall : Call s s') :
    Reassembles s' := by
  cases hcall with
  | @other r r' parts hchan hcs => exact ⟨hcs, by rw [hchan]; exact h.holds⟩
  | @decode r parts m sz =>
    obtain ⟨hcs, hholds⟩ := h
    dsimp only at hcs hholds
    by_cases hacc : Accepts r.chunkSz m sz r.chan
    · have hst := stores_of_holds hcs (hholds (basicHdr m).chan)
      have hpos : 1 ≤ (endpoint.accept r m).chunkSz := by
        obtain ⟨-, hlink⟩ | ⟨msg, -, hdisp⟩ := accept_cases r m
        · rw [hlink]
          exact hcs
        · rw [hdisp.chunkSz]
          exact msg.chunkSzAfter_pos hcs
      have hchan : (endpoint.accept r m).chan = _ := Endpoint.accept_chan (E := endpoint) r m
      refine ⟨by rw [decodeRtmp_accept hacc]; exact hpos, fun chan => ?_⟩
      dsimp only
      rw [decodeRtmp_accept hacc, hchan, Parts.after, if_pos hacc]
      by_cases hc : chan = (basicHdr m).chan
      · subst hc
        rw [Function.update_self, Function.update_self]
        by_cases h0 : (stored r.chunkSz m r.chan).pLeft = 0
        · rw [if_pos (by exact h0), if_pos (by simp [completed, h0])]
          exact .idle rfl
        · have hnone : completed r.chunkSz m r.chan = none := if_neg h0
          rw [if_neg (by exact h0), hnone]
          exact hst.holds hnone
      · rw [Function.update_of_ne hc, Function.update_of_ne hc]
        exact hholds chan
    · obtain ⟨hlink, hchan⟩ := decodeRtmp_refuse hacc
      refine ⟨by rw [hlink]; exact hcs, fun chan => ?_⟩
      dsimp only
      rw [Parts.after, if_neg hacc]
      rcases hchan with hchan | hchan <;> rw [hchan]
      · exact hholds chan
      · by_cases hc : chan = (basicHdr m).chan
        · subst hc
          rw [Function.update_self]
          exact (hholds _).giveBack
        · rw [Function.update_of_ne hc]
          exact hholds chan

/-- Behind any calls on any bytes: every channel is idle or holds the bodies of the chunks
that were accepted for its message, in an allocation with room for exactly what is left of
it. No call stores past the allocation, and what is dispatched has the length that was in
force when its first chunk was accepted. -/
theorem reassembly {r₀ : Rtmp} (h₀ : r₀.chan = fun _ => {}) (hcs : 1 ≤ r₀.chunkSz)
    {s : Rtmp × Parts} (hrun : Run.Under (fun _ => True) Call (r₀, fun _ => none) s) :
    (∀ chan, (s.1.chan chan).Holds (s.2 chan)) ∧
      ∀ (m : Memory) (sz : ℕ),
        (Accepts s.1.chunkSz m sz s.1.chan →
          ∃ b, (headIn m s.1.chan).1.begin.pBuf = some b ∧
            b.data.length + (bodyIn s.1.chunkSz m s.1.chan).length ≤ b.size) ∧
        ∀ msg ∈ (s.1.decodeRtmp m sz).1.trace.drop s.1.trace.length,
          msg.payload = (s.2.extended s.1.chunkSz m s.1.chan).bodies.flatten ∧
            msg.payload.length = (s.2.extended s.1.chunkSz m s.1.chan).sz := by
  have hfresh : Reassembles (r₀, fun _ => none) := ⟨hcs, fun chan => .idle (by rw [h₀])⟩
  have hinv : Reassembles s :=
    Run.invariant (fun _ _ h _ hcall => reassembles_call h hcall) hfresh hrun
  refine ⟨hinv.holds, fun m sz => ?_⟩
  have hst := stores_of_holds hinv.chunkSz (hinv.holds (basicHdr m).chan)
  refine ⟨fun _ => hst.room, fun msg hmsg => ?_⟩
  by_cases hacc : Accepts s.1.chunkSz m sz s.1.chan
  · rw [decodeRtmp_accept hacc] at hmsg
    obtain ⟨-, hlink⟩ | ⟨msg', hmsg', hdisp⟩ := accept_cases s.1 m
    · simp [hlink] at hmsg
    · rw [hdisp.trace, List.drop_left, List.mem_singleton] at hmsg
      exact hst.payload msg (hmsg ▸ hmsg')
  · simp [(decodeRtmp_refuse hacc).1] at hmsg

/-- Two of the three bytes of a message, received with chunk size 2. -/
def firstOfTwo : Memory := .ofList [2, 0, 0, 0, 0, 0, 3, 9, 0, 0, 0, 0, 7, 8] fun _ => 0

theorem reassembly_firstOfTwo :
    ((({ established with chunkSz := 2 } : Rtmp).decodeRtmp firstOfTwo 14).1.chan 2).Holds
      (some ⟨3, [[7, 8]]⟩) :=
  (reassembly (show ({ established with chunkSz := 2 } : Rtmp).chan = fun _ => {} from rfl)
    (show 1 ≤ 2 by decide) (.single ⟨trivial, .decode firstOfTwo 14⟩)).1 2

end Rtmp
end Mayhem
