import Mayhem.Rtmp.Segmentation
import Mayhem.Rtmp.Server

/-! The two decoders on one stream. They share their text, but only the client's dispatcher
acts on a chunk size that the peer announces: the server goes on cutting at the default
size. The decoders stay in step as long as that makes no difference. -/
namespace Mayhem

/-- The bytes still to come of the message that the chunk at `m` belongs to, this chunk
included. -/
def toCome (m : Memory) (tbl : ChanTable) : ℕ := (headIn m tbl).1.begin.pLeft

section SameCut

variable {m : Memory} {tbl : ChanTable} {k k' : ℕ}

/-- Two chunk sizes cut the chunk at `m` alike exactly if the message ends below both. -/
theorem chunkEnd_eq_iff :
    chunkEnd k m tbl = chunkEnd k' m tbl ↔ k = k' ∨ toCome m tbl ≤ min k k' := by
  simp only [chunkEnd, toCome, RtmpChan.bodySz_eq_min]
  omega

theorem stored_congr (h : chunkEnd k m tbl = chunkEnd k' m tbl) :
    stored k m tbl = stored k' m tbl := by
  have hbody : (headIn m tbl).1.begin.bodySz k = (headIn m tbl).1.begin.bodySz k' :=
    Nat.add_left_cancel h
  simp only [stored, hbody]

end SameCut

namespace Rtmp

/-- The chunk size of the client makes no difference to the chunk at `m`. -/
def SameCut (r : Rtmp) (m : Memory) : Prop :=
  r.chunkSz = RTMP_DEFAULT_CHUNK_SZ ∨ toCome m r.chan ≤ min r.chunkSz RTMP_DEFAULT_CHUNK_SZ

instance (r : Rtmp) (m : Memory) : Decidable (r.SameCut m) := inferInstanceAs (Decidable (_ ∨ _))

/-- It makes no difference to any of the first `n` chunks of a stream. -/
def InStep (after : Memory) : ℕ → Rtmp → List UInt8 → Prop
  | 0, _, _ => True
  | n + 1, r, bs => bs ≠ [] → r.SameCut (Memory.ofList bs after) ∧
      ∀ taken ∈ (r.decodeRtmp (Memory.ofList bs after) bs.length).2,
        InStep after n (r.decodeRtmp (Memory.ofList bs after) bs.length).1 (bs.drop taken)

instance decidableInStep (after : Memory) :
    (n : ℕ) → (r : Rtmp) → (bs : List UInt8) → Decidable (InStep after n r bs)
  | 0, _, _ => isTrue trivial
  | n + 1, r, bs =>
    have := decidableInStep after n
    inferInstanceAs (Decidable (bs ≠ [] → _ ∧
      ∀ taken ∈ (r.decodeRtmp (Memory.ofList bs after) bs.length).2, _))

/-- What ties the server to the client: the table, and the packets since the start. -/
structure Agrees (trace pkts : List Msg) (r : Rtmp) (s : Rtmpd) : Prop where
  chan : s.chan = r.chan
  chunkSz : s.chunkSz = RTMP_DEFAULT_CHUNK_SZ
  msgs : ∃ msgs, r.trace = trace ++ msgs ∧ s.pkts = pkts ++ msgs

theorem accept_trace (r : Rtmp) (m : Memory) :
    (endpoint.accept r m).trace = r.trace ++ (completed r.chunkSz m r.chan).toList := by
  obtain ⟨hnone, hlink⟩ | ⟨msg, hmsg, hdisp⟩ := accept_cases r m
  · rw [hnone, Option.toList_none, List.append_nil]
    exact congrArg (fun l : Link => l.trace) hlink
  · rw [hmsg]
    exact hdisp.trace

variable {trace pkts : List Msg} {r : Rtmp} {s : Rtmpd} {after m : Memory}

theorem Agrees.cut (h : Agrees trace pkts r s) (hcut : r.SameCut m) :
    chunkEnd s.chunkSz m s.chan = chunkEnd r.chunkSz m r.chan := by
  rw [h.chan, h.chunkSz]
  exact (chunkEnd_eq_iff.mpr hcut).symm

theorem Agrees.accept (h : Agrees trace pkts r s) (hcut : r.SameCut m) :
    Agrees trace pkts (endpoint.accept r m) (Rtmpd.endpoint.accept s m) := by
  have hend := h.cut hcut
  obtain ⟨hchan, hsz, msgs, hr, hs⟩ := h
  rw [hchan] at hend
  have hstored := stored_congr hend
  refine ⟨?_, ?_, msgs ++ (completed r.chunkSz m r.chan).toList, ?_, ?_⟩
  · have hs' := Endpoint.accept_chan (E := Rtmpd.endpoint) s m
    have hr' := Endpoint.accept_chan (E := endpoint) r m
    simp only [Rtmpd.endpoint, endpoint, hchan, hstored] at hs' hr'
    exact hs'.trans hr'.symm
  · rw [← hsz]
    unfold Endpoint.accept
    dsimp only [Rtmpd.endpoint]
    split_ifs <;> rfl
  · rw [accept_trace, hr, List.append_assoc]
  · have hmsg : completed s.chunkSz m s.chan = completed r.chunkSz m r.chan := by
      simp only [completed, hchan, hstored]
    rw [Rtmpd.accept_pkts, hs, hmsg, List.append_assoc]

/-- As long as the client's chunk size makes no difference, the two decoders take the same
chunks and dispatch the same messages. -/
theorem Agrees.decodeAll {n : ℕ} {bs : List UInt8} (h : Agrees trace pkts r s)
    (hstep : InStep after n r bs) :
    Agrees trace pkts (endpoint.decodeAll after n r bs).1
        (Rtmpd.endpoint.decodeAll after n s bs).1 ∧
      (Rtmpd.endpoint.decodeAll after n s bs).2 = (endpoint.decodeAll after n r bs).2 := by
  induction n generalizing r s bs with
  | zero => exact ⟨h, rfl⟩
  | succ n ih =>
    by_cases hbs : bs = []
    · simpa [Endpoint.decodeAll, hbs] using h
    obtain ⟨hcut, hrest⟩ := hstep hbs
    set m := Memory.ofList bs after with hm
    have hend : chunkEnd (Rtmpd.endpoint.chunkSz s) m (Rtmpd.endpoint.chan s) =
        chunkEnd (endpoint.chunkSz r) m (endpoint.chan r) := h.cut hcut
    have hcall := Endpoint.decodeRtmp_eq (E := endpoint) (r := r) m (List.length_pos_iff.mpr hbs)
    rw [Endpoint.decodeAll_succ hbs, Endpoint.decodeAll_succ hbs, ← hm]
    dsimp only
    rw [hend]
    by_cases hshort : bs.length < chunkEnd (endpoint.chunkSz r) m (endpoint.chan r)
    · -- the last chunk is incomplete: both have stored its header and wait
      rw [if_pos hshort, if_pos hshort]
      obtain ⟨hchan, hsz, msgs, hr, hs⟩ := h
      refine ⟨⟨?_, hsz, msgs, hr, hs⟩, rfl⟩
      simp only [Rtmpd.endpoint, endpoint, hchan]
    · rw [if_neg hshort, if_neg hshort]
      rw [if_neg hshort] at hcall
      have hnext := hrest _ (by rw [decodeRtmp, hcall]; rfl)
      rw [decodeRtmp, hcall] at hnext
      exact ih (h.accept hcut) hnext

/-- From equal tables the decoders dispatch the same messages of any stream, as long as
the client's chunk size is the default one or the message a chunk belongs to ends below
both sizes. With `n = bs.length` that is the whole stream. -/
theorem decoders_agree (hchan : s.chan = r.chan) (hsz : s.chunkSz = RTMP_DEFAULT_CHUNK_SZ)
    {n : ℕ} {bs : List UInt8} (hstep : InStep after n r bs) :
    ∃ msgs, (endpoint.decodeAll after n r bs).1.trace = r.trace ++ msgs ∧
      (Rtmpd.endpoint.decodeAll after n s bs).1.pkts = s.pkts ++ msgs := by
  have hstart : Agrees r.trace s.pkts r s :=
    ⟨hchan, hsz, [], (List.append_nil _).symm, (List.append_nil _).symm⟩
  exact (hstart.decodeAll hstep).1.msgs

/-- A chunk size of 1, and a message of one byte behind it. -/
theorem decoders_agree_resize :
    let bs := Chunk.bytes ⟨.one, 2, .full 0 4 1 0, [0, 0, 0, 1]⟩ ++
      Chunk.bytes ⟨.one, 3, .full 0 1 8 0, [0xaa]⟩
    ∃ msgs, (endpoint.decodeAll (fun _ => 0) bs.length established bs).1.trace = [] ++ msgs ∧
      (Rtmpd.endpoint.decodeAll (fun _ => 0) bs.length (Rtmpd.fresh 128) bs).1.pkts =
        [] ++ msgs :=
  decoders_agree rfl rfl (by decide +kernel)

/-- A chunk size of 1, and a message of two bytes behind it. -/
def resizeChunks : List Chunk :=
  [⟨.one, 2, .full 0 4 1 0, [0, 0, 0, 1]⟩, ⟨.one, 3, .full 0 2 8 0, [0xaa]⟩,
    ⟨.one, 3, .none, [0xbb]⟩]

/-- The server takes the header of the last chunk for the second byte of the message. -/
theorem decoders_disagree :
    let bs := resizeChunks.flatMap Chunk.bytes
    WellFormed established resizeChunks ∧
    (endpoint.decodeAll (fun _ => 0) bs.length established bs).1.trace.map Msg.payload =
      [[0, 0, 0, 1], [0xaa, 0xbb]] ∧
    (Rtmpd.endpoint.decodeAll (fun _ => 0) bs.length (Rtmpd.fresh 128) bs).1.pkts.map
      Msg.payload = [[0, 0, 0, 1], [0xaa, 0xc3]] :=
  ⟨by decide, by decide +kernel, by decide +kernel⟩

end Rtmp
end Mayhem
