import Mayhem.Rtmp.Message

/-! `decode_rtmp`, whose text the client and the server share, over the record it is
compiled into. An `Endpoint` names what the decoder uses of that record. -/
namespace Mayhem

/-- A record with a chunk size, a channel table and a dispatcher that leaves the
table alone. -/
structure Endpoint (σ : Type) where
  chunkSz : σ → ℕ
  chan : σ → ChanTable
  setChan : σ → ChanTable → σ
  dispatch : σ → Msg → σ
  chan_setChan : ∀ r t, chan (setChan r t) = t
  setChan_setChan : ∀ r t t', setChan (setChan r t) t' = setChan r t'
  chunkSz_setChan : ∀ r t, chunkSz (setChan r t) = chunkSz r
  dispatch_setChan : ∀ r t msg, dispatch (setChan r t) msg = setChan (dispatch r msg) t

namespace Endpoint

variable {σ : Type} (E : Endpoint σ)

def decodeRtmp (r : σ) (m : Memory) (sz : ℕ) : σ × Option ℕ :=
  match chunkIn (E.chunkSz r) m sz (E.chan r) with
  | .short tbl => (E.setChan r tbl, none)
  | .part tbl n => (E.setChan r tbl, some n)
  | .full tbl n msg =>
    let r := E.dispatch (E.setChan r tbl) msg
    -- the buffer is freed only after the dispatcher has seen it
    (E.setChan r (Function.update (E.chan r) msg.chan (E.chan r msg.chan).release), some n)

/-- The record once the chunk at `m` has been taken. -/
def accept (r : σ) (m : Memory) : σ :=
  let c := (basicHdr m).chan
  let pkt := stored (E.chunkSz r) m (E.chan r)
  if pkt.pLeft = 0 then
    let pkt := { pkt with ts := pkt.ts + pkt.curTs }
    E.setChan (E.dispatch r (pkt.msg c)) (Function.update (E.chan r) c pkt.release)
  else E.setChan r (Function.update (E.chan r) c pkt)

/-- Decode one complete chunk: the call must take exactly its bytes. -/
def takeChunk (after : Memory) (r : σ) (c : List UInt8) : Option σ :=
  match E.decodeRtmp r (Memory.ofList c after) c.length with
  | (r, some n) => if n = c.length then some r else none
  | (_, none) => none

/-- Decode complete chunks one after another. -/
def feed (after : Memory) (r : σ) (cs : List (List UInt8)) : Option σ :=
  cs.foldlM (E.takeChunk after) r

/-- Take up to `n` chunks from the front of a stream: the record and what is left. -/
def decodeAll (after : Memory) : ℕ → σ → List UInt8 → σ × List UInt8
  | 0, r, bs => (r, bs)
  | n + 1, r, bs =>
    if bs = [] then (r, bs)
    else
      let res := E.decodeRtmp r (Memory.ofList bs after) bs.length
      match res.2 with
      | none => (res.1, bs)
      | some taken => decodeAll after n res.1 (bs.drop taken)

/-- A call takes the bytes of `c`, whatever lies behind them. -/
def Takes (r : σ) (c : List UInt8) (r' : σ) : Prop :=
  ∀ (m : Memory) (sz : ℕ), c.length ≤ sz → m.bytes 0 c.length = c →
    E.decodeRtmp r m sz = (r', some c.length)

inductive TakesAll : σ → List (List UInt8) → σ → Prop
  | nil {r} : TakesAll r [] r
  | cons {r r₁ r' c cs} : E.Takes r c r₁ → TakesAll r₁ cs r' → TakesAll r (c :: cs) r'

variable {E} {r : σ}

theorem decodeRtmp_full {m : Memory} {sz n : ℕ} {tbl : ChanTable} {msg : Msg}
    (h : chunkIn (E.chunkSz r) m sz (E.chan r) = .full tbl n msg) :
    E.decodeRtmp r m sz = (E.setChan (E.dispatch r msg)
      (Function.update tbl msg.chan (tbl msg.chan).release), some n) := by
  simp only [decodeRtmp, h, E.dispatch_setChan, E.chan_setChan, E.setChan_setChan]

theorem decodeRtmp_nil (m : Memory) : E.decodeRtmp r m 0 = (E.setChan r (E.chan r), none) := by
  simp [decodeRtmp, chunkIn]

theorem accept_part {m : Memory} (h : (stored (E.chunkSz r) m (E.chan r)).pLeft ≠ 0) :
    E.accept r m = E.setChan r (Function.update (E.chan r) (basicHdr m).chan
      (stored (E.chunkSz r) m (E.chan r))) := if_neg h

theorem accept_full {m : Memory} (h : (stored (E.chunkSz r) m (E.chan r)).pLeft = 0) :
    let pkt := stored (E.chunkSz r) m (E.chan r)
    let pkt := { pkt with ts := pkt.ts + pkt.curTs }
    E.accept r m = E.setChan (E.dispatch r (pkt.msg (basicHdr m).chan))
      (Function.update (E.chan r) (basicHdr m).chan pkt.release) := if_pos h

theorem accept_chan (r : σ) (m : Memory) :
    E.chan (E.accept r m) =
      let pkt := stored (E.chunkSz r) m (E.chan r)
      Function.update (E.chan r) (basicHdr m).chan
        (if pkt.pLeft = 0 then { pkt with ts := pkt.ts + pkt.curTs }.release else pkt) := by
  unfold accept
  dsimp only
  split_ifs <;> exact E.chan_setChan _ _

/-- A call either finds the chunk incomplete, and has then stored its header, or takes
it: only the length received decides. -/
theorem decodeRtmp_eq (m : Memory) {sz : ℕ} (hsz : 1 ≤ sz) :
    E.decodeRtmp r m sz =
      if sz < chunkEnd (E.chunkSz r) m (E.chan r) then
        (E.setChan r (Function.update (E.chan r) (basicHdr m).chan
          (headIn m (E.chan r)).1.begin.giveBack), none)
      else (E.accept r m, some (chunkEnd (E.chunkSz r) m (E.chan r))) := by
  unfold decodeRtmp chunkIn chunkBody accept stored chunkEnd
  rw [if_neg (by omega)]
  dsimp only
  split_ifs with hshort hleft
  · rfl
  · simp only [E.dispatch_setChan, E.chan_setChan, E.setChan_setChan, Function.update_self,
      Function.update_idem, RtmpChan.msg]
  · rfl

section Stream

variable {after : Memory} {bs : List UInt8} {n : ℕ}

/-- One call on what is left of a stream. -/
theorem decodeAll_succ (hbs : bs ≠ []) :
    E.decodeAll after (n + 1) r bs =
      let m := Memory.ofList bs after
      if bs.length < chunkEnd (E.chunkSz r) m (E.chan r) then
        (E.setChan r (Function.update (E.chan r) (basicHdr m).chan
          (headIn m (E.chan r)).1.begin.giveBack), bs)
      else E.decodeAll after n (E.accept r m) (bs.drop (chunkEnd (E.chunkSz r) m (E.chan r))) := by
  rw [decodeAll, if_neg hbs]
  simp only [decodeRtmp_eq _ (List.length_pos_iff.mpr hbs)]
  split_ifs <;> rfl

/-- Calls past the length of a stream change nothing. -/
theorem decodeAll_fuel {n' : ℕ} (hn : bs.length ≤ n) (hn' : bs.length ≤ n') :
    E.decodeAll after n r bs = E.decodeAll after n' r bs := by
  induction n generalizing n' r bs with
  | zero =>
    obtain rfl := List.length_eq_zero_iff.mp (Nat.le_zero.mp hn)
    cases n' <;> simp [decodeAll]
  | succ n ih =>
    by_cases hbs : bs = []
    · cases n' <;> simp [decodeAll, hbs]
    have hpos := List.length_pos_iff.mpr hbs
    obtain ⟨k, rfl⟩ : ∃ k, n' = k + 1 := ⟨n' - 1, by omega⟩
    rw [decodeAll_succ hbs, decodeAll_succ hbs]
    dsimp only
    split_ifs
    · rfl
    · have hend := chunkEnd_pos (E.chunkSz r) (Memory.ofList bs after) (E.chan r)
      have hrest := List.length_drop
        (i := chunkEnd (E.chunkSz r) (Memory.ofList bs after) (E.chan r)) (l := bs)
      exact ih (by omega) (by omega)

end Stream

/-- One chunk that leaves its channel midway, or settles it and dispatches. -/
theorem takes_of_step {c : Chunk} (hc : c.Ok)
    (hts : c.hdr.htype = 3 → (E.chan r c.chan).curTs ≠ 0xffffff)
    (hfill : c.Fills (E.chunkSz r) (E.chan r c.chan)) {base : RtmpChan} {n : ℕ}
    {done rest : List UInt8}
    (hstep : c.step (E.chan r) = midwayStep c (E.chan r) base n done rest) :
    E.Takes r c.bytes
      (if rest = [] then
        E.setChan (E.dispatch r ⟨c.chan, base.dest, base.ts + base.curTs, base.type, done⟩)
          (Function.update (E.chan r) c.chan base.settle)
      else E.setChan r (Function.update (E.chan r) c.chan (base.midway n done rest))) := by
  intro m sz hsz hb
  have h := chunkIn_bytes hc hts hfill hsz hb
  rw [hstep, midwayStep] at h
  split_ifs at h ⊢ with hrest
  · rw [decodeRtmp_full h]
    simp [RtmpChan.release, RtmpChan.midway, RtmpChan.settle]
  · simp only [decodeRtmp, h]

theorem Takes.takeChunk {c : List UInt8} {r' : σ} (h : E.Takes r c r') (after : Memory) :
    E.takeChunk after r c = some r' := by
  unfold Endpoint.takeChunk
  rw [h _ _ le_rfl (Memory.bytes_ofList _ _)]
  simp

/-- Chunks that are taken whatever follows them are taken one by one. -/
theorem TakesAll.feed {cs : List (List UInt8)} {r' : σ} (h : E.TakesAll r cs r')
    (after : Memory) : E.feed after r cs = some r' := by
  induction h with
  | nil => rfl
  | cons hc _ ih =>
    rw [Endpoint.feed, List.foldlM_cons, hc.takeChunk]
    exact ih

/-- They are also taken from the front of a stream. -/
theorem TakesAll.decodeAll {cs : List (List UInt8)} {r' : σ} (h : E.TakesAll r cs r')
    (hcs : ∀ c ∈ cs, c ≠ []) (after : Memory) {n : ℕ} (hn : cs.length ≤ n) :
    E.decodeAll after n r cs.flatten = (r', []) := by
  induction h generalizing n with
  | nil => cases n <;> simp [Endpoint.decodeAll]
  | @cons r r₁ r' c cs hc _ ih =>
    obtain ⟨k, rfl⟩ : ∃ k, n = k + 1 := ⟨n - 1, by rw [List.length_cons] at hn; omega⟩
    have hne : c ++ cs.flatten ≠ [] := by simp [hcs c List.mem_cons_self]
    have hcall := hc (Memory.ofList (c ++ cs.flatten) after) (c ++ cs.flatten).length
      (by simp) (Memory.bytes_ofList_append c cs.flatten after)
    rw [List.flatten_cons, Endpoint.decodeAll, if_neg hne]
    simp only [hcall, List.drop_left]
    exact ih (fun d hd => hcs d (List.mem_cons_of_mem c hd)) (Nat.le_of_succ_le_succ hn)

/-- The record once a whole chunk has been taken, from the chunk alone. -/
def acceptChunk (E : Endpoint σ) (r : σ) (c : Chunk) : σ :=
  let tbl := Function.update (E.chan r) c.chan (c.leave (E.chan r c.chan))
  match c.finishes (E.chan r c.chan) with
  | none => E.setChan r tbl
  | some msg => E.setChan (E.dispatch r msg) tbl

theorem acceptChunk_chan (r : σ) (c : Chunk) : E.chan (E.acceptChunk r c) =
    Function.update (E.chan r) c.chan (c.leave (E.chan r c.chan)) := by
  unfold acceptChunk
  split <;> exact E.chan_setChan _ _

theorem accept_eq {c : Chunk} (hc : c.Ok) {m : Memory}
    (hts : c.hdr.htype = 3 → (E.chan r c.chan).curTs ≠ 0xffffff)
    (hfill : c.Fills (E.chunkSz r) (E.chan r c.chan))
    (hb : m.bytes 0 c.bytes.length = c.bytes) : E.accept r m = E.acceptChunk r c := by
  obtain ⟨hchan, hstored⟩ := stored_bytes hc hts hfill hb
  simp only [accept, acceptChunk, hchan, hstored, Chunk.finishes, Chunk.leave]
  split_ifs <;> rfl

/-- A chunk handed over whole is taken exactly if it ends where its header says. -/
theorem takeChunk_some {after : Memory} {c : List UInt8} (hc : c ≠ []) {r' : σ}
    (h : E.takeChunk after r c = some r') :
    chunkEnd (E.chunkSz r) (Memory.ofList c after) (E.chan r) = c.length ∧
      r' = E.accept r (Memory.ofList c after) := by
  have hpos := List.length_pos_iff.mpr hc
  unfold takeChunk at h
  rw [decodeRtmp_eq _ hpos] at h
  by_cases hshort : c.length < chunkEnd (E.chunkSz r) (Memory.ofList c after) (E.chan r)
  · simp [hshort] at h
  · simpa [hshort, @eq_comm _ r'] using h

/-- A continuation chunk handed over whole carries the body its channel asks for, and
four bytes more if the channel's timestamp field is the sentinel. -/
theorem takeChunk_cont {after : Memory} {form : BasicForm} {chan : ℕ} (hfit : form.Fits chan)
    {body : List UInt8} {r' : σ}
    (h : E.takeChunk after r (Chunk.bytes ⟨form, chan, .none, body⟩) = some r') :
    (if (E.chan r chan).curTs = 0xffffff then 4 else 0) +
      (E.chan r chan).begin.bodySz (E.chunkSz r) = body.length := by
  obtain ⟨hend, -⟩ := takeChunk_some (Chunk.bytes_ne_nil _) h
  set m := Memory.ofList (Chunk.bytes ⟨form, chan, .none, body⟩) after with hm
  have hb : m.bytes 0 form.len = form.bytes 3 chan := by
    have := Memory.bytes_ofList_append (form.bytes 3 chan) body after
    simpa [hm, Chunk.bytes, Chunk.head, MsgHdr.bytes, MsgHdr.htype] using this
  have hbasic := basicHdr_bytes hfit (by omega) hb
  obtain ⟨hbuf, hleft, -⟩ := msgHdr_keeps m (sizes 3) form.len (E.chan r chan)
  have hbody := RtmpChan.begin_bodySz hbuf hleft
    (msgHdr_sz (by omega : 3 < 4) m form.len (E.chan r chan)) (E.chunkSz r)
  rw [chunkEnd, headIn_snd] at hend
  simp only [hbasic, headIn, hbody, Chunk.bytes_length, MsgHdr.len, msgLen, tsField,
    lt_irrefl, if_false] at hend
  omega

/-! ### One message -/

variable {form : BasicForm} {chan n : ℕ}

/-- The continuation chunks of a message complete it. -/
theorem takesAll_contChunks (hfit : form.Fits chan) {base : RtmpChan}
    (hts : base.curTs ≠ 0xffffff) (hcs : 1 ≤ E.chunkSz r) {fuel : ℕ} {done rest : List UInt8}
    (hf : rest.length ≤ fuel) (hrest : rest ≠ [])
    (hmid : E.chan r chan = base.midway n done rest) :
    E.TakesAll r ((contChunks form chan (E.chunkSz r) fuel rest).map Chunk.bytes)
      (E.setChan (E.dispatch r
          ⟨chan, base.dest, base.ts + base.curTs, base.type, done ++ rest⟩)
        (Function.update (E.chan r) chan base.settle)) := by
  induction fuel generalizing r done rest with
  | zero => exact absurd (List.length_eq_zero_iff.mp (Nat.le_zero.mp hf)) hrest
  | succ fuel ih =>
    have hpos := List.length_pos_iff.mpr hrest
    obtain ⟨hfill, hstep⟩ :=
      cont_chunk form chan (E.chunkSz r) _ hmid
    have htake := takes_of_step (E := E) (r := r)
      (c := ⟨form, chan, .none, rest.take (E.chunkSz r)⟩) ⟨hfit, trivial⟩
      (fun _ => by rw [hmid]; exact hts) hfill hstep
    simp only [contChunks, if_neg hrest, List.map_cons]
    by_cases hd : rest.drop (E.chunkSz r) = []
    · -- the last chunk: nothing is left to send
      have htk : rest.take (E.chunkSz r) = rest :=
        List.take_of_length_le (by simpa using hd)
      rw [hd, htk]
      rw [if_pos hd, htk] at htake
      refine .cons htake ?_
      cases fuel <;> exact .nil
    · rw [if_neg hd] at htake
      refine .cons htake ?_
      have hdl : (rest.drop (E.chunkSz r)).length ≤ fuel := by rw [List.length_drop]; omega
      have h := ih (r := E.setChan r (Function.update (E.chan r) chan
          (base.midway n (done ++ rest.take (E.chunkSz r)) (rest.drop (E.chunkSz r)))))
        (by rw [E.chunkSz_setChan]; exact hcs) hdl hd (by rw [E.chan_setChan, Function.update_self])
      simp only [E.chunkSz_setChan, E.chan_setChan, E.dispatch_setChan, E.setChan_setChan,
        Function.update_idem, List.append_assoc, List.take_append_drop] at h
      exact h

/-- The chunks of a message on an idle channel dispatch it and settle the channel. -/
theorem takesAll_chunksOf (hfit : form.Fits chan) {hdr : MsgHdr} (hok : hdr.Ok)
    (hts : (hdr.apply (E.chan r chan)).curTs ≠ 0xffffff) (hcs : 1 ≤ E.chunkSz r)
    (hidle : (E.chan r chan).pBuf = none) {p : List UInt8}
    (hsz : (hdr.apply (E.chan r chan)).sz.toNat = p.length) :
    E.TakesAll r ((chunksOf form chan hdr (E.chunkSz r) p).map Chunk.bytes)
      (E.setChan (E.dispatch r ⟨chan, (hdr.apply (E.chan r chan)).dest,
          (E.chan r chan).ts + (hdr.apply (E.chan r chan)).curTs,
          (hdr.apply (E.chan r chan)).type, p⟩)
        (Function.update (E.chan r) chan (hdr.apply (E.chan r chan)).settle)) := by
  obtain ⟨hfill, hstep⟩ :=
    first_chunk form chan (E.chunkSz r) _ hdr hidle hsz
  have hsent : hdr.htype = 3 → (E.chan r chan).curTs ≠ 0xffffff := by
    intro h3
    cases hdr <;> first | exact hts | simp [MsgHdr.htype] at h3
  have htake := takes_of_step (E := E) (r := r)
    (c := ⟨form, chan, hdr, p.take (E.chunkSz r)⟩) ⟨hfit, hok⟩ hsent hfill hstep
  simp only [chunksOf, List.map_cons]
  by_cases hd : p.drop (E.chunkSz r) = []
  · have htk : p.take (E.chunkSz r) = p := List.take_of_length_le (by simpa using hd)
    rw [if_pos hd, htk] at htake
    rw [hd, htk]
    simpa [contChunks] using TakesAll.cons htake .nil
  · rw [if_neg hd] at htake
    refine .cons htake ?_
    have h := takesAll_contChunks (E := E) (n := p.length)
      (r := E.setChan r (Function.update (E.chan r) chan
        ((hdr.apply (E.chan r chan)).midway p.length (p.take (E.chunkSz r))
          (p.drop (E.chunkSz r)))))
      hfit hts (by rw [E.chunkSz_setChan]; exact hcs) le_rfl hd
      (by rw [E.chan_setChan, Function.update_self])
    simp only [E.chunkSz_setChan, E.chan_setChan, E.dispatch_setChan, E.setChan_setChan,
      Function.update_idem, List.take_append_drop, MsgHdr.apply_ts] at h
    exact h

end Endpoint
end Mayhem
