import Mayhem.Rtmp.Chunk

/-! The send path. `sendChunks` lists the buffers that `rtmp_send` passes to
`rtmp_send_raw`, one per chunk; `rtmpSend` pushes them into the socket until one
fails. `rtmpd_send` has the same text. -/
namespace Mayhem

/-- The channels `encode_chan` accepts; it aborts on any other. -/
abbrev OutChan := Fin (0xffff + 64)

theorem three_lt_chans : 3 < 0xffff + 64 := by decide

theorem eight_lt_chans : 8 < 0xffff + 64 := by decide

def encodeChan (htype : ℕ) (chan : OutChan) : List UInt8 :=
  if chan.val < 64 then [UInt8.ofNat (htype <<< 6 ||| chan)]
  else if chan.val < 0xff + 64 then [UInt8.ofNat (htype <<< 6), UInt8.ofNat (chan.val - 64)]
  else [UInt8.ofNat (htype <<< 6 ||| 1), UInt8.ofNat ((chan.val - 64) &&& 0xff),
    UInt8.ofNat ((chan.val - 64) >>> 8 &&& 0xff)]

/-- Stores into the buffer of `rtmp_send` and returns the length of the header. The
four bytes of an extended timestamp are counted at the end of the header but stored
at its start. -/
def hdrFull (buf : Memory) (chan : OutChan) (dest ts : UInt32) (type : UInt8) (len : ℕ) :
    Memory × ℕ :=
  let basic := encodeChan 0 chan
  let buf := buf.write 0 basic
  let ptr := basic.length
  let buf := buf.write ptr (encodeInt24 (if (1 : UInt32) <<< 24 ≤ ts then 0xffffff else ts))
  let ptr := ptr + 3
  let buf := buf.write ptr (encodeInt24 (UInt32.ofNat len))
  let ptr := ptr + 3
  let buf := buf.write ptr [type]
  let ptr := ptr + 1
  let buf := buf.write ptr (encodeInt32le dest)
  let ptr := ptr + 4
  if (1 : UInt32) <<< 24 ≤ ts then (buf.write 0 (encodeInt32 ts), ptr + 4) else (buf, ptr)

def hdrSmall (buf : Memory) (chan : OutChan) : Memory × ℕ :=
  (buf.write 0 (encodeChan 3 chan), (encodeChan 3 chan).length)

/-- The loop of `rtmp_send`. `i` counts the chunks sent and `pkt` is what is left.
Each round takes at least one byte off `pkt` unless the chunk size is 0, so `fuel`
is its length. -/
def sendLoop (chunkSz : ℕ) (chan : OutChan) (dest ts : UInt32) (type : UInt8) :
    ℕ → Memory → ℕ → List UInt8 → List (List UInt8)
  | 0, _, _, _ => []
  | fuel + 1, buf, i, pkt =>
    if pkt = [] then []
    else
      let (buf, hdrSz) := if i = 0 then hdrFull buf chan dest ts type pkt.length
        else hdrSmall buf chan
      let thisSz := if pkt.length ≤ chunkSz then pkt.length else chunkSz
      let buf := buf.write hdrSz (pkt.take thisSz)
      buf.bytes 0 (hdrSz + thisSz) ::
        sendLoop chunkSz chan dest ts type fuel buf (i + 1) (pkt.drop thisSz)

/-- The buffers passed to `rtmp_send_raw`. `stack` is what the uninitialised local
buffer holds on entry. -/
def sendChunks (stack : Memory) (chunkSz : ℕ) (chan : OutChan) (dest ts : UInt32)
    (type : UInt8) (pkt : List UInt8) : List (List UInt8) :=
  sendLoop chunkSz chan dest ts type pkt.length stack 0 pkt

/-! ### The connection -/

inductive ConnState
  | init
  | abort
  | connReset
  | handshake1
  | handshake2
  | ready
deriving DecidableEq, Repr

/-- What the kernel answers to one `sock_send`: how much of the offer it takes at most,
EAGAIN, or another error. -/
inductive SendRes
  | accepts (n : ℕ)
  | again
  | fails
deriving DecidableEq, Repr

/-- The socket: the answers to come, past which every send is taken in full, and the
bytes taken so far. -/
structure Sock where
  script : List SendRes := []
  sent : List UInt8 := []
deriving DecidableEq, Repr

/-- Calls of the handlers that the owner of the connection has set. -/
inductive Call
  | connReset (state : ConnState)
  | connected
  | streamStart
  | invoke (msg : Msg)
  | notify (msg : Msg)
  | audio (msg : Msg)
  | video (msg : Msg)
  | readReportSent (ts : UInt32)
deriving DecidableEq, Repr

/-- The connection half of `struct _rtmp`, with the calls made so far and the contents
that the stack will show to the next calls of `rtmp_send`. -/
structure Conn where
  state : ConnState := .init
  connReset : Bool := false
  sock : Sock := {}
  calls : List Call := []
  stack : List Memory := []

/-- `transition` to STATE_ABORT or STATE_CONN_RESET, which returns 0. -/
def Conn.reset (c : Conn) (state : ConnState) : Conn :=
  { c with state := state, calls := c.calls ++ [.connReset state], connReset := true }

inductive SendEnd
  | sent
  | blocked
  | failed
  | closed
deriving DecidableEq, Repr

/-- The loop of `rtmp_send_raw`: how it ends, the answers left and the bytes taken. The
loop header steps over one more byte after each partial send. -/
def sendRaw : List SendRes → List UInt8 → SendEnd × List SendRes × List UInt8
  | ks, [] => (.sent, ks, [])
  | [], buf => (.sent, [], buf)
  | .accepts 0 :: ks, _ => (.closed, ks, [])
  | .accepts (n + 1) :: ks, buf =>
    let (e, ks, out) := sendRaw ks ((buf.drop (n + 1)).drop 1)
    (e, ks, buf.take (n + 1) ++ out)
  | .again :: ks, _ => (.blocked, ks, [])
  | .fails :: ks, _ => (.failed, ks, [])

def rtmpSendRaw (c : Conn) (buf : List UInt8) : Conn × Bool :=
  let (e, ks, out) := sendRaw c.sock.script buf
  let c := { c with sock := ⟨ks, c.sock.sent ++ out⟩ }
  match e with
  | .sent => (c, true)
  | .blocked => (c, false)
  | .failed => (c.reset .abort, false)
  | .closed => (c.reset .connReset, false)

def sendAll (c : Conn) : List (List UInt8) → Conn × Bool
  | [] => (c, true)
  | buf :: bufs =>
    match rtmpSendRaw c buf with
    | (c, true) => sendAll c bufs
    | (c, false) => (c, false)

def Conn.rtmpSend (c : Conn) (chunkSz : ℕ) (chan : OutChan) (dest ts : UInt32) (type : UInt8)
    (pkt : List UInt8) : Conn × Bool :=
  sendAll { c with stack := c.stack.tail }
    (sendChunks (c.stack.headD fun _ => 0) chunkSz chan dest ts type pkt)

/-! ### The chunks of a message -/

/-- The form `encode_chan` picks. -/
def formOf (chan : ℕ) : BasicForm :=
  if chan < 64 then .one else if chan < 0xff + 64 then .two else .three

theorem formOf_fits {chan : OutChan} (h : 2 ≤ chan.val) : (formOf chan).Fits chan := by
  have hlt := chan.isLt
  unfold formOf
  split_ifs <;> simp only [BasicForm.Fits] <;> omega

theorem formOf_len (chan : ℕ) :
    (formOf chan).len = if chan < 64 then 1 else if chan < 0xff + 64 then 2 else 3 := by
  unfold formOf
  split_ifs <;> rfl

private theorem lor_small (h c : ℕ) (hc : c < 64) : h <<< 6 ||| c = h * 64 + c := by
  rw [← Nat.shiftLeft_add_eq_or_of_lt (by omega : c < 2 ^ 6), Nat.shiftLeft_eq]

theorem encodeChan_eq (htype : ℕ) (chan : OutChan) :
    encodeChan htype chan = (formOf chan).bytes htype chan := by
  have hlt := chan.isLt
  have hmask : ∀ n, n &&& 0xff = n % 256 := fun n => Nat.and_two_pow_sub_one_eq_mod n 8
  unfold encodeChan formOf
  split_ifs with h1 h2
  · simp only [BasicForm.bytes, lor_small _ _ h1]
  · simp only [BasicForm.bytes, Nat.shiftLeft_eq, Nat.reducePow]
  · simp only [BasicForm.bytes, lor_small htype 1 (by omega), hmask, Nat.shiftRight_eq_div_pow,
      Nat.reducePow, List.cons.injEq, and_true, true_and]
    rw [Nat.mod_eq_of_lt (a := (chan.val - 64) / 256) (by omega)]

/-- The continuation chunks of a message that still has `p` to send. -/
def contChunks (form : BasicForm) (chan chunkSz : ℕ) : ℕ → List UInt8 → List Chunk
  | 0, _ => []
  | fuel + 1, p =>
    if p = [] then []
    else ⟨form, chan, .none, p.take chunkSz⟩ ::
      contChunks form chan chunkSz fuel (p.drop chunkSz)

/-- A message cut into chunks: the first one carries `hdr`. -/
def chunksOf (form : BasicForm) (chan : ℕ) (hdr : MsgHdr) (chunkSz : ℕ) (payload : List UInt8) :
    List Chunk :=
  ⟨form, chan, hdr, payload.take chunkSz⟩ ::
    contChunks form chan chunkSz (payload.drop chunkSz).length (payload.drop chunkSz)

/-- Fuel past the length of the payload changes nothing. -/
theorem contChunks_fuel (form : BasicForm) (chan : ℕ) {chunkSz : ℕ} (hcs : 1 ≤ chunkSz)
    {fuel fuel' : ℕ} {p : List UInt8} (hf : p.length ≤ fuel) (hf' : p.length ≤ fuel') :
    contChunks form chan chunkSz fuel p = contChunks form chan chunkSz fuel' p := by
  induction fuel generalizing fuel' p with
  | zero =>
    have hp : p = [] := List.length_eq_zero_iff.mp (Nat.le_zero.mp hf)
    cases fuel' <;> simp [contChunks, hp]
  | succ fuel ih =>
    by_cases hp : p = []
    · cases fuel' <;> simp [contChunks, hp]
    · have hpos : 0 < p.length := List.length_pos_iff.mpr hp
      obtain ⟨k, rfl⟩ : ∃ k, fuel' = k + 1 := ⟨fuel' - 1, by omega⟩
      have hd : (p.drop chunkSz).length < p.length := by rw [List.length_drop]; omega
      simp only [contChunks, if_neg hp]
      rw [@ih k _ (by omega) (by omega)]

/-- One round of the loop, with its `this_sz` written as a prefix of the payload. -/
theorem sendLoop_succ (chunkSz : ℕ) (chan : OutChan) (dest ts : UInt32) (type : UInt8)
    (fuel : ℕ) (buf : Memory) (i : ℕ) {p : List UInt8} (hp : p ≠ []) :
    sendLoop chunkSz chan dest ts type (fuel + 1) buf i p =
      let h := if i = 0 then hdrFull buf chan dest ts type p.length else hdrSmall buf chan
      (h.1.write h.2 (p.take chunkSz)).bytes 0 (h.2 + (p.take chunkSz).length) ::
        sendLoop chunkSz chan dest ts type fuel (h.1.write h.2 (p.take chunkSz)) (i + 1)
          (p.drop chunkSz) := by
  simp only [sendLoop, if_neg hp]
  rcases le_or_gt p.length chunkSz with h | h
  · simp only [if_pos h, List.take_length, List.drop_length, List.take_of_length_le h,
      List.drop_of_length_le h]
  · simp only [if_neg (Nat.not_le.mpr h), List.length_take, Nat.min_eq_left h.le]

theorem hdrSmall_bytes (buf : Memory) (chan : OutChan) (body : List UInt8) :
    (((hdrSmall buf chan).1.write (hdrSmall buf chan).2 body).bytes 0
      ((hdrSmall buf chan).2 + body.length)) =
      Chunk.bytes ⟨formOf chan, chan, .none, body⟩ := by
  have h := Memory.bytes_write_append (buf.write 0 (encodeChan 3 chan)) 0
    (encodeChan 3 chan).length body
  rw [Nat.zero_add, Memory.bytes_write_self] at h
  rw [hdrSmall, h, encodeChan_eq]
  simp [Chunk.bytes, Chunk.head, MsgHdr.bytes, MsgHdr.htype]

/-- Continuation chunks come out as described whatever the buffer held. -/
theorem sendLoop_cont (chunkSz : ℕ) (chan : OutChan) (dest ts : UInt32) (type : UInt8)
    (fuel : ℕ) (buf : Memory) (i : ℕ) (hi : i ≠ 0) (p : List UInt8) :
    sendLoop chunkSz chan dest ts type fuel buf i p =
      (contChunks (formOf chan) chan chunkSz fuel p).map Chunk.bytes := by
  induction fuel generalizing buf i p with
  | zero => rfl
  | succ fuel ih =>
    by_cases hp : p = []
    · simp [sendLoop, contChunks, hp]
    · rw [sendLoop_succ _ _ _ _ _ _ _ _ hp, if_neg hi]
      simp only [hdrSmall_bytes, ih _ (i + 1) (by omega), contChunks, if_neg hp, List.map_cons]

/-- The header of the first chunk, for timestamps that need no extension. -/
theorem hdrFull_bytes (buf : Memory) (chan : OutChan) (dest ts : UInt32) (type : UInt8) (len : ℕ)
    (hts : ts.toNat < 2 ^ 24) :
    (hdrFull buf chan dest ts type len).1.bytes 0 (hdrFull buf chan dest ts type len).2 =
      Chunk.head ⟨formOf chan, chan, .full ts (UInt32.ofNat len) type dest, []⟩ := by
  have hlt : ¬ (1 : UInt32) <<< 24 ≤ ts := by
    intro h
    have h' : 2 ^ 24 ≤ ts.toNat := UInt32.le_iff_toNat_le.mp h
    omega
  simp only [hdrFull, if_neg hlt, encodeChan_eq, BasicForm.bytes_length]
  have step : ∀ (m : Memory) (n : ℕ) (done bs : List UInt8), m.bytes 0 n = done →
      (m.write n bs).bytes 0 (n + bs.length) = done ++ bs := by
    intro m n done bs h
    have hw := Memory.bytes_write_append m 0 n bs
    rwa [Nat.zero_add, h] at hw
  have h0 : (buf.write 0 ((formOf chan).bytes 0 chan)).bytes 0 (formOf chan).len =
      (formOf chan).bytes 0 chan := by
    simpa using Memory.bytes_write_self buf 0 ((formOf chan).bytes 0 chan)
  have h1 := step _ _ _ (encodeInt24 ts) h0
  have h2 := step _ _ _ (encodeInt24 (UInt32.ofNat len)) h1
  have h3 := step _ _ _ [type] h2
  have h4 := step _ _ _ (encodeInt32le dest) h3
  simpa [Chunk.head, MsgHdr.bytes, MsgHdr.htype] using h4

/-- The first chunk is what `hdr_full` left, with the body behind it; the others are
continuation chunks. -/
theorem sendChunks_cons (stack : Memory) {chunkSz : ℕ} (hcs : 1 ≤ chunkSz) (chan : OutChan)
    (dest ts : UInt32) (type : UInt8) {p : List UInt8} (hp : p ≠ []) :
    sendChunks stack chunkSz chan dest ts type p =
      ((hdrFull stack chan dest ts type p.length).1.bytes 0
          (hdrFull stack chan dest ts type p.length).2 ++ p.take chunkSz) ::
        (contChunks (formOf chan) chan chunkSz (p.drop chunkSz).length (p.drop chunkSz)).map
          Chunk.bytes := by
  obtain ⟨n, hn⟩ : ∃ n, p.length = n + 1 :=
    Nat.exists_eq_succ_of_ne_zero (by simpa [List.length_eq_zero_iff] using hp)
  have hfirst := Memory.bytes_write_append (hdrFull stack chan dest ts type p.length).1 0
    (hdrFull stack chan dest ts type p.length).2 (p.take chunkSz)
  have hdrop : (p.drop chunkSz).length ≤ n := by rw [List.length_drop]; omega
  rw [Nat.zero_add, hn] at hfirst
  unfold sendChunks
  rw [hn, sendLoop_succ _ _ _ _ _ _ _ _ hp, if_pos rfl]
  simp only [hn, hfirst, sendLoop_cont _ _ _ _ _ _ _ (0 + 1) one_ne_zero,
    contChunks_fuel _ _ hcs hdrop le_rfl]

/-- What `rtmp_send` writes, for timestamps that need no extension: the chunks of
the message, whatever the stack held. -/
theorem sendChunks_eq (stack : Memory) {chunkSz : ℕ} (hcs : 1 ≤ chunkSz) (chan : OutChan)
    (dest ts : UInt32) (type : UInt8) {p : List UInt8} (hp : p ≠ []) (hts : ts.toNat < 2 ^ 24) :
    sendChunks stack chunkSz chan dest ts type p =
      (chunksOf (formOf chan) chan (.full ts (UInt32.ofNat p.length) type dest) chunkSz p).map
        Chunk.bytes := by
  rw [sendChunks_cons stack hcs chan dest ts type hp, hdrFull_bytes _ _ _ _ _ _ hts]
  simp [chunksOf, Chunk.bytes, Chunk.head]

/-! ### Extended timestamps -/

theorem hdrFull_snd (buf : Memory) (chan : OutChan) (dest ts : UInt32) (type : UInt8) (len : ℕ) :
    (hdrFull buf chan dest ts type len).2 =
      (formOf chan).len + 11 + if 2 ^ 24 ≤ ts.toNat then 4 else 0 := by
  have hle : (1 : UInt32) <<< 24 ≤ ts ↔ 2 ^ 24 ≤ ts.toNat := UInt32.le_iff_toNat_le
  simp only [hdrFull, encodeChan_eq, BasicForm.bytes_length, hle]
  split_ifs <;> rfl

/-- With an extended timestamp the header is that of the sentinel, its first four bytes
overwritten. -/
theorem hdrFull_ext (buf : Memory) (chan : OutChan) (dest : UInt32) {ts : UInt32} (type : UInt8)
    (len : ℕ) (hts : 2 ^ 24 ≤ ts.toNat) :
    (hdrFull buf chan dest ts type len).1 =
      (hdrFull buf chan dest 0xffffff type len).1.write 0 (encodeInt32 ts) := by
  have hle : (1 : UInt32) <<< 24 ≤ ts := UInt32.le_iff_toNat_le.mpr hts
  have hlt : ¬ (1 : UInt32) <<< 24 ≤ 0xffffff := by decide
  simp only [hdrFull, if_pos hle, if_neg hlt]

/-- `hdr_full` stores nothing where the extended timestamp belongs. -/
theorem hdrFull_after (buf : Memory) (chan : OutChan) (dest : UInt32) {ts : UInt32} (type : UInt8)
    (len : ℕ) {i : ℕ} (hi : (formOf chan).len + 11 ≤ i) :
    (hdrFull buf chan dest ts type len).1 i = buf i := by
  have hpos := (formOf chan).len_pos
  simp only [hdrFull, encodeChan_eq, BasicForm.bytes_length]
  split_ifs <;> simp (disch := simp; omega) only [Memory.write_after]

end Mayhem
