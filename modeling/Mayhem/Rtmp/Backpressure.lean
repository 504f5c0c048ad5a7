import Mayhem.Rtmp.ChunkSize

/-! Sends under back-pressure. The kernel takes each chunk in full or refuses it, and
`rtmp_send` gives up at the first chunk that is refused, whatever has gone out before. -/
namespace Mayhem

/-- What a message is but for its timestamp, which the decoder accumulates. -/
def Msg.content (msg : Msg) : ℕ × UInt32 × UInt8 × List UInt8 :=
  (msg.chan, msg.dest, msg.type, msg.payload)

/-- Each answer takes an offer of up to `bound` bytes in full, or is EAGAIN. -/
def FullOrAgain (bound : ℕ) (script : List SendRes) : Prop :=
  ∀ k ∈ script, k = .again ∨ ∃ n, k = .accepts n ∧ bound ≤ n

namespace OutMsg

/-- The complete chunk encoding of the message. -/
def encoding (x : OutMsg) (chunkSz : ℕ) : List UInt8 := (x.sends (fun _ => 0) chunkSz).flatten

/-- The number of chunks. -/
def pieces (x : OutMsg) (chunkSz : ℕ) : ℕ := (x.payload.length + (chunkSz - 1)) / chunkSz

end OutMsg

/-- A sequence of calls of `rtmp_send`, with the messages for which it returns 1. -/
def Conn.sendMsgs (chunkSz : ℕ) : Conn → List OutMsg → Conn × List OutMsg
  | c, [] => (c, [])
  | c, x :: xs =>
    let res := c.rtmpSend chunkSz x.chan x.dest x.ts x.type x.payload
    let rest := sendMsgs chunkSz res.1 xs
    (rest.1, if res.2 then x :: rest.2 else rest.2)

/-- The bytes on the socket are the encodings of the messages reported as sent, and the
peer's decoder gives these messages back. -/
structure AllOrNothing (chunkSz : ℕ) (c : Conn) (xs : List OutMsg) : Prop where
  bytes : (c.sendMsgs chunkSz xs).1.sock.sent =
    c.sock.sent ++ ((c.sendMsgs chunkSz xs).2.map (OutMsg.encoding · chunkSz)).flatten
  recovered : ∀ (after : Memory) (s : Rtmpd), s.chunkSz = chunkSz →
    (∀ chan, (s.chan chan).pBuf = none) →
      let bs := (c.sendMsgs chunkSz xs).1.sock.sent.drop c.sock.sent.length
      let res := Rtmpd.endpoint.decodeAll after bs.length s bs
      res.1.pkts.map Msg.content =
        s.pkts.map Msg.content ++ (c.sendMsgs chunkSz xs).2.map (·.msg.content) ∧ res.2 = []

/-- A call that is refused at its first chunk. -/
def Refused (ks : List SendRes) (x : OutMsg) : Prop := x.payload ≠ [] ∧ ks.head? = some .again

instance (ks : List SendRes) (x : OutMsg) : Decidable (Refused ks x) :=
  inferInstanceAs (Decidable (_ ∧ _))

/-- No message is refused behind its first chunk. -/
def Uncut (chunkSz : ℕ) : List SendRes → List OutMsg → Prop
  | _, [] => True
  | ks, x :: xs =>
    if Refused ks x then Uncut chunkSz ks.tail xs
    else .again ∉ ks.take (x.pieces chunkSz) ∧ Uncut chunkSz (ks.drop (x.pieces chunkSz)) xs

instance decidableUncut (chunkSz : ℕ) :
    (ks : List SendRes) → (xs : List OutMsg) → Decidable (Uncut chunkSz ks xs)
  | _, [] => isTrue trivial
  | ks, x :: xs =>
    have := decidableUncut chunkSz ks.tail xs
    have := decidableUncut chunkSz (ks.drop (x.pieces chunkSz)) xs
    inferInstanceAs (Decidable (if Refused ks x then _ else _))

/-- The messages that are not refused. -/
def unrefused (chunkSz : ℕ) : List SendRes → List OutMsg → List OutMsg
  | _, [] => []
  | ks, x :: xs =>
    if Refused ks x then unrefused chunkSz ks.tail xs
    else x :: unrefused chunkSz (ks.drop (x.pieces chunkSz)) xs

/-! ### One call -/

section Call

variable {chunkSz : ℕ}

/-- The first piece of a payload and the pieces of what is left. -/
theorem pieces_succ (hcs : 1 ≤ chunkSz) {n : ℕ} (hn : 0 < n) :
    (n - chunkSz + (chunkSz - 1)) / chunkSz + 1 = (n + (chunkSz - 1)) / chunkSz := by
  rcases Nat.le_total n chunkSz with hle | hge
  · rw [Nat.sub_eq_zero_of_le hle, Nat.div_eq_of_lt (by omega)]
    exact (Nat.div_eq_of_lt_le (by omega) (by omega)).symm
  · rw [← Nat.add_div_right _ (by omega)]
    congr 1
    omega

theorem contChunks_length (form : BasicForm) (chan : ℕ) (hcs : 1 ≤ chunkSz) {fuel : ℕ}
    {p : List UInt8} (hf : p.length ≤ fuel) :
    (contChunks form chan chunkSz fuel p).length = (p.length + (chunkSz - 1)) / chunkSz := by
  induction fuel generalizing p with
  | zero =>
    obtain rfl := List.length_eq_zero_iff.mp (Nat.le_zero.mp hf)
    exact (Nat.div_eq_of_lt (by simp; omega)).symm
  | succ fuel ih =>
    by_cases hp : p = []
    · subst hp
      exact (Nat.div_eq_of_lt (by simp; omega)).symm
    · have hpos := List.length_pos_iff.mpr hp
      have hd : (p.drop chunkSz).length ≤ fuel := by rw [List.length_drop]; omega
      rw [contChunks, if_neg hp, List.length_cons, ih hd, List.length_drop, pieces_succ hcs hpos]

variable {x : OutMsg}

theorem sends_nil (stack : Memory) (hp : x.payload = []) : x.sends stack chunkSz = [] := by
  simp [OutMsg.sends, sendChunks, hp, sendLoop]

theorem sends_chunks (stack : Memory) (hcs : 1 ≤ chunkSz) (hts : x.ts.toNat < 0xffffff)
    (hp : x.payload ≠ []) :
    x.sends stack chunkSz =
      (chunksOf (formOf x.chan) x.chan x.hdr chunkSz x.payload).map Chunk.bytes :=
  sendChunks_eq stack hcs x.chan x.dest x.ts x.type hp (by omega)

theorem sends_length (stack : Memory) (hcs : 1 ≤ chunkSz) (hts : x.ts.toNat < 0xffffff) :
    (x.sends stack chunkSz).length = x.pieces chunkSz := by
  by_cases hp : x.payload = []
  · rw [sends_nil stack hp, OutMsg.pieces, hp]
    exact (Nat.div_eq_of_lt (by simp; omega)).symm
  · rw [sends_chunks stack hcs hts hp, List.length_map, chunksOf, List.length_cons,
      contChunks_length _ _ hcs le_rfl, List.length_drop,
      pieces_succ hcs (List.length_pos_iff.mpr hp), OutMsg.pieces]

/-- A chunk fits the buffer of `rtmp_send`. -/
theorem contChunks_body (form : BasicForm) (chan : ℕ) {fuel : ℕ} {p : List UInt8} :
    ∀ c ∈ contChunks form chan chunkSz fuel p, c.body.length ≤ chunkSz := by
  induction fuel generalizing p with
  | zero => simp [contChunks]
  | succ fuel ih =>
    rw [contChunks]
    split_ifs
    · simp
    · intro c hc
      rcases List.mem_cons.mp hc with rfl | hc
      · exact List.length_take_le _ _
      · exact ih c hc

theorem sends_bounds (stack : Memory) (hcs : 1 ≤ chunkSz) (hts : x.ts.toNat < 0xffffff) :
    ∀ buf ∈ x.sends stack chunkSz, buf ≠ [] ∧ buf.length ≤ RTMP_HDR_MAX_SZ + chunkSz := by
  by_cases hp : x.payload = []
  · simp [sends_nil stack hp]
  intro buf hbuf
  rw [sends_chunks stack hcs hts hp] at hbuf
  obtain ⟨c, hc, rfl⟩ := List.mem_map.mp hbuf
  refine ⟨c.bytes_ne_nil, ?_⟩
  have hbody : c.body.length ≤ chunkSz := by
    rcases List.mem_cons.mp hc with rfl | hc
    · exact List.length_take_le _ _
    · exact contChunks_body _ _ c hc
  have hlen := c.form.len_le
  have hhdr := c.hdr.len_le
  rw [Chunk.bytes_length, RTMP_HDR_MAX_SZ]
  omega

/-- A sequence of offers to a kernel that takes each of them in full or refuses it. -/
theorem sendAll_fullOrAgain {bound : ℕ} {c : Conn} (hk : FullOrAgain bound c.sock.script)
    {bufs : List (List UInt8)} (hbufs : ∀ buf ∈ bufs, buf ≠ [] ∧ buf.length ≤ bound) :
    sendAll c bufs =
      if .again ∈ c.sock.script.take bufs.length then
        ({ c with sock := ⟨c.sock.script.drop (c.sock.script.idxOf .again + 1),
            c.sock.sent ++ (bufs.take (c.sock.script.idxOf .again)).flatten⟩ }, false)
      else ({ c with sock := ⟨c.sock.script.drop bufs.length, c.sock.sent ++ bufs.flatten⟩ },
        true) := by
  obtain ⟨state, reset, ⟨ks, sent⟩, calls, stack⟩ := c
  dsimp only at hk ⊢
  induction bufs generalizing ks sent with
  | nil => simp [sendAll]
  | cons buf bufs ih =>
    obtain ⟨hne, hlen⟩ := hbufs buf List.mem_cons_self
    have hrest := fun b hb => hbufs b (List.mem_cons_of_mem buf hb)
    have hpos := List.length_pos_iff.mpr hne
    cases ks with
    | nil =>
      obtain ⟨b, bs, rfl⟩ := List.exists_cons_of_ne_nil hne
      have h := ih hrest [] (sent ++ (b :: bs)) hk
      simp only [List.take_nil, List.not_mem_nil, if_false, List.drop_nil] at h
      simp [sendAll, rtmpSendRaw, sendRaw, h]
    | cons k ks =>
      obtain ⟨b, bs, rfl⟩ := List.exists_cons_of_ne_nil hne
      rcases hk k List.mem_cons_self with rfl | ⟨n, rfl, hn⟩
      · simp [sendAll, rtmpSendRaw, sendRaw]
      · obtain ⟨n, rfl⟩ : ∃ j, n = j + 1 := ⟨n - 1, by omega⟩
        have htake : (b :: bs).take (n + 1) = b :: bs := List.take_of_length_le (by omega)
        have hdrop : (b :: bs).drop (n + 1) = [] := List.drop_of_length_le (by omega)
        have h := ih hrest ks (sent ++ (b :: bs)) fun k hk' => hk k (List.mem_cons_of_mem _ hk')
        simp only [sendAll, rtmpSendRaw, sendRaw, htake, hdrop, List.drop_nil, List.append_nil]
        rw [h]
        have hne' : SendRes.again ≠ .accepts (n + 1) := by simp
        simp [List.idxOf_cons_ne _ hne'.symm, List.take_succ_cons]

theorem pieces_pos (hcs : 1 ≤ chunkSz) (hp : x.payload ≠ []) : 0 < x.pieces chunkSz :=
  Nat.div_pos (by have := List.length_pos_iff.mpr hp; omega) hcs

/-- A call sends the whole message, is refused before anything has gone out, or is cut. -/
inductive SendOutcome (chunkSz : ℕ) (ks : List SendRes) (sent : List UInt8) (x : OutMsg) :
    Sock → Bool → Prop
  | whole : ¬ Refused ks x → .again ∉ ks.take (x.pieces chunkSz) →
      SendOutcome chunkSz ks sent x ⟨ks.drop (x.pieces chunkSz), sent ++ x.encoding chunkSz⟩ true
  | refused : Refused ks x → SendOutcome chunkSz ks sent x ⟨ks.tail, sent⟩ false
  | cut {i : ℕ} {bs : List UInt8} : ¬ Refused ks x → .again ∈ ks.take (x.pieces chunkSz) →
      bs ≠ [] → SendOutcome chunkSz ks sent x ⟨ks.drop i, sent ++ bs⟩ false

theorem rtmpSend_outcome (hcs : 1 ≤ chunkSz) (hts : x.ts.toNat < 0xffffff) {c : Conn}
    (hk : FullOrAgain (RTMP_HDR_MAX_SZ + chunkSz) c.sock.script) :
    SendOutcome chunkSz c.sock.script c.sock.sent x
      (c.rtmpSend chunkSz x.chan x.dest x.ts x.type x.payload).1.sock
      (c.rtmpSend chunkSz x.chan x.dest x.ts x.type x.payload).2 := by
  have hrun : c.rtmpSend chunkSz x.chan x.dest x.ts x.type x.payload =
      sendAll { c with stack := c.stack.tail } (x.sends (c.stack.headD fun _ => 0) chunkSz) := rfl
  have henc : (x.sends (c.stack.headD fun _ => 0) chunkSz) = x.sends (fun _ => 0) chunkSz := by
    by_cases hp : x.payload = []
    · rw [sends_nil _ hp, sends_nil _ hp]
    · rw [sends_chunks _ hcs hts hp, sends_chunks _ hcs hts hp]
  have hbounds : ∀ buf ∈ x.sends (fun _ => 0) chunkSz,
      buf ≠ [] ∧ buf.length ≤ RTMP_HDR_MAX_SZ + chunkSz := sends_bounds (fun _ => 0) hcs hts
  have hlen : (x.sends (fun _ => 0) chunkSz).length = x.pieces chunkSz :=
    sends_length (fun _ => 0) hcs hts
  rw [hrun, henc,
    sendAll_fullOrAgain (c := { c with stack := c.stack.tail }) hk hbounds, hlen]
  dsimp only
  by_cases hagain : .again ∈ c.sock.script.take (x.pieces chunkSz)
  · rw [if_pos hagain]
    by_cases hrefused : Refused c.sock.script x
    · have h0 : c.sock.script.idxOf .again = 0 := by
        obtain ⟨-, hhead⟩ := hrefused
        cases hks : c.sock.script with
        | nil => simp [hks] at hhead
        | cons k ks =>
          rw [hks] at hhead
          obtain rfl : k = .again := by simpa using hhead
          exact List.idxOf_cons_self
      rw [h0]
      have hout : SendOutcome chunkSz c.sock.script c.sock.sent x
          ⟨c.sock.script.tail, c.sock.sent⟩ false := .refused hrefused
      simpa using hout
    · refine .cut hrefused hagain ?_
      -- an answer ahead of the refusal takes the first chunk
      obtain ⟨k, ks, hks⟩ : ∃ k ks, c.sock.script = k :: ks :=
        List.exists_cons_of_ne_nil fun h => by simp [h] at hagain
      have hp : x.payload ≠ [] := by
        intro hp
        rw [← hlen, sends_nil _ hp] at hagain
        simp at hagain
      have hhead : k ≠ .again := by
        rintro rfl
        exact hrefused ⟨hp, by rw [hks]; rfl⟩
      obtain ⟨buf, bufs, hbufs⟩ : ∃ buf bufs, x.sends (fun _ => 0) chunkSz = buf :: bufs := by
        refine List.exists_cons_of_ne_nil fun h => ?_
        have := pieces_pos hcs hp
        rw [← hlen, h] at this
        exact absurd this (lt_irrefl 0)
      have hne := (hbounds buf (by rw [hbufs]; exact List.mem_cons_self)).1
      rw [hks, List.idxOf_cons_ne _ hhead, hbufs, List.take_succ_cons, List.flatten_cons]
      exact List.append_ne_nil_of_left_ne_nil hne _
  · rw [if_neg hagain]
    refine .whole ?_ hagain
    rintro ⟨hp, hhead⟩
    apply hagain
    cases hks : c.sock.script with
    | nil => simp [hks] at hhead
    | cons k ks =>
      obtain ⟨n, hn⟩ := Nat.exists_eq_succ_of_ne_zero (pieces_pos hcs hp).ne'
      rw [hks] at hhead
      rw [hn, List.take_succ_cons]
      exact List.mem_cons.mpr (.inl (by simpa using hhead.symm))

end Call

/-! ### Sequences of calls -/

section Calls

variable {chunkSz : ℕ}

theorem FullOrAgain.drop {bound : ℕ} {ks : List SendRes} (h : FullOrAgain bound ks) (i : ℕ) :
    FullOrAgain bound (ks.drop i) := fun k hk => h k (List.mem_of_mem_drop hk)

theorem uncut_cons (ks : List SendRes) (x : OutMsg) (xs : List OutMsg) :
    Uncut chunkSz ks (x :: xs) ↔
      if Refused ks x then Uncut chunkSz ks.tail xs
      else .again ∉ ks.take (x.pieces chunkSz) ∧ Uncut chunkSz (ks.drop (x.pieces chunkSz)) xs :=
  Iff.rfl

theorem unrefused_cons (ks : List SendRes) (x : OutMsg) (xs : List OutMsg) :
    unrefused chunkSz ks (x :: xs) =
      if Refused ks x then unrefused chunkSz ks.tail xs
      else x :: unrefused chunkSz (ks.drop (x.pieces chunkSz)) xs := rfl

theorem unrefused_subset {ks : List SendRes} {xs : List OutMsg} {x : OutMsg}
    (hx : x ∈ unrefused chunkSz ks xs) : x ∈ xs := by
  induction xs generalizing ks with
  | nil => exact hx
  | cons y ys ih =>
    rw [unrefused_cons] at hx
    split_ifs at hx
    · exact List.mem_cons_of_mem y (ih hx)
    · rcases List.mem_cons.mp hx with rfl | hx
      · exact List.mem_cons_self
      · exact List.mem_cons_of_mem y (ih hx)

/-- What goes out is at least what is reported, and it is exactly that if no call is cut. -/
theorem sendMsgs_spec (hcs : 1 ≤ chunkSz) {xs : List OutMsg} (hts : ∀ x ∈ xs, x.ts.toNat < 0xffffff)
    {c : Conn} (hk : FullOrAgain (RTMP_HDR_MAX_SZ + chunkSz) c.sock.script) :
    let reported := (c.sendMsgs chunkSz xs).2
    let enc := (reported.map (OutMsg.encoding · chunkSz)).flatten
    ∃ out, (c.sendMsgs chunkSz xs).1.sock.sent = c.sock.sent ++ out ∧
      (Uncut chunkSz c.sock.script xs →
        out = enc ∧ reported = unrefused chunkSz c.sock.script xs) ∧
      (¬ Uncut chunkSz c.sock.script xs → enc.length < out.length) ∧ enc.length ≤ out.length := by
  induction xs generalizing c with
  | nil => exact ⟨[], by simp [Conn.sendMsgs], fun _ => ⟨rfl, rfl⟩, fun h => absurd trivial h, le_rfl⟩
  | cons x xs ih =>
    have hcall := rtmpSend_outcome hcs (hts x List.mem_cons_self) hk
    have htail := fun y hy => hts y (List.mem_cons_of_mem x hy)
    simp only [Conn.sendMsgs, uncut_cons, unrefused_cons]
    generalize c.rtmpSend chunkSz x.chan x.dest x.ts x.type x.payload = res at hcall ⊢
    obtain ⟨c', ok⟩ := res
    dsimp only at hcall ⊢
    generalize hsock : c'.sock = sock at hcall
    cases hcall with
    | whole hrefused hagain =>
      obtain ⟨out, hout, huncut, hcut, hle⟩ := @ih htail c' (by rw [hsock]; exact hk.drop _)
      simp only [hsock] at hout huncut hcut
      refine ⟨x.encoding chunkSz ++ out, by rw [hout, List.append_assoc], ?_⟩
      simp only [if_neg hrefused, hagain, not_false_eq_true, true_and, if_true, List.map_cons,
        List.flatten_cons, List.length_append, Nat.add_lt_add_iff_left, Nat.add_le_add_iff_left]
      exact ⟨fun h => ⟨by rw [(huncut h).1], by rw [(huncut h).2]⟩, hcut, hle⟩
    | refused hrefused =>
      obtain ⟨out, hout, huncut, hcut, hle⟩ := @ih htail c' (by
        rw [hsock, ← List.drop_one]
        exact hk.drop 1)
      simp only [hsock] at hout huncut hcut
      refine ⟨out, hout, ?_⟩
      simp only [if_pos hrefused, Bool.false_eq_true, if_false]
      exact ⟨huncut, hcut, hle⟩
    | @cut i bs hrefused hagain hbs =>
      obtain ⟨out, hout, -, -, hle⟩ := @ih htail c' (by rw [hsock]; exact hk.drop i)
      simp only [hsock] at hout
      have hpos := List.length_pos_iff.mpr hbs
      refine ⟨bs ++ out, by rw [hout, List.append_assoc], ?_⟩
      simp only [if_neg hrefused, hagain, not_true, false_and, Bool.false_eq_true, if_false,
        List.length_append, false_imp_iff, not_false_eq_true, true_imp_iff, true_and]
      exact ⟨by omega, by omega⟩

end Calls

/-! ### What the decoder gives back -/

theorem Endpoint.TakesAll.append {σ : Type} {E : Endpoint σ} {r r₁ r' : σ}
    {cs cs' : List (List UInt8)} (h : E.TakesAll r cs r₁) (h' : E.TakesAll r₁ cs' r') :
    E.TakesAll r (cs ++ cs') r' := by
  induction h with
  | nil => exact h'
  | cons hc _ ih => exact .cons hc (ih h')

/-- The messages come back one after another. -/
theorem takesAll_msgs {xs : List OutMsg} (hxs : ∀ x ∈ xs, x.Ok) {s : Rtmpd} (hcs : 1 ≤ s.chunkSz)
    (hidle : ∀ chan, (s.chan chan).pBuf = none) :
    ∃ s', Rtmpd.endpoint.TakesAll s (xs.map (·.sends (fun _ => 0) s.chunkSz)).flatten s' ∧
      s'.pkts.map Msg.content = s.pkts.map Msg.content ++ xs.map (·.msg.content) := by
  induction xs generalizing s with
  | nil => exact ⟨s, .nil, by simp⟩
  | cons x xs ih =>
    have hx := hxs x List.mem_cons_self
    have hall := Endpoint.takesAll_chunksOf (E := Rtmpd.endpoint) (r := s)
      (formOf_fits hx.chan) hx.hdr_ok (ne_sentinel hx.ts) hcs (hidle x.chan) hx.toNat_len
    have hsends : x.sends (fun _ => 0) s.chunkSz = _ := sends_chunks (fun _ => 0) hcs hx.ts hx.payload
    rw [show Rtmpd.endpoint.chunkSz s = s.chunkSz from rfl, ← hsends] at hall
    set s₁ : Rtmpd := Rtmpd.endpoint.setChan (Rtmpd.endpoint.dispatch s
        ⟨x.chan, (x.hdr.apply (s.chan x.chan)).dest,
          (s.chan x.chan).ts + (x.hdr.apply (s.chan x.chan)).curTs,
          (x.hdr.apply (s.chan x.chan)).type, x.payload⟩)
      (Function.update s.chan x.chan (x.hdr.apply (s.chan x.chan)).settle) with hs₁
    have hidle₁ : ∀ chan, (s₁.chan chan).pBuf = none := by
      intro chan
      change (Function.update s.chan x.chan _ chan).pBuf = none
      rcases eq_or_ne chan x.chan with rfl | hne
      · rw [Function.update_self, RtmpChan.settle_pBuf]
      · rw [Function.update_of_ne hne]
        exact hidle chan
    obtain ⟨s', hrest, hpkts⟩ := ih (fun y hy => hxs y (List.mem_cons_of_mem x hy)) (s := s₁) hcs hidle₁
    refine ⟨s', by rw [List.map_cons, List.flatten_cons]; exact hall.append hrest, ?_⟩
    rw [hpkts]
    simp [hs₁, Rtmpd.endpoint, Rtmpd.rtmpDispatch, Msg.content, OutMsg.msg, OutMsg.hdr, MsgHdr.apply]

theorem recovered_of_ok {xs : List OutMsg} (hxs : ∀ x ∈ xs, x.Ok) (after : Memory) {s : Rtmpd}
    (hcs : 1 ≤ s.chunkSz) (hidle : ∀ chan, (s.chan chan).pBuf = none) :
    let bs := (xs.map (OutMsg.encoding · s.chunkSz)).flatten
    let res := Rtmpd.endpoint.decodeAll after bs.length s bs
    res.1.pkts.map Msg.content = s.pkts.map Msg.content ++ xs.map (·.msg.content) ∧
      res.2 = [] := by
  obtain ⟨s', hall, hpkts⟩ := takesAll_msgs hxs hcs hidle
  have hne : ∀ c ∈ (xs.map (·.sends (fun _ => 0) s.chunkSz)).flatten, c ≠ [] := by
    intro c hc
    obtain ⟨cs, hcs', hmem⟩ := List.mem_flatten.mp hc
    obtain ⟨x, hx, rfl⟩ := List.mem_map.mp hcs'
    exact (sends_bounds _ hcs (hxs x hx).ts c hmem).1
  have hflat : (xs.map (OutMsg.encoding · s.chunkSz)).flatten =
      (xs.map (·.sends (fun _ => 0) s.chunkSz)).flatten.flatten := by
    rw [List.flatten_flatten, List.map_map]
    rfl
  have hres := hall.decodeAll hne after (length_le_flatten hne)
  dsimp only
  rw [hflat, hres]
  exact ⟨hpkts, rfl⟩

/-- A channel whose lengths fit the three bytes of a header. -/
def RtmpChan.Narrow (pkt : RtmpChan) : Prop :=
  pkt.sz.toNat < 2 ^ 24 ∧ ∀ b ∈ pkt.pBuf, b.data.length + pkt.pLeft < 2 ^ 24

theorem headIn_narrow {m : Memory} {tbl : ChanTable} (h : (tbl (basicHdr m).chan).Narrow) :
    (headIn m tbl).1.begin.Narrow := by
  obtain ⟨hsz, hbuf⟩ := h
  obtain ⟨hb, hl, -⟩ :
      (headIn m tbl).1.pBuf = (tbl (basicHdr m).chan).pBuf ∧
        (headIn m tbl).1.pLeft = (tbl (basicHdr m).chan).pLeft ∧ _ :=
    msgHdr_keeps m (sizes (basicHdr m).type) (basicHdr m).ptr (tbl (basicHdr m).chan)
  have hsz' : (headIn m tbl).1.sz.toNat < 2 ^ 24 := by
    rw [headIn, msgHdr_sz (basicHdr_type_lt m)]
    split_ifs
    · exact decodeInt24_lt m _
    · exact hsz
  cases hnew : (headIn m tbl).1.pBuf with
  | none =>
    rw [RtmpChan.begin_idle hnew]
    exact ⟨hsz', by simpa using hsz'⟩
  | some b =>
    rw [RtmpChan.begin_busy hnew]
    exact ⟨hsz', by rw [hb, hl]; exact hbuf⟩

theorem stored_narrow {chunkSz : ℕ} {m : Memory} {tbl : ChanTable}
    (h : (tbl (basicHdr m).chan).Narrow) : (stored chunkSz m tbl).Narrow := by
  obtain ⟨hsz, hbuf⟩ := headIn_narrow h
  refine ⟨hsz, fun b hb => ?_⟩
  obtain ⟨b₀, hb₀, rfl⟩ : ∃ b₀, (headIn m tbl).1.begin.pBuf = some b₀ ∧
      ⟨b₀.size, b₀.data ++ m.bytes (headIn m tbl).2 ((headIn m tbl).1.begin.bodySz chunkSz)⟩ = b := by
    simpa [stored, RtmpChan.store, Option.map_eq_some_iff] using hb
  have hsum := hbuf b₀ hb₀
  rw [stored_pLeft, List.length_append, Memory.bytes_length, RtmpChan.bodySz_eq_min]
  omega

/-- The messages that come out of a decoder carry what a header can say. -/
theorem decodeAll_carried (after : Memory) (n : ℕ) {s : Rtmpd} (hs : ∀ chan, (s.chan chan).Narrow)
    (bs : List UInt8) : ∀ msg ∈ (Rtmpd.endpoint.decodeAll after n s bs).1.pkts,
      msg ∈ s.pkts ∨ 2 ≤ msg.chan ∧ msg.payload.length < 2 ^ 24 := by
  induction n generalizing s bs with
  | zero => exact fun msg h => .inl h
  | succ n ih =>
    intro msg hmsg
    by_cases hbs : bs = []
    · simp only [Endpoint.decodeAll, if_pos hbs] at hmsg
      exact .inl hmsg
    rw [Endpoint.decodeAll_succ hbs] at hmsg
    dsimp only at hmsg
    split_ifs at hmsg
    · exact .inl hmsg
    · set m := Memory.ofList bs after with hm
      have hst : (stored s.chunkSz m s.chan).Narrow := stored_narrow (hs (basicHdr m).chan)
      have hnarrow : ∀ chan, ((Rtmpd.endpoint.accept s m).chan chan).Narrow := by
        intro chan
        rw [show (Rtmpd.endpoint.accept s m).chan = _ from
          Endpoint.accept_chan (E := Rtmpd.endpoint) s m]
        dsimp only
        rcases eq_or_ne chan (basicHdr m).chan with rfl | hne
        · rw [Function.update_self]
          split_ifs
          · exact ⟨hst.1, by simp [RtmpChan.release]⟩
          · exact hst
        · rw [Function.update_of_ne hne]
          exact hs chan
      rcases ih hnarrow _ msg hmsg with hin | hnew
      · rw [Rtmpd.accept_pkts, List.mem_append, Option.mem_toList] at hin
        rcases hin with hin | hdone
        · exact .inl hin
        · have hchan : 2 ≤ (basicHdr m).chan := by
            obtain ⟨-, -, h⟩ | ⟨-, -, h⟩ | ⟨h, -, h'⟩ := basicHdr_cases m <;> omega
          right
          unfold completed at hdone
          dsimp only at hdone
          split_ifs at hdone with h0
          · obtain rfl := Option.some.inj hdone
            refine ⟨hchan, ?_⟩
            simp only [RtmpChan.msg, RtmpChan.data]
            cases hb : (stored s.chunkSz m s.chan).pBuf with
            | none => simp
            | some b =>
              have := hst.2 b hb
              simp only [Option.map_some, Option.getD_some]
              omega
      · exact .inr hnew

/-- Messages that a fresh decoder gives back are ones that a header can announce: an empty
message leaves no trace in the stream. -/
theorem carried_of_recovered {chunkSz : ℕ} (hcs : 1 ≤ chunkSz) {xs : List OutMsg}
    (hts : ∀ x ∈ xs, x.ts.toNat < 0xffffff) (after : Memory)
    (h : let bs := (xs.map (OutMsg.encoding · chunkSz)).flatten
      (Rtmpd.endpoint.decodeAll after bs.length (.fresh chunkSz) bs).1.pkts.map Msg.content =
        xs.map (·.msg.content)) :
    ∀ x ∈ xs, 2 ≤ x.chan.val ∧ x.payload ≠ [] ∧ x.payload.length < 2 ^ 24 := by
  dsimp only at h
  have hfresh : ∀ chan, ((Rtmpd.fresh chunkSz).chan chan).Narrow :=
    fun _ => ⟨by simp [Rtmpd.fresh], by simp [Rtmpd.fresh]⟩
  have hcarried : ∀ x ∈ xs, 2 ≤ x.chan.val ∧ x.payload.length < 2 ^ 24 := by
    intro x hx
    have hmem : x.msg.content ∈ xs.map (·.msg.content) :=
      List.mem_map_of_mem (f := fun y : OutMsg => y.msg.content) hx
    rw [← h] at hmem
    obtain ⟨msg, hmsg, heq⟩ := List.mem_map.mp hmem
    obtain ⟨hchan, -, -, hpayload⟩ : msg.chan = x.chan ∧ msg.dest = x.dest ∧ msg.type = x.type ∧
        msg.payload = x.payload := by simpa [Msg.content, OutMsg.msg] using heq
    rcases decodeAll_carried after _ hfresh _ msg hmsg with hin | hnew
    · exact absurd hin (by simp [Rtmpd.fresh])
    · rwa [hchan, hpayload] at hnew
  set ys := xs.filter (·.payload ≠ []) with hys
  have hok : ∀ y ∈ ys, y.Ok := by
    intro y hy
    obtain ⟨hmem, hne⟩ := List.mem_filter.mp hy
    exact ⟨(hcarried y hmem).1, hts y hmem, of_decide_eq_true hne, (hcarried y hmem).2⟩
  have henc : (xs.map (OutMsg.encoding · chunkSz)).flatten =
      (ys.map (OutMsg.encoding · chunkSz)).flatten := by
    clear h hts hcarried hok
    induction xs with
    | nil => rfl
    | cons x xs ih =>
      by_cases hp : x.payload = []
      · have hnil : x.encoding chunkSz = [] := by rw [OutMsg.encoding, sends_nil _ hp]; rfl
        simp [hys, hp, hnil, ih rfl]
      · simp [hys, hp, ih rfl]
  obtain ⟨hpkts, -⟩ := recovered_of_ok hok after (s := .fresh chunkSz) hcs fun _ => rfl
  rw [henc] at h
  have hlen : xs.length = ys.length := by
    simpa [Rtmpd.fresh] using congrArg List.length (h.symm.trans hpkts)
  have hall : ys = xs := List.filter_eq_self.mpr (List.length_filter_eq_length_iff.mp hlen.symm)
  exact fun x hx => ⟨(hcarried x hx).1, (hok x (hall ▸ hx)).payload, (hcarried x hx).2⟩

/-- The calls are all or nothing exactly if the kernel refuses no message behind its first
chunk, and each message that it does not refuse is one that a header can announce. -/
theorem allOrNothing_iff {chunkSz : ℕ} (hcs : 1 ≤ chunkSz) (c : Conn) (xs : List OutMsg)
    (hts : ∀ x ∈ xs, x.ts.toNat < 0xffffff)
    (hk : FullOrAgain (RTMP_HDR_MAX_SZ + chunkSz) c.sock.script) :
    AllOrNothing chunkSz c xs ↔ Uncut chunkSz c.sock.script xs ∧
      ∀ x ∈ unrefused chunkSz c.sock.script xs,
        2 ≤ x.chan.val ∧ x.payload ≠ [] ∧ x.payload.length < 2 ^ 24 := by
  obtain ⟨out, hout, huncut, hcut, -⟩ := sendMsgs_spec hcs hts hk
  have hsub : ∀ x ∈ unrefused chunkSz c.sock.script xs, x.ts.toNat < 0xffffff :=
    fun x hx => hts x (unrefused_subset hx)
  constructor
  · rintro ⟨hbytes, hrecovered⟩
    have hout' : out = _ := List.append_cancel_left (hout.symm.trans hbytes)
    have hun : Uncut chunkSz c.sock.script xs := by
      by_contra h
      exact absurd (hcut h) (by rw [hout']; exact lt_irrefl _)
    refine ⟨hun, ?_⟩
    have hreported := (huncut hun).2
    -- a fresh decoder gives back every message that was reported
    obtain ⟨hpkts, -⟩ := hrecovered (fun _ => 0) (.fresh chunkSz) rfl fun _ => rfl
    rw [hbytes, List.drop_left, hreported] at hpkts
    exact carried_of_recovered hcs hsub _ (hpkts.trans (by simp [Rtmpd.fresh]))
  · rintro ⟨hun, hok⟩
    obtain ⟨henc, hreported⟩ := huncut hun
    refine ⟨by rw [hout, henc], fun after s hs hidle => ?_⟩
    subst hs
    rw [hout, henc, List.drop_left, hreported]
    refine recovered_of_ok (fun x hx => ?_) after hcs hidle
    obtain ⟨hchan, hpayload, hlen⟩ := hok x hx
    exact ⟨hchan, hsub x hx, hpayload, hlen⟩

/-- Two messages on one channel, of two chunks and of one. -/
def twoCalls : List OutMsg := [⟨3, 0, 0, 20, .replicate 129 7⟩, ⟨3, 1, 0, 20, [8]⟩]

theorem allOrNothing_twoCalls :
    AllOrNothing 128 { sock := { script := [.again, .accepts 1000] } } twoCalls :=
  (allOrNothing_iff (by decide) _ twoCalls (by decide)
    (fun k hk => by
      rcases List.mem_pair.mp hk with rfl | rfl
      · exact .inl rfl
      · exact .inr ⟨1000, rfl, by decide⟩)).mpr ⟨by decide, by decide⟩

/-- A message that is refused behind its first chunk leaves that chunk on the socket. -/
theorem twoCalls_cut :
    ¬ AllOrNothing 128 { sock := { script := [.accepts 1000, .again, .accepts 1000] } } twoCalls :=
  fun h => absurd h.bytes (by decide +kernel)

end Mayhem
