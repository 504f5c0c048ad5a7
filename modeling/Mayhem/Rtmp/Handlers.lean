import Mayhem.Rtmp.Decode
import Mathlib.Tactic.SplitIfs

/-! `rtmp.c`: the handlers of incoming messages. They are written once, over what they use of a
connection, and each record that models one says what these operations are for it. -/
namespace Mayhem

def UPDATE_FREQUENCY : UInt32 := (1 : UInt32) <<< 20

/-- What the messages steer. -/
structure Line where
  chunkSz : ℕ := 0
  conn : Conn := {}
  serverBw : UInt32 := 0
  clientBw : UInt32 := 0
  clientBw2 : UInt8 := 0
  nbytes : UInt32 := 0
  nbytesUpdate : UInt32 := 0
  /-- The static counter of `send_read_report`. -/
  ugh : UInt32 := 0
  /-- The messages passed to `rtmp_dispatch`. -/
  trace : List Msg := []

/-- The channel of the client's own control messages. -/
def ctlChan : OutChan := ⟨2, by omega⟩

/-- A payload as its handler reads it. -/
def Line.payloadMem (msg : Msg) : Memory := Memory.ofList msg.payload fun _ => 0

/-- What the handlers do with a connection that is kept as a `σ`. -/
structure Carrier (σ : Type) where
  line : σ → Line
  modify : (Line → Line) → σ → σ
  rtmpSend : σ → OutChan → UInt32 → UInt32 → UInt8 → List UInt8 → σ × Bool
  /-- A call of one of the owner's handlers. -/
  call : σ → Call → σ
  rbufRequestSize : σ → ℕ → σ × Bool

namespace Carrier

variable {σ : Type} (C : Carrier σ)

/-! ### The end of `rtmp_dispatch` -/

/-- `send_read_report` with the timestamp at hand. -/
def report (r : σ) : σ :=
  let res := C.rtmpSend r ctlChan 0 (C.line r).ugh RTMP_MSG_READ_REPORT
    (encodeInt32 (C.line r).nbytes)
  let r := if res.2 then C.modify (fun l => { l with nbytesUpdate := l.nbytes }) res.1 else res.1
  C.call r (.readReportSent (C.line r).ugh)

def sendReadReport (r : σ) : σ := C.report (C.modify (fun l => { l with ugh := l.ugh + 100000 }) r)

def readReport (r : σ) : σ :=
  if (C.line r).nbytesUpdate + UPDATE_FREQUENCY ≤ (C.line r).nbytes then C.sendReadReport r else r

/-! ### Handlers -/

def sendServerBw (r : σ) : σ × Bool :=
  C.rtmpSend r ctlChan 0 0xfe227 RTMP_MSG_SERVER_BW (encodeInt32 (C.line r).serverBw)

def sendCtl (r : σ) (type : UInt16) (val ts : UInt32) : σ × Bool :=
  C.rtmpSend r ctlChan 0 ts RTMP_MSG_CTL (encodeInt16 type ++ encodeInt32 val)

def rChunksz (r : σ) (msg : Msg) : σ :=
  if msg.payload.length < 4 then r
  else (C.rbufRequestSize r (decodeInt32 (Line.payloadMem msg) 0).toNat).1

def rInvoke (r : σ) (msg : Msg) : σ := C.call r (.invoke msg)

def rCtl (r : σ) (msg : Msg) : σ :=
  if msg.payload.length < 2 then r
  else
    let type := decodeInt16 (Line.payloadMem msg) 0
    if type = RTMP_CTL_STREAM_BEGIN then C.call r .streamStart
    else if type = RTMP_CTL_PING then
      if msg.payload.length - 2 < 4 then r
      else (C.sendCtl r RTMP_CTL_PONG (decodeInt32 (Line.payloadMem msg) 2) 0xfe227).1
    else r

def rServerBw (r : σ) (msg : Msg) : σ :=
  if msg.payload.length < 4 then r
  else
    (C.sendServerBw
      (C.modify (fun l => { l with serverBw := decodeInt32 (Line.payloadMem msg) 0 }) r)).1

def rClientBw (r : σ) (msg : Msg) : σ :=
  if msg.payload.length < 4 then r
  else
    let r := C.modify (fun l => { l with clientBw := decodeInt32 (Line.payloadMem msg) 0 }) r
    if 4 < msg.payload.length then
      C.modify (fun l => { l with clientBw2 := Line.payloadMem msg 4 }) r
    else r

def rNotify (r : σ) (msg : Msg) : σ := C.call r (.notify msg)

/-- `r_audio` and `r_video` up to their calls. -/
def count (r : σ) (msg : Msg) : σ :=
  C.modify (fun l => { l with nbytes := l.nbytes + UInt32.ofNat msg.payload.length }) r

def rAudio (r : σ) (msg : Msg) : σ := C.call (C.count r msg) (.audio msg)

def rVideo (r : σ) (msg : Msg) : σ := C.call (C.count r msg) (.video msg)

/-- The table of `rtmp_dispatch`. -/
def handler (type : UInt8) : Option (σ → Msg → σ) :=
  if type = RTMP_MSG_CHUNK_SZ then some C.rChunksz
  else if type = RTMP_MSG_CTL then some C.rCtl
  else if type = RTMP_MSG_SERVER_BW then some C.rServerBw
  else if type = RTMP_MSG_CLIENT_BW then some C.rClientBw
  else if type = RTMP_MSG_AUDIO then some C.rAudio
  else if type = RTMP_MSG_VIDEO then some C.rVideo
  else if type = RTMP_MSG_NOTIFY then some C.rNotify
  else if type = RTMP_MSG_INVOKE then some C.rInvoke
  else none

/-- `rtmp_dispatch` keeps no list; that the message came is noted here. -/
def note (r : σ) (msg : Msg) : σ := C.modify (fun l => { l with trace := l.trace ++ [msg] }) r

def rtmpDispatch (r : σ) (msg : Msg) : σ :=
  let r := C.note r msg
  match C.handler msg.type with
  | none => r
  | some h => C.readReport (h r msg)

theorem handler_chunkSz : C.handler RTMP_MSG_CHUNK_SZ = some C.rChunksz := rfl

theorem handler_video : C.handler RTMP_MSG_VIDEO = some C.rVideo := rfl

end Carrier

/-! ### What a message keeps -/

/-- At most the counters differ. -/
structure Line.Counts (l l' : Line) : Prop where
  chunkSz : l'.chunkSz = l.chunkSz
  conn : l'.conn = l.conn
  trace : l'.trace = l.trace

namespace Carrier

/-- A relation that what the handlers are made of keeps. -/
structure Rule {σ : Type} (C : Carrier σ) (R : σ → σ → Prop) : Prop where
  refl : ∀ r, R r r
  trans : ∀ {r r' r''}, R r r' → R r' r'' → R r r''
  modify : ∀ {r : σ} {f : Line → Line}, (∀ l : Line, l.Counts (f l)) → R r (C.modify f r)
  rtmpSend : ∀ (r : σ) (chan : OutChan) (dest ts : UInt32) (type : UInt8) (pkt : List UInt8),
    R r (C.rtmpSend r chan dest ts type pkt).1
  call : ∀ {r : σ} {c : Call}, c ≠ .connected → (∀ s, c ≠ .connReset s) → R r (C.call r c)

namespace Rule

variable {σ : Type} {C : Carrier σ} {R : σ → σ → Prop} (h : C.Rule R)
include h

theorem modify_call {r : σ} {f : Line → Line} {c : Call} (hf : ∀ l : Line, l.Counts (f l))
    (hc : c ≠ .connected) (hr : ∀ s, c ≠ .connReset s) : R r (C.call (C.modify f r) c) :=
  h.trans (h.modify hf) (h.call hc hr)

theorem counted {r : σ} {msg : Msg} {c : Call} (hc : c ≠ .connected)
    (hr : ∀ s, c ≠ .connReset s) : R r (C.call (C.count r msg) c) :=
  h.modify_call (fun _ => ⟨rfl, rfl, rfl⟩) hc hr

theorem report (r : σ) : R r (C.report r) := by
  have hsend := h.rtmpSend r ctlChan 0 (C.line r).ugh RTMP_MSG_READ_REPORT
    (encodeInt32 (C.line r).nbytes)
  unfold Carrier.report
  dsimp only
  apply h.trans hsend
  split_ifs
  · apply h.modify_call
    · exact fun _ => ⟨rfl, rfl, rfl⟩
    · simp
    · simp
  · apply h.call <;> simp

theorem readReport (r : σ) : R r (C.readReport r) := by
  unfold Carrier.readReport
  split_ifs
  · unfold sendReadReport
    apply h.trans _ (h.report _)
    apply h.modify
    exact fun _ => ⟨rfl, rfl, rfl⟩
  · exact h.refl r

theorem rCtl (r : σ) (msg : Msg) : R r (C.rCtl r msg) := by
  unfold Carrier.rCtl sendCtl
  dsimp only
  split_ifs
  · exact h.refl r
  · apply h.call <;> simp
  · exact h.refl r
  · exact h.rtmpSend r _ _ _ _ _
  · exact h.refl r

theorem rServerBw (r : σ) (msg : Msg) : R r (C.rServerBw r msg) := by
  unfold Carrier.rServerBw sendServerBw
  split_ifs
  · exact h.refl r
  · apply h.trans _ (h.rtmpSend _ _ _ _ _ _)
    exact h.modify fun _ => ⟨rfl, rfl, rfl⟩

theorem rClientBw (r : σ) (msg : Msg) : R r (C.rClientBw r msg) := by
  have hbw : R r (C.modify (fun l => { l with clientBw := decodeInt32 (Line.payloadMem msg) 0 }) r) :=
    h.modify fun _ => ⟨rfl, rfl, rfl⟩
  unfold Carrier.rClientBw
  dsimp only
  split_ifs
  · exact h.refl r
  · apply h.trans hbw
    exact h.modify fun _ => ⟨rfl, rfl, rfl⟩
  · exact hbw

/-- The handlers other than that of the chunk size. -/
theorem handler {type : UInt8} {f : σ → Msg → σ} (hf : C.handler type = some f)
    (hne : type ≠ RTMP_MSG_CHUNK_SZ) (r : σ) (msg : Msg) : R r (f r msg) := by
  unfold Carrier.handler at hf
  rw [if_neg hne] at hf
  split_ifs at hf
  all_goals obtain rfl := Option.some.inj hf
  · exact h.rCtl r msg
  · exact h.rServerBw r msg
  · exact h.rClientBw r msg
  · apply h.counted <;> simp
  · apply h.counted <;> simp
  · apply h.call <;> simp
  · apply h.call <;> simp

/-- A message keeps the relation if asking for a size of the buffer does. -/
theorem rtmpDispatch (hnote : ∀ r msg, R r (C.note r msg))
    (hreq : ∀ (r : σ) (sz : ℕ), R r (C.rbufRequestSize r sz).1) (r : σ) (msg : Msg) :
    R r (C.rtmpDispatch r msg) := by
  unfold Carrier.rtmpDispatch
  dsimp only
  cases hf : C.handler msg.type with
  | none => exact hnote r msg
  | some f =>
    apply h.trans (hnote r msg)
    refine h.trans ?_ (h.readReport _)
    by_cases ht : msg.type = RTMP_MSG_CHUNK_SZ
    · rw [ht, handler_chunkSz] at hf
      obtain rfl := Option.some.inj hf
      unfold rChunksz
      split_ifs
      · exact h.refl _
      · exact hreq _ _
    · exact h.handler hf ht _ msg

end Rule

/-! ### One record behind another -/

/-- `f` takes each operation on the one record to that on the other, as long as `P` holds. -/
structure Shows {σ τ : Type} (C : Carrier σ) (D : Carrier τ) (P : σ → Prop) (f : σ → τ) :
    Prop where
  line : ∀ r, D.line (f r) = C.line r
  modify : ∀ (g : Line → Line) (r : σ), P r →
    P (C.modify g r) ∧ f (C.modify g r) = D.modify g (f r)
  rtmpSend : ∀ (r : σ) (chan : OutChan) (dest ts : UInt32) (type : UInt8) (pkt : List UInt8), P r →
    P (C.rtmpSend r chan dest ts type pkt).1 ∧
      (f (C.rtmpSend r chan dest ts type pkt).1, (C.rtmpSend r chan dest ts type pkt).2) =
        D.rtmpSend (f r) chan dest ts type pkt
  call : ∀ (r : σ) (c : Call), P r → P (C.call r c) ∧ f (C.call r c) = D.call (f r) c
  rbufRequestSize : ∀ (r : σ) (sz : ℕ), P r →
    P (C.rbufRequestSize r sz).1 ∧
      (f (C.rbufRequestSize r sz).1, (C.rbufRequestSize r sz).2) = D.rbufRequestSize (f r) sz

namespace Shows

variable {σ τ : Type} {C : Carrier σ} {D : Carrier τ} {P : σ → Prop} {f : σ → τ}
  (h : Shows C D P f) {r : σ} (hr : P r)
include h hr

theorem report : f (C.report r) = D.report (f r) := by
  obtain ⟨hP, hsend⟩ := h.rtmpSend r ctlChan 0 (C.line r).ugh RTMP_MSG_READ_REPORT
    (encodeInt32 (C.line r).nbytes) hr
  unfold Carrier.report
  rw [h.line, ← hsend]
  dsimp only
  split_ifs
  · obtain ⟨hP', hmodify⟩ := h.modify (fun l => { l with nbytesUpdate := l.nbytes }) _ hP
    rw [← hmodify, h.line]
    exact (h.call _ _ hP').2
  · rw [h.line]
    exact (h.call _ _ hP).2

theorem readReport : f (C.readReport r) = D.readReport (f r) := by
  unfold Carrier.readReport sendReadReport
  rw [h.line]
  split_ifs
  · obtain ⟨hP, hmodify⟩ := h.modify (fun l => { l with ugh := l.ugh + 100000 }) r hr
    rw [← hmodify]
    exact h.report hP
  · rfl

theorem rChunksz (msg : Msg) :
    P (C.rChunksz r msg) ∧ f (C.rChunksz r msg) = D.rChunksz (f r) msg := by
  unfold Carrier.rChunksz
  split_ifs
  · exact ⟨hr, rfl⟩
  · obtain ⟨hP, hreq⟩ := h.rbufRequestSize r (decodeInt32 (Line.payloadMem msg) 0).toNat hr
    exact ⟨hP, congrArg Prod.fst hreq⟩

theorem rCtl (msg : Msg) : P (C.rCtl r msg) ∧ f (C.rCtl r msg) = D.rCtl (f r) msg := by
  unfold Carrier.rCtl sendCtl
  dsimp only
  split_ifs
  · exact ⟨hr, rfl⟩
  · exact h.call r _ hr
  · exact ⟨hr, rfl⟩
  · obtain ⟨hP, hsend⟩ := h.rtmpSend r ctlChan 0 0xfe227 RTMP_MSG_CTL (encodeInt16 RTMP_CTL_PONG ++
      encodeInt32 (decodeInt32 (Line.payloadMem msg) 2)) hr
    exact ⟨hP, congrArg Prod.fst hsend⟩
  · exact ⟨hr, rfl⟩

theorem rServerBw (msg : Msg) :
    P (C.rServerBw r msg) ∧ f (C.rServerBw r msg) = D.rServerBw (f r) msg := by
  unfold Carrier.rServerBw sendServerBw
  split_ifs
  · exact ⟨hr, rfl⟩
  · obtain ⟨hP, hmodify⟩ :=
      h.modify (fun l => { l with serverBw := decodeInt32 (Line.payloadMem msg) 0 }) r hr
    rw [← hmodify, h.line]
    obtain ⟨hP', hsend⟩ := h.rtmpSend _ ctlChan 0 0xfe227 RTMP_MSG_SERVER_BW _ hP
    exact ⟨hP', congrArg Prod.fst hsend⟩

theorem rClientBw (msg : Msg) :
    P (C.rClientBw r msg) ∧ f (C.rClientBw r msg) = D.rClientBw (f r) msg := by
  obtain ⟨hP, hmodify⟩ :=
    h.modify (fun l => { l with clientBw := decodeInt32 (Line.payloadMem msg) 0 }) r hr
  unfold Carrier.rClientBw
  dsimp only
  split_ifs
  · exact ⟨hr, rfl⟩
  · rw [← hmodify]
    exact h.modify _ _ hP
  · exact ⟨hP, hmodify⟩

theorem counted (msg : Msg) (c : Call) :
    P (C.call (C.count r msg) c) ∧ f (C.call (C.count r msg) c) = D.call (D.count (f r) msg) c := by
  obtain ⟨hP, hmodify⟩ :=
    h.modify (fun l => { l with nbytes := l.nbytes + UInt32.ofNat msg.payload.length }) r hr
  unfold count
  rw [← hmodify]
  exact h.call _ c hP

/-- A message is seen through `f` as the same message. -/
theorem rtmpDispatch (msg : Msg) : f (C.rtmpDispatch r msg) = D.rtmpDispatch (f r) msg := by
  obtain ⟨hP, hnote⟩ : P (C.note r msg) ∧ f (C.note r msg) = D.note (f r) msg := h.modify _ r hr
  have hreport : ∀ {r : σ} {t : τ}, P r ∧ f r = t → f (C.readReport r) = D.readReport t := by
    intro r t hrt
    rw [← hrt.2]
    exact h.readReport hrt.1
  unfold Carrier.rtmpDispatch handler
  rw [← hnote]
  dsimp only
  split_ifs
  · exact hreport (h.rChunksz hP msg)
  · exact hreport (h.rCtl hP msg)
  · exact hreport (h.rServerBw hP msg)
  · exact hreport (h.rClientBw hP msg)
  · exact hreport (h.counted hP msg _)
  · exact hreport (h.counted hP msg _)
  · exact hreport (h.call _ _ hP)
  · exact hreport (h.call _ _ hP)
  · rfl

end Shows
end Carrier
end Mayhem
