import Mayhem.Amf.RoundTrip
import Mayhem.Amf.Stores
import Mayhem.Rtmp.Delivery

/-! From `rtmp_invoke` and `rtmp_flex_invoke` on one side to the `pkt` callback of the proxy on the
other: `do_invoke` puts an invoke into a message, `rtmprox.c` takes it out again. -/
namespace Mayhem

open Amf (readBack)

/-- `do_invoke` up to `rtmp_send`: the message that is sent. None is a failed assertion or
`abort()` of the encoder, or a buffer of which not every byte is stored to. -/
def doInvoke (chan : OutChan) (dest : UInt32) (inv : Invoke) (type : UInt8) : Option OutMsg := do
  let sz ← amfInvokeBufSize inv
  let buf ← amfInvokeToBuf inv
  guard (buf.length = sz)
  let ts : UInt32 := if type = RTMP_MSG_FLEX_MESSAGE then 0x1191 else 1
  return ⟨chan, dest, ts, type, List.replicate (flexSz type) 0 ++ buf⟩

def rtmpInvoke (chan : OutChan) (dest : UInt32) (inv : Invoke) : Option OutMsg :=
  doInvoke chan dest inv RTMP_MSG_INVOKE

def rtmpFlexInvoke (chan : OutChan) (dest : UInt32) (inv : Invoke) : Option OutMsg :=
  doInvoke chan dest inv RTMP_MSG_FLEX_MESSAGE

/-- What the proxy prints of a packet behind its header. -/
inductive Dumped
  | invoke (inv : Invoke)
  | hex (buf : List UInt8)

/-- `pkt`: none is a failed assertion of the parser. -/
def Rtmprox.pkt (amf3 : List UInt8 → Option Amf × ℕ) (after : Memory) (msg : Msg) : Option Dumped :=
  if msg.type = RTMP_MSG_NOTIFY ∨ msg.type = RTMP_MSG_INVOKE then
    match (amfInvokeFromBuf amf3 (Memory.ofList msg.payload after) msg.payload.length).out with
    | .val inv => some (.invoke inv)
    | .null => some (.hex msg.payload)
    | .abort => none
  else some (.hex msg.payload)

/-- A call of `rtmp_invoke` or, with `flex`, of `rtmp_flex_invoke`. -/
structure Request where
  flex : Bool
  chan : OutChan
  dest : UInt32
  inv : Invoke

namespace Request

def message (q : Request) : Option OutMsg :=
  if q.flex then rtmpFlexInvoke q.chan q.dest q.inv else rtmpInvoke q.chan q.dest q.inv

/-- An invoke that the wire format can carry, on a channel that is written in one byte. -/
structure Ok (q : Request) : Prop where
  chan : 2 ≤ q.chan.val ∧ q.chan.val < 64
  args : q.inv ≠ []
  inv : q.inv.Ok
  clean : q.inv.Clean
  len : ∀ sz, amfInvokeBufSize q.inv = some sz → sz + 1 < 2 ^ 24

/-- What the proxy should show of it: the arguments, or the bytes behind the flex header. -/
def shown (q : Request) : Option Dumped :=
  if q.flex then (amfInvokeToBuf q.inv).map fun buf => .hex (0 :: buf)
  else some (.invoke q.inv.readBack)

variable {q : Request}

theorem invoke_ne_nil {inv : Invoke} {buf : List UInt8} (h : amfInvokeToBuf inv = some buf)
    (hne : inv ≠ []) : buf ≠ [] := by
  rintro rfl
  apply hne
  exact Stored.invoke_nil (m := fun _ => 0) (p := 0) ⟨[], h, rfl, rfl⟩

/-- The message carries the whole encoding. -/
theorem Ok.doInvoke (hq : q.Ok) : ∃ buf, amfInvokeToBuf q.inv = some buf ∧ buf ≠ [] ∧
    buf.length + 1 < 2 ^ 24 ∧
    q.message = some (if q.flex then ⟨q.chan, q.dest, 0x1191, RTMP_MSG_FLEX_MESSAGE, 0 :: buf⟩
      else ⟨q.chan, q.dest, 1, RTMP_MSG_INVOKE, buf⟩) := by
  obtain ⟨buf, hbuf, hsize⟩ := exists_invoke (fun a ha => (hq.inv a ha).sendable)
    fun a ha => (hq.inv a ha).shortKeys
  refine ⟨buf, hbuf, invoke_ne_nil hbuf hq.args, hq.len _ hsize, ?_⟩
  have hsend : ∀ type, Mayhem.doInvoke q.chan q.dest q.inv type = some ⟨q.chan, q.dest,
      if type = RTMP_MSG_FLEX_MESSAGE then 0x1191 else 1, type,
      List.replicate (flexSz type) 0 ++ buf⟩ := by
    intro type
    rw [Mayhem.doInvoke, hsize, hbuf]
    simp [guard]
  unfold message
  split_ifs
  · exact hsend _
  · exact hsend _

/-- The proxy reads the arguments back. -/
theorem Ok.pkt (hq : q.Ok) {buf : List UInt8} (hbuf : amfInvokeToBuf q.inv = some buf)
    (amf3 : List UInt8 → Option Amf × ℕ) (after : Memory) {msg : Msg}
    (htype : msg.type = RTMP_MSG_INVOKE) (hpayload : msg.payload = buf) :
    Rtmprox.pkt amf3 after msg = some (.invoke q.inv.readBack) := by
  have hstored : Stored (Memory.ofList buf after) 0 buf.length (amfInvokeToBuf q.inv) :=
    ⟨buf, hbuf, Memory.bytes_ofList _ _, (Nat.zero_add _).symm⟩
  have hout : (amfInvokeFromBuf amf3 (Memory.ofList buf after) buf.length).out =
      .val q.inv.readBack :=
    (parseArgs_out_iff [] hq.inv hq.clean.shallow hstored (Nat.sub_le _ _)).mpr hq.clean
  rw [Rtmprox.pkt, if_pos (.inr htype), hpayload, hout]

/-- The message of a request can be sent, and the proxy shows what it should. -/
theorem Ok.shown (hq : q.Ok) {x : OutMsg} (hx : q.message = some x) :
    (x.Ok ∧ x.chan.val < 64) ∧ ∀ amf3 after t, Rtmprox.pkt amf3 after (x.msgAt t) = q.shown := by
  obtain ⟨buf, hbuf, hne, hlen, hmsg⟩ := hq.doInvoke
  obtain rfl := Option.some.inj (hmsg.symm.trans hx)
  obtain ⟨hlow, hhigh⟩ := hq.chan
  unfold Request.shown
  split_ifs
  · refine ⟨⟨⟨hlow, (by decide : (0x1191 : UInt32).toNat < 0xffffff), nofun, hlen⟩, hhigh⟩, ?_⟩
    intro amf3 after t
    rw [hbuf, Rtmprox.pkt, if_neg]
    · rfl
    · exact (by decide : ¬ (RTMP_MSG_FLEX_MESSAGE = RTMP_MSG_NOTIFY ∨
        RTMP_MSG_FLEX_MESSAGE = RTMP_MSG_INVOKE))
  · refine ⟨⟨⟨hlow, (by decide : (1 : UInt32).toNat < 0xffffff), hne, Nat.lt_of_succ_lt hlen⟩, hhigh⟩, ?_⟩
    exact fun amf3 after t => hq.pkt hbuf amf3 after rfl rfl

end Request

/-- The messages of requests, and what is to be shown of them whatever the times. -/
theorem shown_of_messages {qs : List Request} (hqs : ∀ q ∈ qs, q.Ok) {xs : List OutMsg}
    (hxs : qs.map Request.message = xs.map some) (amf3 : List UInt8 → Option Amf × ℕ)
    (after : Memory) (t : ℕ → UInt32) : (∀ x ∈ xs, x.Ok ∧ x.chan.val < 64) ∧
      (handed t xs).map (Rtmprox.pkt amf3 after) = qs.map Request.shown := by
  induction xs generalizing qs t with
  | nil =>
    obtain rfl := List.map_eq_nil_iff.mp hxs
    exact ⟨nofun, rfl⟩
  | cons x xs ih =>
    obtain ⟨q, qs, rfl, hx, hrest⟩ := List.map_eq_cons_iff.mp hxs
    obtain ⟨hok, hshown⟩ := (hqs q List.mem_cons_self).shown hx
    obtain ⟨hoks, hall⟩ := ih (fun q' hq' => hqs q' (List.mem_cons_of_mem q hq')) hrest
      (Function.update t x.chan (t x.chan + x.ts))
    refine ⟨List.forall_mem_cons.mpr ⟨hok, hoks⟩, ?_⟩
    rw [handed, List.map_cons, List.map_cons, hshown, hall]

namespace Peers

variable {o : Owner} {p : ServerOwner} {s : Peers}

/-- Requests that the client sends behind its handshake are shown by the proxy one by one: the
arguments of every invoke as they are read back, in order, and nothing else; none is missing once
everything has been received and the server waits. -/
theorem requests_shown {heap stack heap' stack' : List Memory} {hs : List UInt8}
    {qs : List Request} {xs : List OutMsg}
    (hrun : Relation.ReflTransGen (Step o p) (start heap stack heap' stack') s)
    (hhs : hs.length = FULL_LEN) (hqs : ∀ q ∈ qs, q.Ok)
    (hxs : qs.map Request.message = xs.map some)
    (hsent : s.client.conn.sock.sent <+: wire hs xs)
    (amf3 : List UInt8 → Option Amf × ℕ) (after : Memory) :
    s.server.pkts.map (Rtmprox.pkt amf3 after) <+: qs.map Request.shown ∧
      (∀ ks rand, s.client.conn.sock.sent = wire hs xs → s.toServer = [] →
        s.server.mask = .read →
        ((s.server.answer ks).rtmpDrainBuf p rand).map Prod.snd = some none →
          s.server.pkts.map (Rtmprox.pkt amf3 after) = qs.map Request.shown) := by
  obtain ⟨hoks, hshown⟩ := shown_of_messages hqs hxs amf3 after fun _ => 0
  rw [← hshown]
  refine ⟨(pkts_front hrun hhs hoks hsent).map _, fun ks rand hall hnone hm hwait => ?_⟩
  rw [pkts_all hrun hhs hoks hall hnone hm hwait]

/-- The requests behind `greetings`. -/
def greetingRequests : List Request :=
  [⟨false, ⟨3, three_lt_chans⟩, 0, [some .null, some (.bool true)]⟩,
    ⟨true, ⟨3, three_lt_chans⟩, 0, [some .null]⟩]

theorem greetingRequests_ok : ∀ q ∈ greetingRequests, q.Ok := by
  intro q hq
  have hbool : Amf.Ok (.bool true) ∧ Amf.Clean (.bool true) := ⟨.bool, .bool⟩
  have hnull : Amf.Ok .null ∧ Amf.Clean .null := ⟨.null, .null⟩
  rcases List.mem_cons.mp hq with rfl | hq
  · refine ⟨by decide, List.cons_ne_nil _ _, ?_, ⟨?_, ?_⟩, ?_⟩
    · simpa [Invoke.Ok] using ⟨hnull.1, hbool.1⟩
    · simpa using ⟨hnull.2, hbool.2⟩
    · simp [EmptyString]
    · rintro sz hsz
      obtain rfl := Option.some.inj hsz
      decide
  · obtain rfl := List.mem_singleton.mp hq
    refine ⟨by decide, List.cons_ne_nil _ _, ?_, ⟨?_, ?_⟩, ?_⟩
    · simpa [Invoke.Ok] using hnull.1
    · simpa using hnull.2
    · simp [EmptyString]
    · rintro sz hsz
      obtain rfl := Option.some.inj hsz
      decide

theorem greetingRequests_messages : greetingRequests.map Request.message = greetings.map some := rfl

theorem requests_shown_talk : ∃ s : Peers,
    Relation.ReflTransGen (Step .silent .silent) (start [] [] [] []) s ∧
      s.server.pkts.map (Rtmprox.pkt (fun _ => (none, 0)) fun _ => 0) =
        [some (.invoke [some .null, some (.bool true)]), some (.hex [0, 5])] := by
  obtain ⟨s, hs, hrun, hhs, hsent, hnone, hm, hwait⟩ := talk_ends greetings_end
  obtain ⟨-, hend⟩ := requests_shown hrun hhs greetingRequests_ok greetingRequests_messages
    (hsent ▸ List.prefix_refl _)
    (fun _ => (none, 0)) fun _ => 0
  exact ⟨s, hrun, hend [] [] hsent hnone hm hwait⟩

end Peers
end Mayhem
