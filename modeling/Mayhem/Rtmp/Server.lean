import Mayhem.Rtmp.Decode

/-! `rtmpd.c`: the server's decoder. Its dispatcher only hands the packet to the
`pkt` callback, so the chunk size it decodes with never changes. -/
namespace Mayhem

/-- The part of `struct _rtmpd` that the decoder uses, with the packets handed to
the callback so far. -/
structure Rtmpd where
  chunkSz : ℕ
  chan : ChanTable
  pkts : List Msg

namespace Rtmpd

/-- A receiver as `calloc` leaves it, but for its chunk size. -/
def fresh (chunkSz : ℕ) : Rtmpd := ⟨chunkSz, fun _ => {}, []⟩

def rtmpDispatch (r : Rtmpd) (msg : Msg) : Rtmpd := { r with pkts := r.pkts ++ [msg] }

def endpoint : Endpoint Rtmpd where
  chunkSz := chunkSz
  chan := chan
  setChan r t := { r with chan := t }
  dispatch := rtmpDispatch
  chan_setChan _ _ := rfl
  setChan_setChan _ _ _ := rfl
  chunkSz_setChan _ _ := rfl
  dispatch_setChan _ _ _ := rfl

def decodeRtmp (r : Rtmpd) (m : Memory) (sz : ℕ) : Rtmpd × Option ℕ :=
  endpoint.decodeRtmp r m sz

/-- Decode complete chunks one after another, each call taking exactly one. -/
def feed (after : Memory) (r : Rtmpd) (cs : List (List UInt8)) : Option Rtmpd :=
  endpoint.feed after r cs

/-- A chunk hands over the packet it completes. -/
theorem accept_pkts (r : Rtmpd) (m : Memory) :
    (endpoint.accept r m).pkts = r.pkts ++ (completed r.chunkSz m r.chan).toList := by
  unfold Endpoint.accept completed
  dsimp only [endpoint]
  split_ifs
  · rfl
  · exact (List.append_nil _).symm

end Rtmpd

/-- The buffers `rtmpd_send` passes to `rtmp_send_raw`. -/
def rtmpdSendChunks (stack : Memory) (chunkSz : ℕ) (chan : OutChan) (dest ts : UInt32)
    (type : UInt8) (pkt : List UInt8) : List (List UInt8) :=
  sendChunks stack chunkSz chan dest ts type pkt

end Mayhem
