import Mayhem.Rtmp.Segmentation
import Mayhem.Rtmp.Server

/-! Streams of whole chunks, for a receiver whose chunk size stays what it is: the chunks alone
say what it makes of them, whatever lies behind each of them. -/
namespace Mayhem
namespace Endpoint

variable {σ : Type} (E : Endpoint σ)

/-- No message changes the chunk size. -/
def Steady : Prop := ∀ r msg, E.chunkSz (E.dispatch r msg) = E.chunkSz r

/-- Take the chunks of a stream one by one. -/
def acceptAll (r : σ) (cs : List Chunk) : σ := cs.foldl E.acceptChunk r

/-- Timestamp fields below the sentinel, and bodies as long as the receiver expects. -/
def WellFormed : σ → List Chunk → Prop
  | _, [] => True
  | r, c :: cs => c.Ok ∧ c.Fills (E.chunkSz r) (E.chan r c.chan) ∧ WellFormed (E.acceptChunk r c) cs

variable {E} {r : σ} {c : Chunk} {cs : List Chunk}

theorem Steady.acceptChunk (h : E.Steady) : E.chunkSz (E.acceptChunk r c) = E.chunkSz r := by
  unfold Endpoint.acceptChunk
  dsimp only
  split
  · rw [E.chunkSz_setChan]
  · rw [E.chunkSz_setChan, h]

theorem Steady.acceptAll (h : E.Steady) : E.chunkSz (E.acceptAll r cs) = E.chunkSz r := by
  induction cs generalizing r with
  | nil => rfl
  | cons c cs ih =>
    have hrest : E.chunkSz (E.acceptAll (E.acceptChunk r c) cs) = _ := ih
    exact hrest.trans h.acceptChunk

/-- A call takes the bytes of a whole chunk. -/
theorem takes_chunk (hc : c.Ok) (hts : c.hdr.htype = 3 → (E.chan r c.chan).curTs ≠ 0xffffff)
    (hfill : c.Fills (E.chunkSz r) (E.chan r c.chan)) : E.Takes r c.bytes (E.acceptChunk r c) := by
  intro m sz hsz hb
  have hpos := List.length_pos_iff.mpr c.bytes_ne_nil
  have hend := chunkEnd_head hc hts hfill ((Memory.bytes_append_iff _ 0 c.head c.body).mp hb).1
  rw [decodeRtmp_eq m (by omega), hend, if_neg (Nat.not_lt.mpr hsz), accept_eq hc hts hfill hb]

theorem WellFormed.sound (h : E.WellFormed r (c :: cs)) (hcs : 1 ≤ E.chunkSz r)
    (hs : Rtmp.Sound (E.chan r)) : Rtmp.Sound (E.chan (E.acceptChunk r c)) := by
  obtain ⟨hc, hfill, -⟩ := h
  rw [acceptChunk_chan]
  exact hs.leave hc hcs hfill

/-- The chunks of a stream are taken one behind the other. -/
theorem WellFormed.takesAll (h : E.WellFormed r cs) (hE : E.Steady) (hcs : 1 ≤ E.chunkSz r)
    (hs : Rtmp.Sound (E.chan r)) : E.TakesAll r (cs.map Chunk.bytes) (E.acceptAll r cs) := by
  induction cs generalizing r with
  | nil => exact .nil
  | cons c cs ih =>
    have hsound := h.sound hcs hs
    obtain ⟨hc, hfill, hrest⟩ := h
    refine .cons (takes_chunk hc (fun _ => hs.plain c.chan) hfill) ?_
    exact ih hrest (by rwa [hE.acceptChunk]) hsound

theorem WellFormed.sound_all (h : E.WellFormed r cs) (hE : E.Steady) (hcs : 1 ≤ E.chunkSz r)
    (hs : Rtmp.Sound (E.chan r)) : Rtmp.Sound (E.chan (E.acceptAll r cs)) := by
  induction cs generalizing r with
  | nil => exact hs
  | cons c cs ih =>
    have hsound := h.sound hcs hs
    exact ih h.2.2 (by rwa [hE.acceptChunk]) hsound

theorem WellFormed.append {ds : List Chunk} (h : E.WellFormed r cs)
    (hds : E.WellFormed (E.acceptAll r cs) ds) : E.WellFormed r (cs ++ ds) := by
  induction cs generalizing r with
  | nil => exact hds
  | cons c cs ih =>
    obtain ⟨hc, hfill, hrest⟩ := h
    exact ⟨hc, hfill, ih hrest hds⟩

theorem acceptAll_append (ds : List Chunk) :
    E.acceptAll r (cs ++ ds) = E.acceptAll (E.acceptAll r cs) ds :=
  List.foldl_append

/-- The bytes say what becomes of the receiver. -/
theorem TakesAll.unique {bs : List (List UInt8)} {r₁ r₂ : σ} (h₁ : E.TakesAll r bs r₁)
    (h₂ : E.TakesAll r bs r₂) : r₁ = r₂ := by
  have hsame := (h₁.feed fun _ => 0).symm.trans (h₂.feed fun _ => 0)
  exact Option.some.inj hsame

end Endpoint

namespace Rtmpd

variable {r : Rtmpd} {c : Chunk}

theorem steady : endpoint.Steady := fun _ _ => rfl

/-- What the callback was given stays given. -/
theorem acceptAll_pkts (cs : List Chunk) : r.pkts <+: (endpoint.acceptAll r cs).pkts := by
  induction cs generalizing r with
  | nil => exact List.prefix_refl _
  | cons c cs ih =>
    have hone : r.pkts <+: (endpoint.acceptChunk r c).pkts := by
      unfold Endpoint.acceptChunk
      dsimp only [endpoint]
      split
      · exact List.prefix_refl _
      · exact List.prefix_append _ _
    exact hone.trans ih

theorem acceptChunk_pkts :
    (endpoint.acceptChunk r c).pkts = r.pkts ++ (c.finishes (r.chan c.chan)).toList := by
  unfold Endpoint.acceptChunk
  dsimp only [endpoint]
  cases c.finishes (r.chan c.chan) with
  | none => exact (List.append_nil _).symm
  | some msg => rfl

end Rtmpd
end Mayhem
