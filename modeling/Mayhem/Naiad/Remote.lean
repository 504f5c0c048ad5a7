import Mayhem.Amf.Runs
import Mayhem.Naiad.Safety

/-! Invokes from the wire: a session survives those that are not `Fatal`, whatever comes of
the messages it sends. -/
namespace Mayhem.Naiad

open Parse Program

/-- The parser leaves no slot unset. -/
theorem parseArgs_full {amf3 : List UInt8 → Option Amf × ℕ} {mem : Memory} {fin : ℕ} (fuel : ℕ) :
    ∀ {p : ℕ} {inv inv' : Invoke}, Full inv →
      (parseArgs amf3 mem fin fuel p inv).out = .val inv' → Full inv' := by
  induction fuel with
  | zero =>
    intro p inv inv' hfull h
    obtain rfl := Outcome.val.inj h
    exact hfull
  | succ fuel ih =>
    intro p inv inv' hfull h
    rw [parseArgs] at h
    split_ifs at h
    · obtain rfl := Outcome.val.inj h
      exact hfull
    · rw [bind_out] at h
      split at h
      · refine ih (fun a ha => ?_) h
        rcases List.mem_append.mp ha with ha | ha
        · exact hfull a ha
        · rw [List.mem_singleton.mp ha]
          exact nofun
      · cases h
      · cases h

theorem invoke_ends_iff [Casts] (amf3 : List UInt8 → Option Amf × ℕ) (mem : Memory) (sz : ℕ)
    (inv : Invoke) (hinv : (amfInvokeFromBuf amf3 mem sz).out = .val inv) (m : Session) (hm : m.Live) :
    (∃ r m', invoke inv m = .ok (r, m') ∧ (r = 0 ∨ r = 1)) ↔ ¬ Fatal m inv := by
  have hfull : Full inv := parseArgs_full sz (fun _ ha => by cases ha) hinv
  constructor
  · rintro ⟨r, m', hrun, hr⟩ hfatal
    exact invoke_crashes hm hfull hfatal (ends_iff.mpr ⟨r, m', hrun, hr⟩ : Ends (invoke inv) m Bit)
  · intro hfatal
    exact ends_iff.mp (invoke_ends hm hfull hfatal)

/-- A session right behind the handshake, none of whose messages is held up. -/
def connecting : Session where
  rtmp := true
  ns := some { state := .connectSent }
  sakey := none
  vidpath := none
  ops := none
  state := .connecting
  sid := 0
  sends := fun _ => .sent

theorem connecting_live : connecting.Live := ⟨rfl, _, rfl⟩

/-- `close`, and nothing else. -/
theorem invoke_close :
    ∃ r m', invoke [some (.string (some (cstr "close")))] connecting = .ok (r, m') ∧
      (r = 0 ∨ r = 1) := by
  refine (invoke_ends_iff (fun _ => (none, 0))
    (.ofList [AMF_STRING, 0, 5, 0x63, 0x6c, 0x6f, 0x73, 0x65] fun _ => 0) 8
    [some (.string (some (cstr "close")))] rfl connecting connecting_live).mpr fun h => ?_
  have hname : ∀ name : CStr, amfInvokeGet [some (.string (some (cstr "close")))] 0 =
      some (.string (some name)) → cstr "close" = name := fun name h => by
    simpa [amfInvokeGet] using h
  cases h with
  | method h => simp [amfInvokeGet] at h
  | authorized h | userList h | set h | result h | error h | onStatus h =>
    exact absurd (hname _ h) (by decide)

/-- The four bytes 02 00 00 05 are an invoke of the empty string, on which `strcmp` gets NULL. -/
theorem invoke_emptyString :
    (amfInvokeFromBuf (fun _ => (none, 0)) (.ofList [AMF_STRING, 0, 0, AMF_NULL] fun _ => 0) 4).out =
        .val [some (.string none), some .null] ∧
      connecting.Live ∧
      invoke [some (.string none), some .null] connecting = .error .nullString :=
  ⟨rfl, connecting_live, rfl⟩

end Mayhem.Naiad
