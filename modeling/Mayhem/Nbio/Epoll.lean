import Mayhem.Nbio.Lists

/-! `nbio-epoll.c`, the event loop of a thread on `epoll`. -/
namespace Mayhem

def EPOLLIN : UInt32 := 0x001
def EPOLLOUT : UInt32 := 0x004
def EPOLLERR : UInt32 := 0x008
def EPOLLHUP : UInt32 := 0x010
def EPOLLET : UInt32 := 0x80000000

structure Epoll where
  /-- The events that the kernel was asked for, by the `nbio` it was given. -/
  interest : ℕ → Option UInt32 := fun _ => none
  /-- Which calls of `EPOLL_CTL_ADD` fail. -/
  fails : ℕ → Bool := fun _ => false
  adds : ℕ := 0

namespace Epoll

def active (t : Iothread Epoll) (n : ℕ) : Iothread Epoll :=
  if (t.nbio n).evPriv = 0 then t
  else if (t.nbio n).fd < 0 then t
  else
    let t := t.modify n fun io => { io with evPriv := 0 }
    { t with priv := { t.priv with interest := Function.update t.priv.interest n none } }

/-- What the kernel is asked for. -/
def events (mask : UInt8) : UInt32 :=
  EPOLLERR ||| EPOLLHUP ||| EPOLLET |||
    (if mask &&& NBIO_READ ≠ 0 then EPOLLIN else 0) |||
    (if mask &&& NBIO_WRITE ≠ 0 then EPOLLOUT else 0)

def inactive (t : Iothread Epoll) (n : ℕ) : Iothread Epoll :=
  if (t.nbio n).evPriv = 1 then t
  else
    let failed := t.priv.fails t.priv.adds
    let t := { t with priv := { t.priv with adds := t.priv.adds + 1 } }
    if failed then t
    else
      let ev := events (t.nbio n).mask
      let t := { t with
        priv := { t.priv with interest := Function.update t.priv.interest n (some ev) } }
      t.modify n fun io => { io with evPriv := 1 }

def flags (ev : UInt32) : UInt8 :=
  (if ev &&& (EPOLLIN ||| EPOLLHUP) ≠ 0 then NBIO_READ else 0) |||
    (if ev &&& EPOLLOUT ≠ 0 then NBIO_WRITE else 0) |||
    (if ev &&& EPOLLERR ≠ 0 then NBIO_ERROR else 0)

def event (t : Iothread Epoll) (ev : ℕ × UInt32) : Iothread Epoll :=
  (t.modify ev.1 fun io => { io with flags := flags ev.2 }).moveTail ev.1 .active

/-- `epoll_wait` returns up to eight events, none if it fails. -/
def Pump (t : Iothread Epoll) (evs : List (ℕ × UInt32)) (t' : Iothread Epoll) : Prop :=
  evs.length ≤ 8 ∧ (∀ ev ∈ evs, (t.priv.interest ev.1).isSome) ∧ t' = evs.foldl event t

theorem foldl_event (t : Iothread Epoll) (evs : List (ℕ × UInt32)) :
    evs.foldl event t =
      (evs.map fun ev => (ev.1, flags ev.2)).foldl Iothread.report t := by
  rw [List.foldl_map]
  rfl

theorem active_agrees (t : Iothread Epoll) (n : ℕ) : t.Agrees (active t n) := by
  unfold active
  split_ifs
  · exact .refl t
  · exact .refl t
  · have h := (Iothread.Agrees.refl t).modify (n := n) (f := fun io => { io with evPriv := 0 })
      (fun _ => rfl) fun _ => rfl
    exact ⟨h.links, h.mask, h.flags⟩

theorem inactive_agrees (t : Iothread Epoll) (n : ℕ) : t.Agrees (inactive t n) := by
  unfold inactive
  dsimp only
  split_ifs
  · exact .refl t
  · exact ⟨rfl, fun _ => rfl, fun _ => rfl⟩
  · refine Iothread.Agrees.modify ?_ (fun _ => rfl) fun _ => rfl
    exact ⟨rfl, fun _ => rfl, fun _ => rfl⟩

end Epoll

def epoll : Backend Epoll (List (ℕ × UInt32)) where
  inactive := Epoll.inactive
  active := Epoll.active
  pump := Epoll.Pump
  watched p n := (p.interest n).isSome
  inactive_agrees := Epoll.inactive_agrees
  active_agrees := Epoll.active_agrees
  inactive_watched t n m hm := by
    by_cases hmn : m = n
    · exact .inl hmn
    · right
      unfold Epoll.inactive at hm
      dsimp only at hm
      split_ifs at hm
      · exact hm
      · exact hm
      · simpa [hmn] using hm
  active_watched t n m hm := by
    unfold Epoll.active at hm
    dsimp only at hm
    split_ifs at hm
    · exact hm
    · exact hm
    · by_cases hmn : m = n
      · subst hmn
        simp at hm
      · simpa [hmn] using hm
  pump_reports t evs t' lists _ hpump := by
    obtain ⟨-, hall, rfl⟩ := hpump
    rw [Epoll.foldl_event]
    refine ⟨_, fun ev hev => .inl ?_, .refl _, fun m hm => ?_⟩
    · obtain ⟨ev, hev', rfl⟩ := List.mem_map.mp hev
      exact hall ev hev'
    · rwa [Iothread.report_priv] at hm

end Mayhem
