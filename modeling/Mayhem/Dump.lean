import Mathlib.Logic.Function.Basic
import Mayhem.Flv
import Mayhem.Naiad.Session

/-! The recorder of `dump.c`: what the callbacks of a session leave behind on the disk. -/
namespace Mayhem.Dump

open Flv

variable {ι : Type} [DecidableEq ι]

/-! ### Files -/

/-- The files, none where there is no such file, and the streams that are open, each with its file
and what has been written to it. That is sure to be in the file once the stream is closed. -/
structure Stdio (ι : Type) where
  files : ι → Option (List UInt8)
  streams : ℕ → Option (ι × List UInt8) := fun _ => none
  next : ℕ := 0

namespace Stdio

/-- `fopen(.., "w")` on the file that the name stands for, if it can be opened. -/
def fopen (s : Stdio ι) : Option ι → Stdio ι × Option ℕ
  | none => (s, none)
  | some i =>
    ({ files := Function.update s.files i (some [])
       streams := Function.update s.streams s.next (some (i, []))
       next := s.next + 1 }, some s.next)

/-- Output to a stream. None is the use of one that is not open. -/
def edit (s : Stdio ι) (f : ℕ) (g : List UInt8 → Option (List UInt8)) : Option (Stdio ι) := do
  let (i, written) ← s.streams f
  let written ← g written
  return { s with streams := Function.update s.streams f (some (i, written)) }

def fwrite (s : Stdio ι) (f : ℕ) (bs : List UInt8) : Option (Stdio ι) :=
  s.edit f fun written => some (written ++ bs)

def fclose (s : Stdio ι) (f : ℕ) : Option (Stdio ι) := do
  let (i, written) ← s.streams f
  return { s with
    files := Function.update s.files i (some written)
    streams := Function.update s.streams f none }

/-! ### `flv.c` on streams -/

def flvCreat (s : Stdio ι) (file : Option ι) : Option (Stdio ι × Option ℕ) :=
  match s.fopen file with
  | (s, none) => some (s, none)
  | (s, some f) => (s.fwrite f hdr).map fun s => (s, some f)

def flvRip (s : Stdio ι) (f : Option ℕ) (pkt : RtmpPkt) (buf : List UInt8) : Option (Stdio ι) :=
  match f with
  | none => some s
  | some f => s.edit f fun written => Flv.flvRip (some written) pkt buf

def flvClose (s : Stdio ι) : Option ℕ → Option (Stdio ι)
  | none => some s
  | some f => s.fclose f

end Stdio

/-! ### `dump.c` -/

/-- What `strftime` prints of a time with `%F-%H-%M-%S`. -/
abbrev TmText := { tm : CStr // tm.length ≤ 26 }

def UNKNOWN : CStr := Naiad.cstr "UNKNOWN"

/-- The callbacks that change something. A name stands for a file at the time that it is opened,
and `strdup` may fail. -/
inductive Event (ι : Type) where
  | NaiadAuthorize (bitch : Option CStr) (strdup : Bool)
  | play (tm : TmText) (fopen : CStr → Option ι)
  | rip (pkt : RtmpPkt) (buf : List UInt8)
  | stop
  | reset

structure Dumper (ι : Type) where
  stdio : Stdio ι
  bitch : Option CStr := none
  flv : Option ℕ := none

namespace Dumper

variable (d : Dumper ι)

def updateBitch (bitch : Option CStr) (strdup : Bool) : Dumper ι :=
  match if strdup then bitch else none with
  | none => d
  | some b => { d with bitch := some b }

/-- The name of the file, as far as `buf` has room for it. -/
def fileName (tm : TmText) : CStr :=
  let size := (match d.bitch with
    | some b => b.length
    | none => 64) + 128
  (d.bitch.getD UNKNOWN ++ Naiad.cstr "-" ++ tm.val ++ Naiad.cstr ".flv").take (size - 1)

def rip (pkt : RtmpPkt) (buf : List UInt8) : Option (Dumper ι) := do
  let stdio ← d.stdio.flvRip d.flv pkt buf
  return { d with stdio }

def play (tm : TmText) (fopen : CStr → Option ι) : Option (Dumper ι) := do
  let stdio ← d.stdio.flvClose d.flv
  let (stdio, flv) ← stdio.flvCreat (fopen (d.fileName tm))
  return { d with stdio, flv }

def stop : Option (Dumper ι) := do
  let stdio ← d.stdio.flvClose d.flv
  return { d with stdio, flv := none }

def reset : Option (Dumper ι) := do
  let stdio ← d.stdio.flvClose d.flv
  return { d with stdio, flv := none }

/-- `dumper_close`, which ends the program. -/
def dumperClose : Option (Stdio ι) := d.stdio.flvClose d.flv

def step : Event ι → Option (Dumper ι)
  | .NaiadAuthorize bitch strdup => some (d.updateBitch bitch strdup)
  | .play tm fopen => d.play tm fopen
  | .rip pkt buf => d.rip pkt buf
  | .stop => d.stop
  | .reset => d.reset

/-- `dumper_new` and the callbacks, with what is on the disk before. -/
def run (disk : ι → Option (List UInt8)) (es : List (Event ι)) : Option (Dumper ι) :=
  es.foldlM step { stdio := { files := disk } }

end Dumper

/-! ### What should be recorded -/

structure Recording (ι : Type) where
  file : ι
  pkts : List (RtmpPkt × List UInt8) := []

/-- The recordings that are over, the newest first, and the one that goes on. -/
structure Recorder (ι : Type) where
  past : List (Recording ι) := []
  now : Option (Recording ι) := none
  performer : Option CStr := none

namespace Recorder

variable (r : Recorder ι)

def finish : Recorder ι := { r with past := r.now.toList ++ r.past, now := none }

/-- A file for each performer and each time. -/
def title (tm : TmText) : CStr :=
  r.performer.getD UNKNOWN ++ Naiad.cstr "-" ++ tm.val ++ Naiad.cstr ".flv"

def step : Event ι → Recorder ι
  | .NaiadAuthorize bitch strdup =>
    { r with performer := (bitch.filter fun _ => strdup).or r.performer }
  | .play tm fopen => { r.finish with now := (fopen (r.title tm)).map fun file => { file } }
  | .rip pkt buf =>
    { r with now := r.now.map fun x => { x with pkts := x.pkts ++ [(pkt, buf)] } }
  | .stop | .reset => r.finish

end Recorder

/-- All recordings, the newest first. -/
def recordings (es : List (Event ι)) : List (Recording ι) :=
  (es.foldl Recorder.step {}).finish.past

/-! ### The recorder records it -/

variable {disk : ι → Option (List UInt8)} {d : Dumper ι} {r : Recorder ι} {s : Stdio ι}

/-- What is in a file: the last recording that has opened it, or what was there before. -/
def kept (disk : ι → Option (List UInt8)) (past : List (Recording ι)) (i : ι) :
    Option (List UInt8) :=
  match past.find? fun x => x.file = i with
  | some x => flvFile x.pkts
  | none => disk i

/-- The one stream that is open is that of the recording that goes on. -/
def Opened (s : Stdio ι) : Option ℕ → Option (Recording ι) → Prop
  | none, none => s.streams = fun _ => none
  | some f, some x => ∃ written, flvFile x.pkts = some written ∧
      s.streams = Function.update (fun _ => none) f (some (x.file, written))
  | _, _ => False

/-- What is on the disk, up to the file that is open. -/
structure Records (disk : ι → Option (List UInt8)) (s : Stdio ι) (flv : Option ℕ)
    (r : Recorder ι) : Prop where
  opened : Opened s flv r.now
  files : ∀ i, (∀ x ∈ r.now, x.file ≠ i) → s.files i = kept disk r.past i

omit [DecidableEq ι] in
theorem opened_cases {flv : Option ℕ} {now : Option (Recording ι)} (h : Opened s flv now) :
    (flv = none ∧ now = none) ∨ ∃ f x written, flv = some f ∧ now = some x ∧
      flvFile x.pkts = some written ∧ s.streams f = some (x.file, written) ∧
      s.streams = Function.update (fun _ => none) f (some (x.file, written)) := by
  cases flv with
  | none =>
    cases now with
    | none => exact .inl ⟨rfl, rfl⟩
    | some x => exact h.elim
  | some f =>
    cases now with
    | none => exact h.elim
    | some x =>
      obtain ⟨written, hwritten, hstreams⟩ := h
      have hf : s.streams f = some (x.file, written) := by
        rw [hstreams, Function.update_self]
      exact .inr ⟨f, x, written, rfl, rfl, hwritten, hf, hstreams⟩

theorem flvFile_append (pkts : List (RtmpPkt × List UInt8)) (p : RtmpPkt × List UInt8) :
    flvFile (pkts ++ [p]) = Flv.flvRip (flvFile pkts) p.1 p.2 := by
  simp only [flvFile, List.foldl_append, List.foldl_cons, List.foldl_nil]

theorem kept_cons (x : Recording ι) (past : List (Recording ι)) (i : ι) :
    kept disk (x :: past) i = if x.file = i then flvFile x.pkts else kept disk past i := by
  unfold kept
  by_cases h : x.file = i
  · rw [if_pos h, List.find?_cons_of_pos (by simpa using h)]
  · rw [if_neg h, List.find?_cons_of_neg (by simpa using h)]

/-- The stream is closed, and its recording is in the file. -/
theorem records_flvClose {flv : Option ℕ} (h : Records disk s flv r) :
    ∃ s', s.flvClose flv = some s' ∧ Records disk s' none r.finish := by
  obtain ⟨past, now, performer⟩ := r
  obtain ⟨hopened, hfiles⟩ := h
  have hopened : Opened s flv now := hopened
  obtain ⟨rfl, rfl⟩ | ⟨f, x, written, rfl, rfl, hwritten, hf, hstreams⟩ := opened_cases hopened
  · exact ⟨s, rfl, hopened, hfiles⟩
  · have hclose : s.flvClose (some f) = some { s with
        files := Function.update s.files x.file (some written)
        streams := Function.update s.streams f none } := by
      simp only [Stdio.flvClose, Stdio.fclose, hf]
      rfl
    refine ⟨_, hclose, ?_, ?_⟩
    · have hclosed : Function.update s.streams f none = fun _ => none := by
        rw [hstreams, Function.update_idem]
        exact Function.update_eq_self f _
      exact hclosed
    · intro i _
      have hkept : kept disk (x :: past) i = _ := kept_cons x past i
      apply Eq.trans _ hkept.symm
      -- the file of the recording that is over, or another
      by_cases hi : x.file = i
      · rw [if_pos hi, hwritten, ← hi]
        exact Function.update_self _ _ _
      · rw [if_neg hi, ← hfiles i (fun y hy => by
          obtain rfl := Option.some.inj hy
          exact hi)]
        exact Function.update_of_ne (Ne.symm hi) _ _

/-- A recording begins, if the file can be opened. -/
theorem records_flvCreat (h : Records disk s none r.finish) (file : Option ι) :
    ∃ s' flv, s.flvCreat file = some (s', flv) ∧
      Records disk s' flv { r.finish with now := file.map fun i => { file := i } } := by
  have hclosed : s.streams = fun _ => none := h.opened
  cases file with
  | none => exact ⟨s, none, rfl, h.opened, h.files⟩
  | some i =>
    have hcreat : s.flvCreat (some i) = some
        ({ files := Function.update s.files i (some [])
           streams := Function.update (Function.update s.streams s.next (some (i, []))) s.next
            (some (i, hdr))
           next := s.next + 1 }, some s.next) := by
      simp only [Stdio.flvCreat, Stdio.fopen, Stdio.fwrite, Stdio.edit, Function.update_self]
      rfl
    refine ⟨_, _, hcreat, ⟨hdr, rfl, ?_⟩, ?_⟩
    · rw [Function.update_idem, hclosed]
    · intro j hj
      have hne : i ≠ j := hj _ rfl
      rw [← h.files j (fun x hx => absurd hx (Option.not_mem_none x))]
      exact Function.update_of_ne (Ne.symm hne) _ _

/-- A packet goes to the recording, if there is one. -/
theorem records_flvRip {flv : Option ℕ} (h : Records disk s flv r) (pkt : RtmpPkt)
    (buf : List UInt8) : ∃ s', s.flvRip flv pkt buf = some s' ∧
      Records disk s' flv (r.step (.rip pkt buf)) := by
  obtain ⟨past, now, performer⟩ := r
  obtain ⟨hopened, hfiles⟩ := h
  have hopened : Opened s flv now := hopened
  obtain ⟨rfl, rfl⟩ | ⟨f, x, written, rfl, rfl, hwritten, hf, hstreams⟩ := opened_cases hopened
  · exact ⟨s, rfl, hopened, hfiles⟩
  · obtain ⟨more, hmore⟩ : ∃ more, Flv.flvRip (some written) pkt buf = some more :=
      ⟨_, flvRip_some (p := (pkt, buf)) written⟩
    have hrip : s.flvRip (some f) pkt buf = some { s with
        streams := Function.update s.streams f (some (x.file, more)) } := by
      simp only [Stdio.flvRip, Stdio.edit, hf]
      simp only [hmore, Option.bind_eq_bind, Option.bind_some]
      rfl
    refine ⟨_, hrip, ⟨more, ?_, ?_⟩, ?_⟩
    · rw [flvFile_append, hwritten, hmore]
    · rw [hstreams, Function.update_idem]
    · intro i hi
      exact hfiles i fun y hy => by
        obtain rfl := Option.some.inj hy
        exact hi { x with pkts := x.pkts ++ [(pkt, buf)] } rfl

omit [DecidableEq ι] in
/-- The buffer has room for the name. -/
theorem fileName_eq (h : d.bitch = r.performer) (tm : TmText) : d.fileName tm = r.title tm := by
  have htm := tm.2
  have hunknown : UNKNOWN.length = 7 := by decide
  have hdash : (Naiad.cstr "-").length = 1 := by decide
  have hflv : (Naiad.cstr ".flv").length = 4 := by decide
  unfold Dumper.fileName Recorder.title
  rw [← h]
  apply List.take_of_length_le
  cases d.bitch with
  | none =>
    simp only [Option.getD_none, List.length_append, hunknown, hdash, hflv]
    omega
  | some b =>
    simp only [Option.getD_some, List.length_append, hdash, hflv]
    omega

omit [DecidableEq ι] in
theorem updateBitch_eq (d : Dumper ι) (bitch : Option CStr) (strdup : Bool) :
    d.updateBitch bitch strdup =
      { d with bitch := (bitch.filter fun _ => strdup).or d.bitch } := by
  cases bitch with
  | none => cases strdup <;> rfl
  | some b => cases strdup <;> rfl

/-- The recorder of `dump.c` and what it should record. -/
structure Follows (disk : ι → Option (List UInt8)) (d : Dumper ι) (r : Recorder ι) : Prop where
  performer : d.bitch = r.performer
  records : Records disk d.stdio d.flv r

theorem follows_step (h : Follows disk d r) (e : Event ι) :
    ∃ d', d.step e = some d' ∧ Follows disk d' (r.step e) := by
  cases e with
  | NaiadAuthorize bitch strdup =>
    refine ⟨_, rfl, ?_, ?_⟩
    · rw [updateBitch_eq, h.performer]
      rfl
    · rw [updateBitch_eq]
      exact ⟨h.records.opened, h.records.files⟩
  | play tm fopen =>
    obtain ⟨s₁, hclose, h₁⟩ := records_flvClose h.records
    obtain ⟨s₂, flv, hcreat, h₂⟩ := records_flvCreat h₁ (fopen (r.title tm))
    have hplay : d.play tm fopen = some { d with stdio := s₂, flv } := by
      unfold Dumper.play
      rw [hclose, Option.bind_eq_bind, Option.bind_some, fileName_eq h.performer, hcreat]
      rfl
    exact ⟨_, hplay, h.performer, h₂⟩
  | rip pkt buf =>
    obtain ⟨s', hrip, h'⟩ := records_flvRip h.records pkt buf
    have hstep : d.rip pkt buf = some { d with stdio := s' } := by
      unfold Dumper.rip
      rw [hrip]
      rfl
    exact ⟨_, hstep, h.performer, h'⟩
  | stop | reset =>
    obtain ⟨s', hclose, h'⟩ := records_flvClose h.records
    refine ⟨{ d with stdio := s', flv := none }, ?_, h.performer, h'⟩
    simp only [Dumper.step, Dumper.stop, Dumper.reset, hclose]
    rfl

theorem follows_run (es : List (Event ι)) (h : Follows disk d r) :
    ∃ d', es.foldlM Dumper.step d = some d' ∧ Follows disk d' (es.foldl Recorder.step r) := by
  induction es generalizing d r with
  | nil => exact ⟨d, rfl, h⟩
  | cons e es ih =>
    obtain ⟨d₁, hstep, h₁⟩ := follows_step h e
    obtain ⟨d₂, hrun, h₂⟩ := ih h₁
    refine ⟨d₂, ?_, h₂⟩
    rw [List.foldlM_cons, hstep]
    exact hrun

/-- A file that no later recording has opened. -/
theorem kept_of_newest {newer older : List (Recording ι)} {x : Recording ι}
    (h : ∀ y ∈ newer, y.file ≠ x.file) :
    kept disk (newer ++ x :: older) x.file = flvFile x.pkts := by
  induction newer with
  | nil =>
    rw [List.nil_append, kept_cons, if_pos rfl]
  | cons y newer ih =>
    have hy := h y List.mem_cons_self
    rw [List.cons_append, kept_cons, if_neg hy]
    exact ih fun z hz => h z (List.mem_cons_of_mem _ hz)

theorem kept_of_none {past : List (Recording ι)} {i : ι} (h : ∀ x ∈ past, x.file ≠ i) :
    kept disk past i = disk i := by
  induction past with
  | nil => rfl
  | cons x past ih =>
    rw [kept_cons, if_neg (h x List.mem_cons_self)]
    exact ih fun y hy => h y (List.mem_cons_of_mem _ hy)

theorem readFlv_flvFile {pkts : List (RtmpPkt × List UInt8)}
    (hlen : ∀ p ∈ pkts, p.2.length < 2 ^ 24) :
    (flvFile pkts).bind readFlv = some (pkts.filter Kept) := by
  rw [flvFile_eq, Option.bind_some]
  exact readTags_records _ (length_le_records _) fun p hp => hlen p (List.mem_filter.mp hp).1

/-- Whatever the callbacks are, no stream is used that is not open, and all are closed at the end. A
recording is read back from its file unless a later one has opened it too, and other files are as
before. -/
theorem recordings_kept (disk : ι → Option (List UInt8)) (es : List (Event ι)) :
    ∃ d s, Dumper.run disk es = some d ∧ d.dumperClose = some s ∧ (∀ f, s.streams f = none) ∧
      (∀ newer x older, recordings es = newer ++ x :: older → (∀ y ∈ newer, y.file ≠ x.file) →
        (∀ p ∈ x.pkts, p.2.length < 2 ^ 24) →
        (s.files x.file).bind readFlv = some (x.pkts.filter Kept)) ∧
      ∀ i, (∀ x ∈ recordings es, x.file ≠ i) → s.files i = disk i := by
  have hnew : Follows disk { stdio := { files := disk } } {} := ⟨rfl, rfl, fun _ _ => rfl⟩
  obtain ⟨d, hrun, h⟩ := follows_run es hnew
  obtain ⟨s, hclose, hend⟩ := records_flvClose h.records
  have hfiles : ∀ i, s.files i = kept disk (recordings es) i :=
    fun i => hend.files i fun x hx => absurd hx (Option.not_mem_none x)
  have hclosed : s.streams = fun _ => none := hend.opened
  refine ⟨d, s, hrun, hclose, fun f => congrFun hclosed f, ?_, ?_⟩
  · intro newer x older hes hnewer hlen
    rw [hfiles, hes, kept_of_newest hnewer]
    exact readFlv_flvFile hlen
  · intro i hi
    rw [hfiles]
    exact kept_of_none hi

end Mayhem.Dump
