import Zth.Library.Run
import Zth.Perf.Process

/-!
# The buffer of perf events

An event is appended to a buffer, which is flushed from a threshold on. Usually that only resumes
the perf fiber, which processes the buffer later. The state of the perf fiber changes by that, so
there is another event in the middle of flushing. When there is hardly any room left, the buffer is
processed right away, and when there is just enough room for it, that is recorded in the buffer
itself.

The capacity is the one that was reserved, and the threshold is half of it.
-/

namespace Zth

namespace Perf

/-- The current fiber of the worker. -/
inductive Current where
  | worker
  | perf
  | other (id : BitVec 64) (state : Fiber.State)
deriving DecidableEq, Repr

/-- The recording of perf events: the buffer, the files, the perf fiber and its number, and the
current fiber. The clock is read for the `tick`th time. The code does not have `peak`: it is the
largest size that the buffer had. -/
structure Recorder where
  eb : List Event
  vcd : Vcd
  fiber : Option Fiber
  id : BitVec 64
  current : Current
  tick : ℕ
  peak : ℕ

/-- The reasons for which an event is not recorded: the assertion of `perf_event` fails, or events
are nested deeper than was allowed. -/
inductive Recorder.Stop where
  | assertion
  | depth
deriving DecidableEq, Repr

/-- `"Emerg flush"` -/
def emergFlush : CString :=
  ⟨[69, 109, 101, 114, 103, 32, 102, 108, 117, 115, 104], by decide⟩

namespace Recorder

variable (cap : ℕ) (now : ℕ → BitVec 64 × BitVec 32)

/-- Append an event to the buffer. -/
def push (e : Event) (s : Recorder) : Recorder :=
  { s with eb := s.eb ++ [e], peak := max s.peak (s.eb.length + 1) }

/-- Append an event of the current tick to the buffer. -/
def pushNow (fiber : BitVec 64) (payload : Payload) (s : Recorder) : Recorder :=
  s.push ⟨(now s.tick).1, (now s.tick).2, fiber, payload⟩

def nextTick (s : Recorder) : Recorder := { s with tick := s.tick + 1 }

/-- `processEventBuffer` -/
def process (s : Recorder) : Recorder :=
  { s with vcd := (processEventBuffer s.vcd s.eb).1.1, eb := (processEventBuffer s.vcd s.eb).1.2 }

/-- `Worker::resume` of the perf fiber, with what is done with an event. There is an event if the
state of the fiber changes. -/
def resume (perfEvent : Event → Recorder → Except Stop Recorder) (f : Fiber) (s : Recorder) :
    Except Stop Recorder :=
  if f.state ≠ .suspended then .ok s
  else if f.resume.state = .suspended then .ok { s with fiber := some f.resume }
  else
    perfEvent ⟨(now s.tick).1, (now s.tick).2, s.id, .fiberState f.resume.state⟩
      { s with fiber := some f.resume, tick := s.tick + 1 }

/-- The branch of `flushEventBuffer` for a buffer that is almost full. -/
def emergency (f : Fiber) (id : BitVec 64) (state : Fiber.State) (s : Recorder) : Recorder :=
  let s := s.pushNow now s.id (.marker (some emergFlush))
  let s := s.pushNow now id (.fiberState .ready)
  let s := s.pushNow now s.id (.fiberState .running)
  let s := s.process.nextTick
  let s := s.pushNow now s.id (.fiberState f.state)
  (s.pushNow now id (.fiberState state)).nextTick

def flushEventBuffer (perfEvent : Event → Recorder → Except Stop Recorder) (s : Recorder) :
    Except Stop Recorder :=
  let spareRoom := cap - s.eb.length
  match s.fiber with
  | none => .ok s.process
  | some f =>
      if s.current = .perf ∨ spareRoom < 3 then .ok s.process
      else if spareRoom > 3 then resume now perfEvent f s
      else
        match s.current with
        | .other id state => .ok (s.emergency now f id state)
        | .worker | .perf => .ok s.process

/-- `perf_event`, where events may be nested as deep as is given. -/
def perfEvent : ℕ → Event → Recorder → Except Stop Recorder
  | 0, _, _ => .error .depth
  | depth + 1, e, s =>
      let s := s.push e
      if cap < s.eb.length then .error .assertion
      else if cap / 2 ≤ s.eb.length then flushEventBuffer cap now (perfEvent depth) s
      else .ok s

/-- What happens to the recording: an event is recorded, the perf fiber processes the buffer, or
the worker goes on with another fiber or another state of the perf fiber. -/
inductive Action where
  | event (e : Event)
  | process
  | switch (current : Current) (fiber : Option Fiber)

/-- An event may be recorded while another one is. -/
def step (s : Recorder) : Action → Option Recorder
  | .event e => (perfEvent cap now 2 e s).toOption
  | .process => some s.process
  | .switch current fiber => some { s with current := current, fiber := fiber }

/-- There are four places left in the buffer, and there never were more events than places. -/
structure HasRoom (s : Recorder) : Prop where
  room : s.eb.length + 4 ≤ cap
  le_peak : s.eb.length ≤ s.peak
  peak : s.peak ≤ cap

/-- The perf fiber would be resumed. -/
def Suspended (s : Recorder) : Prop := ∃ f, s.fiber = some f ∧ f.state = .suspended

variable {cap now} {s : Recorder}

@[simp] theorem length_push (e : Event) (s : Recorder) :
    (s.push e).eb.length = s.eb.length + 1 := List.length_append

@[simp] theorem length_process (s : Recorder) : s.process.eb.length = 0 := by
  rw [process, processEventBuffer_eb]
  rfl

/-- Processing leaves room. -/
theorem hasRoom_process (hcap : 4 ≤ cap) (hpeak : s.peak ≤ cap) : HasRoom cap s.process :=
  ⟨by rw [length_process]; exact hcap, by rw [length_process]; exact Nat.zero_le _, hpeak⟩

theorem le_peak_push (e : Event) (s : Recorder) : (s.push e).eb.length ≤ (s.push e).peak := by
  rw [length_push]
  exact Nat.le_max_right _ _

/-- An event takes one of the places. -/
theorem HasRoom.push (h : HasRoom cap s) (e : Event) :
    (s.push e).eb.length + 3 ≤ cap ∧ (s.push e).peak ≤ cap := by
  have hroom := h.room
  have hpeak := h.peak
  refine ⟨by rw [length_push]; omega, ?_⟩
  exact Nat.max_le.2 ⟨hpeak, by omega⟩

/-- Three events more fill the buffer, and two are in it when it was processed. -/
theorem hasRoom_emergency (hcap : 8 ≤ cap) (f : Fiber) (id : BitVec 64) (state : Fiber.State)
    (hroom : s.eb.length + 3 ≤ cap) (hpeak : s.peak ≤ cap) :
    HasRoom cap (s.emergency now f id state) := by
  refine ⟨?_, le_peak_push _ _, ?_⟩
  · simp only [emergency, pushNow, nextTick, push, List.length_append, length_process,
      List.length_singleton]
    omega
  · simp only [emergency, pushNow, nextTick, push, process, processEventBuffer_eb,
      List.length_append, List.length_singleton, List.length_nil]
    omega

/-- What is required of the events that are recorded while the buffer is flushed. -/
def Nests (cap : ℕ) (perfEvent : Event → Recorder → Except Stop Recorder) : Prop :=
  ∀ e s, HasRoom cap s → ¬ Suspended s → ∃ t, perfEvent e s = .ok t ∧ HasRoom cap t

/-- The fiber is not suspended anymore when the event of its resumption is recorded. -/
theorem exists_resume {perfEvent : Event → Recorder → Except Stop Recorder} {f : Fiber}
    (hf : s.fiber = some f) (hnests : Suspended s → Nests cap perfEvent) (h : HasRoom cap s) :
    ∃ t, resume now perfEvent f s = .ok t ∧ HasRoom cap t := by
  rw [resume]
  by_cases hstate : f.state = .suspended
  · rw [if_neg (not_not_intro hstate)]
    by_cases hresume : f.resume.state = .suspended
    · rw [if_pos hresume]
      exact ⟨_, rfl, h.room, h.le_peak, h.peak⟩
    · rw [if_neg hresume]
      refine hnests ⟨f, hf, hstate⟩ _ _ ⟨h.room, h.le_peak, h.peak⟩ ?_
      rintro ⟨f', hf', hstate'⟩
      obtain rfl := Option.some.inj hf'
      exact hresume hstate'
  · rw [if_pos hstate]
    exact ⟨s, rfl, h⟩

/-- Flushing leaves room, if there are three places left. -/
theorem exists_flushEventBuffer {perfEvent : Event → Recorder → Except Stop Recorder}
    (hcap : 8 ≤ cap) (hnests : Suspended s → Nests cap perfEvent)
    (hroom : s.eb.length + 3 ≤ cap) (hle : s.eb.length ≤ s.peak) (hpeak : s.peak ≤ cap) :
    ∃ t, flushEventBuffer cap now perfEvent s = .ok t ∧ HasRoom cap t := by
  have hprocess := hasRoom_process (show 4 ≤ cap by omega) hpeak
  unfold flushEventBuffer
  cases hf : s.fiber with
  | none => exact ⟨_, rfl, hprocess⟩
  | some f =>
      dsimp only
      by_cases hnow : s.current = .perf ∨ cap - s.eb.length < 3
      · rw [if_pos hnow]
        exact ⟨_, rfl, hprocess⟩
      · rw [if_neg hnow]
        by_cases hlater : cap - s.eb.length > 3
        · rw [if_pos hlater]
          exact exists_resume hf hnests ⟨by omega, hle, hpeak⟩
        · rw [if_neg hlater]
          split
          · exact ⟨_, rfl, hasRoom_emergency hcap f _ _ hroom hpeak⟩
          · exact ⟨_, rfl, hprocess⟩
          · exact ⟨_, rfl, hprocess⟩

/-- An event is recorded, if the events that it causes can be. -/
theorem exists_perfEvent_succ {depth : ℕ} (hcap : 8 ≤ cap)
    (hnests : Suspended s → Nests cap (perfEvent cap now depth)) (e : Event) (h : HasRoom cap s) :
    ∃ t, perfEvent cap now (depth + 1) e s = .ok t ∧ HasRoom cap t := by
  obtain ⟨hroom, hpeak⟩ := h.push e
  rw [perfEvent, if_neg (by omega)]
  by_cases hthreshold : cap / 2 ≤ (s.push e).eb.length
  · rw [if_pos hthreshold]
    exact exists_flushEventBuffer hcap hnests hroom (le_peak_push e s) hpeak
  · rw [if_neg hthreshold]
    exact ⟨_, rfl, by omega, le_peak_push e s, hpeak⟩

/-- The step lemma: no more than one event is recorded while another one is. -/
theorem exists_step (hcap : 8 ≤ cap) (a : Action) (h : HasRoom cap s) :
    ∃ t, step cap now s a = some t ∧ HasRoom cap t := by
  cases a with
  | event e =>
      have hnests : Nests cap (perfEvent cap now 1) := fun e s hs hrunning =>
        exists_perfEvent_succ hcap (fun hsuspended => absurd hsuspended hrunning) e hs
      obtain ⟨t, ht, hroom⟩ := exists_perfEvent_succ hcap (fun _ => hnests) e h
      exact ⟨t, congrArg Except.toOption ht, hroom⟩
  | process => exact ⟨_, rfl, hasRoom_process (by omega) h.peak⟩
  | switch current fiber => exact ⟨_, rfl, h.room, h.le_peak, h.peak⟩

/-- The buffer never overflows: whatever events are recorded, in whatever context, all of them are,
no assertion fails, and the buffer is never larger than its capacity. -/
theorem perfEvent_never_overflows (hcap : 8 ≤ cap) (now : ℕ → BitVec 64 × BitVec 32)
    (s : Recorder) (hroom : s.eb.length < cap / 2) (hpeak : s.peak = s.eb.length)
    (as : List Action) :
    ∃ t, Transition.run (step cap now) s as = some t ∧ t.eb.length ≤ t.peak ∧ t.peak ≤ cap := by
  have hstart : HasRoom cap s := ⟨by omega, hpeak.ge, by omega⟩
  have hstep : ∀ s a, HasRoom cap s → ∃ t, step cap now s a = some t ∧ HasRoom cap t :=
    fun s a h => exists_step hcap a h
  obtain ⟨t, ht, h⟩ := Transition.exists_run_invariant hstep hstart as
  exact ⟨t, ht, h.le_peak, h.peak⟩

/-- The smallest buffer, while another fiber runs and the perf fiber is not resumed in time. -/
theorem perfEvent_never_overflows_eight :
    ∃ t, Transition.run (step 8 fun n => (BitVec.ofNat 64 n, 0))
        ⟨[], Vcd.start [], some ⟨.suspended, .ready, true, true⟩, 1, .other 2 .running, 0, 0⟩
        (List.replicate 20 (.event ⟨0, 0, 2, .fiberState .running⟩)) = some t ∧
      t.eb.length ≤ t.peak ∧ t.peak ≤ 8 :=
  perfEvent_never_overflows (by decide) _ _ (by decide) rfl _

end Recorder

end Perf

end Zth
