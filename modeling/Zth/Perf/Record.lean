import Zth.Perf.Buffer
import Zth.Perf.Read

/-!
# What is recorded is read back

Events wait in the buffer, are processed at any time, and are written to the file then. The file as
it would be if the buffer was processed now grows by exactly the events that are recorded, so
processing loses and repeats nothing, whenever it is done. The perf fiber records events of its own
in between.
-/

namespace Zth

namespace Perf

theorem fprintf_ok {file s : Text} (hs : s.length ≤ intMax) :
    fprintf file s = .ok (file ++ s) := fprintf_eq_ok.2 ⟨hs, rfl⟩

theorem length_sanitized (s : Text) : (sanitized s).length = s.length := List.length_map _

theorem length_decimal_fiber (fiber : BitVec 64) : (decimal fiber.toNat).length ≤ 20 :=
  length_decimal (by decide) (by
    have hlt := fiber.isLt
    omega)

/-- The declarations of a fiber fit in the result of a write. -/
theorem length_named (fiber : BitVec 64) (name : Text) (hname : name.length ≤ 10 ^ 9) :
    (chars "$var wire 1 " ++ encode fiber.toNat ++ chars " \\#" ++ decimal fiber.toNat ++
      chars "_" ++ name ++ chars " $end\n$var real 0 " ++ encode fiber.toNat ++ chars "! \\#" ++
      decimal fiber.toNat ++ chars "_" ++ name ++ chars "/log $end\n").length ≤ intMax := by
  have hid := (isIdentifier_encode fiber).length
  have hdecimal := length_decimal_fiber fiber
  have h₁ : (chars "$var wire 1 ").length = 12 := rfl
  have h₂ : (chars " \\#").length = 3 := rfl
  have h₃ : (chars "_").length = 1 := rfl
  have h₄ : (chars " $end\n$var real 0 ").length = 18 := rfl
  have h₅ : (chars "! \\#").length = 4 := rfl
  have h₆ : (chars "/log $end\n").length = 10 := rfl
  simp only [List.length_append, h₁, h₂, h₃, h₄, h₅, h₆, intMax]
  omega

theorem length_unnamed (fiber : BitVec 64) :
    (chars "$var wire 1 " ++ encode fiber.toNat ++ chars " \\#" ++ decimal fiber.toNat ++
      chars "_Fiber $end\n$var real 0 " ++ encode fiber.toNat ++ chars "! \\#" ++
      decimal fiber.toNat ++ chars "_Fiber_log $end\n").length ≤ intMax := by
  have hid := (isIdentifier_encode fiber).length
  have hdecimal := length_decimal_fiber fiber
  have h₁ : (chars "$var wire 1 ").length = 12 := rfl
  have h₂ : (chars " \\#").length = 3 := rfl
  have h₃ : (chars "_Fiber $end\n$var real 0 ").length = 24 := rfl
  have h₄ : (chars "! \\#").length = 4 := rfl
  have h₅ : (chars "_Fiber_log $end\n").length = 16 := rfl
  simp only [List.length_append, h₁, h₂, h₃, h₄, h₅, intMax]
  omega

/-- A state and its identifier fit. -/
theorem length_state (e : Event) (x : Fiber.State) :
    (e.stamp ++ [stateChar x] ++ encode e.fiber.toNat ++ [10]).length ≤ intMax := by
  have hid := (isIdentifier_encode e.fiber).length
  have hstamp := e.length_stamp
  simp only [List.length_append, List.length_singleton, intMax]
  omega

/-- What is left of the files when an event was processed. -/
structure Vcd.Wrote (v v' : Vcd) (text : Text) : Prop where
  opened : v'.opened = v.opened
  ids : v'.ids.Exact
  vcdd : v'.vcdd = v.vcdd ++ text

/-- The string of an event that can be written. -/
theorem processEvent_text {v : Vcd} (h : v.ids.Exact) {e : Event} {s : CString}
    (he : e.string = some s) (hne : s.val ≠ []) (hlast : ∀ c ∈ s.val.getLast?, Printable c)
    (hfit : ChunksFit 13 0 s.val) :
    ∃ v', processEvent v e = .ok v' ∧ v'.opened = v.opened ∧
      v'.vcdd = v.vcdd ++ e.stamp ++ [115] ++ escaped s ++ [32] ++ encode e.fiber.toNat ++
        [33, 10] := by
  obtain ⟨ids, hevent⟩ := processEvent_string h he
  have hid := (isIdentifier_encode e.fiber).length
  obtain ⟨vcdd, hwrite⟩ := (writeText_iff (v.vcdd ++ e.stamp ++ [115]) s
    (encode e.fiber.toNat)).2 ⟨hne, hfit.mono (by omega)⟩
  obtain ⟨t, c, hs, hvcdd⟩ := writeText_text hwrite
  have hc : Printable c := hlast c (by rw [hs, List.getLast?_concat]; rfl)
  refine ⟨{ v with vcdd := vcdd, ids := ids }, by rw [hevent, hwrite]; rfl, rfl, ?_⟩
  dsimp only
  rw [hvcdd, hs, escaped_append, (escaped_singleton_eq_iff c).2 hc]

/-- An event that can be written is processed. -/
theorem processEvent_writable {v : Vcd} (h : v.ids.Exact) {e : Event} (he : e.Writable) :
    ∃ v', processEvent v e = .ok v' ∧ v.Wrote v' e.text := by
  suffices hok : ∃ v', processEvent v e = .ok v' ∧ v'.opened = v.opened ∧
      v'.vcdd = v.vcdd ++ e.text by
    obtain ⟨v', hok, hopened, hvcdd⟩ := hok
    exact ⟨v', hok, hopened, processEvent_exact h hok, hvcdd⟩
  obtain ⟨ids, -, hwith⟩ := Vcd.withId_eq h e.fiber
  have hpayload := he.2
  cases hp : e.payload with
  | nothing => exact ⟨v, by simp only [processEvent, hp], rfl, by simp [Event.text, hp]⟩
  | fiberName str =>
      cases str with
      | none =>
          have hok : ∃ vcd, processEvent v e = .ok { v with ids := ids, vcd := vcd } := by
            rw [processEvent, hp]
            dsimp only
            rw [hwith, fprintf_ok (length_unnamed e.fiber)]
            exact ⟨_, rfl⟩
          obtain ⟨vcd, hok⟩ := hok
          exact ⟨_, hok, rfl, by simp [Event.text, hp]⟩
      | some str =>
          rw [hp] at hpayload
          have hlength := length_named e.fiber (sanitized str)
            (by rw [length_sanitized]; exact hpayload)
          have hok : ∃ vcd, processEvent v e = .ok { v with ids := ids, vcd := vcd } := by
            rw [processEvent, hp]
            dsimp only
            rw [hwith, fprintf_ok hlength]
            exact ⟨_, rfl⟩
          obtain ⟨vcd, hok⟩ := hok
          exact ⟨_, hok, rfl, by simp [Event.text, hp]⟩
  | fiberState x =>
      have hok : ∃ ids, processEvent v e = .ok { v with
          vcdd := v.vcdd ++ (e.stamp ++ [stateChar x] ++ encode e.fiber.toNat ++ [10])
          ids := ids } := by
        rw [processEvent, hp]
        dsimp only
        rw [hwith, fprintf_ok (length_state e x)]
        exact ⟨_, rfl⟩
      obtain ⟨ids', hok⟩ := hok
      exact ⟨_, hok, rfl, by rw [Event.text, hp]⟩
  | log str =>
      cases str with
      | none => exact ⟨v, by simp only [processEvent, hp], rfl, by simp [Event.text, hp]⟩
      | some s =>
          rw [hp] at hpayload
          obtain ⟨v', hok, hopened, hvcdd⟩ := processEvent_text h
            (show e.string = some s by rw [Event.string, hp]) hpayload.1 hpayload.2.1 hpayload.2.2
          exact ⟨v', hok, hopened, by simp [hvcdd, Event.text, hp]⟩
  | marker str =>
      cases str with
      | none => exact ⟨v, by simp only [processEvent, hp], rfl, by simp [Event.text, hp]⟩
      | some s =>
          rw [hp] at hpayload
          obtain ⟨v', hok, hopened, hvcdd⟩ := processEvent_text h
            (show e.string = some s by rw [Event.string, hp]) hpayload.1 hpayload.2.1 hpayload.2.2
          exact ⟨v', hok, hopened, by simp [hvcdd, Event.text, hp]⟩

/-- All events of the buffer are processed. -/
theorem processEvents_writable {v : Vcd} (h : v.ids.Exact) {es : List Event}
    (hes : ∀ e ∈ es, e.Writable) :
    ∃ v', processEvents v es = (v', none) ∧ v.Wrote v' (es.flatMap Event.text) := by
  induction es generalizing v with
  | nil => exact ⟨v, rfl, rfl, h, (List.append_nil _).symm⟩
  | cons e es ih =>
      obtain ⟨v₁, hok, hopened, hids, hvcdd⟩ := processEvent_writable h (hes e List.mem_cons_self)
      obtain ⟨v', hrest, hopened', hids', hvcdd'⟩ :=
        ih hids fun e he => hes e (List.mem_cons_of_mem _ he)
      refine ⟨v', ?_, hopened'.trans hopened, hids', ?_⟩
      · rw [processEvents, hok]
        exact hrest
      · rw [hvcdd', hvcdd, List.flatMap_cons, List.append_assoc]

namespace Recorder

variable {cap : ℕ} {now : ℕ → BitVec 64 × BitVec 32} {s t : Recorder}

/-- The file as it would be if the buffer was processed now. -/
def contents (s : Recorder) : Text := s.vcd.vcdd ++ s.eb.flatMap Event.text

/-- Whatever is in the buffer can be written. -/
structure Ready (s : Recorder) : Prop where
  opened : s.vcd.opened = true
  ids : s.vcd.ids.Exact
  eb : ∀ e ∈ s.eb, e.Writable

/-- Events were recorded, and nothing else was. -/
structure Recorded (es : List Event) (s t : Recorder) : Prop where
  ready : t.Ready
  contents : t.contents = s.contents ++ es.flatMap Event.text
  writable : ∀ e ∈ es, e.Writable

theorem Recorded.refl (h : s.Ready) : Recorded [] s s :=
  ⟨h, (List.append_nil _).symm, by simp⟩

theorem Recorded.trans {u : Recorder} {es es' : List Event} (h : Recorded es s t)
    (h' : Recorded es' t u) : Recorded (es ++ es') s u := by
  refine ⟨h'.ready, ?_, fun e he => (List.mem_append.1 he).elim (h.writable e) (h'.writable e)⟩
  rw [h'.contents, h.contents, List.flatMap_append, List.append_assoc]

theorem Ready.push (h : s.Ready) {e : Event} (he : e.Writable) :
    Recorded [e] s (s.push e) := by
  refine ⟨⟨h.opened, h.ids, fun e' he' => ?_⟩, ?_, by simpa using he⟩
  · rcases List.mem_append.1 he' with he' | he'
    · exact h.eb e' he'
    · rw [List.mem_singleton.1 he']
      exact he
  · simp [contents, Recorder.push, List.append_assoc]

/-- Processing moves the events of the buffer to the file. -/
theorem Ready.process (h : s.Ready) : Recorded [] s s.process ∧ s.process.eb = [] := by
  obtain ⟨v', hok, hopened, hids, hvcdd⟩ := processEvents_writable h.ids h.eb
  have hprocess : processEventBuffer s.vcd s.eb = ((v', []), true) := by
    rw [processEventBuffer, if_pos h.opened, hok]
    rfl
  have heq : s.process = { s with vcd := v', eb := [] } := by
    rw [Recorder.process, hprocess]
  rw [heq]
  refine ⟨⟨⟨hopened.trans h.opened, hids, by simp⟩, ?_, by simp⟩, rfl⟩
  simp [contents, hvcdd]

/-- The clock gives times that can be written. -/
def Ticks (now : ℕ → BitVec 64 × BitVec 32) : Prop := ∀ n, (now n).2.toNat < 10 ^ 9

theorem writable_fiberState (hnow : Ticks now) (n : ℕ) (fiber : BitVec 64) (x : Fiber.State) :
    Event.Writable ⟨(now n).1, (now n).2, fiber, .fiberState x⟩ := ⟨hnow n, trivial⟩

/-- Only the buffer and the files matter. -/
theorem Recorded.congr {es : List Event} {u : Recorder} (h : Recorded es s t)
    (heb : u.eb = t.eb) (hvcd : u.vcd = t.vcd) : Recorded es s u := by
  refine ⟨⟨by rw [hvcd]; exact h.ready.opened, by rw [hvcd]; exact h.ready.ids,
    by rw [heb]; exact h.ready.eb⟩, ?_, h.writable⟩
  rw [← h.contents, Recorder.contents, Recorder.contents, heb, hvcd]

theorem Recorded.nextTick {es : List Event} (h : Recorded es s t) : Recorded es s t.nextTick :=
  h.congr rfl rfl

/-- What a flush records, if it does: the state of the perf fiber, when that is resumed, or, when
the buffer is almost full, that the current fiber hands over to the perf fiber and gets back. -/
inductive Flush (now : ℕ → BitVec 64 × BitVec 32) (s : Recorder) : List Event → Prop
  | resumed (n : ℕ) (x : Fiber.State) :
      Flush now s [⟨(now n).1, (now n).2, s.id, .fiberState x⟩]
  | emergency (n : ℕ) (x : Fiber.State) {id : BitVec 64} {state : Fiber.State}
      (h : s.current = .other id state) :
      Flush now s [⟨(now n).1, (now n).2, s.id, .marker (some emergFlush)⟩,
        ⟨(now n).1, (now n).2, id, .fiberState .ready⟩,
        ⟨(now n).1, (now n).2, s.id, .fiberState .running⟩,
        ⟨(now (n + 1)).1, (now (n + 1)).2, s.id, .fiberState x⟩,
        ⟨(now (n + 1)).1, (now (n + 1)).2, id, .fiberState state⟩]

/-- What some flushes record. An event of one may start another. -/
def Flushed (now : ℕ → BitVec 64 × BitVec 32) (s : Recorder) (es : List Event) : Prop :=
  ∃ bs : List (List Event), es = bs.flatten ∧ ∀ b ∈ bs, Flush now s b

theorem flushed_nil : Flushed now s [] := ⟨[], rfl, by simp⟩

theorem Flush.flushed {es : List Event} (h : Flush now s es) : Flushed now s es :=
  ⟨[es], by simp, by simpa using h⟩

theorem Flushed.append {es es' : List Event} (h : Flushed now s es) (h' : Flushed now s es') :
    Flushed now s (es ++ es') := by
  obtain ⟨bs, rfl, hbs⟩ := h
  obtain ⟨bs', rfl, hbs'⟩ := h'
  refine ⟨bs ++ bs', List.flatten_append.symm, fun b hb => ?_⟩
  exact (List.mem_append.1 hb).elim (hbs b) (hbs' b)

/-- Only the perf fiber and the current one matter. -/
theorem Flushed.congr {es : List Event} {u : Recorder} (h : Flushed now s es) (hid : u.id = s.id)
    (hcurrent : u.current = s.current) : Flushed now u es := by
  obtain ⟨bs, rfl, hbs⟩ := h
  refine ⟨bs, rfl, fun b hb => ?_⟩
  cases hbs b hb with
  | resumed n x => exact hid ▸ .resumed n x
  | emergency n x hother => exact hid ▸ .emergency n x (hcurrent.trans hother)

/-- Only such events were recorded. -/
def RecordedOwn (now : ℕ → BitVec 64 × BitVec 32) (s t : Recorder) : Prop :=
  ∃ es, Flushed now s es ∧ Recorded es s t

theorem RecordedOwn.refl (h : s.Ready) : RecordedOwn now s s := ⟨[], flushed_nil, .refl h⟩

theorem Ready.recordedOwn_process (h : s.Ready) : RecordedOwn now s s.process :=
  ⟨[], flushed_nil, h.process.1⟩

theorem Ready.pushNow (h : s.Ready) (hnow : Ticks now) (fiber : BitVec 64) (x : Fiber.State) :
    Recorded [⟨(now s.tick).1, (now s.tick).2, fiber, .fiberState x⟩] s
      (s.pushNow now fiber (.fiberState x)) :=
  h.push (writable_fiberState hnow s.tick fiber x)

/-- The buffer is processed in between the events of the flush. -/
theorem recordedOwn_emergency (hnow : Ticks now) (h : s.Ready) (f : Fiber) {id : BitVec 64}
    {state : Fiber.State} (hcurrent : s.current = .other id state) :
    RecordedOwn now s (s.emergency now f id state) := by
  have hmarker : Event.Writable ⟨(now s.tick).1, (now s.tick).2, s.id,
      .marker (some emergFlush)⟩ := by
    refine ⟨hnow s.tick, by decide, ?_, ?_⟩
    · intro c hc
      obtain rfl : 104 = c := Option.mem_some_iff.1 hc
      decide
    · simp [emergFlush, ChunksFit, Printable, intMax]
  have h₁ : Recorded _ s (s.pushNow now s.id (.marker (some emergFlush))) := h.push hmarker
  have h₂ := h₁.trans (h₁.ready.pushNow hnow id .ready)
  have h₃ := h₂.trans (h₂.ready.pushNow hnow s.id .running)
  have h₄ := (h₃.trans h₃.ready.process.1).nextTick
  have h₅ := h₄.trans (h₄.ready.pushNow hnow s.id f.state)
  have h₆ := h₅.trans (h₅.ready.pushNow hnow id state)
  exact ⟨_, (Flush.emergency s.tick f.state hcurrent).flushed, h₆.congr rfl rfl⟩

/-- What is required of the events that are recorded while the buffer is flushed. -/
def Records (now : ℕ → BitVec 64 × BitVec 32)
    (perfEvent : Event → Recorder → Except Stop Recorder) : Prop :=
  ∀ e s t, s.Ready → e.Writable → perfEvent e s = .ok t →
    ∃ es, Flushed now s es ∧ Recorded (e :: es) s t

theorem recordedOwn_resume {perfEvent : Event → Recorder → Except Stop Recorder} {f : Fiber}
    (hrec : Records now perfEvent) (hnow : Ticks now) (h : s.Ready)
    (ht : resume now perfEvent f s = .ok t) : RecordedOwn now s t := by
  rw [resume] at ht
  split at ht
  · obtain rfl := Except.ok.inj ht
    exact .refl h
  · split at ht
    · obtain rfl := Except.ok.inj ht
      exact ⟨[], flushed_nil, (Recorded.refl h).congr rfl rfl⟩
    · have hs : Recorded [] s { s with fiber := some f.resume, tick := s.tick + 1 } :=
        (Recorded.refl h).congr rfl rfl
      obtain ⟨es, hes, hrecorded⟩ := hrec _ _ t hs.ready
        (writable_fiberState hnow s.tick s.id f.resume.state) ht
      have hstate : Flush now s _ := .resumed s.tick f.resume.state
      have hown := hstate.flushed.append (hes.congr rfl rfl)
      exact ⟨_, hown, hs.trans hrecorded⟩

theorem recordedOwn_flushEventBuffer {perfEvent : Event → Recorder → Except Stop Recorder}
    (hrec : Records now perfEvent) (hnow : Ticks now) (h : s.Ready)
    (ht : flushEventBuffer cap now perfEvent s = .ok t) : RecordedOwn now s t := by
  simp only [flushEventBuffer] at ht
  split at ht
  · obtain rfl := Except.ok.inj ht
    exact h.recordedOwn_process
  · split at ht
    · obtain rfl := Except.ok.inj ht
      exact h.recordedOwn_process
    · split at ht
      · exact recordedOwn_resume hrec hnow h ht
      · split at ht
        · rename_i hcurrent
          obtain rfl := Except.ok.inj ht
          exact recordedOwn_emergency hnow h _ hcurrent
        · obtain rfl := Except.ok.inj ht
          exact h.recordedOwn_process
        · obtain rfl := Except.ok.inj ht
          exact h.recordedOwn_process

/-- An event is recorded, and maybe what flushes record behind it. -/
theorem records_perfEvent (hnow : Ticks now) (depth : ℕ) :
    Records now (perfEvent cap now depth) := by
  induction depth with
  | zero =>
      intro e s t h he ht
      cases ht
  | succ depth ih =>
      intro e s t h he ht
      have hpush := h.push he
      suffices hown : RecordedOwn now (s.push e) t by
        obtain ⟨es, hes, hrecorded⟩ := hown
        exact ⟨es, hes.congr rfl rfl, hpush.trans hrecorded⟩
      rw [perfEvent] at ht
      split at ht
      · cases ht
      · split at ht
        · exact recordedOwn_flushEventBuffer ih hnow hpush.ready ht
        · obtain rfl := Except.ok.inj ht
          exact .refl hpush.ready

/-- The event of an action. -/
def Action.event? : Action → Option Event
  | .event e => some e
  | .process | .switch _ _ => none

/-- The events of the actions, each with what the flushes behind it record. -/
inductive Follows (cap : ℕ) (now : ℕ → BitVec 64 × BitVec 32) :
    Recorder → List Action → List Event → Prop
  | nil (s : Recorder) : Follows cap now s [] []
  | cons {s t : Recorder} {a : Action} {as : List Action} {own es : List Event}
      (ht : step cap now s a = some t) (hown : Flushed now s own)
      (hnone : a.event? = none → own = []) (h : Follows cap now t as es) :
      Follows cap now s (a :: as) (a.event?.toList ++ own ++ es)

theorem Follows.sublist {as : List Action} {es : List Event} (h : Follows cap now s as es) :
    (as.filterMap Action.event?).Sublist es := by
  induction h with
  | nil s => exact List.Sublist.refl _
  | @cons s t a as own es ht hown hnone h ih =>
      have hhead := List.sublist_append_left a.event?.toList own
      cases hev : a.event? with
      | none => simpa [List.filterMap_cons, hev] using ih.trans (List.sublist_append_right own es)
      | some e =>
          rw [hev] at hhead
          simpa [List.filterMap_cons, hev] using hhead.append ih

/-- The step lemma. -/
theorem recorded_step (hnow : Ticks now) (h : s.Ready) {a : Action}
    (ha : ∀ e, a.event? = some e → e.Writable) (ht : step cap now s a = some t) :
    ∃ own, Flushed now s own ∧ (a.event? = none → own = []) ∧
      Recorded (a.event?.toList ++ own) s t := by
  cases a with
  | event e =>
      rw [step] at ht
      cases hev : perfEvent cap now 2 e s with
      | error stop =>
          rw [hev] at ht
          cases ht
      | ok t' =>
          rw [hev] at ht
          obtain rfl := Option.some.inj ht
          obtain ⟨es, hown, hes⟩ := records_perfEvent hnow 2 e s t' h (ha e rfl) hev
          exact ⟨es, hown, by simp [Action.event?], hes⟩
  | process =>
      obtain rfl := Option.some.inj ht
      exact ⟨[], flushed_nil, fun _ => rfl, h.process.1⟩
  | switch current fiber =>
      obtain rfl := Option.some.inj ht
      exact ⟨[], flushed_nil, fun _ => rfl, (Recorded.refl h).congr rfl rfl⟩

/-- The run lemma. -/
theorem recorded_run (hnow : Ticks now) {as : List Action} (h : s.Ready)
    (has : ∀ a ∈ as, ∀ e, a.event? = some e → e.Writable)
    (hr : Transition.run (step cap now) s as = some t) :
    ∃ es, Follows cap now s as es ∧ Recorded es s t := by
  induction as generalizing s with
  | nil =>
      obtain rfl := Option.some.inj hr
      exact ⟨[], .nil s, .refl h⟩
  | cons a as ih =>
      obtain ⟨s', hs', hr⟩ := Transition.run_cons_eq_some_iff.1 hr
      obtain ⟨own, hown, hnone, hes⟩ := recorded_step hnow h (has a List.mem_cons_self) hs'
      obtain ⟨es, hfollows, hes'⟩ :=
        ih hes.ready (fun b hb => has b (List.mem_cons_of_mem a hb)) hr
      exact ⟨_, .cons hs' hown hnone hfollows, hes.trans hes'⟩

/-- Whatever is recorded that can be written, and whenever the buffer is processed: the file is read
back as the changes of all events that were recorded, in order, each followed by nothing else but
what flushing the buffer records. -/
theorem recorded_events_read_back (cap : ℕ) (now : ℕ → BitVec 64 × BitVec 32) (hnow : Ticks now)
    (header : Text) (fiber : Option Fiber) (id : BitVec 64) (current : Current)
    (as : List Action) (has : ∀ a ∈ as, ∀ e, a.event? = some e → e.Writable) (t : Recorder)
    (hr : Transition.run (step cap now) ⟨[], Vcd.start header, fiber, id, current, 0, 0⟩ as =
      some t) :
    ∃ es, Follows cap now ⟨[], Vcd.start header, fiber, id, current, 0, 0⟩ as es ∧
      (as.filterMap Action.event?).Sublist es ∧
      readChanges t.process.vcd.vcdd = some (es.filterMap Event.change) := by
  obtain ⟨es, hfollows, hes⟩ := recorded_run hnow ⟨rfl, Vcd.start_exact header, by simp⟩ has hr
  obtain ⟨hprocess, heb⟩ := hes.ready.process
  refine ⟨es, hfollows, hfollows.sublist, ?_⟩
  have hcontents := (hes.trans hprocess).contents
  rw [contents, heb, List.append_nil] at hcontents
  rw [← readChanges_flatMap hes.writable]
  simpa [contents, Vcd.start] using congrArg readChanges hcontents

/-- Fiber 2 runs and logs a text with a newline, fiber 3 dies and fiber 4 is new. The buffer is half
full then, so the perf fiber is resumed, and at the event of that the buffer is almost full. -/
def flushed : List Action :=
  [.event ⟨0, 5, 2, .fiberState .running⟩, .event ⟨1, 999999999, 2, .log (some ⟨[104, 10, 105],
    by decide⟩)⟩, .event ⟨2, 0, 3, .fiberState .dead⟩, .event ⟨3, 0, 4, .fiberState .new⟩]

/-- Before that, nothing was recorded. -/
def flushedFrom : Recorder :=
  ⟨[], Vcd.start [], some ⟨.suspended, .ready, true, true⟩, 1, .other 2 .running, 0, 0⟩

theorem recorded_events_read_back_flushed :
    ∃ t es, Transition.run (step 8 fun n => (BitVec.ofNat 64 n, 0)) flushedFrom flushed = some t ∧
      t.peak = 8 ∧ t.eb.length = 2 ∧
      Follows 8 (fun n => (BitVec.ofNat 64 n, 0)) flushedFrom flushed es ∧
      (flushed.filterMap Action.event?).Sublist es ∧
      readChanges t.process.vcd.vcdd = some (es.filterMap Event.change) := by
  have hwritable : ∀ a ∈ flushed, ∀ e, a.event? = some e → e.Writable := by
    simp only [flushed, List.mem_cons, List.not_mem_nil, or_false]
    rintro a (rfl | rfl | rfl | rfl) e he
    · obtain rfl := Option.some.inj he
      exact ⟨by decide, trivial⟩
    · obtain rfl := Option.some.inj he
      refine ⟨by decide, by decide, ?_, by simp [ChunksFit, Printable, intMax]⟩
      intro c hc
      obtain rfl : 105 = c := Option.mem_some_iff.1 hc
      decide
    · obtain rfl := Option.some.inj he
      exact ⟨by decide, trivial⟩
    · obtain rfl := Option.some.inj he
      exact ⟨by decide, trivial⟩
  obtain ⟨es, hes⟩ := recorded_events_read_back 8 (fun n => (BitVec.ofNat 64 n, 0))
    (fun _ => show (0 : ℕ) < 10 ^ 9 by decide) [] (some ⟨.suspended, .ready, true, true⟩) 1
    (.other 2 .running) flushed hwritable _ rfl
  exact ⟨_, es, rfl, rfl, rfl, hes⟩

end Recorder

end Perf

end Zth
