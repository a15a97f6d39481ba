import Zth.Perf.Escape
import Zth.Worker.Fiber

/-!
# Processing perf events

The events in the buffer are written to a VCD file: the names of fibers to the file with the
declarations, and the states of fibers, logs and markers to the file with the data. The buffer is
cleared afterwards, whether that succeeds or not.
-/

namespace Zth

namespace Perf

/-- A string that ends with a NUL. -/
abbrev CString := {s : Text // 0 ∉ s}

inductive Payload where
  | nothing
  | fiberName (str : Option CString)
  | fiberState (fiberState : Fiber.State)
  | log (str : Option CString)
  | marker (c_str : Option CString)

/-- An event, with the seconds and nanoseconds since the start. -/
structure Event where
  sec : BitVec 64
  nsec : BitVec 32
  fiber : BitVec 64
  payload : Payload

/-- The files, whether they could be opened, and the identifiers. -/
structure Vcd where
  opened : Bool
  vcd : Text
  vcdd : Text
  ids : VcdIds

/-- The files that `startVCD` leaves. -/
def Vcd.start (header : Text) : Vcd := ⟨true, header, [], fun _ => none⟩

def chars (s : String) : Text := s.toList.map fun c => UInt8.ofNat c.toNat

/-- `str` of a number -/
def decimal (n : ℕ) : Text :=
  (if n = 0 then [0] else (Nat.digits 10 n).reverse).map hexDigit

/-- `#%s%09u\n` -/
def Event.stamp (e : Event) : Text :=
  [35] ++ decimal e.sec.toNat ++ (decimal e.nsec.toNat).leftpad 9 48 ++ [10]

/-- The characters of a name that are not replaced. -/
def sanitized (s : Text) : Text := s.map fun c => if Printable c then c else 95

def stateChar : Fiber.State → UInt8
  | .new => 76
  | .ready => 48
  | .running => 49
  | .waiting => 87
  | .suspended => 90
  | .dead => 88
  | .uninitialized => 45

/-- Get the identifier of a fiber. -/
def Vcd.withId (v : Vcd) (fiber : BitVec 64) (k : Vcd → Text → Except Failure Vcd) :
    Except Failure Vcd :=
  match vcdId v.ids fiber with
  | some (ids, id) => k { v with ids := ids } id
  | none => .error .identifier

/-- One round of the loop of `processEventBuffer` -/
def processEvent (v : Vcd) (e : Event) : Except Failure Vcd :=
  match e.payload with
  | .nothing => .ok v
  | .fiberName (some str) =>
      v.withId e.fiber fun v id =>
        (fprintf v.vcd (chars "$var wire 1 " ++ id ++ chars " \\#" ++ decimal e.fiber.toNat ++
          chars "_" ++ sanitized str ++ chars " $end\n$var real 0 " ++ id ++ chars "! \\#" ++
          decimal e.fiber.toNat ++ chars "_" ++ sanitized str ++ chars "/log $end\n")).map
            fun vcd => { v with vcd := vcd }
  | .fiberName none =>
      v.withId e.fiber fun v id =>
        (fprintf v.vcd (chars "$var wire 1 " ++ id ++ chars " \\#" ++ decimal e.fiber.toNat ++
          chars "_Fiber $end\n$var real 0 " ++ id ++ chars "! \\#" ++ decimal e.fiber.toNat ++
          chars "_Fiber_log $end\n")).map fun vcd => { v with vcd := vcd }
  | .fiberState x =>
      v.withId e.fiber fun v id =>
        (fprintf v.vcdd (e.stamp ++ [stateChar x] ++ id ++ [10])).map fun vcdd =>
          { v with
            vcdd := vcdd
            ids := if x = .uninitialized then vcdIdRelease v.ids e.fiber else v.ids }
  | .log none | .marker none => .ok v
  | .log (some s) | .marker (some s) =>
      (fprintf v.vcdd (e.stamp ++ [115])).bind fun vcdd =>
        v.withId e.fiber fun v id =>
          (writeText vcdd s id).map fun vcdd => { v with vcdd := vcdd }

/-- The loop. It stops at an event that is not processed. -/
def processEvents : Vcd → List Event → Vcd × Option Failure
  | v, [] => (v, none)
  | v, e :: es =>
      match processEvent v e with
      | .ok v => processEvents v es
      | .error f => (v, some f)

/-- `processEventBuffer` returns the buffer, with whether all of it was processed. -/
def processEventBuffer (v : Vcd) (eb : List Event) : (Vcd × List Event) × Bool :=
  if v.opened then
    let (v, failure) := processEvents v eb
    ((v, []), failure.isNone)
  else ((v, []), false)

/-- The string of a log or a marker. -/
def Event.string (e : Event) : Option CString :=
  match e.payload with
  | .log s | .marker s => s
  | _ => none

/-- The string is escaped in every file that it can be written to: what is written for an event with
the string is the string with exactly the characters that cannot be printed escaped, between `s` and
a blank. Nothing is read behind the string, as that is a failure. -/
def EscapedCompletely (s : CString) : Prop :=
  ∀ header es v, processEvents (Vcd.start header) es = (v, none) → ∀ e : Event, e.string = some s →
    ∃ v' text, processEvent v e = .ok v' ∧
      v'.vcdd = v.vcdd ++ e.stamp ++ [115] ++ text ++ [32] ++ encode e.fiber.toNat ++ [33, 10] ∧
      text = escaped s ∧ ∀ c ∈ text, Printable c

/-- The buffer is cleared in any case. -/
theorem processEventBuffer_eb (v : Vcd) (eb : List Event) : (processEventBuffer v eb).1.2 = [] := by
  rw [processEventBuffer]
  split <;> rfl

theorem length_decimal {n k : ℕ} (hk : k ≠ 0) (hn : n < 10 ^ k) : (decimal n).length ≤ k := by
  rw [decimal, List.length_map]
  split
  · exact Nat.one_le_iff_ne_zero.2 hk
  · rw [List.length_reverse]
    exact (Nat.digits_length_le_iff (by decide) n).2 hn

theorem Event.length_stamp (e : Event) : e.stamp.length ≤ 32 := by
  have hsec := length_decimal (show 20 ≠ 0 by decide) (show e.sec.toNat < 10 ^ 20 by
    have hlt := e.sec.isLt
    omega)
  have hnsec := length_decimal (show 10 ≠ 0 by decide) (show e.nsec.toNat < 10 ^ 10 by
    have hlt := e.nsec.isLt
    omega)
  simp only [Event.stamp, List.length_append, List.length_leftpad, List.length_cons,
    List.length_nil]
  omega

/-- The identifier that is used is that of the fiber. -/
theorem Vcd.withId_eq {v : Vcd} (h : v.ids.Exact) (fiber : BitVec 64) :
    ∃ ids : VcdIds, ids.Exact ∧ ∀ k : Vcd → Text → Except Failure Vcd,
      v.withId fiber k = k { v with ids := ids } (encode fiber.toNat) := by
  obtain ⟨ids, heq, hids⟩ := vcdId_eq h fiber
  refine ⟨ids, hids, fun k => ?_⟩
  rw [Vcd.withId, heq]

theorem map_eq_ok {α β : Type*} {x : Except Failure α} {f : α → β} {b : β}
    (h : x.map f = .ok b) : ∃ a, x = .ok a ∧ f a = b := by
  cases x with
  | error e => cases h
  | ok a => exact ⟨a, rfl, Except.ok.inj h⟩

/-- What is written with the identifier of a fiber, if that keeps the identifiers. -/
theorem Vcd.exact_of_withId {v v' : Vcd} (h : v.ids.Exact) {fiber : BitVec 64}
    {k : Vcd → Text → Except Failure Vcd} (hok : v.withId fiber k = .ok v')
    (hk : ∀ (ids : VcdIds) (id : Text), ids.Exact → k { v with ids := ids } id = .ok v' →
      v'.ids.Exact) : v'.ids.Exact := by
  obtain ⟨ids, hids, heq⟩ := Vcd.withId_eq h fiber
  rw [heq] at hok
  exact hk ids _ hids hok

/-- The step lemma for the identifiers. -/
theorem processEvent_exact {v v' : Vcd} (h : v.ids.Exact) {e : Event}
    (hok : processEvent v e = .ok v') : v'.ids.Exact := by
  unfold processEvent at hok
  split at hok
  · cases hok
    exact h
  · refine Vcd.exact_of_withId h hok fun ids id hids hk => ?_
    obtain ⟨vcd, -, rfl⟩ := map_eq_ok hk
    exact hids
  · refine Vcd.exact_of_withId h hok fun ids id hids hk => ?_
    obtain ⟨vcd, -, rfl⟩ := map_eq_ok hk
    exact hids
  · refine Vcd.exact_of_withId h hok fun ids id hids hk => ?_
    obtain ⟨vcdd, -, rfl⟩ := map_eq_ok hk
    dsimp only
    split
    · -- The fiber is dead, and its identifier is released.
      apply hids.update
      intro t ht
      cases ht
    · exact hids
  · cases hok
    exact h
  · cases hok
    exact h
  all_goals
    cases hstamp : fprintf v.vcdd (e.stamp ++ [115]) with
    | error f =>
        rw [hstamp] at hok
        cases hok
    | ok vcdd =>
        rw [hstamp, Except.bind] at hok
        refine Vcd.exact_of_withId h hok fun ids id hids hk => ?_
        obtain ⟨vcdd', -, rfl⟩ := map_eq_ok hk
        exact hids

/-- The identifiers that are kept are those of the fibers, whatever was processed. -/
theorem processEvents_exact {v v' : Vcd} (h : v.ids.Exact) {es : List Event}
    (hok : processEvents v es = (v', none)) : v'.ids.Exact := by
  induction es generalizing v with
  | nil =>
      cases hok
      exact h
  | cons e es ih =>
      rw [processEvents] at hok
      cases hevent : processEvent v e with
      | ok w =>
          rw [hevent] at hok
          exact ih (processEvent_exact h hevent) hok
      | error f =>
          rw [hevent] at hok
          cases hok

/-- The text of an event is written behind its time. -/
theorem processEvent_string {v : Vcd} (h : v.ids.Exact) {e : Event} {s : CString}
    (he : e.string = some s) :
    ∃ ids, processEvent v e =
      (writeText (v.vcdd ++ e.stamp ++ [115]) s (encode e.fiber.toNat)).map fun vcdd =>
        { v with vcdd := vcdd, ids := ids } := by
  have hstamp : fprintf v.vcdd (e.stamp ++ [115]) = .ok (v.vcdd ++ e.stamp ++ [115]) := by
    rw [fprintf_eq_ok, List.append_assoc]
    refine ⟨?_, rfl⟩
    have hle := e.length_stamp
    rw [List.length_append, intMax, List.length_cons, List.length_nil]
    omega
  obtain ⟨ids, -, heq⟩ := Vcd.withId_eq h e.fiber
  refine ⟨ids, ?_⟩
  unfold Event.string at he
  unfold processEvent
  split at he
  · rename_i str hpayload
    rw [hpayload, he]
    dsimp only
    rw [hstamp, Except.bind, heq]
  · rename_i str hpayload
    rw [hpayload, he]
    dsimp only
    rw [hstamp, Except.bind, heq]
  · cases he

theorem ChunksFit.mono {rest rest' len : ℕ} (hle : rest' ≤ rest) {s : Text}
    (h : ChunksFit rest len s) : ChunksFit rest' len s := by
  induction s generalizing len with
  | nil => exact trivial
  | cons c s ih =>
      cases s with
      | nil =>
          rw [ChunksFit] at h ⊢
          omega
      | cons d s =>
          rw [ChunksFit] at h ⊢
          by_cases hc : Printable c
          · rw [if_pos hc] at h ⊢
            exact ih h
          · rw [if_neg hc] at h ⊢
            exact ⟨h.1, ih h.2⟩

/-- The longest of the identifiers. -/
theorem length_encode_allOnes : (encode (BitVec.allOnes 64).toNat).length = 10 := by
  have hlength : (convert (BitVec.allOnes 64)).map List.length = some 10 := by decide
  rw [convert_eq] at hlength
  exact Option.some.inj hlength

/-- Before anything was processed there are no identifiers. -/
theorem Vcd.start_exact (header : Text) : (Vcd.start header).ids.Exact :=
  fun _ _ h => nomatch h

/-- What a string is like that is escaped completely. -/
theorem EscapedCompletely.fits {s : CString} (h : EscapedCompletely s) :
    s.val ≠ [] ∧ (∀ c ∈ s.val.getLast?, Printable c) ∧ ChunksFit 13 0 s.val := by
  -- a fiber with the longest identifier
  let e : Event := ⟨0, 0, BitVec.allOnes 64, .log (some s)⟩
  obtain ⟨v', text, hok, hvcdd, htext, -⟩ := h [] [] _ rfl e rfl
  obtain ⟨ids, hevent⟩ := processEvent_string (Vcd.start_exact []) (show e.string = some s from rfl)
  rw [hevent] at hok
  obtain ⟨vcdd, hwrite, rfl⟩ := map_eq_ok hok
  obtain ⟨hne, hfit⟩ := (writeText_iff _ _ _).1 ⟨vcdd, hwrite⟩
  obtain ⟨t, c, hs, rfl⟩ := writeText_text hwrite
  rw [length_encode_allOnes] at hfit
  refine ⟨hne, ?_, hfit⟩
  intro d hd
  rw [hs, List.getLast?_concat] at hd
  obtain rfl := Option.some.inj hd
  dsimp only at hvcdd
  rw [htext, hs, escaped_append] at hvcdd
  simp only [List.append_assoc, List.append_cancel_left_eq] at hvcdd
  exact (escaped_singleton_eq_iff c).1 (List.append_cancel_right hvcdd).symm

/-- A string is escaped completely exactly if it is not empty, its last character can be printed,
and its chunks fit. -/
theorem escapedCompletely_iff (s : CString) :
    EscapedCompletely s ↔
      s.val ≠ [] ∧ (∀ c ∈ s.val.getLast?, Printable c) ∧ ChunksFit 13 0 s.val := by
  constructor
  · exact EscapedCompletely.fits
  · rintro ⟨hne, hlast, hfit⟩ header es v hes e he
    have hids := processEvents_exact (Vcd.start_exact header) hes
    obtain ⟨ids, hevent⟩ := processEvent_string hids he
    have hid := (isIdentifier_encode e.fiber).length
    obtain ⟨vcdd, hwrite⟩ := (writeText_iff (v.vcdd ++ e.stamp ++ [115]) s
      (encode e.fiber.toNat)).2 ⟨hne, hfit.mono (by omega)⟩
    obtain ⟨t, c, hs, hvcdd⟩ := writeText_text hwrite
    refine ⟨_, escaped s, by rw [hevent, hwrite]; rfl, ?_, rfl, printable_escaped s⟩
    have hc : Printable c := hlast c (by rw [hs, List.getLast?_concat]; rfl)
    dsimp only
    rw [hvcdd, hs, escaped_append, (escaped_singleton_eq_iff c).2 hc]

/-- A string that ends with a newline, and the empty one. -/
theorem not_escapedCompletely :
    ¬ EscapedCompletely ⟨[97, 10], by decide⟩ ∧ ¬ EscapedCompletely ⟨[], by decide⟩ := by
  refine ⟨fun h => ?_, fun h => h.fits.1 rfl⟩
  exact absurd (h.fits.2.1 10 rfl) (by decide)

end Perf

end Zth
