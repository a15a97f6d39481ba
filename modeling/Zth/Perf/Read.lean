import Zth.Perf.Process

/-!
# Reading a VCD file

A reader of the changes in a VCD file, as a viewer does it: line by line, with a time and a change
in turn. What is written for the events is read back as their times, fibers, states and texts. A
text is read as it was escaped: a backslash is not escaped itself, so the string that a text was
made of cannot be told for sure.
-/

namespace Zth

namespace Perf

/-- The value that a signal changes to. -/
inductive Value where
  | state (x : Fiber.State)
  | text (s : Text)
deriving DecidableEq, Repr

/-- A change, with the nanoseconds since the start. -/
structure Change where
  time : ℕ
  fiber : ℕ
  value : Value
deriving DecidableEq, Repr

def Event.time (e : Event) : ℕ := e.sec.toNat * 10 ^ 9 + e.nsec.toNat

/-- What an event tells of its fiber. -/
def Event.change (e : Event) : Option Change :=
  match e.payload with
  | .fiberState x => some ⟨e.time, e.fiber.toNat, .state x⟩
  | .log (some s) | .marker (some s) => some ⟨e.time, e.fiber.toNat, .text (escaped s)⟩
  | .log none | .marker none | .nothing | .fiberName _ => none

section Reader

def readDigit (c : UInt8) : Option ℕ := if 48 ≤ c ∧ c ≤ 57 then some (c.toNat - 48) else none

def readNumber (s : Text) : Option ℕ :=
  if s = [] then none else (s.mapM readDigit).map fun ds => Nat.ofDigits 10 ds.reverse

def readTime : Text → Option ℕ
  | [] => none
  | c :: s => if c = 35 then readNumber s else none

def readId (id : Text) : Option ℕ :=
  if id ≠ [] ∧ id.all fun c => 34 ≤ c ∧ c ≤ 126 then some (decode id) else none

def readState (c : UInt8) : Option Fiber.State :=
  [Fiber.State.new, .ready, .running, .waiting, .suspended, .dead, .uninitialized].find?
    fun x => stateChar x == c

/-- The name of the text of a fiber, which is its identifier with an exclamation mark. -/
def readTextId (name : Text) : Option ℕ :=
  if name.getLast? = some exclamationMark then readId name.dropLast else none

def readChange (time : ℕ) : Text → Option Change
  | [] => none
  | c :: s =>
      if c = 115 then
        match s.dropWhile (· ≠ 32) with
        | [] => none
        | _ :: name =>
            (readTextId name).map fun fiber => ⟨time, fiber, .text (s.takeWhile (· ≠ 32))⟩
      else
        (readState c).bind fun x => (readId s).map fun fiber => ⟨time, fiber, .state x⟩

/-- The lines of a file. There is nothing behind the last newline. -/
def readLines : List Text → Option (List Change)
  | [] => some []
  | [l] => if l = [] then some [] else none
  | t :: l :: ls =>
      (readTime t).bind fun time => (readChange time l).bind fun change =>
        (readLines ls).map fun changes => change :: changes

def readChanges (file : Text) : Option (List Change) := readLines (file.splitOn 10)

end Reader

/-- What is written for an event. -/
def Event.text (e : Event) : Text :=
  match e.payload with
  | .fiberState x => e.stamp ++ [stateChar x] ++ encode e.fiber.toNat ++ [10]
  | .log (some s) | .marker (some s) =>
      e.stamp ++ [115] ++ escaped s ++ [32] ++ encode e.fiber.toNat ++ [33, 10]
  | .log none | .marker none | .nothing | .fiberName _ => []

/-- The event can be written: its time is a time of the clock, and its string is escaped completely
and fits in the result of a write. -/
def Event.Writable (e : Event) : Prop :=
  e.nsec.toNat < 10 ^ 9 ∧
    match e.payload with
    | .fiberName (some s) => s.val.length ≤ 10 ^ 9
    | .log (some s) | .marker (some s) =>
        s.val ≠ [] ∧ (∀ c ∈ s.val.getLast?, Printable c) ∧ ChunksFit 13 0 s.val
    | .log none | .marker none | .nothing | .fiberName none | .fiberState _ => True

/-- The digits of a number, with at least one of them. -/
def decimalDigits (n : ℕ) : List ℕ := if n = 0 then [0] else (Nat.digits 10 n).reverse

theorem decimalDigits_lt (n : ℕ) : ∀ d ∈ decimalDigits n, d < 10 := by
  intro d hd
  rw [decimalDigits] at hd
  split at hd
  · rw [List.mem_singleton] at hd
    rw [hd]
    decide
  · exact Nat.digits_lt_base (by decide) (List.mem_reverse.1 hd)

theorem ofDigits_decimalDigits (n : ℕ) : Nat.ofDigits 10 (decimalDigits n).reverse = n := by
  rw [decimalDigits]
  split
  · rename_i hzero
    rw [hzero]
    rfl
  · rw [List.reverse_reverse, Nat.ofDigits_digits]

theorem readDigit_hexDigit {d : ℕ} (hd : d < 10) : readDigit (hexDigit d) = some d := by
  have hall : ∀ d < 10, readDigit (hexDigit d) = some d := by decide
  exact hall d hd

theorem mapM_readDigit {ds : List ℕ} (hds : ∀ d ∈ ds, d < 10) :
    (ds.map hexDigit).mapM readDigit = some ds := by
  induction ds with
  | nil => rfl
  | cons d ds ih =>
      rw [List.map_cons, List.mapM_cons, readDigit_hexDigit (hds d List.mem_cons_self),
        ih fun e he => hds e (List.mem_cons_of_mem d he)]
      rfl

/-- A number with digits before it, read as the digits of both. -/
theorem readNumber_digits {ds : List ℕ} (hds : ∀ d ∈ ds, d < 10) (hne : ds ≠ []) :
    readNumber (ds.map hexDigit) = some (Nat.ofDigits 10 ds.reverse) := by
  rw [readNumber, if_neg (by simpa using hne), mapM_readDigit hds]
  rfl

/-- Nine digits of nanoseconds behind the seconds. -/
theorem readTime_stamp {e : Event} (hnsec : e.nsec.toNat < 10 ^ 9) :
    readTime (35 :: (decimal e.sec.toNat ++ (decimal e.nsec.toNat).leftpad 9 48)) =
      some e.time := by
  have hlength : (decimalDigits e.nsec.toNat).length ≤ 9 := by
    have hle := length_decimal (show 9 ≠ 0 by decide) hnsec
    rwa [decimal, List.length_map] at hle
  have hpad : (decimal e.nsec.toNat).leftpad 9 48 =
      ((decimalDigits e.nsec.toNat).leftpad 9 0).map hexDigit := by
    rw [List.leftpad, List.leftpad, List.map_append, List.map_replicate, decimal, List.length_map]
    rfl
  have hdigits : decimal e.sec.toNat ++ (decimal e.nsec.toNat).leftpad 9 48 =
      (decimalDigits e.sec.toNat ++ (decimalDigits e.nsec.toNat).leftpad 9 0).map hexDigit := by
    rw [hpad, List.map_append]
    rfl
  have hsmall : ∀ d ∈ decimalDigits e.sec.toNat ++ (decimalDigits e.nsec.toNat).leftpad 9 0,
      d < 10 := by
    intro d hd
    rw [List.leftpad, List.mem_append, List.mem_append, List.mem_replicate] at hd
    rcases hd with hd | ⟨-, rfl⟩ | hd
    · exact decimalDigits_lt _ d hd
    · decide
    · exact decimalDigits_lt _ d hd
  have hne : decimalDigits e.sec.toNat ++ (decimalDigits e.nsec.toNat).leftpad 9 0 ≠ [] := by
    have hpos : 0 < ((decimalDigits e.nsec.toNat).leftpad 9 0).length := by
      rw [List.length_leftpad]
      omega
    exact List.append_ne_nil_of_right_ne_nil _ (List.ne_nil_of_length_pos hpos)
  rw [readTime, if_pos rfl, hdigits, readNumber_digits hsmall hne]
  rw [List.reverse_append, Nat.ofDigits_append, List.length_reverse, List.length_leftpad,
    Nat.max_eq_left hlength, ofDigits_decimalDigits, List.leftpad, List.reverse_append,
    Nat.ofDigits_append, ofDigits_decimalDigits, List.reverse_replicate,
    Nat.ofDigits_replicate_zero, Event.time]
  congr 1
  omega

theorem readId_encode (fiber : BitVec 64) : readId (encode fiber.toNat) = some fiber.toNat := by
  have hid := isIdentifier_encode fiber
  have hall : ((encode fiber.toNat).all fun c => 34 ≤ c ∧ c ≤ 126) = true :=
    List.all_eq_true.2 fun c hc => decide_eq_true (hid.chars c hc)
  rw [readId, if_pos ⟨hid.ne_nil, hall⟩, decode_encode]

theorem readTextId_encode (fiber : BitVec 64) :
    readTextId (encode fiber.toNat ++ [exclamationMark]) = some fiber.toNat := by
  rw [readTextId, List.getLast?_concat, if_pos rfl, List.dropLast_concat, readId_encode]

theorem readState_stateChar (x : Fiber.State) : readState (stateChar x) = some x := by
  cases x <;> rfl

/-- A state is not taken for a text. -/
theorem stateChar_ne (x : Fiber.State) : stateChar x ≠ 115 := by
  cases x <;> decide

theorem readChange_state (time : ℕ) (x : Fiber.State) (fiber : BitVec 64) :
    readChange time (stateChar x :: encode fiber.toNat) =
      some ⟨time, fiber.toNat, .state x⟩ := by
  rw [readChange, if_neg (stateChar_ne x), readState_stateChar, readId_encode]
  rfl

/-- A text without a blank is read up to the blank behind it. -/
theorem readChange_text (time : ℕ) {s : Text} (hs : ∀ c ∈ s, Printable c) (fiber : BitVec 64) :
    readChange time (115 :: (s ++ 32 :: (encode fiber.toNat ++ [exclamationMark]))) =
      some ⟨time, fiber.toNat, .text s⟩ := by
  have hne : ∀ c ∈ s, decide (c ≠ 32) = true := by
    intro c hc
    rw [decide_eq_true_iff]
    rintro rfl
    exact absurd (hs 32 hc) (by decide)
  have hdrop : (s ++ 32 :: (encode fiber.toNat ++ [exclamationMark])).dropWhile (· ≠ 32) =
      32 :: (encode fiber.toNat ++ [exclamationMark]) := by
    rw [List.dropWhile_append_of_pos hne]
    rfl
  have htake : (s ++ 32 :: (encode fiber.toNat ++ [exclamationMark])).takeWhile (· ≠ 32) = s := by
    rw [List.takeWhile_append_of_pos hne]
    simp
  rw [readChange, if_pos rfl, hdrop, htake]
  dsimp only
  rw [readTextId_encode]
  rfl

/-- The two lines of a change. -/
theorem readChanges_lines {t l : Text} (ht : ∀ c ∈ t, c ≠ 10) (hl : ∀ c ∈ l, c ≠ 10)
    (file : Text) {time : ℕ} (htime : readTime t = some time) :
    readChanges (t ++ 10 :: (l ++ 10 :: file)) =
      (readChange time l).bind fun change =>
        (readChanges file).map fun changes => change :: changes := by
  have hsplit : ∀ {u : Text}, (∀ c ∈ u, c ≠ 10) → ∀ v : Text,
      (u ++ 10 :: v).splitOn 10 = u :: v.splitOn 10 := by
    intro u hu v
    rw [List.splitOn_eq_splitOnP, List.splitOn_eq_splitOnP]
    have hno : ∀ c ∈ u, (c == (10 : UInt8)) = false := fun c hc => by simpa using hu c hc
    exact List.splitOnP_append_cons_of_forall_mem hno 10 rfl v
  rw [readChanges, hsplit ht, hsplit hl, readLines, htime]
  rfl

/-- A digit is no newline. -/
theorem decimal_ne (n : ℕ) : ∀ c ∈ decimal n, c ≠ 10 := by
  intro c hc
  obtain ⟨d, hd, rfl⟩ := List.mem_map.1 (show c ∈ (decimalDigits n).map hexDigit from hc)
  have hall : ∀ d < 10, hexDigit d ≠ 10 := by decide
  exact hall d (decimalDigits_lt n d hd)

theorem encode_ne (fiber : BitVec 64) : ∀ c ∈ encode fiber.toNat, c ≠ 10 := by
  rintro c hc rfl
  exact absurd ((isIdentifier_encode fiber).chars _ hc).1 (by decide)

/-- The line with the time of an event. -/
theorem stamp_ne (e : Event) :
    ∀ c ∈ 35 :: (decimal e.sec.toNat ++ (decimal e.nsec.toNat).leftpad 9 48), c ≠ 10 := by
  intro c hc
  rw [List.leftpad, List.mem_cons, List.mem_append, List.mem_append, List.mem_replicate] at hc
  rcases hc with rfl | hc | ⟨-, rfl⟩ | hc
  · decide
  · exact decimal_ne _ c hc
  · decide
  · exact decimal_ne _ c hc

/-- The step lemma: what is written for an event is read as its change. -/
theorem readChanges_text {e : Event} (he : e.Writable) (file : Text) :
    readChanges (e.text ++ file) =
      (readChanges file).map fun changes => e.change.toList ++ changes := by
  have hskip : (readChanges file).map (fun changes => [] ++ changes) = readChanges file := by
    cases readChanges file <;> rfl
  have hstate : ∀ x,
      readChanges (e.stamp ++ [stateChar x] ++ encode e.fiber.toNat ++ [10] ++ file) =
        (readChanges file).map fun changes => ⟨e.time, e.fiber.toNat, .state x⟩ :: changes := by
    intro x
    have hl : ∀ c ∈ stateChar x :: encode e.fiber.toNat, c ≠ 10 := by
      intro c hc
      rcases List.mem_cons.1 hc with rfl | hc
      · cases x <;> decide
      · exact encode_ne e.fiber c hc
    have heq : e.stamp ++ [stateChar x] ++ encode e.fiber.toNat ++ [10] ++ file =
        (35 :: (decimal e.sec.toNat ++ (decimal e.nsec.toNat).leftpad 9 48)) ++
          10 :: ((stateChar x :: encode e.fiber.toNat) ++ 10 :: file) := by
      simp [Event.stamp]
    rw [heq, readChanges_lines (stamp_ne e) hl file (readTime_stamp he.1), readChange_state]
    rfl
  have htext : ∀ s : CString, readChanges
      (e.stamp ++ [115] ++ escaped s ++ [32] ++ encode e.fiber.toNat ++ [33, 10] ++ file) =
      (readChanges file).map fun changes =>
        ⟨e.time, e.fiber.toNat, .text (escaped s)⟩ :: changes := by
    intro s
    have hl : ∀ c ∈ 115 :: (escaped s ++ 32 :: (encode e.fiber.toNat ++ [exclamationMark])),
        c ≠ 10 := by
      intro c hc
      simp only [List.mem_cons, List.mem_append, List.not_mem_nil, or_false] at hc
      rcases hc with rfl | hc | rfl | hc | rfl
      · decide
      · rintro rfl
        exact absurd (printable_escaped s 10 hc) (by decide)
      · decide
      · exact encode_ne e.fiber c hc
      · decide
    have heq : e.stamp ++ [115] ++ escaped s ++ [32] ++ encode e.fiber.toNat ++ [33, 10] ++ file =
        (35 :: (decimal e.sec.toNat ++ (decimal e.nsec.toNat).leftpad 9 48)) ++
          10 :: ((115 :: (escaped s ++ 32 :: (encode e.fiber.toNat ++ [exclamationMark]))) ++
            10 :: file) := by
      simp [Event.stamp, exclamationMark]
    rw [heq, readChanges_lines (stamp_ne e) hl file (readTime_stamp he.1),
      readChange_text _ (printable_escaped s)]
    rfl
  unfold Event.text Event.change
  split
  · exact hstate _
  · exact htext _
  · exact htext _
  all_goals exact hskip.symm

/-- What is written for events is read as their changes, in order. -/
theorem readChanges_flatMap {es : List Event} (hes : ∀ e ∈ es, e.Writable) :
    readChanges (es.flatMap Event.text) = some (es.filterMap Event.change) := by
  induction es with
  | nil => rfl
  | cons e es ih =>
      rw [List.flatMap_cons, readChanges_text (hes e List.mem_cons_self),
        ih fun e he => hes e (List.mem_cons_of_mem _ he)]
      cases hc : e.change with
      | none => simp [hc]
      | some c => simp [hc]

end Perf

end Zth
