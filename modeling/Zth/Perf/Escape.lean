import Mathlib.Data.Nat.Digits.Lemmas
import Zth.Perf.VcdId

/-!
# The texts of a VCD file

A string of a log or a marker is written to the VCD file with what cannot be printed
escaped. The string is copied in chunks: the loop goes along the string and counts the
characters that can be printed, and writes them when there is one that cannot. It looks one
character ahead to stop, so the last character is not looked at, and it is behind the end of an
empty string already.
-/

namespace Zth

namespace Perf

/-- The reasons for which an event is not processed: a write fails, a character behind the NUL is
read, an `int` overflows, or an identifier does not fit in its buffer. -/
inductive Failure where
  | write
  | beyond
  | overflow
  | identifier
deriving DecidableEq, Repr

/-- `INT_MAX` -/
def intMax : ℕ := 2 ^ 31 - 1

/-- `fprintf`, of what is printed. It returns the number of characters, and fails if that is not an
`int`; other reasons to fail are left out. -/
def fprintf (file s : Text) : Except Failure Text :=
  if s.length ≤ intMax then .ok (file ++ s) else .error .write

/-- Neither `c < 33` nor `c > 126`. A `char` from 128 on is one of both, whether it has a sign or
not. -/
def Printable (c : UInt8) : Prop := ¬ (c < 33 ∨ 126 < c)

instance (c : UInt8) : Decidable (Printable c) := inferInstanceAs (Decidable (¬ _))

def hexDigit (n : ℕ) : UInt8 := UInt8.ofNat (if n < 10 then 48 + n else 87 + n)

/-- `\x%02x` -/
def escape (c : UInt8) : Text := [92, 120, hexDigit (c.toNat / 16), hexDigit (c.toNat % 16)]

/-- A string with the characters that cannot be printed escaped. -/
def escaped (s : Text) : Text := s.flatMap fun c => if Printable c then [c] else escape c

/-- The loop. The pointers are given by the strings that they point to. It leaves the file, and
the start of the last chunk. -/
def escapeLoop (file chunkStart : Text) (len : ℕ) : Text → Except Failure (Text × Text)
  | [] => .error .beyond
  | [_] => .ok (file, chunkStart)
  | c :: d :: s =>
      if Printable c then
        if len + 1 ≤ intMax then escapeLoop file chunkStart (len + 1) (d :: s)
        else .error .overflow
      else
        (fprintf file (chunkStart.take len ++ escape c)).bind fun file =>
          escapeLoop file (d :: s) 0 (d :: s)

/-- The text of a log or a marker, with the name of the fiber after it. -/
def writeText (file s id : Text) : Except Failure Text :=
  (escapeLoop file s 0 s).bind fun (file, chunkStart) =>
    fprintf file (chunkStart ++ [32] ++ id ++ [33, 10])

/-- The chunks can be written, with `len` characters already counted: no chunk before an escape is
longer than an `int` can count with the escape, nor is the last one with what follows it, which is
at most `rest`. -/
def ChunksFit (rest : ℕ) : ℕ → Text → Prop
  | _, [] => True
  | len, [_] => len + 1 + rest ≤ intMax
  | len, c :: d :: s =>
      if Printable c then ChunksFit rest (len + 1) (d :: s)
      else len + 4 ≤ intMax ∧ ChunksFit rest 0 (d :: s)

theorem fprintf_eq_ok {file s file' : Text} :
    fprintf file s = .ok file' ↔ s.length ≤ intMax ∧ file' = file ++ s := by
  rw [fprintf]
  split
  · constructor
    · intro h
      cases h
      exact ⟨‹_›, rfl⟩
    · rintro ⟨-, rfl⟩
      rfl
  · constructor
    · intro h
      cases h
    · intro h
      exact absurd h.1 ‹_›

theorem printable_hexDigit {n : ℕ} (hn : n < 16) : Printable (hexDigit n) := by
  have hall : ∀ m < 16, Printable (hexDigit m) := by decide
  exact hall n hn

theorem printable_escape (c : UInt8) : ∀ d ∈ escape c, Printable d := by
  intro d hd
  have hlt := c.toNat_lt
  simp only [escape, List.mem_cons, List.not_mem_nil, or_false] at hd
  rcases hd with rfl | rfl | rfl | rfl
  · decide
  · decide
  · exact printable_hexDigit (by omega)
  · exact printable_hexDigit (by omega)

/-- All that is left of a string can be printed. -/
theorem printable_escaped (s : Text) : ∀ c ∈ escaped s, Printable c := by
  intro c hc
  obtain ⟨d, -, hd⟩ := List.mem_flatMap.1 hc
  split at hd
  · rw [List.mem_singleton.1 hd]
    assumption
  · exact printable_escape d c hd

theorem length_escape (c : UInt8) : (escape c).length = 4 := rfl

/-- A string that can be printed is not changed. -/
theorem escaped_of_printable {s : Text} (hs : ∀ c ∈ s, Printable c) : escaped s = s := by
  induction s with
  | nil => rfl
  | cons c s ih =>
      rw [escaped, List.flatMap_cons, if_pos (hs c List.mem_cons_self)]
      exact congrArg (c :: ·) (ih fun d hd => hs d (List.mem_cons_of_mem c hd))

theorem escaped_append (s t : Text) : escaped (s ++ t) = escaped s ++ escaped t :=
  List.flatMap_append

theorem escaped_singleton_of_not {c : UInt8} (hc : ¬ Printable c) : escaped [c] = escape c := by
  rw [escaped, List.flatMap_singleton, if_neg hc]

/-- An escaped character is longer than it was. -/
theorem escaped_singleton_eq_iff (c : UInt8) : escaped [c] = [c] ↔ Printable c := by
  constructor
  · intro h
    by_contra hc
    rw [escaped_singleton_of_not hc] at h
    cases h
  · intro hc
    exact escaped_of_printable fun d hd => by rwa [List.mem_singleton.1 hd]

/-- One step of the loop. The chunk so far is `run`. -/
theorem escapeLoop_cons_eq_ok {run : Text} {len : ℕ} (hlen : run.length = len) (file : Text)
    (c d : UInt8) (s : Text) (r : Text × Text) :
    escapeLoop file (run ++ c :: d :: s) len (c :: d :: s) = .ok r ↔
      if Printable c then
        len + 1 ≤ intMax ∧
          escapeLoop file (run ++ [c] ++ d :: s) (len + 1) (d :: s) = .ok r
      else
        len + 4 ≤ intMax ∧
          escapeLoop (file ++ run ++ escape c) ([] ++ d :: s) 0 (d :: s) = .ok r := by
  rw [escapeLoop, List.append_assoc run [c], List.singleton_append]
  split
  · constructor
    · intro h
      split at h
      · exact ⟨‹_›, h⟩
      · cases h
    · rintro ⟨hfit, h⟩
      rw [if_pos hfit]
      exact h
  · have htake : (run ++ c :: d :: s).take len = run := by
      rw [← hlen, List.take_left]
    have hlength : (run ++ escape c).length = len + 4 := by
      rw [List.length_append, length_escape, hlen]
    rw [htake, fprintf, hlength]
    constructor
    · intro h
      split at h
      · rw [← List.append_assoc] at h
        exact ⟨‹_›, h⟩
      · cases h
    · rintro ⟨hfit, h⟩
      rw [if_pos hfit, ← List.append_assoc]
      exact h

/-- What was counted so far fits. -/
theorem ChunksFit.len_le {rest len : ℕ} {s : Text} (h : ChunksFit rest len s) (hs : s ≠ []) :
    len ≤ intMax := by
  induction s generalizing len with
  | nil => exact absurd rfl hs
  | cons c s ih =>
      cases s with
      | nil =>
          rw [ChunksFit] at h
          omega
      | cons d s =>
          rw [ChunksFit] at h
          split at h
          · have hle := ih h (List.cons_ne_nil d s)
            omega
          · omega

/-- The loop returns, with a last chunk that can be written, exactly if the chunks fit. -/
theorem escapeLoop_iff (rest : ℕ) {len : ℕ} {run : Text} (hlen : run.length = len) (file s : Text) :
    (∃ file' last, escapeLoop file (run ++ s) len s = .ok (file', last) ∧
      last.length + rest ≤ intMax) ↔ s ≠ [] ∧ ChunksFit rest len s := by
  induction s generalizing run len file with
  | nil =>
      refine iff_of_false ?_ fun h => h.1 rfl
      rintro ⟨file', last, h, -⟩
      cases h
  | cons c s ih =>
      rw [and_iff_right (List.cons_ne_nil c s)]
      cases s with
      | nil =>
          have hlength : (run ++ [c]).length = len + 1 := by
            rw [List.length_append, hlen]
            rfl
          rw [ChunksFit, ← hlength]
          constructor
          · rintro ⟨file', last, h, hfit⟩
            cases h
            exact hfit
          · intro hfit
            exact ⟨file, run ++ [c], rfl, hfit⟩
      | cons d s =>
          simp only [escapeLoop_cons_eq_ok hlen]
          rw [ChunksFit]
          split
          · have hlength : (run ++ [c]).length = len + 1 := by
              rw [List.length_append, hlen]
              rfl
            have hih := ih hlength file
            rw [and_iff_right (List.cons_ne_nil d s)] at hih
            rw [← hih]
            constructor
            · rintro ⟨file', last, ⟨-, h⟩, hfit⟩
              exact ⟨file', last, h, hfit⟩
            · rintro ⟨file', last, h, hfit⟩
              have hle := (hih.1 ⟨file', last, h, hfit⟩).len_le (List.cons_ne_nil d s)
              exact ⟨file', last, ⟨hle, h⟩, hfit⟩
          · have hih := ih (show ([] : Text).length = 0 from rfl) (file ++ run ++ escape c)
            rw [and_iff_right (List.cons_ne_nil d s)] at hih
            rw [← hih]
            constructor
            · rintro ⟨file', last, ⟨hle, h⟩, hfit⟩
              exact ⟨hle, file', last, h, hfit⟩
            · rintro ⟨hle, file', last, h, hfit⟩
              exact ⟨file', last, ⟨hle, h⟩, hfit⟩

/-- The file and the last chunk are the string with all but its last character escaped. -/
theorem escapeLoop_text {len : ℕ} {file run s file' last : Text} (hlen : run.length = len)
    (h : escapeLoop file (run ++ s) len s = .ok (file', last)) :
    ∃ t c, s = t ++ [c] ∧ file' ++ last = file ++ run ++ escaped t ++ [c] := by
  induction s generalizing run len file with
  | nil => cases h
  | cons c s ih =>
      cases s with
      | nil =>
          cases h
          refine ⟨[], c, rfl, ?_⟩
          rw [escaped, List.flatMap_nil, List.append_nil, List.append_assoc]
      | cons d s =>
          rw [escapeLoop_cons_eq_ok hlen] at h
          split at h
          · have hlength : (run ++ [c]).length = len + 1 := by
              rw [List.length_append, hlen]
              rfl
            obtain ⟨t, e, hs, htext⟩ := ih hlength h.2
            refine ⟨c :: t, e, congrArg (c :: ·) hs, ?_⟩
            rw [htext, escaped, escaped, List.flatMap_cons, if_pos ‹_›]
            simp only [List.append_assoc]
          · obtain ⟨t, e, hs, htext⟩ := ih rfl h.2
            refine ⟨c :: t, e, congrArg (c :: ·) hs, ?_⟩
            rw [htext, escaped, escaped, List.flatMap_cons, if_neg ‹_›]
            simp only [List.append_assoc, List.nil_append]

/-- A string is written, with all but its last character escaped, exactly if it is not empty and
the chunks fit. -/
theorem writeText_iff (file s id : Text) :
    (∃ file', writeText file s id = .ok file') ↔
      s ≠ [] ∧ ChunksFit (id.length + 3) 0 s := by
  have hiff := escapeLoop_iff (id.length + 3) (show ([] : Text).length = 0 from rfl) file s
  rw [List.nil_append] at hiff
  rw [← hiff, writeText]
  constructor
  · rintro ⟨file', h⟩
    cases hloop : escapeLoop file s 0 s with
    | error e =>
        rw [hloop] at h
        cases h
    | ok r =>
        rw [hloop] at h
        obtain ⟨hfit, -⟩ := fprintf_eq_ok.1 h
        refine ⟨r.1, r.2, rfl, ?_⟩
        simp only [List.length_append, List.length_cons, List.length_nil] at hfit
        omega
  · rintro ⟨file', last, hloop, hfit⟩
    rw [hloop]
    refine ⟨_, fprintf_eq_ok.2 ⟨?_, rfl⟩⟩
    simp only [List.length_append, List.length_cons, List.length_nil]
    omega

theorem writeText_text {file s id file' : Text} (h : writeText file s id = .ok file') :
    ∃ t c, s = t ++ [c] ∧
      file' = file ++ (escaped t ++ [c]) ++ [32] ++ id ++ [33, 10] := by
  rw [writeText] at h
  cases hloop : escapeLoop file s 0 s with
  | error e =>
      rw [hloop] at h
      cases h
  | ok r =>
      rw [hloop] at h
      obtain ⟨-, rfl⟩ := fprintf_eq_ok.1 h
      obtain ⟨t, c, hs, htext⟩ := escapeLoop_text (show ([] : Text).length = 0 from rfl) hloop
      refine ⟨t, c, hs, ?_⟩
      simp only [← List.append_assoc]
      rw [htext, List.append_nil]

end Perf

end Zth
