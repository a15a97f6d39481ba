import Zth.Time.Timestamp

/-!
# The difference of two backtraces

`printDelta` prints two backtraces of a fiber without printing what they have in common twice: the
frames of both before their longest common tail, and then the tail. A range of frames is printed by
`printPartial`, with a start, an end that is counted from the other side when it is negative, and a
color, of which the last two have a default.
-/

namespace Zth

namespace Perf

/-- A backtrace. The first frame is the innermost one. -/
structure Backtrace (A : Type*) where
  t0 : Timestamp
  t1 : Timestamp
  fiber : A
  fiberId : BitVec 64
  bt : List A
  truncated : Bool

/-- What is said in a line. How an address is printed depends on the symbols of the program. -/
inductive Message (A : Type*) where
  | backtraceOf (fiber : A) (fiberId : BitVec 64)
  | truncated
  | theEnd
  | executedFrom
  | executionFrom (fiber : A) (fiberId : BitVec 64)
  | to
  | havingInCommon
  | took (t1 t0 : Timestamp)
  | frame (i : ℕ) (address : A)

/-- A line of the log. With a negative color it is printed without one. -/
structure Line (A : Type*) where
  color : ℤ
  message : Message A

namespace Backtrace

variable {A : Type*} (b : Backtrace A)

/-- The loop of `printPartial`, with as many frames left. There is no output if one of them is
outside of the trace. -/
def frameLoop (color : ℤ) : ℕ → ℕ → Option (List (Line A))
  | 0, _ => some []
  | left + 1, i =>
      b.bt[i]?.bind fun a => (frameLoop color left (i + 1)).map (⟨color, .frame i a⟩ :: ·)

/-- The last frame to print. A negative number is counted from the other end. -/
def lastFrame (end_ : ℤ) : ℕ := (if end_ < 0 then b.bt.length + end_ else end_).toNat

def printPartial (start : ℕ) (end_ : ℤ := -1) (color : ℤ := -1) : Option (List (Line A)) :=
  if b.bt.isEmpty then some []
  else if end_ < 0 ∧ -end_ > b.bt.length then some []
  else if start > b.lastFrame end_ then some []
  else b.frameLoop color (b.lastFrame end_ - start + 1) start

def print (color : ℤ := -1) : Option (List (Line A)) := do
  let frames ← if b.bt.isEmpty then some [] else b.printPartial 0 (b.bt.length - 1) color
  return ⟨color, .backtraceOf b.fiber b.fiberId⟩ :: frames ++
    [⟨color, if b.truncated then .truncated else .theEnd⟩]

/-- The loop that finds the common base, with as many frames left to compare. -/
def commonLoop [DecidableEq A] (this other : List A) : ℕ → ℕ → ℕ
  | 0, common => common
  | left + 1, common =>
      if this[this.length - 1 - common]? = other[other.length - 1 - common]? then
        commonLoop this other left (common + 1)
      else common

/-- The part of `printDelta` behind the swap of the traces: `other` was first. -/
def printSorted [DecidableEq A] (this other : Backtrace A) (color : ℤ) :
    Option (List (Line A)) :=
  if other.fiberId ≠ this.fiberId ∨ other.truncated ∨ this.truncated then do
    let first ← other.print color
    let second ← this.print color
    return ⟨color, .executedFrom⟩ :: first ++ ⟨color, .to⟩ :: second ++
      [⟨color, .took other.t1 this.t0⟩]
  else do
    let common := commonLoop this.bt other.bt (min this.bt.length other.bt.length) 0
    let first ← other.printPartial 0 (-(common : ℤ) - 1) color
    let second ← this.printPartial 0 (-(common : ℤ) - 1) color
    -- the color is in the place of the end of the range
    let tail ←
      if common > 0 then
        (other.printPartial (other.bt.length - common) color).map (⟨color, .havingInCommon⟩ :: ·)
      else some []
    return ⟨color, .executionFrom this.fiber this.fiberId⟩ :: first ++ ⟨color, .to⟩ :: second ++
      tail ++ [⟨color, .took other.t1 this.t0⟩]

/-- The traces are swapped once at most, as only one of them can be after the other. -/
def printDelta [DecidableEq A] (this other : Backtrace A) (color : ℤ := -1) :
    Option (List (Line A)) :=
  if other.t0.isAfter this.t0 then printSorted other this color else printSorted this other color

/-- The lines of frames that are numbered from `i` on. -/
def frames (color : ℤ) : ℕ → List A → List (Line A)
  | _, [] => []
  | i, a :: l => ⟨color, .frame i a⟩ :: frames color (i + 1) l

/-- Two lists with their longest common tail. -/
structure LongestTail (a b p q l : List A) : Prop where
  left : a = p ++ l
  right : b = q ++ l
  longest : ∀ p' q' l', a = p' ++ l' → b = q' ++ l' → l'.length ≤ l.length

/-- Every frame is printed once, in order and with the color: those of the older trace before the
longest common tail, those of the newer one, and those of the tail, if there are any. -/
def PrintsOnce (older newer : Backtrace A) (color : ℤ) (output : Option (List (Line A))) : Prop :=
  ∃ p q l, LongestTail older.bt newer.bt p q l ∧
    output = some (⟨color, .executionFrom newer.fiber newer.fiberId⟩ :: frames color 0 p ++
      ⟨color, .to⟩ :: frames color 0 q ++
      (if l = [] then [] else ⟨color, .havingInCommon⟩ :: frames color p.length l) ++
      [⟨color, .took older.t1 newer.t0⟩])

variable {b} {color : ℤ}

/-- The loop prints a part of the trace. -/
theorem frameLoop_eq {p l r : List A} (h : b.bt = p ++ l ++ r) :
    b.frameLoop color l.length p.length = some (frames color p.length l) := by
  induction l generalizing p with
  | nil => rfl
  | cons a l ih =>
      have hget : b.bt[p.length]? = some a := by
        rw [h, List.append_assoc, List.getElem?_append_right (Nat.le_refl _), Nat.sub_self]
        rfl
      have hrest := ih (p := p ++ [a]) (by rw [h]; simp)
      rw [List.length_append, List.length_singleton] at hrest
      rw [List.length_cons, frameLoop, hget, Option.bind_some, hrest]
      rfl

/-- Lines are printed with the color that was given. -/
theorem color_of_mem_frameLoop {left i : ℕ} {ls : List (Line A)}
    (h : b.frameLoop color left i = some ls) : ∀ l ∈ ls, l.color = color := by
  induction left generalizing i ls with
  | zero =>
      cases h
      intro l hl
      cases hl
  | succ left ih =>
      obtain ⟨a, -, h⟩ := Option.bind_eq_some_iff.1 h
      obtain ⟨ls', hls, rfl⟩ := Option.map_eq_some_iff.1 h
      intro l hl
      obtain rfl | hl := List.mem_cons.1 hl
      · rfl
      · exact ih hls l hl

theorem color_of_mem_printPartial {start : ℕ} {end_ : ℤ} {ls : List (Line A)}
    (h : b.printPartial start end_ color = some ls) : ∀ l ∈ ls, l.color = color := by
  unfold printPartial at h
  split at h
  · cases h
    simp
  · split at h
    · cases h
      simp
    · split at h
      · cases h
        simp
      · exact color_of_mem_frameLoop h

/-- All frames before a tail. -/
theorem printPartial_front {p l : List A} (h : b.bt = p ++ l) :
    b.printPartial 0 (-(l.length : ℤ) - 1) color = some (frames color 0 p) := by
  have hlength : b.bt.length = p.length + l.length := by rw [h, List.length_append]
  unfold printPartial
  cases hp : p with
  | nil =>
      rw [hp, List.length_nil, Nat.zero_add] at hlength
      split
      · rfl
      · rw [if_pos (by omega)]
        rfl
  | cons a p' =>
      rw [if_neg (by rw [h, hp]; simp), if_neg (by rw [hp, List.length_cons] at hlength; omega)]
      have hend : b.lastFrame (-(l.length : ℤ) - 1) = p'.length := by
        rw [hp, List.length_cons] at hlength
        rw [lastFrame, if_pos (by omega)]
        omega
      have hloop : b.frameLoop color p.length ([] : List A).length = some (frames color 0 p) :=
        frameLoop_eq (p := []) (l := p) (r := l) h
      rw [hp, List.length_cons, List.length_nil] at hloop
      rw [hend, if_neg (by omega), Nat.sub_zero]
      exact hloop

/-- The tail, without a color. -/
theorem printPartial_tail {p l : List A} (h : b.bt = p ++ l) (hl : l ≠ []) :
    b.printPartial p.length = some (frames (-1) p.length l) := by
  have hpos := List.length_pos_iff.2 hl
  have hlength : b.bt.length = p.length + l.length := by rw [h, List.length_append]
  unfold printPartial
  rw [if_neg (by rw [h]; simp [hl]), if_neg (by omega)]
  have hend : b.lastFrame (-1) = p.length + (l.length - 1) := by
    rw [lastFrame, if_pos (by decide)]
    omega
  have hloop : b.frameLoop (-1) l.length p.length = some (frames (-1) p.length l) :=
    frameLoop_eq (p := p) (l := l) (r := []) (by rw [h, List.append_nil])
  rw [hend, if_neg (by omega), Nat.add_sub_cancel_left, Nat.sub_add_cancel hpos]
  exact hloop

theorem LongestTail.unique {a b p q l p' q' l' : List A} (h : LongestTail a b p q l)
    (h' : LongestTail a b p' q' l') : p = p' ∧ q = q' ∧ l = l' := by
  have hle := h.longest p' q' l' h'.left h'.right
  have hge := h'.longest p q l h.left h.right
  have hlength : l.length = l'.length := Nat.le_antisymm hge hle
  obtain ⟨hp, hl⟩ := List.append_inj' (h.left.symm.trans h'.left) hlength
  obtain ⟨hq, -⟩ := List.append_inj' (h.right.symm.trans h'.right) hlength
  exact ⟨hp, hq, hl⟩

/-- An element that is counted from the end is one of a tail that is long enough. -/
theorem getElem?_tail {p l : List A} {i : ℕ} (hi : i < l.length) :
    (p ++ l)[(p ++ l).length - 1 - i]? = l[l.length - 1 - i]? := by
  have hidx : (p ++ l).length - 1 - i = p.length + (l.length - 1 - i) := by
    rw [List.length_append]
    omega
  rw [hidx, List.getElem?_append_right (Nat.le_add_right _ _), Nat.add_sub_cancel_left]

variable [DecidableEq A]

/-- The loop stops at the first frame that differs. -/
theorem commonLoop_spec {this other : List A} {left common : ℕ}
    (hleft : left + common = min this.length other.length)
    (hcommon : ∀ i < common, this[this.length - 1 - i]? = other[other.length - 1 - i]?) :
    commonLoop this other left common ≤ min this.length other.length ∧
    (∀ i < commonLoop this other left common,
      this[this.length - 1 - i]? = other[other.length - 1 - i]?) ∧
    (commonLoop this other left common < min this.length other.length →
      this[this.length - 1 - commonLoop this other left common]? ≠
        other[other.length - 1 - commonLoop this other left common]?) := by
  induction left generalizing common with
  | zero => exact ⟨by rw [commonLoop]; omega, hcommon, fun h => by rw [commonLoop] at h; omega⟩
  | succ left ih =>
      rw [commonLoop]
      split
      · apply ih (by omega)
        intro i hi
        obtain hi | rfl := Nat.lt_succ_iff_lt_or_eq.1 hi
        · exact hcommon i hi
        · assumption
      · exact ⟨by omega, hcommon, fun _ => by assumption⟩

/-- The common base is the longest common tail. -/
theorem exists_longestTail (a b : List A) :
    ∃ p q l, LongestTail a b p q l ∧
      l.length = commonLoop b a (min b.length a.length) 0 := by
  obtain ⟨hle, hsame, hdiffer⟩ := commonLoop_spec (Nat.add_zero (min b.length a.length))
    (fun i hi => absurd hi (Nat.not_lt_zero i))
  generalize commonLoop b a (min b.length a.length) 0 = n at *
  have htail : b.drop (b.length - n) = a.drop (a.length - n) := by
    apply List.ext_getElem?
    intro i
    rw [List.getElem?_drop, List.getElem?_drop]
    by_cases hi : i < n
    · have h := hsame (n - 1 - i) (by omega)
      rw [show b.length - 1 - (n - 1 - i) = b.length - n + i by omega,
        show a.length - 1 - (n - 1 - i) = a.length - n + i by omega] at h
      exact h
    · rw [List.getElem?_eq_none (by omega), List.getElem?_eq_none (by omega)]
  have hlength : (a.drop (a.length - n)).length = n := by
    rw [List.length_drop]
    omega
  refine ⟨a.take (a.length - n), b.take (b.length - n), a.drop (a.length - n), ⟨?_, ?_, ?_⟩,
    hlength⟩
  · rw [List.take_append_drop]
  · rw [← htail, List.take_append_drop]
  · intro p' q' l' ha hb
    rw [hlength]
    by_contra hlt
    have hal : l'.length ≤ a.length := by rw [ha, List.length_append]; omega
    have hbl : l'.length ≤ b.length := by rw [hb, List.length_append]; omega
    apply hdiffer (by omega)
    rw [ha, hb, getElem?_tail (by omega), getElem?_tail (by omega)]

/-- What is printed of two traces of a fiber. The color gets to the place of the end of the
tail. -/
theorem printSorted_eq {this other : Backtrace A} (hid : other.fiberId = this.fiberId)
    (hthis : this.truncated = false) (hother : other.truncated = false) {p q l : List A}
    (h : LongestTail other.bt this.bt p q l)
    (hlength : l.length = commonLoop this.bt other.bt (min this.bt.length other.bt.length) 0) :
    printSorted this other color =
      (if l = [] then some []
        else (other.printPartial p.length color).map (⟨color, .havingInCommon⟩ :: ·)).map
          fun tail => ⟨color, .executionFrom this.fiber this.fiberId⟩ :: frames color 0 p ++
            ⟨color, .to⟩ :: frames color 0 q ++ tail ++ [⟨color, .took other.t1 this.t0⟩] := by
  have hsame : ¬ (other.fiberId ≠ this.fiberId ∨ other.truncated = true ∨
      this.truncated = true) := by
    rw [hthis, hother]
    rintro (h | h | h)
    · exact h hid
    · cases h
    · cases h
  have hstart : other.bt.length - l.length = p.length := by
    rw [h.left, List.length_append, Nat.add_sub_cancel]
  rw [printSorted, if_neg hsame]
  dsimp only
  rw [← hlength, printPartial_front h.left, printPartial_front h.right, hstart]
  by_cases hl : l = []
  · subst hl
    rfl
  · simp only [gt_iff_lt, if_pos (List.length_pos_iff.2 hl), if_neg hl]
    cases other.printPartial p.length color <;> rfl

/-- With another color than none, a common tail is not printed as it should be. -/
theorem printSorted_iff {this other : Backtrace A} (hid : other.fiberId = this.fiberId)
    (hthis : this.truncated = false) (hother : other.truncated = false) :
    PrintsOnce other this color (printSorted this other color) ↔
      color = -1 ∨ ∀ a, this.bt.getLast? = some a → other.bt.getLast? ≠ some a := by
  obtain ⟨p, q, l, htail, hlength⟩ := exists_longestTail other.bt this.bt
  have heq : printSorted this other color = _ := printSorted_eq hid hthis hother htail hlength
  have hempty : (∀ a, this.bt.getLast? = some a → other.bt.getLast? ≠ some a) ↔ l = [] := by
    constructor
    · intro hdiffer
      by_contra hl
      obtain ⟨l', a, rfl⟩ := List.eq_nil_or_concat l |>.resolve_left hl
      apply hdiffer a
      · rw [htail.right, List.concat_eq_append, ← List.append_assoc, List.getLast?_concat]
      · rw [htail.left, List.concat_eq_append, ← List.append_assoc, List.getLast?_concat]
    · rintro rfl a hb ha
      obtain ⟨p', hp⟩ := List.getLast?_eq_some_iff.1 ha
      obtain ⟨q', hq⟩ := List.getLast?_eq_some_iff.1 hb
      exact absurd (htail.longest p' q' [a] hp hq) (by simp)
  rw [hempty, heq]
  constructor
  · rintro ⟨p', q', l', htail', houtput⟩
    obtain ⟨rfl, rfl, rfl⟩ := htail.unique htail'
    by_contra hnot
    push Not at hnot
    obtain ⟨hcolor, hl⟩ := hnot
    rw [if_neg hl, if_neg hl] at houtput
    obtain ⟨tail, htail, houtput⟩ := Option.map_eq_some_iff.1 houtput
    obtain ⟨ls, hls, rfl⟩ := Option.map_eq_some_iff.1 htail
    rw [List.append_cancel_right_eq, List.append_cancel_left_eq] at houtput
    obtain rfl := (List.cons.inj houtput).2
    -- the lines of the tail have the default color
    obtain ⟨a, l, rfl⟩ := List.exists_cons_of_ne_nil hl
    exact hcolor (color_of_mem_printPartial hls ⟨color, .frame p.length a⟩ List.mem_cons_self)
  · intro h
    refine ⟨p, q, l, htail, ?_⟩
    by_cases hl : l = []
    · rw [if_pos hl, if_pos hl]
      rfl
    · obtain rfl := h.resolve_right hl
      rw [if_neg hl, if_neg hl, printPartial_tail htail.left hl]
      rfl

/-- The trace that was taken first, and the other one. -/
def older (this other : Backtrace A) : Backtrace A :=
  if other.t0.isAfter this.t0 then this else other

def newer (this other : Backtrace A) : Backtrace A :=
  if other.t0.isAfter this.t0 then other else this

/-- The frames of the difference are printed once, in order and with the color, exactly if there is
no color or no common tail. -/
theorem printDelta_iff (this other : Backtrace A) (hid : this.fiberId = other.fiberId)
    (hthis : this.truncated = false) (hother : other.truncated = false) (color : ℤ) :
    PrintsOnce (older this other) (newer this other) color (printDelta this other color) ↔
      color = -1 ∨ ∀ a, this.bt.getLast? = some a → other.bt.getLast? ≠ some a := by
  rw [older, newer, printDelta]
  split
  · rw [printSorted_iff hid hother hthis]
    constructor
    · intro h
      exact h.imp_right fun h a ha hb => h a hb ha
    · intro h
      exact h.imp_right fun h a ha hb => h a hb ha
  · exact printSorted_iff hid.symm hthis hother

/-- A trace of three frames, and a later one that shares the last two. -/
def waiting : Backtrace ℕ := ⟨⟨1, 0⟩, ⟨2, 0⟩, 100, 7, [1, 2, 3], false⟩

def resumed : Backtrace ℕ := ⟨⟨3, 0⟩, ⟨4, 0⟩, 100, 7, [4, 2, 3], false⟩

/-- Without a color the difference is printed, with the color 6 it is not. -/
theorem printDelta_iff_resumed :
    PrintsOnce (older resumed waiting) (newer resumed waiting) (-1)
        (printDelta resumed waiting (-1)) ∧
      ¬ PrintsOnce (older resumed waiting) (newer resumed waiting) 6
        (printDelta resumed waiting 6) := by
  refine ⟨(printDelta_iff resumed waiting rfl rfl rfl (-1)).2 (Or.inl rfl), fun h => ?_⟩
  obtain hcolor | htail := (printDelta_iff resumed waiting rfl rfl rfl 6).1 h
  · cases hcolor
  · exact htail 3 rfl rfl

/-- In a color there are frames that are not printed, and frames outside of the traces. -/
theorem not_printsOnce :
    printDelta resumed waiting 0 = some [⟨0, .executionFrom 100 7⟩, ⟨0, .frame 0 1⟩, ⟨0, .to⟩,
      ⟨0, .frame 0 4⟩, ⟨0, .havingInCommon⟩, ⟨0, .took ⟨2, 0⟩ ⟨3, 0⟩⟩] ∧
    printDelta resumed waiting 6 = none ∧
    ¬ ∀ this other : Backtrace ℕ, this.fiberId = other.fiberId → this.truncated = false →
      other.truncated = false → ∀ color,
        PrintsOnce (older this other) (newer this other) color (printDelta this other color) := by
  have hnone : printDelta resumed waiting 6 = none := rfl
  refine ⟨rfl, hnone, fun h => ?_⟩
  obtain ⟨p, q, l, -, houtput⟩ := h resumed waiting rfl rfl rfl 6
  rw [hnone] at houtput
  cases houtput

end Backtrace

end Perf

end Zth
