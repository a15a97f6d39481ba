import Zth.Library.Script
import Zth.Sync.Future
import Zth.Sync.Gate
import Zth.Sync.Mailbox
import Zth.Sync.Mutex
import Zth.Sync.Semaphore
import Zth.Sync.Signal

/-!
# The code of the synchronizers, written down

Each synchronizer as a script, in the order in which its code reads and writes its fields and
unblocks fibers. As a monitor, a script is the program that the results on that synchronizer are
about.
-/

namespace Zth

open Monitor

namespace Mutex

variable (F : Type*) [DecidableEq F]

def script : Script F Unit Call Call (Data F) where
  enter := id
  piece f
    | .lock => .read fun d =>
        if d.locked then .block () .lock else .write (d.acquired f) .done
    | .trylock => .read fun d =>
        if d.locked then .done else .write (d.acquired f) .done
    | .unlock => .read fun d => .write (d.released f) (.wakeFirst () fun _ => .done)
  expired _ := none

theorem program_script : (script F).program = program F := by
  refine Script.program_eq (fun f c s => ?_) rfl
  cases c with
  | lock => cases hl : s.data.locked <;> simp [script, program, exec, Piece.exec, hl]
  | trylock => cases hl : s.data.locked <;> simp [script, program, exec, Piece.exec, hl]
  | unlock => rfl

end Mutex

namespace Semaphore

variable (F : Type*) [DecidableEq F]

def script : Script F Unit Call Call Data where
  enter := id
  piece _
    | .acquire count => .read fun d =>
        if d.count < count then
          .write (d.setUnblockAll (if 1 < count then true else d.unblockAll))
            (.block () (.acquire count))
        else
          .write (d.setCount (d.count - count)) (.read fun d =>
            if 0 < d.count && !d.unblockAll then .wakeFirst () fun _ => .done else .done)
    | .release count => .read fun d =>
        .write (d.setCount (addCount d.count count)) (.read fun d =>
          if 0 < d.count then
            if !d.unblockAll then .wakeFirst () fun _ => .done
            else .wakeAll () fun any =>
              if any then .done else .read fun d => .write (d.setUnblockAll false) .done
          else .done)
  expired _ := none

theorem program_script : (script F).program = program F := by
  refine Script.program_eq (fun f c s => ?_) rfl
  cases c with
  | acquire count =>
      simp only [script, program, exec, Piece.exec]
      split
      · rfl
      · simp only [Piece.exec]
        split <;> rfl
  | release count =>
      simp only [script, program, exec, Piece.exec]
      split
      · split
        · rfl
        · simp only [Piece.exec, SynchronizerBase.unblockAll]
          generalize (s.setData (s.data.setCount (addCount s.data.count count))).wakeAll () = r
          obtain ⟨t, _ | _⟩ := r <;> rfl
      · rfl

end Semaphore

namespace Gate

variable (F : Type*) [DecidableEq F]

/-- `pass`, and what follows when it completed the generation, or not. -/
def passPiece {F : Type*} (count : ℕ) (last next : Piece F Unit Code (Data F)) :
    Piece F Unit Code (Data F) :=
  .read fun d =>
    if count ≤ (d.current + 1) % 2 ^ 64 then
      .write { d with
        current := (d.current + 1) % 2 ^ 64 - count, passes := d.passes + 1,
        completed := d.completed + 1 } (.wakeAll () fun _ => last)
    else
      .write { d with current := (d.current + 1) % 2 ^ 64, passes := d.passes + 1 } next

def script (count : ℕ) : Script F Unit Call Code (Data F) where
  enter := .enter
  piece f
    | .enter .pass => passPiece count .done .done
    | .enter .wait => .read fun d =>
        .write (d.join f) (passPiece count .done (.block () .waited))
    | .waited => .done
  expired _ := none

variable {F} in
theorem exec_passPiece (count : ℕ) (f : F) (last next : Piece F Unit Code (Data F))
    (s : State F Unit Code (Data F)) :
    (passPiece count last next).exec f s =
      if (pass count s).2 then last.exec f (pass count s).1 else next.exec f (pass count s).1 := by
  simp only [passPiece, Piece.exec, pass]
  split <;> rfl

theorem program_script (count : ℕ) : (script F count).program = program F count := by
  refine Script.program_eq (fun f c s => ?_) rfl
  cases c with
  | enter c =>
      cases c with
      | pass =>
          simp only [script, program, exec, exec_passPiece]
          split <;> rfl
      | wait =>
          simp only [script, program, exec, Piece.exec, exec_passPiece]
          generalize pass count (s.setData (s.data.join f)) = r
          obtain ⟨t, _ | _⟩ := r <;> rfl
  | waited => rfl

end Gate

namespace Mailbox

variable (F T E : Type*) [DecidableEq F]

/-- `unblockFirst` with the `wakeup` of a mailbox. -/
def wakePiece {F T E : Type*} : Queue → Piece F Queue (Call T E) (Data F T E)
  | .take => .wakeFirst .take fun
      | some f => .read fun d => .write (d.setAssigned f) .done
      | none => .done
  | .put => .wakeFirst .put fun _ => .done

def script : Script F Queue (Call T E) (Call T E) (Data F T E) where
  enter := id
  piece f
    | .put item => .read fun d =>
        if d.value.valid then .block .put (.put item)
        else .write (d.store item) (wakePiece .take)
    | .take => .read fun d =>
        if d.validFor f then .write d.takeItem (wakePiece .put) else .block .take .take
  expired _ := none

variable {F T E} in
theorem exec_wakePiece (q : Queue) (f : F) (s : State F Queue (Call T E) (Data F T E)) :
    (wakePiece q).exec f s = (unblockFirst q s, .done) := by
  cases q with
  | put => rfl
  | take =>
      simp only [wakePiece, Piece.exec, unblockFirst, SynchronizerBase.unblockFirst]
      generalize s.wakeFirst .take = r
      obtain ⟨t, _ | g⟩ := r <;> rfl

theorem program_script : (script F T E).program = program F T E := by
  refine Script.program_eq (fun f c s => ?_) rfl
  cases c with
  | put item =>
      cases hv : s.data.value.valid <;>
        simp [script, program, exec, Piece.exec, hv, exec_wakePiece]
  | take =>
      cases hv : s.data.validFor f <;>
        simp [script, program, exec, Piece.exec, hv, exec_wakePiece]

end Mailbox

namespace Signal

variable (F : Type*) [DecidableEq F]

def script : Script F Unit Call Code Data where
  enter := .enter
  piece _
    | .enter .wait => .read fun d =>
        if d.signalled = 0 then .block () .waited else .yield .waited
    | .enter (.waitUntil passed) => .read fun d =>
        if d.signalled = 0 then
          if passed then .write d.complete .done else .block () .waitedUntil
        else .yield .waited
    | .waited | .waitedUntil => .read fun d => .write d.complete .done
    | .timedOut => .done
    | .enter (.signal queue queueEveryTime) => .read fun d =>
        .write d.issue (.wakeFirst () fun
          | some _ => .done
          | none => .read fun d => .write (d.store queue queueEveryTime) .done)
    | .enter (.signalAll queue) => .wakeAll () fun _ =>
        if queue then .read fun d => .write (d.setSignalled (-1)) .done else .done
    | .enter .reset => .read fun d => .write (d.setSignalled 0) .done
  expired
    | .waitedUntil => some .timedOut
    | _ => none

theorem program_script : (script F).program = program F := by
  refine Script.program_eq (fun f c s => ?_) rfl
  cases c with
  | enter c =>
      cases c with
      | wait =>
          simp only [script, program, exec, Piece.exec]
          split <;> rfl
      | waitUntil passed =>
          simp only [script, program, exec, Piece.exec]
          split
          · cases passed <;> rfl
          · rfl
      | signal queue queueEveryTime =>
          simp only [script, program, exec, Piece.exec, SynchronizerBase.unblockFirst]
          generalize (s.setData s.data.issue).wakeFirst () = r
          obtain ⟨t, _ | g⟩ := r <;> rfl
      | signalAll queue => cases queue <;> rfl
      | reset => rfl
  | waited => rfl
  | waitedUntil => rfl
  | timedOut => rfl

end Signal

namespace Future

variable (F T E : Type*) [DecidableEq F]

def script : Script F Unit (Call T E) (Code T E) (Data T E) where
  enter := .enter
  piece _
    | .enter .wait => .read fun d =>
        if d.value.valid then .write d.returned .done else .block () .waited
    | .enter .value => .read fun d =>
        if d.value.valid then .write d.read .done else .block () .valued
    | .enter (.set item) => .read fun d =>
        .write (d.setItem item) (.wakeAll () fun _ => .done)
    | .waited => .read fun d => .write d.returned .done
    | .valued => .read fun d => .write d.read .done
  expired _ := none

theorem program_script : (script F T E).program = program F T E := by
  refine Script.program_eq (fun f c s => ?_) rfl
  cases c with
  | enter c =>
      cases c with
      | wait => cases hv : s.data.value.valid <;> simp [script, program, exec, Piece.exec, hv]
      | value => cases hv : s.data.value.valid <;> simp [script, program, exec, Piece.exec, hv]
      | set item => rfl
  | waited => rfl
  | valued => rfl

end Future

end Zth
