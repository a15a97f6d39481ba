import Mathlib.Algebra.BigOperators.Group.Finset.Basic
import Zth.Sync.Joiner

/-!
# The passes of a joiner

Every fiber and future that is joined accounts for one pass of the gate. Such a pass was made, or
it is in the exit hooks of a fiber, or in the hooks of the joiner, or is not added yet. The
destructor makes one more. So the gate opens for the last of them, and not before.
-/

namespace Zth

namespace HookedFiber

/-- What holds of a fiber: once it is dead, it does not pass the gate any more, and it is dead
when it has executed all of its exit hooks. -/
structure Inv (x : HookedFiber) : Prop where
  left : x.dead = true → x.left = 0
  dead : x.code = .ended ∨ x.code = .destructed → x.dead = true

/-- A fiber that moves on passes the gate `k` times, but not when it is still in its function. It
does not come to life, and does not return to its function. -/
structure Moves (k : ℕ) (x y : HookedFiber) : Prop where
  left : x.left = y.left + k
  inv : x.Inv → y.Inv
  entry : y.code = .entry → x.code = .entry ∧ k = 0
  dead : x.dead = true → y.dead = true

variable {x y : HookedFiber}

theorem inv_init : init.Inv where
  left := fun h => by cases h
  dead := fun h => by rcases h with h | h <;> cases h

theorem left_atExit (hx : x.code = .entry) : (x.atExit .pass).left = x.left + 1 := by
  simp [left, atExit, hx]

theorem Inv.of_code (h : x.Inv) (hdead : y.dead = x.dead) (hleft : y.left ≤ x.left)
    (hcode : y.code = .ended ∨ y.code = .destructed → x.code = .ended ∨ x.code = .destructed) :
    y.Inv := by
  constructor
  · intro hd
    rw [hdead] at hd
    exact Nat.le_zero.1 (hleft.trans (h.left hd).le)
  · intro hc
    rw [hdead]
    exact h.dead (hcode hc)

theorem moves_atExit : Moves 0 x (x.atExit .other) := by
  have hleft : x.left = (x.atExit .other).left := by
    simp only [left, atExit]
    cases x.code <;> simp
  exact ⟨hleft, fun h => h.of_code rfl hleft.ge id, fun h => ⟨h, rfl⟩, id⟩

theorem moves_returns (h : x.returns = some y) : Moves 0 x y := by
  rw [returns] at h
  split at h
  · rename_i hx
    cases h
    have hleft : x.left = left { x with code := .exit x.mExit } := by simp [left, hx]
    exact ⟨hleft, fun h => h.of_code rfl hleft.ge (by simp), by simp, id⟩
  · cases h

theorem moves_delete (h : x.delete = some y) : Moves 0 x y := by
  have hmoves : x.code = .entry ∨ x.code = .ended →
      Moves 0 x { x with code := .destructor x.mExit } := by
    intro hx
    have hleft : x.left = left { x with code := .destructor x.mExit } := by
      rcases hx with hx | hx <;> simp [left, hx]
    exact ⟨hleft, fun h => h.of_code rfl hleft.ge (by simp), by simp, id⟩
  rw [delete] at h
  split at h
  · rename_i hx
    cases h
    exact hmoves (Or.inl hx)
  · rename_i hx
    cases h
    exact hmoves (Or.inr hx)
  · cases h

theorem moves_exited (h : x.exited = some y) : Moves 0 x y := by
  have hmoves : ∀ c : Code, c = .ended ∨ c = .destructed → x.left = 0 →
      Moves 0 x ⟨true, c, []⟩ := by
    intro c hc hx
    have hleft : left ⟨true, c, []⟩ = 0 := by
      rcases hc with rfl | rfl <;> simp [left]
    refine ⟨hx.trans hleft.symm, fun _ => ⟨fun _ => hleft, fun _ => rfl⟩, ?_, fun _ => rfl⟩
    rcases hc with rfl | rfl <;> simp
  rw [exited] at h
  split at h
  · rename_i hx
    cases h
    exact hmoves _ (Or.inl rfl) (by simp [left, hx])
  · rename_i hx
    cases h
    exact hmoves _ (Or.inr rfl) (by simp [left, hx])
  · cases h

/-- One exit hook is executed. -/
theorem moves_once {hook : ExitHook} (h : x.once = some (hook, y)) :
    Moves (if hook = .pass then 1 else 0) x y := by
  have hmoves : ∀ c : Code, (c ≠ .entry ∧ c ≠ .ended ∧ c ≠ .destructed) →
      x.left = left { x with code := c } + (if hook = .pass then 1 else 0) →
      Moves (if hook = .pass then 1 else 0) x { x with code := c } := by
    intro c hc hleft
    refine ⟨hleft, fun h => h.of_code rfl ?_ ?_, fun h => absurd h hc.1, id⟩
    · rw [hleft]
      exact Nat.le_add_right _ _
    · rintro (h | h)
      · exact absurd h hc.2.1
      · exact absurd h hc.2.2
  rw [once] at h
  split at h
  · rename_i hx
    cases h
    exact hmoves _ (by simp) (by simp [left, hx, List.count_cons])
  · rename_i hx
    cases h
    exact hmoves _ (by simp) (by simp [left, hx, List.count_cons])
  · cases h

/-- A fiber is killed that does not pass the gate any more. -/
theorem moves_kill (hx : x.left = 0) : Moves 0 x x.kill where
  left := rfl
  inv := fun _ => ⟨fun _ => hx, fun _ => rfl⟩
  entry := fun h => ⟨h, rfl⟩
  dead := fun _ => rfl

end HookedFiber

namespace Gate

variable {F : Type*}

/-- A pass is counted, and the fibers that wait go on with the same code. -/
theorem pass_data (count : ℕ) (s : Monitor.State F Unit Code (Data F)) :
    (pass count s).1.data.passes = s.data.passes + 1 ∧ (pass count s).1.code = s.code := by
  rw [pass]
  dsimp only
  split
  · exact ⟨rfl, rfl⟩
  · exact ⟨rfl, rfl⟩

theorem Invariant.pass {count : ℕ} (hcount : count < 2 ^ 64)
    {s : Monitor.State F Unit Code (Data F)} (h : Invariant count s) :
    Invariant count (Gate.pass count s).1 := by
  rcases pass_spec hcount h.current_lt with ⟨hlast, heq⟩ | ⟨hlt, heq⟩
  · rw [heq]
    exact h.released hlast
  · rw [heq]
    exact h.passed hlt

variable [DecidableEq F]

/-- A wait is a pass, and it is not blocked when it is the last one of the generation. -/
theorem Invariant.wait {count : ℕ} (hcount : count < 2 ^ 64)
    {s t : Monitor.State F Unit Code (Data F)} (h : Invariant count s) {f : F}
    (hstep : Gate.step count s (.call f .wait) = some t) :
    t.data.passes = s.data.passes + 1 ∧ (t.code f = none → count ≤ t.data.passes) := by
  rcases Monitor.Program.stepBy_cases hstep with ⟨f', c, heq, hf, rfl⟩ | ⟨f', c, heq, -⟩ |
    ⟨q, f', c, c', heq, -⟩
  · cases heq
    have hjoin := h.join hf
    simp only [program, Gate.exec]
    rcases pass_spec hcount hjoin.current_lt with ⟨hlast, heq⟩ | ⟨-, heq⟩
    · rw [heq]
      refine ⟨rfl, fun _ => ?_⟩
      change count ≤ s.data.passes + 1
      rw [h.passes, Nat.add_assoc, show s.data.current + 1 = count from hlast]
      exact Nat.le_add_left _ _
    · rw [heq]
      refine ⟨rfl, fun hcode => ?_⟩
      rw [Monitor.State.finish_block_code, Function.update_self] at hcode
      cases hcode
  · cases heq
  · cases heq

/-- A fiber that was blocked goes on when its generation is complete. -/
theorem Invariant.resume {count : ℕ} {s t : Monitor.State F Unit Code (Data F)}
    (h : Invariant count s) {f : F} (hstep : Gate.step count s (.resume f) = some t) :
    t.data = s.data ∧ count ≤ s.data.passes := by
  rcases Monitor.Program.stepBy_cases hstep with ⟨f', c, heq, -⟩ | ⟨f', c, heq, hc, hw, rfl⟩ |
    ⟨q, f', c, c', heq, -⟩
  · cases heq
  · cases heq
    obtain rfl := h.code f c hc
    refine ⟨rfl, ?_⟩
    have hown := h.woken_own f hw
    have hcompleted : 0 < s.data.completed := by
      apply Nat.pos_of_ne_zero
      intro hzero
      rw [hzero, Nat.zero_mul] at hown
      exact Nat.not_lt_zero _ hown
    rw [h.passes]
    exact (Nat.le_mul_of_pos_left count hcompleted).trans (Nat.le_add_right _ _)
  · cases heq

end Gate

namespace Joiner

open Mailbox

variable {F O T E : Type*}

/-- What is still to be joined. -/
def remaining (s : Joiner F O T E) : List (Joined F O) :=
  match s.code with
  | .joining js => js
  | _ => []

/-- The futures whose wait did not return yet. -/
def pending (s : Joiner F O T E) : List O :=
  match s.code with
  | .joining _ => s.mJoin
  | .once hooks => hooks
  | .waiting o hooks => o :: hooks
  | .gate | .returned => []

/-- The pass of the destructor itself. -/
def own (s : Joiner F O T E) : ℕ :=
  match s.code with
  | .gate | .returned => 0
  | _ => 1

variable [DecidableEq F] [DecidableEq O]

/-- The fibers that are joined. -/
def joinedFibers (joined : List (Joined F O)) : Finset F :=
  (joined.filterMap fun
    | .fiber f => some f
    | .future _ => none).toFinset

omit [DecidableEq O] in
theorem mem_joinedFibers {joined : List (Joined F O)} {f : F} :
    f ∈ joinedFibers joined ↔ .fiber f ∈ joined := by
  rw [joinedFibers, List.mem_toFinset, List.mem_filterMap]
  constructor
  · rintro ⟨j, hj, hf⟩
    cases j with
    | fiber g =>
        rw [Option.some.inj hf] at hj
        exact hj
    | future o => cases hf
  · exact fun h => ⟨_, h, rfl⟩

/-- The passes that the exit hooks still make. -/
def leftAll (joined : List (Joined F O)) (fibers : F → HookedFiber) : ℕ :=
  ∑ f ∈ joinedFibers joined, (fibers f).left

/-- What holds in every state, as long as fibers are joined that are alive. -/
structure Inv (me : F) (joined : List (Joined F O)) (s : Joiner F O T E) : Prop where
  gate : Gate.Invariant (joined.length + 1) s.gate
  futures : ∀ o, Future.Invariant (s.futures o)
  fibers : ∀ f, (s.fibers f).Inv
  ledger : s.gate.data.passes + leftAll joined s.fibers + s.pending.length +
    s.remaining.length + s.own = joined.length + 1
  others : ∀ f, .fiber f ∉ joined → (s.fibers f).left = 0
  remaining : ∀ j ∈ s.remaining, j ∈ joined
  pending : ∀ o ∈ s.pending, .future o ∈ joined
  hooked : ∀ f, .fiber f ∈ joined → .fiber f ∉ s.remaining → (s.fibers f).code = .entry →
    0 < (s.fibers f).left
  settled : ∀ o, .future o ∈ joined → .future o ∉ s.remaining → o ∉ s.pending →
    (s.futures o).data.value.valid = true
  passed : s.code = .gate → s.gate.code me = none → joined.length + 1 ≤ s.gate.data.passes
  returned : s.code = .returned → ∀ j ∈ joined, s.Finished j

variable {me : F} {joined : List (Joined F O)} {s t : Joiner F O T E}

omit [DecidableEq O] in
theorem leftAll_update (fibers : F → HookedFiber) {f : F} (hf : .fiber f ∈ joined)
    (x : HookedFiber) :
    leftAll joined (Function.update fibers f x) + (fibers f).left =
      leftAll joined fibers + x.left := by
  have hmem := mem_joinedFibers.2 hf
  have hrest : ∑ g ∈ (joinedFibers joined).erase f, (Function.update fibers f x g).left =
      ∑ g ∈ (joinedFibers joined).erase f, (fibers g).left := by
    apply Finset.sum_congr rfl
    intro g hg
    rw [Function.update_of_ne (Finset.ne_of_mem_erase hg)]
  rw [leftAll, leftAll, ← Finset.add_sum_erase _ _ hmem, ← Finset.add_sum_erase _ _ hmem, hrest,
    Function.update_self]
  omega

omit [DecidableEq O] in
theorem leftAll_update_of_notMem (fibers : F → HookedFiber) {f : F} (hf : .fiber f ∉ joined)
    (x : HookedFiber) :
    leftAll joined (Function.update fibers f x) = leftAll joined fibers := by
  apply Finset.sum_congr rfl
  intro g hg
  rw [Function.update_of_ne]
  rintro rfl
  exact hf (mem_joinedFibers.1 hg)

omit [DecidableEq O] in
theorem inv_init : Inv me joined (init T E joined) where
  gate := Gate.invariant_idle (Nat.le_add_left 1 _)
  futures := fun _ => Future.invariant_idle
  fibers := fun _ => HookedFiber.inv_init
  ledger := by simp [init, Joiner.pending, Joiner.remaining, own, leftAll, HookedFiber.init,
    HookedFiber.left, Monitor.State.idle, Gate.Data.init]
  others := fun _ _ => rfl
  remaining := fun _ => id
  pending := fun o ho => by cases ho
  hooked := fun f hf hn => absurd hf hn
  settled := fun o ho hn => absurd ho hn
  passed := fun h => by cases h
  returned := fun h => by cases h

omit [DecidableEq O] in
/-- A joiner waits for exactly what has not finished. -/
theorem Inv.waitsExactly (h : Inv me joined s) : WaitsExactly me joined s := by
  refine ⟨?_, h.returned⟩
  rintro (⟨o, hooks, hcode, hme⟩ | ⟨hcode, hme⟩)
  · have ho : o ∈ s.pending := by simp [Joiner.pending, hcode]
    refine ⟨.future o, h.pending o ho, ?_⟩
    intro hvalid
    change (s.futures o).data.value.valid = true at hvalid
    obtain hpending | ⟨item, hdone⟩ := (h.futures o).either
    · rw [hpending.value] at hvalid
      cases hvalid
    · rw [hdone.queue] at hme
      cases hme
  · by_contra hnone
    have hall : ∀ j ∈ joined, s.Finished j := fun j hj =>
      by_contra fun hn => hnone ⟨j, hj, hn⟩
    -- all passes were made, so the gate has opened and nobody is left in its queue
    have hleft : leftAll joined s.fibers = 0 := by
      apply Finset.sum_eq_zero
      intro f hf
      exact (h.fibers f).left (hall _ (mem_joinedFibers.1 hf))
    have hpasses : s.gate.data.passes = joined.length + 1 := by
      simpa [Joiner.pending, Joiner.remaining, own, hcode, hleft] using h.ledger
    have hgate := h.gate.passes
    have hlt := h.gate.current_lt
    have hqueue := List.length_pos_of_mem hme
    have hle := h.gate.queue_le
    have hcompleted : s.gate.data.completed = 0 := by
      by_contra hne
      have := Nat.le_mul_of_pos_left (joined.length + 1) (Nat.pos_of_ne_zero hne)
      omega
    rw [hcompleted] at hgate
    omega

omit [DecidableEq O] in
/-- A fiber moves on, and passes the gate as often as that says. -/
theorem Inv.setFiber (h : Inv me joined s) {f : F} {x : HookedFiber} {k : ℕ}
    (hx : HookedFiber.Moves k (s.fibers f) x)
    {gate : Monitor.State F Unit Gate.Code (Gate.Data F)}
    (hgate : Gate.Invariant (joined.length + 1) gate) (hcode : gate.code = s.gate.code)
    (hpasses : gate.data.passes = s.gate.data.passes + k) :
    Inv me joined (Joiner.setFiber f x { s with gate := gate }) := by
  have hleft := hx.left
  refine ⟨hgate, h.futures, ?_, ?_, ?_, h.remaining, h.pending, ?_, h.settled, ?_, ?_⟩
  · exact (Function.forall_update_iff s.fibers fun _ y => y.Inv).2
      ⟨hx.inv (h.fibers f), fun g _ => h.fibers g⟩
  · have hledger := h.ledger
    change gate.data.passes + leftAll joined (Function.update s.fibers f x) +
      s.pending.length + s.remaining.length + s.own = joined.length + 1
    by_cases hf : .fiber f ∈ joined
    · have hupdate := leftAll_update s.fibers hf x
      omega
    · have hnone := h.others f hf
      rw [leftAll_update_of_notMem s.fibers hf]
      omega
  · apply (Function.forall_update_iff s.fibers fun g y => .fiber g ∉ joined → y.left = 0).2
    refine ⟨?_, fun g _ => h.others g⟩
    intro hf
    have hnone := h.others f hf
    omega
  · apply (Function.forall_update_iff s.fibers fun g y => .fiber g ∈ joined →
      .fiber g ∉ s.remaining → y.code = .entry → 0 < y.left).2
    refine ⟨?_, fun g _ => h.hooked g⟩
    intro hf hn hentry
    obtain ⟨hentry, hk⟩ := hx.entry hentry
    have hpos := h.hooked f hf hn hentry
    omega
  · intro hc hn
    change gate.code me = none at hn
    rw [hcode] at hn
    rw [show (Joiner.setFiber f x { s with gate := gate }).gate = gate from rfl, hpasses]
    exact (h.passed hc hn).trans (Nat.le_add_right _ _)
  · intro hc j hj
    have hold := h.returned hc j hj
    cases j with
    | future o => exact hold
    | fiber g =>
        exact (Function.forall_update_iff s.fibers fun g y => (s.fibers g).dead = true →
          y.dead = true).2 ⟨hx.dead, fun _ _ => id⟩ g hold

omit [DecidableEq O] in
/-- A fiber moves on, and does not pass the gate. -/
theorem Inv.setFiber_zero (h : Inv me joined s) {f : F} {x : HookedFiber}
    (hx : HookedFiber.Moves 0 (s.fibers f) x) : Inv me joined (s.setFiber f x) :=
  h.setFiber hx h.gate rfl rfl

omit [DecidableEq O] in
/-- A fiber executes an exit hook. -/
theorem Inv.once (h : Inv me joined s) (hcount : joined.length + 1 < 2 ^ 64) {f : F}
    {hook : ExitHook} {x : HookedFiber} (hx : (s.fibers f).once = some (hook, x)) :
    Inv me joined ((s.execute (joined.length + 1) hook).setFiber f x) := by
  have hmoves := HookedFiber.moves_once hx
  cases hook with
  | other => exact h.setFiber_zero hmoves
  | pass =>
      obtain ⟨hpasses, hcode⟩ := Gate.pass_data (joined.length + 1) s.gate
      exact h.setFiber hmoves (h.gate.pass hcount) hcode hpasses

/-- A future is used or set. -/
theorem Inv.setFuture (h : Inv me joined s) {o : O}
    {future : Monitor.State F Unit (Future.Code T E) (Future.Data T E)}
    (hfuture : Future.Invariant future)
    (hvalid : (s.futures o).data.value.valid = true → future.data.value.valid = true) :
    Inv me joined (s.setFuture o future) := by
  have hall : ∀ o', (s.futures o').data.value.valid = true →
      (Function.update s.futures o future o').data.value.valid = true :=
    (Function.forall_update_iff s.futures fun o' future' =>
      (s.futures o').data.value.valid = true → future'.data.value.valid = true).2
      ⟨hvalid, fun _ _ => id⟩
  refine ⟨h.gate, ?_, h.fibers, h.ledger, h.others, h.remaining, h.pending, h.hooked, ?_,
    h.passed, ?_⟩
  · exact (Function.forall_update_iff s.futures fun _ => Future.Invariant).2
      ⟨hfuture, fun o' _ => h.futures o'⟩
  · exact fun o' ho' hn hp => hall o' (h.settled o' ho' hn hp)
  · intro hc j hj
    have hold := h.returned hc j hj
    cases j with
    | fiber f => exact hold
    | future o' => exact hall o' hold

/-- Somebody uses a future, but does not set it. -/
theorem Inv.use (h : Inv me joined s) {f : F} {o : O}
    {l : Monitor.Label F Unit (Future.Call T E)} (hl : ∀ f item, l ≠ .call f (.set item))
    (hs : s.use me f o l = some t) : Inv me joined t := by
  obtain ⟨-, hs⟩ := Option.ite_none_left_eq_some.1 hs
  obtain ⟨future, hfuture, rfl⟩ := Option.map_eq_some_iff.1 hs
  apply h.setFuture
  · exact (h.futures o).step (Future.setOnce_of_ne hl) hfuture
  · exact (h.futures o).valid_step hl hfuture

omit [DecidableEq O] in
/-- A fiber is joined that is alive, and in its function. -/
theorem Inv.joinFiber (h : Inv me joined s) {f : F} {js : List (Joined F O)}
    (hcode : s.code = .joining (.fiber f :: js)) (hdead : (s.fibers f).dead = false)
    (hentry : (s.fibers f).code = .entry) :
    Inv me joined ((s.setFiber f ((s.fibers f).atExit .pass)).setCode (.joining js)) := by
  have hremaining : s.remaining = .fiber f :: js := by simp [Joiner.remaining, hcode]
  have hpending : s.pending = s.mJoin := by simp [Joiner.pending, hcode]
  have hf : .fiber f ∈ joined := h.remaining _ (by simp [hremaining])
  have hleft := HookedFiber.left_atExit hentry
  refine ⟨h.gate, h.futures, ?_, ?_, ?_, ?_, ?_, ?_, ?_, ?_, ?_⟩
  · apply (Function.forall_update_iff s.fibers fun _ y => y.Inv).2
    refine ⟨⟨fun hd => ?_, fun hc => ?_⟩, fun g _ => h.fibers g⟩
    · cases hdead.symm.trans hd
    · rcases hc with hc | hc <;> cases hentry.symm.trans hc
  · have hledger := h.ledger
    have hupdate := leftAll_update s.fibers hf ((s.fibers f).atExit .pass)
    have hown : s.own = 1 := by simp [own, hcode]
    rw [hremaining, hpending, hown, List.length_cons] at hledger
    change s.gate.data.passes + leftAll joined (Function.update s.fibers f _) + s.mJoin.length +
      js.length + 1 = joined.length + 1
    omega
  · apply (Function.forall_update_iff s.fibers fun g y => .fiber g ∉ joined → y.left = 0).2
    exact ⟨fun hn => absurd hf hn, fun g _ => h.others g⟩
  · intro j hj
    exact h.remaining j (by rw [hremaining]; exact List.mem_cons_of_mem _ hj)
  · intro o ho
    exact h.pending o (hpending ▸ ho)
  · apply (Function.forall_update_iff s.fibers fun g y => .fiber g ∈ joined → .fiber g ∉ js →
      y.code = .entry → 0 < y.left).2
    refine ⟨fun _ _ _ => ?_, fun g hg hj hn => h.hooked g hj ?_⟩
    · rw [hleft]
      exact Nat.succ_pos _
    · rw [hremaining, List.mem_cons, not_or]
      exact ⟨fun heq => hg (Joined.fiber.inj heq), hn⟩
  · intro o ho hn hp
    apply h.settled o ho
    · rw [hremaining, List.mem_cons, not_or]
      exact ⟨by simp, hn⟩
    · exact hpending ▸ hp
  · intro hc
    cases hc
  · intro hc
    cases hc

omit [DecidableEq O] in
/-- A future is joined. -/
theorem Inv.joinFuture (h : Inv me joined s) {o : O} {js : List (Joined F O)}
    (hcode : s.code = .joining (.future o :: js)) :
    Inv me joined (setCode (.joining js) { s with mJoin := o :: s.mJoin }) := by
  have hremaining : s.remaining = .future o :: js := by simp [Joiner.remaining, hcode]
  have hpending : s.pending = s.mJoin := by simp [Joiner.pending, hcode]
  refine ⟨h.gate, h.futures, h.fibers, ?_, h.others, ?_, ?_, ?_, ?_, ?_, ?_⟩
  · have hledger := h.ledger
    have hown : s.own = 1 := by simp [own, hcode]
    rw [hremaining, hpending, hown, List.length_cons] at hledger
    change s.gate.data.passes + leftAll joined s.fibers + (o :: s.mJoin).length + js.length + 1 =
      joined.length + 1
    rw [List.length_cons]
    omega
  · intro j hj
    exact h.remaining j (by rw [hremaining]; exact List.mem_cons_of_mem _ hj)
  · intro o' ho'
    rcases List.mem_cons.1 (show o' ∈ o :: s.mJoin from ho') with rfl | ho'
    · exact h.remaining _ (by simp [hremaining])
    · exact h.pending o' (hpending ▸ ho')
  · intro f hf hn
    apply h.hooked f hf
    rw [hremaining, List.mem_cons, not_or]
    exact ⟨by simp, hn⟩
  · intro o' ho' hn hp
    obtain ⟨hne, hp⟩ := not_or.1 (mt List.mem_cons.2 (show o' ∉ o :: s.mJoin from hp))
    apply h.settled o' ho'
    · rw [hremaining, List.mem_cons, not_or]
      exact ⟨fun heq => hne (Joined.future.inj heq), hn⟩
    · exact hpending ▸ hp
  · intro hc
    cases hc
  · intro hc
    cases hc

omit [DecidableEq O] in
/-- The joiner goes on, with the same waits ahead. -/
theorem Inv.setCode (h : Inv me joined s) {c : Code F O}
    (hremaining : (s.setCode c).remaining = s.remaining)
    (hpending : (s.setCode c).pending = s.pending) (hown : (s.setCode c).own = s.own)
    (hgate : c ≠ .gate) (hreturned : c ≠ .returned) : Inv me joined (s.setCode c) := by
  refine ⟨h.gate, h.futures, h.fibers, ?_, h.others, ?_, ?_, ?_, ?_, ?_, ?_⟩
  · rw [hremaining, hpending, hown]
    exact h.ledger
  · rw [hremaining]
    exact h.remaining
  · rw [hpending]
    exact h.pending
  · rw [hremaining]
    exact h.hooked
  · rw [hremaining, hpending]
    exact h.settled
  · exact fun hc => absurd hc hgate
  · exact fun hc => absurd hc hreturned

omit [DecidableEq O] in
/-- The wait for a future has returned. -/
theorem Inv.pass (h : Inv me joined s) (hcount : joined.length + 1 < 2 ^ 64) {o : O}
    {hooks : List O} (hcode : s.code = .once (o :: hooks) ∨ s.code = .waiting o hooks)
    (hvalid : (s.futures o).data.value.valid = true) :
    Inv me joined (s.passed (joined.length + 1) hooks) := by
  have hremaining : s.remaining = [] := by
    rcases hcode with hcode | hcode <;> simp [Joiner.remaining, hcode]
  have hpending : s.pending = o :: hooks := by
    rcases hcode with hcode | hcode <;> simp [Joiner.pending, hcode]
  refine ⟨h.gate.pass hcount, h.futures, h.fibers, ?_, h.others, ?_, ?_, ?_, ?_, ?_, ?_⟩
  · have hledger := h.ledger
    have hown : s.own = 1 := by
      rcases hcode with hcode | hcode <;> simp [own, hcode]
    rw [hremaining, hpending, hown, List.length_cons, List.length_nil] at hledger
    change (Gate.pass _ s.gate).1.data.passes + leftAll joined s.fibers + hooks.length + 0 + 1 =
      joined.length + 1
    rw [(Gate.pass_data _ s.gate).1]
    omega
  · intro j hj
    cases hj
  · exact fun o' ho' => h.pending o' (hpending ▸ List.mem_cons_of_mem o ho')
  · exact fun f hf _ => h.hooked f hf (by simp [hremaining])
  · intro o' ho' _ hp
    by_cases heq : o' = o
    · rw [heq]
      exact hvalid
    · apply h.settled o' ho' (by simp [hremaining])
      rw [hpending, List.mem_cons, not_or]
      exact ⟨heq, hp⟩
  · intro hc
    cases hc
  · intro hc
    cases hc

omit [DecidableEq O] in
/-- Only the gate is left. -/
theorem Inv.enterGate (h : Inv me joined s) (hcount : joined.length + 1 < 2 ^ 64)
    (hcode : s.code = .once []) {gate : Monitor.State F Unit Gate.Code (Gate.Data F)}
    (hstep : Gate.step (joined.length + 1) s.gate (.call me .wait) = some gate) :
    Inv me joined { s with gate := gate, code := .gate } := by
  have hremaining : s.remaining = [] := by simp [Joiner.remaining, hcode]
  have hpending : s.pending = [] := by simp [Joiner.pending, hcode]
  obtain ⟨hpasses, hlast⟩ := h.gate.wait hcount hstep
  refine ⟨h.gate.step hcount hstep, h.futures, h.fibers, ?_, h.others, ?_, ?_, ?_, ?_, ?_, ?_⟩
  · have hledger := h.ledger
    have hown : s.own = 1 := by simp [own, hcode]
    rw [hremaining, hpending, hown, List.length_nil, List.length_nil] at hledger
    change gate.data.passes + leftAll joined s.fibers + 0 + 0 + 0 = joined.length + 1
    rw [hpasses]
    omega
  · intro j hj
    cases hj
  · intro o ho
    cases ho
  · exact fun f hf _ => h.hooked f hf (by simp [hremaining])
  · exact fun o ho _ _ => h.settled o ho (by simp [hremaining]) (by simp [hpending])
  · exact fun _ => hlast
  · intro hc
    cases hc

omit [DecidableEq O] in
/-- The gate has opened. -/
theorem Inv.leaveGate (h : Inv me joined s) (hcode : s.code = .gate)
    {gate : Monitor.State F Unit Gate.Code (Gate.Data F)}
    (hgate : Gate.Invariant (joined.length + 1) gate) (hdata : gate.data = s.gate.data)
    (hpasses : joined.length + 1 ≤ s.gate.data.passes)
    (hafter : ∀ f, .fiber f ∈ joined → ¬ (s.fibers f).AfterPass) :
    Inv me joined { s with gate := gate, code := .returned } := by
  have hremaining : s.remaining = [] := by simp [Joiner.remaining, hcode]
  have hpending : s.pending = [] := by simp [Joiner.pending, hcode]
  have hown : s.own = 0 := by simp [own, hcode]
  have hledger := h.ledger
  rw [hremaining, hpending, hown, List.length_nil, List.length_nil] at hledger
  refine ⟨hgate, h.futures, h.fibers, ?_, h.others, ?_, ?_, ?_, ?_, ?_, ?_⟩
  · change gate.data.passes + leftAll joined s.fibers + 0 + 0 + 0 = joined.length + 1
    rw [hdata]
    exact hledger
  · intro j hj
    cases hj
  · intro o ho
    cases ho
  · exact fun f hf _ => h.hooked f hf (by simp [hremaining])
  · exact fun o ho _ _ => h.settled o ho (by simp [hremaining]) (by simp [hpending])
  · intro hc
    cases hc
  · intro _ j hj
    cases j with
    | future o => exact h.settled o hj (by simp [hremaining]) (by simp [hpending])
    | fiber f =>
        -- nothing is left in its hooks, so it is not in its function any more
        have hall : leftAll joined s.fibers = 0 := by omega
        have hleft : (s.fibers f).left = 0 :=
          Finset.sum_eq_zero_iff.1 hall f (mem_joinedFibers.2 hj)
        have hdead : (s.fibers f).InHooks → (s.fibers f).dead = true := fun hin => by
          by_contra hne
          exact hafter f hj ⟨hin, hleft, Bool.eq_false_iff.2 hne⟩
        cases hx : (s.fibers f).code with
        | entry =>
            have hpos := h.hooked f hj (by simp [hremaining]) hx
            rw [hleft] at hpos
            exact absurd hpos (Nat.lt_irrefl 0)
        | exit hooks => exact hdead (Or.inl ⟨hooks, hx⟩)
        | destructor hooks => exact hdead (Or.inr ⟨hooks, hx⟩)
        | ended => exact (h.fibers f).dead (Or.inl hx)
        | destructed => exact (h.fibers f).dead (Or.inr hx)

theorem Inv.next (h : Inv me joined s) (hcount : joined.length + 1 < 2 ^ 64)
    (hok : ∀ f js, s.code = .joining (.fiber f :: js) →
      (s.fibers f).dead = false ∧ (s.fibers f).code = .entry)
    (hs : s.next me (joined.length + 1) = some t) : Inv me joined t := by
  rw [Joiner.next] at hs
  split at hs
  · rename_i j js hcode
    obtain ⟨s', hs', rfl⟩ := Option.map_eq_some_iff.1 hs
    cases j with
    | fiber f =>
        obtain ⟨-, hs'⟩ := Option.ite_none_left_eq_some.1 hs'
        obtain rfl := Option.some.inj hs'
        obtain ⟨hdead, hentry⟩ := hok f js hcode
        exact h.joinFiber hcode hdead hentry
    | future o =>
        obtain rfl := Option.some.inj hs'
        exact h.joinFuture hcode
  · rename_i hcode
    obtain rfl := Option.some.inj hs
    apply h.setCode
    · simp [Joiner.remaining, hcode, Joiner.setCode]
    · simp [Joiner.pending, hcode, Joiner.setCode]
    · simp [own, hcode, Joiner.setCode]
    · simp
    · simp
  · rename_i o hooks hcode
    obtain ⟨future, hfuture, rfl⟩ := Option.map_eq_some_iff.1 hs
    have hset : Inv me joined (s.setFuture o future) :=
      h.setFuture ((h.futures o).step (Future.setOnce_of_ne (by simp)) hfuture)
        ((h.futures o).valid_step (by simp) hfuture)
    have hcode' : (s.setFuture o future).code = .once (o :: hooks) := hcode
    split
    · rename_i hnone
      apply hset.pass hcount (Or.inl hcode')
      change (Function.update s.futures o future o).data.value.valid = true
      rw [Function.update_self]
      exact (h.futures o).valid_step (by simp) hfuture
        (Future.valid_of_wait hfuture (Option.isNone_iff_eq_none.1 hnone))
    · apply hset.setCode
      · simp [Joiner.remaining, hcode', Joiner.setCode]
      · simp [Joiner.pending, hcode', Joiner.setCode]
      · simp [own, hcode', Joiner.setCode]
      · simp
      · simp
  · rename_i hcode
    obtain ⟨gate, hgate, rfl⟩ := Option.map_eq_some_iff.1 hs
    exact h.enterGate hcount hcode hgate
  all_goals cases hs

theorem Inv.resume (h : Inv me joined s) (hcount : joined.length + 1 < 2 ^ 64)
    (hok : s.code = .gate → ∀ f, .fiber f ∈ joined → ¬ (s.fibers f).AfterPass)
    (hs : s.resume me (joined.length + 1) = some t) : Inv me joined t := by
  rw [Joiner.resume] at hs
  split at hs
  · rename_i o hooks hcode
    obtain ⟨future, hfuture, rfl⟩ := Option.map_eq_some_iff.1 hs
    have hvalid := (h.futures o).valid_step (by simp) hfuture
      ((h.futures o).valid_of_resume hfuture)
    have hset : Inv me joined (s.setFuture o future) :=
      h.setFuture ((h.futures o).step (Future.setOnce_of_ne (by simp)) hfuture) fun _ => hvalid
    apply hset.pass hcount (Or.inr hcode)
    change (Function.update s.futures o future o).data.value.valid = true
    rw [Function.update_self]
    exact hvalid
  · rename_i hcode
    split at hs
    · rename_i hnone
      obtain rfl := Option.some.inj hs
      exact h.leaveGate hcode h.gate rfl
        (h.passed hcode (Option.isNone_iff_eq_none.1 hnone)) (hok hcode)
    · obtain ⟨gate, hgate, rfl⟩ := Option.map_eq_some_iff.1 hs
      obtain ⟨hdata, hpasses⟩ := h.gate.resume hgate
      exact h.leaveGate hcode (h.gate.step hcount hgate) hdata hpasses (hok hcode)
  all_goals cases hs

omit [DecidableEq F] [DecidableEq O] in
theorem outcome_item (r : Except E T) : (item r).outcome ≠ none := by
  cases r <;> simp [item, Item.outcome]

/-- The step lemma. -/
theorem Inv.step (h : Inv me joined s) (hcount : joined.length + 1 < 2 ^ 64)
    {l : Label F O T E} (hok : JoinsRunning joined s l)
    (hs : Joiner.step me (joined.length + 1) s l = some t) : Inv me joined t := by
  cases l with
  | next => exact h.next hcount hok hs
  | resume => exact h.resume hcount hok hs
  | returns f =>
      obtain ⟨x, hx, rfl⟩ := Option.map_eq_some_iff.1 hs
      exact h.setFiber_zero (HookedFiber.moves_returns hx)
  | once f =>
      obtain ⟨⟨hook, x⟩, hx, rfl⟩ := Option.map_eq_some_iff.1 hs
      exact h.once hcount hx
  | exited f =>
      obtain ⟨x, hx, rfl⟩ := Option.map_eq_some_iff.1 hs
      exact h.setFiber_zero (HookedFiber.moves_exited hx)
  | kill f =>
      obtain rfl := Option.some.inj hs
      exact h.setFiber_zero (HookedFiber.moves_kill hok)
  | delete f =>
      obtain ⟨x, hx, rfl⟩ := Option.map_eq_some_iff.1 hs
      exact h.setFiber_zero (HookedFiber.moves_delete hx)
  | atExit f =>
      obtain ⟨-, hs⟩ := Option.ite_none_left_eq_some.1 hs
      obtain rfl := Option.some.inj hs
      exact h.setFiber_zero HookedFiber.moves_atExit
  | set o r =>
      obtain ⟨hvalid, hs⟩ := Option.ite_none_left_eq_some.1 hs
      obtain rfl := Option.some.inj hs
      obtain ⟨hassign, hassigned⟩ :=
        (h.futures o).assign (Bool.eq_false_iff.2 hvalid) (outcome_item r)
      exact h.setFuture hassign fun _ => hassigned
  | wait o f => exact h.use (by simp) hs
  | value o f => exact h.use (by simp) hs
  | go o f => exact h.use (by simp) hs

/-- In every run in which every fiber is alive and in its function when it is joined, is not
killed before it passed the gate, and does not switch to the joiner in an exit hook after the pass:
the joiner waits for exactly what has not finished. -/
theorem waitsExactly_of_joinsRunning (me : F) (joined : List (Joined F O))
    (hcount : joined.length + 1 < 2 ^ 64) {ls : List (Label F O T E)} {u : Joiner F O T E}
    (hg : Transition.Guarded (Joiner.step me (joined.length + 1)) (JoinsRunning joined)
      (init T E joined) ls)
    (hr : Transition.run (Joiner.step me (joined.length + 1)) (init T E joined) ls = some u) :
    WaitsExactly me joined u :=
  (hg.invariant (fun _ _ _ h hok hs => h.step hcount hok hs) inv_init hr :
    Inv me joined u).waitsExactly

/-- Fiber 0 joins fiber 1 and future 0, which finish while it is blocked. -/
def finishesWhileBlocked : List (Label ℕ ℕ ℕ ℕ) :=
  [.next, .next, .next, .next, .set 0 (.ok 7), .returns 1, .once 1, .exited 1, .resume, .next,
    .resume]

theorem waitsExactly_of_joinsRunning_finishesWhileBlocked :
    ∃ u, Transition.run (Joiner.step 0 3) (init ℕ ℕ [.fiber 1, .future 0])
        finishesWhileBlocked = some u ∧
      u.code = .returned ∧ WaitsExactly 0 [.fiber 1, .future 0] u := by
  have hg : Transition.Guarded (Joiner.step 0 3) (JoinsRunning [.fiber 1, .future 0])
      (init ℕ ℕ [.fiber 1, .future 0]) finishesWhileBlocked :=
    .cons (fun f js h => by cases h; exact ⟨rfl, rfl⟩) rfl (.cons (fun f js h => by cases h) rfl
      (.cons (fun f js h => by cases h) rfl (.cons (fun f js h => by cases h) rfl
        (.cons trivial rfl (.cons trivial rfl (.cons trivial rfl (.cons trivial rfl
          (.cons (fun h => by cases h) rfl (.cons (fun f js h => by cases h) rfl
            (.cons (fun _ f hf hafter => by
              obtain rfl : f = 1 := by simpa using hf
              cases hafter.2.2) rfl trivial))))))))))
  have hr : ∃ u, Transition.run (Joiner.step 0 3) (init ℕ ℕ [.fiber 1, .future 0])
      finishesWhileBlocked = some u ∧ u.code = .returned := ⟨_, rfl, rfl⟩
  obtain ⟨u, hr, hcode⟩ := hr
  exact ⟨u, hr, hcode, waitsExactly_of_joinsRunning 0 [.fiber 1, .future 0] (by decide) hg hr⟩

/-- Fiber 1 exits, and is joined after that. -/
def joinedTooLate : List (Label ℕ ℕ ℕ ℕ) :=
  [.returns 1, .exited 1, .next, .next, .next]

/-- The exit hooks of fiber 1 are not executed any more, so the joiner stays blocked. -/
theorem joinedTooLate_blocked :
    ∃ u, Transition.run (Joiner.step 0 2) (init ℕ ℕ [.fiber 1]) joinedTooLate = some u ∧
      Blocked 0 u ∧ (∀ j ∈ [.fiber 1], u.Finished j) ∧ ¬ WaitsExactly 0 [.fiber 1] u := by
  have hr : ∃ u, Transition.run (Joiner.step 0 2) (init ℕ ℕ [.fiber 1]) joinedTooLate = some u ∧
      u.code = .gate ∧ u.gate.queue () = [0] ∧ (u.fibers 1).dead = true := ⟨_, rfl, rfl, rfl, rfl⟩
  obtain ⟨u, hr, hcode, hqueue, hdead⟩ := hr
  have hblocked : Blocked 0 u := Or.inr ⟨hcode, by simp [hqueue]⟩
  have hall : ∀ j ∈ [.fiber 1], u.Finished j := by
    intro j hj
    rw [List.mem_singleton.1 hj]
    exact hdead
  refine ⟨u, hr, hblocked, hall, ?_⟩
  rintro ⟨hsome, -⟩
  obtain ⟨j, hj, hn⟩ := hsome hblocked
  exact hn (hall j hj)

end Joiner

end Zth
