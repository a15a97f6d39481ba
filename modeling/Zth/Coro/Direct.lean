import Zth.Coro.Task

/-!
# Tasks in direct style

A task that awaits another one could as well call it like a function: it is evaluated when it is
awaited for the first time, and its result is remembered. That is what the programmer reads in a
coroutine.

The lemmas below compare the two for one step of a task: what it computes, creates and awaits,
and how it calls another task and goes on with the result.
-/

namespace Zth.Coro

variable {σ α E : Type*}

/-- A task is not started, it is being evaluated, or its result is known. -/
inductive TaskStatus (σ α E : Type*) where
  | fresh (body : TaskBody σ α E)
  | active
  | done (r : Except E α)

/-- The state of the program, and what is known of all tasks. -/
structure TaskStore (σ α E : Type*) where
  state : σ
  tasks : List (TaskStatus σ α E)

def TaskStore.setTask (d : ℕ) (t : TaskStatus σ α E) (s : TaskStore σ α E) : TaskStore σ α E :=
  { s with tasks := s.tasks.set d t }

/-- The body evaluates to a result, with the state of the program and the tasks as they are left
behind. A task that awaits a task that is being evaluated, evaluates to nothing. -/
inductive Evaluates (problem : Tasks.Problem → E) :
    TaskBody σ α E → TaskStore σ α E → Except E α → TaskStore σ α E → Prop
  | coReturn (v : α) (s : TaskStore σ α E) : Evaluates problem (.coReturn v) s (.ok v) s
  | throw (e : E) (s : TaskStore σ α E) : Evaluates problem (.throw e) s (.error e) s
  | compute {f : σ → σ} {rest : σ → TaskBody σ α E} {s t : TaskStore σ α E} {r : Except E α} :
      Evaluates problem (rest (f s.state)) { s with state := f s.state } r t →
        Evaluates problem (.compute f rest) s r t
  | create {body : TaskBody σ α E} {rest : ℕ → TaskBody σ α E} {s t : TaskStore σ α E}
      {r : Except E α} :
      Evaluates problem (rest s.tasks.length) { s with tasks := s.tasks ++ [.fresh body] } r t →
        Evaluates problem (.create body rest) s r t
  | null {d : ℕ} {rest : Except E α → TaskBody σ α E} {s t : TaskStore σ α E}
      {r : Except E α} :
      s.tasks[d]? = none → Evaluates problem (rest (.error (problem .alreadyCompleted))) s r t →
        Evaluates problem (.coAwait d rest) s r t
  | known {d : ℕ} {rest : Except E α → TaskBody σ α E} {s t : TaskStore σ α E}
      {x r : Except E α} :
      s.tasks[d]? = some (.done x) → Evaluates problem (rest x) s r t →
        Evaluates problem (.coAwait d rest) s r t
  | call {d : ℕ} {body : TaskBody σ α E} {rest : Except E α → TaskBody σ α E}
      {s s' t : TaskStore σ α E} {x r : Except E α} :
      s.tasks[d]? = some (.fresh body) → Evaluates problem body (s.setTask d .active) x s' →
        Evaluates problem (rest x) (s'.setTask d (.done x)) r t →
        Evaluates problem (.coAwait d rest) s r t

/-- `run` of a task, in direct style. -/
inductive Runs (problem : Tasks.Problem → E) (s : TaskStore σ α E) (c : ℕ) :
    Except E α → TaskStore σ α E → Prop
  | null : s.tasks[c]? = none → Runs problem s c (.error (problem .alreadyCompleted)) s
  | known {x : Except E α} : s.tasks[c]? = some (.done x) → Runs problem s c x s
  | call {body : TaskBody σ α E} {t : TaskStore σ α E} {x : Except E α} :
      s.tasks[c]? = some (.fresh body) → Evaluates problem body (s.setTask c .active) x t →
        Runs problem s c x (t.setTask c (.done x))

/-- What is known of a task. -/
def TaskPromise.status (p : TaskPromise σ α E) : TaskStatus σ α E :=
  match p.mFuture with
  | some r => .done r
  | none =>
      match p.point with
      | .initial b => .fresh b
      | _ => .active

/-- A task that is under evaluation behind the evaluation of a body, was so before. -/
theorem Evaluates.active {problem : Tasks.Problem → E} {b : TaskBody σ α E}
    {s t : TaskStore σ α E} {r : Except E α} (h : Evaluates problem b s r t) {i : ℕ}
    (hi : t.tasks[i]? = some .active) : s.tasks[i]? = some .active := by
  induction h with
  | coReturn v s => exact hi
  | throw e s => exact hi
  | compute _ ih => exact ih hi
  | create _ ih =>
      have hi := ih hi
      rw [List.getElem?_append] at hi
      split at hi
      · exact hi
      · rw [List.getElem?_singleton] at hi
        split at hi
        · cases hi
        · cases hi
  | null _ _ ih => exact ih hi
  | known _ _ ih => exact ih hi
  | @call d body rest s s' t x r hd _ _ ih ih' =>
      have hi := ih' hi
      rw [TaskStore.setTask, List.getElem?_set] at hi
      split at hi
      · split at hi
        · cases hi
        · cases hi
      · rename_i hne
        have hi := ih hi
        rwa [TaskStore.setTask, List.getElem?_set_ne hne] at hi

namespace Tasks

variable {problem : Problem → E} {m m' : Tasks σ α E} {c d : ℕ} {κ e : Option ℕ}

def store (m : Tasks σ α E) : TaskStore σ α E := ⟨m.state, m.promises.map TaskPromise.status⟩

/-- The task cannot be run: it runs already, or it awaits a task that it is the continuation
of. -/
def Busy (m : Tasks σ α E) (i : ℕ) (p : TaskPromise σ α E) : Prop :=
  p.running = true ∨ ∃ d rest q, p.point = .awaiting d rest ∧ m.promises[d]? = some q ∧
    q.mContinuation = some i ∧ q.mFuture = none

/-- The promise of a task is as its status says. -/
def Proper (m : Tasks σ α E) (i : ℕ) (p : TaskPromise σ α E) : Prop :=
  match p.status with
  | .fresh b => p = .init b
  | .done r => p = ⟨.final, false, none, some r⟩
  | .active => m.Busy i p

/-- All promises are, but for that of the task `e`. -/
def Sound (e : Option ℕ) (m : Tasks σ α E) : Prop :=
  ∀ i p, m.promises[i]? = some p → e ≠ some i → m.Proper i p

/-- The task `c` executes the body. -/
structure Executing (c : ℕ) (κ : Option ℕ) (b : TaskBody σ α E) (m : Tasks σ α E) : Prop where
  control : m.control = .executing c b
  promise : m.promises[c]? = some ⟨.executing, true, κ, none⟩
  sound : m.Sound none

/-- Other tasks that are being evaluated were left alone. -/
structure Kept (c : ℕ) (m m' : Tasks σ α E) : Prop where
  root : m'.root = m.root
  promise : ∀ i p, i ≠ c → m.promises[i]? = some p → p.status = .active →
    m'.promises[i]? = some p

/-- The task `c` is at its end, and its continuation is going to be resumed. -/
structure Finished (problem : Problem → E) (c : ℕ) (κ : Option ℕ) (b : TaskBody σ α E)
    (r : Except E α) (t : TaskStore σ α E) (m m' : Tasks σ α E) : Prop where
  control : m'.control = .transfer κ
  promise : m'.promises[c]? = some ⟨.final, false, none, some r⟩
  sound : m'.Sound κ
  kept : Kept c m m'
  evaluates : Evaluates problem b m.store r t
  store : m'.store = t.setTask c (.done r)

theorem store_tasks (m : Tasks σ α E) (i : ℕ) :
    m.store.tasks[i]? = m.promises[i]?.map TaskPromise.status := by
  rw [store, List.getElem?_map]

/-- An entry that is replaced by an equal one. -/
theorem set_of_getElem? {β : Type*} {l : List β} {i : ℕ} {a : β} (h : l[i]? = some a) :
    l.set i a = l := by
  obtain ⟨hi, rfl⟩ := List.getElem?_eq_some_iff.1 h
  exact List.set_getElem_self hi

theorem getElem?_set_of_getElem? {β : Type*} {l : List β} {i : ℕ} {a b : β}
    (h : l[i]? = some a) : (l.set i b)[i]? = some b :=
  List.getElem?_set_self (List.getElem?_eq_some_iff.1 h).1

theorem store_setPromise (c : ℕ) (p : TaskPromise σ α E) (m : Tasks σ α E) :
    (m.setPromise c p).store = m.store.setTask c p.status := by
  rw [store, setPromise, List.map_set]
  rfl

theorem store_setControl (a : Control σ α E) (m : Tasks σ α E) :
    (m.setControl a).store = m.store := rfl

theorem Kept.refl (c : ℕ) (m : Tasks σ α E) : Kept c m m := ⟨rfl, fun _ _ _ h _ => h⟩

theorem Kept.trans {m'' : Tasks σ α E} (h : Kept c m m') (h' : Kept c m' m'') :
    Kept c m m'' :=
  ⟨h'.root.trans h.root, fun i p hi hp ha => h'.promise i p hi (h.promise i p hi hp ha) ha⟩

/-- What a task awaits is still under way, so it cannot be run. -/
theorem Proper.congr {i : ℕ} {p : TaskPromise σ α E} (h : m.Proper i p)
    (hm : ∀ (d : ℕ) (q : TaskPromise σ α E), m.promises[d]? = some q →
      q.mContinuation = some i → q.mFuture = none → ∃ q' : TaskPromise σ α E,
        m'.promises[d]? = some q' ∧ q'.mContinuation = some i ∧ q'.mFuture = none) :
    m'.Proper i p := by
  unfold Proper at h ⊢
  split at h
  · exact h
  · exact h
  · refine h.imp id ?_
    rintro ⟨d, rest, q, hpoint, hq, hcont, hfuture⟩
    obtain ⟨q', hq', hcont', hfuture'⟩ := hm d q hq hcont hfuture
    exact ⟨d, rest, q', hpoint, hq', hcont', hfuture'⟩

theorem proper_of_running {i : ℕ} {p : TaskPromise σ α E} (ha : p.status = .active)
    (hr : p.running = true) : m.Proper i p := by
  unfold Proper
  rw [ha]
  exact .inl hr

theorem Sound.fresh (h : m.Sound e) (he : e ≠ some d) {b : TaskBody σ α E}
    (hd : m.store.tasks[d]? = some (.fresh b)) : m.promises[d]? = some (.init b) := by
  rw [store_tasks] at hd
  obtain ⟨p, hp, hstatus⟩ := Option.map_eq_some_iff.1 hd
  have hproper := h d p hp he
  rw [Proper, hstatus] at hproper
  rw [hp, show p = .init b from hproper]

theorem Sound.done (h : m.Sound e) (he : e ≠ some d) {r : Except E α}
    (hd : m.store.tasks[d]? = some (.done r)) :
    m.promises[d]? = some ⟨.final, false, none, some r⟩ := by
  rw [store_tasks] at hd
  obtain ⟨p, hp, hstatus⟩ := Option.map_eq_some_iff.1 hd
  have hproper := h d p hp he
  rw [Proper, hstatus] at hproper
  rw [hp, show p = ⟨.final, false, none, some r⟩ from hproper]

/-- A task returns or throws. -/
theorem Executing.finish {b : TaskBody σ α E} (h : Executing c κ b m) {r : Except E α}
    (hb : Evaluates problem b m.store r m.store) :
    Finished problem c κ b r m.store m (Tasks.finish c r m) := by
  have heq : Tasks.finish c r m =
      (m.setPromise c ⟨.final, false, none, some r⟩).setControl (.transfer κ) := by
    rw [Tasks.finish, h.promise]
    rfl
  have hself : (m.promises.set c ⟨.final, false, none, some r⟩)[c]? =
      some ⟨.final, false, none, some r⟩ := getElem?_set_of_getElem? h.promise
  have hother : ∀ i, i ≠ c → (m.promises.set c ⟨.final, false, none, some r⟩)[i]? =
      m.promises[i]? := fun i hi => List.getElem?_set_ne hi.symm
  rw [heq]
  refine ⟨rfl, hself, fun i p hp hκ => ?_, ⟨rfl, fun i p hi hp _ => ?_⟩, hb,
    store_setPromise c _ m⟩
  · by_cases hi : i = c
    · subst hi
      obtain rfl := Option.some.inj (hself.symm.trans hp)
      rfl
    · have hproper := h.sound i p ((hother i hi).symm.trans hp) (by simp)
      refine Proper.congr hproper fun d q hq hcont hf => ?_
      have hd : d ≠ c := by
        rintro rfl
        obtain rfl := Option.some.inj (h.promise.symm.trans hq)
        exact hκ hcont
      exact ⟨q, (hother d hd).trans hq, hcont, hf⟩
  · exact (hother i hi).trans hp

variable (problem) in
/-- A task computes. -/
theorem Executing.compute {f : σ → σ} {rest : σ → TaskBody σ α E}
    (h : Executing c κ (.compute f rest) m) :
    Executing c κ (rest (f m.state)) (step problem m) ∧ Kept c m (step problem m) ∧
      (step problem m).store = { m.store with state := f m.state } := by
  have heq : step problem m =
      { m with state := f m.state, control := .executing c (rest (f m.state)) } := by
    rw [step, h.control]
  rw [heq]
  exact ⟨⟨rfl, h.promise, h.sound⟩, ⟨rfl, fun _ _ _ hp _ => hp⟩, rfl⟩

variable (problem) in
/-- A task creates a task. -/
theorem Executing.create {body : TaskBody σ α E} {rest : ℕ → TaskBody σ α E}
    (h : Executing c κ (.create body rest) m) :
    Executing c κ (rest m.store.tasks.length) (step problem m) ∧ Kept c m (step problem m) ∧
      (step problem m).store = { m.store with tasks := m.store.tasks ++ [.fresh body] } := by
  have heq : step problem m = { m with
      promises := m.promises ++ [.init body]
      control := .executing c (rest m.promises.length) } := by
    rw [step, h.control]
  have hold : ∀ i p, m.promises[i]? = some p → (m.promises ++ [.init body])[i]? = some p :=
    fun i p hp => by
      rw [List.getElem?_append_left (List.getElem?_eq_some_iff.1 hp).1]
      exact hp
  rw [heq]
  refine ⟨⟨by simp [store], hold c _ h.promise, fun i p hp _ => ?_⟩,
    ⟨rfl, fun i p _ hp _ => hold i p hp⟩, by simp [store, TaskPromise.status, TaskPromise.init]⟩
  rcases List.getElem?_eq_some_iff.1 hp with ⟨hi, hget⟩
  by_cases hlt : i < m.promises.length
  · have hp' : m.promises[i]? = some p := by
      rw [← hget, List.getElem_append_left hlt, List.getElem?_eq_getElem hlt]
    have hproper := h.sound i p hp' (by simp)
    exact Proper.congr hproper fun d q hq hcont hf => ⟨q, hold d q hq, hcont, hf⟩
  · have hlen : i = m.promises.length := by
      simp only [List.length_append, List.length_singleton] at hi
      omega
    obtain rfl : p = .init body := by
      rw [← hget]
      simp [hlen]
    rfl

/-- Nothing changes but what the task executes. -/
theorem Executing.goOn {b : TaskBody σ α E} (h : Executing c κ b m) (b' : TaskBody σ α E) :
    Executing c κ b' (m.setControl (.executing c b')) ∧
      Kept c m (m.setControl (.executing c b')) :=
  ⟨⟨rfl, h.promise, h.sound⟩, ⟨rfl, fun _ _ _ hp _ => hp⟩⟩

/-- The task has no result yet. -/
def Empty (d : ℕ) (m : Tasks σ α E) : Prop := ∃ q, m.promises[d]? = some q ∧ q.mFuture = none

theorem Empty.setPromise (h : Empty d m) {p : TaskPromise σ α E} (hp : p.mFuture = none) :
    Empty d (m.setPromise c p) := by
  obtain ⟨q, hq, hfuture⟩ := h
  by_cases hcd : c = d
  · subst hcd
    exact ⟨p, getElem?_set_of_getElem? hq, hp⟩
  · exact ⟨q, (List.getElem?_set_ne hcd).trans hq, hfuture⟩

theorem resume_initial {p : TaskPromise σ α E} {b : TaskBody σ α E}
    (hp : m.promises[c]? = some p) (hrunning : p.mRunning = false)
    (hpoint : p.point = .initial b) :
    resume problem c m =
      (m.setPromise c { p with point := .executing, mRunning := true }).setControl
        (.executing c b) := by
  simp [resume, hp, TaskPromise.setRunning, hrunning, hpoint]

theorem resume_awaiting {p : TaskPromise σ α E} {rest : Except E α → TaskBody σ α E}
    (hp : m.promises[c]? = some p) (hrunning : p.mRunning = false)
    (hpoint : p.point = .awaiting d rest) :
    resume problem c m = awaitResume problem c d rest
      (m.setPromise c { p with point := .executing, mRunning := true }) := by
  simp [resume, hp, TaskPromise.setRunning, hrunning, hpoint]

theorem Empty.awaitResume (h : Empty d m) (rest : Except E α → TaskBody σ α E) :
    (Tasks.awaitResume problem c d rest m).control = .blocked := by
  obtain ⟨q, hq, hfuture⟩ := h
  simp [Tasks.awaitResume, hq, hfuture, setControl]

section Await

variable {rest : Except E α → TaskBody σ α E}

theorem Executing.await_null (h : Executing c κ (.coAwait d rest) m)
    (hd : m.store.tasks[d]? = none) :
    step problem m =
      m.setControl (.executing c (rest (.error (problem .alreadyCompleted)))) := by
  rw [store_tasks, Option.map_eq_none_iff] at hd
  simp only [step, h.control, await, awaitResume, hd]

variable (problem) in
theorem Executing.await_known (h : Executing c κ (.coAwait d rest) m) {x : Except E α}
    (hd : m.store.tasks[d]? = some (.done x)) :
    step problem m = m.setControl (.executing c (rest x)) := by
  have hp := h.sound.done (by simp) hd
  simp [step, h.control, await, awaitResume, hp, TaskPromise.completed]

variable (problem) in
/-- The task that awaits suspends itself, and is the continuation of the other one. -/
theorem Executing.suspends (h : Executing c κ (.coAwait d rest) m) {q : TaskPromise σ α E}
    (hq : m.promises[d]? = some q) (hcompleted : q.completed = false)
    (hrunning : q.running = false) :
    step problem m = ((m.setPromise c ⟨.awaiting d rest, false, κ, none⟩).setPromise d
      { q with mContinuation := some c }).setControl (.transfer (some d)) := by
  have hcont : q.mContinuation = none := by
    rw [TaskPromise.running, Bool.or_eq_false_iff] at hrunning
    simpa using hrunning.2
  simp [step, h.control, await, hq, hcompleted, hrunning, h.promise, TaskPromise.setRunning,
    TaskPromise.setContinuation, hcont]

variable (problem) in
/-- A task that is being evaluated is waited for in vain. -/
theorem Executing.await_active (h : Executing c κ (.coAwait d rest) m)
    (hd : m.store.tasks[d]? = some .active) :
    (step problem m).control = .blocked ∨ (step problem m).control = .transfer (some d) ∧
      (step problem (step problem m)).control = .blocked := by
  rw [store_tasks] at hd
  obtain ⟨q, hq, hstatus⟩ := Option.map_eq_some_iff.1 hd
  have hfuture : q.mFuture = none := by
    cases hf : q.mFuture with
    | none => rfl
    | some r =>
        rw [TaskPromise.status, hf] at hstatus
        cases hstatus
  have hproper := h.sound d q hq (by simp)
  rw [Proper, hstatus] at hproper
  cases hrunning : q.running with
  | true =>
      left
      simp [step, h.control, await, hq, hrunning, awaitResume, hfuture, setControl]
  | false =>
      right
      obtain ⟨d', rest', q', hpoint, hq', -, hfuture'⟩ :=
        hproper.resolve_left (by simp [hrunning])
      have hdc : d ≠ c := by
        rintro rfl
        obtain rfl := Option.some.inj (h.promise.symm.trans hq)
        cases hrunning
      have hm := h.suspends problem hq (by simp [TaskPromise.completed, hfuture])
        hrunning
      have hq₁ : (step problem m).promises[d]? = some { q with mContinuation := some c } := by
        rw [hm]
        exact getElem?_set_of_getElem? ((List.getElem?_set_ne hdc.symm).trans hq)
      have hempty : Empty d' (step problem m) := by
        rw [hm]
        exact (Empty.setPromise ⟨q', hq', hfuture'⟩ rfl).setPromise hfuture
      have hnot : q.mRunning = false := by
        rw [TaskPromise.running, Bool.or_eq_false_iff] at hrunning
        exact hrunning.1
      have hcontrol : (step problem m).control = .transfer (some d) := by rw [hm]; rfl
      refine ⟨hcontrol, ?_⟩
      rw [step, hcontrol]
      dsimp only
      rw [resume_awaiting hq₁ hnot hpoint]
      refine Empty.awaitResume (Empty.setPromise hempty ?_) rest'
      exact hfuture

variable (problem) in
/-- A task that was not started is called. -/
theorem Executing.call (h : Executing c κ (.coAwait d rest) m) {b : TaskBody σ α E}
    (hd : m.store.tasks[d]? = some (.fresh b)) :
    Executing d (some c) b (step problem (step problem m)) ∧
      (step problem m).control = .transfer (some d) ∧
      (step problem (step problem m)).promises[c]? =
        some ⟨.awaiting d rest, false, κ, none⟩ ∧
      Kept c m (step problem (step problem m)) ∧
      (step problem (step problem m)).store = m.store.setTask d .active := by
  have hq := h.sound.fresh (by simp) hd
  have hdc : d ≠ c := by
    rintro rfl
    cases h.promise.symm.trans hq
  have hm := h.suspends problem hq rfl rfl
  have hcontrol : (step problem m).control = .transfer (some d) := by rw [hm]; rfl
  have hq₁ : (step problem m).promises[d]? = some ⟨.initial b, false, some c, none⟩ := by
    rw [hm]
    exact getElem?_set_of_getElem? ((List.getElem?_set_ne hdc.symm).trans hq)
  have hm₂ : step problem (step problem m) =
      ((m.setPromise c ⟨.awaiting d rest, false, κ, none⟩).setPromise d
        ⟨.executing, true, some c, none⟩).setControl (.executing d b) := by
    rw [step, hcontrol]
    dsimp only
    rw [resume_initial hq₁ rfl rfl, hm]
    simp [setPromise, setControl, List.set_set]
  have hself : ((m.promises.set c ⟨.awaiting d rest, false, κ, none⟩).set d
      ⟨.executing, true, some c, none⟩)[d]? = some ⟨.executing, true, some c, none⟩ :=
    getElem?_set_of_getElem? ((List.getElem?_set_ne hdc.symm).trans hq)
  have hcaller : ((m.promises.set c ⟨.awaiting d rest, false, κ, none⟩).set d
      ⟨.executing, true, some c, none⟩)[c]? = some ⟨.awaiting d rest, false, κ, none⟩ :=
    (List.getElem?_set_ne hdc).trans (getElem?_set_of_getElem? h.promise)
  have hother : ∀ i, i ≠ c → i ≠ d → ((m.promises.set c ⟨.awaiting d rest, false, κ, none⟩).set d
      ⟨.executing, true, some c, none⟩)[i]? = m.promises[i]? := fun i hic hid =>
    (List.getElem?_set_ne hid.symm).trans (List.getElem?_set_ne hic.symm)
  refine ⟨?_, hcontrol, ?_, ?_, ?_⟩
  · rw [hm₂]
    refine ⟨rfl, hself, fun i p hp _ => ?_⟩
    by_cases hid : i = d
    · subst hid
      obtain rfl := Option.some.inj (hself.symm.trans hp)
      exact proper_of_running rfl rfl
    · by_cases hic : i = c
      · subst hic
        obtain rfl := Option.some.inj (hcaller.symm.trans hp)
        exact .inr ⟨d, rest, _, rfl, hself, rfl, rfl⟩
      · have hproper := h.sound i p ((hother i hic hid).symm.trans hp) (by simp)
        refine Proper.congr hproper fun j q hj hcont hf => ?_
        by_cases hjd : j = d
        · subst hjd
          obtain rfl := Option.some.inj (hq.symm.trans hj)
          cases hcont
        · by_cases hjc : j = c
          · subst hjc
            obtain rfl := Option.some.inj (h.promise.symm.trans hj)
            exact ⟨_, hcaller, hcont, rfl⟩
          · exact ⟨q, (hother j hjc hjd).trans hj, hcont, hf⟩
  · rw [hm₂]
    exact hcaller
  · rw [hm₂]
    refine ⟨rfl, fun i p hi hp ha => ?_⟩
    have hid : i ≠ d := by
      rintro rfl
      obtain rfl := Option.some.inj (hq.symm.trans hp)
      cases ha
    exact (hother i hi hid).trans hp
  · have hactive : m.store.tasks[c]? = some .active := by
      rw [store_tasks, h.promise]
      rfl
    rw [hm₂, store_setControl, store_setPromise, store_setPromise]
    change TaskStore.setTask d .active (m.store.setTask c .active) = _
    rw [TaskStore.setTask, TaskStore.setTask, TaskStore.setTask, set_of_getElem? hactive]

/-- The task that was called has given its result, and the other one goes on with it. -/
theorem Finished.resumed {b : TaskBody σ α E} {x : Except E α} {t : TaskStore σ α E}
    (h : Finished problem d (some c) b x t m m')
    (hp : m'.promises[c]? = some ⟨.awaiting d rest, false, κ, none⟩) :
    Executing c κ (rest x) (step problem m') ∧ Kept c m' (step problem m') ∧
      (step problem m').store = m'.store := by
  have hdc : d ≠ c := by
    rintro rfl
    cases h.promise.symm.trans hp
  have hm : step problem m' = (m'.setPromise c ⟨.executing, true, κ, none⟩).setControl
      (.executing c (rest x)) := by
    have hd : (m'.promises.set c ⟨.executing, true, κ, none⟩)[d]? =
        some ⟨.final, false, none, some x⟩ := (List.getElem?_set_ne hdc.symm).trans h.promise
    rw [step, h.control]
    dsimp only
    rw [resume_awaiting hp rfl rfl]
    simp [awaitResume, setPromise, setControl, hd]
  have hself : (m'.promises.set c ⟨.executing, true, κ, none⟩)[c]? =
      some ⟨.executing, true, κ, none⟩ := getElem?_set_of_getElem? hp
  have hother : ∀ i, i ≠ c → (m'.promises.set c ⟨.executing, true, κ, none⟩)[i]? =
      m'.promises[i]? := fun i hi => List.getElem?_set_ne hi.symm
  rw [hm]
  refine ⟨⟨rfl, hself, fun i p hi _ => ?_⟩, ⟨rfl, fun i p hi hp _ => (hother i hi).trans hp⟩, ?_⟩
  · by_cases hic : i = c
    · subst hic
      obtain rfl := Option.some.inj (hself.symm.trans hi)
      exact proper_of_running rfl rfl
    · have hproper := h.sound i p ((hother i hic).symm.trans hi) (by simpa using Ne.symm hic)
      refine Proper.congr hproper fun j q hj hcont hf => ?_
      by_cases hjc : j = c
      · subst hjc
        obtain rfl := Option.some.inj (hp.symm.trans hj)
        exact ⟨_, hself, hcont, rfl⟩
      · exact ⟨q, (hother j hjc).trans hj, hcont, hf⟩
  · have hactive : m'.store.tasks[c]? = some .active := by
      rw [store_tasks, hp]
      rfl
    rw [store_setControl, store_setPromise]
    change m'.store.setTask c .active = _
    rw [TaskStore.setTask, set_of_getElem? hactive]

end Await

end Tasks

end Zth.Coro
