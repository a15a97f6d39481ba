import Zth.Poller.Single

/-!
# Fibers that wait for one file descriptor or socket

The wrappers of blocking functions poll first, or try without blocking first, so that a fiber
waits without blocking the thread. When `poll` returns, they perform the operation. Fibers
switch only where `poll` waits, so the operation is performed at once when the fiber goes on.
But between the event that wakes it and that moment, other fibers may have used the same file
descriptor or socket.
-/

namespace Zth

/-- A wrapper: what it waits for, and whether the operation is one with `ZMQ_DONTWAIT`. If so,
it is tried before anything else, and does not block. -/
structure Wrapper where
  direction : Direction
  dontWait : Bool
deriving DecidableEq, Repr

namespace Wrapper

/-- `zth::io::read` of a blocking file descriptor. -/
def read : Wrapper := ⟨.input, false⟩

-- The wrappers of 0MQ, called without `ZMQ_DONTWAIT`.
def zmqMsgSend : Wrapper := ⟨.output, true⟩
def zmqMsgRecv : Wrapper := ⟨.input, true⟩
def zmqSend : Wrapper := ⟨.output, true⟩
def zmqRecv : Wrapper := ⟨.input, true⟩
def zmqSendConst : Wrapper := ⟨.output, true⟩

end Wrapper

/-- The file descriptor or socket: whether an operation would not block, what an operation may
do, and what may happen to it outside of the thread. -/
structure Device (S : Type*) where
  ready : Direction → S → Bool
  operate : Direction → S → S → Bool
  outside : S → S → Bool

/-- An operation that does not block: it is done, or fails with an `errno`. -/
inductive Trial (S : Type*) where
  | done (device : S)
  | failed (e : Errno)

/-- Where a fiber is: in no wrapper, about to call `poll` of its client, or in there. -/
inductive WrapperCode where
  | idle
  | trying (w : Wrapper)
  | waiting (w : Wrapper)
deriving DecidableEq, Repr

/-- The fibers of a worker. Each has its own client, and one pollable. `turn` is the fiber that
runs, if it has not given up the processor; `returned` is what the last call of a fiber has
returned, with the `errno` of a failure; `blocked` says that the thread is. -/
structure Sharing (K C I S : Type*) where
  observed : Observed K C C I
  device : S
  code : C → WrapperCode
  turn : Option C
  returned : C → Option (Option Errno)
  blocked : Bool

variable {K C I S κ : Type*} [DecidableEq K] [DecidableEq C]

namespace Sharing

/-- Nothing was called yet. -/
def init (K C I : Type*) (device : S) : Sharing K C I S where
  observed := ⟨.init K C C I, fun _ => 0⟩
  device := device
  code := fun _ => .idle
  turn := none
  returned := fun _ => none
  blocked := false

/-- What happens: something outside of the thread, a call of a wrapper, a fiber that calls
`poll` of its client, the waiter polls, or a fiber goes on after `poll` of its client. -/
inductive Label (C κ S : Type*) where
  | outside (device : S)
  | call (c : C) (w : Wrapper) (alloc : Bool) (a : Trial S)
  | poll (c : C) (contents : κ) (alloc : ℕ → Bool) (found : Except Errno (List Revents))
  | serve (contents : κ) (found : Except Errno (List Revents))
  | go (c : C) (a : Trial S)

/-- Another place in the code of a fiber. -/
def setCode (c : C) (x : WrapperCode) (turn : Option C) (s : Sharing K C I S) : Sharing K C I S :=
  { s with code := Function.update s.code c x, turn := turn }

/-- The wrapper returns. -/
def leave (c : C) (res : Option Errno) (s : Sharing K C I S) : Sharing K C I S :=
  { s.setCode c .idle none with returned := Function.update s.returned c (some res) }

/-- The operation itself. With `ZMQ_DONTWAIT` it fails with `EAGAIN` exactly when it would
block. Otherwise it blocks the thread then. -/
def operate (D : Device S) (c : C) (w : Wrapper) (a : Trial S) (s : Sharing K C I S) :
    Option (Sharing K C I S) :=
  if D.ready w.direction s.device then
    match a with
    | .done device =>
        if D.operate w.direction s.device device then
          some ({ s with device := device }.leave c none)
        else none
    | .failed e => if e = .eagain then none else some (s.leave c (some e))
  else if w.dontWait then some (s.leave c (some .eagain))
  else some { s with blocked := true }

/-- The fiber goes on when `poll` of its client has returned. -/
def afterPoll (D : Device S) (c : C) (w : Wrapper) (a : Trial S) (s : Sharing K C I S) :
    Option (Sharing K C I S) :=
  match s.observed.outcome w.direction c with
  | none => some (s.setCode c (.trying w) (some c))
  | some (some e) => some (s.leave c (some e))
  | some none => s.operate D c w a

/-- `poll` of the operating system reports only what is so. -/
def truthful (D : Device S) (k : ServerKind) (device : S) : Except Errno (List Revents) → Bool
  | .error _ => true
  | .ok items => items.all fun item => [Direction.input, .output].all fun d =>
      k.report item &&& d.events == 0 || D.ready d device

/-- One step, where the fibers call the wrappers `ws`. -/
def step (D : Device S) (k : ServerKind) (initItem : κ → C → Except Errno I) (ws : List Wrapper)
    (s : Sharing K C I S) : Label C κ S → Option (Sharing K C I S)
  | .outside device =>
      if D.outside s.device device then some { s with device := device } else none
  | .call c w alloc a =>
      if s.blocked = false ∧ s.turn = none ∧ s.code c = .idle ∧ w ∈ ws then
        if w.dontWait = true ∧ D.ready w.direction s.device = true then s.operate D c w a
        else
          some ({ s with observed := s.observed.newPoller c alloc }.setCode c (.trying w) (some c))
      else none
  | .poll c contents alloc found =>
      match s.code c with
      | .trying w =>
          if s.blocked = false ∧ s.turn = some c ∧ truthful D k s.device found then
            (s.observed.poll k (initItem contents) c alloc found).map fun o =>
              { s with observed := o }.setCode c (.waiting w)
                (if (o.polling.clients c).call = none then some c else none)
          else none
      | _ => none
  | .serve contents found =>
      if s.blocked = false ∧ s.turn = none ∧ s.observed.polling.polling ∧
          truthful D k s.device found then
        (s.observed.serve k (initItem contents) found).map fun o => { s with observed := o }
      else none
  | .go c a =>
      match s.code c with
      | .waiting w =>
          if s.blocked then none
          else
            match (s.observed.polling.clients c).call with
            | none => if s.turn = some c then s.afterPoll D c w a else none
            | some call =>
                if s.turn = none ∧ call.wait = .running then
                  { s with observed := { s.observed with
                    polling := s.observed.polling.finish c call } }.afterPoll D c w a
                else none
      | _ => none

/-- The fiber was told that the operation would not block, and has not performed it yet. -/
def Told (s : Sharing K C I S) (c : C) (w : Wrapper) : Prop :=
  s.code c = .waiting w ∧ s.observed.Reported c w.direction

/-- What a fiber was told is still so. -/
def AllReady (D : Device S) (s : Sharing K C I S) : Prop :=
  ∀ c w, s.Told c w → D.ready w.direction s.device = true

/-- What the fibers other than `c` were told would still be so for another state of the
device. -/
def OthersReady (D : Device S) (s : Sharing K C I S) (c : C) (device : S) : Prop :=
  ∀ c' w, c' ≠ c → s.Told c' w → D.ready w.direction device = true

/-- The condition on one step. What is done to the device, by an operation or from outside,
does not take from another fiber what that was told. -/
def LeavesReady (D : Device S) (s : Sharing K C I S) : Label C κ S → Prop
  | .outside device => ∀ c w, s.Told c w → D.ready w.direction device = true
  | .call c w _ a => ∀ device, a = .done device → w.dontWait = true →
      D.ready w.direction s.device = true → s.OthersReady D c device
  | .go c a => ∀ device, a = .done device → (∃ w, s.Told c w) → s.OthersReady D c device
  | _ => True

omit [DecidableEq K] [DecidableEq C] in
theorem truthful_spec {D : Device S} {k : ServerKind} {device : S}
    {found : Except Errno (List Revents)} (h : truthful D k device found = true) (d : Direction)
    (hd : Observed.Finds k (Observed.itemsOf found) d) : D.ready d device = true := by
  obtain ⟨item, hitem, hbits⟩ := hd
  cases found with
  | error e => cases hitem
  | ok items =>
      have hall := List.all_eq_true.1 h item hitem
      have hmem : d ∈ [Direction.input, .output] := by cases d <;> simp
      have hor := List.all_eq_true.1 hall d hmem
      rw [Bool.or_eq_true, beq_iff_eq] at hor
      exact hor.resolve_left hbits

/-- What holds in every run. -/
structure Sound (ws : List Wrapper) (s : Sharing K C I S) : Prop where
  own : s.observed.Own
  answered : ∀ c w, s.code c = .waiting w → s.observed.Answered c
  wrapper : ∀ c w, s.code c = .trying w ∨ s.code c = .waiting w → w ∈ ws

variable {D : Device S} {k : ServerKind} {initItem : κ → C → Except Errno I} {ws : List Wrapper}
  {s t : Sharing K C I S} {c : C}

omit [DecidableEq K] in
theorem told_setCode_iff {x : WrapperCode} (hx : ∀ w, x ≠ .waiting w) (turn : Option C) (c' : C)
    (w : Wrapper) : (s.setCode c x turn).Told c' w ↔ c' ≠ c ∧ s.Told c' w := by
  rw [Told, Told, setCode]
  dsimp only
  by_cases hc : c' = c
  · subst hc
    rw [Function.update_self]
    exact iff_of_false (fun h => hx w h.1) fun h => h.1 rfl
  · rw [Function.update_of_ne hc]
    exact (and_iff_right hc).symm

omit [DecidableEq K] in
theorem told_leave_iff (res : Option Errno) (c' : C) (w : Wrapper) :
    (s.leave c res).Told c' w ↔ c' ≠ c ∧ s.Told c' w :=
  told_setCode_iff (x := .idle) nofun none c' w

omit [DecidableEq K] in
/-- What an operation may do. -/
theorem operate_cases {w : Wrapper} {a : Trial S} (h : s.operate D c w a = some t) :
    (∃ device, a = .done device ∧ D.ready w.direction s.device = true ∧
      t = { s with device := device }.leave c none) ∨
    (∃ e, a = .failed e ∧ D.ready w.direction s.device = true ∧ e ≠ .eagain ∧
      t = s.leave c (some e)) ∨
    (D.ready w.direction s.device = false ∧
      (t = s.leave c (some .eagain) ∨ t = { s with blocked := true })) := by
  have hnot : ∀ hready : D.ready w.direction s.device ≠ true,
      (if w.dontWait then some (s.leave c (some .eagain)) else some { s with blocked := true }) =
        some t → D.ready w.direction s.device = false ∧
          (t = s.leave c (some .eagain) ∨ t = { s with blocked := true }) := by
    intro hready h
    refine ⟨(Bool.not_eq_true _).mp hready, ?_⟩
    split at h
    · exact Or.inl (Option.some.inj h).symm
    · exact Or.inr (Option.some.inj h).symm
  cases a with
  | done device =>
      rw [operate] at h
      split at h
      · rename_i hready
        split at h
        · exact Or.inl ⟨device, rfl, hready, (Option.some.inj h).symm⟩
        · cases h
      · rename_i hready
        exact Or.inr (Or.inr (hnot hready h))
  | failed e =>
      rw [operate] at h
      split at h
      · rename_i hready
        split at h
        · cases h
        · rename_i he
          exact Or.inr (Or.inl ⟨e, rfl, hready, he, (Option.some.inj h).symm⟩)
      · rename_i hready
        exact Or.inr (Or.inr (hnot hready h))

omit [DecidableEq K] in
/-- The observed part and the place of one fiber change. -/
theorem Sound.update (h : Sound ws s) {o : Observed K C C I} (hown : o.Own) {x : WrapperCode}
    (hanswered : ∀ w, x = .waiting w → o.Answered c)
    (hothers : ∀ c', c' ≠ c → s.observed.Answered c' → o.Answered c')
    (hws : ∀ w, x = .trying w ∨ x = .waiting w → w ∈ ws) (turn : Option C) :
    Sound ws ({ s with observed := o }.setCode c x turn) := by
  have hself : ({ s with observed := o }.setCode c x turn).code c = x :=
    Function.update_self ..
  have hother : ∀ c', c' ≠ c → ({ s with observed := o }.setCode c x turn).code c' = s.code c' :=
    fun c' hc => Function.update_of_ne hc _ _
  refine ⟨hown, fun c' w hcode => ?_, fun c' w hcode => ?_⟩
  · by_cases hc : c' = c
    · subst hc
      exact hanswered w (hself.symm.trans hcode)
    · rw [hother c' hc] at hcode
      exact hothers c' hc (h.answered c' w hcode)
  · by_cases hc : c' = c
    · subst hc
      rw [hself] at hcode
      exact hws w hcode
    · rw [hother c' hc] at hcode
      exact h.wrapper c' w hcode

omit [DecidableEq K] in
theorem Sound.setCode (h : Sound ws s) {x : WrapperCode} (hx : ∀ w, x ≠ .waiting w)
    (hws : ∀ w, x = .trying w → w ∈ ws) (turn : Option C) : Sound ws (s.setCode c x turn) :=
  h.update h.own (fun w hw => absurd hw (hx w)) (fun _ _ hanswered => hanswered)
    (fun w hw => hw.elim (hws w) fun hw => absurd hw (hx w)) turn

omit [DecidableEq K] in
theorem Sound.leave (h : Sound ws s) (res : Option Errno) : Sound ws (s.leave c res) := by
  have hset := h.setCode (c := c) (x := .idle) nofun nofun none
  exact ⟨hset.own, hset.answered, hset.wrapper⟩

omit [DecidableEq K] [DecidableEq C] in
theorem Sound.setDevice (h : Sound ws s) (device : S) : Sound ws { s with device := device } :=
  ⟨h.own, h.answered, h.wrapper⟩

omit [DecidableEq K] in
theorem Sound.operate (h : Sound ws s) {w : Wrapper} {a : Trial S}
    (ht : s.operate D c w a = some t) : Sound ws t := by
  rcases operate_cases ht with ⟨device, -, -, rfl⟩ | ⟨e, -, -, -, rfl⟩ | ⟨-, rfl | rfl⟩
  · exact (h.setDevice device).leave none
  · exact h.leave (some e)
  · exact h.leave (some .eagain)
  · exact ⟨h.own, h.answered, h.wrapper⟩

omit [DecidableEq K] in
theorem Sound.afterPoll (h : Sound ws s) {w : Wrapper} (hw : w ∈ ws) {a : Trial S}
    (ht : s.afterPoll D c w a = some t) : Sound ws t := by
  rw [Sharing.afterPoll] at ht
  split at ht
  · cases ht
    refine h.setCode (x := .trying w) nofun (fun w' hw' => ?_) (some c)
    cases hw'
    exact hw
  · cases ht
    exact h.leave _
  · exact h.operate ht

/-- `poll` of a client is left. -/
theorem Sound.finish (h : Sound ws s) (c : C) (call : PollCall K) :
    Sound ws { s with
      observed := { s.observed with polling := s.observed.polling.finish c call } } := by
  obtain ⟨hown, honly, -, herrno⟩ := h.own.finish c call
  refine ⟨hown, fun c' w hcode => ?_, h.wrapper⟩
  by_cases hc : c' = c
  · subst hc
    exact fun _ => herrno
  · rw [Observed.Answered, honly.clients c' hc]
    exact h.answered c' w hcode

/-- What a step may do. -/
theorem step_cases {l : Label C κ S} (h : s.step D k initItem ws l = some t) :
    (∃ device, l = .outside device ∧ t = { s with device := device }) ∨
    (∃ c w alloc a, l = .call c w alloc a ∧ s.code c = .idle ∧ w ∈ ws ∧
      ((w.dontWait = true ∧ D.ready w.direction s.device = true ∧
          s.operate D c w a = some t) ∨
        ¬ (w.dontWait = true ∧ D.ready w.direction s.device = true) ∧
          t = { s with observed := s.observed.newPoller c alloc }.setCode c (.trying w)
            (some c))) ∨
    (∃ c contents alloc found w o turn, l = .poll c contents alloc found ∧
      s.code c = .trying w ∧ truthful D k s.device found = true ∧
      s.observed.poll k (initItem contents) c alloc found = some o ∧
      t = { s with observed := o }.setCode c (.waiting w) turn) ∨
    (∃ contents found o, l = .serve contents found ∧ truthful D k s.device found = true ∧
      s.observed.serve k (initItem contents) found = some o ∧ t = { s with observed := o }) ∨
    (∃ c a w, l = .go c a ∧ s.code c = .waiting w ∧
      (((s.observed.polling.clients c).call = none ∧ s.afterPoll D c w a = some t) ∨
        ∃ call, (s.observed.polling.clients c).call = some call ∧
          { s with observed := { s.observed with
            polling := s.observed.polling.finish c call } }.afterPoll D c w a = some t)) := by
  cases l with
  | outside device =>
      rw [step] at h
      split at h
      · exact Or.inl ⟨device, rfl, (Option.some.inj h).symm⟩
      · cases h
  | call c w alloc a =>
      rw [step] at h
      split at h
      · rename_i hcond
        refine Or.inr (Or.inl ⟨c, w, alloc, a, rfl, hcond.2.2.1, hcond.2.2.2, ?_⟩)
        split at h
        · rename_i hready
          exact Or.inl ⟨hready.1, hready.2, h⟩
        · rename_i hnot
          exact Or.inr ⟨hnot, (Option.some.inj h).symm⟩
      · cases h
  | poll c contents alloc found =>
      rw [step] at h
      split at h
      · rename_i w hcode
        split at h
        · rename_i hcond
          obtain ⟨o, ho, rfl⟩ := Option.map_eq_some_iff.1 h
          exact Or.inr (Or.inr (Or.inl ⟨c, contents, alloc, found, w, o, _, rfl, hcode,
            hcond.2.2, ho, rfl⟩))
        · cases h
      · cases h
  | serve contents found =>
      rw [step] at h
      split at h
      · rename_i hcond
        obtain ⟨o, ho, rfl⟩ := Option.map_eq_some_iff.1 h
        exact Or.inr (Or.inr (Or.inr (Or.inl ⟨contents, found, o, rfl, hcond.2.2.2, ho, rfl⟩)))
      · cases h
  | go c a =>
      rw [step] at h
      split at h
      · rename_i w hcode
        refine Or.inr (Or.inr (Or.inr (Or.inr ⟨c, a, w, rfl, hcode, ?_⟩)))
        split at h
        · cases h
        · split at h
          · rename_i hcall
            split at h
            · exact Or.inl ⟨hcall, h⟩
            · cases h
          · rename_i call hcall
            split at h
            · exact Or.inr ⟨call, hcall, h⟩
            · cases h
      · cases h

theorem Sound.step (h : Sound ws s) {l : Label C κ S}
    (ht : s.step D k initItem ws l = some t) : Sound ws t := by
  rcases step_cases ht with ⟨device, rfl, rfl⟩ |
    ⟨c, w, alloc, a, rfl, hidle, hw, ⟨-, -, hop⟩ | ⟨-, rfl⟩⟩ |
    ⟨c, contents, alloc, found, w, o, turn, rfl, hcode, -, hpoll, rfl⟩ |
    ⟨contents, found, o, rfl, -, hserve, rfl⟩ |
    ⟨c, a, w, rfl, hcode, ⟨-, hafter⟩ | ⟨call, -, hafter⟩⟩
  · exact h.setDevice device
  · exact h.operate hop
  · obtain ⟨hown, honly⟩ := h.own.newPoller c alloc
    refine h.update (x := .trying w) hown nofun
      (fun c' hc => (Observed.answered_of_onlyClient honly hc).2) ?_ _
    rintro w' (heq | heq)
    · cases heq
      exact hw
    · cases heq
  · obtain ⟨hown, hanswered, -, hothers⟩ := h.own.poll hpoll
    refine h.update hown (fun _ _ => hanswered) (fun c' hc hc' => ?_) ?_ _
    · rcases (hothers c' hc).2 with heq | hne
      · rwa [Observed.Answered, heq]
      · exact fun _ hnil => absurd hnil hne
    · rintro w' (heq | heq)
      · cases heq
      · cases heq
        exact h.wrapper c w (Or.inl hcode)
  · have hhears := h.own.serve hserve
    refine ⟨hhears.own, fun c w hcode => ?_, h.wrapper⟩
    rcases hhears.clients c with heq | hne
    · rw [Observed.Answered, heq]
      exact h.answered c w hcode
    · exact fun _ hnil => absurd hnil hne
  · exact h.afterPoll (h.wrapper c w (Or.inr hcode)) hafter
  · exact (h.finish c call).afterPoll (h.wrapper c w (Or.inr hcode)) hafter

/-- What a step does to the promises, to the thread and to the results. -/
structure Keeps (D : Device S) (s t : Sharing K C I S) (ready : Prop) : Prop where
  ready : AllReady D t ↔ ready
  blocked : t.blocked = s.blocked
  returned : ∀ c, t.returned c = s.returned c ∨ t.returned c ≠ some (some .eagain)

omit [DecidableEq K] in
theorem returned_leave {res : Option Errno} (hres : res ≠ some .eagain) (c' : C) :
    (s.leave c res).returned c' = s.returned c' ∨
      (s.leave c res).returned c' ≠ some (some .eagain) := by
  rw [Sharing.leave]
  dsimp only
  by_cases hc : c' = c
  · subst hc
    rw [Function.update_self]
    exact Or.inr fun heq => hres (Option.some.inj heq)
  · rw [Function.update_of_ne hc]
    exact Or.inl rfl

omit [DecidableEq K] in
/-- The wrapper returns without an operation. -/
theorem Keeps.leave (h : AllReady D s) {res : Option Errno} (hres : res ≠ some .eagain) :
    Keeps D s (s.leave c res) True :=
  ⟨iff_of_true (fun c' w htold => h c' w ((told_leave_iff res c' w).1 htold).2) trivial, rfl,
    returned_leave hres⟩

omit [DecidableEq K] [DecidableEq C] in
theorem Keeps.congr {ready ready' : Prop} (h : Keeps D s t ready) (hiff : ready ↔ ready') :
    Keeps D s t ready' :=
  ⟨h.ready.trans hiff, h.blocked, h.returned⟩

omit [DecidableEq K] in
/-- The operation is performed when it does not block. -/
theorem Keeps.operate (h : AllReady D s) {w : Wrapper} {a : Trial S}
    (hready : D.ready w.direction s.device = true) (ht : s.operate D c w a = some t) :
    Keeps D s t (∀ device, a = .done device → s.OthersReady D c device) := by
  rcases operate_cases ht with ⟨device, rfl, -, rfl⟩ | ⟨e, rfl, -, he, rfl⟩ | ⟨hnot, -⟩
  · refine ⟨⟨fun hall device' heq c' w' hc htold => ?_, fun hothers c' w' htold => ?_⟩, rfl,
      returned_leave (s := { s with device := device }) (by simp)⟩
    · cases heq
      exact hall c' w' ((told_leave_iff none c' w').2 ⟨hc, htold⟩)
    · obtain ⟨hc, htold⟩ := (told_leave_iff none c' w').1 htold
      exact hothers device rfl c' w' hc htold
  · exact (Keeps.leave h fun heq => he (Option.some.inj heq)).congr
      (iff_of_true trivial (by simp))
  · rw [hready] at hnot
    cases hnot

omit [DecidableEq K] in
/-- The fiber goes on after `poll` of its client. If it was told of an event, it performs the
operation. -/
theorem Keeps.afterPoll (h : AllReady D s) {w : Wrapper} (hcode : s.code c = .waiting w)
    (hanswered : (s.observed.polling.clients c).mResult = [] →
      (s.observed.polling.clients c).errno ≠ none) {a : Trial S}
    (ht : s.afterPoll D c w a = some t) :
    Keeps D s t (∀ device, a = .done device → (∃ w, s.Told c w) → s.OthersReady D c device) := by
  have htold : (∃ w, s.Told c w) ↔ s.observed.outcome w.direction c = some none := by
    rw [Observed.outcome_eq_some_none_iff hanswered]
    refine ⟨?_, fun hreported => ⟨w, hcode, hreported⟩⟩
    rintro ⟨w', hcode', hreported⟩
    cases hcode.symm.trans hcode'
    exact hreported
  rw [Sharing.afterPoll] at ht
  split at ht
  · rename_i hnone
    cases ht
    have hnot : ¬ ∃ w, s.Told c w := by
      rw [htold, hnone]
      exact nofun
    refine ⟨iff_of_true (fun c' w' htold' => ?_) fun _ _ htold' => absurd htold' hnot, rfl,
      fun _ => Or.inl rfl⟩
    exact h c' w' ((told_setCode_iff (x := .trying w) nofun (some c) c' w').1 htold').2
  · rename_i e hsome
    cases ht
    have hnot : ¬ ∃ w, s.Told c w := by
      rw [htold, hsome]
      simp
    have he : some e ≠ some Errno.eagain := by
      intro heq
      cases heq
      exact Observed.outcome_ne_eagain _ _ _ hsome
    exact (Keeps.leave h he).congr (iff_of_true trivial fun _ _ htold' => absurd htold' hnot)
  · rename_i hsome
    have hready : D.ready w.direction s.device = true := by
      obtain ⟨w', hcode', hreported⟩ := htold.2 hsome
      cases hcode.symm.trans hcode'
      exact h c w ⟨hcode, hreported⟩
    refine (Keeps.operate h hready ht).congr ?_
    simp only [htold, hsome, forall_const]

omit [DecidableEq K] [DecidableEq C] in
theorem told_iff_of_reported {o : Observed K C C I}
    (h : ∀ c d, o.Reported c d ↔ s.observed.Reported c d) (c : C) (w : Wrapper) :
    Sharing.Told { s with observed := o } c w ↔ s.Told c w :=
  and_congr_right fun _ => h c w.direction

/-- A step keeps what the fibers were told exactly when it meets the condition. -/
theorem Sound.keeps (hs : Sound ws s) (h : AllReady D s) {l : Label C κ S}
    (ht : s.step D k initItem ws l = some t) : Keeps D s t (LeavesReady D s l) := by
  rcases step_cases ht with ⟨device, rfl, rfl⟩ |
    ⟨c, w, alloc, a, rfl, hidle, hw, ⟨hwait, hready, hop⟩ | ⟨hnot, rfl⟩⟩ |
    ⟨c, contents, alloc, found, w, o, turn, rfl, hcode, htrue, hpoll, rfl⟩ |
    ⟨contents, found, o, rfl, htrue, hserve, rfl⟩ |
    ⟨c, a, w, rfl, hcode, ⟨hcall, hafter⟩ | ⟨call, hcall, hafter⟩⟩
  · exact ⟨Iff.rfl, rfl, fun _ => Or.inl rfl⟩
  · refine (Keeps.operate h hready hop).congr ?_
    simp only [LeavesReady, hwait, hready, forall_const]
  · obtain ⟨-, honly⟩ := hs.own.newPoller c alloc
    refine ⟨iff_of_true (fun c' w' htold => ?_) ?_, rfl, fun _ => Or.inl rfl⟩
    · obtain ⟨hc, hcode', hreported⟩ := (told_setCode_iff (x := .trying w) nofun _ c' w').1 htold
      exact h c' w' ⟨hcode', (honly.reported_iff hs.own hc w'.direction).1 hreported⟩
    · exact fun _ _ hwait hready => absurd ⟨hwait, hready⟩ hnot
  · obtain ⟨-, -, hnew, hothers⟩ := hs.own.poll hpoll
    refine ⟨iff_of_true (fun c' w' htold => ?_) trivial, rfl, fun _ => Or.inl rfl⟩
    obtain ⟨hcode', hreported⟩ := htold
    by_cases hc : c' = c
    · subst hc
      exact truthful_spec htrue w'.direction (hnew w'.direction hreported)
    · rw [Sharing.setCode] at hcode'
      dsimp only at hcode'
      rw [Function.update_of_ne hc] at hcode'
      rcases (hothers c' hc).1 w'.direction hreported with hreported | hfinds
      · exact h c' w' ⟨hcode', hreported⟩
      · exact truthful_spec htrue w'.direction hfinds
  · refine ⟨iff_of_true (fun c' w' htold => ?_) trivial, rfl, fun _ => Or.inl rfl⟩
    rcases (hs.own.serve hserve).reported c' w'.direction htold.2 with hreported | hfinds
    · exact h c' w' ⟨htold.1, hreported⟩
    · exact truthful_spec htrue w'.direction hfinds
  · exact Keeps.afterPoll h hcode (hs.answered c w hcode hcall) hafter
  · obtain ⟨hown, honly, hresult, herrno⟩ := hs.own.finish c call
    have htold : ∀ c' w', Sharing.Told { s with observed := { s.observed with
        polling := s.observed.polling.finish c call } } c' w' ↔ s.Told c' w' := by
      refine told_iff_of_reported fun c' d => ?_
      by_cases hc : c' = c
      · subst hc
        rw [Observed.Reported, Observed.Reported, hresult]
      · exact honly.reported_iff hs.own hc d
    have hall : AllReady D { s with observed := { s.observed with
        polling := s.observed.polling.finish c call } } :=
      fun c' w' h' => h c' w' ((htold c' w').1 h')
    have hkeeps := Keeps.afterPoll hall hcode herrno hafter
    refine ⟨hkeeps.ready.trans ?_, hkeeps.blocked, hkeeps.returned⟩
    simp only [LeavesReady, OthersReady, htold]

omit [DecidableEq K] [DecidableEq C] in
theorem sound_init (ws : List Wrapper) (device : S) : Sound ws (init K C I device) := by
  refine ⟨⟨?_, ?_, ?_⟩, nofun, ?_⟩
  · intro r m hm
    cases hm
  · intro c p hp
    cases hp
  · intro c p hp
    cases hp
  · rintro c w (h | h) <;> cases h

omit [DecidableEq K] [DecidableEq C] in
theorem allReady_init (D : Device S) (device : S) : AllReady D (init K C I device) :=
  fun _ _ htold => by cases htold.1

end Sharing

end Zth
