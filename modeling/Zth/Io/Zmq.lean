import Zth.Io.Sharing

/-!
# Sharing one socket of 0MQ

The wrappers of 0MQ try without blocking, poll, and try once more. Between the event and the
second try another fiber may have taken the message, or the room for one. Then the second try
fails with `EAGAIN`, which is returned, although the call is a blocking one.
-/

namespace Zth

/-- The wrappers that send or receive. -/
def Wrapper.zmq : List Wrapper := [zmqMsgSend, zmqMsgRecv, zmqSend, zmqRecv, zmqSendConst]

namespace Sharing

variable {K C I S κ : Type*} [DecidableEq K] [DecidableEq C] {D : Device S}

/-- No call has returned `EAGAIN`, and a fiber that was told so would not get it from its second
try either. -/
structure NeverEagain (D : Device S) (s : Sharing K C I S) : Prop where
  returned : ∀ c, s.returned c ≠ some (some .eagain)
  retry : ∀ c w, s.Told c w → D.ready w.direction s.device = true

/-- No call returns `EAGAIN`, exactly when no operation, and nothing outside of the thread,
takes from a fiber that waits for its second try what it was told. -/
theorem neverEagain_always_iff (D : Device S) (k : ServerKind)
    (initItem : κ → C → Except Errno I) (device : S) {u : Sharing K C I S}
    {ls : List (Label C κ S)}
    (hr : Transition.run (step D k initItem Wrapper.zmq) (init K C I device) ls = some u) :
    Transition.Always (step D k initItem Wrapper.zmq) (NeverEagain D) (init K C I device) ls ↔
      Transition.Guarded (step D k initItem Wrapper.zmq) (LeavesReady D) (init K C I device)
        ls := by
  refine Transition.always_iff_guarded_of_run (I := Sound Wrapper.zmq)
    (fun _ _ _ hs h => hs.step h) ?_ (sound_init Wrapper.zmq device)
    ⟨nofun, allReady_init D device⟩ hr
  intro s l t hs hP ht
  have hkeeps := hs.keeps hP.retry ht
  rw [← hkeeps.ready]
  refine ⟨fun h => h.retry, fun h => ⟨fun c => ?_, h⟩⟩
  rcases hkeeps.returned c with heq | hne
  · rw [heq]
    exact hP.returned c
  · exact hne

/-- The queue of messages of a socket, and the room for messages to send. -/
structure Queues where
  received : ℕ
  room : ℕ
deriving DecidableEq, Repr

/-- A socket: an operation takes a message, or room for one, and outside of the thread
messages arrive and are sent. -/
def socket : Device Queues where
  ready d s := match d with
    | .input => decide (0 < s.received)
    | .output => decide (0 < s.room)
  operate d s t := match d with
    | .input => decide (s.received = t.received + 1 ∧ t.room = s.room)
    | .output => decide (s.room = t.room + 1 ∧ t.received = s.received)
  outside s t := decide (s.received ≤ t.received ∧ s.room ≤ t.room)

/-- Nothing is to be initialised but the pollable itself. -/
def initSocket (_ : Unit) (c : ℕ) : Except Errno ℕ := .ok c

/-- Fibers 1 and 2 wait for a message, `n` messages arrive, and both are told. -/
def bothReceive (n : ℕ) : List (Label ℕ Unit Queues) :=
  [.call 1 .zmqMsgRecv true (.failed .einval), .poll 1 () (fun _ => true) (.ok [0]),
    .call 2 .zmqRecv true (.failed .einval), .poll 2 () (fun _ => true) (.ok [0, 0]),
    .outside ⟨n, 0⟩, .serve () (.ok [ZmqPoller.ZMQ_POLLIN, ZmqPoller.ZMQ_POLLIN])]

/-- There is a message for each of them. -/
theorem neverEagain_always_iff_two :
    (Transition.run (step socket .zmqPoller initSocket Wrapper.zmq) (init Unit ℕ ℕ ⟨0, 0⟩)
        (bothReceive 2 ++ [.go 1 (.done ⟨1, 0⟩), .go 2 (.done ⟨0, 0⟩)])).isSome ∧
      (Transition.Always (step socket .zmqPoller initSocket Wrapper.zmq) (NeverEagain socket)
          (init Unit ℕ ℕ ⟨0, 0⟩)
          (bothReceive 2 ++ [.go 1 (.done ⟨1, 0⟩), .go 2 (.done ⟨0, 0⟩)]) ↔
        Transition.Guarded (step socket .zmqPoller initSocket Wrapper.zmq) (LeavesReady socket)
          (init Unit ℕ ℕ ⟨0, 0⟩)
          (bothReceive 2 ++ [.go 1 (.done ⟨1, 0⟩), .go 2 (.done ⟨0, 0⟩)])) :=
  ⟨rfl, neverEagain_always_iff socket .zmqPoller initSocket ⟨0, 0⟩ rfl⟩

/-- There is one message. The first fiber takes it, and the call of the other one returns
`EAGAIN`. -/
theorem not_neverEagain_one :
    ∃ s, Transition.run (step socket .zmqPoller initSocket Wrapper.zmq) (init Unit ℕ ℕ ⟨0, 0⟩)
        (bothReceive 1 ++ [.go 1 (.done ⟨0, 0⟩), .go 2 (.failed .einval)]) = some s ∧
      s.returned 2 = some (some .eagain) ∧
      ¬ Transition.Always (step socket .zmqPoller initSocket Wrapper.zmq) (NeverEagain socket)
        (init Unit ℕ ℕ ⟨0, 0⟩)
        (bothReceive 1 ++ [.go 1 (.done ⟨0, 0⟩), .go 2 (.failed .einval)]) := by
  refine ⟨_, rfl, rfl, fun h => ?_⟩
  exact (h.last rfl).returned 2 rfl

end Sharing

end Zth
