import Mathlib.Data.List.Nodup

/-!
# `GMainLoopDispatch` — running functions on the main loop

`GMainLoopDispatch(func)` (`src/menumodel-cpp/gio-helpers/util.cpp`) hands `func` to the
thread that owns the default main context. Under the static `_lock`:

* on the owning thread (`g_main_context_acquire` succeeds) it runs `func` at once when
  `_funcs` is empty, after releasing `_lock`, and otherwise queues it behind `_funcs`;
* on any other thread it queues `func`, adding a `dispatch_cb` idle source first when
  `_funcs` was empty;
* `dispatch_cb`, run by the main loop, walks `_funcs` and releases `_lock` around each
  call, then clears the list and removes its source.

The model is one state machine for all interleavings. A call from another thread does
its whole critical section under `_lock`, so it is one atomic step. The main thread runs
the main loop and owns the context throughout; it is a program point and a stack of the
functions it is inside, and a function it runs may call `GMainLoopDispatch` again or spin
a nested main loop. Between steps `_lock` is held only by `dispatch_cb` at the head of its
loop, so another thread can take it exactly when the main thread is not there.

A function is named by the ticket of its `GMainLoopDispatch` call: calls are numbered in
the order they took `_lock`. The ticket counter and the list of the functions invoked so
far are ghost state: they record the orders the properties speak of. `step` takes a call's
ticket itself (`takeTicket`), outside the modelled body of the call, so the record that a
call happened does not depend on what the call does.
-/

namespace IndicatorNetwork

namespace GMainLoopDispatch

/-- Where the main thread is. -/
inductive Pc
  /-- Running main-loop or function code, with `_lock` free. -/
  | running
  /-- The acquire branch of call `t` released `_lock`; `func()` is not entered yet. -/
  | callNow (t : Nat)
  /-- `dispatch_cb` holds `_lock` with its iterator at index `k` of `_funcs`. -/
  | dispatchHead (k : Nat)
  /-- `dispatch_cb` released `_lock`; `(*func)()` at index `k` is not entered yet. -/
  | dispatchCall (k : Nat)
  deriving DecidableEq, Repr

/-- A function the main thread is inside. -/
inductive Frame
  /-- `func()` of the acquire branch of call `t`. -/
  | callNow (t : Nat)
  /-- `(*func)()` of `dispatch_cb` at index `k`. -/
  | dispatch (k : Nat)
  deriving DecidableEq, Repr

/-- The main thread: where it is, and the functions it is inside, innermost first. -/
structure MainThread where
  pc : Pc
  stack : List Frame
  deriving DecidableEq, Repr

/-- The queue, the idle sources, the main thread, and the ghost record of calls. -/
structure State where
  /-- `_funcs`, by ticket. -/
  funcs : List Nat
  /-- `dispatch_cb` idle sources added and not yet dispatched. -/
  idles : Nat
  main : MainThread
  /-- The ticket of the next call to take `_lock`. -/
  next : Nat
  /-- The tickets of the functions entered so far, in order. -/
  invoked : List Nat
  deriving DecidableEq, Repr

/-- The steps of a run. -/
inductive Action
  /-- `GMainLoopDispatch(func)` on a thread that does not own the context. -/
  | otherThreadCall
  /-- `GMainLoopDispatch(func)` from code the main thread is running. -/
  | mainThreadCall
  /-- The main thread enters the function it is about to call. -/
  | invoke
  /-- The function the main thread is innermost in returns. -/
  | funcReturn
  /-- The main loop dispatches a `dispatch_cb` idle source. -/
  | idleDispatch
  /-- `dispatch_cb` tests its iterator with `_lock` held. -/
  | dispatchNext
  deriving DecidableEq, Repr

/-- Whether `_lock` is held between steps: only by `dispatch_cb` at the head of its loop. -/
def MainThread.lockHeld (m : MainThread) : Bool :=
  match m.pc with
  | .dispatchHead _ => true
  | _ => false

namespace State

/-- Nothing queued, no source, the main thread idle in its loop. -/
def init : State := ⟨[], 0, ⟨.running, []⟩, 0, []⟩

/-- `GMainLoopDispatch(func)` when `g_main_context_acquire` fails: queue `func` (the call's
    ticket `s.next`), adding the idle source if `_funcs` was empty. -/
def queueFromOtherThread (s : State) : State :=
  { s with
    idles := if s.funcs.isEmpty then s.idles + 1 else s.idles
    funcs := s.funcs ++ [s.next] }

/-- `GMainLoopDispatch(func)` when `g_main_context_acquire` succeeds: call `func` at once
    if `_funcs` is empty, else queue it. -/
def callFromMainThread (s : State) : State :=
  if s.funcs.isEmpty then { s with main.pc := .callNow s.next }
  else { s with funcs := s.funcs ++ [s.next] }

/-- Ghost: a call took `_lock` and holds ticket `s.next`; the next call gets the next one. -/
def takeTicket (s : State) : State := { s with next := s.next + 1 }

/-- The head of `dispatch_cb`'s loop at index `k`: release `_lock` before the next
    function, or `_funcs.clear()` and return `G_SOURCE_REMOVE`. -/
def dispatchNext (s : State) (k : Nat) : State :=
  if k < s.funcs.length then { s with main.pc := .dispatchCall k }
  else { s with funcs := [], main.pc := .running }

/-- Entering function `t`, which pushes `frame`. -/
def enter (s : State) (t : Nat) (frame : Frame) : State :=
  { s with main := ⟨.running, frame :: s.main.stack⟩, invoked := s.invoked ++ [t] }

/-- One step; `none` when the action is not enabled. -/
def step (s : State) : Action → Option State
  | .otherThreadCall =>
      if s.main.lockHeld then none else some s.queueFromOtherThread.takeTicket
  | .mainThreadCall =>
      if s.main.pc = .running then some s.callFromMainThread.takeTicket else none
  | .invoke =>
      match s.main.pc with
      | .callNow t => some (s.enter t (.callNow t))
      | .dispatchCall k =>
          match s.funcs[k]? with
          | some t => some (s.enter t (.dispatch k))
          | none => none
      | _ => none
  | .funcReturn =>
      match s.main with
      | ⟨.running, .callNow _ :: rest⟩ => some { s with main := ⟨.running, rest⟩ }
      | ⟨.running, .dispatch k :: rest⟩ => some { s with main := ⟨.dispatchHead (k + 1), rest⟩ }
      | _ => none
  | .idleDispatch =>
      if s.main.pc = .running ∧ 0 < s.idles then
        some { s with idles := s.idles - 1, main.pc := .dispatchHead 0 }
      else none
  | .dispatchNext =>
      match s.main.pc with
      | .dispatchHead k => some (s.dispatchNext k)
      | _ => none

/-- **WHAT A STEP CAN DO**: the eight transitions, each with its guard. -/
theorem step_cases {s s' : State} {a : Action} (h : s.step a = some s') :
    (a = .otherThreadCall ∧ s.main.lockHeld = false ∧ s' = s.queueFromOtherThread.takeTicket) ∨
    (a = .mainThreadCall ∧ s.main.pc = .running ∧ s' = s.callFromMainThread.takeTicket) ∨
    (∃ t, a = .invoke ∧ s.main.pc = .callNow t ∧ s' = s.enter t (.callNow t)) ∨
    (∃ k t, a = .invoke ∧ s.main.pc = .dispatchCall k ∧ s.funcs[k]? = some t ∧
      s' = s.enter t (.dispatch k)) ∨
    (∃ t rest, a = .funcReturn ∧ s.main = ⟨.running, .callNow t :: rest⟩ ∧
      s' = { s with main := ⟨.running, rest⟩ }) ∨
    (∃ k rest, a = .funcReturn ∧ s.main = ⟨.running, .dispatch k :: rest⟩ ∧
      s' = { s with main := ⟨.dispatchHead (k + 1), rest⟩ }) ∨
    (a = .idleDispatch ∧ s.main.pc = .running ∧ 0 < s.idles ∧
      s' = { s with idles := s.idles - 1, main.pc := .dispatchHead 0 }) ∨
    (∃ k, a = .dispatchNext ∧ s.main.pc = .dispatchHead k ∧ s' = s.dispatchNext k) := by
  cases a with
  | otherThreadCall =>
      simp only [step] at h; split_ifs at h with hl
      exact .inl ⟨rfl, by simpa using hl, (Option.some.inj h).symm⟩
  | mainThreadCall =>
      simp only [step] at h; split_ifs at h with hpc
      exact .inr (.inl ⟨rfl, hpc, (Option.some.inj h).symm⟩)
  | invoke =>
      simp only [step] at h
      split at h
      · exact .inr (.inr (.inl ⟨_, rfl, ‹_›, (Option.some.inj h).symm⟩))
      · split at h
        · exact .inr (.inr (.inr (.inl ⟨_, _, rfl, ‹_›, ‹_›, (Option.some.inj h).symm⟩)))
        · cases h
      · cases h
  | funcReturn =>
      simp only [step] at h
      split at h
      · exact .inr (.inr (.inr (.inr (.inl ⟨_, _, rfl, ‹_›, (Option.some.inj h).symm⟩))))
      · exact .inr (.inr (.inr (.inr (.inr (.inl ⟨_, _, rfl, ‹_›, (Option.some.inj h).symm⟩)))))
      · cases h
  | idleDispatch =>
      simp only [step] at h; split_ifs at h with hc
      exact .inr (.inr (.inr (.inr (.inr (.inr (.inl ⟨rfl, hc.1, hc.2,
        (Option.some.inj h).symm⟩))))))
  | dispatchNext =>
      simp only [step] at h
      split at h
      · exact .inr (.inr (.inr (.inr (.inr (.inr (.inr ⟨_, rfl, ‹_›, (Option.some.inj h).symm⟩))))))
      · cases h

/-- The states some interleaving reaches. -/
inductive Reachable : State → Prop
  | init : Reachable init
  | step {s s' : State} (a : Action) : Reachable s → s.step a = some s' → Reachable s'

end State

end GMainLoopDispatch

end IndicatorNetwork
