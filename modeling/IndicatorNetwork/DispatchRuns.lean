import IndicatorNetwork.DispatchQueue
import Mathlib.Logic.Relation

/-!
# `GMainLoopDispatch` — exactly once, in arrival order, nothing left behind

From the queue invariant (`Inv`):

* **order** — the functions entered so far are always the calls `0, 1, …, m-1`: none is
  entered twice, and a function is entered only after every call that took `_lock` before
  it (`invoked_eq_range`, `enter_after_earlier`);
* **a source for every queue** — while `_funcs` is non-empty a `dispatch_cb` source is
  pending or `dispatch_cb` is running, and the `_funcs.clear()` at its end only drops
  functions it has entered (`queued_has_dispatch`, `clear_drops_entered`);
* **progress** — steps of the main thread strictly decrease `rank`, so no run of them is
  infinite, and a state in which the main thread can take none has entered every function
  whose call took `_lock` (`rank_lt`, `stuck_drained`).

`dispatch_exactly_once_in_order` gathers the three.
-/

namespace IndicatorNetwork

namespace GMainLoopDispatch

/-- The steps a thread takes by calling `GMainLoopDispatch`. -/
def Action.isCall : Action → Bool
  | .otherThreadCall => true
  | .mainThreadCall => true
  | _ => false

/-- A weight for the main thread's program point: `dispatch_cb` at its head is about to
    call or return, which costs less than the frame it leaves. -/
def Pc.weight : Pc → Nat
  | .dispatchHead _ => 2
  | .dispatchCall _ => 1
  | _ => 0

namespace State

/-- What the main thread still has to do: functions to enter, frames to leave, sources
    to dispatch. -/
def rank (s : State) : Nat :=
  10 * (s.next - s.invoked.length) + 3 * s.main.stack.length + s.main.pc.weight + 5 * s.idles

/-- A step of the main thread that makes no new call. -/
def MainStep (s s' : State) : Prop := ∃ a : Action, a.isCall = false ∧ s.step a = some s'

variable {s : State}

theorem reachable_of_mainStep {s' : State} (hs : Reachable s) (h : MainStep s s') :
    Reachable s' :=
  let ⟨a, _, h⟩ := h; .step a hs h

theorem eq_range_of_append_eq_range {l m : List Nat} {n : Nat} (h : l ++ m = List.range n) :
    l = List.range l.length := by
  have hlen : l.length ≤ n := by
    have := congrArg List.length h
    simp only [List.length_append, List.length_range] at this
    omega
  calc l = (l ++ m).take l.length := (List.take_left' rfl).symm
    _ = List.range l.length := by rw [h, List.take_range, Nat.min_eq_left hlen]

-- ── Order ─────────────────────────────────────────────────────────────────────

/-- **AT MOST ONCE, IN ORDER**: the functions entered are `0, 1, …, m-1`. -/
theorem invoked_eq_range (hs : Reachable s) : s.invoked = List.range s.invoked.length :=
  eq_range_of_append_eq_range (reachable_inv hs).order

/-- A function is entered only after every call that took `_lock` before it. -/
theorem enter_after_earlier {s' : State} {a : Action} {t : Nat} (hs : Reachable s)
    (h : s.step a = some s') (ht : s'.invoked = s.invoked ++ [t]) :
    ∀ u < t, u ∈ s.invoked := by
  have h' := invoked_eq_range (.step a hs h)
  rw [ht, List.length_append, List.length_singleton, List.range_succ] at h'
  obtain ⟨h1, h2⟩ := List.append_inj h' (by simp)
  rw [List.singleton_inj] at h2
  intro u hu
  rw [h1, List.mem_range]
  omega

-- ── A source for every queue ──────────────────────────────────────────────────

/-- While functions are queued, a `dispatch_cb` source is pending or `dispatch_cb` runs. -/
theorem queued_has_dispatch (hs : Reachable s) (h : s.funcs ≠ []) :
    0 < s.idles ∨ s.main.cursor.isSome := by
  have hid := (reachable_inv hs).idles_eq
  cases hc : s.main.cursor with
  | none => simp [hc, h] at hid; omega
  | some _ => simp

/-- `dispatch_cb`'s `_funcs.clear()` drops only functions it has entered. -/
theorem clear_drops_entered {k : Nat} (hs : Reachable s) (hpc : s.main.pc = .dispatchHead k)
    (hk : s.funcs.length ≤ k) : ∀ t ∈ s.funcs, t ∈ s.invoked := by
  have hent := (reachable_inv hs).entered
  simpa [MainThread.cursor, hpc, List.take_of_length_le hk] using hent

-- ── Progress ──────────────────────────────────────────────────────────────────

/-- **PROGRESS**: each step of the main thread lowers `rank`. -/
theorem rank_lt {s' : State} (hs : Reachable s) (h : MainStep s s') : s'.rank < s.rank := by
  have hord := congrArg List.length (reachable_inv (reachable_of_mainStep hs h)).order
  obtain ⟨a, ha, hst⟩ := h
  rcases step_cases hst with ⟨rfl, -⟩ | ⟨rfl, -⟩ | ⟨t, -, hpc, rfl⟩ | ⟨k, t, -, hpc, -, rfl⟩ |
    ⟨t, rest, -, hm, rfl⟩ | ⟨k, rest, -, hm, rfl⟩ | ⟨-, hpc, hidle, rfl⟩ | ⟨k, -, hpc, rfl⟩
  all_goals first | cases ha | skip
  · simp [enter] at hord; simp [rank, enter, hpc, Pc.weight]; omega
  · simp [enter] at hord; simp [rank, enter, hpc, Pc.weight]; omega
  · simp [rank, hm, Pc.weight]
  · simp [rank, hm, Pc.weight]; omega
  · simp [rank, hpc, Pc.weight]; omega
  · unfold dispatchNext; split_ifs <;> simp [rank, hpc, Pc.weight]

/-- No run of the main thread alone is infinite. -/
theorem no_infinite_mainRun (f : Nat → State) (h0 : Reachable (f 0))
    (hf : ∀ n, MainStep (f n) (f (n + 1))) : False := by
  have key : ∀ n, Reachable (f n) ∧ (f n).rank + n ≤ (f 0).rank := by
    intro n
    induction n with
    | zero => exact ⟨h0, by simp⟩
    | succ n ih =>
        have := rank_lt ih.1 (hf n)
        exact ⟨reachable_of_mainStep ih.1 (hf n), by omega⟩
  have := (key ((f 0).rank + 1)).2
  omega

/-- **NOTHING LEFT BEHIND**: when the main thread can take no step, every function whose
    call took `_lock` has been entered, and nothing is queued or scheduled. -/
theorem stuck_drained (hs : Reachable s)
    (hstuck : ∀ a : Action, a.isCall = false → s.step a = none) :
    s.invoked = List.range s.next ∧ s.funcs = [] ∧ s.idles = 0 := by
  have hi := reachable_inv hs
  rcases hm : s.main with ⟨pc, stack⟩
  cases pc with
  | callNow t => simpa [step, hm] using hstuck .invoke rfl
  | dispatchCall k =>
      have hk := hi.call_lt k (by simp [hm])
      simpa [step, hm, List.getElem?_eq_getElem hk] using hstuck .invoke rfl
  | dispatchHead k => simpa [step, hm] using hstuck .dispatchNext rfl
  | running =>
      cases stack with
      | cons f rest =>
          have := hstuck .funcReturn rfl
          cases f <;> simp [step, hm] at this
      | nil =>
          have hidle : s.idles = 0 := by
            have := hstuck .idleDispatch rfl
            simp [step, hm] at this
            omega
          have hc : s.main.cursor = none := by simp [hm, MainThread.cursor]
          have hid := hi.idles_eq
          rw [hidle, hc] at hid
          have hf : s.funcs = [] := by
            by_contra hne
            simp [hne] at hid
          have hord := hi.order
          simp [pending, MainThread.callingNow, hm, hf] at hord
          exact ⟨hord, hf, hidle⟩

end State

open State in
/-- **EXACTLY ONCE, IN ARRIVAL ORDER** — `GMainLoopDispatch` over every interleaving of
    calls from the main thread and from other threads with the steps of `dispatch_cb`:
    (a) the functions entered are always the calls `0, 1, …, m-1`, so none is entered
    twice; no run of the main thread alone is infinite; and once it can take no step, every
    call that took `_lock` has been entered. (b) A function is entered only after the
    function of every call that took `_lock` before it. (c) While `_funcs` is non-empty a
    `dispatch_cb` source is pending or `dispatch_cb` is running, and its final
    `_funcs.clear()` drops only functions it has entered. -/
theorem dispatch_exactly_once_in_order :
    (∀ s : State, s.Reachable → s.invoked = List.range s.invoked.length) ∧
    (∀ f : Nat → State, (f 0).Reachable → ¬ ∀ n, MainStep (f n) (f (n + 1))) ∧
    (∀ s : State, s.Reachable → (∀ a : Action, a.isCall = false → s.step a = none) →
      s.invoked = List.range s.next) ∧
    (∀ (s s' : State) (a : Action) (t : Nat), s.Reachable → s.step a = some s' →
      s'.invoked = s.invoked ++ [t] → ∀ u < t, u ∈ s.invoked) ∧
    (∀ s : State, s.Reachable → s.funcs ≠ [] → 0 < s.idles ∨ s.main.cursor.isSome) ∧
    (∀ (s : State) (k : Nat), s.Reachable → s.main.pc = .dispatchHead k →
      s.funcs.length ≤ k → ∀ t ∈ s.funcs, t ∈ s.invoked) :=
  ⟨fun _ hs => invoked_eq_range hs,
    fun f h0 hf => no_infinite_mainRun f h0 hf,
    fun _ hs hstuck => (stuck_drained hs hstuck).1,
    fun _ _ _ _ hs h ht => enter_after_earlier hs h ht,
    fun _ hs h => queued_has_dispatch hs h,
    fun _ _ hs hpc hk => clear_drops_entered hs hpc hk⟩

open State in
/-- Two calls from another thread queue functions `0` and `1`; `dispatch_cb` enters `0`,
    which calls `GMainLoopDispatch` again: call `2` is queued behind `1`, not run (`s`).
    `dispatch_cb` then enters `1` and `2` (`c` is the state before it enters `2`), reaches
    the end of `_funcs` (`d`) and clears it, leaving nothing for the main thread to do
    (`e`). Every part of the theorem is applied along this run. -/
theorem dispatch_nested_call_queues :
    let s : State := ⟨[0, 1, 2], 0, ⟨.running, [.dispatch 0]⟩, 3, [0]⟩
    let c : State := ⟨[0, 1, 2], 0, ⟨.dispatchCall 2, []⟩, 3, [0, 1]⟩
    let d : State := ⟨[0, 1, 2], 0, ⟨.dispatchHead 3, []⟩, 3, [0, 1, 2]⟩
    let e : State := ⟨[], 0, ⟨.running, []⟩, 3, [0, 1, 2]⟩
    s.Reachable ∧ c.Reachable ∧ d.Reachable ∧ e.Reachable ∧
      s.invoked = List.range s.invoked.length ∧
      ¬ (∀ n : Nat, MainStep ((fun _ => s) n) ((fun _ => s) (n + 1))) ∧
      e.invoked = List.range e.next ∧ (∀ u < 2, u ∈ c.invoked) ∧
      (0 < s.idles ∨ s.main.cursor.isSome) ∧ (∀ t ∈ d.funcs, t ∈ d.invoked) := by
  intro s c d e
  have hs : s.Reachable :=
    .step .mainThreadCall (.step .invoke (.step .dispatchNext (.step .idleDispatch
      (.step .otherThreadCall (.step .otherThreadCall .init rfl) rfl) rfl) rfl) rfl) rfl
  have hc : c.Reachable := .step .dispatchNext (.step .funcReturn (.step .invoke
    (.step .dispatchNext (.step .funcReturn hs rfl) rfl) rfl) rfl) rfl
  have hd : d.Reachable := .step .funcReturn (.step .invoke hc rfl) rfl
  have he : e.Reachable := .step .dispatchNext hd rfl
  have hstuck : ∀ a : Action, a.isCall = false → e.step a = none := fun a ha => by
    cases a <;> first | rfl | cases ha
  exact ⟨hs, hc, hd, he, dispatch_exactly_once_in_order.1 s hs,
    dispatch_exactly_once_in_order.2.1 (fun _ => s) hs,
    dispatch_exactly_once_in_order.2.2.1 e he hstuck,
    dispatch_exactly_once_in_order.2.2.2.1 c _ .invoke 2 hc rfl rfl,
    dispatch_exactly_once_in_order.2.2.2.2.1 s hs (by decide),
    dispatch_exactly_once_in_order.2.2.2.2.2 d 3 hd rfl (by decide)⟩

-- ── One `dispatch_cb` at a time ───────────────────────────────────────────────

/-- Whether the main thread's program point is inside `dispatch_cb`. -/
def Pc.inDispatch : Pc → Bool
  | .running => false
  | .callNow _ => false
  | .dispatchHead _ => true
  | .dispatchCall _ => true

/-- The number of `dispatch_cb` calls the main thread is inside: the one at its program
    point, and one for each `(*func)()` of `dispatch_cb` it is in. -/
def MainThread.dispatchDepth (m : MainThread) : Nat :=
  (if m.pc.inDispatch then 1 else 0) + m.stack.countP fun f => !f.isCallNow

namespace State

variable {s : State}

theorem countP_dispatch_eq_zero {l : List Frame} (h : ∀ f ∈ l, f.isCallNow) :
    l.countP (fun f => !f.isCallNow) = 0 :=
  List.countP_eq_zero.2 fun f hf => by simp [h f hf]

/-- Only the innermost frame can be a `(*func)()` of `dispatch_cb`, and only when the main
    thread is not inside `dispatch_cb` itself. -/
theorem Inv.dispatchDepth_le_one (hi : Inv s) : s.main.dispatchDepth ≤ 1 := by
  have hout := hi.outer
  generalize s.main = m at hout ⊢
  obtain ⟨pc, stack⟩ := m
  cases pc
  case running =>
    cases stack with
    | nil => simp [MainThread.dispatchDepth, Pc.inDispatch]
    | cons f rest =>
        simp only [MainThread.outerFrames, List.drop_succ_cons, List.drop_zero] at hout
        simp only [MainThread.dispatchDepth, Pc.inDispatch, List.countP_cons,
          countP_dispatch_eq_zero hout, Bool.false_eq_true, if_false, Nat.zero_add]
        split <;> omega
  all_goals
    simp only [MainThread.outerFrames] at hout
    simp [MainThread.dispatchDepth, Pc.inDispatch, countP_dispatch_eq_zero hout]

/-- **ONE `dispatch_cb` AT A TIME** — in every interleaving at most one `dispatch_cb` source
    is pending, none while `dispatch_cb` runs, and the main thread is inside at most one
    `dispatch_cb`: a function that `dispatch_cb` runs may call `GMainLoopDispatch` or spin a
    nested main loop, and `dispatch_cb` is still not entered a second time. -/
theorem dispatch_cb_never_reentered (hs : Reachable s) :
    s.idles ≤ 1 ∧ (s.main.cursor.isSome → s.idles = 0) ∧ s.main.dispatchDepth ≤ 1 := by
  have hi := reachable_inv hs
  refine ⟨?_, fun hc => ?_, hi.dispatchDepth_le_one⟩ <;> rw [hi.idles_eq]
  · split <;> omega
  · exact if_neg fun h => Option.isSome_iff_ne_none.1 hc h.2

/-- `dispatch_cb` runs function `0`, which calls `GMainLoopDispatch`: call `1` is queued and
    no second source is added. -/
theorem dispatch_cb_nested_call_adds_no_source :
    let s : State := ⟨[0, 1], 0, ⟨.running, [.dispatch 0]⟩, 2, [0]⟩
    Reachable s ∧ s.idles ≤ 1 ∧ (s.main.cursor.isSome → s.idles = 0) ∧
      s.main.dispatchDepth ≤ 1 :=
  have hs : Reachable ⟨[0, 1], 0, ⟨.running, [.dispatch 0]⟩, 2, [0]⟩ :=
    .step .mainThreadCall (.step .invoke (.step .dispatchNext (.step .idleDispatch
      (.step .otherThreadCall .init rfl) rfl) rfl) rfl) rfl
  ⟨hs, dispatch_cb_never_reentered hs⟩

end State

end GMainLoopDispatch

end IndicatorNetwork
