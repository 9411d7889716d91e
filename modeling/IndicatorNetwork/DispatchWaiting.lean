import IndicatorNetwork.DispatchRuns

/-!
# `GMainLoopDispatch` — bounded waiting, whatever other threads do

`dispatch_exactly_once_in_order` shows that the main thread, left alone, enters every
function whose call took `_lock`. Other threads do not leave it alone: they call
`GMainLoopDispatch` at any time, also while `dispatch_cb` walks `_funcs` with `_lock`
released. They still cannot delay a function that is already waiting:

* a call from any thread queues behind every waiting function, and adds no `dispatch_cb`
  source while one is waiting in `_funcs`, so it never raises `waitBound`; each step of the
  main thread lowers it while the function waits (`waitBound_step`);
* so a waiting function is entered once the main thread has taken `waitBound` steps, however
  the calls of other threads and of the main thread interleave with them
  (`pending_entered_within_bound`).

`waitBound` counts what stands before the function: ten for each function ahead of it,
three for each frame the main thread is inside, the weight of its program point, and five
for a pending `dispatch_cb` source.
-/

namespace IndicatorNetwork

namespace GMainLoopDispatch

namespace State

/-- The state after a list of actions; `none` when one of them is not enabled. -/
def run (s : State) : List Action → Option State
  | [] => some s
  | a :: as => (s.step a).bind fun s' => s'.run as

/-- The steps of the main thread in a list of actions. -/
def mainSteps (as : List Action) : Nat := as.countP fun a => !a.isCall

/-- A bound on the steps the main thread takes before it enters the waiting function `t`. -/
def waitBound (s : State) (t : Nat) : Nat :=
  if s.main.pc = .callNow t then 1
  else 10 * s.pending.indexOf t + 3 * s.main.stack.length + s.main.pc.weight + 5 * s.idles + 1

variable {s : State} {t u : Nat}

theorem Inv.lt_next (hi : Inv s) (ht : t ∈ s.pending) : t < s.next := by
  have h : t ∈ s.invoked ++ s.pending := List.mem_append_right _ ht
  rwa [hi.order, List.mem_range] at h

theorem Inv.mem_pending (hi : Inv s) (ht : t < s.next) (hn : t ∉ s.invoked) :
    t ∈ s.pending := by
  have h : t ∈ s.invoked ++ s.pending := by rw [hi.order]; exact List.mem_range.2 ht
  exact (List.mem_append.1 h).resolve_left hn

/-- A step never takes back a ticket or an entry of the functions entered. -/
theorem step_mono {a : Action} {s' : State} (h : s.step a = some s') :
    s.next ≤ s'.next ∧ ∀ v ∈ s.invoked, v ∈ s'.invoked := by
  rcases step_cases h with ⟨-, -, rfl⟩ | ⟨-, -, rfl⟩ | ⟨_, -, -, rfl⟩ | ⟨_, _, -, -, -, rfl⟩ |
    ⟨_, _, -, -, rfl⟩ | ⟨_, _, -, -, rfl⟩ | ⟨-, -, -, rfl⟩ | ⟨k, -, -, rfl⟩
  · exact ⟨Nat.le_succ _, fun _ h => h⟩
  · unfold callFromMainThread; split_ifs <;> exact ⟨Nat.le_succ _, fun _ h => h⟩
  · exact ⟨Nat.le_refl _, fun _ h => List.mem_append_left _ h⟩
  · exact ⟨Nat.le_refl _, fun _ h => List.mem_append_left _ h⟩
  · exact ⟨Nat.le_refl _, fun _ h => h⟩
  · exact ⟨Nat.le_refl _, fun _ h => h⟩
  · exact ⟨Nat.le_refl _, fun _ h => h⟩
  · unfold dispatchNext; split_ifs <;> exact ⟨Nat.le_refl _, fun _ h => h⟩

theorem run_invoked_mono {as : List Action} {s' : State} (h : s.run as = some s')
    (hv : u ∈ s.invoked) : u ∈ s'.invoked := by
  induction as generalizing s with
  | nil => cases h; exact hv
  | cons a as ih =>
      obtain ⟨s₁, h₁, hrun⟩ := Option.bind_eq_some.1 h
      exact ih hrun ((step_mono h₁).2 u hv)

/-- Outside the acquire branch of its own call, a waiting function waits in `_funcs`. -/
theorem funcs_ne_nil_of_mem_pending (ht : t ∈ s.pending) (hpc : s.main.pc ≠ .callNow t) :
    s.funcs ≠ [] := by
  intro hf
  simp only [pending, hf, List.drop_nil, List.append_nil, MainThread.callingNow] at ht
  split at ht
  · exact hpc (by rename_i h; rw [List.mem_singleton.1 ht]; exact h)
  · cases ht

-- ── One lemma per transition ──────────────────────────────────────────────────

theorem waitBound_push (hi : Inv s) (ht : t ∈ s.pending) (hpc : s.main.pc ≠ .callNow t)
    {idles : Nat} (hidle : idles = s.idles) :
    waitBound { s with funcs := s.funcs ++ [s.next], idles := idles, next := s.next + 1 } t =
      s.waitBound t := by
  subst hidle
  have hpend : pending { s with funcs := s.funcs ++ [s.next], next := s.next + 1 } =
      s.pending ++ [s.next] := by
    simp only [pending, List.drop_append_of_le_length hi.cursor_getD_le, List.append_assoc]
  simp only [waitBound, if_neg hpc, hpend, List.indexOf_append_of_mem ht]

theorem waitBound_queueFromOtherThread (hi : Inv s) (ht : t ∈ s.pending) :
    s.queueFromOtherThread.takeTicket.waitBound t = s.waitBound t := by
  by_cases hpc : s.main.pc = .callNow t
  · simp [waitBound, queueFromOtherThread, takeTicket, hpc]
  · have hf := funcs_ne_nil_of_mem_pending ht hpc
    exact waitBound_push hi ht hpc (by simp [queueFromOtherThread, hf])

theorem waitBound_callFromMainThread (hi : Inv s) (ht : t ∈ s.pending)
    (hpc : s.main.pc = .running) :
    s.callFromMainThread.takeTicket.waitBound t = s.waitBound t := by
  have hne : s.main.pc ≠ .callNow t := by simp [hpc]
  simp only [callFromMainThread, List.isEmpty_iff, if_neg (funcs_ne_nil_of_mem_pending ht hne)]
  exact waitBound_push hi ht hne rfl

theorem waitBound_enter_callNow (hpc : s.main.pc = .callNow u) (hu : u ≠ t) :
    (s.enter u (.callNow u)).waitBound t + 1 ≤ s.waitBound t := by
  have hc : s.main.cursor = none := by simp [MainThread.cursor, hpc]
  simp [waitBound, enter, pending, MainThread.callingNow, MainThread.cursor, hpc, hc,
    List.indexOf_cons_ne _ hu, Pc.weight, hu]
  omega

theorem waitBound_enter_dispatch {k : Nat} (hpc : s.main.pc = .dispatchCall k)
    (hk : s.funcs[k]? = some u) (hu : u ≠ t) :
    (s.enter u (.dispatch k)).waitBound t + 1 ≤ s.waitBound t := by
  obtain ⟨hlt, hget⟩ := List.getElem?_eq_some.1 hk
  have hdrop : s.funcs.drop k = u :: s.funcs.drop (k + 1) :=
    hget ▸ List.drop_eq_getElem_cons hlt
  have hc : s.main.cursor = some k := by simp [MainThread.cursor, hpc]
  simp [waitBound, enter, pending, MainThread.callingNow, MainThread.cursor, hpc, hc, hdrop,
    List.indexOf_cons_ne _ hu, Pc.weight]
  omega

theorem waitBound_return_callNow (hi : Inv s) {rest : List Frame}
    (hm : s.main = ⟨.running, .callNow u :: rest⟩) :
    waitBound { s with main := ⟨.running, rest⟩ } t + 1 ≤ s.waitBound t := by
  have hout := hi.outer
  simp only [MainThread.outerFrames, hm, List.drop_succ_cons, List.drop_zero] at hout
  have hc : MainThread.cursor ⟨.running, .callNow u :: rest⟩ = none := rfl
  have hc' : MainThread.cursor ⟨.running, rest⟩ = none := MainThread.cursor_running hout
  simp [waitBound, pending, MainThread.callingNow, hm, hc, hc']
  omega

theorem waitBound_return_dispatch {k : Nat} {rest : List Frame}
    (hm : s.main = ⟨.running, .dispatch k :: rest⟩) :
    waitBound { s with main := ⟨.dispatchHead (k + 1), rest⟩ } t + 1 ≤ s.waitBound t := by
  simp [waitBound, pending, MainThread.callingNow, MainThread.cursor, hm, Pc.weight]
  omega

theorem waitBound_idleDispatch (hi : Inv s) (hpc : s.main.pc = .running)
    (hidle : 0 < s.idles) :
    waitBound { s with idles := s.idles - 1, main.pc := .dispatchHead 0 } t + 1 ≤
      s.waitBound t := by
  have hid := hi.idles_eq
  have hc : s.main.cursor = none := by
    by_contra hc
    simp [hc] at hid
    omega
  have hc' : MainThread.cursor ⟨.dispatchHead 0, s.main.stack⟩ = some 0 := rfl
  simp [waitBound, pending, MainThread.callingNow, hpc, hc, hc', Pc.weight]
  omega

theorem waitBound_dispatchNext {k : Nat} (ht : t ∈ s.pending)
    (hpc : s.main.pc = .dispatchHead k) :
    (s.dispatchNext k).waitBound t + 1 ≤ s.waitBound t := by
  have hc : s.main.cursor = some k := by simp [MainThread.cursor, hpc]
  have hk : k < s.funcs.length := by
    by_contra hk
    simp [pending, MainThread.callingNow, hpc, hc,
      List.drop_eq_nil_of_le (Nat.le_of_not_lt hk)] at ht
  simp [dispatchNext, hk, waitBound, pending, MainThread.callingNow, MainThread.cursor, hpc, hc,
    Pc.weight]
  omega

/-- **ONE STEP**: while `t` waits, a call from any thread leaves `waitBound` as it is and a
    step of the main thread lowers it. -/
theorem waitBound_step (hs : Reachable s) (ht : t ∈ s.pending) {a : Action} {s' : State}
    (h : s.step a = some s') (hn : t ∉ s'.invoked) :
    t ∈ s'.pending ∧ s'.waitBound t + (if a.isCall then 0 else 1) ≤ s.waitBound t := by
  have hi := reachable_inv hs
  refine ⟨(reachable_inv (.step a hs h)).mem_pending
    (Nat.lt_of_lt_of_le (hi.lt_next ht) (step_mono h).1) hn, ?_⟩
  rcases step_cases h with ⟨rfl, -, rfl⟩ | ⟨rfl, hpc, rfl⟩ | ⟨u, rfl, hpc, rfl⟩ |
    ⟨k, u, rfl, hpc, hu, rfl⟩ | ⟨u, rest, rfl, hm, rfl⟩ | ⟨k, rest, rfl, hm, rfl⟩ |
    ⟨rfl, hpc, hidle, rfl⟩ | ⟨k, rfl, hpc, rfl⟩
  · exact (waitBound_queueFromOtherThread hi ht).le
  · exact (waitBound_callFromMainThread hi ht hpc).le
  · exact waitBound_enter_callNow hpc fun e => hn (by simp [enter, e])
  · exact waitBound_enter_dispatch hpc hu fun e => hn (by simp [enter, e])
  · exact waitBound_return_callNow hi hm
  · exact waitBound_return_dispatch hm
  · exact waitBound_idleDispatch hi hpc hidle
  · exact waitBound_dispatchNext ht hpc

/-- **BOUNDED WAITING** — a function whose call took `_lock` and that is not entered yet is
    entered once the main thread has taken `waitBound` steps, in every interleaving with
    calls from other threads and from the main thread: those queue behind it, so no thread
    can delay it. -/
theorem pending_entered_within_bound (hs : Reachable s) (ht : t ∈ s.pending)
    (as : List Action) (s' : State) (hrun : s.run as = some s')
    (hbound : s.waitBound t ≤ mainSteps as) : t ∈ s'.invoked := by
  induction as generalizing s with
  | nil =>
      have hpos : 1 ≤ s.waitBound t := by unfold waitBound; split <;> omega
      simp only [mainSteps, List.countP_nil] at hbound
      omega
  | cons a as ih =>
      obtain ⟨s₁, h₁, hrun⟩ := Option.bind_eq_some.1 hrun
      by_cases hn : t ∈ s₁.invoked
      · exact run_invoked_mono hrun hn
      · obtain ⟨ht₁, hle⟩ := waitBound_step hs ht h₁ hn
        refine ih (.step a hs h₁) ht₁ hrun ?_
        simp only [mainSteps, List.countP_cons] at hbound ⊢
        cases hc : a.isCall <;> simp [hc] at hle hbound <;> omega

/-- Call `0`, queued from another thread, is entered within its bound while other threads
    queue calls `1` and `2`, one of them while `dispatch_cb` has released `_lock`. -/
theorem first_call_entered_despite_other_threads :
    let s : State := ⟨[0], 1, ⟨.running, []⟩, 1, []⟩
    let as := [Action.otherThreadCall, .idleDispatch, .dispatchNext, .otherThreadCall, .invoke,
      .funcReturn, .dispatchNext, .invoke]
    let s' : State := ⟨[0, 1, 2], 0, ⟨.running, [.dispatch 1]⟩, 3, [0, 1]⟩
    Reachable s ∧ 0 ∈ s.pending ∧ s.run as = some s' ∧ s.waitBound 0 ≤ mainSteps as ∧
      0 ∈ s'.invoked := by
  intro s as s'
  have hs : Reachable s := .step .otherThreadCall .init rfl
  have hp : 0 ∈ s.pending := by decide
  have hr : s.run as = some s' := rfl
  have hb : s.waitBound 0 ≤ mainSteps as := by decide
  exact ⟨hs, hp, hr, hb, pending_entered_within_bound hs hp as s' hr hb⟩

end State

end GMainLoopDispatch

end IndicatorNetwork
