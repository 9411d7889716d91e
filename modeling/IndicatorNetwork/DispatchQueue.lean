import IndicatorNetwork.Dispatch

/-!
# `GMainLoopDispatch` — the queue invariant

Every interleaving keeps one fact: the functions entered so far, followed by the ones
still pending, are the calls `0, 1, …, next-1` in the order they took `_lock` (`Inv.order`).
A function is pending while it waits in `_funcs` past `dispatch_cb`'s iterator, or while
the acquire branch has released `_lock` and not yet called it.

The rest of `Inv` is what keeps `order` true from step to step: the iterator stays inside
`_funcs`, `dispatch_cb` only runs on a non-empty list, there is one idle source exactly
when functions wait and `dispatch_cb` is not running, and a `dispatch_cb` call can only be
the innermost function of the main thread (inside one `_funcs` is never empty, so a nested
call queues and never runs at once).

`Inv` holds initially and each transition keeps it (one lemma per transition); `step_inv`
assembles them and `reachable_inv` runs the induction.
-/

namespace IndicatorNetwork

namespace GMainLoopDispatch

/-- Whether a frame is a `func()` of the acquire branch. -/
def Frame.isCallNow : Frame → Bool
  | .callNow _ => true
  | .dispatch _ => false

namespace MainThread

/-- The iterator of a running `dispatch_cb`: the number of queued functions it entered. -/
def cursor (m : MainThread) : Option Nat :=
  match m.pc, m.stack with
  | .dispatchHead k, _ => some k
  | .dispatchCall k, _ => some k
  | .running, .dispatch k :: _ => some (k + 1)
  | _, _ => none

/-- The function the acquire branch released `_lock` for and has not called yet. -/
def callingNow (m : MainThread) : List Nat :=
  match m.pc with
  | .callNow t => [t]
  | _ => []

/-- The frames outside the one the main thread is running in. -/
def outerFrames (m : MainThread) : List Frame :=
  match m.pc with
  | .running => m.stack.drop 1
  | _ => m.stack

/-- Outside `dispatch_cb` and with only acquire-branch frames, there is no iterator. -/
theorem cursor_running {stack : List Frame} (h : ∀ f ∈ stack, f.isCallNow) :
    cursor ⟨.running, stack⟩ = none := by
  match stack, h with
  | [], _ => rfl
  | .callNow _ :: _, _ => rfl
  | .dispatch k :: _, h => simp [Frame.isCallNow] at h

end MainThread

namespace State

/-- The functions whose calls took `_lock` and that are not entered yet, in the order the
    main thread enters them. -/
def pending (s : State) : List Nat := s.main.callingNow ++ s.funcs.drop (s.main.cursor.getD 0)

/-- The invariant of every interleaving. -/
structure Inv (s : State) : Prop where
  order : s.invoked ++ s.pending = List.range s.next
  entered : ∀ t ∈ s.funcs.take (s.main.cursor.getD 0), t ∈ s.invoked
  cursor_le : ∀ k, s.main.cursor = some k → k ≤ s.funcs.length ∧ s.funcs ≠ []
  call_lt : ∀ k, s.main.pc = .dispatchCall k → k < s.funcs.length
  idles_eq : s.idles = if s.funcs ≠ [] ∧ s.main.cursor = none then 1 else 0
  outer : ∀ f ∈ s.main.outerFrames, f.isCallNow

theorem inv_init : Inv init :=
  ⟨rfl, by simp [init, MainThread.cursor], by simp [init, MainThread.cursor], by simp [init],
    rfl, by simp [init, MainThread.outerFrames]⟩

variable {s : State}

theorem Inv.cursor_getD_le (hi : Inv s) : s.main.cursor.getD 0 ≤ s.funcs.length := by
  cases h : s.main.cursor with
  | none => simp
  | some k => simpa using (hi.cursor_le k h).1

theorem Inv.cursor_none_of_nil (hi : Inv s) (h : s.funcs = []) : s.main.cursor = none := by
  cases hc : s.main.cursor with
  | none => rfl
  | some k => exact absurd h (hi.cursor_le k hc).2

/-- Outside `dispatch_cb`, every function the main thread is inside is an acquire-branch
    `func()`. -/
theorem Inv.stack_callNow (hi : Inv s) (hpc : s.main.pc = .running)
    (hc : s.main.cursor = none) : ∀ f ∈ s.main.stack, f.isCallNow := by
  have houter := hi.outer
  generalize s.main = m at hpc hc houter ⊢
  obtain ⟨pc, stack⟩ := m
  simp only at hpc
  subst hpc
  match stack, houter, hc with
  | [], _, _ => simp
  | .callNow _ :: rest, houter, _ => simpa [MainThread.outerFrames, Frame.isCallNow] using houter
  | .dispatch k :: rest, _, hc => simp [MainThread.cursor] at hc

-- ── One lemma per transition ──────────────────────────────────────────────────

/-- Queueing call `next` behind `_funcs`, leaving the main thread where it is, keeps every
    part of the invariant but the idle count. -/
theorem inv_push (hi : Inv s) {idles : Nat}
    (hidle : idles = if s.funcs ++ [s.next] ≠ [] ∧ s.main.cursor = none then 1 else 0) :
    Inv { s with funcs := s.funcs ++ [s.next], idles := idles, next := s.next + 1 } := by
  have hle := hi.cursor_getD_le
  refine ⟨?_, ?_, fun k hk => ?_, fun k hk => ?_, hidle, hi.outer⟩
  · rw [pending, List.drop_append_of_le_length hle, List.range_succ, ← hi.order, pending]
    simp
  · simpa [List.take_append_of_le_length hle] using hi.entered
  · have := (hi.cursor_le k hk).1
    simp only [List.length_append, List.length_singleton]
    exact ⟨by omega, by simp⟩
  · have := hi.call_lt k hk
    simp only [List.length_append, List.length_singleton]
    omega

theorem inv_queueFromOtherThread (hi : Inv s) : Inv s.queueFromOtherThread.takeTicket := by
  apply inv_push hi
  by_cases h : s.funcs = []
  · simp [queueFromOtherThread, h, hi.idles_eq, hi.cursor_none_of_nil h]
  · simp [queueFromOtherThread, h, hi.idles_eq]

theorem inv_callFromMainThread (hi : Inv s) (hpc : s.main.pc = .running) :
    Inv s.callFromMainThread.takeTicket := by
  by_cases h : s.funcs = []
  · have hc := hi.cursor_none_of_nil h
    have hst := hi.stack_callNow hpc hc
    have hord := hi.order
    simp only [pending, MainThread.callingNow, hpc, h, hc, List.drop_nil, List.append_nil] at hord
    have hid := hi.idles_eq
    simp only [h, ne_eq, not_true_eq_false, false_and, if_false] at hid
    simp only [callFromMainThread, takeTicket, h, List.isEmpty_nil, if_true]
    refine ⟨?_, ?_, ?_, ?_, ?_, ?_⟩ <;>
      simp [pending, MainThread.cursor, MainThread.callingNow, MainThread.outerFrames, hord,
        List.range_succ, hid]
    exact hst
  · simp only [callFromMainThread, List.isEmpty_iff, h, if_false]
    exact inv_push hi (by simpa [h] using hi.idles_eq)

theorem inv_enter_callNow (hi : Inv s) {t : Nat} (hpc : s.main.pc = .callNow t) :
    Inv (s.enter t (.callNow t)) := by
  have hc : s.main.cursor = none := by simp [MainThread.cursor, hpc]
  have hord := hi.order
  have hout := hi.outer
  simp only [pending, MainThread.callingNow, hpc, hc, Option.getD_none, List.drop_zero] at hord
  simp only [MainThread.outerFrames, hpc] at hout
  refine ⟨?_, ?_, ?_, ?_, ?_, ?_⟩ <;>
    simp only [enter, pending, MainThread.cursor, MainThread.callingNow, MainThread.outerFrames,
      Option.getD_none, List.drop_zero, List.take_zero, List.drop_succ_cons]
  · simpa using hord
  · simp
  · simp
  · simp
  · simpa [hc] using hi.idles_eq
  · exact hout

theorem inv_enter_dispatch (hi : Inv s) {k t : Nat} (hpc : s.main.pc = .dispatchCall k)
    (ht : s.funcs[k]? = some t) : Inv (s.enter t (.dispatch k)) := by
  have hc : s.main.cursor = some k := by simp [MainThread.cursor, hpc]
  have hk := hi.call_lt k hpc
  have htk : s.funcs[k] = t := (List.getElem?_eq_some_iff.mp ht).2
  have hord := hi.order
  have hent := hi.entered
  have hout := hi.outer
  simp only [pending, MainThread.callingNow, hpc, hc, Option.getD_some, List.nil_append,
    List.drop_eq_getElem_cons hk, htk] at hord
  simp only [hc, Option.getD_some] at hent
  simp only [MainThread.outerFrames, hpc] at hout
  refine ⟨?_, ?_, ?_, ?_, ?_, ?_⟩ <;>
    simp only [enter, pending, MainThread.cursor, MainThread.callingNow, MainThread.outerFrames,
      Option.getD_some, List.nil_append, List.drop_succ_cons, List.drop_zero]
  · simpa using hord
  · intro u hu
    rw [List.take_succ, ht] at hu
    rcases List.mem_append.mp hu with hu | hu
    · exact List.mem_append_left _ (hent u hu)
    · simp_all
  · rintro _ ⟨⟩
    exact ⟨hk, List.ne_nil_of_length_pos (by omega)⟩
  · simp
  · simpa [hc] using hi.idles_eq
  · exact hout

theorem inv_return_callNow (hi : Inv s) {t : Nat} {rest : List Frame}
    (hm : s.main = ⟨.running, .callNow t :: rest⟩) : Inv { s with main := ⟨.running, rest⟩ } := by
  have hout := hi.outer
  simp only [MainThread.outerFrames, hm, List.drop_succ_cons, List.drop_zero] at hout
  have hc : s.main.cursor = none := by simp [MainThread.cursor, hm]
  have hc' : MainThread.cursor ⟨.running, rest⟩ = none := MainThread.cursor_running hout
  refine ⟨?_, ?_, ?_, ?_, ?_, ?_⟩ <;>
    simp only [pending, hc', MainThread.callingNow, MainThread.outerFrames, Option.getD_none]
  · simpa [pending, MainThread.callingNow, hm, hc] using hi.order
  · simp
  · simp
  · simp
  · simpa [hc] using hi.idles_eq
  · exact fun f hf => hout f (List.mem_of_mem_drop hf)

theorem inv_return_dispatch (hi : Inv s) {k : Nat} {rest : List Frame}
    (hm : s.main = ⟨.running, .dispatch k :: rest⟩) :
    Inv { s with main := ⟨.dispatchHead (k + 1), rest⟩ } := by
  have hc : s.main.cursor = some (k + 1) := by simp [MainThread.cursor, hm]
  have hout := hi.outer
  simp only [MainThread.outerFrames, hm, List.drop_succ_cons, List.drop_zero] at hout
  refine ⟨?_, ?_, ?_, ?_, ?_, ?_⟩ <;>
    simp only [pending, MainThread.cursor, MainThread.callingNow, MainThread.outerFrames,
      Option.getD_some]
  · simpa [pending, MainThread.callingNow, hm, hc] using hi.order
  · simpa [hc] using hi.entered
  · simpa [hc] using hi.cursor_le
  · simp
  · simpa [hc] using hi.idles_eq
  · exact hout

theorem inv_idleDispatch (hi : Inv s) (hpc : s.main.pc = .running) (hidle : 0 < s.idles) :
    Inv { s with idles := s.idles - 1, main.pc := .dispatchHead 0 } := by
  have hid := hi.idles_eq
  split_ifs at hid with hcond
  · obtain ⟨hne, hc⟩ := hcond
    have hst := hi.stack_callNow hpc hc
    refine ⟨?_, ?_, ?_, ?_, ?_, ?_⟩ <;>
      simp only [pending, MainThread.cursor, MainThread.callingNow, MainThread.outerFrames,
        Option.getD_some]
    · simpa [pending, MainThread.callingNow, hpc, hc] using hi.order
    · simp
    · simpa using hne
    · simp
    · simp [hid]
    · exact hst
  · omega

theorem inv_dispatchNext (hi : Inv s) {k : Nat} (hpc : s.main.pc = .dispatchHead k) :
    Inv (s.dispatchNext k) := by
  have hc : s.main.cursor = some k := by simp [MainThread.cursor, hpc]
  have hout := hi.outer
  simp only [MainThread.outerFrames, hpc] at hout
  unfold dispatchNext
  split_ifs with hk
  · refine ⟨?_, ?_, ?_, ?_, ?_, ?_⟩ <;>
      simp only [pending, MainThread.cursor, MainThread.callingNow, MainThread.outerFrames,
        Option.getD_some]
    · simpa [pending, MainThread.callingNow, hpc, hc] using hi.order
    · simpa [hc] using hi.entered
    · simpa [hc] using hi.cursor_le
    · simpa using hk
    · simpa [hc] using hi.idles_eq
    · exact hout
  · have hc' : MainThread.cursor ⟨.running, s.main.stack⟩ = none :=
      MainThread.cursor_running hout
    have hid := hi.idles_eq
    simp only [hc, reduceCtorEq, and_false, if_false] at hid
    refine ⟨?_, ?_, ?_, ?_, ?_, ?_⟩ <;>
      simp only [pending, hc', MainThread.callingNow, MainThread.outerFrames, Option.getD_none]
    · simpa [pending, MainThread.callingNow, hpc, hc,
        List.drop_eq_nil_of_le (Nat.le_of_not_lt hk)] using hi.order
    · simp
    · simp
    · simp
    · simpa using hid
    · exact fun f hf => hout f (List.mem_of_mem_drop hf)

/-- **ONE STEP** of any interleaving keeps the invariant. -/
theorem step_inv (hi : Inv s) {a : Action} {s' : State} (h : s.step a = some s') : Inv s' := by
  rcases step_cases h with ⟨-, hl, rfl⟩ | ⟨-, hpc, rfl⟩ | ⟨t, -, hpc, rfl⟩ |
    ⟨k, t, -, hpc, ht, rfl⟩ | ⟨t, rest, -, hm, rfl⟩ | ⟨k, rest, -, hm, rfl⟩ |
    ⟨-, hpc, hidle, rfl⟩ | ⟨k, -, hpc, rfl⟩
  · exact inv_queueFromOtherThread hi
  · exact inv_callFromMainThread hi hpc
  · exact inv_enter_callNow hi hpc
  · exact inv_enter_dispatch hi hpc ht
  · exact inv_return_callNow hi hm
  · exact inv_return_dispatch hi hm
  · exact inv_idleDispatch hi hpc hidle
  · exact inv_dispatchNext hi hpc

theorem reachable_inv {s : State} (h : Reachable s) : Inv s := by
  induction h with
  | init => exact inv_init
  | step _ _ hs ih => exact step_inv ih hs

end State

end GMainLoopDispatch

end IndicatorNetwork
