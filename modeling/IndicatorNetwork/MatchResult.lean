import IndicatorNetwork.StdMap

/-!
# `MatchResult` — the failure record of the menu test harness

`menuharness::MatchResult` (`tests/integration/indicator/menuharness/MatchResult.cpp`)
collects what a menu matcher found wrong: a hard-failure flag, a success flag, and the
messages of each failed location, a location being the path of item indices to a place
in a menu. Its map is ordered by `compare_vector`, which is the lexicographic order on
paths (`compareVector_iff_lt`).

* `failure(location, message)` appends `message` to the location's messages, creating
  the entry first (`find?_failure`), so a run of failures keeps every message, in order
  (`failure_log_keeps_every_message`);
* `hardFailure()` marks a failure that stops matching;
* `merge(other)` ORs the hard flags, ANDs the success flags, and inserts `other`'s
  entries with `std::map::insert`, which keeps this result's messages wherever both have
  some (`find?_merge`).

Over every result a matcher can build (`Reachable`), `success()` is false exactly when a
hard failure or some failure was recorded, and every recorded location holds a message
(`success_iff_nothing_failed`), and a result that succeeded reports nothing
(`concatFailures_of_success`). `merge` is associative with `MatchResult()` as unit on both
sides, and not commutative (`merge_monoid_not_comm`); merging a part in again changes
nothing (`merge_idempotent`).
-/

namespace IndicatorNetwork

/-- `vector<unsigned int>`: the path of item indices to a place in a menu. -/
abbrev Location := List UInt32

/-- `compare_vector`: walk both vectors while the first has elements; the first index
    that differs decides, and otherwise the shorter vector is less. -/
def compareVector : Location → Location → Bool
  | [], b => !b.isEmpty
  | _ :: _, [] => false
  | x :: xs, y :: ys => if y > x then true else if x > y then false else compareVector xs ys

theorem index_eq_of_not_lt {x y : UInt32} (h₁ : ¬ x < y) (h₂ : ¬ y < x) : x = y :=
  UInt32.eq_of_toBitVec_eq (BitVec.le_antisymm (UInt32.not_lt.1 h₂) (UInt32.not_lt.1 h₁))

/-- **LEXICOGRAPHIC**: `compare_vector` is the lexicographic order on index paths. -/
theorem compareVector_iff_lt (a b : Location) : compareVector a b = true ↔ List.lt a b := by
  induction a generalizing b with
  | nil =>
      cases b with
      | nil => exact ⟨nofun, nofun⟩
      | cons y ys => exact ⟨fun _ => .nil _ _, fun _ => rfl⟩
  | cons x xs ih =>
      cases b with
      | nil => exact ⟨nofun, nofun⟩
      | cons y ys =>
          rw [cons_lt_cons_iff UInt32.lt_irrefl index_eq_of_not_lt, ← ih]
          simp only [compareVector, gt_iff_lt]
          by_cases h₁ : x < y
          · simp [h₁]
          · by_cases h₂ : y < x
            · simp [h₁, h₂, (UInt32.ne_of_lt h₂).symm]
            · obtain rfl := index_eq_of_not_lt h₁ h₂
              simp

/-- The key order of `MatchResult`'s map. -/
def locationOrder : KeyOrder Location :=
  .ofLex compareVector compareVector_iff_lt UInt32.lt_irrefl UInt32.lt_trans index_eq_of_not_lt

/-- `MatchResult::Priv`, with its member initialisers. -/
@[ext]
structure MatchResult where
  mHardFailure : Bool := false
  mSuccess : Bool := true
  mFailures : StdMap Location (List String) locationOrder := .empty

namespace MatchResult

/-- `MatchResult()`. -/
def new : MatchResult := {}

/-- `hardFailure()`. -/
def hardFailure (r : MatchResult) : MatchResult :=
  { r with mHardFailure := true, mSuccess := false }

/-- `failure(location, message)`: find the location's messages, inserting an empty vector
    if it has none, and `emplace_back` the message. -/
def failure (r : MatchResult) (location : Location) (message : String) : MatchResult :=
  let failures := match r.mFailures.find? location with
    | some _ => r.mFailures
    | none => r.mFailures.insert location []
  { r with mSuccess := false, mFailures := failures.modify location (· ++ [message]) }

/-- `merge(other)`. -/
def merge (r other : MatchResult) : MatchResult where
  mHardFailure := r.mHardFailure || other.mHardFailure
  mSuccess := r.mSuccess && other.mSuccess
  mFailures := other.mFailures.entries.foldl (fun acc e => acc.insert e.1 e.2) r.mFailures

/-- `hardFailed()`. -/
def hardFailed (r : MatchResult) : Bool := r.mHardFailure

/-- `success()`. -/
def success (r : MatchResult) : Bool := r.mSuccess

/-- `printLocation`: on a location's first line each index, read as `int`, after a space;
    on the others two spaces per index; then a space. -/
def printLocation (location : Location) (first : Bool) : String :=
  String.join (location.map fun i => " " ++ if first then toString i.toBitVec.toInt else " ")
    ++ " "

/-- `concat_failures()`: one line per message, locations in key order. -/
def concatFailures (r : MatchResult) : String :=
  "Failed expectations:\n" ++ String.join (r.mFailures.entries.map fun e =>
    String.join (e.2.enum.map fun m => printLocation e.1 (m.1 == 0) ++ m.2 ++ "\n"))

@[simp] theorem success_new : new.success = true := rfl
@[simp] theorem hardFailed_new : new.hardFailed = false := rfl
@[simp] theorem success_hardFailure (r : MatchResult) : r.hardFailure.success = false := rfl
@[simp] theorem hardFailed_hardFailure (r : MatchResult) : r.hardFailure.hardFailed = true := rfl
@[simp] theorem success_failure (r : MatchResult) (location : Location) (message : String) :
    (r.failure location message).success = false := rfl
@[simp] theorem hardFailed_failure (r : MatchResult) (location : Location) (message : String) :
    (r.failure location message).hardFailed = r.hardFailed := rfl
@[simp] theorem success_merge (r other : MatchResult) :
    (r.merge other).success = (r.success && other.success) := rfl
@[simp] theorem hardFailed_merge (r other : MatchResult) :
    (r.merge other).hardFailed = (r.hardFailed || other.hardFailed) := rfl
@[simp] theorem hardFailure_mFailures (r : MatchResult) :
    r.hardFailure.mFailures = r.mFailures := rfl

/-- **REPORT ORDER**: the failed locations are kept, and reported by `concat_failures`, in
    the lexicographic order of their index paths: a location before the locations inside
    it, and siblings by index. -/
theorem failures_in_lexicographic_order (r : MatchResult) :
    (r.mFailures.entries.map Prod.fst).Pairwise List.lt :=
  List.Pairwise.imp (fun h => (compareVector_iff_lt _ _).1 h) r.mFailures.sorted

-- ── What each operation records ───────────────────────────────────────────────

/-- **FAILURE**: the message is appended to the location's messages, which start empty;
    no other location changes. -/
@[simp] theorem find?_failure (r : MatchResult) (location x : Location) (message : String) :
    (r.failure location message).mFailures.find? x =
      if location = x then some ((r.mFailures.find? location).getD [] ++ [message])
      else r.mFailures.find? x := by
  unfold failure
  by_cases hx : location = x
  · subst hx; cases h : r.mFailures.find? location <;> simp [h]
  · cases h : r.mFailures.find? location <;> simp [h, hx]

/-- **MERGE**: a location keeps this result's messages when it has some, and takes
    `other`'s only when it has none: `other`'s messages at a location both failed at are
    dropped. -/
@[simp] theorem find?_merge (r other : MatchResult) (x : Location) :
    (r.merge other).mFailures.find? x = (r.mFailures.find? x).or (other.mFailures.find? x) :=
  StdMap.find?_foldl_insert _ _ _

@[simp] theorem new_mFailures_find? (x : Location) : new.mFailures.find? x = none := rfl

/-- `failure` calls in order: a location given messages holds what it held followed by
    them, in call order; any other location is unchanged. -/
theorem find?_foldl_failure (calls : List (Location × String)) (r : MatchResult)
    (x : Location) :
    (calls.foldl (fun r c => r.failure c.1 c.2) r).mFailures.find? x =
      if (calls.filter (·.1 = x)).isEmpty then r.mFailures.find? x
      else some ((r.mFailures.find? x).getD [] ++ (calls.filter (·.1 = x)).map Prod.snd) := by
  induction calls generalizing r with
  | nil => simp
  | cons c rest ih =>
      rw [List.foldl_cons, ih]
      by_cases hc : c.1 = x
      · subst hc
        have hcons : (c :: rest).filter (·.1 = c.1) = c :: rest.filter (·.1 = c.1) := by
          simp [List.filter]
        rw [hcons]
        cases h : (rest.filter (·.1 = c.1)).isEmpty
        · simp [h]
        · simp [List.isEmpty_iff.1 h]
      · have hcons : (c :: rest).filter (·.1 = x) = rest.filter (·.1 = x) := by
          simp [List.filter, hc]
        rw [hcons, find?_failure, if_neg hc]

/-- **NO MESSAGE LOST WITHOUT MERGE**: after `failure` calls on a fresh result, each
    location holds exactly the messages given for it, in call order, and a location given
    none holds nothing. -/
theorem failure_log_keeps_every_message (calls : List (Location × String)) (x : Location) :
    (calls.foldl (fun r c => r.failure c.1 c.2) new).mFailures.find? x =
      if (calls.filter (·.1 = x)).isEmpty then none
      else some ((calls.filter (·.1 = x)).map Prod.snd) := by
  simp [find?_foldl_failure]

/-- `MatchResult()` is a unit of `merge` on the left. -/
theorem new_merge (r : MatchResult) : new.merge r = r :=
  MatchResult.ext (Bool.false_or _) (Bool.true_and _) (StdMap.ext_find? fun x => by simp)

/-- `MatchResult()` is a unit of `merge` on the right. -/
theorem merge_new (r : MatchResult) : r.merge new = r :=
  MatchResult.ext (Bool.or_false _) (Bool.and_true _)
    (StdMap.ext_find? fun x => by simp [Option.or_none])

/-- `merge` is associative. -/
theorem merge_assoc (r o p : MatchResult) : (r.merge o).merge p = r.merge (o.merge p) :=
  MatchResult.ext (Bool.or_assoc ..) (Bool.and_assoc ..)
    (StdMap.ext_find? fun x => by simp only [find?_merge, Option.or_assoc])

-- ── Every result a matcher builds ─────────────────────────────────────────────

/-- The results a matcher can build: from `MatchResult()`, by `hardFailure`, `failure`,
    and `merge` with another such result (a copy is the same value). -/
inductive Reachable : MatchResult → Prop
  | new : Reachable new
  | hardFailure {r : MatchResult} : Reachable r → Reachable r.hardFailure
  | failure {r : MatchResult} (location : Location) (message : String) :
      Reachable r → Reachable (r.failure location message)
  | merge {r other : MatchResult} : Reachable r → Reachable other → Reachable (r.merge other)

/-- The invariant of every result a matcher builds. -/
structure Inv (r : MatchResult) : Prop where
  /-- `success()` holds exactly when nothing failed, hard or at a location. -/
  success_iff : r.success = true ↔ r.hardFailed = false ∧ ∀ x, r.mFailures.find? x = none
  /-- Every location recorded holds a message. -/
  messages : ∀ x ms, r.mFailures.find? x = some ms → ms ≠ []

theorem inv_new : Inv new := ⟨by simp, by simp⟩

theorem inv_hardFailure {r : MatchResult} (hi : Inv r) : Inv r.hardFailure :=
  ⟨by simp, by simpa using hi.messages⟩

theorem inv_failure {r : MatchResult} (location : Location) (message : String) (hi : Inv r) :
    Inv (r.failure location message) where
  success_iff := iff_of_false (by simp) fun h => by simpa using h.2 location
  messages x ms h := by
    rw [find?_failure] at h
    split_ifs at h
    · cases h; simp
    · exact hi.messages x ms h

theorem inv_merge {r other : MatchResult} (hr : Inv r) (ho : Inv other) :
    Inv (r.merge other) where
  success_iff := by
    rw [success_merge, hardFailed_merge, Bool.and_eq_true, hr.success_iff, ho.success_iff,
      Bool.or_eq_false_iff]
    simp only [find?_merge, Option.or_eq_none]
    exact ⟨fun ⟨⟨a, b⟩, c, d⟩ => ⟨⟨a, c⟩, fun x => ⟨b x, d x⟩⟩,
      fun ⟨⟨a, c⟩, h⟩ => ⟨⟨a, fun x => (h x).1⟩, c, fun x => (h x).2⟩⟩
  messages x ms h := by
    rw [find?_merge, Option.or_eq_some] at h
    rcases h with h | ⟨-, h⟩
    · exact hr.messages x ms h
    · exact ho.messages x ms h

theorem reachable_inv {r : MatchResult} (h : Reachable r) : Inv r := by
  induction h with
  | new => exact inv_new
  | hardFailure _ ih => exact inv_hardFailure ih
  | failure location message _ ih => exact inv_failure location message ih
  | merge _ _ ihr iho => exact inv_merge ihr iho

/-- **NOTHING FAILED**: over every result a matcher builds, `success()` holds exactly when
    no hard failure and no failure at any location was recorded, and every location
    recorded holds a message. -/
theorem success_iff_nothing_failed {r : MatchResult} (h : Reachable r) :
    (r.success = true ↔ r.hardFailed = false ∧ ∀ x, r.mFailures.find? x = none) ∧
      ∀ x ms, r.mFailures.find? x = some ms → ms ≠ [] :=
  ⟨(reachable_inv h).success_iff, (reachable_inv h).messages⟩

/-- A failure merged into an empty result: it did not succeed. -/
theorem merged_failure_not_success :
    let r := (new.failure [2, 0] "missing").merge new
    r.Reachable ∧ ((r.success = true ↔ r.hardFailed = false ∧ ∀ x, r.mFailures.find? x = none) ∧
      ∀ x ms, r.mFailures.find? x = some ms → ms ≠ []) :=
  ⟨.merge (.failure _ _ .new) .new, success_iff_nothing_failed (.merge (.failure _ _ .new) .new)⟩

/-- **MERGE IS A MONOID, NOT COMMUTATIVE**: `merge` ORs the hard flags, ANDs the success
    flags and, at each location, keeps this result's messages when it has some and takes
    `other`'s otherwise. It is associative with `MatchResult()` as unit on both sides, and
    the order matters: merging a result that failed at a location into one that failed
    there too keeps only the messages of the latter. -/
theorem merge_monoid_not_comm :
    (∀ r o : MatchResult, (r.merge o).hardFailed = (r.hardFailed || o.hardFailed) ∧
      (r.merge o).success = (r.success && o.success) ∧
      ∀ x, (r.merge o).mFailures.find? x = (r.mFailures.find? x).or (o.mFailures.find? x)) ∧
    (∀ r : MatchResult, new.merge r = r) ∧ (∀ r : MatchResult, r.merge new = r) ∧
      (∀ r o p : MatchResult, (r.merge o).merge p = r.merge (o.merge p)) ∧
      ¬ ∀ r o : MatchResult, r.merge o = o.merge r := by
  refine ⟨fun r o => ⟨rfl, rfl, find?_merge r o⟩, new_merge, merge_new, merge_assoc, fun h => ?_⟩
  have := congrArg (fun r => r.mFailures.find? [0]) (h (new.failure [0] "a") (new.failure [0] "b"))
  simp at this

/-- **MERGING TWICE CHANGES NOTHING**: a result merged into itself is unchanged, and so is a
    merged result into which one of its parts is merged again: `std::map::insert` keeps the
    messages a location already has, so none is duplicated. -/
theorem merge_idempotent :
    (∀ r : MatchResult, r.merge r = r) ∧ ∀ r o : MatchResult, (r.merge o).merge r = r.merge o := by
  refine ⟨fun r => MatchResult.ext (Bool.or_self _) (Bool.and_self _)
    (StdMap.ext_find? fun x => by simp only [find?_merge, Option.or_self]), fun r o => ?_⟩
  obtain ⟨hard, success, failures⟩ := r
  refine MatchResult.ext ?_ ?_ (StdMap.ext_find? fun x => ?_)
  · cases hard <;> simp [merge]
  · cases success <;> simp [merge]
  · simp only [find?_merge]
    cases failures.find? x <;> simp

/-- A result that succeeded reports no failed expectation. -/
theorem concatFailures_of_success {r : MatchResult} (hr : Reachable r) (h : r.success = true) :
    r.concatFailures = "Failed expectations:\n" := by
  have hnil := StdMap.entries_eq_nil_of_find? ((reachable_inv hr).success_iff.1 h).2
  rw [concatFailures, hnil]
  rfl

/-- Two empty results merged: the report is the header alone. -/
theorem merged_empty_reports_nothing :
    let r := new.merge new
    r.Reachable ∧ r.success = true ∧ r.concatFailures = "Failed expectations:\n" :=
  ⟨.merge .new .new, rfl, concatFailures_of_success (.merge .new .new) rfl⟩

end MatchResult

end IndicatorNetwork
