import Mathlib.Data.List.Nodup

/-!
# `Factory` — one session bus, one network manager, one modem manager

`Factory` (`src/indicator/factory.cpp`) builds the indicator's components. The objects
they share are made lazily by `Factory::Private`: `singletonSessionBus`,
`singletonNmofono` and `singletonModemManager` each create their object with
`make_shared` the first time, and return the member they stored from then on. Each
`new*` method hands the singletons it asks for to the object it builds.

Objects are named by the address `make_shared` gives them; allocation takes the next
address. The addresses, the objects allocated and the singletons handed out are ghost
state (`Private.nextAddress`, `Private.allocated`, `World.given`).

Over every sequence of factory calls (`one_object_per_singleton`):

* every component given a singleton of one kind was given the same object;
* singletons of different kinds are different objects;
* each is made at most once, and only if some call asked for it.
-/

namespace IndicatorNetwork

namespace Factory

/-- The objects `Factory::Private` makes lazily. -/
inductive Shared
  /-- `SessionBus`. -/
  | sessionBus
  /-- `platform::nmofono::Manager`, on the system bus. -/
  | nmofono
  /-- `ModemManager`. -/
  | modemManager
  deriving DecidableEq, Repr

/-- `Factory::Private`: each member null or the address of its object, and the ghost state
    of `make_shared`. -/
structure Private where
  mModemManager : Option Nat
  mNmofono : Option Nat
  mSessionBus : Option Nat
  /-- The address the next `make_shared` returns. -/
  nextAddress : Nat
  /-- What was allocated, by address. -/
  allocated : List Shared

namespace Private

/-- `Factory::Private()`: every member null. -/
def init : Private := ⟨none, none, none, 0, []⟩

/-- The member that holds a singleton. -/
def member (d : Private) : Shared → Option Nat
  | .sessionBus => d.mSessionBus
  | .nmofono => d.mNmofono
  | .modemManager => d.mModemManager

/-- Store an object in the member of a singleton. -/
def setMember (d : Private) : Shared → Nat → Private
  | .sessionBus, p => { d with mSessionBus := some p }
  | .nmofono, p => { d with mNmofono := some p }
  | .modemManager, p => { d with mModemManager := some p }

@[simp] theorem member_setMember (d : Private) (s t : Shared) (p : Nat) :
    (d.setMember s p).member t = if s = t then some p else d.member t := by
  cases s <;> cases t <;> rfl

@[simp] theorem setMember_nextAddress (d : Private) (s : Shared) (p : Nat) :
    (d.setMember s p).nextAddress = d.nextAddress := by
  cases s <;> rfl

@[simp] theorem setMember_allocated (d : Private) (s : Shared) (p : Nat) :
    (d.setMember s p).allocated = d.allocated := by
  cases s <;> rfl

/-- `make_shared`: the next address, now allocated to an object of kind `s`. -/
def makeShared (d : Private) (s : Shared) : Private :=
  { d with nextAddress := d.nextAddress + 1, allocated := d.allocated ++ [s] }

@[simp] theorem member_makeShared (d : Private) (s t : Shared) :
    (d.makeShared s).member t = d.member t := by
  cases t <;> rfl

@[simp] theorem makeShared_nextAddress (d : Private) (s : Shared) :
    (d.makeShared s).nextAddress = d.nextAddress + 1 := rfl

@[simp] theorem makeShared_allocated (d : Private) (s : Shared) :
    (d.makeShared s).allocated = d.allocated ++ [s] := rfl

/-- The shape of the three `singleton*` methods: when the member is null, `make_shared` an
    object into it; return the member. -/
def singleton (s : Shared) (d : Private) : Nat × Private :=
  match d.member s with
  | some p => (p, d)
  | none => (d.nextAddress, (d.makeShared s).setMember s d.nextAddress)

/-- `singletonSessionBus()`. -/
def singletonSessionBus : Private → Nat × Private := singleton .sessionBus

/-- `singletonNmofono()`. -/
def singletonNmofono : Private → Nat × Private := singleton .nmofono

/-- `singletonModemManager()`. -/
def singletonModemManager : Private → Nat × Private := singleton .modemManager

/-- The members agree with the allocations: a member holds the address of an object of
    its kind, and every object allocated is held by its member. -/
structure Inv (d : Private) : Prop where
  next_eq : d.nextAddress = d.allocated.length
  nodup : d.allocated.Nodup
  member_iff : ∀ s p, d.member s = some p ↔ d.allocated[p]? = some s

theorem inv_init : init.Inv := ⟨rfl, List.nodup_nil, fun s p => by cases s <;> simp [init, member]⟩

theorem getElem?_concat_eq_some {l : List Shared} {a b : Shared} {q : Nat} :
    (l ++ [a])[q]? = some b ↔ l[q]? = some b ∨ (q = l.length ∧ a = b) := by
  rcases Nat.lt_trichotomy q l.length with h | rfl | h
  · simp [List.getElem?_append_left h, h.ne]
  · simp
  · rw [List.getElem?_eq_none (by simpa using h : (l ++ [a]).length ≤ q),
      List.getElem?_eq_none (Nat.le_of_lt h)]
    simp [h.ne']

theorem Inv.mem_allocated_iff {d : Private} (hd : d.Inv) (s : Shared) :
    s ∈ d.allocated ↔ d.member s ≠ none := by
  rw [List.mem_iff_getElem?, Option.ne_none_iff_exists']
  exact exists_congr fun p => (hd.member_iff s p).symm

variable {d : Private} {s : Shared}

/-- The object `singleton` returns is the one its member then holds. -/
theorem member_singleton : (singleton s d).2.member s = some (singleton s d).1 := by
  unfold singleton
  split <;> simp [*]

/-- A member once set keeps its object. -/
theorem member_singleton_of_eq_some {t : Shared} {q : Nat} (h : d.member t = some q) :
    (singleton s d).2.member t = some q := by
  unfold singleton
  split
  · exact h
  · by_cases hst : s = t
    · subst hst; simp_all
    · simp [hst, h]

theorem inv_singleton (hd : d.Inv) : (singleton s d).2.Inv := by
  unfold singleton
  split
  · exact hd
  · rename_i hnone
    show ((d.makeShared s).setMember s d.nextAddress).Inv
    have hs : s ∉ d.allocated := by simpa [hd.mem_allocated_iff] using hnone
    refine ⟨by simp [hd.next_eq],
      by simpa using hd.nodup.append (List.nodup_singleton s) (by simpa using hs), fun t q => ?_⟩
    simp only [member_setMember, member_makeShared, setMember_allocated, makeShared_allocated,
      getElem?_concat_eq_some, hd.next_eq]
    by_cases hst : s = t
    · subst hst
      have : d.allocated[q]? ≠ some s := fun h => by simp [(hd.member_iff s q).2 h] at hnone
      simp only [if_true, Option.some.injEq, this, false_or, and_true]
      exact eq_comm
    · simp [hst, hd.member_iff]

theorem mem_allocated_singleton (hd : d.Inv) (t : Shared) :
    t ∈ (singleton s d).2.allocated ↔ t ∈ d.allocated ∨ t = s := by
  unfold singleton
  split
  · rename_i p hp
    refine ⟨.inl, fun h => h.elim id fun h => ?_⟩
    subst h
    simp [hd.mem_allocated_iff, hp]
  · simp

end Private

-- ── The `new*` methods ────────────────────────────────────────────────────────

/-- The `Factory::new*` methods. -/
inductive Method
  | newMenuBuilder
  | newConnectivityService
  | newRootState
  | newIndicatorMenu
  | newMenuExporter
  | newQuickAccessSection
  | newWwanSection
  | newWiFiSection
  | newActionGroupMerger
  | newActionGroupExporter
  | newBusName
  deriving DecidableEq, Repr

/-- The singletons each method passes to the object it builds, in argument order. The model
    evaluates a call's arguments left to right; C++ leaves that order unspecified (GCC
    evaluates `newRootState`'s right to left), which decides only the address each new
    singleton gets. -/
def Method.singletons : Method → List Shared
  | .newMenuBuilder => []
  | .newConnectivityService => [.nmofono]
  | .newRootState => [.nmofono, .modemManager]
  | .newIndicatorMenu => []
  | .newMenuExporter => [.sessionBus]
  | .newQuickAccessSection => [.nmofono]
  | .newWwanSection => [.modemManager]
  | .newWiFiSection => [.nmofono]
  | .newActionGroupMerger => []
  | .newActionGroupExporter => [.sessionBus]
  | .newBusName => [.sessionBus]

/-- Call the singletons in order; the objects they return, by kind. -/
def callSingletons : List Shared → Private → List (Shared × Nat) × Private
  | [], d => ([], d)
  | s :: rest, d =>
      let r := Private.singleton s d
      let rs := callSingletons rest r.2
      ((s, r.1) :: rs.1, rs.2)

/-- A factory, with the ghost record of the singletons handed out so far. -/
structure World where
  d : Private
  given : List (Shared × Nat)

/-- `Factory()`. -/
def World.init : World := ⟨Private.init, []⟩

/-- One call of a `new*` method. -/
def World.call (w : World) (m : Method) : World :=
  let r := callSingletons m.singletons w.d
  ⟨r.2, w.given ++ r.1⟩

/-- The factory after a sequence of calls. -/
def run (ms : List Method) : World := ms.foldl World.call World.init

section CallSingletons

variable {d : Private}

theorem callSingletons_inv (l : List Shared) (hd : d.Inv) : (callSingletons l d).2.Inv := by
  induction l generalizing d with
  | nil => exact hd
  | cons s rest ih => exact ih (Private.inv_singleton hd)

theorem member_callSingletons_of_eq_some (l : List Shared) {t : Shared} {q : Nat}
    (h : d.member t = some q) : (callSingletons l d).2.member t = some q := by
  induction l generalizing d with
  | nil => exact h
  | cons s rest ih => exact ih (Private.member_singleton_of_eq_some h)

/-- Every object handed out is the one its member holds afterwards. -/
theorem member_of_mem_callSingletons (l : List Shared) {s : Shared} {p : Nat}
    (h : (s, p) ∈ (callSingletons l d).1) : (callSingletons l d).2.member s = some p := by
  induction l generalizing d with
  | nil => cases h
  | cons t rest ih =>
      simp only [callSingletons, List.mem_cons, Prod.mk.injEq] at h ⊢
      rcases h with ⟨rfl, rfl⟩ | h
      · exact member_callSingletons_of_eq_some rest Private.member_singleton
      · exact ih h

theorem callSingletons_fst (l : List Shared) : (callSingletons l d).1.map Prod.fst = l := by
  induction l generalizing d with
  | nil => rfl
  | cons s rest ih => simp [callSingletons, ih]

theorem mem_allocated_callSingletons (l : List Shared) (hd : d.Inv) (t : Shared) :
    t ∈ (callSingletons l d).2.allocated ↔ t ∈ d.allocated ∨ t ∈ l := by
  induction l generalizing d with
  | nil => simp [callSingletons]
  | cons s rest ih =>
      simp only [callSingletons, ih (Private.inv_singleton hd),
        Private.mem_allocated_singleton hd, List.mem_cons]
      tauto

end CallSingletons

-- ── Every sequence of calls ───────────────────────────────────────────────────

/-- The invariant of every run. -/
structure World.Inv (w : World) : Prop where
  private_inv : w.d.Inv
  given_member : ∀ s p, (s, p) ∈ w.given → w.d.member s = some p
  allocated_iff : ∀ s, s ∈ w.d.allocated ↔ s ∈ w.given.map Prod.fst

theorem World.inv_init : World.init.Inv :=
  ⟨Private.inv_init, nofun, fun s => by simp [World.init, Private.init]⟩

theorem World.inv_call {w : World} (hw : w.Inv) (m : Method) : (w.call m).Inv where
  private_inv := callSingletons_inv _ hw.private_inv
  given_member s p h := by
    simp only [World.call, List.mem_append] at h
    rcases h with h | h
    · exact member_callSingletons_of_eq_some _ (hw.given_member s p h)
    · exact member_of_mem_callSingletons _ h
  allocated_iff s := by
    simp only [World.call, List.map_append, List.mem_append, callSingletons_fst,
      mem_allocated_callSingletons _ hw.private_inv, hw.allocated_iff]

theorem foldl_call_inv (ms : List Method) {w : World} (hw : w.Inv) :
    (ms.foldl World.call w).Inv := by
  induction ms generalizing w with
  | nil => exact hw
  | cons m rest ih => exact ih (World.inv_call hw m)

theorem foldl_call_given (ms : List Method) (w : World) :
    (ms.foldl World.call w).given.map Prod.fst =
      w.given.map Prod.fst ++ ms.flatMap Method.singletons := by
  induction ms generalizing w with
  | nil => simp
  | cons m rest ih => simp [ih, World.call, callSingletons_fst]

/-- **ONE OBJECT PER SINGLETON** — over every sequence of `Factory` calls: every component
    given a singleton of one kind got the same object; singletons of different kinds are
    different objects; and each is made at most once, exactly when some call asked for
    it. -/
theorem one_object_per_singleton (ms : List Method) :
    (∀ s p q, (s, p) ∈ (run ms).given → (s, q) ∈ (run ms).given → p = q) ∧
    (∀ s t p, (s, p) ∈ (run ms).given → (t, p) ∈ (run ms).given → s = t) ∧
    (run ms).d.allocated.Nodup ∧
    (∀ s, s ∈ (run ms).d.allocated ↔ ∃ m ∈ ms, s ∈ m.singletons) := by
  unfold run
  have hw := foldl_call_inv ms World.inv_init
  have hmem := hw.private_inv.member_iff
  refine ⟨fun s p q hp hq => ?_, fun s t p hs ht => ?_, hw.private_inv.nodup, fun s => ?_⟩
  · simpa using (hw.given_member s p hp).symm.trans (hw.given_member s q hq)
  · simpa using ((hmem s p).1 (hw.given_member s p hs)).symm.trans
      ((hmem t p).1 (hw.given_member t p ht))
  · rw [hw.allocated_iff, foldl_call_given]
    simp [World.init]

end Factory

end IndicatorNetwork
