import Mathlib.Data.List.Basic
import Mathlib.Data.List.Pairwise

/-!
# `std::map` — entries in key order

A `std::map<K, V, Compare>` is modelled by its entries in ascending key order, each key
once; the order is the map's `Compare`, a strict total order on keys (`KeyOrder`). The
repository uses two, both lexicographic (`KeyOrder.ofLex`): `std::less<std::string>` in
`std::map<std::string, Variant>` and `compare_vector` in `MatchResult`'s
`std::map<vector<unsigned int>, vector<string>, compare_vector>`.

The operations used all place one entry in key order or edit one in place:

* `operator[](k) = v` overwrites the value of an entry with key `k` (`StdMap.assign`);
* `insert(make_pair(k, v))` leaves such an entry as it is (`StdMap.insert`);
* `find(k)->second` edited in place changes that value only (`StdMap.modify`).

Each keeps the key order. `find?` reads each back (`find?_assign`, `find?_insert`,
`find?_modify`), and assigning a map's own entries to an empty map rebuilds it
(`foldl_assign_self`).
-/

namespace IndicatorNetwork

/-- The `Compare` of a `std::map`: a strict total order on keys. -/
structure KeyOrder (K : Type) where
  lt : K → K → Bool
  irrefl : ∀ a, lt a a = false
  trans : ∀ {a b c}, lt a b = true → lt b c = true → lt a c = true
  total : ∀ {a b}, lt a b = false → a ≠ b → lt b a = true

section Lex

variable {α : Type} [LT α]

/-- One step of the lexicographic order over elements ordered strictly and totally: the
    heads decide, or they are equal and the tails decide. -/
theorem cons_lt_cons_iff (irrefl : ∀ x : α, ¬ x < x)
    (antisymm : ∀ {x y : α}, ¬ x < y → ¬ y < x → x = y) {a b : α} {as bs : List α} :
    List.lt (a :: as) (b :: bs) ↔ a < b ∨ a = b ∧ List.lt as bs :=
  ⟨fun | .head _ _ h => .inl h | .tail h₁ h₂ h => .inr ⟨antisymm h₁ h₂, h⟩,
    fun | .inl h => .head _ _ h | .inr ⟨rfl, h⟩ => .tail (irrefl a) (irrefl a) h⟩

/-- The key order of a comparison that computes the lexicographic order `List.lt`, over
    elements ordered strictly and totally. -/
def KeyOrder.ofLex [DecidableRel (α := α) (· < ·)] (lt : List α → List α → Bool)
    (lt_iff : ∀ a b, lt a b = true ↔ List.lt a b)
    (irrefl : ∀ x : α, ¬ x < x) (trans : ∀ {x y z : α}, x < y → y < z → x < z)
    (antisymm : ∀ {x y : α}, ¬ x < y → ¬ y < x → x = y) : KeyOrder (List α) where
  lt := lt
  irrefl a := Bool.eq_false_iff.2 fun h => List.lt_irrefl irrefl a ((lt_iff a a).1 h)
  trans h₁ h₂ := by
    have le_trans : ∀ {x y z : α}, ¬ x < y → ¬ y < z → ¬ x < z := fun {_ y z} hxy hyz hxz => by
      by_cases hzy : z < y
      · exact hxy (trans hxz hzy)
      · exact hxy (by rwa [antisymm hyz hzy])
    rw [lt_iff] at *
    exact List.lt_trans trans le_trans h₁ h₂
  total {a b} h₁ h₂ := (lt_iff b a).2 <| Classical.byContradiction fun h₃ =>
    h₂ (List.lt_antisymm antisymm (fun h => by simp [(lt_iff a b).2 h] at h₁) h₃)

end Lex

variable {K V : Type}

/-- The keys of an association list ascend strictly in `ord`. -/
def KeysAscend (ord : KeyOrder K) (entries : List (K × V)) : Prop :=
  (entries.map Prod.fst).Pairwise fun a b => ord.lt a b

instance (ord : KeyOrder K) (entries : List (K × V)) : Decidable (KeysAscend ord entries) :=
  inferInstanceAs (Decidable ((entries.map Prod.fst).Pairwise fun a b => ord.lt a b))

/-- A `std::map<K, V, Compare>`: its entries in key order, each key once. -/
@[ext]
structure StdMap (K V : Type) (ord : KeyOrder K) where
  entries : List (K × V)
  sorted : KeysAscend ord entries

variable {ord : KeyOrder K} [DecidableEq K]

/-- Place `(k, v)` in key order; the value of an entry with key `k` is replaced when
    `overwrite`, and kept otherwise. -/
def placeEntry (ord : KeyOrder K) (overwrite : Bool) (k : K) (v : V) :
    List (K × V) → List (K × V)
  | [] => [(k, v)]
  | (k', v') :: rest =>
      if ord.lt k' k then (k', v') :: placeEntry ord overwrite k v rest
      else if k' = k then (k', if overwrite then v else v') :: rest
      else (k, v) :: (k', v') :: rest

theorem mem_keys_placeEntry {overwrite : Bool} {k x : K} {v : V} {l : List (K × V)}
    (h : x ∈ (placeEntry ord overwrite k v l).map Prod.fst) : x = k ∨ x ∈ l.map Prod.fst := by
  induction l with
  | nil => simpa [placeEntry] using h
  | cons p rest ih =>
      obtain ⟨k', v'⟩ := p
      simp only [placeEntry] at h
      split_ifs at h with h₁ h₂ h₃ <;> simp only [List.map_cons, List.mem_cons] at h ⊢
      · exact h.elim (.inr ∘ .inl) fun h => (ih h).imp id .inr
      · exact .inr h
      · exact .inr h
      · exact h

theorem placeEntry_sorted (overwrite : Bool) (k : K) (v : V) {l : List (K × V)}
    (h : KeysAscend ord l) : KeysAscend ord (placeEntry ord overwrite k v l) := by
  induction l with
  | nil => simp [KeysAscend, placeEntry]
  | cons p rest ih =>
      obtain ⟨k', v'⟩ := p
      simp only [KeysAscend, List.map_cons, List.pairwise_cons] at h
      simp only [placeEntry]
      split_ifs with h₁ h₂ h₃
      · simp only [KeysAscend, List.map_cons, List.pairwise_cons]
        refine ⟨fun x hx => ?_, ih h.2⟩
        rcases mem_keys_placeEntry hx with rfl | hx
        · exact h₁
        · exact h.1 x hx
      · simpa [KeysAscend] using h
      · simpa [KeysAscend] using h
      · have hk : ord.lt k k' := ord.total (by simpa using h₁) h₂
        simp only [KeysAscend, List.map_cons, List.pairwise_cons, List.mem_cons]
        refine ⟨?_, h⟩
        rintro x (rfl | hx)
        · exact hk
        · exact ord.trans hk (h.1 x hx)

/-- The value of the first entry with key `k`. -/
def lookupEntry (k : K) : List (K × V) → Option V
  | [] => none
  | (k', v') :: rest => if k' = k then some v' else lookupEntry k rest

-- ── Reading back ──────────────────────────────────────────────────────────────

/-- A key below every key of the entries is not among them. -/
theorem lookupEntry_eq_none_of_lt {k : K} {l : List (K × V)} (h : ∀ p ∈ l, ord.lt k p.1) :
    lookupEntry k l = none := by
  induction l with
  | nil => rfl
  | cons p rest ih =>
      simp only [List.mem_cons, forall_eq_or_imp] at h
      have hne : p.1 ≠ k := fun e => by simp [e, ord.irrefl] at h
      simp [lookupEntry, hne, ih h.2]

/-- A key found among the entries is one of their keys. -/
theorem mem_keys_of_lookupEntry {x : K} {v : V} {l : List (K × V)}
    (h : lookupEntry x l = some v) : x ∈ l.map Prod.fst := by
  induction l with
  | nil => cases h
  | cons p rest ih =>
      simp only [lookupEntry] at h
      split_ifs at h with hp
      · exact List.mem_cons.2 (.inl hp.symm)
      · exact List.mem_cons_of_mem _ (ih h)

theorem lookupEntry_append (x : K) (l₁ l₂ : List (K × V)) :
    lookupEntry x (l₁ ++ l₂) = (lookupEntry x l₁).or (lookupEntry x l₂) := by
  induction l₁ with
  | nil => simp [lookupEntry]
  | cons p rest ih => by_cases hx : p.1 = x <;> simp [lookupEntry, hx, ih]

/-- **PLACE, READ BACK**: placing `(k, v)` changes what is found at `k` only; there it
    finds `v`, or with `overwrite` off the value already present. -/
theorem lookupEntry_placeEntry {overwrite : Bool} {k x : K} {v : V} {l : List (K × V)}
    (h : KeysAscend ord l) :
    lookupEntry x (placeEntry ord overwrite k v l) =
      if k = x then some (if overwrite then v else (lookupEntry k l).getD v)
      else lookupEntry x l := by
  induction l with
  | nil => by_cases hx : k = x <;> simp [placeEntry, lookupEntry, hx]
  | cons p rest ih =>
      obtain ⟨k', v'⟩ := p
      simp only [KeysAscend, List.map_cons, List.pairwise_cons, List.mem_map] at h
      by_cases h₁ : ord.lt k' k
      · have hk' : k' ≠ k := fun e => by simp [e, ord.irrefl] at h₁
        by_cases hx : k' = x
        · subst hx; simp [placeEntry, lookupEntry, h₁, Ne.symm hk']
        · simp [placeEntry, lookupEntry, h₁, hk', hx, ih h.2]
      · by_cases h₂ : k' = k
        · subst h₂; by_cases hx : k' = x <;> simp [placeEntry, lookupEntry, ord.irrefl, hx]
        · have hk : ord.lt k k' := ord.total (by simpa using h₁) h₂
          have hnone : lookupEntry k rest = none := lookupEntry_eq_none_of_lt fun p hp =>
            ord.trans hk (h.1 p.1 ⟨p, hp, rfl⟩)
          by_cases hx : k = x
          · subst hx; simp [placeEntry, lookupEntry, h₁, h₂, hnone]
          · simp [placeEntry, lookupEntry, h₁, h₂, hx]

/-- Editing the value at `k` in place changes what is found at `k` only. -/
theorem lookupEntry_map_modify {k x : K} {f : V → V} (l : List (K × V)) :
    lookupEntry x (l.map fun p => (p.1, if p.1 = k then f p.2 else p.2)) =
      if k = x then (lookupEntry k l).map f else lookupEntry x l := by
  induction l with
  | nil => simp [lookupEntry]
  | cons p rest ih =>
      by_cases hx : p.1 = x
      · subst hx
        by_cases hk : p.1 = k
        · subst hk; simp [lookupEntry]
        · simp [lookupEntry, hk, Ne.symm hk]
      · by_cases hk : p.1 = k
        · subst hk; simp [lookupEntry, hx, ih]
        · simp [lookupEntry, hk, hx, ih]

namespace StdMap

/-- An empty map. -/
def empty : StdMap K V ord := ⟨[], List.Pairwise.nil⟩

/-- `map[k] = v`. -/
def assign (m : StdMap K V ord) (k : K) (v : V) : StdMap K V ord :=
  ⟨placeEntry ord true k v m.entries, placeEntry_sorted true k v m.sorted⟩

/-- `map.insert(make_pair(k, v))`: no effect when `k` is present. -/
def insert (m : StdMap K V ord) (k : K) (v : V) : StdMap K V ord :=
  ⟨placeEntry ord false k v m.entries, placeEntry_sorted false k v m.sorted⟩

/-- `map.find(k)`: the value at `k`, or `none` for `map.end()`. -/
def find? (m : StdMap K V ord) (k : K) : Option V := lookupEntry k m.entries

/-- `map.find(k)->second` edited in place by `f`. -/
def modify (m : StdMap K V ord) (k : K) (f : V → V) : StdMap K V ord :=
  ⟨m.entries.map (fun p => (p.1, if p.1 = k then f p.2 else p.2)), by
    simpa [KeysAscend, List.map_map, Function.comp_def] using m.sorted⟩

@[simp] theorem find?_empty (k : K) : (empty : StdMap K V ord).find? k = none := rfl

@[simp] theorem find?_assign (m : StdMap K V ord) (k x : K) (v : V) :
    (m.assign k v).find? x = if k = x then some v else m.find? x := by
  simp [find?, assign, lookupEntry_placeEntry m.sorted]

@[simp] theorem find?_insert (m : StdMap K V ord) (k x : K) (v : V) :
    (m.insert k v).find? x = if k = x then some ((m.find? k).getD v) else m.find? x := by
  simp [find?, insert, lookupEntry_placeEntry m.sorted]

@[simp] theorem find?_modify (m : StdMap K V ord) (k x : K) (f : V → V) :
    (m.modify k f).find? x = if k = x then (m.find? k).map f else m.find? x :=
  lookupEntry_map_modify m.entries

/-- **EXTENSIONALITY**: a map is determined by what `find` gives at each key. -/
theorem ext_find? {m₁ m₂ : StdMap K V ord} (h : ∀ k, m₁.find? k = m₂.find? k) : m₁ = m₂ := by
  obtain ⟨l₁, s₁⟩ := m₁
  obtain ⟨l₂, s₂⟩ := m₂
  suffices l₁ = l₂ by subst this; rfl
  simp only [find?] at h
  induction l₁ generalizing l₂ with
  | nil =>
      cases l₂ with
      | nil => rfl
      | cons q _ => simpa [lookupEntry] using h q.1
  | cons p r₁ ih =>
      cases l₂ with
      | nil => simpa [lookupEntry] using h p.1
      | cons q r₂ =>
          simp only [KeysAscend, List.map_cons, List.pairwise_cons] at s₁ s₂
          have hkey : p.1 = q.1 := by
            by_contra hne
            have h₁ := mem_keys_of_lookupEntry (v := q.2) ((h q.1).trans (by simp [lookupEntry]))
            have h₂ :=
              mem_keys_of_lookupEntry (v := p.2) ((h p.1).symm.trans (by simp [lookupEntry]))
            simp only [List.map_cons, List.mem_cons] at h₁ h₂
            have := ord.trans (s₁.1 _ (h₁.resolve_left (Ne.symm hne)))
              (s₂.1 _ (h₂.resolve_left hne))
            simp [ord.irrefl] at this
          have hval : p.2 = q.2 := by simpa [lookupEntry, hkey] using h q.1
          have hrest : ∀ x, lookupEntry x r₁ = lookupEntry x r₂ := fun x => by
            by_cases hx : p.1 = x
            · subst hx
              rw [lookupEntry_eq_none_of_lt fun e he => s₁.1 _ (List.mem_map_of_mem _ he),
                lookupEntry_eq_none_of_lt fun e he => hkey ▸ s₂.1 _ (List.mem_map_of_mem _ he)]
            · simpa [lookupEntry, hx, ← hkey] using h x
          rw [ih s₁.2 r₂ s₂.2 hrest, Prod.ext hkey hval]

theorem entries_eq_nil_of_find? {m : StdMap K V ord} (h : ∀ k, m.find? k = none) :
    m.entries = [] := by
  cases hm : m.entries with
  | nil => rfl
  | cons p rest => simpa [find?, hm, lookupEntry] using h p.1

/-- Inserting a list of entries, in order, keeps what each key held, and gives a key that
    held nothing the first value the list has for it. -/
theorem find?_foldl_insert (m : StdMap K V ord) (l : List (K × V)) (x : K) :
    (l.foldl (fun acc e => acc.insert e.1 e.2) m).find? x = (m.find? x).or (lookupEntry x l) := by
  induction l generalizing m with
  | nil => simp [lookupEntry, Option.or_none]
  | cons p rest ih =>
      rw [List.foldl_cons, ih, find?_insert]
      by_cases hx : p.1 = x
      · subst hx; cases h : m.find? p.1 <;> simp [lookupEntry, h]
      · simp [lookupEntry, hx]

/-- Assigning a list of entries, in order, under keys `f k`: each key holds the value of
    the last entry it was assigned from, and keeps its value when there is none. -/
theorem find?_foldl_assign (m : StdMap K V ord) (l : List (K × V)) (f : K → K) (x : K) :
    (l.foldl (fun acc p => acc.assign (f p.1) p.2) m).find? x =
      (lookupEntry x (l.map fun p => (f p.1, p.2)).reverse).or (m.find? x) := by
  induction l generalizing m with
  | nil => simp [lookupEntry]
  | cons p rest ih =>
      rw [List.foldl_cons, ih, find?_assign, List.map_cons, List.reverse_cons, lookupEntry_append,
        Option.or_assoc]
      by_cases hx : f p.1 = x <;> simp [lookupEntry, hx]

end StdMap

-- ── Assigning ascending keys ──────────────────────────────────────────────────

/-- Placing a key above every key present appends it. -/
theorem placeEntry_of_lt {overwrite : Bool} {k : K} {v : V} {es : List (K × V)}
    (h : ∀ p ∈ es, ord.lt p.1 k) : placeEntry ord overwrite k v es = es ++ [(k, v)] := by
  induction es with
  | nil => rfl
  | cons p rest ih =>
      simp only [List.mem_cons, forall_eq_or_imp] at h
      simp [placeEntry, h.1, ih h.2]

/-- Assigning, in order, entries whose keys ascend after every key present appends them. -/
theorem foldl_placeEntry_ascending (es l : List (K × V)) (h : KeysAscend ord (es ++ l)) :
    l.foldl (fun acc p => placeEntry ord true p.1 p.2 acc) es = es ++ l := by
  induction l generalizing es with
  | nil => simp
  | cons p rest ih =>
      have hlt : ∀ q ∈ es, ord.lt q.1 p.1 := by
        simp only [KeysAscend, List.map_append, List.pairwise_append, List.map_cons,
          List.mem_map, List.mem_cons] at h
        exact fun q hq => h.2.2 q.1 ⟨q, hq, rfl⟩ p.1 (.inl rfl)
      rw [List.foldl_cons, placeEntry_of_lt hlt, ih _ (by simpa using h)]
      simp

theorem foldl_assign_entries (m : StdMap K V ord) (l : List (K × V)) (f : K → K) :
    (l.foldl (fun acc p => acc.assign (f p.1) p.2) m).entries =
      l.foldl (fun acc p => placeEntry ord true (f p.1) p.2 acc) m.entries := by
  induction l generalizing m with
  | nil => rfl
  | cons p rest ih => exact ih _

/-- Assigning entries adds only their keys. -/
theorem mem_keys_foldl_assign {m : StdMap K V ord} {l : List (K × V)} {x : K}
    (h : x ∈ (l.foldl (fun acc p => acc.assign p.1 p.2) m).entries.map Prod.fst) :
    x ∈ m.entries.map Prod.fst ∨ x ∈ l.map Prod.fst := by
  induction l generalizing m with
  | nil => exact .inl h
  | cons p rest ih =>
      rcases ih h with h | h
      · rcases mem_keys_placeEntry h with rfl | h
        · exact .inr (List.mem_cons_self _ _)
        · exact .inl h
      · exact .inr (List.mem_cons_of_mem _ h)

/-- Assigning a map's entries, in order, to an empty map gives it back. -/
theorem foldl_assign_self (m : StdMap K V ord) :
    m.entries.foldl (fun acc p => acc.assign p.1 p.2) StdMap.empty = m := by
  ext1
  calc _ = m.entries.foldl (fun acc p => placeEntry ord true p.1 p.2 acc) [] :=
        foldl_assign_entries StdMap.empty m.entries id
    _ = m.entries := by
        simpa using foldl_placeEntry_ascending [] m.entries (by simpa using m.sorted)

end IndicatorNetwork
