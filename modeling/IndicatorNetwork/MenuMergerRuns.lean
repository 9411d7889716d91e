import IndicatorNetwork.MenuMerger

/-!
# `MenuMerger` over whole runs — the merged menu is the concatenation of its children

The merger never reads its children's items except when it is told they changed, so its
state is only right if every splice lands where the child's items are. This file runs the
merger together with its children:

* `MergerWorld` holds the children's current items, the merger, and the ghost list of the
  children `append` was called with, in order (`appended`);
* `MergerWorld.step` is one `append(menu)`, or one edit of a child followed by the
  `items-changed` it emits, which runs `itemsChanged` once per handler that `append`
  connected;
* `Consistent` is the invariant: `m_menus` is the list of the children appended, no child
  twice, the merged items are the children's items concatenated in append order, and each
  child starts at the item count of the children before it (`StartsFrom`).

**`merged_menu_is_concatenation`**: along every run of appends of distinct children and of
faithful `items-changed` notifications, in any order and on any child, the merged items are
the items of the children appended, concatenated in the order of the calls.
-/

namespace IndicatorNetwork

variable {κ α : Type}

/-- The merger with the child menus it copies from. -/
structure MergerWorld (κ α : Type) where
  /-- The current items of every child menu. -/
  children : κ → List α
  merger : MenuMerger κ α
  /-- Ghost: the children `append` was called with, in the order of the calls. -/
  appended : List κ

/-- What a run of the merger is made of. -/
inductive MergerEvent (κ α : Type)
  /-- `append(menu)`. -/
  | append (menu : κ)
  /-- The child `menu` replaces `removed` items at `position` by `added`, then emits
      `items-changed(position, removed, added.length)`. -/
  | edit (menu : κ) (position removed : Nat) (added : List α)

/-- A child's edit of its own items. -/
def editItems (items : List α) (position removed : Nat) (added : List α) : List α :=
  items.take position ++ added ++ items.drop (position + removed)

namespace MergerWorld

/-- Children `l`, laid out from position `n`, start where `sp` says. -/
def StartsFrom (children : κ → List α) (sp : κ → Int) : Int → List κ → Prop
  | _, [] => True
  | n, c :: rest => sp c = n ∧ StartsFrom children sp (n + (children c).length) rest

-- ── `StartsFrom` ──────────────────────────────────────────────────────────────

theorem startsFrom_append (ch : κ → List α) (sp : κ → Int) (n : Int) (l₁ l₂ : List κ) :
    StartsFrom ch sp n (l₁ ++ l₂) ↔
      StartsFrom ch sp n l₁ ∧ StartsFrom ch sp (n + ((l₁.map ch).flatten.length : Nat)) l₂ := by
  induction l₁ generalizing n with
  | nil => simp [StartsFrom]
  | cons c l ih => simp [StartsFrom, ih, and_assoc, Int.add_assoc]

/-- Moving every start and no length by `δ` moves the layout by `δ`. -/
theorem startsFrom_shift {ch ch' : κ → List α} {sp sp' : κ → Int} {n δ : Int} {l : List κ}
    (hsp : ∀ x ∈ l, sp' x = sp x + δ) (hch : ∀ x ∈ l, ch' x = ch x)
    (h : StartsFrom ch sp n l) : StartsFrom ch' sp' (n + δ) l := by
  induction l generalizing n with
  | nil => trivial
  | cons c l ih =>
      simp only [List.mem_cons, forall_eq_or_imp] at hsp hch
      refine ⟨by rw [hsp.1, h.1], ?_⟩
      rw [hch.1, Int.add_right_comm]
      exact ih hsp.2 hch.2 h.2

theorem startsFrom_congr {ch ch' : κ → List α} {sp sp' : κ → Int} {n : Int} {l : List κ}
    (hsp : ∀ x ∈ l, sp' x = sp x) (hch : ∀ x ∈ l, ch' x = ch x)
    (h : StartsFrom ch sp n l) : StartsFrom ch' sp' n l := by
  simpa using startsFrom_shift (δ := 0) (by simpa using hsp) hch h

/-- Where the last child ends: the start `append` gives a new child. -/
theorem startsFrom_appendStartPosition {ch : κ → List α} {m : MenuMerger κ α}
    (h : StartsFrom ch m.startPositions 0 m.menus) :
    m.appendStartPosition ch = (((m.menus.map ch).flatten.length : Nat) : Int) := by
  unfold MenuMerger.appendStartPosition
  rcases List.eq_nil_or_concat m.menus with hl | ⟨L, b, hl⟩ <;> rw [hl] at h ⊢
  · rfl
  · rw [List.concat_eq_append, startsFrom_append] at h
    simp [h.2.1]

/-- The index form of `StartsFrom`: child `i` starts after the items of children `0 .. i-1`. -/
theorem startsFrom_getElem {ch : κ → List α} {sp : κ → Int} {n : Int} {l : List κ}
    (h : StartsFrom ch sp n l) (i : Nat) (hi : i < l.length) :
    sp l[i] = n + (((l.take i).map ch).flatten.length : Nat) := by
  induction l generalizing n i with
  | nil => simp at hi
  | cons c l ih =>
      cases i with
      | zero => simpa using h.1
      | succ i =>
          rw [List.getElem_cons_succ, ih h.2 i (by simpa using hi)]
          simp [Int.add_assoc]

theorem nodup_split {L₁ L₂ : List κ} {c : κ} (h : (L₁ ++ c :: L₂).Nodup) :
    c ∉ L₁ ∧ c ∉ L₂ ∧ L₂.Nodup ∧ ∀ x ∈ L₁, x ∉ L₂ := by
  rw [List.nodup_middle, List.nodup_cons, List.nodup_append] at h
  simp only [List.mem_append, not_or] at h
  exact ⟨h.1.1, h.1.2, h.2.2.1, fun x hx => h.2.2.2 hx⟩

variable [DecidableEq κ]

/-- One event. Each call of `append` connects one `items-changed` handler and none is ever
    disconnected, so a child's notification runs `itemsChanged` once per call of `append`
    with it. -/
def step (w : MergerWorld κ α) : MergerEvent κ α → MergerWorld κ α
  | .append menu =>
      { w with merger := w.merger.append menu w.children, appended := w.appended ++ [menu] }
  | .edit menu position removed added =>
      let items := editItems (w.children menu) position removed added
      { w with
        children := Function.update w.children menu items
        merger := (fun m => m.itemsChanged menu items position removed added.length)^[
          w.appended.count menu] w.merger }

/-- The runs the merger is built for: each child appended once, and each notification
    describing an edit the child can make (the removed items exist). -/
def Admissible (w : MergerWorld κ α) : MergerEvent κ α → Prop
  | .append menu => menu ∉ w.appended
  | .edit menu position removed _ => position + removed ≤ (w.children menu).length

instance (w : MergerWorld κ α) : (e : MergerEvent κ α) → Decidable (w.Admissible e)
  | .append menu => inferInstanceAs (Decidable (menu ∉ w.appended))
  | .edit menu p r _ => inferInstanceAs (Decidable (p + r ≤ (w.children menu).length))

/-- The states a run reaches from a fresh merger, whatever the children hold. -/
inductive Reachable : MergerWorld κ α → Prop
  | init (children : κ → List α) : Reachable ⟨children, MenuMerger.empty, []⟩
  | step {w : MergerWorld κ α} (e : MergerEvent κ α) :
      Reachable w → w.Admissible e → Reachable (w.step e)

/-- The invariant of the merger's runs. -/
structure Consistent (w : MergerWorld κ α) : Prop where
  menus_eq : w.merger.menus = w.appended
  nodup : w.merger.menus.Nodup
  toMenu : ∀ c ∈ w.merger.menus, w.merger.gmodelToMenu c = some c
  gmenu_eq : w.merger.gmenu = (w.merger.menus.map w.children).flatten
  starts : StartsFrom w.children w.merger.startPositions 0 w.merger.menus

-- ── One lemma per event ───────────────────────────────────────────────────────

theorem map_update_of_not_mem (ch : κ → List α) (c : κ) (v : List α) {l : List κ}
    (h : c ∉ l) : l.map (Function.update ch c v) = l.map ch :=
  List.map_congr_left fun x hx => Function.update_noteq (by rintro rfl; exact h hx) _ _

/-- `append` of a new child on a consistent merger: its items go at the end and it starts
    after every earlier child. -/
theorem append_eq {w : MergerWorld κ α} (hw : w.Consistent) (menu : κ)
    (hm : menu ∉ w.merger.menus) :
    w.merger.append menu w.children =
      { gmenu := w.merger.gmenu ++ w.children menu
        menus := w.merger.menus ++ [menu]
        gmodelToMenu := Function.update w.merger.gmodelToMenu menu (some menu)
        startPositions := Function.update w.merger.startPositions menu
          (((w.merger.menus.map w.children).flatten.length : Nat) : Int) } := by
  have hne : ∀ y ∈ w.merger.menus, some menu ≠ some y := fun y hy e => by cases e; exact hm hy
  have hins := MenuMerger.insertItems_eq (w.children menu) w.merger.gmenu [] 0
    (w.children menu).length (by simp)
  simp only [MenuMerger.append, MenuMerger.itemsChanged, startsFrom_appendStartPosition hw.starts,
    Function.update_same, MenuMerger.shiftStartPositions_false_append _ _ _ _ _ hne,
    MenuMerger.shiftStartPositions_false_cons_self]
  simp only [List.append_nil, List.drop_zero, List.take_length, hw.gmenu_eq] at hins
  simpa [MenuMerger.removeItems, MenuMerger.shiftStartPositions, hw.gmenu_eq] using hins

theorem step_append_consistent {w : MergerWorld κ α} (hw : w.Consistent) (menu : κ)
    (hm : menu ∉ w.merger.menus) : (w.step (.append menu)).Consistent := by
  have hsp : ∀ x ∈ w.merger.menus,
      Function.update w.merger.startPositions menu
        (((w.merger.menus.map w.children).flatten.length : Nat) : Int) x =
        w.merger.startPositions x :=
    fun x hx => Function.update_noteq (by rintro rfl; exact hm hx) _ _
  refine ⟨?_, ?_, ?_, ?_, ?_⟩ <;> simp only [step, append_eq hw menu hm]
  · rw [hw.menus_eq]
  · exact List.nodup_append.mpr ⟨hw.nodup, List.nodup_singleton _, by simpa using hm⟩
  · intro c hc
    rcases List.mem_append.mp hc with h1 | h1
    · rw [Function.update_noteq (by rintro rfl; exact hm h1), hw.toMenu c h1]
    · rw [List.mem_singleton.mp h1, Function.update_same]
  · simp [hw.gmenu_eq]
  · rw [startsFrom_append]
    exact ⟨startsFrom_congr hsp (fun _ _ => rfl) hw.starts, by simp [StartsFrom]⟩

/-- **SPLICE**: on a consistent merger, a faithful `items-changed` of the merged child `c`
    replaces exactly `c`'s items and moves the start of every child after it. -/
theorem itemsChanged_eq {w : MergerWorld κ α} (hw : w.Consistent) {L₁ L₂ : List κ} {c : κ}
    (hsplit : w.merger.menus = L₁ ++ c :: L₂) (p r : Nat) (added : List α)
    (h : p + r ≤ (w.children c).length) :
    w.merger.itemsChanged c (editItems (w.children c) p r added) p r added.length =
      { w.merger with
        gmenu := (L₁.map w.children).flatten ++ editItems (w.children c) p r added ++
          (L₂.map w.children).flatten
        startPositions := fun x =>
          w.merger.startPositions x + if x ∈ L₂ then (added.length - r : Int) else 0 } := by
  obtain ⟨hc₁, -, hnd₂, -⟩ := nodup_split (hsplit ▸ hw.nodup)
  have hstarts := hw.starts
  rw [hsplit, startsFrom_append] at hstarts
  set A := (L₁.map w.children).flatten
  set B := w.children c
  set C := (L₂.map w.children).flatten
  have hgm : w.merger.gmenu = A ++ (B ++ C) := by simp [hw.gmenu_eq, hsplit, A, B, C]
  have hoff : w.merger.startPositions c + p = ((A.length + p : Nat) : Int) := by
    rw [hstarts.2.1]; simp
  have hrem : MenuMerger.removeItems ((A.length + p : Nat) : Int) r w.merger.gmenu =
      (A ++ B.take p) ++ (B.drop (p + r) ++ C) := by
    rw [MenuMerger.removeItems_eq _ _ _ (by simp [hgm]; omega), hgm, List.take_append,
      Nat.add_assoc, List.drop_append, List.take_append_of_le_length (by omega),
      List.drop_append_of_le_length (by omega), List.append_assoc]
  have hX : (A ++ B.take p).length = A.length + p := by simp; omega
  have hins := MenuMerger.insertItems_eq (editItems B p r added) (A ++ B.take p)
    (B.drop (p + r) ++ C) p added.length (by simp [editItems]; omega)
  have hmid : ((editItems B p r added).drop p).take added.length = added := by
    rw [editItems, List.append_assoc, List.drop_left' (by simp; omega), List.take_left' rfl]
  have hne : ∀ y ∈ L₁, some c ≠ some y := by rintro y hy ⟨⟩; exact hc₁ hy
  simp only [MenuMerger.itemsChanged, hoff, Int.toNat_ofNat, hrem, hsplit,
    MenuMerger.shiftStartPositions_false_append _ _ _ _ _ hne, hw.toMenu c (by simp [hsplit]),
    MenuMerger.shiftStartPositions_false_cons_self]
  rw [← hX, hins, hmid]
  congr 1
  · simp [editItems]
  · funext x; exact MenuMerger.shiftStartPositions_true_apply _ _ _ hnd₂ _ _

theorem step_edit_not_mem_consistent {w : MergerWorld κ α} (hw : w.Consistent) (menu : κ)
    (p r : Nat) (added : List α) (hm : menu ∉ w.merger.menus) :
    (w.step (.edit menu p r added)).Consistent := by
  have hch : ∀ x ∈ w.merger.menus,
      Function.update w.children menu (editItems (w.children menu) p r added) x = w.children x :=
    fun x hx => Function.update_noteq (by rintro rfl; exact hm hx) _ _
  have hcount : w.appended.count menu = 0 := hw.menus_eq ▸ List.count_eq_zero_of_not_mem hm
  simp only [step, hcount, Function.iterate_zero, id]
  exact ⟨hw.menus_eq, hw.nodup, hw.toMenu, by rw [map_update_of_not_mem _ _ _ hm, hw.gmenu_eq],
    startsFrom_congr (fun _ _ => rfl) hch hw.starts⟩

theorem step_edit_mem_consistent {w : MergerWorld κ α} (hw : w.Consistent) (menu : κ)
    (p r : Nat) (added : List α) (hm : menu ∈ w.merger.menus)
    (h : p + r ≤ (w.children menu).length) :
    (w.step (.edit menu p r added)).Consistent := by
  obtain ⟨L₁, L₂, hsplit⟩ := List.append_of_mem hm
  obtain ⟨hc₁, hc₂, -, hdisj⟩ := nodup_split (hsplit ▸ hw.nodup)
  set items := editItems (w.children menu) p r added
  have hstarts := hw.starts
  rw [hsplit, startsFrom_append] at hstarts
  have hcount : w.appended.count menu = 1 := hw.menus_eq ▸ List.count_eq_one_of_mem hw.nodup hm
  simp only [step, hcount, Function.iterate_one, itemsChanged_eq hw hsplit p r added h]
  refine ⟨hw.menus_eq, hw.nodup, hw.toMenu, ?_, ?_⟩
  · simp [hsplit, map_update_of_not_mem _ _ _ hc₁, map_update_of_not_mem _ _ _ hc₂]
  · simp only [hsplit, startsFrom_append, map_update_of_not_mem _ _ _ hc₁]
    refine ⟨startsFrom_congr (fun x hx => by simp [hdisj x hx]) (fun x hx => ?_) hstarts.1,
      by simp [hc₂, hstarts.2.1], ?_⟩
    · exact Function.update_noteq (by rintro rfl; exact hc₁ hx) _ _
    · have hlen : ((0 : Int) + ((L₁.map w.children).flatten.length : Nat) + (items.length : Nat)) =
          0 + ((L₁.map w.children).flatten.length : Nat) + (w.children menu).length +
            (added.length - r : Int) := by
        simp only [items, editItems, List.length_append, List.length_take, List.length_drop]
        omega
      simp only [Function.update_same, hlen]
      exact startsFrom_shift (fun x hx => by simp [hx])
        (fun x hx => Function.update_noteq (by rintro rfl; exact hc₂ hx) _ _) hstarts.2.2

/-- **ONE STEP** of an admissible run keeps the merger consistent. -/
theorem step_consistent {w : MergerWorld κ α} (hw : w.Consistent) (e : MergerEvent κ α)
    (he : w.Admissible e) : (w.step e).Consistent := by
  cases e with
  | append menu => exact step_append_consistent hw menu (hw.menus_eq ▸ he)
  | edit menu p r added =>
      by_cases hm : menu ∈ w.merger.menus
      · exact step_edit_mem_consistent hw menu p r added hm he
      · exact step_edit_not_mem_consistent hw menu p r added hm

theorem reachable_consistent {w : MergerWorld κ α} (h : w.Reachable) : w.Consistent := by
  induction h with
  | init children => exact ⟨rfl, List.nodup_nil, by simp [MenuMerger.empty], rfl, trivial⟩
  | step e _ he ih => exact step_consistent ih e he

/-- **THE MERGED MENU IS THE CONCATENATION**: after every step of a run of appends of
    distinct children and faithful `items-changed` notifications, `m_menus` lists the
    children `append` was called with, in the order of the calls; the merged items are the
    current items of those children, concatenated in that order; and child `i` starts after
    the items of children `0 .. i-1` (the item count of the concatenation of those
    children). -/
theorem merged_menu_is_concatenation {w : MergerWorld κ α} (h : w.Reachable) :
    w.merger.menus = w.appended ∧ w.merger.gmenu = (w.appended.map w.children).flatten ∧
      ∀ (i : Nat) (hi : i < w.appended.length),
        w.merger.startPositions w.appended[i] =
          (((w.appended.take i).map w.children).flatten.length : Nat) := by
  have hw := reachable_consistent h
  rw [← hw.menus_eq]
  exact ⟨rfl, hw.gmenu_eq, fun i hi => by simpa using startsFrom_getElem hw.starts i hi⟩

/-- Two sections appended, the first then edited in its middle and the second at its front. -/
theorem merged_menu_after_two_edits :
    let w := ((((⟨fun c => if c = 0 then [10, 11] else [20], MenuMerger.empty, []⟩ :
      MergerWorld Nat Nat).step (.append 0)).step (.append 1)).step (.edit 0 1 1 [12, 13])).step
        (.edit 1 0 0 [19])
    w.Reachable ∧ w.merger.menus = w.appended ∧
      w.merger.gmenu = (w.appended.map w.children).flatten ∧
      ∀ (i : Nat) (hi : i < w.appended.length),
        w.merger.startPositions w.appended[i] =
          (((w.appended.take i).map w.children).flatten.length : Nat) := by
  intro w
  have hw : w.Reachable :=
    .step _ (.step _ (.step _ (.step _ (.init _) (by decide)) (by decide)) (by decide))
      (by decide)
  exact ⟨hw, merged_menu_is_concatenation hw⟩

end MergerWorld

end IndicatorNetwork
