import Mathlib.Data.List.Nodup
import Mathlib.Logic.Function.Basic

/-!
# `MenuMerger` — one menu made of the indicator's sections

`MenuMerger` (`network/menumodel-cpp/menu-merger.h`) shows the items of its child menus,
in the order they were appended, as one `GMenu`. Per child it keeps the position its items
start at (`m_startPositions`), and on every `items-changed` of a child it splices the merged
menu in place:

* `itemsChanged` removes `removed` items at `m_startPositions[model] + position`, copies the
  `added` new items of the child in at that offset (the last one first), and moves the start
  of every child after `model` by `added - removed`;
* `append` starts a new child right after the last one and inserts all of its items through
  `itemsChanged(menu, 0, 0, n_items)`.

A `GMenu` is its list of items. `g_menu_remove` and `g_menu_insert_item` keep GLib's handling
of a position out of range. A child is named by its `GMenuModel*` (`κ`): the merger stores
`menu` only under `*menu`, so the `MenuModel::Ptr` it compares in the update loop is that key
too. `gint` arithmetic is `Int`.

This file holds the model and one lemma per loop: what each loop of `itemsChanged` does to a
merged menu that is laid out as the concatenation of its children.
-/

namespace IndicatorNetwork

variable {κ α : Type}

/-- `g_menu_remove`: GLib refuses a position outside the menu and leaves it unchanged. -/
def gMenuRemove (items : List α) (position : Int) : List α :=
  if 0 ≤ position ∧ position < items.length then items.eraseIdx position.toNat else items

/-- `g_menu_insert_item`: a negative position, or one past the end, appends. -/
def gMenuInsertItem (items : List α) (position : Int) (item : α) : List α :=
  if 0 ≤ position ∧ position ≤ items.length then items.insertIdx position.toNat item
  else items ++ [item]

/-- `g_menu_item_new_from_model`: a copy of the child's item at `itemIndex`. Outside the
    child's items GLib reads past its array; the model has no item there. -/
def gMenuItemNewFromModel (model : List α) (itemIndex : Int) : Option α :=
  if 0 ≤ itemIndex then model[itemIndex.toNat]? else none

/-- The fields of a `MenuMerger`. -/
structure MenuMerger (κ α : Type) where
  /-- `m_gmenu`: the merged items. -/
  gmenu : List α
  /-- `m_menus`: the children, in the order they were appended. -/
  menus : List κ
  /-- `m_gmodelToMenu`; `operator[]` reads a missing key as the null pointer `none`. -/
  gmodelToMenu : κ → Option κ
  /-- `m_startPositions`; `operator[]` reads a missing key as `0`. -/
  startPositions : κ → Int

namespace MenuMerger

/-- `MenuMerger()`: no children and an empty merged menu. -/
def empty : MenuMerger κ α := ⟨[], [], fun _ => none, fun _ => 0⟩

/-- The first loop of `itemsChanged`: `g_menu_remove` at `offset`, `n` times. -/
def removeItems (offset : Int) : Nat → List α → List α
  | 0, items => items
  | n + 1, items => removeItems offset n (gMenuRemove items offset)

/-- One turn of the second loop of `itemsChanged`: copy item `position + i` of the child
    and insert it at `offset`. -/
def insertItem (model : List α) (offset position : Int) (i : Nat) (items : List α) :
    List α :=
  match gMenuItemNewFromModel model (position + i) with
  | some item => gMenuInsertItem items offset item
  | none => items

/-- The second loop of `itemsChanged`: `i` runs from `n - 1` down to `0`. -/
def insertItems (model : List α) (offset position : Int) : Nat → List α → List α
  | 0, items => items
  | i + 1, items => insertItems model offset position i (insertItem model offset position i items)

/-- The `m_menus` loop of `itemsChanged`: once the child `target` points to has been
    passed (`update`), every later start position moves by `delta`. -/
def shiftStartPositions [DecidableEq κ] (target : Option κ) (delta : Int) :
    Bool → List κ → (κ → Int) → κ → Int
  | _, [], sp => sp
  | update, iter :: rest, sp =>
      if update then
        shiftStartPositions target delta true rest (Function.update sp iter (sp iter + delta))
      else if target = some iter then shiftStartPositions target delta true rest sp
      else shiftStartPositions target delta false rest sp

/-- `itemsChanged(model, position, removed, added)`, with `modelItems` the child's items
    after its change, which `g_menu_item_new_from_model` reads. -/
def itemsChanged [DecidableEq κ] (m : MenuMerger κ α) (model : κ) (modelItems : List α)
    (position removed added : Int) : MenuMerger κ α :=
  let offset := m.startPositions model + position
  { m with
    gmenu := insertItems modelItems offset position added.toNat
      (removeItems offset removed.toNat m.gmenu)
    startPositions :=
      shiftStartPositions (m.gmodelToMenu model) (added - removed) false m.menus
        m.startPositions }

/-- The start position `append` gives a new child: `0` for the first one, else where the
    last child's items end. -/
def appendStartPosition (m : MenuMerger κ α) (items : κ → List α) : Int :=
  match m.menus.getLast? with
  | none => 0
  | some last => m.startPositions last + (items last).length

/-- `append(menu)`, with `items` the children's current items. -/
def append [DecidableEq κ] (m : MenuMerger κ α) (menu : κ) (items : κ → List α) :
    MenuMerger κ α :=
  let m' : MenuMerger κ α :=
    { m with
      menus := m.menus ++ [menu]
      gmodelToMenu := Function.update m.gmodelToMenu menu (some menu)
      startPositions := Function.update m.startPositions menu (m.appendStartPosition items) }
  m'.itemsChanged menu (items menu) 0 0 (items menu).length

-- ── The two GLib edits at a position inside the menu ──────────────────────────

theorem gMenuRemove_of_lt (items : List α) (o : Nat) (h : o < items.length) :
    gMenuRemove items o = items.take o ++ items.drop (o + 1) := by
  rw [gMenuRemove, if_pos ⟨by omega, by omega⟩]
  simp [List.eraseIdx_eq_take_drop_succ]

theorem insertIdx_length_append (xs ys : List α) (a : α) :
    (xs ++ ys).insertIdx xs.length a = xs ++ a :: ys := by
  induction xs with
  | nil => rfl
  | cons x xs ih => exact congrArg (x :: ·) ih

theorem gMenuInsertItem_length_append (xs ys : List α) (a : α) :
    gMenuInsertItem (xs ++ ys) xs.length a = xs ++ a :: ys := by
  rw [gMenuInsertItem, if_pos ⟨by omega, by simp only [List.length_append]; omega⟩]
  simp [insertIdx_length_append]

-- ── The three loops of `itemsChanged` ─────────────────────────────────────────

/-- **REMOVE LOOP**: `n` removals at an offset with `n` items after it cut them out. -/
theorem removeItems_eq (o n : Nat) (items : List α) (h : o + n ≤ items.length) :
    removeItems o n items = items.take o ++ items.drop (o + n) := by
  induction n generalizing items with
  | zero => simp [removeItems]
  | succ n ih =>
      have hto : (items.take o).length = o := by simp; omega
      rw [removeItems, gMenuRemove_of_lt _ _ (by omega), ih _ (by simp; omega),
        List.take_left' hto, List.drop_append_eq_append_drop,
        List.drop_eq_nil_of_le (by omega), List.nil_append, hto, List.drop_drop]
      congr 2; omega

/-- **INSERT LOOP**: copying `k` items of the child from `p` on, last first, at the offset
    `xs.length` puts them there in the child's order. -/
theorem insertItems_eq (model xs ys : List α) (p k : Nat) (h : p + k ≤ model.length) :
    insertItems model xs.length p k (xs ++ ys) = xs ++ (model.drop p).take k ++ ys := by
  induction k generalizing ys with
  | zero => simp [insertItems]
  | succ k ih =>
      have hget : model[p + k]? = some model[p + k] := List.getElem?_eq_getElem (by omega)
      have hitem : insertItem model xs.length p k (xs ++ ys) = xs ++ model[p + k] :: ys := by
        simp only [insertItem, gMenuItemNewFromModel]
        rw [if_pos (by omega), show ((p : Int) + (k : Int)).toNat = p + k by omega, hget]
        exact gMenuInsertItem_length_append xs ys _
      rw [insertItems, hitem, ih _ (by omega), List.take_succ, List.getElem?_drop, hget]
      simp

/-- The update loop before `target`'s child: nothing moves. -/
theorem shiftStartPositions_false_append [DecidableEq κ] (target : Option κ) (delta : Int)
    (l r : List κ) (sp : κ → Int) (h : ∀ y ∈ l, target ≠ some y) :
    shiftStartPositions target delta false (l ++ r) sp =
      shiftStartPositions target delta false r sp := by
  induction l with
  | nil => rfl
  | cons y l ih =>
      simp only [List.mem_cons, forall_eq_or_imp] at h
      simp [shiftStartPositions, h.1, ih h.2]

/-- The update loop at `target`'s child: from here on every start moves. -/
theorem shiftStartPositions_false_cons_self [DecidableEq κ] (c : κ) (delta : Int)
    (r : List κ) (sp : κ → Int) :
    shiftStartPositions (some c) delta false (c :: r) sp =
      shiftStartPositions (some c) delta true r sp := by
  simp [shiftStartPositions]

/-- **UPDATE LOOP**: after `target`'s child, each start of a list without repeats moves once. -/
theorem shiftStartPositions_true_apply [DecidableEq κ] (target : Option κ) (delta : Int)
    (l : List κ) (hl : l.Nodup) (sp : κ → Int) (x : κ) :
    shiftStartPositions target delta true l sp x = sp x + if x ∈ l then delta else 0 := by
  induction l generalizing sp with
  | nil => simp [shiftStartPositions]
  | cons y l ih =>
      rw [List.nodup_cons] at hl
      simp only [shiftStartPositions, if_true, ih hl.2, List.mem_cons]
      by_cases hxy : x = y
      · subst hxy; simp [hl.1]
      · simp [Function.update_noteq hxy, hxy]

end MenuMerger

end IndicatorNetwork
