import Mathlib.Data.List.InsertIdx

/-!
# Line editors

`Session` is a line editor in its own terms: the line is a list with a cursor, the lines entered
before are a list with the last one first, and a command inserts, deletes, moves or recalls.

A program keeps the line in an array and moves its cells one by one (`shiftDown`, `shiftUp`, with
`none` for an index past the end). `shiftDown_take` and `shiftUp_take` say that the cells in use
then are the line with one element less and one more.
-/

set_option autoImplicit false

namespace PlanckOS.Lib.LineEditor

open List

variable {lo hi : Nat} {α : Type} {xs : List α}

/-! ## The editor -/

/-- The line and the cursor, which stands in front of the element with its number. `back` counts the
lines that were recalled: it is 0 for a line of its own, and `n + 1` at line `n` of the history. -/
structure Editor (α : Type) where
  text : List α
  cursor : Nat
  back : Nat
  deriving DecidableEq, Repr

inductive Command (α : Type) where
  | insert (a : α)
  | backspace
  | left
  | right
  | up
  | down
  deriving DecidableEq, Repr

/-- A command for the line, or the end of the line. -/
inductive Event (α : Type) where
  | edit (c : Command α)
  | enter
  deriving DecidableEq, Repr

/-- The editor at the start of a line. -/
def Editor.empty : Editor α := ⟨[], 0, 0⟩

/-- Line `n` of the history, with the cursor behind it. -/
def Editor.recall (history : List (List α)) (n : Nat) : Editor α :=
  let text := (history[n]?).getD []
  ⟨text, text.length, n + 1⟩

/-- What a command does to the line; lines grow to `cap` elements. -/
def Editor.step (cap : Nat) (history : List (List α)) (e : Editor α) : Command α → Editor α
  | .insert a =>
      if cap ≤ e.text.length then e
      else { e with text := e.text.insertIdx e.cursor a, cursor := e.cursor + 1 }
  | .backspace =>
      if e.cursor = 0 then e
      else { e with text := e.text.eraseIdx (e.cursor - 1), cursor := e.cursor - 1 }
  | .left => { e with cursor := e.cursor - 1 }
  | .right => { e with cursor := min (e.cursor + 1) e.text.length }
  | .up => if e.back < history.length then .recall history e.back else e
  | .down =>
      match e.back with
      | 0 => e
      | 1 => .empty
      | n + 2 => .recall history n

/-- The editor, the history and the lines entered. -/
structure Session (α : Type) where
  editor : Editor α
  history : List (List α)
  entered : List (List α)
  deriving DecidableEq, Repr

/-- An event in a session: `enter` puts the line in front of the history, which keeps `limit` lines,
unless it is empty. -/
def Session.step (cap limit : Nat) (s : Session α) : Event α → Session α
  | .edit c => { s with editor := s.editor.step cap s.history c }
  | .enter =>
      match s.editor.text with
      | [] => { s with editor := .empty }
      | a :: as => ⟨.empty, ((a :: as) :: s.history).take limit, s.entered ++ [a :: as]⟩

/-! ## Cells that are moved one by one -/

/-- Copy the cell at `src` to `dst`. -/
def copyCell (xs : List α) (src dst : Nat) : Option (List α) :=
  (xs[src]?).bind fun a => if dst < xs.length then some (xs.set dst a) else none

/-- The cells from `lo` to `hi` move one place down, the first one first. -/
def shiftDown (xs : List α) (lo hi : Nat) : Option (List α) :=
  (range' lo (hi - lo)).foldlM (fun xs i => copyCell xs i (i - 1)) xs

/-- The cells from `lo` to `hi` move one place up, the last one first. -/
def shiftUp (xs : List α) (lo hi : Nat) : Option (List α) :=
  (range' lo (hi - lo)).reverse.foldlM (fun xs i => copyCell xs i (i + 1)) xs

theorem copyCell_cells {xs : List α} {src dst : Nat} (hsrc : src < xs.length)
    (hdst : dst < xs.length) : ∃ ys, copyCell xs src dst = some ys ∧ ys.length = xs.length ∧
      ∀ k, ys[k]? = if k = dst then xs[src]? else xs[k]? := by
  refine ⟨xs.set dst xs[src], ?_, length_set, fun k => ?_⟩
  · rw [copyCell, getElem?_eq_getElem hsrc, Option.bind_some, if_pos hdst]
  · rw [getElem?_set, getElem?_eq_getElem hsrc]
    by_cases hk : k = dst
    · rw [if_pos hk.symm, if_pos (hk ▸ hdst), if_pos hk]
    · rw [if_neg (Ne.symm hk), if_neg hk]

/-- The loop downwards, cell by cell. -/
theorem shiftDown_cells (hlo : 0 < lo) (hle : lo ≤ hi) (hhi : hi ≤ xs.length) :
    ∃ ys, shiftDown xs lo hi = some ys ∧ ys.length = xs.length ∧
      ∀ k, ys[k]? = if lo ≤ k + 1 ∧ k + 1 < hi then xs[k + 1]? else xs[k]? := by
  obtain ⟨m, rfl⟩ := Nat.exists_eq_add_of_le hle
  rw [shiftDown, Nat.add_sub_cancel_left]
  clear hle
  induction m with
  | zero => exact ⟨xs, rfl, rfl, fun k => by rw [if_neg (by omega)]⟩
  | succ m ih =>
    -- The cell at `lo + m` still has its first value when the loop comes to it.
    obtain ⟨ys, hys, hlen, hcells⟩ := ih (by omega)
    obtain ⟨zs, hzs, hlen', hcells'⟩ := @copyCell_cells α ys (lo + m) (lo + m - 1)
      (by omega) (by omega)
    refine ⟨zs, ?_, hlen'.trans hlen, fun k => ?_⟩
    · rw [range'_1_concat, foldlM_append, hys]
      simpa using hzs
    · rw [hcells', hcells, hcells]
      grind

/-- The loop upwards, cell by cell. -/
theorem shiftUp_cells (hle : lo ≤ hi) (hhi : hi < xs.length) :
    ∃ ys, shiftUp xs lo hi = some ys ∧ ys.length = xs.length ∧
      ∀ k, ys[k]? = if lo < k ∧ k ≤ hi then xs[k - 1]? else xs[k]? := by
  obtain ⟨m, rfl⟩ := Nat.exists_eq_add_of_le hle
  rw [shiftUp, Nat.add_sub_cancel_left]
  clear hle
  induction m generalizing lo with
  | zero => exact ⟨xs, rfl, rfl, fun k => by rw [if_neg (by omega)]⟩
  | succ m ih =>
    -- The cells above `lo` have moved when the loop comes to `lo`.
    obtain ⟨ys, hys, hlen, hcells⟩ := @ih (lo + 1) (by omega)
    obtain ⟨zs, hzs, hlen', hcells'⟩ := @copyCell_cells α ys lo (lo + 1) (by omega)
      (by omega)
    refine ⟨zs, ?_, hlen'.trans hlen, fun k => ?_⟩
    · rw [range'_succ, reverse_cons, foldlM_append, hys]
      simpa using hzs
    · rw [hcells', hcells, hcells]
      grind

/-- What stands in the cells stood in one of them before. -/
theorem shiftUp_subset {xs ys : List α} (hle : lo ≤ hi) (hhi : hi < xs.length)
    (h : shiftUp xs lo hi = some ys) : ys ⊆ xs := by
  obtain ⟨zs, hzs, -, hcells⟩ := shiftUp_cells hle hhi
  obtain rfl := Option.some.inj (h.symm.trans hzs)
  intro y hy
  obtain ⟨k, hk⟩ := mem_iff_getElem?.mp hy
  rw [hcells] at hk
  split at hk <;> exact mem_of_getElem? hk

/-- **Moving the cells behind the cursor down deletes the element in front of it.** -/
theorem shiftDown_take (hlo : 0 < lo) (hle : lo ≤ hi) (hhi : hi ≤ xs.length) :
    ∃ ys, shiftDown xs lo hi = some ys ∧ ys.length = xs.length ∧
      ys.take (hi - 1) = (xs.take hi).eraseIdx (lo - 1) := by
  obtain ⟨ys, hys, hlen, hcells⟩ := shiftDown_cells hlo hle hhi
  refine ⟨ys, hys, hlen, ext_getElem? fun k => ?_⟩
  rw [getElem?_take, getElem?_eraseIdx, hcells, getElem?_take, getElem?_take]
  grind

/-- **Moving the cells from the cursor on up makes room for an element.** -/
theorem shiftUp_take (hle : lo ≤ hi) (hhi : hi < xs.length) (a : α) :
    ∃ ys, shiftUp xs lo hi = some ys ∧ ys.length = xs.length ∧
      (ys.set lo a).take (hi + 1) = (xs.take hi).insertIdx lo a := by
  obtain ⟨ys, hys, hlen, hcells⟩ := shiftUp_cells hle hhi
  refine ⟨ys, hys, hlen, ext_getElem? fun k => ?_⟩
  rw [getElem?_take, getElem?_insertIdx, getElem?_set, hcells, getElem?_take, getElem?_take]
  grind

end PlanckOS.Lib.LineEditor
