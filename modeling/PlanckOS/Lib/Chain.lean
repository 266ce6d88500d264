import Mathlib.Tactic

/-!
# Chains in a successor table

A table `next` links elements into chains. `IsChain next valid stop a l` says that the elements met
from `a` on are those of the list `l`: all are valid, each one is the successor of the one before,
and the successor of the last one is a stop mark. When no valid element is a stop mark a chain is
determined by its head (`IsChain.unique`) and meets no element twice (`IsChain.nodup`).

The other lemmas say how a chain follows changes of the table: changes away from it
(`IsChain.congr`), a new end (`IsChain.cut`) and a continuation (`IsChain.extend`).
-/

set_option autoImplicit false

namespace PlanckOS.Lib.Chain

open List

universe u

variable {α : Type u} {next next' : α → α} {valid stop : α → Prop} {a b x : α} {l l' m : List α}

/-- The elements from `a` on, up to a stop mark. -/
inductive IsChain (next : α → α) (valid stop : α → Prop) : α → List α → Prop
  | last {a : α} (hv : valid a) (hs : stop (next a)) : IsChain next valid stop a [a]
  | link {a : α} {l : List α} (hv : valid a) (h : IsChain next valid stop (next a) l) :
      IsChain next valid stop a (a :: l)

theorem isChain_cons_cons : IsChain next valid stop a (b :: x :: l) ↔
    a = b ∧ valid a ∧ IsChain next valid stop (next a) (x :: l) := by
  constructor
  · rintro ⟨⟩
    exact ⟨rfl, ‹_›, ‹_›⟩
  · rintro ⟨rfl, hv, h⟩
    exact .link hv h

theorem isChain_singleton : IsChain next valid stop a [b] ↔ a = b ∧ valid a ∧ stop (next a) := by
  constructor
  · rintro (⟨hv, hs⟩ | ⟨-, h⟩)
    · exact ⟨rfl, hv, hs⟩
    · cases h
  · rintro ⟨rfl, hv, hs⟩
    exact .last hv hs

/-- A chain can be checked. -/
instance decidableIsChain [DecidableEq α] [DecidablePred valid] [DecidablePred stop] :
    ∀ a l, Decidable (IsChain next valid stop a l)
  | _, [] => isFalse nofun
  | _, [_] => decidable_of_iff' _ isChain_singleton
  | a, _ :: x :: l =>
      have := decidableIsChain (next a) (x :: l)
      decidable_of_iff' _ isChain_cons_cons

namespace IsChain

section

variable (h : IsChain next valid stop a l)
include h

theorem head_mem : a ∈ l := by
  cases h <;> exact mem_cons_self

theorem ne_nil : l ≠ [] := ne_nil_of_mem h.head_mem

theorem valid_of_mem (hx : x ∈ l) : valid x := by
  induction h with
  | last hv _ => exact mem_singleton.mp hx ▸ hv
  | link hv _ ih =>
    rcases mem_cons.mp hx with rfl | hx
    · exact hv
    · exact ih hx

theorem head_valid : valid a := h.valid_of_mem h.head_mem

/-- A chain goes on inside or ends. -/
theorem next_cases (hx : x ∈ l) : next x ∈ l ∨ stop (next x) := by
  induction h with
  | last _ hs => exact .inr (mem_singleton.mp hx ▸ hs)
  | link _ h ih =>
    rcases mem_cons.mp hx with rfl | hx
    · exact .inl (mem_cons_of_mem _ h.head_mem)
    · exact (ih hx).imp_left (mem_cons_of_mem _)

/-- A chain can be entered at any of its elements. -/
theorem suffix (hx : x ∈ l) : ∃ l₁ l₂, l = l₁ ++ l₂ ∧ IsChain next valid stop x l₂ := by
  induction h with
  | last hv hs =>
    obtain rfl := mem_singleton.mp hx
    exact ⟨[], _, rfl, .last hv hs⟩
  | @link a l hv h ih =>
    rcases mem_cons.mp hx with rfl | hx
    · exact ⟨[], _, rfl, .link hv h⟩
    · obtain ⟨l₁, l₂, rfl, h₂⟩ := ih hx
      exact ⟨a :: l₁, l₂, rfl, h₂⟩

/-- Changes of the table away from a chain do not touch it. -/
theorem congr (hn : ∀ x ∈ l, next' x = next x) : IsChain next' valid stop a l := by
  induction h with
  | @last a hv hs =>
    apply last hv
    rwa [hn a mem_cons_self]
  | @link a l hv h ih =>
    apply link hv
    rw [hn a mem_cons_self]
    exact ih fun x hx => hn x (mem_cons_of_mem _ hx)

theorem eq_cons : ∃ m, l = a :: m := by
  cases h with
  | last _ _ => exact ⟨[], rfl⟩
  | link _ _ => exact ⟨_, rfl⟩

end

theorem head_eq (h : IsChain next valid stop a (b :: l)) : a = b := by
  cases h <;> rfl

theorem tail (h : IsChain next valid stop a (b :: l)) (hl : l ≠ []) :
    IsChain next valid stop (next a) l := by
  cases h with
  | last _ _ => exact absurd rfl hl
  | link _ h => exact h

/-- The part of a chain behind `x`. -/
theorem tail_of_split (h : IsChain next valid stop a (l ++ x :: m)) (hm : m ≠ []) :
    IsChain next valid stop (next x) m := by
  induction l generalizing a with
  | nil =>
    obtain rfl := h.head_eq
    exact h.tail hm
  | cons b l ih =>
    obtain rfl := h.head_eq
    exact ih (h.tail (by simp))

/-- The last element of a chain leads to a stop mark. -/
theorem stop_of_last (h : IsChain next valid stop a (l ++ [x])) : stop (next x) := by
  induction l generalizing a with
  | nil =>
    cases h with
    | last _ hs => exact hs
    | link _ h => exact absurd rfl h.ne_nil
  | cons b l ih =>
    obtain rfl := h.head_eq
    exact ih (h.tail (by simp))

/-- A stop mark written at `x` ends the chain there. -/
theorem cut (h : IsChain next valid stop a (l ++ x :: m)) (hl : ∀ y ∈ l, next' y = next y)
    (hx : stop (next' x)) : IsChain next' valid stop a (l ++ [x]) := by
  induction l generalizing a with
  | nil =>
    obtain rfl := h.head_eq
    exact last h.head_valid hx
  | cons b l ih =>
    obtain rfl := h.head_eq
    apply link h.head_valid
    rw [hl a mem_cons_self]
    exact ih (h.tail (by simp)) fun y hy => hl y (mem_cons_of_mem _ hy)

section Separated

variable (hvs : ∀ x, valid x → ¬ stop x)
include hvs

theorem not_stop_next (h : IsChain next valid stop (next a) l) : ¬ stop (next a) :=
  hvs _ h.head_valid

variable (h : IsChain next valid stop a l)
include h

/-- A chain is determined by its head. -/
theorem unique (h' : IsChain next valid stop a l') : l = l' := by
  induction h generalizing l' with
  | last _ hs =>
    cases h' with
    | last _ _ => rfl
    | link _ h => exact absurd hs (h.not_stop_next hvs)
  | link _ h ih =>
    cases h' with
    | last _ hs => exact absurd hs (h.not_stop_next hvs)
    | link _ h'' => rw [ih h'']

/-- A chain meets no element twice: the chains from two occurrences would be one list. -/
theorem nodup : l.Nodup := by
  induction h with
  | last _ _ => exact nodup_singleton _
  | @link a l hv h ih =>
    refine nodup_cons.mpr ⟨?_, ih⟩
    intro ha
    obtain ⟨l₁, l₂, hl, h₂⟩ := h.suffix ha
    have hsame := (link hv h).unique hvs h₂
    have hlen := congrArg length hsame
    rw [hl, length_cons, length_append] at hlen
    omega

/-- Only one element of a chain leads to a stop mark. -/
theorem last_unique (hx : x ∈ l) (hb : b ∈ l) (hsx : stop (next x)) (hsb : stop (next b)) :
    x = b := by
  induction h with
  | last _ _ => exact (mem_singleton.mp hx).trans (mem_singleton.mp hb).symm
  | link _ h ih =>
    have hgo := h.not_stop_next hvs
    rcases mem_cons.mp hx with rfl | hx
    · exact absurd hsx hgo
    rcases mem_cons.mp hb with rfl | hb
    · exact absurd hsb hgo
    exact ih hx hb

/-- No element of a chain is its own successor. -/
theorem next_ne_self : next a ≠ a := by
  intro hself
  cases h with
  | last hv hs => exact hvs _ hv (hself ▸ hs)
  | link hv h =>
    have hnodup := (link hv h).nodup hvs
    exact (nodup_cons.mp hnodup).1 (hself ▸ h.head_mem)

/-- Where the old chain ended, the table now leads to another chain. -/
theorem extend (hin : ∀ x ∈ l, ¬ stop (next x) → next' x = next x)
    (hend : ∀ x ∈ l, stop (next x) → next' x = b) (hm : IsChain next' valid stop b m) :
    IsChain next' valid stop a (l ++ m) := by
  induction h with
  | @last a hv hs =>
    apply link hv
    rwa [hend a mem_cons_self hs]
  | @link a l hv h ih =>
    apply link hv
    rw [hin a mem_cons_self (h.not_stop_next hvs)]
    exact ih (fun x hx => hin x (mem_cons_of_mem _ hx))
      fun x hx => hend x (mem_cons_of_mem _ hx)

end Separated

/-! ## Positions -/

theorem getElem?_zero (h : IsChain next valid stop a l) : l[0]? = some a := by
  cases h <;> rfl

/-- Behind position `i` comes the successor, or the chain ends there. -/
theorem next_getElem? (h : IsChain next valid stop a l) {i : Nat} (hi : l[i]? = some x) :
    l[i + 1]? = some (next x) ∨ (i + 1 = l.length ∧ stop (next x)) := by
  induction h generalizing i with
  | last _ hs =>
    cases i with
    | zero => exact .inr ⟨rfl, Option.some.inj hi ▸ hs⟩
    | succ i => cases hi
  | link _ h ih =>
    cases i with
    | zero => exact .inl (Option.some.inj hi ▸ h.getElem?_zero)
    | succ i => exact (ih hi).imp_right fun hlast => ⟨congrArg (· + 1) hlast.1, hlast.2⟩

end IsChain

end PlanckOS.Lib.Chain
