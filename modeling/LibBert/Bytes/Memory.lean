import Mathlib.Data.List.GetD
import Mathlib.Tactic.Common

/-!
# Stores into memory

Memory as a function of the address, what a store of a list of symbols makes of
it, and the symbols that are loaded from its start.
-/

namespace Bytes

variable {β : Type} {memory : ℕ → β} {offset : ℕ} {xs ys : List β}

/-- The memory with the symbols stored from `offset` on. -/
def store (memory : ℕ → β) (offset : ℕ) (xs : List β) : ℕ → β := fun i ↦
  if offset ≤ i then xs.getD (i - offset) (memory i) else memory i

/-- The first `n` symbols. -/
def load (memory : ℕ → β) (n : ℕ) : List β := (List.range n).map memory

@[simp] theorem store_nil : store memory offset [] = memory := by
  funext i
  simp [store]

theorem store_of_lt {i : ℕ} (h : i < offset) : store memory offset xs i = memory i :=
  if_neg (Nat.not_le.mpr h)

/-- Storing piece by piece is storing all at once. -/
theorem store_append :
    store (store memory offset xs) (offset + xs.length) ys = store memory offset (xs ++ ys) := by
  funext i
  simp only [store]
  by_cases hxs : i - offset < xs.length
  · rw [if_neg (by omega), List.getD_append _ _ _ _ hxs]
  · have hback : i - offset - xs.length = i - (offset + xs.length) := by omega
    rw [List.getD_append_right _ _ _ _ (Nat.le_of_not_lt hxs), hback,
      List.getD_eq_default xs _ (Nat.le_of_not_lt hxs)]
    split_ifs <;> first | rfl | omega

/-- What is stored behind the symbols loaded so far is loaded next. -/
theorem load_store :
    load (store memory offset xs) (offset + xs.length) = load memory offset ++ xs := by
  rw [load, List.range_add, List.map_append]
  congr 1
  · apply List.map_congr_left
    intro i hi
    exact store_of_lt (List.mem_range.mp hi)
  · apply List.ext_getElem
    · simp
    · intro i _ hi
      simp [store, hi]

end Bytes
