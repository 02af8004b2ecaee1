import Mathlib.Logic.Function.Basic
import Mathlib.Data.List.Basic

/-!
# Ring buffers

Slots that are written in turn, over and over. What was written last, oldest first
(`Ring.history`), is the end of all that was ever written (`Ring.history_foldl_push`).
-/

namespace BS

/-- `n` slots; `top` is the one that was written last. -/
structure Ring (α : Type*) (n : Nat) where
  slots : Nat → α
  top : Nat
  top_lt : top < n

namespace Ring

variable {α : Type*} {n : Nat}

theorem size_pos (r : Ring α n) : 0 < n := Nat.zero_lt_of_lt r.top_lt

def push (r : Ring α n) (a : α) : Ring α n where
  slots := Function.update r.slots ((r.top + 1) % n) a
  top := (r.top + 1) % n
  top_lt := Nat.mod_lt _ r.size_pos

/-- The slot that was written `n - 1 - k` writes before the last. -/
def slot (r : Ring α n) (k : Nat) : Nat := (r.top + 1 + k) % n

/-- What the slots hold, oldest first. -/
def history (r : Ring α n) : List α := (List.range n).map fun k => r.slots (r.slot k)

@[simp] theorem push_top (r : Ring α n) (a : α) : (r.push a).top = (r.top + 1) % n := rfl

@[simp] theorem history_length (r : Ring α n) : r.history.length = n := by simp [history]

theorem history_getElem? (r : Ring α n) {k : Nat} (hk : k < n) :
    r.history[k]? = some (r.slots (r.slot k)) := by
  rw [history, List.getElem?_map, List.getElem?_range hk, Option.map_some]

theorem slot_push (r : Ring α n) (a : α) (k : Nat) : (r.push a).slot k = r.slot (k + 1) := by
  show ((r.top + 1) % n + 1 + k) % n = (r.top + 1 + (k + 1)) % n
  rw [Nat.add_assoc, Nat.mod_add_mod, Nat.add_comm 1 k]

/-- The slot that is written next is the oldest one, and only that. -/
theorem slot_ne_zero (r : Ring α n) {k : Nat} (hk : 0 < k) (hkn : k < n) :
    r.slot k ≠ r.slot 0 := by
  have htop := r.top_lt
  unfold slot
  intro h
  rcases Nat.lt_or_ge (r.top + 1 + k) n with hlt | hge
  · rw [Nat.mod_eq_of_lt hlt, Nat.mod_eq_of_lt (by omega)] at h
    omega
  · rw [Nat.mod_eq_sub_mod hge, Nat.mod_eq_of_lt (by omega)] at h
    rcases Nat.lt_or_ge (r.top + 1) n with hlt | hge'
    · rw [Nat.add_zero, Nat.mod_eq_of_lt hlt] at h
      omega
    · rw [Nat.add_zero, Nat.mod_eq_sub_mod hge', Nat.mod_eq_of_lt (by omega)] at h
      omega

/-- A write drops the oldest value. -/
theorem history_push (r : Ring α n) (a : α) : (r.push a).history = r.history.tail ++ [a] := by
  refine List.ext_getElem? fun k => ?_
  rcases Nat.lt_trichotomy (k + 1) n with hlt | heq | hgt
  · rw [history_getElem? _ (by omega), slot_push, List.getElem?_append_left (by simp; omega),
      List.getElem?_tail, history_getElem? _ hlt]
    exact congrArg some (Function.update_of_ne (r.slot_ne_zero (by omega) hlt) ..)
  · have hslot : r.slot (k + 1) = r.slot 0 := by
      unfold slot
      rw [heq, Nat.add_mod_right, Nat.add_zero]
    rw [history_getElem? _ (by omega), slot_push, hslot,
      List.getElem?_append_right (by simp; omega)]
    have hlast : k - r.history.tail.length = 0 := by simp; omega
    rw [hlast]
    exact congrArg some (Function.update_self ..)
  · have hlen : (r.history.tail ++ [a]).length = n := by
      rw [List.length_append, List.length_tail, history_length, List.length_singleton]
      exact Nat.sub_add_cancel r.size_pos
    rw [List.getElem?_eq_none (by rw [history_length]; omega),
      List.getElem?_eq_none (by rw [hlen]; omega)]

/-- After some writes the ring holds the last `n` of what it held before and what was
written. -/
theorem history_foldl_push (r : Ring α n) (as : List α) :
    (as.foldl push r).history = (r.history ++ as).drop as.length := by
  induction as generalizing r with
  | nil => simp
  | cons a as ih =>
    obtain ⟨b, l, hl⟩ : ∃ b l, r.history = b :: l := by
      refine List.exists_cons_of_length_pos ?_
      rw [history_length]
      exact r.size_pos
    rw [List.foldl_cons, ih, history_push, hl, List.length_cons, List.cons_append,
      List.drop_succ_cons, List.tail_cons, List.append_assoc, List.singleton_append]

end Ring

end BS
