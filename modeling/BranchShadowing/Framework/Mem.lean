import Mathlib.Data.List.Basic
import Mathlib.Tactic.Ring

/-!
# Memory

A memory holds something at every address, and is written a list at a time
(`Mem.write`); what is read after a write is the list, or what was there. Numbers
are stored little-endian (`toLE`, `ofLE`).
-/

namespace BS

abbrev Byte := BitVec 8

abbrev Mem (α : Type*) := Nat → α

namespace Mem

variable {α : Type*} (m : Mem α) {a b n k x : Nat} {l : List α}

/-- The memory with the elements of `l` at `a` and the addresses behind it. -/
def write (a : Nat) (l : List α) : Mem α :=
  fun x => if a ≤ x then (l[x - a]?).getD (m x) else m x

/-- What `n` addresses from `a` on hold. -/
def read (a n : Nat) : List α := (List.range n).map fun i => m (a + i)

@[simp] theorem read_length (a n : Nat) : (m.read a n).length = n := by simp [read]

theorem read_getElem? (h : k < n) : (m.read a n)[k]? = some (m (a + k)) := by
  simp [read, h]

theorem write_of_lt (h : x < a) : m.write a l x = m x := if_neg (Nat.not_le.mpr h)

theorem write_of_ge (h : a + l.length ≤ x) : m.write a l x = m x := by
  unfold write
  rw [if_pos (by omega), List.getElem?_eq_none (by omega), Option.getD_none]

theorem write_of_not_mem (h : x < a ∨ a + l.length ≤ x) : m.write a l x = m x :=
  h.elim m.write_of_lt m.write_of_ge

theorem write_of_mem (h : k < l.length) : m.write a l (a + k) = l[k] := by
  unfold write
  rw [if_pos (by omega), Nat.add_sub_cancel_left, List.getElem?_eq_getElem h, Option.getD_some]

@[simp] theorem write_nil (a : Nat) : m.write a [] = m :=
  funext fun x => (Nat.lt_or_ge x a).elim m.write_of_lt fun h => m.write_of_ge (by simpa using h)

theorem read_succ (a n : Nat) : m.read a (n + 1) = m a :: m.read (a + 1) n := by
  simp [read, List.range_succ_eq_map, Nat.add_assoc, Nat.add_comm 1]

theorem read_add (a n k : Nat) : m.read a (n + k) = m.read a n ++ m.read (a + n) k := by
  induction n generalizing a with
  | zero => simp [read]
  | succ n ih =>
    rw [Nat.succ_add, read_succ, ih, read_succ, List.cons_append]
    simp only [Nat.add_assoc, Nat.add_comm 1]

variable {m}

theorem read_congr {m' : Mem α} (h : ∀ i < n, m (a + i) = m' (a + i)) :
    m.read a n = m'.read a n :=
  List.map_congr_left fun i hi => h i (List.mem_range.mp hi)

variable (m)

theorem read_write_self (a : Nat) (l : List α) : (m.write a l).read a l.length = l := by
  refine List.ext_getElem? fun k => ?_
  rcases Nat.lt_or_ge k l.length with h | h
  · rw [read_getElem? _ h, write_of_mem m h, List.getElem?_eq_getElem h]
  · rw [List.getElem?_eq_none (by simpa using h), List.getElem?_eq_none h]

theorem read_write_of_disjoint (h : a + n ≤ b ∨ b + l.length ≤ a) :
    (m.write b l).read a n = m.read a n :=
  read_congr fun i hi => m.write_of_not_mem (by omega)

/-- A part of what is read. -/
theorem drop_read (h : k ≤ n) : (m.read a n).drop k = m.read (a + k) (n - k) := by
  obtain ⟨j, rfl⟩ := Nat.exists_eq_add_of_le h
  rw [read_add, List.drop_left' (read_length ..), Nat.add_sub_cancel_left]

theorem take_read (h : k ≤ n) : (m.read a n).take k = m.read a k := by
  obtain ⟨j, rfl⟩ := Nat.exists_eq_add_of_le h
  rw [read_add, List.take_left' (read_length ..)]

end Mem

/-! ## Numbers in memory -/

/-- The low `n` bytes of a number, the lowest first. -/
def toLE : Nat → Nat → List Byte
  | 0, _ => []
  | n + 1, v => BitVec.ofNat 8 v :: toLE n (v / 256)

/-- The number that bytes stand for. -/
def ofLE : List Byte → Nat
  | [] => 0
  | b :: bs => b.toNat + 256 * ofLE bs

@[simp] theorem toLE_length (n v : Nat) : (toLE n v).length = n := by
  induction n generalizing v with
  | zero => rfl
  | succ n ih => rw [toLE, List.length_cons, ih]

theorem ofLE_toLE (n v : Nat) : ofLE (toLE n v) = v % 256 ^ n := by
  induction n generalizing v with
  | zero => simp [toLE, ofLE, Nat.mod_one]
  | succ n ih =>
    have h : (BitVec.ofNat 8 v).toNat = v % 256 := BitVec.toNat_ofNat ..
    rw [toLE, ofLE, ih, h, Nat.pow_succ, Nat.mul_comm (256 ^ n), Nat.mod_mul]

theorem ofLE_toLE_of_lt {n v : Nat} (h : v < 256 ^ n) : ofLE (toLE n v) = v := by
  rw [ofLE_toLE, Nat.mod_eq_of_lt h]

end BS
