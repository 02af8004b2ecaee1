import Mathlib.Data.List.Nodup
import Mathlib.Logic.Function.Basic

/-!
# The element after another in a list

`nextOf l b` is the element after the first `b` of `l`: the block after `b` in
a layout. In a list without repetitions it depends only on the part of the
list around `b` (`nextOf_append_cons`, `nextOf_append_left`). `weave` puts one of
the elements of a second list after each of the first, and `followedBy` what is
given for it, if anything.
-/

namespace BS

variable {α : Type*} [DecidableEq α]

/-- The element after the first `b` of a list. -/
def nextOf : List α → α → Option α
  | [], _ => none
  | x :: xs, b => if x = b then xs.head? else nextOf xs b

theorem nextOf_append_cons {xs ys : List α} {b : α} (h : b ∉ xs) :
    nextOf (xs ++ b :: ys) b = ys.head? := by
  induction xs with
  | nil => simp [nextOf]
  | cons x xs ih =>
    simp only [List.mem_cons, not_or] at h
    simp only [List.cons_append, nextOf, Ne.symm h.1, if_false]
    exact ih h.2

/-- An element with one after it keeps it when the list is extended. -/
theorem nextOf_append_left {xs ys : List α} {b c : α} (h : nextOf xs b = some c) :
    nextOf (xs ++ ys) b = some c := by
  induction xs with
  | nil => cases h
  | cons x xs ih =>
    simp only [List.cons_append, nextOf] at h ⊢
    split at h
    · rename_i hx
      cases xs with
      | nil => cases h
      | cons y ys => simpa [hx] using h
    · rename_i hx
      simp only [hx, if_false]
      exact ih h

theorem nextOf_append_right {xs ys : List α} {b : α} (h : b ∉ xs) :
    nextOf (xs ++ ys) b = nextOf ys b := by
  induction xs with
  | nil => rfl
  | cons x xs ih =>
    simp only [List.mem_cons, not_or] at h
    simp only [List.cons_append, nextOf, Ne.symm h.1, if_false]
    exact ih h.2

omit [DecidableEq α] in
/-- Elements may be inserted anywhere that are not there yet. -/
theorem nodup_insert {xs ys zs : List α} (h : (xs ++ zs).Nodup) (hy : ys.Nodup)
    (hd : ∀ y ∈ ys, y ∉ xs ++ zs) : (xs ++ (ys ++ zs)).Nodup := by
  have hp : (xs ++ (ys ++ zs)).Perm (ys ++ (xs ++ zs)) := by
    rw [← List.append_assoc, ← List.append_assoc]
    exact List.perm_append_comm.append_right zs
  rw [hp.nodup_iff]
  exact List.nodup_append.mpr ⟨hy, h, fun a ha b hb hab => hd a ha (hab ▸ hb)⟩

/-- Nothing comes after the last element. -/
theorem nextOf_getLast? {l : List α} {b : α} (hl : l.Nodup) (h : l.getLast? = some b) :
    nextOf l b = none := by
  obtain ⟨xs, rfl⟩ := List.getLast?_eq_some_iff.mp h
  refine nextOf_append_cons fun hb => ?_
  exact (List.nodup_append.mp hl).2.2 b hb b (List.mem_singleton_self b) rfl

theorem mem_of_nextOf {l : List α} {b c : α} (h : nextOf l b = some c) : c ∈ l := by
  induction l with
  | nil => cases h
  | cons x xs ih =>
    simp only [nextOf] at h
    split at h
    · exact List.mem_cons_of_mem _ (List.mem_of_head? h)
    · exact List.mem_cons_of_mem _ (ih h)

theorem mem_left_of_nextOf {l : List α} {b c : α} (h : nextOf l b = some c) : b ∈ l := by
  induction l with
  | nil => cases h
  | cons x xs ih =>
    simp only [nextOf] at h
    split at h
    · rename_i hx
      exact hx ▸ List.mem_cons_self ..
    · exact List.mem_cons_of_mem _ (ih h)

/-- In a list without repetitions no element comes after itself. -/
theorem nextOf_ne {l : List α} (hl : l.Nodup) {b c : α} (h : nextOf l b = some c) : c ≠ b := by
  rintro rfl
  obtain ⟨xs, ys, rfl⟩ := List.append_of_mem (mem_of_nextOf h)
  have hl := List.nodup_append.mp hl
  rw [nextOf_append_cons fun hb => hl.2.2 c hb c (List.mem_cons_self ..) rfl] at h
  exact (List.nodup_cons.mp hl.2.1).1 (List.mem_of_head? h)

/-- Nothing comes before the first element. -/
theorem nextOf_ne_head {l : List α} (hl : l.Nodup) {a b : α} (h : l.head? = some a) :
    nextOf l b ≠ some a := by
  obtain ⟨xs, rfl⟩ := List.head?_eq_some_iff.mp h
  intro hn
  have ha := (List.nodup_cons.mp hl).1
  rw [nextOf] at hn
  split at hn
  · exact ha (List.mem_of_head? hn)
  · exact ha (mem_of_nextOf hn)

/-- In a search an element comes before the one after it. -/
theorem find?_ne_of_nextOf {l : List α} (hl : l.Nodup) {p : α → Bool} {b c : α}
    (h : nextOf l b = some c) (hb : p b = true) : l.find? p ≠ some c := by
  induction l with
  | nil => cases h
  | cons x xs ih =>
    intro hf
    rw [nextOf] at h
    by_cases hx : x = b
    · rw [List.find?_cons_of_pos (hx ▸ hb)] at hf
      rw [if_pos hx] at h
      exact (List.nodup_cons.mp hl).1 (Option.some.inj hf ▸ List.mem_of_head? h)
    · rw [if_neg hx] at h
      by_cases hp : p x = true
      · rw [List.find?_cons_of_pos hp] at hf
        exact (List.nodup_cons.mp hl).1 (Option.some.inj hf ▸ mem_of_nextOf h)
      · rw [List.find?_cons_of_neg hp] at hf
        exact ih (List.nodup_cons.mp hl).2 h hf

/-- In a list without repetitions an element is found where it stands. -/
theorem idxOf?_of_nodup {l : List α} (h : l.Nodup) {i : Nat} {a : α} (ha : l[i]? = some a) :
    l.idxOf? a = some i := by
  obtain ⟨hi, rfl⟩ := List.getElem?_eq_some_iff.mp ha
  rw [List.idxOf?_eq_some_iff]
  refine ⟨hi, rfl, fun j hj hja => ?_⟩
  have := h.getElem_inj_iff.mp hja
  omega

/-! ## Two lists in turn -/

section

variable {β : Type*}

/-- The elements of two lists in turn, as long as there are both. -/
def weave : List β → List β → List β
  | x :: xs, y :: ys => x :: y :: weave xs ys
  | [], ys => ys
  | xs, [] => xs

@[simp] theorem weave_nil_left (ys : List β) : weave [] ys = ys := by cases ys <;> rfl

@[simp] theorem weave_nil_right (xs : List β) : weave xs [] = xs := by cases xs <;> rfl

@[simp] theorem weave_cons (x y : β) (xs ys : List β) :
    weave (x :: xs) (y :: ys) = x :: y :: weave xs ys := rfl

theorem mem_weave {b : β} {xs ys : List β} : b ∈ weave xs ys ↔ b ∈ xs ∨ b ∈ ys := by
  induction xs generalizing ys with
  | nil => simp
  | cons x xs ih =>
    cases ys with
    | nil => simp
    | cons y ys =>
      simp only [weave_cons, List.mem_cons, ih]
      tauto

theorem filter_weave {p : β → Bool} {xs ys : List β} (hx : ∀ x ∈ xs, p x = false)
    (hy : ∀ y ∈ ys, p y = true) : (weave xs ys).filter p = ys := by
  induction xs generalizing ys with
  | nil => simpa using hy
  | cons x xs ih =>
    cases ys with
    | nil => simpa using hx
    | cons y ys =>
      simp only [List.mem_cons, forall_eq_or_imp] at hx hy
      simp [hx.1, hy.1, ih hx.2 hy.2]

theorem filter_not_weave {p : β → Bool} {xs ys : List β} (hx : ∀ x ∈ xs, p x = false)
    (hy : ∀ y ∈ ys, p y = true) : (weave xs ys).filter (fun b => !p b) = xs := by
  induction xs generalizing ys with
  | nil => simpa using hy
  | cons x xs ih =>
    cases ys with
    | nil => simpa using hx
    | cons y ys =>
      simp only [List.mem_cons, forall_eq_or_imp] at hx hy
      simp [hx.1, hy.1, ih hx.2 hy.2]

theorem head?_weave {xs ys : List β} (h : xs ≠ []) : (weave xs ys).head? = xs.head? := by
  cases xs with
  | nil => exact absurd rfl h
  | cons x xs => cases ys <;> rfl

/-- After the `i`-th element of the one list comes the `i`-th of the other. -/
theorem nextOf_weave_left {xs ys : List α} (h : (weave xs ys).Nodup)
    (hl : xs.length ≤ ys.length + 1) {i : Nat} {x : α} (hx : xs[i]? = some x) :
    nextOf (weave xs ys) x = ys[i]? := by
  induction xs generalizing ys i with
  | nil => simp at hx
  | cons a xs ih =>
    cases ys with
    | nil =>
      obtain rfl : xs = [] := List.eq_nil_of_length_eq_zero (by simpa using hl)
      rw [weave_nil_right, List.getElem?_nil]
      simp [nextOf]
    | cons b ys =>
      simp only [List.length_cons, Nat.add_le_add_iff_right] at hl
      cases i with
      | zero =>
        simp only [List.getElem?_cons_zero, Option.some.injEq] at hx
        simp [nextOf, hx]
      | succ i =>
        simp only [List.getElem?_cons_succ] at hx ⊢
        simp only [weave_cons, List.nodup_cons, List.mem_cons, not_or, mem_weave] at h
        have hax : a ≠ x := fun hax => h.1.2.1 (hax ▸ List.mem_of_getElem? hx)
        have hbx : b ≠ x := fun hbx => h.2.1.1 (hbx ▸ List.mem_of_getElem? hx)
        simp only [weave_cons, nextOf, hax, hbx, if_false]
        exact ih h.2.2 hl hx

/-- And after that the next of the first list. -/
theorem nextOf_weave_right {xs ys : List α} (h : (weave xs ys).Nodup) {i : Nat} {y : α}
    (hl : ys.length ≤ xs.length) (hy : ys[i]? = some y) :
    nextOf (weave xs ys) y = xs[i + 1]? := by
  induction xs generalizing ys i with
  | nil =>
    obtain rfl : ys = [] := List.eq_nil_of_length_eq_zero (Nat.le_zero.mp hl)
    simp at hy
  | cons a xs ih =>
    cases ys with
    | nil => simp at hy
    | cons b ys =>
      simp only [weave_cons, List.nodup_cons, List.mem_cons, not_or, mem_weave] at h
      simp only [List.length_cons, Nat.add_le_add_iff_right] at hl
      cases i with
      | zero =>
        simp only [List.getElem?_cons_zero, Option.some.injEq] at hy
        subst hy
        simp only [weave_cons, nextOf, h.1.1, if_false, if_true, List.getElem?_cons_succ]
        cases xs with
        | nil =>
          obtain rfl : ys = [] := List.eq_nil_of_length_eq_zero (Nat.le_zero.mp hl)
          rfl
        | cons x xs => cases ys <;> rfl
      | succ i =>
        simp only [List.getElem?_cons_succ] at hy ⊢
        have hay : a ≠ y := fun hay => h.1.2.2 (hay ▸ List.mem_of_getElem? hy)
        have hby : b ≠ y := fun hby => h.2.1.2 (hby ▸ List.mem_of_getElem? hy)
        simp only [weave_cons, nextOf, hay, hby, if_false]
        exact ih h.2.2 hl hy

end

/-! ## What follows an element -/

section

variable {β : Type*} {g : β → Option β} {a : β} {l : List β}

/-- Each element, and behind it what `g` gives for it. -/
def followedBy (g : β → Option β) (l : List β) : List β := l.flatMap fun a => a :: (g a).toList

@[simp] theorem followedBy_nil : followedBy g [] = [] := rfl

@[simp] theorem followedBy_cons :
    followedBy g (a :: l) = a :: ((g a).toList ++ followedBy g l) := rfl

theorem mem_followedBy (h : a ∈ l) : a ∈ followedBy g l :=
  List.mem_flatMap.mpr ⟨a, h, List.mem_cons_self ..⟩

theorem followedBy_update [DecidableEq β] (o : Option β) (h : a ∉ l) :
    followedBy (Function.update g a o) l = followedBy g l := by
  unfold followedBy
  refine List.flatMap_congr fun b hb => ?_
  have hne : b ≠ a := fun hba => h (hba ▸ hb)
  rw [Function.update_of_ne hne]

theorem followedBy_cons_update [DecidableEq β] (o : Option β) (h : a ∉ l) :
    followedBy (Function.update g a o) (a :: l) = a :: (o.toList ++ followedBy g l) := by
  rw [followedBy_cons, Function.update_self, followedBy_update o h]

end

end BS
