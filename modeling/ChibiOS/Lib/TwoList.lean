import Mathlib.Data.List.Basic

/-!
# A text with a cursor as two lists

The text left of the cursor and the text right of it, each in reading order. A key
works where the two lists meet. A text kept in one piece with the place of its
cursor is the same thing: `split` takes it apart, and every edit of the text is the
key of the two lists.
-/

namespace ChibiOS.Lib

universe u

/-- The text left of the cursor and the text right of it. -/
structure TwoList (α : Type u) where
  left : List α
  right : List α
  deriving DecidableEq

/-- The keys of an editor of one line. -/
inductive EditKey (α : Type u)
  | insert (c : α)
  | backspace
  | delete
  | left
  | right
  | home
  | last

namespace TwoList

variable {α : Type u}

/-- One key, in a line of at most `room` characters. -/
def press (room : Nat) (k : EditKey α) (t : TwoList α) : TwoList α :=
  match k with
  | .insert c => if t.left.length + t.right.length < room then ⟨t.left ++ [c], t.right⟩ else t
  | .backspace => ⟨t.left.dropLast, t.right⟩
  | .delete => ⟨t.left, t.right.tail⟩
  | .left => ⟨t.left.dropLast, t.left.getLast?.toList ++ t.right⟩
  | .right => ⟨t.left ++ t.right.head?.toList, t.right.tail⟩
  | .home => ⟨[], t.left ++ t.right⟩
  | .last => ⟨t.left ++ t.right, []⟩

/-- A text, taken apart at its cursor. -/
def split (text : List α) (p : Nat) : TwoList α := ⟨text.take p, text.drop p⟩

variable {text : List α} {p room : Nat}

theorem split_length (text : List α) (p : Nat) : (split text p).left.length + (split text p).right.length = text.length := by
  rw [← List.length_append]
  simp only [split, List.take_append_drop]

theorem split_insert (le : p ≤ text.length) (less : text.length < room) (c : α) :
    split (text.take p ++ c :: text.drop p) (p + 1) = (split text p).press room (.insert c) := by
  have length : (text.take p ++ [c]).length = p + 1 := by
    rw [List.length_append, List.length_take_of_le le, List.length_singleton]
  rw [press, if_pos (by rw [split_length]; exact less)]
  simp only [split]
  rw [List.append_cons, List.take_left' length, List.drop_left' length]

/-- No room is left. -/
theorem split_full (full : room ≤ text.length) (c : α) : split text p = (split text p).press room (.insert c) := by
  rw [press, if_neg (by rw [split_length]; omega)]

theorem split_delete (room : Nat) (text : List α) (p : Nat) : split (text.eraseIdx p) p = (split text p).press room .delete := by
  simp only [split, press]
  rw [List.eraseIdx_eq_take_drop_succ, List.tail_drop]
  rcases Nat.lt_or_ge p text.length with inside | outside
  · have length : (text.take p).length = p := List.length_take_of_le (Nat.le_of_lt inside)
    rw [List.take_left' length, List.drop_left' length]
  · simp only [List.take_of_length_le outside, List.drop_of_length_le (Nat.le_succ_of_le outside),
      List.drop_of_length_le outside, List.append_nil]

theorem split_pred_left (le : p ≤ text.length) : text.take (p - 1) = (text.take p).dropLast := by
  rw [List.dropLast_eq_take, List.length_take_of_le le, List.take_take, Nat.min_eq_left (Nat.sub_le p 1)]

theorem split_left (room : Nat) (le : p ≤ text.length) : split text (p - 1) = (split text p).press room .left := by
  simp only [split, press]
  rw [split_pred_left le]
  cases p with
  | zero => rw [List.take_zero]; rfl
  | succ p =>
    have inside : p < text.length := le
    rw [Nat.add_sub_cancel, List.drop_eq_getElem_cons inside, List.take_add_one, List.getElem?_eq_getElem inside,
      Option.toList_some, List.getLast?_append_of_ne_nil _ (List.cons_ne_nil _ _)]
    rfl

theorem split_backspace (room : Nat) (le : p ≤ text.length) (positive : 0 < p) :
    split (text.eraseIdx (p - 1)) (p - 1) = (split text p).press room .backspace := by
  rw [split_delete room text (p - 1)]
  simp only [split, press]
  rw [split_pred_left le, List.tail_drop, Nat.sub_add_cancel positive]

theorem split_right (room : Nat) (text : List α) (p : Nat) : split text (p + 1) = (split text p).press room .right := by
  simp only [split, press]
  rw [List.take_add_one, List.head?_drop, List.tail_drop]

theorem split_home (room : Nat) (text : List α) (p : Nat) : split text 0 = (split text p).press room .home := by
  simp only [split, press]
  rw [List.take_append_drop, List.take_zero, List.drop_zero]

theorem split_last (room : Nat) (text : List α) (p : Nat) : split text text.length = (split text p).press room .last := by
  simp only [split, press]
  rw [List.take_append_drop, List.take_length, List.drop_length]

end TwoList

end ChibiOS.Lib
