import Mathlib.Data.List.DropRight
import Mathlib.Tactic

/-! # The latest entries of a list

A list that is appended to and cut to its last `n` entries is a window on all that was appended.
When two windows get the same entries, they agree from then on, or they show what differs.
-/

namespace Window

variable {α : Type*}

theorem rtake_append (n : Nat) (front back : List α) :
    (front ++ back).rtake n = front.rtake (n - back.length) ++ back.rtake n := by
  simp only [List.rtake_eq_reverse_take_reverse, List.reverse_append, List.take_append,
    List.length_reverse]

theorem rtake_of_length_le {n : Nat} {l : List α} (h : l.length ≤ n) : l.rtake n = l := by
  rw [List.rtake_eq_reverse_take_reverse, List.take_of_length_le (by simpa using h),
    List.reverse_reverse]

theorem rtake_eq_ite (n : Nat) (l : List α) :
    l.rtake n = if n < l.length then l.drop (l.length - n) else l := by
  split
  · rfl
  · exact rtake_of_length_le (by omega)

theorem length_rtake (n : Nat) (l : List α) : (l.rtake n).length = min n l.length := by
  simp [List.rtake_eq_reverse_take_reverse]

theorem mem_of_mem_rtake {n : Nat} {l : List α} {x : α} (h : x ∈ l.rtake n) : x ∈ l :=
  List.mem_of_mem_drop h

theorem rtake_rtake (n m : Nat) (l : List α) : (l.rtake m).rtake n = l.rtake (min n m) := by
  simp [List.rtake_eq_reverse_take_reverse, List.take_take]

theorem rtake_eq_nil {n : Nat} {l : List α} : l.rtake n = [] ↔ n = 0 ∨ l = [] := by
  rw [← List.length_eq_zero_iff, length_rtake, ← List.length_eq_zero_iff]
  omega

theorem getLast?_rtake {n : Nat} {l : List α} (h : n ≠ 0) : (l.rtake n).getLast? = l.getLast? := by
  simp [List.rtake_eq_reverse_take_reverse, List.head?_take, h]

/-- Cutting before more is appended makes no difference. -/
theorem rtake_rtake_append (n : Nat) (front back : List α) :
    (front.rtake n ++ back).rtake n = (front ++ back).rtake n := by
  rw [rtake_append, rtake_append, rtake_rtake, min_eq_left (by omega)]

/-- After new entries two windows are the same, when these fill them or they were the same. -/
theorem rtake_append_inj {n : Nat} {front front' back : List α} :
    (front ++ back).rtake n = (front' ++ back).rtake n ↔
      front.rtake (n - back.length) = front'.rtake (n - back.length) := by
  rw [rtake_append, rtake_append, List.append_cancel_right_eq]

end Window
