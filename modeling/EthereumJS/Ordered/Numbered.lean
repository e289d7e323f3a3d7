import Mathlib.Data.List.Basic
import Mathlib.Data.List.Infix
import Mathlib.Data.List.Nodup
import Mathlib.Data.List.Range

/-! # Lists of items with consecutive numbers -/

namespace EthereumJS.Ordered

variable {α β : Type*} {index : α → Nat} {lo : Nat} {l : List α}

/-- The items have the numbers from `lo` on, in this order. -/
def Numbered (index : α → Nat) (lo : Nat) (l : List α) : Prop :=
  l.map index = List.range' lo l.length

/-- The list with `new` in the place of the item of its number. -/
def replace (index : α → Nat) (new : α) (l : List α) : List α :=
  l.map fun old => if index old = index new then new else old

@[simp] theorem numbered_nil : Numbered index lo [] := rfl

theorem numbered_cons {a : α} :
    Numbered index lo (a :: l) ↔ index a = lo ∧ Numbered index (lo + 1) l := by
  simp [Numbered, List.range'_succ]

theorem Numbered.unique (h : Numbered index lo l) {a b : α} (ha : a ∈ l) (hb : b ∈ l)
    (hab : index a = index b) : a = b := by
  apply List.inj_on_of_nodup_map (f := index) _ ha hb hab
  rw [h]
  exact List.nodup_range'

theorem Numbered.bounds (h : Numbered index lo l) {a : α} (ha : a ∈ l) :
    lo ≤ index a ∧ index a < lo + l.length := by
  have hmem : index a ∈ l.map index := List.mem_map_of_mem ha
  rw [h, List.mem_range'_1] at hmem
  exact hmem

theorem Numbered.snoc (h : Numbered index lo l) {a : α} (ha : index a = lo + l.length) :
    Numbered index lo (l ++ [a]) := by
  rw [Numbered, List.map_append, h, List.length_append, List.length_singleton,
    List.range'_concat]
  simp [ha]

theorem Numbered.right {l' : List α} (h : Numbered index lo (l ++ l')) :
    Numbered index (lo + l.length) l' := by
  rw [Numbered, List.map_append, List.length_append, ← List.range'_append_1] at h
  exact (List.append_inj h (by simp)).2

theorem Numbered.drop (h : Numbered index lo l) {n : Nat} (hn : n ≤ l.length) :
    Numbered index (lo + n) (l.drop n) := by
  rw [← List.take_append_drop n l] at h
  simpa [hn] using h.right

theorem Numbered.initial {l' : List α} (h : Numbered index lo l) (hpart : l' <+: l) :
    Numbered index lo l' := by
  obtain ⟨rest, rfl⟩ := hpart
  rw [Numbered, List.map_append, List.length_append, ← List.range'_append_1] at h
  exact (List.append_inj h (by simp)).1

theorem Numbered.exists_of_le (h : Numbered index lo l) {a : α} (ha : a ∈ l) {n : Nat}
    (hlo : lo ≤ n) (hle : n ≤ index a) : ∃ b ∈ l, index b = n := by
  have hbound := (h.bounds ha).2
  have hmem : n ∈ l.map index := by
    rw [h, List.mem_range'_1]
    omega
  exact List.mem_map.mp hmem

/-- An ascending list without gaps is numbered. -/
theorem numbered_of_full (hstrict : l.Pairwise fun a b => index a < index b)
    (hlo : ∀ a ∈ l, lo ≤ index a)
    (hfull : ∀ a ∈ l, ∀ n, lo ≤ n → n ≤ index a → ∃ b ∈ l, index b = n) :
    Numbered index lo l := by
  induction l generalizing lo with
  | nil => exact numbered_nil
  | cons a l ih =>
    rw [List.pairwise_cons] at hstrict
    have hfirst : index a = lo := by
      have hge := hlo a List.mem_cons_self
      obtain ⟨b, hb, hindex⟩ := hfull a List.mem_cons_self lo le_rfl hge
      obtain rfl | hb := List.mem_cons.mp hb
      · exact hindex
      · have hlt := hstrict.1 b hb
        omega
    refine numbered_cons.mpr ⟨hfirst, ih hstrict.2 (fun b hb => ?_) fun b hb n hn hle => ?_⟩
    · have hlt := hstrict.1 b hb
      omega
    · obtain ⟨c, hc, hindex⟩ := hfull b (List.mem_cons_of_mem a hb) n (by omega) hle
      obtain rfl | hc := List.mem_cons.mp hc
      · omega
      · exact ⟨c, hc, hindex⟩

/-- An item of an ascending list whose number is no higher than one of a first part is there. -/
theorem mem_prefix_of_le {l' : List α} (hstrict : l.Pairwise fun a b => index a < index b)
    (hpart : l' <+: l) {a b : α} (ha : a ∈ l') (hb : b ∈ l) (hle : index b ≤ index a) : b ∈ l' := by
  obtain ⟨rest, rfl⟩ := hpart
  obtain hb | hb := List.mem_append.mp hb
  · exact hb
  · have hlt := (List.pairwise_append.mp hstrict).2.2 a ha b hb
    omega

/-- A numbered list of items of an ascending list is its first part, if it begins with the lowest
number. -/
theorem Numbered.prefix_of_subset {run : List α} (h : Numbered index lo run)
    (hstrict : l.Pairwise fun a b => index a < index b) (hlo : ∀ a ∈ l, lo ≤ index a)
    (hsub : run ⊆ l) : run <+: l := by
  induction run generalizing lo l with
  | nil => exact List.nil_prefix
  | cons a run ih =>
    obtain ⟨hfirst, hrest⟩ := numbered_cons.mp h
    have ha := hsub List.mem_cons_self
    cases l with
    | nil => cases ha
    | cons b l =>
      rw [List.pairwise_cons] at hstrict
      obtain rfl | ha := List.mem_cons.mp ha
      · refine List.cons_prefix_cons.mpr ⟨rfl, ih hrest hstrict.2 (fun c hc => ?_) fun c hc => ?_⟩
        · have hlt := hstrict.1 c hc
          omega
        · obtain rfl | hmem := List.mem_cons.mp (hsub (List.mem_cons_of_mem a hc))
          · have hbound := (hrest.bounds hc).1
            omega
          · exact hmem
      · have hlt := hstrict.1 a ha
        have hge := hlo b List.mem_cons_self
        omega

/-- An item that comes first among those with a property, and has no number over `lo`, is the
first item. -/
theorem Numbered.find_first (h : Numbered index lo l) {p : α → Bool} {a : α}
    (ha : l.find? p = some a) (hle : index a ≤ lo) : ∃ rest, l = a :: rest ∧ l.eraseP p = rest := by
  cases l with
  | nil => simp at ha
  | cons b rest =>
    obtain ⟨hb, hrest⟩ := numbered_cons.mp h
    cases hp : p b with
    | true =>
      rw [List.find?_cons_of_pos hp] at ha
      obtain rfl := Option.some.inj ha
      exact ⟨rest, rfl, by simp [hp]⟩
    | false =>
      rw [List.find?_cons_of_neg (by simp [hp])] at ha
      have hbound := (hrest.bounds (List.mem_of_find?_eq_some ha)).1
      omega

section Replace

variable {old new : α}

@[simp] theorem length_replace : (replace index new l).length = l.length := List.length_map _

theorem Numbered.mem_replace (h : Numbered index lo l) (hold : old ∈ l)
    (hindex : index new = index old) {a : α} :
    a ∈ replace index new l ↔ a = new ∨ a ∈ l ∧ a ≠ old := by
  simp only [replace, List.mem_map, hindex]
  constructor
  · rintro ⟨b, hb, rfl⟩
    split
    · exact .inl rfl
    · next hne => exact .inr ⟨hb, fun heq => hne (by rw [heq])⟩
  · rintro (rfl | ⟨ha, hne⟩)
    · exact ⟨old, hold, by simp⟩
    · refine ⟨a, ha, if_neg fun heq => hne ?_⟩
      exact h.unique ha hold heq

/-- What `new` has in common with the item whose place it takes stays as it is. -/
theorem Numbered.map_replace (h : Numbered index lo l) (hold : old ∈ l)
    (hindex : index new = index old) {f : α → β} (hf : f new = f old) :
    (replace index new l).map f = l.map f := by
  rw [replace, List.map_map]
  apply List.map_congr_left
  intro a ha
  rw [Function.comp_apply]
  split
  · next heq => rw [hf, h.unique ha hold (heq.trans hindex)]
  · rfl

theorem Numbered.replace (h : Numbered index lo l) (hold : old ∈ l)
    (hindex : index new = index old) : Numbered index lo (replace index new l) := by
  rw [Numbered, h.map_replace hold hindex hindex, length_replace]
  exact h

end Replace

end EthereumJS.Ordered
