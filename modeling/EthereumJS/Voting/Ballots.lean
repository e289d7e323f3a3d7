import Mathlib.Data.List.Nodup
import Mathlib.Tactic

/-! # Ballots on candidates

Voters cast ballots on candidates one after the other; of the ballots of a voter on a candidate the
latest one counts. A choice for a candidate has a majority when more than half of the members made
it, and then a list of different voters that made it is long enough.
-/

namespace Voting

structure Ballot (V C χ : Type*) where
  voter : V
  candidate : C
  choice : χ

variable {V C χ : Type*} [DecidableEq V] [DecidableEq C]

/-- The latest choice of a voter on a candidate. -/
def latest (box : List (Ballot V C χ)) (voter : V) (candidate : C) : Option χ :=
  (box.filter fun ballot => ballot.voter = voter ∧ ballot.candidate = candidate).getLast?.map
    Ballot.choice

variable {box : List (Ballot V C χ)} {ballot : Ballot V C χ} {voter : V} {candidate : C}
  {choice : χ}

theorem latest_concat_self :
    latest (box ++ [ballot]) ballot.voter ballot.candidate = some ballot.choice := by
  simp [latest]

theorem latest_concat_of_ne (h : ballot.voter ≠ voter) :
    latest (box ++ [ballot]) voter candidate = latest box voter candidate := by
  simp [latest, h]

theorem exists_mem_of_latest (h : latest box voter candidate = some choice) :
    ∃ ballot ∈ box, ballot.voter = voter ∧ ballot.candidate = candidate ∧
      ballot.choice = choice := by
  obtain ⟨ballot, hlast, hchoice⟩ := Option.map_eq_some_iff.mp h
  have hmem := List.mem_of_getLast? hlast
  rw [List.mem_filter, decide_eq_true_eq] at hmem
  exact ⟨ballot, hmem.1, hmem.2.1, hmem.2.2, hchoice⟩

variable [DecidableEq χ]

def supporters (members : List V) (box : List (Ballot V C χ)) (candidate : C) (choice : χ) :
    List V :=
  members.filter fun voter => latest box voter candidate = some choice

def Majority (members : List V) (box : List (Ballot V C χ)) (candidate : C) (choice : χ) : Prop :=
  members.length < 2 * (supporters members box candidate choice).length

instance (members : List V) (box : List (Ballot V C χ)) (candidate : C) (choice : χ) :
    Decidable (Majority members box candidate choice) :=
  inferInstanceAs (Decidable (_ < _))

/-- With the ballot of a member the supporters are the others that made the choice, and the member
if the ballot makes it. -/
theorem length_supporters_concat (ballot : Ballot V C χ) {members others : List V}
    (hmembers : members.Nodup) (hothers : others.Nodup) (hmember : ballot.voter ∈ members)
    (hmem : ∀ voter, voter ∈ others ↔ voter ≠ ballot.voter ∧ voter ∈ members ∧
      latest box voter ballot.candidate = some choice) :
    (supporters members (box ++ [ballot]) ballot.candidate choice).length =
      others.length + if ballot.choice = choice then 1 else 0 := by
  have hnodup : (supporters members (box ++ [ballot]) ballot.candidate choice).Nodup :=
    hmembers.filter _
  have hself : ballot.voter ∉ others := fun h => ((hmem _).mp h).1 rfl
  have hlatest : ∀ voter, voter ∈ supporters members (box ++ [ballot]) ballot.candidate choice ↔
      voter ∈ others ∨ voter = ballot.voter ∧ ballot.choice = choice := by
    intro voter
    rw [supporters, List.mem_filter, decide_eq_true_eq, hmem]
    by_cases hvoter : voter = ballot.voter
    · subst hvoter
      simp [latest_concat_self, hmember]
    · rw [latest_concat_of_ne (Ne.symm hvoter)]
      simp [hvoter]
  split
  next hchoice =>
    have hperm : (supporters members (box ++ [ballot]) ballot.candidate choice).Perm
        (ballot.voter :: others) := by
      apply (List.perm_ext_iff_of_nodup hnodup (List.nodup_cons.mpr ⟨hself, hothers⟩)).mpr
      intro voter
      rw [hlatest, List.mem_cons]
      simp [hchoice, or_comm]
    rw [hperm.length_eq, List.length_cons]
  next hchoice =>
    have hperm : (supporters members (box ++ [ballot]) ballot.candidate choice).Perm others := by
      apply (List.perm_ext_iff_of_nodup hnodup hothers).mpr
      intro voter
      rw [hlatest]
      simp [hchoice]
    rw [hperm.length_eq, Nat.add_zero]

section Distinct

variable {β : Type*} (f : β → V)

/-- Append what is not in the list yet. -/
def push (seen : List V) (entry : β) : List V :=
  if (seen.filter fun voter => voter = f entry).length = 0 then seen ++ [f entry] else seen

theorem mem_push {seen : List V} {entry : β} :
    voter ∈ push f seen entry ↔ voter ∈ seen ∨ voter = f entry := by
  unfold push
  split
  next h => simp
  next h =>
    rw [List.length_eq_zero_iff, List.filter_eq_nil_iff] at h
    push Not at h
    obtain ⟨other, hother, hsame⟩ := h
    constructor
    · exact .inl
    · rintro (hvoter | rfl)
      · exact hvoter
      · exact of_decide_eq_true hsame ▸ hother

theorem nodup_push {seen : List V} {entry : β} (h : seen.Nodup) : (push f seen entry).Nodup := by
  unfold push
  split
  next hnone =>
    rw [List.length_eq_zero_iff, List.filter_eq_nil_iff] at hnone
    apply List.nodup_append.mpr
    refine ⟨h, List.nodup_singleton _, ?_⟩
    rintro voter hvoter _ hmem heq
    cases List.mem_singleton.mp hmem
    exact hnone voter hvoter (decide_eq_true heq)
  next => exact h

theorem mem_foldl_push {entries : List β} {seen : List V} :
    voter ∈ entries.foldl (push f) seen ↔ voter ∈ seen ∨ ∃ entry ∈ entries, f entry = voter := by
  induction entries generalizing seen with
  | nil => simp
  | cons entry entries ih =>
    rw [List.foldl_cons, ih, mem_push, or_assoc]
    simp [eq_comm]

theorem nodup_foldl_push {entries : List β} {seen : List V} (h : seen.Nodup) :
    (entries.foldl (push f) seen).Nodup := by
  induction entries generalizing seen with
  | nil => exact h
  | cons entry entries ih => exact ih (nodup_push f h)

end Distinct

end Voting
