import EthereumJS.Common.ForkChecksum

/-! # Where a fork stands

The fork point that a fork of a schedule has reached, the fork hash at it, and what the look-ups
by name and by hash find in a schedule that is split at a fork.
-/

namespace EthereumJS.ForkId

open RLP HardforkSchedule

section Levels

/-- The last of some points, zero before all of them. -/
def lastPoint (points : List Nat) : Nat := points.getLast?.getD 0

/-- The fork point that is reached with a fork. -/
def level (hfs : List ForkTransition) (hf : ForkTransition) : Nat :=
  lastPoint (points (upTo hf.name hfs))

/-- The fork hash at a point. -/
def hashAt (genesisHash : Bytes) (hfs : List ForkTransition) (p : Nat) : Bytes :=
  checksumBytes genesisHash ((points hfs).filter (· ≤ p))

/-- The points that the scheduled forks have reached. -/
def levels (hfs : List ForkTransition) : Set Nat :=
  { p | ∃ hf ∈ hfs, hf.blockOrTimestamp ≠ none ∧ level hfs hf = p }

end Levels

section Sorted

variable {a b : List Nat} {p : Nat}

theorem lastPoint_mem (h : a ≠ []) : lastPoint a ∈ a := by
  rw [lastPoint, List.getLast?_eq_some_getLast h]
  exact List.getLast_mem h

theorem lastPoint_concat (a : List Nat) (p : Nat) : lastPoint (a ++ [p]) = p := by
  rw [lastPoint, List.getLast?_concat]
  rfl

theorem le_lastPoint (h : a.Pairwise (· ≤ ·)) (hp : p ∈ a) : p ≤ lastPoint a := by
  have hne := List.ne_nil_of_mem hp
  rw [lastPoint, List.getLast?_eq_some_getLast hne]
  rw [← List.dropLast_append_getLast hne, List.pairwise_append] at h
  rw [← List.dropLast_append_getLast hne, List.mem_append, List.mem_singleton] at hp
  obtain hp | rfl := hp
  · exact h.2.2 p hp _ (List.mem_singleton_self _)
  · exact Nat.le_refl _

theorem lastPoint_le_append (h : (a ++ b).Pairwise (· ≤ ·)) : lastPoint a ≤ lastPoint (a ++ b) := by
  by_cases hne : a = []
  · subst hne
    exact Nat.zero_le _
  · exact le_lastPoint h (List.mem_append_left b (lastPoint_mem hne))

/-- What lies behind the last point of a part changes nothing up to that point. -/
theorem hashedPoints_filter (h : (a ++ b).Pairwise (· ≤ ·)) :
    hashedPoints ((a ++ b).filter (· ≤ lastPoint a)) = hashedPoints a := by
  obtain ⟨ha, hb, hab⟩ := List.pairwise_append.mp h
  have hall : a.filter (· ≤ lastPoint a) = a :=
    List.filter_eq_self.mpr fun p hp => decide_eq_true (le_lastPoint ha hp)
  rw [hashedPoints, List.filter_append, hall, List.filter_append, List.eraseDups_append,
    hashedPoints]
  have hnone : (((b.filter (· ≤ lastPoint a)).filter (· ≠ 0)).removeAll (a.filter (· ≠ 0))) =
      [] := by
    rw [List.removeAll, List.filter_eq_nil_iff]
    intro p hp
    rw [List.mem_filter, List.mem_filter] at hp
    obtain ⟨⟨hmem, hle⟩, hpos⟩ := hp
    have hle := of_decide_eq_true hle
    have hpos := of_decide_eq_true hpos
    have hne : a ≠ [] := by
      rintro rfl
      exact hpos (Nat.le_zero.mp hle)
    have heq : p = lastPoint a := Nat.le_antisymm hle (hab _ (lastPoint_mem hne) p hmem)
    have hin : p ∈ a.filter (· ≠ 0) :=
      List.mem_filter.mpr ⟨heq ▸ lastPoint_mem hne, decide_eq_true hpos⟩
    simpa using hin
  rw [hnone, List.eraseDups_nil, List.append_nil]

end Sorted

section Split

variable {pre post hfs : List ForkTransition} {hf other : ForkTransition}

theorem upTo_split (hnames : ((pre ++ hf :: post).map fun hf => hf.name).Nodup) :
    upTo hf.name (pre ++ hf :: post) = pre ++ [hf] := by
  induction pre with
  | nil => rw [List.nil_append, upTo, if_pos rfl, List.nil_append]
  | cons first pre ih =>
    rw [List.cons_append, List.map_cons, List.nodup_cons] at hnames
    have hne : first.name ≠ hf.name := by
      intro heq
      apply hnames.1
      rw [heq]
      exact List.mem_map_of_mem (List.mem_append_right pre List.mem_cons_self)
    rw [List.cons_append, upTo, if_neg hne, ih hnames.2, List.cons_append]

theorem points_split (pre post : List ForkTransition) (hf : ForkTransition) :
    points (pre ++ hf :: post) = points (pre ++ [hf]) ++ points post := by
  rw [← points_append, List.append_assoc, List.singleton_append]

variable (hs : ForkSchedule (pre ++ hf :: post))

include hs

theorem level_split : level (pre ++ hf :: post) hf = lastPoint (points (pre ++ [hf])) := by
  rw [level, upTo_split hs.names]

theorem hashAt_level (genesisHash : Bytes) :
    hashAt genesisHash (pre ++ hf :: post) (level (pre ++ hf :: post) hf) =
      checksumBytes genesisHash (points (upTo hf.name (pre ++ hf :: post))) := by
  have hordered := hs.ordered
  rw [points_split] at hordered
  rw [hashAt, level_split hs, upTo_split hs.names, points_split pre post, checksumBytes,
    forkChecksum, hashedPoints_filter hordered, checksumBytes, forkChecksum]

/-- The points up to a fork do not pass its level. -/
theorem le_level {p : Nat} (hp : p ∈ points (pre ++ [hf])) : p ≤ level (pre ++ hf :: post) hf := by
  have hordered := hs.ordered
  rw [points_split] at hordered
  rw [level_split hs]
  exact le_lastPoint (List.pairwise_append.mp hordered).1 hp

omit hs in
/-- A fork behind another one has not reached less. -/
theorem level_mono (hs : ForkSchedule (pre ++ hf :: post)) (hother : other ∈ post) :
    level (pre ++ hf :: post) hf ≤ level (pre ++ hf :: post) other := by
  obtain ⟨mid, rest, rfl⟩ := List.append_of_mem hother
  have hsplit : pre ++ hf :: (mid ++ other :: rest) = (pre ++ hf :: mid) ++ other :: rest := by
    rw [List.append_assoc, List.cons_append]
  have hprefix : points ((pre ++ hf :: mid) ++ [other]) =
      points (pre ++ [hf]) ++ points (mid ++ [other]) := by
    rw [← points_append]
    simp
  rw [level_split hs, hsplit]
  rw [hsplit] at hs
  have hordered := hs.ordered
  rw [points_split, hprefix] at hordered
  rw [level_split hs, hprefix]
  exact lastPoint_le_append (List.pairwise_append.mp hordered).1

theorem level_of_point {p : Nat} (hpoint : forkPoint hf = some p) :
    level (pre ++ hf :: post) hf = p := by
  rw [level_split hs, points_append, points_cons_some hpoint]
  exact lastPoint_concat (points pre) p

theorem level_of_no_point (hpoint : forkPoint hf = none) :
    level (pre ++ hf :: post) hf = lastPoint (points pre) := by
  rw [level_split hs, points_append, points_cons_none hpoint]
  exact congrArg lastPoint (List.append_nil _)

end Split

section Lookup

variable {chain : ForkConfig} {pre post mid rest : List ForkTransition}
  {hf other next : ForkTransition} {hash : HexString}

/-- The last of the forks with a hash. -/
theorem hardforkForForkHash_split (hsplit : chain.transitions = pre ++ hf :: post)
    (hhash : hf.forkHash = some hash) (hpost : ∀ other ∈ post, other.forkHash ≠ some hash) :
    hardforkForForkHash chain hash = some hf := by
  have hnone : (post.filter fun hf => hf.forkHash = some hash) = [] := by
    rw [List.filter_eq_nil_iff]
    intro other hother
    simpa using hpost other hother
  rw [hardforkForForkHash, hsplit, List.filter_append,
    List.filter_cons_of_pos (by simpa using hhash), hnone, List.getLast?_concat]

theorem hardforkForForkHash_cases (chain : ForkConfig) (hash : HexString) :
    (hardforkForForkHash chain hash = none ∧ ∀ hf ∈ chain.transitions, hf.forkHash ≠ some hash) ∨
      ∃ pre hf post, chain.transitions = pre ++ hf :: post ∧ hf.forkHash = some hash ∧
        (∀ other ∈ post, other.forkHash ≠ some hash) ∧
        hardforkForForkHash chain hash = some hf := by
  cases hfind : chain.transitions.reverse.find? fun hf => hf.forkHash = some hash with
  | none =>
    left
    rw [List.find?_eq_none] at hfind
    have hall : ∀ hf ∈ chain.transitions, hf.forkHash ≠ some hash := fun hf hmem => by
      simpa using hfind hf (List.mem_reverse.mpr hmem)
    refine ⟨?_, hall⟩
    rw [hardforkForForkHash, List.filter_eq_nil_iff.mpr fun hf hmem => by simpa using hall hf hmem]
    rfl
  | some hf =>
    right
    obtain ⟨hhash, post, pre, hsplit, hpost⟩ := List.find?_eq_some_iff_append.mp hfind
    have hsplit' : chain.transitions = pre.reverse ++ hf :: post.reverse := by
      rw [← List.reverse_reverse chain.transitions, hsplit]
      simp
    have hall : ∀ other ∈ post.reverse, other.forkHash ≠ some hash := fun other hmem => by
      simpa using hpost other (List.mem_reverse.mp hmem)
    have hhash := of_decide_eq_true hhash
    exact ⟨pre.reverse, hf, post.reverse, hsplit', hhash, hall,
      hardforkForForkHash_split hsplit' hhash hall⟩

theorem position_of_not_mem {name : String} {hfs : List ForkTransition}
    (h : name ∉ hfs.map fun hf => hf.name) (index pos : Int) :
    position name hfs index pos = pos := by
  induction hfs generalizing index pos with
  | nil => rfl
  | cons hf hfs ih =>
    rw [List.map_cons, List.mem_cons, not_or] at h
    rw [position, if_neg (Ne.symm h.1), ih h.2]

/-- Each name is found where its fork stands. -/
theorem position_split (hnames : ((pre ++ hf :: post).map fun hf => hf.name).Nodup)
    (index pos : Int) : position hf.name (pre ++ hf :: post) index pos = index + pre.length := by
  induction pre generalizing index pos with
  | nil =>
    rw [List.nil_append, List.map_cons, List.nodup_cons] at hnames
    rw [List.nil_append, position, if_pos rfl, position_of_not_mem hnames.1]
    exact (Int.add_zero index).symm
  | cons first pre ih =>
    rw [List.cons_append, List.map_cons, List.nodup_cons] at hnames
    rw [List.cons_append, position, ih hnames.2, List.length_cons]
    push_cast
    ring

/-- A fork is not older than another one unless that one stands behind it. -/
theorem hardforkGteHardfork_split (hnames : (chain.transitions.map fun hf => hf.name).Nodup)
    (hsplit : chain.transitions = pre ++ hf :: post) (hother : other ∈ chain.transitions) :
    hardforkGteHardfork chain hf.name other.name ↔ other ∉ post := by
  obtain ⟨before, after, hsplit'⟩ := List.append_of_mem hother
  have hpos := hsplit ▸ hnames
  have hpos' := hsplit' ▸ hnames
  have hplace := position_split hpos 0 (-1)
  have hplace' := position_split hpos' 0 (-1)
  rw [← hsplit] at hplace
  rw [← hsplit'] at hplace'
  have hiff : hardforkGteHardfork chain hf.name other.name ↔ before.length ≤ pre.length := by
    rw [hardforkGteHardfork, hplace, hplace', decide_eq_true_eq]
    omega
  rw [hiff]
  have hnodup : chain.transitions.Nodup := List.Nodup.of_map _ hnames
  have hindex : chain.transitions[before.length]? = some other := by
    rw [hsplit', List.getElem?_append_right (Nat.le_refl _), Nat.sub_self]
    rfl
  constructor
  · intro hle hmem
    obtain ⟨i, hi⟩ := List.mem_iff_getElem?.mp hmem
    have hlater : chain.transitions[pre.length + 1 + i]? = some other := by
      rw [hsplit, List.getElem?_append_right (by omega),
        show pre.length + 1 + i - pre.length = i + 1 by omega, List.getElem?_cons_succ, hi]
    have hlt := (List.getElem?_eq_some_iff.mp hindex).1
    have hsame := (List.getElem?_inj hlt hnodup).mp (hindex.trans hlater.symm)
    omega
  · intro hnot
    by_contra hlt
    apply hnot
    have hdrop : post[before.length - pre.length - 1]? = some other := by
      rw [← hindex, hsplit, List.getElem?_append_right (by omega),
        ← List.getElem?_cons_succ (a := hf)]
      congr 1
      omega
    exact List.mem_of_getElem? hdrop

theorem findIdx?_name (hnames : ((pre ++ hf :: post).map fun hf => hf.name).Nodup) :
    (pre ++ hf :: post).findIdx? (fun other => other.name = hf.name) = some pre.length := by
  induction pre with
  | nil => rw [List.nil_append, List.findIdx?_cons, if_pos (decide_eq_true rfl), List.length_nil]
  | cons first pre ih =>
    rw [List.cons_append, List.map_cons, List.nodup_cons] at hnames
    have hne : first.name ≠ hf.name := by
      intro heq
      apply hnames.1
      rw [heq]
      exact List.mem_map_of_mem (List.mem_append_right pre List.mem_cons_self)
    rw [List.cons_append, List.findIdx?_cons, if_neg (by simpa using hne), ih hnames.2]
    rfl

/-- The search for the next point steps over the forks that are not scheduled. -/
theorem find?_next {value current : Timestamp} (hmid : ∀ hf ∈ mid, hf.blockOrTimestamp = none)
    (hnext : next.blockOrTimestamp = some value) (hne : value ≠ current) :
    ((mid ++ next :: rest).find? fun hf =>
      hf.blockOrTimestamp ≠ none ∧ hf.blockOrTimestamp ≠ some current) = some next := by
  rw [List.find?_eq_some_iff_append]
  refine ⟨?_, mid, rest, rfl, ?_⟩
  · rw [hnext]
    simpa using hne
  · intro hf hmem
    simp [hmid hf hmem]

/-- The search starts behind the fork at the target index. -/
theorem nextHardfork_of_target {name : String}
    (htarget : targetHfIndex chain.transitions name = some pre.length)
    (hsplit : chain.transitions = pre ++ hf :: post) :
    nextHardforkBlockOrTimestamp chain name = hf.blockOrTimestamp.bind fun current =>
      ((post.find? fun hf =>
        hf.blockOrTimestamp ≠ none ∧ hf.blockOrTimestamp ≠ some current).bind
          ForkTransition.blockOrTimestamp).map Timestamp.toBigInt := by
  have hget : chain.transitions[pre.length]? = some hf := by
    rw [hsplit, List.getElem?_append_right (Nat.le_refl _), Nat.sub_self]
    rfl
  have hdrop : chain.transitions.drop (pre.length + 1) = post := by
    rw [hsplit, ← List.drop_drop, List.drop_left]
    rfl
  rw [nextHardforkBlockOrTimestamp, htarget]
  dsimp only
  rw [hget, hdrop, Option.bind_some]
  cases hf.blockOrTimestamp with
  | none => rfl
  | some current => rfl

/-- The next point behind a fork, where the forks between are not scheduled. -/
theorem nextHardfork_split {value current : Timestamp}
    (hnames : (chain.transitions.map fun hf => hf.name).Nodup)
    (hsplit : chain.transitions = pre ++ hf :: (mid ++ next :: rest)) (hname : hf.name ≠ paris)
    (hcurrent : hf.blockOrTimestamp = some current) (hmid : ∀ hf ∈ mid, hf.blockOrTimestamp = none)
    (hnext : next.blockOrTimestamp = some value) (hne : value ≠ current) :
    nextHardforkBlockOrTimestamp chain hf.name = some value.toBigInt := by
  have htarget : targetHfIndex chain.transitions hf.name = some pre.length := by
    rw [targetHfIndex, hsplit, findIdx?_name (hsplit ▸ hnames)]
    exact if_neg hname
  rw [nextHardfork_of_target htarget hsplit, hcurrent, Option.bind_some,
    find?_next hmid hnext hne, Option.bind_some, hnext]
  rfl

theorem nextHardfork_merge_first (hsplit : chain.transitions = hf :: post)
    (hname : hf.name = paris) : nextHardforkBlockOrTimestamp chain hf.name = none := by
  have htarget : targetHfIndex chain.transitions hf.name = none := by
    rw [targetHfIndex, hsplit, List.findIdx?_cons, if_pos (decide_eq_true rfl)]
    exact (if_pos hname).trans (if_pos rfl)
  rw [nextHardforkBlockOrTimestamp, htarget]

/-- The search for the point behind the merge starts from the fork before it and meets the merge
itself first. -/
theorem nextHardfork_merge {before : ForkTransition} {value time : Timestamp}
    (hnames : (chain.transitions.map fun hf => hf.name).Nodup)
    (hsplit : chain.transitions = pre ++ before :: hf :: (mid ++ next :: rest))
    (hname : hf.name = paris) (htime : hf.blockOrTimestamp = some time)
    (hmid : ∀ hf ∈ mid, hf.blockOrTimestamp = none) (hnext : next.blockOrTimestamp = some value)
    (hne : before.blockOrTimestamp ≠ some value) :
    nextHardforkBlockOrTimestamp chain hf.name = before.blockOrTimestamp.map fun current =>
      if time = current then value.toBigInt else time.toBigInt := by
  have hsplit' : chain.transitions = (pre ++ [before]) ++ hf :: (mid ++ next :: rest) := by
    rw [hsplit, List.append_assoc, List.singleton_append]
  have htarget : targetHfIndex chain.transitions hf.name = some pre.length := by
    rw [targetHfIndex, hsplit', findIdx?_name (hsplit' ▸ hnames), List.length_append,
      List.length_singleton]
    exact (if_pos hname).trans (if_neg (Nat.succ_ne_zero _))
  rw [nextHardfork_of_target htarget hsplit]
  cases hbefore : before.blockOrTimestamp with
  | none => rfl
  | some current =>
    rw [hbefore] at hne
    rw [Option.bind_some, Option.map_some]
    by_cases hsame : time = current
    · subst hsame
      rw [List.find?_cons_of_neg (by simp [htime]),
        find?_next hmid hnext fun heq => hne (heq ▸ rfl), Option.bind_some, hnext, if_pos rfl]
      rfl
    · rw [List.find?_cons_of_pos (by simpa [htime] using hsame), Option.bind_some, htime,
        if_neg hsame]
      rfl

end Lookup

end EthereumJS.ForkId
