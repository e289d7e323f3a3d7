import Mathlib.Data.Set.Basic
import EthereumJS.Blockchain.Put

/-! # The canonical index

Over headers of which no two have one hash, the index from the genesis block to a height holds
stored headers, each the child of the one below. Every rewriting of the index keeps this and
only moves the height.
-/

namespace EthereumJS

open Overlay BlockchainM

/-- No two of these headers have the same hash. -/
def DistinctHashes (headers : Set BlockHeader) : Prop :=
  ∀ header₁ ∈ headers, ∀ header₂ ∈ headers, header₁.hash = header₂.hash → header₁ = header₂

structure Indexed (headers : Set BlockHeader) (db : ChainDB) (height : Nat) : Prop where
  stored : ∀ n hash header, db.header n hash = some header →
    header ∈ headers ∧ db.hashToNumber hash = some n
  index : ∀ n, (db.numberToHash n).isSome ↔ n ≤ height
  canonical : ∀ n hash, db.numberToHash n = some hash → (db.header n hash).isSome
  link : ∀ n hash header, db.numberToHash (n + 1) = some hash →
    db.header (n + 1) hash = some header → db.numberToHash n = some header.parentHash
  genesis : ∀ hash, (db.header 0 hash).isSome → db.numberToHash 0 = some hash

section Indexed

variable {headers : Set BlockHeader} {db : ChainDB} {height : Nat}

theorem Indexed.number_eq (hdb : Indexed headers db height) {n m : Nat} {hash : Hash}
    (hn : db.numberToHash n = some hash) (hm : db.numberToHash m = some hash) : n = m := by
  obtain ⟨header, hheader⟩ := Option.isSome_iff_exists.mp (hdb.canonical n hash hn)
  obtain ⟨header', hheader'⟩ := Option.isSome_iff_exists.mp (hdb.canonical m hash hm)
  have h := (hdb.stored n hash header hheader).2
  rw [(hdb.stored m hash header' hheader').2] at h
  exact (Option.some.inj h).symm

theorem Indexed.some_of_le (hdb : Indexed headers db height) {n : Nat} (hn : n ≤ height) :
    ∃ hash, db.numberToHash n = some hash :=
  Option.isSome_iff_exists.mp ((hdb.index n).mpr hn)

theorem Indexed.le_of_some (hdb : Indexed headers db height) {n : Nat} {hash : Hash}
    (hn : db.numberToHash n = some hash) : n ≤ height := by
  apply (hdb.index n).mp
  rw [hn]
  rfl

theorem Indexed.none_of_lt (hdb : Indexed headers db height) {n : Nat} (hn : height < n) :
    db.numberToHash n = none := by
  rw [← Option.not_isSome_iff_eq_none, hdb.index n]
  omega

theorem Indexed.mem_above_iff (hdb : Indexed headers db height) {n k : Nat} {hash : Hash} :
    (k, hash) ∈ above db n ↔ n ≤ k ∧ db.numberToHash k = some hash := by
  rw [mem_above]
  constructor
  · rintro ⟨hk, hhash, -⟩
    exact ⟨hk, hhash⟩
  · rintro ⟨hk, hhash⟩
    refine ⟨hk, hhash, fun j _ hj => (hdb.index j).mpr ?_⟩
    have := hdb.le_of_some hhash
    omega

/-- A head is moved off the entries from a number on. -/
theorem Indexed.moveHead_of_mem (hdb : Indexed headers db height) {entries : List (Nat × Hash)}
    {n k : Nat} {hash headHash : Hash}
    (hentries : ∀ k hash, (k, hash) ∈ entries ↔ n ≤ k ∧ db.numberToHash k = some hash)
    (hk : db.numberToHash k = some hash) :
    moveHead headHash entries hash = if n ≤ k then headHash else hash := by
  rw [moveHead_eq]
  congr 1
  rw [eq_iff_iff, List.mem_map]
  constructor
  · rintro ⟨⟨m, hash'⟩, hmem, rfl⟩
    obtain ⟨hle, hm⟩ := (hentries m hash').mp hmem
    rw [hdb.number_eq hk hm]
    exact hle
  · intro hle
    exact ⟨(k, hash), (hentries k hash).mpr ⟨hle, hk⟩, rfl⟩

theorem Indexed.moveHead_above (hdb : Indexed headers db height) {n k : Nat} {hash headHash : Hash}
    (hk : db.numberToHash k = some hash) :
    moveHead headHash (above db n) hash = if n ≤ k then headHash else hash :=
  hdb.moveHead_of_mem (fun _ _ => hdb.mem_above_iff) hk

end Indexed

section TakeOver

variable {headers : Set BlockHeader} {db : ChainDB} {height : Nat} {item : BlockItem}
  {path : List BlockHeader} {ancestor : BlockHeader}

theorem Rebuilds.mem_headers (hdb : Indexed headers db height) (hitem : item.header ∈ headers)
    (hpath : Rebuilds db item.header.number item.header path ancestor) {header : BlockHeader}
    (hmem : header ∈ path ∨ header = ancestor) : header ∈ headers := by
  rcases hpath.stored hmem with rfl | hstored
  · exact hitem
  · exact (hdb.stored _ _ _ hstored).1

theorem Rebuilds.ancestor_index (hdb : Indexed headers db height) (hnumber : item.header.number ≠ 0)
    (hpath : Rebuilds db item.header.number item.header path ancestor) :
    db.numberToHash ancestor.number = some ancestor.hash := by
  rcases hpath.ancestor_canonical rfl with hcanonical | hzero
  · exact hcanonical
  · rcases hpath.stored (.inr rfl) with rfl | hstored
    · exact absurd hzero hnumber
    · rw [hzero] at hstored ⊢
      apply hdb.genesis
      rw [hstored]
      rfl

theorem takeOver_le (hpath : Rebuilds db item.header.number item.header path ancestor) {k : Nat}
    (hk : k ≤ ancestor.number) :
    (db.batch (canonicalOps db item path)).numberToHash k = db.numberToHash k := by
  rw [ChainDB.batch_numberToHash, canonicalOps_toNumberToHash]
  have hle := hpath.ancestor_le rfl
  rw [latestWrite_eq_none_iff.mpr]
  · rfl
  · intro w hw
    rcases List.mem_append.mp hw with hw | hw
    · obtain ⟨⟨m, hash⟩, hentry, rfl⟩ := List.mem_map.mp hw
      have := (mem_above.mp hentry).1
      dsimp only
      omega
    · obtain ⟨header, hheader, rfl⟩ := List.mem_map.mp hw
      have := hpath.number_le rfl hheader
      dsimp only
      omega

theorem takeOver_mem (hpath : Rebuilds db item.header.number item.header path ancestor)
    {header : BlockHeader} (hmem : header ∈ path) :
    (db.batch (canonicalOps db item path)).numberToHash header.number = some header.hash := by
  rw [ChainDB.batch_numberToHash, canonicalOps_toNumberToHash]
  have hle := hpath.number_le rfl hmem
  rw [latestWrite_eq_some (v := some header.hash)]
  · rfl
  · exact List.mem_append_right _ (List.mem_map.mpr ⟨header, hmem, rfl⟩)
  · intro u hu
    rcases List.mem_append.mp hu with hu | hu
    · obtain ⟨⟨m, hash⟩, hentry, he⟩ := List.mem_map.mp hu
      have := (mem_above.mp hentry).1
      have := (Prod.mk.inj he).1
      dsimp only at this
      omega
    · obtain ⟨header', hheader', he⟩ := List.mem_map.mp hu
      obtain ⟨hnum, rfl⟩ := Prod.mk.inj he
      rw [hpath.eq_of_number_eq rfl hheader' hmem hnum]

theorem takeOver_lt (hdb : Indexed headers db height)
    (hpath : Rebuilds db item.header.number item.header path ancestor) {k : Nat}
    (hk : item.header.number < k) :
    (db.batch (canonicalOps db item path)).numberToHash k = none := by
  rw [ChainDB.batch_numberToHash, canonicalOps_toNumberToHash]
  cases hlast : latestWrite _ k with
  | none =>
    cases hentry : db.numberToHash k with
    | none => rfl
    | some hash =>
      rw [latestWrite_eq_none_iff] at hlast
      refine absurd rfl (hlast (k, none) (List.mem_append_left _ (List.mem_map.mpr ?_)))
      exact ⟨(k, hash), hdb.mem_above_iff.mpr ⟨hk, hentry⟩, rfl⟩
  | some v =>
    rcases List.mem_append.mp (mem_of_latestWrite hlast) with hw | hw
    · obtain ⟨e, -, he⟩ := List.mem_map.mp hw
      rw [← (Prod.mk.inj he).2]
      rfl
    · obtain ⟨header, hheader, he⟩ := List.mem_map.mp hw
      have := hpath.number_le rfl hheader
      have := (Prod.mk.inj he).1
      omega

/-- An entry of the new index is an old one up to the ancestor or a header of the path. -/
theorem takeOver_cases (hdb : Indexed headers db height)
    (hpath : Rebuilds db item.header.number item.header path ancestor) {k : Nat} {hash : Hash}
    (hk : (db.batch (canonicalOps db item path)).numberToHash k = some hash) :
    (k ≤ ancestor.number ∧ db.numberToHash k = some hash) ∨
      ∃ header ∈ path, header.number = k ∧ header.hash = hash := by
  rcases Nat.lt_or_ge ancestor.number k with hlt | hge
  · rcases Nat.lt_or_ge item.header.number k with hlt' | hge'
    · rw [takeOver_lt hdb hpath hlt'] at hk
      cases hk
    · obtain ⟨header, hmem, rfl⟩ := (hpath.mem_number rfl k).mpr ⟨hlt, hge'⟩
      rw [takeOver_mem hpath hmem] at hk
      exact .inr ⟨header, hmem, rfl, Option.some.inj hk⟩
  · rw [takeOver_le hpath hge] at hk
    exact .inl ⟨hge, hk⟩

theorem takeOver_item (hnumber : item.header.number ≠ 0)
    (hpath : Rebuilds db item.header.number item.header path ancestor) :
    (db.batch (canonicalOps db item path)).numberToHash item.header.number =
      some item.header.hash := by
  rcases hpath.eq_nil_or_head with ⟨hnil, heq⟩ | ⟨hmem, -⟩
  · rw [takeOver_le hpath (by rw [heq])]
    rcases hpath.ancestor_canonical rfl with h | h
    · rw [heq] at h
      exact h
    · rw [heq] at h
      exact absurd h hnumber
  · exact takeOver_mem hpath hmem

theorem takeOver_hashToNumber (hfree : DistinctHashes headers) (hdb : Indexed headers db height)
    (hitem : item.header ∈ headers)
    (hpath : Rebuilds db item.header.number item.header path ancestor) {header : BlockHeader}
    (hmem : header ∈ headers)
    (h : header ∉ path → db.hashToNumber header.hash = some header.number) :
    (db.batch (canonicalOps db item path)).hashToNumber header.hash = some header.number := by
  rw [ChainDB.batch_hashToNumber, canonicalOps_toHashToNumber]
  have heq : ∀ header' ∈ path, header'.hash = header.hash → header' = header := fun header' hpm =>
    hfree _ (hpath.mem_headers hdb hitem (.inl hpm)) _ hmem
  rcases Classical.em (header ∈ path) with hin | hout
  · rw [latestWrite_eq_some (v := some header.number)]
    · rfl
    · exact List.mem_map.mpr ⟨header, hin, rfl⟩
    · intro u hu
      obtain ⟨header', hheader', he⟩ := List.mem_map.mp hu
      obtain ⟨hhash, rfl⟩ := Prod.mk.inj he
      rw [heq header' hheader' hhash]
  · rw [latestWrite_eq_none_iff.mpr]
    · exact h hout
    · intro w hw
      obtain ⟨header', hheader', rfl⟩ := List.mem_map.mp hw
      intro hhash
      rw [heq header' hheader' hhash] at hheader'
      exact hout hheader'

variable {ops : List DBOp}

theorem ItemWrites.header_cases (hwrites : ItemWrites db item ops) {n : Nat} {hash : Hash}
    {header : BlockHeader} (h : (db.batch ops).header n hash = some header) :
    (item.header = header ∧ item.header.number = n ∧ item.header.hash = hash) ∨
      db.header n hash = some header := by
  rw [hwrites.batch_header] at h
  unfold Table.set at h
  split at h
  · rename_i hkey
    exact .inl ⟨Option.some.inj h, hkey.1.symm, hkey.2.symm⟩
  · exact .inr h

theorem ItemWrites.isSome_header (hwrites : ItemWrites db item ops) {n : Nat} {hash : Hash}
    (h : (db.header n hash).isSome) : ((db.batch ops).header n hash).isSome := by
  rw [hwrites.batch_header]
  unfold Table.set
  split
  · rfl
  · exact h

theorem ItemWrites.header_item (hwrites : ItemWrites db item ops) :
    (db.batch ops).header item.header.number item.header.hash = some item.header := by
  rw [hwrites.batch_header, ChainDB.set_apply, if_pos rfl]

/-- A header that was stored is the same after an item has been written. -/
theorem ItemWrites.header_eq (hwrites : ItemWrites db item ops) (hfree : DistinctHashes headers)
    (hdb : Indexed headers db height) (hitem : item.header ∈ headers) {n : Nat} {hash : Hash}
    (hstored : (db.header n hash).isSome) :
    (db.batch ops).header n hash = db.header n hash := by
  obtain ⟨header, hheader⟩ := Option.isSome_iff_exists.mp hstored
  rw [hwrites.batch_header, ChainDB.set_apply]
  split
  · rename_i hkey
    obtain ⟨rfl, rfl⟩ := Prod.mk.inj hkey
    rw [hheader]
    exact congrArg some (hfree _ hitem _ (hdb.stored _ _ _ hheader).1
      (db.header_key _ _ _ hheader).2.symm)
  · rfl

theorem Indexed.takeOver (hfree : DistinctHashes headers) (hdb : Indexed headers db height)
    (hitem : item.header ∈ headers) (hnumber : item.header.number ≠ 0)
    (hpath : Rebuilds db item.header.number item.header path ancestor) :
    Indexed headers (db.batch (canonicalOps db item path)) item.header.number := by
  have hwrites := canonicalOps_itemWrites db item path
  have hancestor := hpath.ancestor_index hdb hnumber
  constructor
  case stored =>
    intro n hash header hheader
    rcases hwrites.header_cases hheader with ⟨rfl, rfl, rfl⟩ | hold
    · refine ⟨hitem, takeOver_hashToNumber hfree hdb hitem hpath hitem fun hout => ?_⟩
      rcases hpath.eq_nil_or_head with ⟨-, heq⟩ | ⟨hmem, -⟩
      · rw [heq] at hancestor
        obtain ⟨header, hheader⟩ :=
          Option.isSome_iff_exists.mp (hdb.canonical _ _ hancestor)
        exact (hdb.stored _ _ _ hheader).2
      · exact absurd hmem hout
    · obtain ⟨hmem, hlookup⟩ := hdb.stored n hash header hold
      obtain ⟨rfl, rfl⟩ := db.header_key _ _ _ hold
      exact ⟨hmem, takeOver_hashToNumber hfree hdb hitem hpath hmem fun _ => hlookup⟩
  case index =>
    intro n
    rcases Nat.lt_or_ge item.header.number n with hlt | hge
    · rw [takeOver_lt hdb hpath hlt]
      simp
      omega
    · refine iff_of_true ?_ hge
      rcases Nat.lt_or_ge ancestor.number n with hlt | hge'
      · obtain ⟨header, hmem, rfl⟩ := (hpath.mem_number rfl n).mpr ⟨hlt, hge⟩
        rw [takeOver_mem hpath hmem]
        rfl
      · rw [takeOver_le hpath hge', hdb.index n]
        exact hge'.trans (hdb.le_of_some hancestor)
  case canonical =>
    intro n hash hn
    rcases takeOver_cases hdb hpath hn with ⟨-, hold⟩ | ⟨header, hmem, rfl, rfl⟩
    · exact hwrites.isSome_header (hdb.canonical n hash hold)
    · rcases hpath.stored (.inl hmem) with rfl | hstored
      · rw [hwrites.header_item]
        rfl
      · apply hwrites.isSome_header
        rw [hstored]
        rfl
  case link =>
    intro n hash header hn hheader
    rcases takeOver_cases hdb hpath hn with ⟨hle, hold⟩ | ⟨header', hmem, hnum, rfl⟩
    · rw [hwrites.header_eq hfree hdb hitem (hdb.canonical _ _ hold)] at hheader
      rw [takeOver_le hpath (by omega)]
      exact hdb.link n hash header hold hheader
    · have heq : header = header' := by
        apply hfree _ _ _ (hpath.mem_headers hdb hitem (.inl hmem))
        · exact (ChainDB.header_key _ _ _ _ hheader).2
        · rcases hwrites.header_cases hheader with ⟨rfl, -, -⟩ | hold
          · exact hitem
          · exact (hdb.stored _ _ _ hold).1
      obtain ⟨parent, hparent, hparentMem⟩ := hpath.parent_mem rfl hmem
      obtain ⟨hparentNumber, hparentHash⟩ := db.header_key _ _ _ hparent
      have hn : parent.number = n := by omega
      rw [heq, ← hparentHash, ← hn]
      rcases hparentMem with hparentMem | rfl
      · exact takeOver_mem hpath hparentMem
      · rw [takeOver_le hpath le_rfl]
        exact hancestor
  case genesis =>
    intro hash hstored
    rw [takeOver_le hpath (Nat.zero_le _)]
    apply hdb.genesis
    obtain ⟨header, hheader⟩ := Option.isSome_iff_exists.mp hstored
    rcases hwrites.header_cases hheader with ⟨-, hzero, -⟩ | hold
    · exact absurd hzero hnumber
    · rw [hold]
      rfl

theorem mem_pathStale {hash : Hash} : hash ∈ pathStale db path ↔
    ∃ header ∈ path, db.numberToHash header.number = some hash := by
  simp [pathStale]

/-- The hash of an item that becomes the head is not stale. -/
theorem item_not_stale (hfree : DistinctHashes headers) (hdb : Indexed headers db height)
    (hitem : item.header ∈ headers)
    (hpath : Rebuilds db item.header.number item.header path ancestor) :
    item.header.hash ∉ pathStale db path := by
  intro hmem
  obtain ⟨header, hheader, hentry⟩ := mem_pathStale.mp hmem
  obtain ⟨stored, hstored⟩ := Option.isSome_iff_exists.mp (hdb.canonical _ _ hentry)
  have heq : stored = item.header :=
    hfree _ (hdb.stored _ _ _ hstored).1 _ hitem (db.header_key _ _ _ hstored).2
  rcases hpath.eq_nil_or_head with ⟨rfl, -⟩ | ⟨-, hstale⟩
  · cases hheader
  · apply hstale
    rw [← (db.header_key _ _ _ hstored).1, heq] at hentry
    exact hentry

theorem newHead_item (hfree : DistinctHashes headers) (hdb : Indexed headers db height)
    (hitem : item.header ∈ headers)
    (hpath : Rebuilds db item.header.number item.header path ancestor) :
    newHead db item path ancestor item.header.hash = item.header.hash := by
  unfold newHead renewHead
  rw [moveHead_self, if_neg (item_not_stale hfree hdb hitem hpath)]

/-- A head in the index goes to the item if it is above it, and to the ancestor if it is above
that. -/
theorem newHead_index (hfree : DistinctHashes headers) (hdb : Indexed headers db height)
    (hitem : item.header ∈ headers)
    (hpath : Rebuilds db item.header.number item.header path ancestor) {k : Nat} {hash : Hash}
    (hk : db.numberToHash k = some hash) :
    newHead db item path ancestor hash =
      if item.header.number < k then item.header.hash
      else if ancestor.number < k then ancestor.hash else hash := by
  unfold newHead
  rw [hdb.moveHead_above hk]
  rcases Nat.lt_or_ge item.header.number k with hlt | hge
  · rw [if_pos hlt, if_pos (by omega)]
    unfold renewHead
    rw [if_neg (item_not_stale hfree hdb hitem hpath)]
  · rw [if_neg (by omega), if_neg (by omega)]
    unfold renewHead
    congr 1
    rw [eq_iff_iff, mem_pathStale]
    constructor
    · rintro ⟨header, hmem, hentry⟩
      rw [hdb.number_eq hk hentry]
      exact (hpath.number_le rfl hmem).1
    · intro hlt
      obtain ⟨header, hmem, rfl⟩ := (hpath.mem_number rfl k).mpr ⟨hlt, hge⟩
      exact ⟨header, hmem, hk⟩

end TakeOver

section Aside

variable {headers : Set BlockHeader} {db : ChainDB} {height : Nat} {item : BlockItem}

theorem aside_numberToHash (n : Nat) :
    (db.batch (asideOps db item)).numberToHash n = db.numberToHash n := by
  rw [ChainDB.batch_numberToHash, asideOps_toNumberToHash]
  rfl

theorem aside_hashToNumber (hash : Hash) : (db.batch (asideOps db item)).hashToNumber hash =
    if item.header.hash = hash then some item.header.number else db.hashToNumber hash := by
  rw [ChainDB.batch_hashToNumber, asideOps_toHashToNumber]
  simp only [latestWrite, Option.none_or]
  split <;> rfl

theorem Indexed.putAside (hfree : DistinctHashes headers) (hdb : Indexed headers db height)
    (hitem : item.header ∈ headers) (hnumber : item.header.number ≠ 0) :
    Indexed headers (db.batch (asideOps db item)) height := by
  have hwrites := asideOps_itemWrites db item
  constructor
  case stored =>
    intro n hash header hheader
    rw [aside_hashToNumber]
    rcases hwrites.header_cases hheader with ⟨rfl, rfl, rfl⟩ | hold
    · rw [if_pos rfl]
      exact ⟨hitem, rfl⟩
    · obtain ⟨hmem, hlookup⟩ := hdb.stored n hash header hold
      refine ⟨hmem, ?_⟩
      split
      · rename_i hhash
        have heq := hfree _ hitem _ hmem (by rw [hhash, (db.header_key _ _ _ hold).2])
        rw [heq, (db.header_key _ _ _ hold).1]
      · exact hlookup
  case index =>
    intro n
    rw [aside_numberToHash]
    exact hdb.index n
  case canonical =>
    intro n hash hn
    rw [aside_numberToHash] at hn
    exact hwrites.isSome_header (hdb.canonical n hash hn)
  case link =>
    intro n hash header hn hheader
    rw [aside_numberToHash] at hn ⊢
    rw [hwrites.header_eq hfree hdb hitem (hdb.canonical _ _ hn)] at hheader
    exact hdb.link n hash header hn hheader
  case genesis =>
    intro hash hstored
    rw [aside_numberToHash]
    apply hdb.genesis
    obtain ⟨header, hheader⟩ := Option.isSome_iff_exists.mp hstored
    rcases hwrites.header_cases hheader with ⟨-, hzero, -⟩ | hold
    · exact absurd hzero hnumber
    · rw [hold]
      rfl

end Aside

section Truncate

variable {headers : Set BlockHeader} {db : ChainDB} {height : Nat}

theorem truncate_numberToHash (hdb : Indexed headers db height) (n k : Nat) :
    (db.batch (deletions (above db (n + 1)))).numberToHash k =
      if k ≤ n then db.numberToHash k else none := by
  rw [ChainDB.batch_numberToHash, deletions_toNumberToHash]
  rcases Nat.lt_or_ge n k with hlt | hge
  · rw [if_neg (by omega)]
    cases hlast : latestWrite _ k with
    | some v =>
      obtain ⟨e, -, he⟩ := List.mem_map.mp (mem_of_latestWrite hlast)
      rw [← (Prod.mk.inj he).2]
      rfl
    | none =>
      cases hentry : db.numberToHash k with
      | none => rfl
      | some hash =>
        rw [latestWrite_eq_none_iff] at hlast
        refine absurd rfl (hlast (k, none) (List.mem_map.mpr ?_))
        exact ⟨(k, hash), hdb.mem_above_iff.mpr ⟨hlt, hentry⟩, rfl⟩
  · rw [if_pos hge, latestWrite_eq_none_iff.mpr]
    · rfl
    · intro w hw
      obtain ⟨⟨m, hash⟩, hentry, rfl⟩ := List.mem_map.mp hw
      have := (mem_above.mp hentry).1
      dsimp only
      omega

theorem deletions_header (entries : List (Nat × Hash)) (n : Nat) (hash : Hash) :
    (db.batch (deletions entries)).header n hash = db.header n hash := by
  rw [ChainDB.batch_header, deletions_filterMap _ fun _ => rfl]
  rfl

theorem deletions_body (entries : List (Nat × Hash)) (n : Nat) (hash : Hash) :
    (db.batch (deletions entries)).body n hash = db.body n hash := by
  rw [ChainDB.batch_body, deletions_filterMap _ fun _ => rfl]
  rfl

theorem deletions_hashToNumber (entries : List (Nat × Hash)) (hash : Hash) :
    (db.batch (deletions entries)).hashToNumber hash = db.hashToNumber hash := by
  rw [ChainDB.batch_hashToNumber, deletions_filterMap _ fun _ => rfl]
  rfl

theorem Indexed.truncate (hdb : Indexed headers db height) {n : Nat} (hn : n ≤ height) :
    Indexed headers (db.batch (deletions (above db (n + 1)))) n := by
  constructor
  case stored =>
    intro k hash header hheader
    rw [deletions_header] at hheader
    rw [deletions_hashToNumber]
    exact hdb.stored k hash header hheader
  case index =>
    intro k
    rw [truncate_numberToHash hdb]
    split
    · rename_i hle
      rw [hdb.index k]
      omega
    · rename_i hlt
      exact iff_of_false Bool.false_ne_true hlt
  case canonical =>
    intro k hash hk
    rw [truncate_numberToHash hdb] at hk
    rw [deletions_header]
    split at hk
    · exact hdb.canonical k hash hk
    · cases hk
  case link =>
    intro k hash header hk hheader
    rw [truncate_numberToHash hdb] at hk
    rw [deletions_header] at hheader
    split at hk
    · rename_i hle
      rw [truncate_numberToHash hdb, if_pos (by omega)]
      exact hdb.link k hash header hk hheader
    · cases hk
  case genesis =>
    intro hash hstored
    rw [deletions_header] at hstored
    rw [truncate_numberToHash hdb, if_pos (Nat.zero_le n)]
    exact hdb.genesis hash hstored

end Truncate

end EthereumJS
