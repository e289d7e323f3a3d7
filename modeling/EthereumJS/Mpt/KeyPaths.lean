import EthereumJS.Mpt.CheckpointRun
import EthereumJS.Mpt.CompactBytes

/-! # Grouping of sync paths

`mergeAndFormatKeyPaths` of `util/encoding.ts`. An account's paths are put together in an inner
loop that looks for the next account. Where there is none the outer loop goes on behind the first
of the account's paths, so that the storage paths of the last account are grouped again.
-/

namespace EthereumJS.Encoding

open RLP

abbrev PathString := List Char

section Model

/-- The inner loop, which leaves `j` behind `i`; `undefined` is `none`. Where another account is
found, that index is left in `i`. -/
def innerLoop (pathStrings : List PathString) (outerAccountPath : Option PathString) {i : ℕ}
    (j : {j // i < j}) (paths : List (Option PathString)) :
    List (Option PathString) × Option {j // i < j} :=
  if h : j.val < pathStrings.length then
    let innerPathString := pathStrings[j.val].splitOn '/'
    if innerPathString[0]? = outerAccountPath then
      innerLoop pathStrings outerAccountPath ⟨j.val + 1, Nat.lt_succ_of_lt j.property⟩
        (paths ++ [innerPathString[1]?])
    else (paths, some j)
  else (paths, none)
termination_by pathStrings.length - j.val

/-- The outer loop. The paths it collects are not empty at the end of a round. -/
def mergeLoop (pathStrings : List PathString) (ret : List (List (Option PathString))) (i : ℕ) :
    List (List (Option PathString)) :=
  if h : i < pathStrings.length then
    let outerPathString := pathStrings[i].splitOn '/'
    let paths := outerPathString[0]? :: (outerPathString[1]?.map some).toList
    match innerLoop pathStrings outerPathString[0]? ⟨i + 1, Nat.lt_succ_self i⟩ paths with
    | (paths, some j) => mergeLoop pathStrings (ret ++ [paths]) j
    | (paths, none) => mergeLoop pathStrings (ret ++ [paths]) (i + 1)
  else ret
termination_by pathStrings.length - i
decreasing_by
  · exact Nat.sub_lt_sub_left h j.property
  · omega

def formatPath : Option PathString → Except EncodingError Bytes
  | none => .error .undefinedPath
  | some s =>
    match unprefixedHexToBytes s with
    | .error error => .error (.unprefixedHex error)
    -- partial path is compact encoded, full path is keybyte encoded
    | .ok bytes => if s.length < 64 then .ok (nibblesToCompactBytes bytes) else hexToKeybytes bytes

def mergeAndFormatKeyPaths (pathStrings : List PathString) :
    Except EncodingError (List (List Bytes)) :=
  (mergeLoop pathStrings [] 0).mapM fun paths => paths.mapM formatPath

end Model

section SyncPaths

/-- The path of an account and the storage paths that are requested of it. -/
structure AccountPaths where
  account : Nibbles
  storage : List Nibbles
  deriving DecidableEq

/-- The hex string with a byte for each nibble. -/
def hexString (path : Nibbles) : PathString := bytesToUnprefixedHex (nibbleTypeToByteType path)

def storageString (account path : Nibbles) : PathString :=
  hexString account ++ '/' :: hexString path

namespace AccountPaths

def paths (self : AccountPaths) : List Nibbles := self.account :: self.storage

/-- The sync paths, the bare account path first. -/
def pathStrings (self : AccountPaths) : List PathString :=
  hexString self.account :: self.storage.map (storageString self.account)

end AccountPaths

/-- A path as it is requested. -/
def formatted (path : Nibbles) : Bytes :=
  if path.length < 32 then nibblesTypeToPackedBytes (addHexPrefix path false)
  else nibblesTypeToPackedBytes path

theorem hexString_injective : Function.Injective hexString := by
  intro a b h
  have hnibble : Function.Injective fun nibble : Nibble => UInt8.ofNat nibble.val := by decide
  exact hnibble.list_map (bytesToUnprefixedHex_injective h)

theorem length_hexString (path : Nibbles) : (hexString path).length = 2 * path.length := by
  rw [hexString, length_of_hexPairs (hexPairs_bytesToUnprefixedHex _), length_nibbleTypeToByteType]

theorem not_mem_hexString (path : Nibbles) : '/' ∉ hexString path := by
  have hdigit {d : ℕ} (h : d < 16) : '/' ≠ d.digitChar := by
    interval_cases d <;> decide
  have hbytes (bytes : Bytes) : '/' ∉ bytesToUnprefixedHex bytes := by
    induction bytes with
    | nil => exact List.not_mem_nil
    | cons b bytes ih =>
      have hlt := b.toNat_lt
      rw [bytesToUnprefixedHex_cons]
      exact List.not_mem_cons_of_ne_of_not_mem (hdigit (by omega))
        (List.not_mem_cons_of_ne_of_not_mem (hdigit (by omega)) ih)
  exact hbytes _

theorem splitOn_hexString (path : Nibbles) : (hexString path).splitOn '/' = [hexString path] :=
  List.splitOn_eq_singleton (not_mem_hexString path)

theorem splitOn_storageString (account path : Nibbles) :
    (storageString account path).splitOn '/' = [hexString account, hexString path] := by
  rw [storageString, List.splitOn_append_cons_self_of_not_mem (not_mem_hexString account),
    splitOn_hexString]

theorem formatPath_hexString (path : Nibbles) :
    formatPath (some (hexString path)) =
      if path.length < 32 ∨ path.length % 2 = 0 then .ok (formatted path)
      else .error .oddLength := by
  have hbytes : unprefixedHexToBytes (hexString path) = .ok (hexKey path false) := by
    rw [hexKey, if_neg Bool.false_ne_true, List.append_nil]
    exact unprefixedHexToBytes_bytesToUnprefixedHex _
  rw [formatPath, hbytes, length_hexString, formatted]
  dsimp only
  by_cases hshort : path.length < 32
  · rw [if_pos (by omega), if_pos (.inl hshort), if_pos hshort, nibblesToCompactBytes_hexKey]
  · rw [if_neg (by omega), if_neg hshort, hexToKeybytes, hexKey_withoutTerminator]
    rw [length_nibbleTypeToByteType, nibblesToBytes_nibbleTypeToByteType]
    by_cases heven : path.length % 2 = 0
    · rw [if_neg (by omega), if_pos (.inr heven)]
    · rw [if_pos (by omega), if_neg fun h => h.elim hshort heven]

end SyncPaths

section Loops

variable {pathStrings : List PathString} {account : Nibbles} {storage : List Nibbles}
  {rest : List PathString}

/-- What the loops read where the rest of the input is known. -/
theorem getElem_of_drop {i : ℕ} {s : PathString} (h : pathStrings.drop i = s :: rest) :
    ∃ hi : i < pathStrings.length, pathStrings[i] = s ∧ pathStrings.drop (i + 1) = rest := by
  have hi : i < pathStrings.length := by
    have hlength := congrArg List.length h
    rw [List.length_drop, List.length_cons] at hlength
    omega
  rw [List.drop_eq_getElem_cons hi] at h
  exact ⟨hi, List.cons.inj h⟩

/-- The rest of the input goes on with another account, or ends. -/
def OtherAccount (account : Nibbles) : List PathString → Prop
  | [] => True
  | s :: _ => (s.splitOn '/')[0]? ≠ some (hexString account)

/-- The inner loop takes the storage paths of the account. -/
theorem innerLoop_eq {i : ℕ} (hother : OtherAccount account rest) :
    ∀ (storage : List Nibbles) (j : {j // i < j}) (paths : List (Option PathString)),
      pathStrings.drop j.val = storage.map (storageString account) ++ rest →
      ∃ exit : Option {j // i < j},
        innerLoop pathStrings (some (hexString account)) j paths =
          (paths ++ storage.map fun path => some (hexString path), exit) ∧
        exit.map Subtype.val = if rest = [] then none else some (j.val + storage.length) := by
  intro storage
  induction storage with
  | nil =>
    intro j paths hdrop
    rw [innerLoop, List.map_nil, List.append_nil]
    cases rest with
    | nil =>
      have hend : ¬ j.val < pathStrings.length := Nat.not_lt.mpr (List.drop_eq_nil_iff.mp hdrop)
      rw [dif_neg hend]
      exact ⟨none, rfl, rfl⟩
    | cons s rest =>
      obtain ⟨hj, hget, -⟩ := getElem_of_drop hdrop
      rw [dif_pos hj, hget]
      dsimp only
      rw [if_neg hother]
      exact ⟨some j, rfl, rfl⟩
  | cons path storage ih =>
    intro j paths hdrop
    obtain ⟨hj, hget, hnext⟩ := getElem_of_drop hdrop
    obtain ⟨exit, hloop, hexit⟩ := ih ⟨j.val + 1, Nat.lt_succ_of_lt j.property⟩
      (paths ++ [some (hexString path)]) hnext
    rw [innerLoop, dif_pos hj, hget]
    dsimp only
    rw [splitOn_storageString]
    refine ⟨exit, ?_, ?_⟩
    · refine (if_pos rfl).trans (hloop.trans ?_)
      rw [List.append_assoc]
      rfl
    · rw [hexit, List.length_cons]
      congr 2
      dsimp only
      omega

/-- The groups of the storage paths that are left when the input ends in an account's group. -/
def regrouped (account : Nibbles) : List Nibbles → List (List Nibbles)
  | [] => []
  | path :: storage => (account :: path :: storage) :: regrouped account storage

def strings (paths : List Nibbles) : List (Option PathString) :=
  paths.map fun path => some (hexString path)

theorem mergeLoop_storage :
    ∀ (storage : List Nibbles) (ret : List (List (Option PathString))) (i : ℕ),
      pathStrings.drop i = storage.map (storageString account) →
      mergeLoop pathStrings ret i = ret ++ (regrouped account storage).map strings := by
  intro storage
  induction storage with
  | nil =>
    intro ret i hdrop
    rw [mergeLoop, dif_neg (Nat.not_lt.mpr (List.drop_eq_nil_iff.mp hdrop))]
    exact (List.append_nil ret).symm
  | cons path storage ih =>
    intro ret i hdrop
    obtain ⟨hi, hget, hnext⟩ := getElem_of_drop hdrop
    obtain ⟨exit, hloop, hexit⟩ := @innerLoop_eq pathStrings account [] i trivial storage
      ⟨i + 1, Nat.lt_succ_self i⟩ [some (hexString account), some (hexString path)]
      (hnext.trans (List.append_nil _).symm)
    obtain rfl : exit = none := Option.map_eq_none_iff.mp hexit
    rw [mergeLoop, dif_pos hi, hget]
    dsimp only
    rw [splitOn_storageString]
    dsimp only [List.getElem?_cons_zero, List.getElem?_cons_succ, Option.map_some,
      Option.toList_some]
    rw [hloop]
    dsimp only
    rw [ih _ _ hnext, regrouped, List.map_cons, List.append_assoc]
    rfl

/-- What the last account's storage paths are grouped to once more. -/
def regroupedLast (groups : List AccountPaths) : List (List Nibbles) :=
  match groups.getLast? with
  | none => []
  | some last => regrouped last.account last.storage

theorem otherAccount_flatMap {account : Nibbles} {groups : List AccountPaths}
    (h : account ∉ groups.map (·.account)) :
    OtherAccount account (groups.flatMap (·.pathStrings)) := by
  cases groups with
  | nil => exact trivial
  | cons next groups =>
    have hne : next.account ≠ account := fun heq => h (heq ▸ List.mem_cons_self)
    intro heq
    rw [splitOn_hexString] at heq
    exact hne (hexString_injective (Option.some.inj heq))

/-- The outer loop makes a group of each account, and more of the last one. -/
theorem mergeLoop_eq (groups : List AccountPaths) :
    ∀ (ret : List (List (Option PathString))) (i : ℕ), (groups.map (·.account)).Nodup →
      pathStrings.drop i = groups.flatMap (·.pathStrings) →
      mergeLoop pathStrings ret i =
        ret ++ (groups.map (·.paths) ++ regroupedLast groups).map strings := by
  induction groups with
  | nil => exact fun ret i _ hdrop => @mergeLoop_storage pathStrings [] [] ret i hdrop
  | cons group groups ih =>
    intro ret i hnodup hdrop
    obtain ⟨hnew, hnodup⟩ := List.nodup_cons.mp hnodup
    obtain ⟨hi, hget, hnext⟩ := getElem_of_drop hdrop
    obtain ⟨exit, hloop, hexit⟩ := innerLoop_eq (otherAccount_flatMap hnew) group.storage
      ⟨i + 1, Nat.lt_succ_self i⟩ [some (hexString group.account)] hnext
    rw [mergeLoop, dif_pos hi, hget]
    dsimp only
    rw [splitOn_hexString]
    dsimp only [List.getElem?_cons_zero, List.getElem?_cons_succ, List.getElem?_nil,
      Option.map_none, Option.toList_none]
    rw [hloop]
    cases groups with
    | nil =>
      obtain rfl : exit = none := Option.map_eq_none_iff.mp hexit
      dsimp only
      rw [mergeLoop_storage group.storage _ _ (hnext.trans (List.append_nil _)), List.append_assoc]
      rfl
    | cons next groups =>
      obtain ⟨j, rfl, hj⟩ := Option.map_eq_some_iff.mp hexit
      have hrest : pathStrings.drop j.val = (next :: groups).flatMap (·.pathStrings) := by
        rw [hj, ← List.drop_drop, hnext]
        exact List.drop_left' (List.length_map _)
      dsimp only
      rw [ih _ _ hnodup hrest, List.append_assoc]
      rfl

theorem mergeLoop_pathStrings {groups : List AccountPaths}
    (hdistinct : (groups.map (·.account)).Nodup) :
    mergeLoop (groups.flatMap (·.pathStrings)) [] 0 =
      (groups.map (·.paths) ++ regroupedLast groups).map strings :=
  mergeLoop_eq groups [] 0 hdistinct List.drop_zero

end Loops

section Formatting

/-- A path that has a format: a partial one, or one of full bytes. -/
def HasFormat (path : Nibbles) : Prop := path.length < 32 ∨ path.length % 2 = 0

instance (path : Nibbles) : Decidable (HasFormat path) :=
  inferInstanceAs (Decidable (path.length < 32 ∨ path.length % 2 = 0))

theorem mapM_formatPath_iff (paths : List Nibbles) :
    (strings paths).mapM formatPath = .ok (paths.map formatted) ↔
      ∀ path ∈ paths, HasFormat path := by
  rw [mapM_eq_ok_iff, strings, List.forall₂_map_left_iff, List.forall₂_map_right_iff,
    List.forall₂_same]
  refine forall₂_congr fun path _ => ?_
  rw [formatPath_hexString]
  by_cases h : path.length < 32 ∨ path.length % 2 = 0
  · rw [if_pos h]
    exact iff_of_true rfl h
  · rw [if_neg h]
    exact iff_of_false (by rintro ⟨⟩) h

end Formatting

/-- The groups that are asked for. -/
def formattedGroups (groups : List AccountPaths) : List (List Bytes) :=
  groups.map fun group => group.paths.map formatted

theorem regrouped_eq_nil_iff (account : Nibbles) (storage : List Nibbles) :
    regrouped account storage = [] ↔ storage = [] := by
  cases storage with
  | nil => exact iff_of_true rfl rfl
  | cons path storage => exact iff_of_false (List.cons_ne_nil _ _) (List.cons_ne_nil _ _)

theorem regroupedLast_eq_nil_iff (groups : List AccountPaths) :
    regroupedLast groups = [] ↔ ∀ last ∈ groups.getLast?, last.storage = [] := by
  rw [regroupedLast]
  cases groups.getLast? with
  | none => exact iff_of_true rfl fun last h => by cases h
  | some last =>
    rw [regrouped_eq_nil_iff]
    exact ⟨fun h last' hlast => Option.some.inj hlast ▸ h, fun h => h last rfl⟩

theorem forall₂_formattedGroups (groups : List AccountPaths) :
    List.Forall₂ (fun paths group => paths.mapM formatPath = .ok group)
      ((groups.map (·.paths)).map strings) (formattedGroups groups) ↔
        ∀ group ∈ groups, ∀ path ∈ group.paths, HasFormat path := by
  rw [formattedGroups, List.map_map, List.forall₂_map_left_iff, List.forall₂_map_right_iff,
    List.forall₂_same]
  exact forall₂_congr fun group _ => mapM_formatPath_iff group.paths

/-- The groups list each path once. -/
theorem length_flatten_formattedGroups (groups : List AccountPaths) :
    (formattedGroups groups).flatten.length = (groups.flatMap (·.pathStrings)).length := by
  induction groups with
  | nil => rfl
  | cons group groups ih =>
    rw [formattedGroups] at ih ⊢
    rw [List.map_cons, List.flatten_cons, List.length_append, ih, List.flatMap_cons,
      List.length_append, List.length_map, AccountPaths.paths, AccountPaths.pathStrings,
      List.length_cons, List.length_cons, List.length_map]

/-- The paths are grouped by accounts exactly if the last account has no storage paths and every
path has a format. -/
theorem mergeAndFormatKeyPaths_iff (groups : List AccountPaths)
    (hdistinct : (groups.map (·.account)).Nodup) :
    mergeAndFormatKeyPaths (groups.flatMap (·.pathStrings)) = .ok (formattedGroups groups) ↔
      (∀ last ∈ groups.getLast?, last.storage = []) ∧
        ∀ group ∈ groups, ∀ path ∈ group.paths, HasFormat path := by
  rw [mergeAndFormatKeyPaths, mergeLoop_pathStrings hdistinct, mapM_eq_ok_iff,
    ← regroupedLast_eq_nil_iff, ← forall₂_formattedGroups, List.map_append]
  constructor
  · intro h
    -- A group more than there are accounts would be a group too many.
    have hlength := h.length_eq
    rw [List.length_append, formattedGroups, List.length_map, List.length_map, List.length_map,
      List.length_map] at hlength
    have hnil : regroupedLast groups = [] := List.eq_nil_of_length_eq_zero (by omega)
    rw [hnil, List.map_nil, List.append_nil] at h
    exact ⟨hnil, h⟩
  · rintro ⟨hnil, h⟩
    rw [hnil, List.map_nil, List.append_nil]
    exact h

section Example

/-- An account with a storage path, and one without. -/
def twoAccounts : List AccountPaths :=
  [⟨[10], [[11], [12]]⟩, ⟨[14], []⟩]

theorem mergeAndFormatKeyPaths_iff_twoAccounts :
    mergeAndFormatKeyPaths (twoAccounts.flatMap (·.pathStrings)) =
        .ok (formattedGroups twoAccounts) ↔
      (∀ last ∈ twoAccounts.getLast?, last.storage = []) ∧
        ∀ group ∈ twoAccounts, ∀ path ∈ group.paths, HasFormat path :=
  mergeAndFormatKeyPaths_iff twoAccounts (by decide)

/-- The paths `0a`, `0a/0b` and `0a/0c`. -/
def oneAccount : List AccountPaths := [⟨[10], [[11], [12]]⟩]

theorem pathStrings_oneAccount : oneAccount.flatMap (·.pathStrings) =
    [['0', 'a'], ['0', 'a', '/', '0', 'b'], ['0', 'a', '/', '0', 'c']] := by decide

/-- Of the one account there are three groups. -/
theorem mergeAndFormatKeyPaths_oneAccount :
    mergeAndFormatKeyPaths (oneAccount.flatMap (·.pathStrings)) =
        .ok [[[0x1a], [0x1b], [0x1c]], [[0x1a], [0x1b], [0x1c]], [[0x1a], [0x1c]]] ∧
      formattedGroups oneAccount = [[[0x1a], [0x1b], [0x1c]]] ∧
      mergeAndFormatKeyPaths (oneAccount.flatMap (·.pathStrings)) ≠
        .ok (formattedGroups oneAccount) := by
  have hresult : mergeAndFormatKeyPaths (oneAccount.flatMap (·.pathStrings)) =
      .ok [[[0x1a], [0x1b], [0x1c]], [[0x1a], [0x1b], [0x1c]], [[0x1a], [0x1c]]] := by
    rw [mergeAndFormatKeyPaths, mergeLoop_pathStrings (by decide)]
    decide
  refine ⟨hresult, by decide, fun heq => ?_⟩
  have hgroups := Except.ok.inj (hresult.symm.trans heq)
  exact absurd (congrArg List.length hgroups) (by decide)

end Example

end EthereumJS.Encoding
