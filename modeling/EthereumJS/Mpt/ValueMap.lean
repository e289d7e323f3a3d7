import EthereumJS.Mpt.Trie
import EthereumJS.Ordered.InsertionMap
import EthereumJS.Util.Bytes

/-! # The values of a trie

`_walkTrie` of `util/asyncWalk.ts`, and `walkAllValueNodes` and `getValueMap` of `mpt.ts`. The
generator of the source is the list of what it yields, with the set of visited nodes beside it.
-/

namespace EthereumJS

open RLP Patricia Ordered

/-- What a walk yields, and the hashes of the nodes it has visited. -/
abbrev Walked := List (MPTNode × Nibbles) × List Bytes

/-- The loop over the children of a branch. -/
def walkChildren (walkChild : Nibble → List Bytes → Option Walked) :
    List Nibble → List Bytes → Option Walked
  | [], visited => some ([], visited)
  | nibble :: nibbles, visited => do
    let (found, visited) ← walkChild nibble visited
    let (later, visited) ← walkChildren walkChild nibbles visited
    pure (found ++ later, visited)

structure ValueMap where
  values : List (Bytes × Item)
  nextKey : Option Bytes

/-- The variables of `getValueMap` between two nodes. -/
structure ValueMapState where
  inRange : Bool
  valueCount : Nat
  values : List (Bytes × Item)
  nextKey : Option Bytes

namespace ValueMapState

def result (s : ValueMapState) : ValueMap := ⟨s.values, s.nextKey⟩

def onLeaf (startKey : Int) (limit : Option Nat) (s : ValueMapState) (keyBytes : Bytes)
    (value : Item) : ValueMapState :=
  if s.inRange = false ∧ (bytesToBigInt keyBytes : Int) < startKey then s
  else if limit.all (s.valueCount < ·) then
    { s with
      inRange := true
      values := insertEntry keyBytes value s.values
      valueCount := s.valueCount + 1 }
  else if limit = some s.valueCount then { s with inRange := true, nextKey := some keyBytes }
  else { s with inRange := true }

/-- The callback of `getValueMap`. -/
def onFound (startKey : Int) (limit : Option Nat) (s : ValueMapState) :
    MPTNode × Nibbles → ValueMapState
  | (.leaf nibbles v, currentKey) =>
    s.onLeaf startKey limit (nibblesTypeToPackedBytes (currentKey ++ nibbles)) v
  | _ => s

end ValueMapState

/-- The filter of `walkAllValueNodes`. -/
def isValueNode : MPTNode → Bool
  | .leaf _ _ => true
  | .branch branches v => (MPTNode.branch branches v).value.isSome
  | .extension _ _ => false

namespace MerklePatriciaTrie

variable (trie : MerklePatriciaTrie)

/-- A child of a branch is looked up by its hash, also where the branch holds the child itself. -/
def childNode : Item → Item
  | .bytes hash => .bytes hash
  | .list raw => .bytes (trie.hash (encode (.list raw)))

/-- Whatever a look-up throws ends the walk below that node without a trace. -/
def walkTrieIterable (filter : MPTNode → Bool) :
    Nat → Item → Nibbles → List Bytes → Option Walked
  | 0, _, _, _ => none
  | fuel + 1, nodeHash, currentKey, visited =>
    if nodeHash = .bytes trie.emptyTrieRoot then some ([], visited)
    else
      match trie.lookupNode nodeHash with
      | .error _ => some ([], visited)
      | .ok node =>
        if trie.hash node.serialize ∈ visited then some ([], visited)
        else do
          let visited := trie.hash node.serialize :: visited
          let found := if filter node then [(node, currentKey)] else []
          let (below, visited) ←
            match node with
            | .branch branches _ =>
              walkChildren (fun nibble visited =>
                walkTrieIterable filter fuel (trie.childNode (branches nibble))
                  (currentKey ++ [nibble]) visited) (List.finRange 16) visited
            | .extension nibbles v =>
              walkTrieIterable filter fuel v (currentKey ++ nibbles) visited
            | .leaf _ _ => some ([], visited)
          pure (found ++ below, visited)

def walkAllValueNodes (fuel : Nat) : Option (List (MPTNode × Nibbles)) :=
  (trie.walkTrieIterable isValueNode fuel (.bytes trie.root) [] []).map Prod.fst

/-- The fuel bounds the depth of the trie. -/
def getValueMap (fuel : Nat) (startKey : Int) (limit : Option Nat) : Option ValueMap :=
  (trie.walkAllValueNodes fuel).map fun found =>
    (found.foldl (ValueMapState.onFound startKey limit) ⟨limit.isNone, 0, [], none⟩).result

end MerklePatriciaTrie

section Collect

/-- The callback of `getValueMap` on a list of entries. -/
def onLeaves (startKey : Int) (limit : Option Nat) (s : ValueMapState)
    (entries : List (Bytes × Item)) : ValueMapState :=
  entries.foldl (fun s e => s.onLeaf startKey limit e.1 e.2) s

variable {startKey : Int} {s : ValueMapState} {entries : List (Bytes × Item)}

theorem insertEntry_next {e : Bytes × Item}
    (hkeys : ((s.values ++ e :: entries).map Prod.fst).Nodup) :
    insertEntry e.1 e.2 s.values = s.values ++ [e] := by
  refine insertEntry_of_not_mem fun hmem => ?_
  rw [List.map_append, List.map_cons] at hkeys
  exact (List.nodup_append.mp hkeys).2.2 _ hmem _ List.mem_cons_self rfl

theorem onLeaves_none (hrange : s.inRange = true)
    (hkeys : ((s.values ++ entries).map Prod.fst).Nodup) :
    (onLeaves startKey none s entries).result = ⟨s.values ++ entries, s.nextKey⟩ := by
  induction entries generalizing s with
  | nil => simp [onLeaves, ValueMapState.result]
  | cons e entries ih =>
    have hstep : s.onLeaf startKey none e.1 e.2 =
        { s with values := s.values ++ [e], valueCount := s.valueCount + 1 } := by
      simp [ValueMapState.onLeaf, hrange, insertEntry_next hkeys]
    rw [onLeaves, List.foldl_cons, hstep]
    refine (ih (s := { s with values := s.values ++ [e], valueCount := s.valueCount + 1 }) hrange
      (by simpa using hkeys)).trans ?_
    simp

theorem onLeaves_some {n : Nat} (hrange : s.inRange = true) (hcount : s.valueCount ≤ n)
    (hkeys : ((s.values ++ entries).map Prod.fst).Nodup) :
    (onLeaves startKey (some n) s entries).result =
      ⟨s.values ++ entries.take (n - s.valueCount),
        (((entries.drop (n - s.valueCount)).getLast?).map Prod.fst).or s.nextKey⟩ := by
  induction entries generalizing s with
  | nil => simp [onLeaves, ValueMapState.result]
  | cons e entries ih =>
    rw [onLeaves, List.foldl_cons]
    by_cases hlt : s.valueCount < n
    · have hstep : s.onLeaf startKey (some n) e.1 e.2 =
          { s with values := s.values ++ [e], valueCount := s.valueCount + 1 } := by
        simp [ValueMapState.onLeaf, hrange, insertEntry_next hkeys, hlt]
      obtain ⟨left, hleft⟩ : ∃ left, n - s.valueCount = left + 1 := ⟨n - s.valueCount - 1, by omega⟩
      have hrest : n - (s.valueCount + 1) = left := by omega
      rw [hstep]
      refine (ih (s := { s with values := s.values ++ [e], valueCount := s.valueCount + 1 }) hrange
        hlt (by simpa using hkeys)).trans ?_
      simp [hleft, hrest]
    · obtain rfl : n = s.valueCount := by omega
      have hstep : s.onLeaf startKey (some s.valueCount) e.1 e.2 =
          { s with nextKey := some e.1 } := by
        simp [ValueMapState.onLeaf, hrange]
      rw [hstep]
      have hkeys' : ((s.values ++ entries).map Prod.fst).Nodup := by
        refine hkeys.sublist (List.Sublist.map _ ?_)
        exact (List.Sublist.refl s.values).append (List.sublist_cons_self e entries)
      refine (ih (s := { s with nextKey := some e.1 }) hrange le_rfl hkeys').trans ?_
      cases entries.eq_nil_or_concat with
      | inl hnil => simp [hnil]
      | inr hlast =>
        obtain ⟨before, last, rfl⟩ := hlast
        simp [List.getLast?_cons]

/-- Before the range, only the entries from the start key on count. -/
theorem onLeaves_filter {limit : Option Nat} (hrange : s.inRange = false)
    (hsorted : entries.Pairwise fun e f => bytesToBigInt e.1 < bytesToBigInt f.1) :
    (onLeaves startKey limit s entries).result =
      (onLeaves startKey limit { s with inRange := true }
        (entries.filter fun e => startKey ≤ bytesToBigInt e.1)).result := by
  induction entries with
  | nil => rfl
  | cons e entries ih =>
    obtain ⟨hgt, hsorted⟩ := List.pairwise_cons.mp hsorted
    by_cases hstart : startKey ≤ bytesToBigInt e.1
    · have hall : ∀ f ∈ entries, startKey ≤ bytesToBigInt f.1 := by
        intro f hf
        have := hgt f hf
        omega
      have hsame : s.onLeaf startKey limit e.1 e.2 =
          ({ s with inRange := true } : ValueMapState).onLeaf startKey limit e.1 e.2 := by
        simp [ValueMapState.onLeaf, hstart.not_gt]
      rw [List.filter_cons_of_pos (by simpa using hstart),
        List.filter_eq_self.mpr fun f hf => by simpa using hall f hf, onLeaves, onLeaves,
        List.foldl_cons, List.foldl_cons, hsame]
    · have hskip : s.onLeaf startKey limit e.1 e.2 = s := by
        simp [ValueMapState.onLeaf, hrange, not_le.mp hstart]
      rw [List.filter_cons_of_neg (by simpa using hstart), ← ih hsorted, onLeaves, onLeaves,
        List.foldl_cons, hskip]

end Collect

end EthereumJS
