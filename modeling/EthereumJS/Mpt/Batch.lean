import EthereumJS.Mpt.Trie

/-! # Batches on a trie

`batch` of `mpt.ts` on raw keys and on keys that were hashed before. The two go the same way step by
step, except where `put` forgets that the key is hashed already: it deletes a key with an empty
value, and it looks for a value to prune, under the hash of the hash.
-/

namespace EthereumJS

open RLP

namespace MerklePatriciaTrie

variable (trie : MerklePatriciaTrie)

/-- One round of the loop of `batch`. -/
def batchStep (skipKeyTransform : Bool) : BatchDBOp → Except MPTError MerklePatriciaTrie
  | .put key value => trie.put key (some value) skipKeyTransform
  | .del key => trie.del key skipKeyTransform

def batch (skipKeyTransform : Bool) : MerklePatriciaTrie → List BatchDBOp →
    Except MPTError MerklePatriciaTrie
  | trie, [] => .ok trie
  | trie, op :: ops => do batch skipKeyTransform (← trie.batchStep skipKeyTransform op) ops

/-- The operation with its key hashed. -/
def hashKey (H : HashKeysFunction) : BatchDBOp → BatchDBOp
  | .put key value => .put (H.hash key) value
  | .del key => .del (H.hash key)

/-- The search for a key that was transformed ends without a node. -/
def Absent (key : Bytes) : Prop :=
  ∃ path, trie.findPath key false = .ok path ∧ path.node = none

/-- An empty value is put where neither the hash of the key nor the hash of this hash is in the
trie, or the two are one. A trie that prunes and has nodes finds the value that is put under the
one if and only if it does under the other. -/
def BatchMeets : BatchDBOp → Prop
  | .put key [] =>
    trie.Absent (trie.hash key) ∧ trie.Absent (trie.hash (trie.hash key)) ∨
      trie.hash (trie.hash key) = trie.hash key
  | .put key value =>
    trie.opts.useNodePruning → trie.root ≠ trie.emptyTrieRoot →
      ∀ val, trie.get key false = .ok val → ∃ val', trie.get (trie.hash key) false = .ok val' ∧
        (val' = some (.bytes value) ↔ val = some (.bytes value))
  | .del _ => True

def BatchMeetsRun : MerklePatriciaTrie → List BatchDBOp → Prop
  | _, [] => True
  | trie, op :: ops => trie.BatchMeets op ∧
    ∀ next, trie.batchStep false op = .ok next → next.BatchMeetsRun ops

variable {trie}

theorem delEffect_of_absent {key : Bytes} {skipKeyTransform : Bool}
    (h : trie.Absent (if skipKeyTransform then key else trie.appliedKey key)) :
    trie.delEffect key skipKeyTransform = .ok ⟨trie.root, []⟩ := by
  obtain ⟨path, hpath, hnode⟩ := h
  rw [delEffect]
  dsimp only
  rw [hpath]
  simp only [bind, Except.bind, hnode]

theorem appliedKey_of_hashing (hhashing : trie.opts.useKeyHashing) (key : Bytes) :
    trie.appliedKey key = trie.hash key := if_pos hhashing

theorem delEffect_hashed (hhashing : trie.opts.useKeyHashing) (key : Bytes) :
    trie.delEffect (trie.hash key) true = trie.delEffect key false := by
  have happlied := appliedKey_of_hashing hhashing key
  simp only [delEffect, if_true, Bool.false_eq_true, if_false, happlied]

/-- A look-up under a key that was searched for ends. -/
theorem exists_get {key : Bytes} {path : Path}
    (h : trie.findPath (trie.appliedKey key) false = .ok path) :
    ∃ val, trie.get key false = .ok val := by
  rw [get, h]
  simp only [bind, Except.bind]
  split
  · exact ⟨_, rfl⟩
  · exact ⟨_, rfl⟩

/-- `put` has one effect where it may forget the hash. -/
theorem putEffect_hashed (hhashing : trie.opts.useKeyHashing) {key value : Bytes}
    (h : trie.BatchMeets (.put key value)) :
    trie.putEffect (trie.hash key) (some value) true = trie.putEffect key (some value) false := by
  have happlied := appliedKey_of_hashing hhashing key
  have happlied' := appliedKey_of_hashing hhashing (trie.hash key)
  cases value with
  | nil =>
    simp only [putEffect]
    obtain ⟨habsent, habsent'⟩ | heq := h
    · have hplain : trie.delEffect key false = .ok ⟨trie.root, []⟩ :=
        delEffect_of_absent (happlied ▸ habsent)
      have hhashed : trie.delEffect (trie.hash key) false = .ok ⟨trie.root, []⟩ :=
        delEffect_of_absent (happlied' ▸ habsent')
      rw [hplain, hhashed]
    · simp only [delEffect, Bool.false_eq_true, if_false, happlied, happlied', heq]
  | cons byte bytes =>
    simp only [putEffect, if_true, Bool.false_eq_true, if_false, happlied]
    by_cases hempty : trie.root = trie.emptyTrieRoot
    · rw [if_pos hempty, if_pos hempty]
    · rw [if_neg hempty, if_neg hempty]
      cases hpath : trie.findPath (trie.hash key) false with
      | error e => rfl
      | ok path =>
        by_cases hpruning : trie.opts.useNodePruning
        · obtain ⟨val, hval⟩ := exists_get (happlied.symm ▸ hpath)
          obtain ⟨val', hval', hsame⟩ := h hpruning hempty val hval
          simp only [hpruning, if_true, hval, hval', bind, Except.bind, pure, Except.pure, hsame]
        · simp only [hpruning, Bool.false_eq_true, if_false]

theorem batchStep_hashed (hhashing : trie.opts.useKeyHashing) {op : BatchDBOp}
    (h : trie.BatchMeets op) :
    trie.batchStep true (hashKey trie.opts.useKeyHashingFunction op) = trie.batchStep false op := by
  cases op with
  | put key value => exact congrArg (Except.map trie.write) (putEffect_hashed hhashing h)
  | del key => exact congrArg (Except.map trie.write) (delEffect_hashed hhashing key)

theorem opts_batchStep {skipKeyTransform : Bool} {op : BatchDBOp} {next : MerklePatriciaTrie}
    (h : trie.batchStep skipKeyTransform op = .ok next) : next.opts = trie.opts := by
  have hwrite : ∀ {r : Except MPTError Effect}, r.map trie.write = .ok next →
      next.opts = trie.opts := by
    intro r hr
    cases r with
    | error e => cases hr
    | ok effect =>
      cases hr
      rfl
  cases op with
  | put key value => exact hwrite h
  | del key => exact hwrite h

/-- A batch on hashed keys ends as the batch on the keys: with the same error or with the same root
over the same database. -/
theorem batch_hashed (ops : List BatchDBOp) : ∀ trie : MerklePatriciaTrie,
    trie.opts.useKeyHashing → trie.BatchMeetsRun ops →
      batch true trie (ops.map (hashKey trie.opts.useKeyHashingFunction)) =
        batch false trie ops := by
  induction ops with
  | nil => exact fun trie _ _ => rfl
  | cons op ops ih =>
    intro trie hhashing hmeets
    rw [List.map_cons, batch, batch, batchStep_hashed hhashing hmeets.1]
    cases hnext : trie.batchStep false op with
    | error e => rfl
    | ok next =>
      have hopts := opts_batchStep hnext
      have hrest := ih next (hopts ▸ hhashing) (hmeets.2 next hnext)
      rw [hopts] at hrest
      exact hrest

theorem batchMeetsRun_initial {ops : List BatchDBOp} : ∀ {trie : MerklePatriciaTrie}
    {reached : List BatchDBOp}, reached <+: ops → trie.BatchMeetsRun ops →
      trie.BatchMeetsRun reached := by
  induction ops with
  | nil =>
    intro trie reached hreached hmeets
    rw [List.prefix_nil.mp hreached]
    trivial
  | cons op ops ih =>
    intro trie reached hreached hmeets
    obtain rfl | ⟨rest, rfl, hrest⟩ := List.prefix_cons_iff.mp hreached
    · trivial
    · exact ⟨hmeets.1, fun next hnext => ih hrest (hmeets.2 next hnext)⟩

/-- As far as a batch goes, the one on hashed keys ends with the same error or leaves the same root
over the same database, if no empty value and no look-up of the batch meets the forgotten hash. -/
theorem batch_agrees (trie : MerklePatriciaTrie) (hhashing : trie.opts.useKeyHashing)
    (ops : List BatchDBOp) (hmeets : trie.BatchMeetsRun ops) :
    ∀ reached, reached <+: ops →
      batch true trie (reached.map (hashKey trie.opts.useKeyHashingFunction)) =
        batch false trie reached :=
  fun reached hreached =>
    batch_hashed reached trie hhashing (batchMeetsRun_initial hreached hmeets)

section Sample

def hashingTrie : MerklePatriciaTrie := createMPT ⟨true, polynomialHash, false⟩

def threeOps : List BatchDBOp := [.put [1] [2], .del [3], .put [4] [5]]

theorem batch_agrees_three :
    hashingTrie.opts.useKeyHashing ∧ ∀ reached, reached <+: threeOps →
      batch true hashingTrie (reached.map (hashKey hashingTrie.opts.useKeyHashingFunction)) =
        batch false hashingTrie reached := by
  refine ⟨rfl, batch_agrees hashingTrie rfl threeOps ⟨?_, fun next hnext => ⟨trivial, ?_⟩⟩⟩
  · exact fun hpruning => absurd hpruning (by simp [hashingTrie, createMPT])
  · refine fun last hlast => ⟨fun hpruning => absurd hpruning ?_, fun _ _ => trivial⟩
    rw [opts_batchStep hlast, opts_batchStep hnext]
    simp [hashingTrie, createMPT]

/-- A value that is put and taken away again by an empty one. -/
def putAndEmpty : List BatchDBOp := [.put [1] [2], .put [1] []]

theorem not_batch_agrees :
    ¬ ∀ (trie after after' : MerklePatriciaTrie) (ops : List BatchDBOp), trie.opts.useKeyHashing →
      batch false trie ops = .ok after →
      batch true trie (ops.map (hashKey trie.opts.useKeyHashingFunction)) = .ok after' →
        after'.root = after.root := by
  intro h
  have hplain : ((batch false hashingTrie putAndEmpty).map root).toOption =
      some hashingTrie.root := by decide +kernel
  have hhashed : ((batch true hashingTrie (putAndEmpty.map (hashKey polynomialHash))).map
      root).toOption.any (· ≠ hashingTrie.root) := by decide +kernel
  cases hafter : batch false hashingTrie putAndEmpty with
  | error e =>
    rw [hafter] at hplain
    cases hplain
  | ok after =>
    cases hafter' : batch true hashingTrie (putAndEmpty.map (hashKey polynomialHash)) with
    | error e =>
      rw [hafter'] at hhashed
      cases hhashed
    | ok after' =>
      have hsame := h hashingTrie after after' putAndEmpty rfl hafter hafter'
      rw [hafter] at hplain
      rw [hafter'] at hhashed
      have hroot : after.root = hashingTrie.root := Option.some.inj hplain
      exact of_decide_eq_true hhashed (hsame.trans hroot)

end Sample

end MerklePatriciaTrie

end EthereumJS
