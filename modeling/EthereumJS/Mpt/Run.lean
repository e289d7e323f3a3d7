import EthereumJS.Mpt.Represents

/-! # Runs of a trie

A run executes a list of `put` and `del` calls one after the other. Its encodings are
the node encodings that it writes. Without pruning, every run on a new trie ends with
a trie that represents a tree.
-/

namespace EthereumJS

open RLP Patricia Patricia.Tree

inductive TrieOp
  | put (key : Bytes) (value : Value)
  | del (key : Bytes)

def TrieOp.key : TrieOp → Bytes
  | put key _ => key
  | del key => key

/-- The map from keys to values after some calls. -/
def mapAfter : (Bytes → Option Value) → List TrieOp → Bytes → Option Value
  | m, [] => m
  | m, .put key v :: ops => mapAfter (Function.update m key (some v)) ops
  | m, .del key :: ops => mapAfter (Function.update m key none) ops

/-- The value of the last `put` of a key that no `del` of that key follows. -/
def lastWrite (ops : List TrieOp) (key : Bytes) : Option Value := mapAfter (fun _ => none) ops key

def putValues : List BatchDBOp → List Bytes
  | [] => []
  | .put _ value :: ops => value :: putValues ops
  | .del _ :: ops => putValues ops

theorem mem_putValues {ops : List BatchDBOp} {key e : Bytes} (h : BatchDBOp.put key e ∈ ops) :
    e ∈ putValues ops := by
  induction ops with
  | nil => cases h
  | cons op ops ih =>
    rcases List.mem_cons.mp h with hop | hop
    · rw [← hop]
      exact List.mem_cons_self
    · cases op with
      | put key' value => exact List.mem_cons_of_mem _ (ih hop)
      | del key' => exact ih hop

namespace MerklePatriciaTrie

def effectOf (trie : MerklePatriciaTrie) : TrieOp → Except MPTError Effect
  | .put key v => trie.putEffect key (some v.1) false
  | .del key => trie.delEffect key false

def step (trie : MerklePatriciaTrie) (op : TrieOp) : Except MPTError MerklePatriciaTrie :=
  (trie.effectOf op).map trie.write

def run : MerklePatriciaTrie → List TrieOp → Except MPTError MerklePatriciaTrie
  | trie, [] => .ok trie
  | trie, op :: ops => do run (← trie.step op) ops

/-- The node encodings that a run writes. -/
def encodings : MerklePatriciaTrie → List TrieOp → List Bytes
  | _, [] => []
  | trie, op :: ops =>
    match trie.effectOf op with
    | .ok effect => putValues effect.batch ++ encodings (trie.write effect) ops
    | .error _ => []

theorem step_put (trie : MerklePatriciaTrie) (key : Bytes) (v : Value) :
    trie.step (.put key v) = trie.put key (some v.1) false := rfl

theorem step_del (trie : MerklePatriciaTrie) (key : Bytes) :
    trie.step (.del key) = trie.del key false := rfl

theorem run_cons {trie : MerklePatriciaTrie} {op : TrieOp} {effect : Effect}
    (h : trie.effectOf op = .ok effect) (ops : List TrieOp) :
    trie.run (op :: ops) = (trie.write effect).run ops := by
  rw [run, step, h]
  rfl

theorem encodings_cons {trie : MerklePatriciaTrie} {op : TrieOp} {effect : Effect}
    (h : trie.effectOf op = .ok effect) (ops : List TrieOp) :
    trie.encodings (op :: ops) = putValues effect.batch ++ (trie.write effect).encodings ops := by
  rw [encodings, h]

/-- The encodings of a run in two parts. -/
theorem encodings_append {trie trie' : MerklePatriciaTrie} {ops : List TrieOp}
    (h : trie.run ops = .ok trie') (ops' : List TrieOp) :
    trie.encodings (ops ++ ops') = trie.encodings ops ++ trie'.encodings ops' := by
  induction ops generalizing trie with
  | nil =>
    obtain rfl := Except.ok.inj h
    rfl
  | cons op ops ih =>
    cases heffect : trie.effectOf op with
    | error e =>
      rw [run, step, heffect] at h
      cases h
    | ok effect =>
      rw [run_cons heffect] at h
      rw [List.cons_append, encodings_cons heffect, encodings_cons heffect, ih h,
        List.append_assoc]

end MerklePatriciaTrie

/-- What a call does to the tree. -/
def treeStep (keyOf : Bytes → Nibbles) (t : MPTree) : TrieOp → MPTree
  | .put key v => Patricia.insert t (keyOf key) v
  | .del key => delete t (keyOf key)

def treeAfter (keyOf : Bytes → Nibbles) : MPTree → List TrieOp → MPTree
  | t, [] => t
  | t, op :: ops => treeAfter keyOf (treeStep keyOf t op) ops

/-- The path of a key in a trie. -/
def MerklePatriciaTrie.pathOf (trie : MerklePatriciaTrie) (key : Bytes) : Nibbles :=
  bytesToNibbles (trie.appliedKey key)

namespace Represents

variable {E : Set Bytes} {trie : MerklePatriciaTrie} {t : MPTree}

theorem effectOf (h : Represents E trie t) (hE : CollisionFree trie.hashing E)
    (hempty : RLP_EMPTY_STRING ∈ E) (hprune : trie.opts.useNodePruning = false) (op : TrieOp) :
    ∃ effect, trie.effectOf op = .ok effect := by
  cases op with
  | put key v => exact ⟨_, h.putEffect hE hempty hprune key v⟩
  | del key => exact ⟨_, h.delEffect hE hprune key⟩

/-- One call keeps the tree represented. -/
theorem step (h : Represents E trie t) (hE : CollisionFree trie.hashing E)
    (hempty : RLP_EMPTY_STRING ∈ E) (hprune : trie.opts.useNodePruning = false) {op : TrieOp}
    {effect : Effect} (heffect : trie.effectOf op = .ok effect)
    (hmem : ∀ e ∈ putValues effect.batch, e ∈ E) :
    Represents E (trie.write effect) (treeStep trie.pathOf t op) := by
  cases op with
  | put key v =>
    exact h.put hE hempty hprune heffect fun _ e he => hmem e (mem_putValues he)
  | del key =>
    exact h.del hE hempty hprune heffect fun _ e he => hmem e (mem_putValues he)

/-- A run does not throw, and it keeps the tree represented. -/
theorem run (h : Represents E trie t) (hE : CollisionFree trie.hashing E)
    (hempty : RLP_EMPTY_STRING ∈ E) (hprune : trie.opts.useNodePruning = false)
    {ops : List TrieOp} (hmem : ∀ e ∈ trie.encodings ops, e ∈ E) :
    ∃ trie', trie.run ops = .ok trie' ∧ trie'.opts = trie.opts ∧
      Represents E trie' (treeAfter trie.pathOf t ops) := by
  induction ops generalizing trie t with
  | nil => exact ⟨trie, rfl, rfl, h⟩
  | cons op ops ih =>
    obtain ⟨effect, heffect⟩ := h.effectOf hE hempty hprune op
    rw [MerklePatriciaTrie.encodings_cons heffect] at hmem
    have hstep := h.step hE hempty hprune heffect fun e he =>
      hmem e (List.mem_append_left _ he)
    rw [MerklePatriciaTrie.run_cons heffect]
    exact ih hstep hE hprune fun e he => hmem e (List.mem_append_right _ he)

/-- Without a collision tries have one root only for one tree. -/
theorem eq_of_root {H : HashKeysFunction} (hE : CollisionFree H E) (hempty : RLP_EMPTY_STRING ∈ E)
    {trie trie' : MerklePatriciaTrie} {t t' : MPTree} (h : Represents E trie t)
    (h' : Represents E trie' t') (hH : trie.hashing = H) (hH' : trie'.hashing = H)
    (heq : trie.root = trie'.root) : t = t' := by
  subst hH
  have hroot : rootHash trie.hashing t = rootHash trie.hashing t' := by
    rw [← h.root_eq, heq, h'.root_eq, hH']
  have htop : t' ≠ nil → encodeTree trie.hashing t' ∈ E := fun ht' => hH' ▸ (h'.top ht').1
  have hencoded : EncodedIn trie.hashing E t' := hH' ▸ h'.encoded
  rcases eq_or_ne t nil with rfl | ht
  · by_contra hne
    exact rootHash_ne_empty _ hE (Ne.symm hne) (htop (Ne.symm hne)) hempty hroot.symm
  rcases eq_or_ne t' nil with rfl | ht'
  · exact absurd hroot (rootHash_ne_empty _ hE ht (h.top ht).1 hempty)
  · exact rootHash_injective _ hE h.encoded hencoded (h.top ht).1 (htop ht') hroot

end Represents

/-- The encodings of a run on a new trie, with the one that the empty root stands for. -/
def runEncodings (opts : MPTOpts) (ops : List TrieOp) : Set Bytes :=
  { e | e ∈ RLP_EMPTY_STRING :: (createMPT opts).encodings ops }

theorem represents_createMPT (E : Set Bytes) (opts : MPTOpts) :
    Represents E (createMPT opts) nil :=
  ⟨rfl, trivial, trivial, trivial, fun h => absurd rfl h, rfl⟩

theorem run_createMPT (opts : MPTOpts) (hprune : opts.useNodePruning = false) {ops : List TrieOp}
    (hE : CollisionFree opts.useKeyHashingFunction (runEncodings opts ops)) :
    ∃ trie, (createMPT opts).run ops = .ok trie ∧ trie.opts = opts ∧
      Represents (runEncodings opts ops) trie
        (treeAfter (createMPT opts).pathOf nil ops) :=
  (represents_createMPT _ opts).run hE List.mem_cons_self hprune fun _ he =>
    List.mem_cons_of_mem _ he

end EthereumJS
