import EthereumJS.Mpt.FixedLength
import EthereumJS.Statemanager.MerkleStateManager
import EthereumJS.Statemanager.StorageProof
import EthereumJS.Util.Values

/-! # The tries of a state manager

The databases of the Merkle state manager hold nodes under their hashes and code under its key, so
that they only grow, and a trie keeps its tree when its database does. What an open checkpoint has
kept is not touched by the writes above it. An account of the account trie is that of the simple
state manager with another root, and that root is the one of a storage trie with the same slots.
-/

namespace EthereumJS

open RLP Patricia Patricia.Tree Overlay Ordered

section Grown

theorem Represents.grow {E : Set Bytes} {opts : MPTOpts} {db db' : MapDB} {root : Bytes}
    {t : MPTree} (h : Represents E ⟨opts, db, root⟩ t) (hwithin : Within db db')
    (hempty : db' (opts.useKeyHashingFunction.hash RLP_EMPTY_STRING) = none) :
    Represents E ⟨opts, db', root⟩ t :=
  ⟨h.root_eq, h.wf, h.encoded, h.stored.mono fun _ hs hlen => hwithin _ _ (hs hlen),
    fun ht => ⟨(h.top ht).1, hwithin _ _ (h.top ht).2⟩, hempty⟩

/-- What a call writes without pruning. -/
theorem Represents.isStore {trie : MerklePatriciaTrie} {t : MPTree} (h : Represents E trie t)
    (hE : CollisionFree trie.hashing E) (hempty : RLP_EMPTY_STRING ∈ E)
    (hprune : trie.opts.useNodePruning = false) {op : TrieOp} {effect : Effect}
    (heffect : trie.effectOf op = .ok effect) (hmem : ∀ e ∈ putValues effect.batch, e ∈ E) :
    ∀ op ∈ effect.batch, IsStore trie.hashing E op := by
  cases op with
  | put key v =>
    rw [MerklePatriciaTrie.effectOf, h.putEffect hE hempty hprune] at heffect
    obtain rfl := Except.ok.inj heffect
    exact isStore_of_putNode (fun op hop => trie.putNode_of_insertOps hprune hop)
      fun _ e he => hmem e (mem_putValues he)
  | del key =>
    rw [MerklePatriciaTrie.effectOf, h.delEffect hE hprune] at heffect
    obtain rfl := Except.ok.inj heffect
    refine isStore_of_putNode (fun op hop => ?_) fun _ e he => hmem e (mem_putValues he)
    dsimp only at hop
    split at hop
    · exact trie.putNode_of_deleteOps hprune hop
    · cases hop

end Grown

section Levels

namespace MerkleStateManager

variable {H : HashKeysFunction} {E : Set Bytes}

/-- The path of an address or of the key of a slot. -/
def hashedPath (H : HashKeysFunction) (key : Bytes) : Nibbles := bytesToNibbles (H.hash key)

theorem length_hashedPath (key : Bytes) : (hashedPath H key).length = 64 := by
  rw [hashedPath, length_bytesToNibbles, H.length_hash]

theorem hashedPath_inj (hE : CollisionFree H E) {a b : Bytes} (ha : a ∈ E) (hb : b ∈ E) :
    hashedPath H a = hashedPath H b ↔ a = b :=
  ⟨fun h => hE.injOn ha hb (bytesToNibbles_injective h), fun h => h ▸ rfl⟩

section Entries

/-- A node under its hash, or code under its key. -/
def EntryOf (H : HashKeysFunction) (E : Set Bytes) (key value : Bytes) : Prop :=
  (∃ t : MPTree, t ≠ nil ∧ encodeTree H t ∈ E ∧ key = rootHash H t ∧ value = encodeTree H t) ∨
    (value ∈ E ∧ key = codeKey (H.hash value))

theorem codeKey_ne_hash (a b : Bytes) : codeKey (H.hash a) ≠ H.hash b := by
  intro h
  have hlen := congrArg List.length h
  rw [codeKey, List.length_append, H.length_hash, H.length_hash] at hlen
  simp [CODEHASH_PREFIX] at hlen

theorem entryOf_determines (hE : CollisionFree H E) : Determines (EntryOf H E) := by
  rintro k v v' (⟨t, _, ht, rfl, rfl⟩ | ⟨hv, rfl⟩) (⟨u, _, hu, hkey, rfl⟩ | ⟨hv', hkey⟩)
  · exact hE.injOn ht hu hkey
  · exact absurd hkey.symm (codeKey_ne_hash _ _)
  · exact absurd hkey (codeKey_ne_hash _ _)
  · exact hE.injOn hv hv' (List.append_cancel_left hkey)

/-- Nothing is stored under the root of the empty trie. -/
theorem empty_of_entries (hE : CollisionFree H E) (hempty : RLP_EMPTY_STRING ∈ E) {db : MapDB}
    (hdb : Entries (EntryOf H E) db) : db (H.hash RLP_EMPTY_STRING) = none := by
  cases hvalue : db (H.hash RLP_EMPTY_STRING) with
  | none => rfl
  | some value =>
    rcases hdb _ _ hvalue with ⟨t, hne, ht, hkey, _⟩ | ⟨_, hkey⟩
    · exact absurd hkey.symm (rootHash_ne_empty H hE hne ht hempty)
    · exact absurd hkey.symm (codeKey_ne_hash _ _)

/-- A write of an entry. -/
def PutsEntry (H : HashKeysFunction) (E : Set Bytes) (op : BatchDBOp) : Prop :=
  ∃ key value, op = .put key value ∧ EntryOf H E key value

theorem putsEntry_of_isStore {op : BatchDBOp} (h : IsStore H E op) : PutsEntry H E op := by
  obtain ⟨t, hne, ht, rfl⟩ := h
  exact ⟨_, _, rfl, .inl ⟨t, hne, ht, rfl, rfl⟩⟩

theorem batch_grows (hE : CollisionFree H E) {db : MapDB} (hdb : Entries (EntryOf H E) db)
    {ops : List BatchDBOp} (hops : ∀ op ∈ ops, PutsEntry H E op) :
    Entries (EntryOf H E) (db.batch ops) ∧ Within db (db.batch ops) := by
  induction ops generalizing db with
  | nil => exact ⟨hdb, Within.refl db⟩
  | cons op ops ih =>
    rw [List.forall_mem_cons] at hops
    obtain ⟨⟨key, value, rfl, hentry⟩, hops⟩ := hops
    obtain ⟨hentries, hwithin⟩ := ih (hdb.update hentry) hops
    exact ⟨hentries, (within_update (entryOf_determines hE) hdb hentry).trans hwithin⟩

theorem setOps_overlay (diff : DiffMap Bytes Bytes) (ops : List BatchDBOp) (db : MapDB) :
    (setOps diff ops).overlay db = MapDB.batch (diff.overlay db) ops := by
  induction ops generalizing diff with
  | nil => rfl
  | cons op ops ih =>
    cases op with
    | put key value =>
      rw [MapDB.batch, MapDB.execute, ← DiffMap.set_overlay]
      exact ih (diff.set key (some value))
    | del key =>
      rw [MapDB.batch, MapDB.execute, ← DiffMap.set_overlay]
      exact ih (diff.set key none)

theorem entries_setOps {diff : DiffMap Bytes Bytes} (hdiff : diff.Entries (EntryOf H E))
    {ops : List BatchDBOp} (hops : ∀ op ∈ ops, PutsEntry H E op) :
    (setOps diff ops).Entries (EntryOf H E) := by
  induction ops generalizing diff with
  | nil => exact hdiff
  | cons op ops ih =>
    rw [List.forall_mem_cons] at hops
    obtain ⟨⟨key, value, rfl, hentry⟩, hops⟩ := hops
    exact ih (hdiff.set hentry) hops

end Entries

section Levels

/-- What the account trie had for a database and a root at each open checkpoint. -/
def savedLevels (db : MapDB) : List TrieCheckpoint → List (MapDB × Bytes)
  | [] => []
  | cp :: cps =>
    (view db (cps.map TrieCheckpoint.keyValueMap), cp.root) :: savedLevels db cps

/-- The databases hold entries only. -/
structure Sound (H : HashKeysFunction) (E : Set Bytes) (m : MerkleStateManager) : Prop where
  base : Entries (EntryOf H E) m.db
  layers : ∀ cp ∈ m.checkpoints, cp.keyValueMap.Entries (EntryOf H E)

theorem entries_view {db : MapDB} (hdb : Entries (EntryOf H E) db) {cps : List TrieCheckpoint}
    (hcps : ∀ cp ∈ cps, cp.keyValueMap.Entries (EntryOf H E)) :
    Entries (EntryOf H E) (view db (cps.map TrieCheckpoint.keyValueMap)) := by
  refine hdb.view fun diff hdiff => ?_
  obtain ⟨cp, hcp, rfl⟩ := List.mem_map.mp hdiff
  exact hcps cp hcp

theorem Sound.database {m : MerkleStateManager} (h : Sound H E m) :
    Entries (EntryOf H E) m.database :=
  entries_view h.base h.layers

/-- One state manager after another one that wrote entries: what the checkpoints have kept is the
same, up to a base that grew. -/
structure Grows (H : HashKeysFunction) (E : Set Bytes) (m m' : MerkleStateManager) : Prop where
  sound : Sound H E m'
  base : Within m.db m'.db
  database : Within m.database m'.database
  saved : List.Forall₂ (fun level level' => Within level.1 level'.1 ∧ level.2 = level'.2 ∧
    Entries (EntryOf H E) level'.1) (savedLevels m.db m.checkpoints)
    (savedLevels m'.db m'.checkpoints)

theorem savedLevels_mono {db db' : MapDB} (hdb' : Entries (EntryOf H E) db')
    (hwithin : Within db db') {cps : List TrieCheckpoint}
    (hcps : ∀ cp ∈ cps, cp.keyValueMap.Entries (EntryOf H E)) :
    List.Forall₂ (fun level level' => Within level.1 level'.1 ∧ level.2 = level'.2 ∧
      Entries (EntryOf H E) level'.1) (savedLevels db cps) (savedLevels db' cps) := by
  induction cps with
  | nil => exact .nil
  | cons cp cps ih =>
    rw [List.forall_mem_cons] at hcps
    exact .cons ⟨view_mono hwithin _, rfl, entries_view hdb' hcps.2⟩ (ih hcps.2)

theorem database_batch (m : MerkleStateManager) (ops : List BatchDBOp) :
    (m.batch ops).database = m.database.batch ops := by
  obtain ⟨root, checkpoints, db, storageTries, written⟩ := m
  cases checkpoints with
  | nil => rfl
  | cons cp cps => exact setOps_overlay cp.keyValueMap ops _

/-- Writes of entries to the database of the account trie. -/
theorem Sound.batch {m : MerkleStateManager} (h : Sound H E m) (hE : CollisionFree H E)
    {ops : List BatchDBOp} (hops : ∀ op ∈ ops, PutsEntry H E op) : Grows H E m (m.batch ops) := by
  have hdatabase := (batch_grows hE h.database hops).2
  rw [← database_batch] at hdatabase
  obtain ⟨root, checkpoints, db, storageTries, written⟩ := m
  obtain ⟨hbase, hlayers⟩ := h
  cases checkpoints with
  | nil =>
    obtain ⟨hentries, hwithin⟩ := batch_grows hE hbase hops
    exact ⟨⟨hentries, hlayers⟩, hwithin, hdatabase, .nil⟩
  | cons cp cps =>
    rw [List.forall_mem_cons] at hlayers
    refine ⟨⟨hbase, List.forall_mem_cons.mpr ⟨entries_setOps hlayers.1 hops, hlayers.2⟩⟩,
      Within.refl _, hdatabase, ?_⟩
    exact .cons ⟨Within.refl _, rfl, entries_view hbase hlayers.2⟩
      (savedLevels_mono hbase (Within.refl _) hlayers.2)

/-- Writes of entries behind the checkpoints. -/
theorem Sound.setBase {m m' : MerkleStateManager} (h : Sound H E m) (hE : CollisionFree H E)
    {ops : List BatchDBOp} (hops : ∀ op ∈ ops, PutsEntry H E op) (hdb : m'.db = m.db.batch ops)
    (hcheckpoints : m'.checkpoints = m.checkpoints) : Grows H E m m' := by
  obtain ⟨hentries, hwithin⟩ := batch_grows hE h.base hops
  rw [← hdb] at hentries hwithin
  refine ⟨⟨hentries, hcheckpoints ▸ h.layers⟩, hwithin, ?_, ?_⟩
  · unfold MerkleStateManager.database
    rw [hcheckpoints]
    exact view_mono hwithin _
  · rw [hcheckpoints]
    exact savedLevels_mono hentries hwithin h.layers

end Levels

section AccountTrie

/-- All keys of a tree are hashes of addresses or of slots. -/
def HashedKeys (H : HashKeysFunction) (E : Set Bytes) (t : MPTree) : Prop :=
  ∀ k v, t.lookup k = some v → ∃ key ∈ E, k = hashedPath H key

/-- The account trie stores a tree over hashed addresses. -/
structure Backed (H : HashKeysFunction) (E : Set Bytes) (m : MerkleStateManager) (t : MPTree) :
    Prop where
  sound : Sound H E m
  represents : Represents E (m.trie H) t
  canon : CanonAt 64 t
  keys : HashedKeys H E t

/-- The value that a call leaves under its key. -/
def valueAfter : TrieOp → Option Value
  | .put _ v => some v
  | .del _ => none

theorem lookup_treeStep {t : MPTree} (ht : CanonAt 64 t) (op : TrieOp) (k : Nibbles) :
    (treeStep (hashedPath H) t op).lookup k =
      if k = hashedPath H op.key then valueAfter op else t.lookup k := by
  cases op with
  | put key v => exact lookup_insert t _ v k
  | del key =>
    exact lookup_delete ht.wf (ht.safeSite (length_hashedPath key)) k

theorem HashedKeys.treeStep {t : MPTree} (h : HashedKeys H E t) (ht : CanonAt 64 t) {op : TrieOp}
    (hkey : op.key ∈ E) : HashedKeys H E (treeStep (hashedPath H) t op) := by
  intro k v hk
  rw [lookup_treeStep ht] at hk
  split at hk
  · rename_i heq
    exact ⟨op.key, hkey, heq⟩
  · exact h k v hk

/-- Trees of tries that hash their keys. -/
theorem pathOf_hashed (db : MapDB) (root : Bytes) :
    MerklePatriciaTrie.pathOf ⟨hashedOpts H, db, root⟩ = hashedPath H := by
  funext key
  rfl

variable {m : MerkleStateManager} {t : MPTree}

theorem Backed.effectOf (h : Backed H E m t) (hE : CollisionFree H E)
    (hempty : RLP_EMPTY_STRING ∈ E) (op : TrieOp) :
    ∃ effect, (m.trie H).effectOf op = .ok effect :=
  h.represents.effectOf hE hempty rfl op

/-- The account trie after a call. -/
theorem Backed.writeTrie (h : Backed H E m t) (hE : CollisionFree H E)
    (hempty : RLP_EMPTY_STRING ∈ E) {op : TrieOp} {effect : Effect}
    (heffect : (m.trie H).effectOf op = .ok effect) (hkey : op.key ∈ E)
    (hmem : ∀ e ∈ putValues effect.batch, e ∈ E) :
    Backed H E (m.writeTrie effect) (treeStep (hashedPath H) t op) ∧
      Grows H E m (m.writeTrie effect) := by
  have hops := h.represents.isStore hE hempty rfl heffect hmem
  have hgrows := h.sound.batch hE fun op hop => putsEntry_of_isStore (hops op hop)
  have hstep := h.represents.step hE hempty rfl heffect hmem
  have htrie : (m.writeTrie effect).trie H = (m.trie H).write effect :=
    congrArg (fun db => (⟨hashedOpts H, db, effect.root⟩ : MerklePatriciaTrie))
      (database_batch m effect.batch)
  have hcanon : CanonAt 64 (treeStep (hashedPath H) t op) :=
    h.canon.treeStep (length_hashedPath op.key)
  refine ⟨⟨⟨hgrows.sound.base, hgrows.sound.layers⟩, ?_, hcanon, h.keys.treeStep h.canon hkey⟩,
    ⟨hgrows.sound.base, hgrows.sound.layers⟩, hgrows.base, hgrows.database, hgrows.saved⟩
  rw [htrie]
  exact hstep

/-- The account trie keeps its tree while the database grows below it. -/
theorem Backed.grow {m' : MerkleStateManager} (h : Backed H E m t) (hE : CollisionFree H E)
    (hempty : RLP_EMPTY_STRING ∈ E) (hgrows : Grows H E m m') (hroot : m'.root = m.root) :
    Backed H E m' t := by
  refine ⟨hgrows.sound, ?_, h.canon, h.keys⟩
  have hrep := h.represents.grow hgrows.database (empty_of_entries hE hempty hgrows.sound.database)
  unfold trie
  rw [hroot]
  exact hrep

end AccountTrie

end MerkleStateManager

end Levels

section Accounts

variable {H : HashKeysFunction} {E : Set Bytes}

theorem decodeValue_serialize {account : Account} (hlen : account.serialize.length < maxLength) :
    decodeValue (.bytes account.serialize) = .ok account.raw := by
  rw [decodeValue, Account.serialize, decode_encode _ hlen]

/-- An account is read back. -/
theorem createAccountFromRLP_serialize {account : Account}
    (hroot : account.storageRoot.length = 32) (hcode : account.codeHash.length = 32)
    (hlen : account.serialize.length < maxLength) :
    createAccountFromRLP H (.bytes account.serialize) = .ok account := by
  obtain ⟨nonce, balance, storageRoot, codeHash⟩ := account
  rw [createAccountFromRLP, decodeValue_serialize hlen]
  change createAccountFromBytesArray H [_, _, _, _] = _
  simp only [createAccountFromBytesArray, itemToBigInt, itemToHash, newAccount, bytesToBigInt,
    List.getElem?_cons_zero, List.getElem?_cons_succ, bytesToNumber_unpadded, bind, Except.bind]
  rw [if_neg (not_not.mpr hroot), if_neg (not_not.mpr hcode)]

theorem serialize_ne_nil (account : Account) : account.serialize ≠ [] :=
  encode_ne_nil _

/-- The value of a slot in a storage trie. -/
def wordValue (w : Bytes) : Option Value :=
  if w = [] then none else some ⟨encode (.bytes w), encode_ne_nil _⟩

theorem wordItem_eq (w : Bytes) : (wordValue w).map (fun v => Item.bytes v.1) = wordItem w := by
  unfold wordValue wordItem
  split <;> rfl

theorem wordValue_eq_none {w : Bytes} : wordValue w = none ↔ w = [] := by
  unfold wordValue
  split <;> simp_all

namespace MerkleStateManager

section Slots

/-- A storage trie holds the slots of an account and no others. -/
structure HoldsSlots (H : HashKeysFunction) (E : Set Bytes) (db : MapDB) (root : Bytes)
    (slot : Bytes → Bytes) (u : MPTree) : Prop where
  represents : Represents E ⟨hashedOpts H, db, root⟩ u
  canon : CanonAt 64 u
  lookup : ∀ key ∈ E, u.lookup (hashedPath H key) = wordValue (unpadBytes (slot key))
  keys : HashedKeys H E u

variable {db db' : MapDB} {root : Bytes} {slot : Bytes → Bytes} {u : MPTree}

theorem HoldsSlots.length_root (h : HoldsSlots H E db root slot u) : root.length = 32 := by
  have hroot : root = rootHash H u := h.represents.root_eq
  rw [hroot]
  exact H.length_hash _

theorem HoldsSlots.grow (h : HoldsSlots H E db root slot u) (hwithin : Within db db')
    (hempty : db' (H.hash RLP_EMPTY_STRING) = none) : HoldsSlots H E db' root slot u :=
  ⟨h.represents.grow hwithin hempty, h.canon, h.lookup, h.keys⟩

theorem holdsSlots_empty (hempty : db (H.hash RLP_EMPTY_STRING) = none)
    (hslot : ∀ key ∈ E, unpadBytes (slot key) = []) :
    HoldsSlots H E db (keccakRlp H) slot nil where
  represents := ⟨rfl, trivial, trivial, trivial, fun h => absurd rfl h, hempty⟩
  canon := .inl rfl
  lookup key hkey := by rw [lookup_nil, hslot key hkey, wordValue_eq_none.mpr rfl]
  keys k v hk := by
    rw [lookup_nil] at hk
    cases hk

/-- Without slots the storage trie is the empty one. -/
theorem HoldsSlots.root_of_empty (h : HoldsSlots H E db root slot u)
    (hslot : ∀ key ∈ E, unpadBytes (slot key) = []) : root = keccakRlp H := by
  have hnil : u = nil := by
    refine h.canon.eq_of_lookup (.inl rfl) fun k => ?_
    rw [lookup_nil]
    by_contra hsome
    obtain ⟨v, hv⟩ := Option.ne_none_iff_exists'.mp hsome
    obtain ⟨key, hkey, rfl⟩ := h.keys k v hv
    rw [h.lookup key hkey, hslot key hkey, wordValue_eq_none.mpr rfl] at hv
    cases hv
  have hroot : root = rootHash H u := h.represents.root_eq
  rw [hroot, hnil]
  rfl

/-- What a storage trie returns for a slot. -/
theorem HoldsSlots.get (h : HoldsSlots H E db root slot u) (hE : CollisionFree H E)
    {key : Bytes} (hkey : key ∈ E) :
    (⟨hashedOpts H, db, root⟩ : MerklePatriciaTrie).get key false =
      .ok (wordItem (unpadBytes (slot key))) := by
  rw [h.represents.get hE key, ← wordItem_eq, ← h.lookup key hkey]
  rfl

/-- The value of a slot is decoded to the word that was put. -/
theorem HoldsSlots.decodeValue (h : HoldsSlots H E db root slot u) (hE : CollisionFree H E)
    {key : Bytes} (hkey : key ∈ E) :
    EthereumJS.decodeValue ((wordItem (unpadBytes (slot key))).getD (.bytes [])) =
      .ok (.bytes (unpadBytes (slot key))) := by
  have hlookup := h.lookup key hkey
  unfold wordValue at hlookup
  unfold wordItem
  split
  · rename_i hnil
    rw [hnil]
    rfl
  · rename_i hne
    rw [if_neg hne] at hlookup
    have hlen := EncodedIn.length_lookup hE h.represents.encoded hlookup
    rw [Option.getD_some, EthereumJS.decodeValue, decode_encode _ hlen]

/-- The call that sets a slot in the storage trie. -/
def slotOp (key w : Bytes) : TrieOp :=
  match wordValue w with
  | some v => .put key v
  | none => .del key

@[simp] theorem key_slotOp (key w : Bytes) : (slotOp key w).key = key := by
  unfold slotOp
  cases wordValue w <;> rfl

theorem valueAfter_slotOp (key w : Bytes) : valueAfter (slotOp key w) = wordValue w := by
  unfold slotOp
  cases wordValue w <;> rfl

/-- The storage trie after a slot was set. -/
theorem HoldsSlots.set (h : HoldsSlots H E db root slot u) (hE : CollisionFree H E)
    (hempty : RLP_EMPTY_STRING ∈ E) {key w : Bytes} (hkey : key ∈ E) {effect : Effect}
    (heffect : (⟨hashedOpts H, db, root⟩ : MerklePatriciaTrie).effectOf
      (slotOp key (unpadBytes w)) = .ok effect)
    (hmem : ∀ e ∈ putValues effect.batch, e ∈ E) :
    ∃ u', HoldsSlots H E (db.batch effect.batch) effect.root (Function.update slot key w) u' := by
  refine ⟨treeStep (hashedPath H) u (slotOp key (unpadBytes w)),
    h.represents.step hE hempty rfl heffect hmem,
    h.canon.treeStep (length_hashedPath _), ?_,
    h.keys.treeStep h.canon (by rwa [key_slotOp])⟩
  intro key' hkey'
  rw [lookup_treeStep h.canon, key_slotOp, valueAfter_slotOp]
  split
  · rename_i heq
    rw [(hashedPath_inj hE hkey' hkey).mp heq, Function.update_self]
  · rename_i hne
    rw [h.lookup key' hkey', Function.update_of_ne fun heq => hne (congrArg _ heq)]

end Slots

section Accounts

/-- An account as the account trie has it, against the simple state. -/
structure HoldsAccount (H : HashKeysFunction) (E : Set Bytes) (db view : MapDB)
    (state : SimpleState) (address : Bytes) (stored : Account) : Prop where
  account : ∃ account, state.account address = some account ∧
    stored = { account with storageRoot := stored.storageRoot }
  codeHash : stored.codeHash = H.hash (state.code address)
  code_mem : state.code address ∈ E
  code : state.code address ≠ [] →
    view (codeKey (H.hash (state.code address))) = some (state.code address)
  slots : ∃ u, HoldsSlots H E db stored.storageRoot (state.slot address) u

/-- The simple state has no trace of an account. -/
structure Absent (state : SimpleState) (address : Bytes) : Prop where
  account : state.account address = none
  code : state.code address = []
  slots : ∀ key, unpadBytes (state.slot address key) = []

/-- What the account trie has under an address. -/
def Matches (H : HashKeysFunction) (E : Set Bytes) (db view : MapDB) (state : SimpleState)
    (address : Bytes) (value : Option Value) : Prop :=
  value = none ∧ Absent state address ∨
    ∃ stored : Account, value = some ⟨stored.serialize, serialize_ne_nil stored⟩ ∧
      HoldsAccount H E db view state address stored

variable {db db' view view' : MapDB} {state : SimpleState} {address : Bytes} {stored : Account}

theorem HoldsAccount.grow (h : HoldsAccount H E db view state address stored)
    (hdb : Within db db') (hview : Within view view')
    (hempty : db' (H.hash RLP_EMPTY_STRING) = none) :
    HoldsAccount H E db' view' state address stored := by
  obtain ⟨u, hu⟩ := h.slots
  exact ⟨h.account, h.codeHash, h.code_mem, fun hne => hview _ _ (h.code hne),
    u, hu.grow hdb hempty⟩

theorem Matches.grow {value : Option Value} (h : Matches H E db view state address value)
    (hdb : Within db db') (hview : Within view view')
    (hempty : db' (H.hash RLP_EMPTY_STRING) = none) :
    Matches H E db' view' state address value := by
  rcases h with habsent | ⟨stored, hvalue, hstored⟩
  · exact .inl habsent
  · exact .inr ⟨stored, hvalue, hstored.grow hdb hview hempty⟩

/-- Only what a state has at the address matters. -/
theorem Matches.congr {value : Option Value} {state' : SimpleState}
    (h : Matches H E db view state address value)
    (haccount : state'.account address = state.account address)
    (hcode : state'.code address = state.code address)
    (hslot : state'.slot address = state.slot address) :
    Matches H E db view state' address value := by
  rcases h with ⟨hvalue, habsent⟩ | ⟨stored, hvalue, hstored⟩
  · exact .inl ⟨hvalue, haccount.trans habsent.account, hcode.trans habsent.code,
      fun key => by rw [hslot]; exact habsent.slots key⟩
  · obtain ⟨haccount', hcodeHash, hmem, hcode', hslots⟩ := hstored
    refine .inr ⟨stored, hvalue, ?_, ?_, ?_, ?_, ?_⟩
    · rwa [haccount]
    · rwa [hcode]
    · rwa [hcode]
    · rwa [hcode]
    · rwa [hslot]

theorem HoldsAccount.length_codeHash (h : HoldsAccount H E db view state address stored) :
    stored.codeHash.length = 32 := by
  rw [h.codeHash]
  exact H.length_hash _

theorem HoldsAccount.length_storageRoot (h : HoldsAccount H E db view state address stored) :
    stored.storageRoot.length = 32 := by
  obtain ⟨u, hu⟩ := h.slots
  exact hu.length_root

end Accounts

section Read

/-- What `readAccount` makes of a value of the account trie. -/
def accountOf (H : HashKeysFunction) : Option Value → Except StateManagerError (Option Account)
  | none => .ok none
  | some v =>
    match createAccountFromRLP H (.bytes v.1) with
    | .error e => .error (.account e)
    | .ok account => .ok (some account)

variable {m : MerkleStateManager} {t : MPTree}

theorem Backed.readAccount (h : Backed H E m t) (hE : CollisionFree H E) (address : Bytes) :
    m.readAccount H address = accountOf H (t.lookup (hashedPath H address)) := by
  have hget : (m.trie H).get address false =
      .ok ((t.lookup (hashedPath H address)).map fun v => .bytes v.1) :=
    h.represents.get hE address
  unfold MerkleStateManager.readAccount
  rw [hget]
  cases t.lookup (hashedPath H address) <;> rfl

theorem Backed.length_lookup (h : Backed H E m t) (hE : CollisionFree H E) {k : Nibbles}
    {v : Value} (hv : t.lookup k = some v) : v.1.length < maxLength :=
  EncodedIn.length_lookup hE h.represents.encoded hv

/-- The account that the account trie holds is the one that is read. -/
theorem Backed.accountOf_holds (h : Backed H E m t) (hE : CollisionFree H E) {db view : MapDB}
    {state : SimpleState} {address : Bytes} {stored : Account}
    (hstored : HoldsAccount H E db view state address stored)
    (hvalue : t.lookup (hashedPath H address) =
      some ⟨stored.serialize, serialize_ne_nil stored⟩) :
    m.readAccount H address = .ok (some stored) := by
  rw [h.readAccount hE, hvalue, accountOf, createAccountFromRLP_serialize
    hstored.length_storageRoot hstored.length_codeHash (h.length_lookup hE hvalue)]

theorem Backed.accountOf_none (h : Backed H E m t) (hE : CollisionFree H E) {address : Bytes}
    (hvalue : t.lookup (hashedPath H address) = none) : m.readAccount H address = .ok none := by
  rw [h.readAccount hE, hvalue, accountOf]

end Read

end MerkleStateManager

end Accounts

end EthereumJS
