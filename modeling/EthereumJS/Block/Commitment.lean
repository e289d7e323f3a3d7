import EthereumJS.Block.WireForm
import EthereumJS.Mpt.Contract

/-! # What the hash of a block commits to

The trie roots of `helpers.ts` and the checks of a body against its header in `block.ts`. A list is
committed to by the root of a trie with the items under the encodings of their positions, so that
blocks that pass the checks are equal when their hashes are.
-/

namespace EthereumJS.Block

open RLP Patricia Patricia.Tree Represents

section ListTries

/-- The bytes of a number, of which zero has none. -/
def numberBytes (n : Nat) : Bytes := if n = 0 then [] else numberToBytes n

/-- `RLP.encode` of a number. -/
def encodeNumber (n : Nat) : Bytes := encode (.bytes (numberBytes n))

/-- The calls that put the items under their positions, from one on. -/
def putItems (first : Nat) (values : List Value) : List TrieOp :=
  (values.zipIdx first).map fun value => .put (encodeNumber value.2) value.1

/-- The loops of `genTransactionsTrieRoot` and `genWithdrawalsTrieRoot`. -/
def genTrieRoot (H : HashKeysFunction) (values : List Value) : Except MPTError Bytes :=
  ((createMPT (plainOpts H)).run (putItems 0 values)).map MerklePatriciaTrie.root

/-- Every array is shorter. -/
def MAX_ARRAY_LENGTH : Nat := 2 ^ 32

theorem bytesToNumber_numberBytes (n : Nat) : bytesToNumber (numberBytes n) = n := by
  unfold numberBytes
  split
  · rename_i h
    exact h.symm
  · exact bytesToNumber_numberToBytes n

theorem numberBytes_injective : Function.Injective numberBytes := fun n n' h => by
  rw [← bytesToNumber_numberBytes n, h, bytesToNumber_numberBytes]

theorem encodeNumber_inj {n n' : Nat} (h : n < MAX_ARRAY_LENGTH)
    (heq : encodeNumber n = encodeNumber n') : n = n' := by
  -- a position of an array has at most four bytes
  have hlen : (numberBytes n).length ≤ 4 := by
    unfold numberBytes
    split
    · exact Nat.zero_le _
    · rename_i hn
      exact length_numberToBytes_le 4 n hn h
  have hshort : (encode (.bytes (numberBytes n))).length < maxLength := by
    rw [encode]
    unfold encodeBytes
    have hsmall : ∀ k ≤ 5, k < maxLength := fun k hk => lt_of_le_of_lt hk (by decide)
    split
    · split
      · exact hsmall 1 (by decide)
      · exact hsmall 2 (by decide)
    · rw [List.length_append]
      unfold encodeLength
      rw [if_pos (by omega), List.length_singleton]
      exact hsmall _ (Nat.add_le_add_left hlen 1)
  exact numberBytes_injective (Item.bytes.inj (encode_injective hshort heq))

variable {first : Nat} {values values' : List Value} {m : Bytes → Option Value}

theorem putItems_cons (value : Value) :
    putItems first (value :: values) =
      .put (encodeNumber first) value :: putItems (first + 1) values := rfl

theorem mapAfter_putItems_before {n : Nat} (hn : n < first)
    (hlen : first + values.length ≤ MAX_ARRAY_LENGTH) :
    mapAfter m (putItems first values) (encodeNumber n) = m (encodeNumber n) := by
  induction values generalizing first m with
  | nil => rfl
  | cons value values ih =>
    rw [List.length_cons] at hlen
    rw [putItems_cons, mapAfter, ih (by omega) (by omega), Function.update_of_ne]
    intro heq
    exact hn.ne (encodeNumber_inj (by omega) heq)

/-- Every item is under its position. -/
theorem mapAfter_putItems {i : Nat} (hi : first + i < MAX_ARRAY_LENGTH)
    (hlen : first + values.length ≤ MAX_ARRAY_LENGTH)
    (hnone : ∀ n, first ≤ n → n < MAX_ARRAY_LENGTH → m (encodeNumber n) = none) :
    mapAfter m (putItems first values) (encodeNumber (first + i)) = values[i]? := by
  induction values generalizing first m i with
  | nil => exact hnone _ (Nat.le_add_right _ _) hi
  | cons value values ih =>
    rw [List.length_cons] at hlen
    rw [putItems_cons, mapAfter]
    cases i with
    | zero =>
      refine (mapAfter_putItems_before (Nat.lt_add_one first) (by omega)).trans ?_
      rw [Function.update_self]
      rfl
    | succ i =>
      have hnext : first + (i + 1) = first + 1 + i := by omega
      rw [hnext, ih (by omega) (by omega) fun n hn hlt => ?_, List.getElem?_cons_succ]
      rw [Function.update_of_ne, hnone n (by omega) hlt]
      intro heq
      have hsame := encodeNumber_inj hlt heq
      omega

theorem holds_putItems {trie : MerklePatriciaTrie} (hpath : Function.Injective trie.pathOf)
    {t : MPTree} (h : Holds trie t m) :
    Holds trie (treeAfter trie.pathOf t (putItems first values))
      (mapAfter m (putItems first values)) := by
  induction values generalizing first t m with
  | nil => exact h
  | cons value values ih =>
    rw [putItems_cons]
    exact ih (holds_insert hpath h _ value)

theorem lookup_putItems {H : HashKeysFunction} (hlen : values.length < MAX_ARRAY_LENGTH) {i : Nat}
    (hi : i < MAX_ARRAY_LENGTH) :
    (treeAfter (createMPT (plainOpts H)).pathOf nil (putItems 0 values)).lookup
      ((createMPT (plainOpts H)).pathOf (encodeNumber i)) = values[i]? := by
  have hnil : Holds (createMPT (plainOpts H)) nil fun _ => none := fun key => by simp
  have hat : mapAfter (fun _ => none) (putItems 0 values) (encodeNumber (0 + i)) = values[i]? :=
    mapAfter_putItems (by omega) (by omega) fun _ _ _ => rfl
  rw [holds_putItems (pathOf_injective rfl) hnil, ← hat, Nat.zero_add]

/-- Lists of items are equal when their tries have one root. -/
theorem genTrieRoot_inj {H : HashKeysFunction} {E : Set Bytes} (hE : CollisionFree H E)
    (hempty : RLP_EMPTY_STRING ∈ E)
    (hmem : ∀ e ∈ (createMPT (plainOpts H)).encodings (putItems 0 values), e ∈ E)
    (hmem' : ∀ e ∈ (createMPT (plainOpts H)).encodings (putItems 0 values'), e ∈ E)
    (hlen : values.length < MAX_ARRAY_LENGTH) (hlen' : values'.length < MAX_ARRAY_LENGTH)
    (h : genTrieRoot H values = genTrieRoot H values') : values = values' := by
  have hnew := represents_createMPT E (plainOpts H)
  obtain ⟨trie, hrun, hopts, hrep⟩ := hnew.run hE hempty rfl hmem
  obtain ⟨trie', hrun', hopts', hrep'⟩ := hnew.run hE hempty rfl hmem'
  unfold genTrieRoot at h
  rw [hrun, hrun'] at h
  have htree := hrep.eq_of_root hE hempty hrep' (congrArg MPTOpts.useKeyHashingFunction hopts)
    (congrArg MPTOpts.useKeyHashingFunction hopts') (Except.ok.inj h)
  apply List.ext_getElem?
  intro i
  rcases Nat.lt_or_ge i MAX_ARRAY_LENGTH with hi | hi
  · rw [← lookup_putItems hlen hi, ← lookup_putItems hlen' hi, htree]
  · rw [List.getElem?_eq_none (by omega), List.getElem?_eq_none (by omega)]

/-- An item that was put is shorter than the longest message. -/
theorem length_of_mem_values {H : HashKeysFunction} {E : Set Bytes} (hE : CollisionFree H E)
    (hempty : RLP_EMPTY_STRING ∈ E)
    (hmem : ∀ e ∈ (createMPT (plainOpts H)).encodings (putItems 0 values), e ∈ E)
    (hlen : values.length < MAX_ARRAY_LENGTH) {value : Value} (hvalue : value ∈ values) :
    value.1.length < maxLength := by
  obtain ⟨trie, -, hopts, hrep⟩ := (represents_createMPT E (plainOpts H)).run hE hempty rfl hmem
  obtain ⟨i, hi⟩ := List.mem_iff_getElem?.mp hvalue
  have hlt := (List.getElem?_eq_some_iff.mp hi).1
  have hhashing : trie.hashing = H := congrArg MPTOpts.useKeyHashingFunction hopts
  exact EncodedIn.length_lookup hE (hhashing ▸ hrep.encoded)
    ((lookup_putItems hlen (hlt.trans hlen)).trans hi)

end ListTries

structure Withdrawal where
  index : Nat
  validatorIndex : Nat
  address : Bytes
  amount : Nat
  deriving DecidableEq

/-- `withdrawalToBytesArray`. -/
def Withdrawal.raw (withdrawal : Withdrawal) : List Item :=
  [.bytes (numberBytes withdrawal.index), .bytes (numberBytes withdrawal.validatorIndex),
    .bytes withdrawal.address, .bytes (numberBytes withdrawal.amount)]

/-- A `Block` with its transactions serialized. -/
structure FullBlock where
  header : BlockHeader
  transactions : List Value
  uncleHeaders : List BlockHeader
  withdrawals : Option (List Withdrawal)
  deriving DecidableEq

section Checks

inductive BlockError
  | message (text : String)
  | trie (error : MPTError)

variable (H : HashKeysFunction) (common : Common)

def BlockHeader.hash (header : BlockHeader) : Bytes := H.hash (header.serialize common)

def FullBlock.hash (block : FullBlock) : Bytes := block.header.hash H common

/-- Nothing is checked in a genesis block. -/
def validateUncles (block : FullBlock) : Except String Unit :=
  throwFirst (if block.header.number = 0 then [] else
    [(block.uncleHeaders.length > 2, "too many uncle headers"),
      (¬ (block.uncleHeaders.map (BlockHeader.hash H common)).Nodup, "duplicate uncles")])

/-- The constructor of `Block`. -/
def newBlock (header : BlockHeader) (transactions : List Value) (uncleHeaders : List BlockHeader)
    (withdrawals : Option (List Withdrawal)) : Except String FullBlock := do
  let default := if common.isActivatedEIP 4895 then some [] else none
  let block : FullBlock := ⟨header, transactions, uncleHeaders, withdrawals.or default⟩
  if uncleHeaders.length > 0 then
    validateUncles H common block
    throwFirst
      [(common.consensusAlgorithm = .clique,
        "Block initialization with uncleHeaders on a PoA network is not allowed"),
        (common.consensusAlgorithm = .casper,
          "Block initialization with uncleHeaders on a PoS network is not allowed")]
  throwFirst [(¬ common.isActivatedEIP 4895 ∧ withdrawals ≠ none,
    "Cannot have a withdrawals field if EIP 4895 is not active")]
  return block

def genTransactionsTrieRoot (transactions : List Value) : Except MPTError Bytes :=
  genTrieRoot H transactions

def withdrawalValues (withdrawals : List Withdrawal) : List Value :=
  withdrawals.map fun withdrawal => ⟨encode (.list withdrawal.raw), encode_ne_nil _⟩

def genWithdrawalsTrieRoot (withdrawals : List Withdrawal) : Except MPTError Bytes :=
  genTrieRoot H (withdrawalValues withdrawals)

def transactionsTrieIsValid (block : FullBlock) : Except MPTError Bool :=
  if block.transactions = [] then .ok (block.header.transactionsTrie == KECCAK256_RLP)
  else (genTransactionsTrieRoot H block.transactions).map (· == block.header.transactionsTrie)

/-- The header lists that are hashed. -/
def unclesEncoding (uncleHeaders : List BlockHeader) : Bytes :=
  encode (.list (uncleHeaders.map fun uncle => .list (uncle.raw common)))

def uncleHashIsValid (block : FullBlock) : Bool :=
  if block.uncleHeaders = [] then KECCAK256_RLP_ARRAY == block.header.uncleHash
  else H.hash (unclesEncoding common block.uncleHeaders) == block.header.uncleHash

/-- The fields are there where EIP-4895 is active. -/
def withdrawalsTrieIsValid (block : FullBlock) : Except MPTError Bool :=
  let withdrawals := block.withdrawals.getD []
  let withdrawalsRoot := block.header.withdrawalsRoot.getD []
  if withdrawals = [] then .ok (withdrawalsRoot == KECCAK256_RLP)
  else (genWithdrawalsTrieRoot H withdrawals).map (· == withdrawalsRoot)

def failUnless (valid : Except MPTError Bool) (text : String) : Except BlockError Unit :=
  match valid with
  | .error error => .error (.trie error)
  | .ok true => .ok ()
  | .ok false => .error (.message text)

/-- The checks of `validateData` of the body against the header. -/
def validateData (block : FullBlock) : Except BlockError Unit := do
  failUnless (transactionsTrieIsValid H block) "invalid transaction trie"
  failUnless (.ok (uncleHashIsValid H common block)) "invalid uncle hash"
  if common.isActivatedEIP 4895 then
    failUnless (withdrawalsTrieIsValid H block) "invalid withdrawals trie"

end Checks

section Commitment

variable {H : HashKeysFunction} {common : Common} {block : FullBlock}

/-- A block of the constructors. -/
structure Created (H : HashKeysFunction) (common : Common) (block : FullBlock) : Prop where
  header : ∃ data, createBlockHeader common data = .ok block.header
  uncles : ∀ uncle ∈ block.uncleHeaders, ∃ data, createBlockHeader common data = .ok uncle
  constructed : ∃ withdrawals,
    newBlock H common block.header block.transactions block.uncleHeaders withdrawals = .ok block
  transactions_length : block.transactions.length < MAX_ARRAY_LENGTH
  withdrawals_length : (block.withdrawals.getD []).length < MAX_ARRAY_LENGTH

/-- What is hashed for a block and for its checks. -/
def messages (H : HashKeysFunction) (common : Common) (block : FullBlock) : List Bytes :=
  [RLP_EMPTY_STRING, encode (.list []), block.header.serialize common,
    unclesEncoding common block.uncleHeaders] ++
    ((createMPT (plainOpts H)).encodings (putItems 0 block.transactions) ++
      (createMPT (plainOpts H)).encodings
        (putItems 0 (withdrawalValues (block.withdrawals.getD []))))

theorem empty_mem_messages : RLP_EMPTY_STRING ∈ messages H common block :=
  List.mem_append_left _ List.mem_cons_self

theorem header_mem_messages : block.header.serialize common ∈ messages H common block := by
  simp [messages]

theorem uncles_mem_messages :
    unclesEncoding common block.uncleHeaders ∈ messages H common block := by
  simp [messages]

theorem mem_messages_of_transactions {e : Bytes}
    (h : e ∈ (createMPT (plainOpts H)).encodings (putItems 0 block.transactions)) :
    e ∈ messages H common block :=
  List.mem_append_right _ (List.mem_append_left _ h)

theorem mem_messages_of_withdrawals {e : Bytes} (h : e ∈ (createMPT (plainOpts H)).encodings
    (putItems 0 (withdrawalValues (block.withdrawals.getD [])))) : e ∈ messages H common block :=
  List.mem_append_right _ (List.mem_append_right _ h)

theorem failUnless_eq_ok {valid : Except MPTError Bool} {text : String} :
    failUnless valid text = .ok () ↔ valid = .ok true := by
  unfold failUnless
  split <;> simp

theorem map_beq_eq_ok {root : Except MPTError Bytes} {bytes : Bytes} :
    root.map (· == bytes) = .ok true ↔ root = .ok bytes := by
  cases root with
  | error error => exact iff_of_false (fun h => by cases h) fun h => by cases h
  | ok found =>
    rw [Except.map, Except.ok.injEq, Except.ok.injEq]
    exact beq_iff_eq

/-- The checks are those of the roots also where the lists are empty. -/
theorem validateData_ok (hkeccak : H.hash RLP_EMPTY_STRING = KECCAK256_RLP)
    (harray : H.hash (encode (.list [])) = KECCAK256_RLP_ARRAY)
    (h : validateData H common block = .ok ()) :
    genTransactionsTrieRoot H block.transactions = .ok block.header.transactionsTrie ∧
      H.hash (unclesEncoding common block.uncleHeaders) = block.header.uncleHash ∧
      (common.isActivatedEIP 4895 → genWithdrawalsTrieRoot H (block.withdrawals.getD []) =
        .ok (block.header.withdrawalsRoot.getD [])) := by
  unfold validateData at h
  obtain ⟨⟨⟩, htransactions, h⟩ := bind_eq_ok.mp h
  obtain ⟨⟨⟩, huncles, h⟩ := bind_eq_ok.mp h
  rw [failUnless_eq_ok] at htransactions huncles
  -- an empty list is compared with a constant, which its trie has for a root
  refine ⟨?_, ?_, fun hactive => ?_⟩
  · unfold transactionsTrieIsValid at htransactions
    split at htransactions
    · rename_i hnil
      rw [hnil, eq_of_beq (Except.ok.inj htransactions), ← hkeccak]
      rfl
    · exact map_beq_eq_ok.mp htransactions
  · have hvalid := Except.ok.inj huncles
    unfold uncleHashIsValid at hvalid
    split at hvalid
    · rename_i hnil
      rw [hnil, ← eq_of_beq hvalid, ← harray]
      rfl
    · exact eq_of_beq hvalid
  · rw [if_pos hactive, failUnless_eq_ok] at h
    unfold withdrawalsTrieIsValid at h
    dsimp only at h
    split at h
    · rename_i hnil
      rw [hnil, eq_of_beq (Except.ok.inj h), ← hkeccak]
      rfl
    · exact map_beq_eq_ok.mp h

theorem eq_of_serialize_eq {header header' : BlockHeader}
    (h : ∃ data, createBlockHeader common data = .ok header)
    (h' : ∃ data, createBlockHeader common data = .ok header')
    (hlen : (header.serialize common).length < maxLength)
    (heq : header.serialize common = header'.serialize common) : header = header' := by
  obtain ⟨data, hdata⟩ := h
  obtain ⟨data', hdata'⟩ := h'
  have hparse := createBlockHeaderFromRLP_serialize hdata hlen
  rw [heq, createBlockHeaderFromRLP_serialize hdata' (heq ▸ hlen)] at hparse
  exact (Except.ok.inj hparse).symm

theorem eq_of_map_eq {α β : Type} {f : α → β} {l l' : List α} (h : l.map f = l'.map f)
    (hinj : ∀ a ∈ l, ∀ b ∈ l', f a = f b → a = b) : l = l' := by
  induction l generalizing l' with
  | nil => exact (List.map_eq_nil_iff.mp h.symm).symm
  | cons a l ih =>
    cases l' with
    | nil => cases h
    | cons b l' =>
      rw [List.map_cons, List.map_cons] at h
      obtain ⟨hhead, htail⟩ := List.cons.inj h
      rw [hinj a List.mem_cons_self b List.mem_cons_self hhead, ih htail fun a ha b hb =>
        hinj a (List.mem_cons_of_mem _ ha) b (List.mem_cons_of_mem _ hb)]

theorem uncles_eq {uncles uncles' : List BlockHeader}
    (h : ∀ uncle ∈ uncles, ∃ data, createBlockHeader common data = .ok uncle)
    (h' : ∀ uncle ∈ uncles', ∃ data, createBlockHeader common data = .ok uncle)
    (hlen : (unclesEncoding common uncles).length < maxLength)
    (heq : unclesEncoding common uncles = unclesEncoding common uncles') : uncles = uncles' := by
  have hraws := Item.list.inj (encode_injective hlen heq)
  refine eq_of_map_eq hraws fun uncle huncle uncle' huncle' he => ?_
  have hmem : Item.list (uncle.raw common) ∈ uncles.map fun uncle => .list (uncle.raw common) :=
    List.mem_map_of_mem huncle
  exact eq_of_serialize_eq (h uncle huncle) (h' uncle' huncle')
    (lt_of_le_of_lt (length_encode_le_of_mem hmem) hlen) (congrArg encode he)

theorem Withdrawal.raw_injective : Function.Injective Withdrawal.raw := by
  rintro ⟨index, validatorIndex, address, amount⟩ ⟨index', validatorIndex', address', amount'⟩ h
  simp only [Withdrawal.raw, List.cons.injEq, Item.bytes.injEq, and_true] at h
  obtain ⟨hindex, hvalidator, rfl, hamount⟩ := h
  rw [numberBytes_injective hindex, numberBytes_injective hvalidator, numberBytes_injective hamount]

theorem withdrawals_eq {withdrawals withdrawals' : List Withdrawal}
    (hlen : ∀ value ∈ withdrawalValues withdrawals, value.1.length < maxLength)
    (heq : withdrawalValues withdrawals = withdrawalValues withdrawals') :
    withdrawals = withdrawals' := by
  refine eq_of_map_eq heq fun withdrawal hmem withdrawal' _ he => Withdrawal.raw_injective ?_
  have hshort := hlen _ (List.mem_map_of_mem hmem)
  exact Item.list.inj (encode_injective hshort (congrArg Subtype.val he))

theorem newBlock_eq_ok {header : BlockHeader} {transactions : List Value}
    {uncleHeaders : List BlockHeader} {withdrawals : Option (List Withdrawal)}
    (h : newBlock H common header transactions uncleHeaders withdrawals = .ok block) :
    (¬ common.isActivatedEIP 4895 → withdrawals = none) ∧ block.withdrawals =
      withdrawals.or (if common.isActivatedEIP 4895 then some [] else none) := by
  have hlast : ∀ {constructed : FullBlock},
      (do
        throwFirst [(¬ common.isActivatedEIP 4895 ∧ withdrawals ≠ none,
          "Cannot have a withdrawals field if EIP 4895 is not active")]
        return constructed) = Except.ok block →
      (¬ common.isActivatedEIP 4895 → withdrawals = none) ∧ block = constructed := by
    intro constructed h
    obtain ⟨⟨⟩, hcheck, h⟩ := bind_eq_ok.mp h
    have hfalse := throwFirst_eq_ok.mp hcheck _ (List.mem_singleton.mpr rfl)
    refine ⟨fun hactive => ?_, (Except.ok.inj h).symm⟩
    exact not_not.mp fun hne => of_decide_eq_false hfalse ⟨hactive, hne⟩
  unfold newBlock at h
  dsimp only at h
  split at h
  · obtain ⟨⟨⟩, -, h⟩ := bind_eq_ok.mp h
    obtain ⟨⟨⟩, -, h⟩ := bind_eq_ok.mp h
    exact ⟨(hlast h).1, congrArg FullBlock.withdrawals (hlast h).2⟩
  · exact ⟨(hlast h).1, congrArg FullBlock.withdrawals (hlast h).2⟩

/-- The constructor leaves the withdrawals away just where EIP-4895 is not active. -/
theorem Created.withdrawals (h : Created H common block) :
    block.withdrawals =
      if common.isActivatedEIP 4895 then some (block.withdrawals.getD []) else none := by
  obtain ⟨withdrawals, hnew⟩ := h.constructed
  obtain ⟨hchecked, hblock⟩ := newBlock_eq_ok hnew
  rw [hblock]
  split
  · cases withdrawals <;> rfl
  · rename_i hactive
    cases withdrawals with
    | none => rfl
    | some withdrawals => exact absurd (hchecked hactive) (Option.some_ne_none _)

theorem Created.length_withdrawalValues (h : Created H common block) :
    (withdrawalValues (block.withdrawals.getD [])).length < MAX_ARRAY_LENGTH := by
  rw [withdrawalValues, List.length_map]
  exact h.withdrawals_length

end Commitment

/-- Blocks that pass the checks of their bodies are equal when their hashes are, unless there is a
collision among what is hashed for them. -/
theorem hash_commits {H : HashKeysFunction} {common : Common} {block block' : FullBlock}
    (h : Created H common block) (h' : Created H common block')
    (hE : CollisionFree H { e | e ∈ messages H common block ++ messages H common block' })
    (hkeccak : H.hash RLP_EMPTY_STRING = KECCAK256_RLP)
    (harray : H.hash (encode (.list [])) = KECCAK256_RLP_ARRAY)
    (hvalid : validateData H common block = .ok ())
    (hvalid' : validateData H common block' = .ok ())
    (hhash : block.hash H common = block'.hash H common) : block = block' := by
  obtain ⟨htransactions, huncles, hwithdrawals⟩ := validateData_ok hkeccak harray hvalid
  obtain ⟨htransactions', huncles', hwithdrawals'⟩ := validateData_ok hkeccak harray hvalid'
  have hmem : ∀ e ∈ messages H common block,
      e ∈ { e | e ∈ messages H common block ++ messages H common block' } :=
    fun _ he => List.mem_append_left _ he
  have hmem' : ∀ e ∈ messages H common block',
      e ∈ { e | e ∈ messages H common block ++ messages H common block' } :=
    fun _ he => List.mem_append_right _ he
  have hempty := hmem _ empty_mem_messages
  -- the hash gives the header, and the roots in the header give the lists
  have hheader : block.header = block'.header :=
    eq_of_serialize_eq h.header h'.header (hE.short _ (hmem _ header_mem_messages))
      (hE.injOn (hmem _ header_mem_messages) (hmem' _ header_mem_messages) hhash)
  rw [← hheader] at htransactions' huncles' hwithdrawals'
  have htransactionsEq : block.transactions = block'.transactions :=
    genTrieRoot_inj hE hempty (fun e he => hmem e (mem_messages_of_transactions he))
      (fun e he => hmem' e (mem_messages_of_transactions he)) h.transactions_length
      h'.transactions_length (htransactions.trans htransactions'.symm)
  have hunclesEq : block.uncleHeaders = block'.uncleHeaders :=
    uncles_eq h.uncles h'.uncles (hE.short _ (hmem _ uncles_mem_messages))
      (hE.injOn (hmem _ uncles_mem_messages) (hmem' _ uncles_mem_messages)
        (huncles.trans huncles'.symm))
  have hwithdrawalsEq : block.withdrawals = block'.withdrawals := by
    rw [h.withdrawals, h'.withdrawals]
    split
    · rename_i hactive
      have hvalues := genTrieRoot_inj hE hempty
        (fun e he => hmem e (mem_messages_of_withdrawals he))
        (fun e he => hmem' e (mem_messages_of_withdrawals he)) h.length_withdrawalValues
        h'.length_withdrawalValues
        ((hwithdrawals hactive).trans (hwithdrawals' hactive).symm)
      refine congrArg some (withdrawals_eq (fun value hvalue => ?_) hvalues)
      exact length_of_mem_values hE hempty (fun e he => hmem e (mem_messages_of_withdrawals he))
        h.length_withdrawalValues hvalue
    · rfl
  cases block
  cases block'
  cases hheader
  cases htransactionsEq
  cases hunclesEq
  cases hwithdrawalsEq
  rfl

section Samples

/-- A hash with the constants of the empty trie and the empty list. -/
def constantsHash : HashKeysFunction where
  hash msg :=
    if msg = RLP_EMPTY_STRING then KECCAK256_RLP
    else if msg = encode (.list []) then KECCAK256_RLP_ARRAY
    else polynomialHash.hash msg
  length_hash msg := by
    split
    · rfl
    · split
      · rfl
      · exact polynomialHash.length_hash msg

def withdrawalsCommon : Common := { sampleCommon with hardfork := .shanghai }

def sampleTransactions : List Value := [⟨[0xc1, 0x80], List.cons_ne_nil _ _⟩]

def sampleWithdrawals : List Withdrawal := [⟨0, 300, List.replicate 20 1, 7⟩]

def withdrawalData : HeaderData := { noData with
  transactionsTrie := (genTransactionsTrieRoot constantsHash sampleTransactions).toOption
  withdrawalsRoot := (genWithdrawalsTrieRoot constantsHash sampleWithdrawals).toOption
  number := some 1 }

def withdrawalBlock (data : HeaderData) : FullBlock :=
  ⟨BlockHeader.ofData withdrawalsCommon data, sampleTransactions, [], some sampleWithdrawals⟩

theorem created_withdrawalBlock {data : HeaderData}
    (h : throwFirst (headerChecks withdrawalsCommon
      (BlockHeader.ofData withdrawalsCommon data)) = .ok ()) :
    Created constantsHash withdrawalsCommon (withdrawalBlock data) where
  header := ⟨data, createBlockHeader_eq_ok.mpr ⟨rfl, h⟩⟩
  uncles := fun _ huncle => absurd huncle List.not_mem_nil
  constructed := ⟨some sampleWithdrawals, by rfl⟩
  transactions_length := (by decide : 1 < MAX_ARRAY_LENGTH)
  withdrawals_length := (by decide : 1 < MAX_ARRAY_LENGTH)

theorem eq_ok_of_isSome {ε : Type} {checked : Except ε Unit} (h : checked.toOption.isSome) :
    checked = .ok () := by
  cases checked with
  | error error => cases h
  | ok found => rfl

/-- With a default and with the same value given. -/
theorem hash_commits_sample :
    validateData constantsHash withdrawalsCommon (withdrawalBlock withdrawalData) = .ok () ∧
      withdrawalBlock withdrawalData =
        withdrawalBlock { withdrawalData with gasUsed := some 0 } := by
  have hvalid : validateData constantsHash withdrawalsCommon (withdrawalBlock withdrawalData) =
      .ok () := eq_ok_of_isSome (by decide +kernel)
  have hcreated : Created constantsHash withdrawalsCommon (withdrawalBlock withdrawalData) :=
    created_withdrawalBlock (by rfl)
  refine ⟨hvalid, hash_commits hcreated (created_withdrawalBlock (by rfl)) ?_ (by decide +kernel)
    (by decide +kernel) hvalid (eq_ok_of_isSome (by decide +kernel)) (by decide +kernel)⟩
  exact collisionFree_of_list (by decide +kernel)

end Samples

end EthereumJS.Block
