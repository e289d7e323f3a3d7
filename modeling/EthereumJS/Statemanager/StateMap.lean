import EthereumJS.Statemanager.StateRuns

/-! # The state as a map

After any run of writes the reads of the state manager give what was last written, as long as no
empty code is put over another one.
-/

namespace EthereumJS.BinaryTreeState

open Binarytree RLP StatefulBinaryTreeStateManager

section Spec

/-- The header of an account. -/
def headerWrite (H K : HashKeysFunction) (address : TreeAddress) (e : AccountContents) : TreeOp :=
  write H address 0 [0, 1] (headerValue
    ((encodeBinaryTreeLeafBasicData (e.account K).basicData).toOption.getD []) (K.hash e.code))

/-- All chunks of a code. -/
def codeWrites (H : HashKeysFunction) (address : TreeAddress) (code : Bytes) : List TreeOp :=
  chunkWrites H address code (codeStemCount (chunkCount code.length))

namespace StateOp

/-- Accounts come with hash and size of the last code, and slots belong to accounts. -/
def Meets (K : HashKeysFunction) (contents : Contents) : StateOp → Prop
  | putAccount address account => account.nonce < 2 ^ 64 ∧ account.balance < 2 ^ 128 ∧
      account.codeHash = K.hash (contents.code address) ∧
      account.codeSize = (contents.code address).length
  | putCode _ value => value.length < 2 ^ 24
  | putStorage address key value => key.length = 32 ∧ value.length = 32 ∧ contents address ≠ none

/-- The empty code replaces no other one, and a version has one byte. -/
def Kept (contents : Contents) : StateOp → Prop
  | putAccount _ account => account.version < 256
  | putCode address value => value = [] → contents.code address = []
  | putStorage _ _ _ => True

/-- The stems that an operation names. -/
def stems : StateOp → List (TreeAddress × Nat)
  | putAccount address _ => [(address, 0)]
  | putCode address value =>
    (List.range (codeStemCount (chunkCount value.length))).map fun j => (address, j)
  | putStorage address key _ => [(address, storagePosition (bytesToBigInt key) / 256)]

def CodesApart (K : HashKeysFunction) : StateOp → Prop
  | putAccount _ _ => True
  | putCode _ value => CodeApart K value
  | putStorage _ _ _ => True

/-- What an operation writes to the tree. -/
def writes (H K : HashKeysFunction) (contents : Contents) : StateOp → List TreeOp
  | putAccount address account => [headerWrite H K address { contents.get address with
      nonce := account.nonce
      balance := account.balance
      version := account.version }]
  | putCode address value =>
    if value = [] then []
    else (if contents address = none then [headerWrite H K address .empty] else []) ++
      (codeWrites H address value ++
        [headerWrite H K address { contents.get address with code := value }])
  | putStorage address key value =>
    [write H address (storagePosition (bytesToBigInt key) / 256)
      [storagePosition (bytesToBigInt key)] fun _ => some value]

end StateOp

/-- A condition on each step of a run and on the contents before it. -/
def EachStep (P : Contents → StateOp → Prop) : Contents → List StateOp → Prop
  | _, [] => True
  | contents, op :: ops => P contents op ∧ EachStep P (op.apply contents) ops

def noAccounts : Contents := fun _ => none

def contentsAfter (ops : List StateOp) : Contents := ops.foldl StateOp.apply noAccounts

def allWrites (H K : HashKeysFunction) : Contents → List StateOp → List TreeOp
  | _, [] => []
  | contents, op :: ops => op.writes H K contents ++ allWrites H K (op.apply contents) ops

end Spec

section Steps

variable {H K : HashKeysFunction} {E : Set (TreeAddress × Nat)} {S : Set Bytes}
  {contents : Contents} {tree : BinaryTree} {done : List TreeOp} {a : TreeAddress}
  {e : AccountContents} {bytes value key : Bytes} {op : StateOp} {ops : List StateOp} {fuel : Nat}

/-- The tree of a state manager and the contents it stores. -/
structure Holding (H K : HashKeysFunction) (E : Set (TreeAddress × Nat)) (tree : BinaryTree)
    (done : List TreeOp) (contents : Contents) : Prop where
  filled : Filled H tree done
  stored : Stored H K E contents contents.code done

theorem code_update (contents : Contents) (a : TreeAddress) (e : AccountContents) :
    Contents.code (Function.update contents a (some e)) =
      Function.update contents.code a e.code := by
  funext b
  rw [Contents.code, Contents.get, Function.update_apply, Function.update_apply]
  split <;> rfl

theorem code_update_same (h : e.code = contents.code a) :
    Contents.code (Function.update contents a (some e)) = contents.code := by
  rw [code_update, h, Function.update_eq_self]

theorem get_of_some (h : contents a = some e) : contents.get a = e := by
  rw [Contents.get, h]
  rfl

theorem headerWrite_eq (h : encodeBinaryTreeLeafBasicData (e.account K).basicData = .ok bytes) :
    headerWrite H K a e = write H a 0 [0, 1] (headerValue bytes (K.hash e.code)) := by
  rw [headerWrite, h]
  rfl

theorem Stored.codeApart {codes : TreeAddress → Bytes} (h : Stored H K E contents codes done)
    (a : TreeAddress) : CodeApart K (contents.code a) := by
  rw [Contents.code]
  cases hcontents : contents a with
  | none =>
    intro hne
    rw [Contents.get, hcontents] at hne
    exact absurd rfl hne
  | some e => exact get_of_some hcontents ▸ h.apart a e hcontents

theorem Stored.written {codes : TreeAddress → Bytes} (h : Stored H K E contents codes done)
    (hsome : contents a = some e) : Written done := by
  obtain ⟨bytes, -, hcell, -⟩ := h.header a e hsome
  refine written_of_cell (H := H) (a := a) (q := 0) ?_
  rw [hcell]
  exact Option.some_ne_none bytes

/-- The header of an account is put, with code and slots that are in the tree. -/
theorem putHeader {codes : TreeAddress → Bytes} (hfilled : Filled H tree done)
    (hstored : Stored H K E contents codes done) (hE : StemsApart H E) (hS : NoCollision H S)
    (hfuel : 248 ≤ fuel) (ha : (a, 0) ∈ E) (hfits : (e.account K).basicData.Fits)
    (hstorage : e.storage = (contents.get a).storage) (hapart : CodeApart K e.code)
    (account : LeafAccount) (hdata : account.basicData = (e.account K).basicData)
    (hhash : account.codeHash = K.hash e.code)
    (hmsg : Hashed H S (done ++ [headerWrite H K a e])) :
    ∃ tree', putAccount fuel ⟨H, tree⟩ a (some account) = .ok ⟨H, tree'⟩ ∧
      Filled H tree' (done ++ [headerWrite H K a e]) ∧
      Stored H K E (Function.update contents a (some e)) codes
        (done ++ [headerWrite H K a e]) := by
  obtain ⟨bytes, hbytes⟩ := encode_ok hfits
  rw [headerWrite_eq hbytes] at hmsg ⊢
  obtain ⟨tree', hput, hnext⟩ := putAccount_eq hfilled hfuel hS hdata hhash hbytes hmsg
  exact ⟨tree', hput, hnext, hstored.writeHeader hE ha hstorage hbytes hapart⟩

theorem Holding.putAccount (h : Holding H K E tree done contents) (hE : StemsApart H E)
    (hS : NoCollision H S) (hfuel : 248 ≤ fuel) (ha : (a, 0) ∈ E) {account : LeafAccount}
    (hmeets : (StateOp.putAccount a account).Meets K contents)
    (hkept : (StateOp.putAccount a account).Kept contents)
    (hmsg : Hashed H S (done ++ (StateOp.putAccount a account).writes H K contents)) :
    ∃ tree', StatefulBinaryTreeStateManager.putAccount fuel ⟨H, tree⟩ a (some account) =
        .ok ⟨H, tree'⟩ ∧
      Holding H K E tree' (done ++ (StateOp.putAccount a account).writes H K contents)
        ((StateOp.putAccount a account).apply contents) := by
  obtain ⟨hnonce, hbalance, hhash, hsize⟩ := hmeets
  have hsmall := h.stored.small a
  obtain ⟨tree', hput, hfilled, hstored⟩ := putHeader h.filled h.stored hE hS hfuel ha
    (e := { contents.get a with
      nonce := account.nonce
      balance := account.balance
      version := account.version })
    ⟨hkept, hnonce, hbalance, hsmall⟩ rfl (h.stored.codeApart a) account
    (congrArg (BinaryTreeLeafBasicData.mk account.version account.nonce account.balance) hsize)
    hhash hmsg
  refine ⟨tree', hput, hfilled, ?_⟩
  rw [StateOp.apply, code_update_same (by rfl)]
  exact hstored

/-- A code that is not empty is put for an account. -/
theorem Holding.putCode_some (h : Holding H K E tree done contents) (hE : StemsApart H E)
    (hS : NoCollision H S) (hfuel : 248 ≤ fuel) (hsome : contents a = some e)
    (hsmall : value.length < 2 ^ 24) (hapart : CodeApart K value)
    (hstems : ∀ j < codeStemCount (chunkCount value.length), (a, j) ∈ E)
    (hmsg : Hashed H S (done ++ (codeWrites H a value ++
      [headerWrite H K a { e with code := value }]))) :
    ∃ tree', (putChunks fuel ⟨H, tree⟩ a value >>= fun manager =>
        modifyAccountFields K fuel manager a
          ⟨none, none, none, some (K.hash value), some value.length⟩) = .ok ⟨H, tree'⟩ ∧
      Holding H K E tree' (done ++ (codeWrites H a value ++
        [headerWrite H K a { e with code := value }]))
        (Function.update contents a (some { e with code := value })) := by
  rw [← List.append_assoc] at hmsg ⊢
  obtain ⟨tree₁, hchunks, hfilled⟩ := putChunks_eq h.filled hfuel hS (h.stored.written hsome) hsmall
    (hmsg.before (List.prefix_append _ _))
  have hstored := h.stored.writeChunks hE hstems hsmall
  have ha := h.stored.named a e hsome
  obtain ⟨bytes, hbytes, -⟩ := h.stored.header a e hsome
  obtain ⟨-, -, hfits⟩ := decode_encode hbytes
  obtain ⟨tree', hput, hnext, hfinal⟩ := putHeader hfilled hstored hE hS hfuel ha
    (e := { e with code := value })
    ⟨hfits.version, hfits.nonce, hfits.balance, hsmall⟩ (by rw [get_of_some hsome]) hapart
    ((e.account K).modify ⟨none, none, none, some (K.hash value), some value.length⟩) rfl rfl hmsg
  refine ⟨tree', ?_, hnext, ?_⟩
  · rw [hchunks]
    change modifyAccountFields K fuel ⟨H, tree₁⟩ a _ = _
    rw [modifyAccountFields, getAccount_eq hfilled hstored hfuel ha, hsome]
    exact hput
  · rw [code_update]
    exact hfinal

theorem Holding.putCode (h : Holding H K E tree done contents) (hE : StemsApart H E)
    (hS : NoCollision H S) (hfuel : 248 ≤ fuel)
    (hmeets : (StateOp.putCode a value).Meets K contents)
    (hkept : (StateOp.putCode a value).Kept contents)
    (hstems : ∀ p ∈ (StateOp.putCode a value).stems, p ∈ E) (hapart : CodeApart K value)
    (hmsg : Hashed H S (done ++ (StateOp.putCode a value).writes H K contents)) :
    ∃ tree', StatefulBinaryTreeStateManager.putCode K fuel ⟨H, tree⟩ a value = .ok ⟨H, tree'⟩ ∧
      Holding H K E tree' (done ++ (StateOp.putCode a value).writes H K contents)
        ((StateOp.putCode a value).apply contents) := by
  have hnamed : ∀ j < codeStemCount (chunkCount value.length), (a, j) ∈ E := fun j hj =>
    hstems _ (List.mem_map_of_mem (List.mem_range.mpr hj))
  have ha := hnamed 0 codeStemCount_pos
  rw [StatefulBinaryTreeStateManager.putCode]
  by_cases hnil : value = []
  · -- nothing is done, and nothing changes
    refine ⟨tree, ?_, ?_⟩
    · rw [hnil]
      exact if_pos rfl
    · have hsame : (StateOp.putCode a value).apply contents = contents := by
        rw [StateOp.apply]
        cases hcontents : contents a with
        | none => exact if_pos ⟨hnil, rfl⟩
        | some e =>
          rw [if_neg (by simp), get_of_some hcontents, ← Function.update_eq_self a contents,
            Function.update_idem, hcontents, hnil]
          have hcode := hkept hnil
          rw [Contents.code, get_of_some hcontents] at hcode
          rw [← hcode]
      rw [hsame, StateOp.writes, if_pos hnil, List.append_nil]
      exact h
  · rw [if_neg (hapart hnil).1]
    have happly : (StateOp.putCode a value).apply contents =
        Function.update contents a (some { contents.get a with code := value }) :=
      if_neg fun hboth => hnil hboth.1
    rw [StateOp.writes, if_neg hnil] at hmsg ⊢
    rw [happly, getAccount_eq h.filled h.stored hfuel ha]
    cases hcontents : contents a with
    | some e =>
      rw [hcontents, if_neg (by simp), get_of_some hcontents, List.nil_append] at hmsg
      rw [if_neg (by simp), get_of_some hcontents, List.nil_append]
      exact h.putCode_some hE hS hfuel hcontents hmeets hapart hnamed hmsg
    | none =>
      have hget : contents.get a = .empty := by
        rw [Contents.get, hcontents]
        rfl
      rw [hcontents, if_pos rfl, hget, ← List.append_assoc] at hmsg
      rw [if_pos rfl, hget, ← List.append_assoc]
      obtain ⟨tree₁, hput, hfilled, hstored⟩ := putHeader (e := .empty)
        h.filled h.stored hE hS hfuel ha ⟨Nat.zero_lt_succ _, Nat.two_pow_pos 64, Nat.two_pow_pos 128,
          Nat.two_pow_pos 24⟩ (by rw [hget])
        (fun hne => absurd rfl hne) (emptyAccount K) rfl rfl
        (hmsg.before (List.prefix_append _ _))
      have hcode : Contents.code (Function.update contents a (some .empty)) = contents.code :=
        code_update_same (by rw [Contents.code, hget])
      have hempty : Holding H K E tree₁ (done ++ [headerWrite H K a .empty])
          (Function.update contents a (some .empty)) := ⟨hfilled, by rw [hcode]; exact hstored⟩
      obtain ⟨tree', hrest, hfinal⟩ := hempty.putCode_some hE hS hfuel (Function.update_self _ _ _)
        hmeets hapart hnamed hmsg
      rw [Function.update_idem] at hfinal
      refine ⟨tree', ?_, hfinal⟩
      change (StatefulBinaryTreeStateManager.putAccount fuel ⟨H, tree⟩ a
        (some (emptyAccount K)) >>= _) = _
      rw [hput]
      exact hrest

theorem Holding.putStorage (h : Holding H K E tree done contents) (hE : StemsApart H E)
    (hS : NoCollision H S) (hfuel : 248 ≤ fuel)
    (hmeets : (StateOp.putStorage a key value).Meets K contents)
    (hstem : (a, storagePosition (bytesToBigInt key) / 256) ∈ E)
    (hmsg : Hashed H S (done ++ (StateOp.putStorage a key value).writes H K contents)) :
    ∃ tree', StatefulBinaryTreeStateManager.putStorage fuel ⟨H, tree⟩ a key value =
        .ok ⟨H, tree'⟩ ∧
      Holding H K E tree' (done ++ (StateOp.putStorage a key value).writes H K contents)
        ((StateOp.putStorage a key value).apply contents) := by
  obtain ⟨hkey, hvalue, hne⟩ := hmeets
  obtain ⟨e, hsome⟩ := Option.ne_none_iff_exists'.mp hne
  obtain ⟨tree', hput, hfilled⟩ := putStorage_eq h.filled hfuel hS hkey hvalue hmsg
  refine ⟨tree', hput, hfilled, ?_⟩
  rw [StateOp.apply, get_of_some hsome, code_update_same (by rw [Contents.code, get_of_some hsome])]
  exact h.stored.writeSlot hE hstem hsome hvalue

/-- One step stores the contents after it. -/
theorem Holding.step (h : Holding H K E tree done contents) (hE : StemsApart H E)
    (hS : NoCollision H S) (hfuel : 248 ≤ fuel) (hmeets : op.Meets K contents)
    (hkept : op.Kept contents) (hstems : ∀ p ∈ op.stems, p ∈ E) (hapart : op.CodesApart K)
    (hmsg : Hashed H S (done ++ op.writes H K contents)) :
    ∃ tree', op.run K fuel ⟨H, tree⟩ = .ok ⟨H, tree'⟩ ∧
      Holding H K E tree' (done ++ op.writes H K contents) (op.apply contents) := by
  cases op with
  | putAccount a account =>
    exact h.putAccount hE hS hfuel (hstems _ List.mem_cons_self) hmeets hkept hmsg
  | putCode a value => exact h.putCode hE hS hfuel hmeets hkept hstems hapart hmsg
  | putStorage a key value =>
    exact h.putStorage hE hS hfuel hmeets (hstems _ List.mem_cons_self) hmsg

theorem Holding.run (h : Holding H K E tree done contents) (hE : StemsApart H E)
    (hS : NoCollision H S) (hfuel : 248 ≤ fuel)
    (hmeets : EachStep (fun contents op => op.Meets K contents) contents ops)
    (hkept : EachStep (fun contents op => op.Kept contents) contents ops)
    (hstems : ∀ op ∈ ops, ∀ p ∈ op.stems, p ∈ E) (hapart : ∀ op ∈ ops, op.CodesApart K)
    (hmsg : Hashed H S (done ++ allWrites H K contents ops)) :
    ∃ tree', runStateOps K fuel ⟨H, tree⟩ ops = .ok ⟨H, tree'⟩ ∧
      Holding H K E tree' (done ++ allWrites H K contents ops)
        (ops.foldl StateOp.apply contents) := by
  induction ops generalizing tree done contents with
  | nil => exact ⟨tree, rfl, by rwa [allWrites, List.append_nil]⟩
  | cons op ops ih =>
    rw [allWrites, ← List.append_assoc] at hmsg ⊢
    obtain ⟨tree₁, hrun, hnext⟩ := h.step hE hS hfuel hmeets.1 hkept.1
      (hstems op List.mem_cons_self) (hapart op List.mem_cons_self)
      (hmsg.before (List.prefix_append _ _))
    obtain ⟨tree', hrest, hfinal⟩ := ih hnext hmeets.2 hkept.2
      (fun o ho => hstems o (List.mem_cons_of_mem _ ho))
      (fun o ho => hapart o (List.mem_cons_of_mem _ ho)) hmsg
    refine ⟨tree', ?_, hfinal⟩
    rw [runStateOps, List.foldlM_cons, hrun]
    exact hrest

/-- The reads after any run whose steps keep to the condition. -/
theorem reads_last_written (H K : HashKeysFunction) (ops : List StateOp)
    (E : Set (TreeAddress × Nat)) (hfuel : 248 ≤ fuel)
    (hmeets : EachStep (fun contents op => op.Meets K contents) noAccounts ops)
    (hkept : EachStep (fun contents op => op.Kept contents) noAccounts ops)
    (hstems : ∀ op ∈ ops, ∀ p ∈ op.stems, p ∈ E) (hE : StemsApart H E)
    (hS : NoCollision H (runMessages H (allWrites H K noAccounts ops)))
    (hapart : ∀ op ∈ ops, op.CodesApart K) :
    ∃ manager, runStateOps K fuel (create H) ops = .ok manager ∧ ∀ a, (a, 0) ∈ E →
      manager.getAccount K fuel a =
        .ok ((contentsAfter ops a).map (AccountContents.account K)) ∧
      manager.getCode K fuel a = .ok ((contentsAfter ops).code a) ∧
      ∀ key : Bytes, key.length = 32 → (a, storagePosition (bytesToBigInt key) / 256) ∈ E →
        manager.getStorage K fuel a key = .ok ((contentsAfter ops).slot a (bytesToBigInt key)) := by
  have hstart : Holding H K E (createBinaryTree H) [] noAccounts :=
    ⟨filled_createBinaryTree H, stored_empty H K E⟩
  obtain ⟨tree, hrun, hfilled, hstored⟩ := hstart.run hE hS hfuel hmeets hkept hstems hapart
    fun ops' hp msg hm => ⟨ops', hp, hm⟩
  refine ⟨⟨H, tree⟩, hrun, fun a ha => ⟨?_, ?_, fun key hkey hslot => ?_⟩⟩
  · exact getAccount_eq hfilled hstored hfuel ha
  · exact getCode_eq hfilled hstored hfuel ha
  · exact getStorage_eq hfilled hstored hfuel ha hkey hslot

end Steps

section Samples

def checkOp (op : TreeOp) : Bool :=
  op.stem.length = 31 ∧ op.values.length = op.suffixes.length ∧
    op.values.all fun value => value.all fun v => v.length = 32

theorem valid_of_check {ops : List TreeOp} (h : ops.all checkOp) :
    ∀ op ∈ ops, op.Valid := by
  intro op hop
  obtain ⟨hstem, hlength, hshort⟩ := of_decide_eq_true (List.all_eq_true.mp h op hop)
  constructor
  · exact hstem
  · exact hlength
  · intro value hvalue
    exact of_decide_eq_true (List.all_eq_true.mp hshort (some value) hvalue)

def sampleAddress : TreeAddress := ⟨List.replicate 20 1, rfl⟩

/-- An account with a code of two instructions and a slot. -/
def sampleOps : List StateOp :=
  [.putCode sampleAddress [0x60, 0],
    .putStorage sampleAddress (List.replicate 32 0) (List.replicate 32 7)]

/-- A code is put and replaced by the empty one. -/
def emptiedOps : List StateOp := [.putCode sampleAddress [0], .putCode sampleAddress []]

theorem stemsApart_sample : StemsApart polynomialHash {(sampleAddress, 0)} where
  small p hp := by
    rw [Set.mem_singleton_iff.mp hp]
    exact Nat.pos_of_ne_zero (pow_ne_zero _ (by decide))
  inj := by
    rw [Set.image_singleton]
    exact Set.injOn_singleton _ _

theorem noCollision_sampleOps : NoCollision polynomialHash
    (runMessages polynomialHash (allWrites polynomialHash polynomialHash noAccounts sampleOps)) :=
  noCollision_of_nodup (valid_of_check (by decide +kernel)) (by decide +kernel)

theorem noCollision_emptiedOps : NoCollision polynomialHash
    (runMessages polynomialHash (allWrites polynomialHash polynomialHash noAccounts emptiedOps)) :=
  noCollision_of_nodup (valid_of_check (by decide +kernel)) (by decide +kernel)

theorem stems_sample {ops : List StateOp}
    (h : ∀ op ∈ ops, op.stems = [(sampleAddress, 0)]) :
    ∀ op ∈ ops, ∀ p ∈ op.stems, p ∈ ({(sampleAddress, 0)} : Set (TreeAddress × Nat)) := by
  intro op hop p hp
  rw [h op hop] at hp
  exact List.mem_singleton.mp hp

theorem reads_last_written_sample :
    ∃ manager, runStateOps polynomialHash 248 (create polynomialHash) sampleOps = .ok manager ∧
      ∀ a, (a, 0) ∈ ({(sampleAddress, 0)} : Set (TreeAddress × Nat)) →
        manager.getAccount polynomialHash 248 a =
          .ok ((contentsAfter sampleOps a).map (AccountContents.account polynomialHash)) ∧
        manager.getCode polynomialHash 248 a = .ok ((contentsAfter sampleOps).code a) ∧
        ∀ key : Bytes, key.length = 32 →
          (a, storagePosition (bytesToBigInt key) / 256) ∈
            ({(sampleAddress, 0)} : Set (TreeAddress × Nat)) →
          manager.getStorage polynomialHash 248 a key =
            .ok ((contentsAfter sampleOps).slot a (bytesToBigInt key)) := by
  refine reads_last_written polynomialHash polynomialHash sampleOps {(sampleAddress, 0)} le_rfl
    ?_ ?_ (stems_sample ?_) stemsApart_sample noCollision_sampleOps ?_
  · refine ⟨show ([0x60, 0] : Bytes).length < 2 ^ 24 by decide, ⟨rfl, rfl, ?_⟩, trivial⟩
    exact Option.some_ne_none _
  · exact ⟨fun h => absurd h (by decide), trivial, trivial⟩
  · intro op hop
    obtain rfl | rfl := List.mem_pair.mp hop
    · rfl
    · rfl
  · intro op hop
    obtain rfl | rfl := List.mem_pair.mp hop
    · exact fun _ => by decide
    · trivial

/-- The old code is still there after the empty one was put. -/
theorem not_reads_last_written :
    EachStep (fun contents op => op.Meets polynomialHash contents) noAccounts emptiedOps ∧
    (∀ op ∈ emptiedOps, ∀ p ∈ op.stems,
      p ∈ ({(sampleAddress, 0)} : Set (TreeAddress × Nat))) ∧
    StemsApart polynomialHash {(sampleAddress, 0)} ∧
    NoCollision polynomialHash
      (runMessages polynomialHash (allWrites polynomialHash polynomialHash noAccounts emptiedOps)) ∧
    (∀ op ∈ emptiedOps, op.CodesApart polynomialHash) ∧
    (runStateOps polynomialHash 248 (create polynomialHash) emptiedOps >>= fun manager =>
      manager.getCode polynomialHash 248 sampleAddress).toOption = some [0] ∧
    (contentsAfter emptiedOps).code sampleAddress = [] := by
  refine ⟨⟨show ([0] : Bytes).length < 2 ^ 24 by decide,
    show ([] : Bytes).length < 2 ^ 24 by decide, trivial⟩, stems_sample ?_, stemsApart_sample,
    noCollision_emptiedOps, ?_, by decide +kernel, rfl⟩
  · intro op hop
    obtain rfl | rfl := List.mem_pair.mp hop
    · rfl
    · rfl
  · intro op hop
    obtain rfl | rfl := List.mem_pair.mp hop
    · exact fun _ => by decide
    · exact fun hne => absurd rfl hne

end Samples

end EthereumJS.BinaryTreeState
