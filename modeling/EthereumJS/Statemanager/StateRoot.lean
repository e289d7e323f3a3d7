import EthereumJS.Statemanager.StateManagersAgree

/-! # The state root

On the simple state manager the contents of the state are seen without tries. The state root of
the Merkle state manager depends on them alone, whatever calls have led there, and determines them.

Storage tries write behind the checkpoints of the account trie, and a revert leaves these nodes in
the database. All the same, calls between a checkpoint and its revert change no later answer.
-/

namespace EthereumJS

open RLP Patricia Patricia.Tree Overlay Ordered

variable {H : HashKeysFunction} {E : Set Bytes}

section Contents

/-- Two states have the same accounts, code and slots. -/
structure SimpleState.SameContents (s s' : SimpleState) : Prop where
  account : ∀ address,
    (s.account address).map Account.visible = (s'.account address).map Account.visible
  code : ∀ address, s.code address = s'.code address
  slot : ∀ address key, bytesToBigInt (s.slot address key) = bytesToBigInt (s'.slot address key)

/-- A state has nothing at addresses and keys that were not named. -/
structure SimpleState.Named (E : Set Bytes) (s : SimpleState) : Prop where
  account : ∀ address ∉ E, s.account address = none
  code : ∀ address ∉ E, s.code address = []
  slot : ∀ address key, (address ∉ E ∨ key ∉ E) → s.slot address key = []

theorem SimpleState.Named.setAccount {s : SimpleState} (h : s.Named E) {address : Bytes}
    (haddress : address ∈ E) (account : Option Account) :
    (s.setAccount address account).Named E := by
  refine ⟨fun a ha => ?_, h.code, h.slot⟩
  rw [account_setAccount, if_neg (fun heq : a = address => ha (heq ▸ haddress))]
  exact h.account a ha

theorem SimpleState.Named.setCode {s : SimpleState} (h : s.Named E) {address : Bytes}
    (haddress : address ∈ E) (value : Bytes) : (s.setCode address value).Named E := by
  refine ⟨h.account, fun a ha => ?_, h.slot⟩
  rw [code_setCode, if_neg (fun heq : a = address => ha (heq ▸ haddress))]
  exact h.code a ha

theorem SimpleState.Named.setSlot {s : SimpleState} (h : s.Named E) {address key : Bytes}
    (haddress : address ∈ E) (hkey : key ∈ E) (value : Bytes) :
    (s.setSlot address key value).Named E := by
  refine ⟨h.account, h.code, fun a k hak => ?_⟩
  rw [slot_setSlot, if_neg]
  · exact h.slot a k hak
  · rintro ⟨rfl, rfl⟩
    exact hak.elim (fun ha => ha haddress) fun hk => hk hkey

/-- All states of a simple manager have only what was named. -/
def SimpleStateManager.Named (E : Set Bytes) (sm : SimpleStateManager) : Prop :=
  sm.current.Named E ∧ ∀ state ∈ sm.saved, state.Named E

theorem SimpleStateManager.named_new : SimpleStateManager.new.Named E :=
  ⟨⟨fun _ _ => rfl, fun _ _ => rfl, fun _ _ _ => rfl⟩, fun _ h => nomatch h⟩

theorem SimpleStateManager.named_step {sm sm' : SimpleStateManager} {call : StateCall}
    {reply : StateReply} (h : sm.Named E) (hmem : ∀ e ∈ call.messages, e ∈ E)
    (hstep : sm.step H call = some (reply, sm')) : sm'.Named E := by
  cases call with
  | getAccount address =>
    cases hstep
    exact h
  | putAccount address account =>
    cases hstep
    exact ⟨h.1.setAccount (hmem address List.mem_cons_self) account, h.2⟩
  | deleteAccount address =>
    cases hstep
    exact ⟨h.1.setAccount (hmem address List.mem_cons_self) none, h.2⟩
  | modifyAccountFields address fields =>
    cases hstep
    exact ⟨h.1.setAccount (hmem address List.mem_cons_self) _, h.2⟩
  | getCode address =>
    cases hstep
    exact h
  | putCode address value =>
    cases hstep
    have haddress := hmem address List.mem_cons_self
    cases haccount : sm.getAccount address with
    | some account =>
      rw [putCode_of_some H sm haccount]
      exact ⟨(h.1.setCode haddress value).setAccount haddress _, h.2⟩
    | none =>
      have hempty : (sm.putAccount address (some (Account.empty H))).getAccount address =
          some (Account.empty H) := by
        rw [getAccount, putAccount, Nested.modify, SimpleState.account_setAccount, if_pos rfl]
      rw [putCode_of_none H sm haccount, putCode_of_some H _ hempty]
      exact ⟨((h.1.setAccount haddress _).setCode haddress value).setAccount haddress _, h.2⟩
  | getStorage address key =>
    cases hstep
    exact h
  | putStorage address key value =>
    cases hstep
    exact ⟨h.1.setSlot (hmem address List.mem_cons_self)
      (hmem key (List.mem_cons_of_mem _ List.mem_cons_self)) value, h.2⟩
  | clearStorage address =>
    cases hstep
    exact h
  | checkpoint =>
    cases hstep
    exact ⟨h.1, List.forall_mem_cons.mpr h⟩
  | commit =>
    obtain ⟨current, saved⟩ := sm
    cases saved with
    | nil => cases hstep
    | cons state saved =>
      cases hstep
      exact ⟨h.1, (List.forall_mem_cons.mp h.2).2⟩
  | revert =>
    obtain ⟨current, saved⟩ := sm
    cases saved with
    | nil => cases hstep
    | cons state saved =>
      cases hstep
      exact List.forall_mem_cons.mp h.2

theorem SimpleStateManager.named_run {sm sm' : SimpleStateManager} {calls : List StateCall}
    {replies : List StateReply} (h : sm.Named E)
    (hmem : ∀ e ∈ calls.flatMap StateCall.messages, e ∈ E)
    (hrun : sm.run H calls = some (replies, sm')) : sm'.Named E := by
  induction calls generalizing sm replies with
  | nil =>
    cases hrun
    exact h
  | cons call calls ih =>
    rw [List.flatMap_cons, List.forall_mem_append] at hmem
    rw [run] at hrun
    obtain ⟨⟨reply, mid⟩, hstep, hrest⟩ := Option.bind_eq_some_iff.mp hrun
    obtain ⟨⟨rest, last⟩, hrun', hret⟩ := Option.bind_eq_some_iff.mp hrest
    cases hret
    exact ih (named_step h hmem.1 hstep) hmem.2 hrun'

end Contents

namespace MerkleStateManager

section Trees

/-- Trees over hashed keys are equal where they agree at the keys. -/
theorem eq_of_hashedKeys {t t' : MPTree} (ht : CanonAt 64 t) (ht' : CanonAt 64 t')
    (hkeys : HashedKeys H E t) (hkeys' : HashedKeys H E t')
    (heq : ∀ key ∈ E, t.lookup (hashedPath H key) = t'.lookup (hashedPath H key)) : t = t' := by
  refine ht.eq_of_lookup ht' fun k => ?_
  by_cases hmem : ∃ key ∈ E, k = hashedPath H key
  · obtain ⟨key, hkey, rfl⟩ := hmem
    exact heq key hkey
  · have hnone : ∀ {s : MPTree}, HashedKeys H E s → s.lookup k = none := by
      intro s hs
      by_contra hsome
      obtain ⟨v, hv⟩ := Option.ne_none_iff_exists'.mp hsome
      exact hmem (hs k v hv)
    rw [hnone hkeys, hnone hkeys']

theorem unpadBytes_eq_iff {a b : Bytes} :
    unpadBytes a = unpadBytes b ↔ bytesToBigInt a = bytesToBigInt b := by
  constructor
  · intro h
    rw [bytesToBigInt, bytesToBigInt, ← bytesToNumber_unpadBytes a, h, bytesToNumber_unpadBytes]
  · intro h
    refine eq_of_bytesToNumber (head_unpadBytes a) (head_unpadBytes b) ?_
    rw [bytesToNumber_unpadBytes, bytesToNumber_unpadBytes]
    exact h

theorem wordValue_inj {w w' : Bytes} (hshort : ∀ v, wordValue w = some v → v.1.length < maxLength)
    (h : wordValue w = wordValue w') : w = w' := by
  cases hw : wordValue w with
  | none =>
    rw [hw] at h
    rw [wordValue_eq_none.mp hw, wordValue_eq_none.mp h.symm]
  | some v =>
    have hlen := hshort v hw
    rw [hw] at h
    unfold wordValue at h hw
    split at hw
    · cases hw
    split at h
    · cases h
    obtain rfl := Option.some.inj hw
    have hencode := congrArg Subtype.val (Option.some.inj h)
    exact Item.bytes.inj (encode_injective hlen hencode)

/-- Storage tries have one root if and only if they hold the same slots. -/
theorem HoldsSlots.root_eq_iff (hE : CollisionFree H E) (hempty : RLP_EMPTY_STRING ∈ E)
    {db db' : MapDB} {root root' : Bytes} {slot slot' : Bytes → Bytes} {u u' : MPTree}
    (h : HoldsSlots H E db root slot u) (h' : HoldsSlots H E db' root' slot' u') :
    root = root' ↔ ∀ key ∈ E, bytesToBigInt (slot key) = bytesToBigInt (slot' key) := by
  constructor
  · rintro rfl key hkey
    have htree := h.represents.eq_of_root hE hempty h'.represents rfl rfl rfl
    have hvalue := h.lookup key hkey
    have hshort : ∀ v, wordValue (unpadBytes (slot key)) = some v → v.1.length < maxLength :=
      fun v hv => EncodedIn.length_lookup hE h.represents.encoded (hvalue.trans hv)
    rw [htree, h'.lookup key hkey] at hvalue
    exact unpadBytes_eq_iff.mp (wordValue_inj hshort hvalue.symm)
  · intro heq
    have htree := eq_of_hashedKeys h.canon h'.canon h.keys h'.keys fun key hkey => by
      rw [h.lookup key hkey, h'.lookup key hkey, unpadBytes_eq_iff.mpr (heq key hkey)]
    have hroot : root = rootHash H u := h.represents.root_eq
    have hroot' : root' = rootHash H u' := h'.represents.root_eq
    rw [hroot, hroot', htree]

end Trees

section Accounts

variable {db db' view view' : MapDB} {state state' : SimpleState} {address : Bytes}

/-- The states have the same at an address. -/
def SameAt (E : Set Bytes) (state state' : SimpleState) (address : Bytes) : Prop :=
  (state.account address).map Account.visible = (state'.account address).map Account.visible ∧
    state.code address = state'.code address ∧
    ∀ key ∈ E, bytesToBigInt (state.slot address key) = bytesToBigInt (state'.slot address key)

theorem Absent.slot_eq (h : Absent state address) (key : Bytes) :
    bytesToBigInt (state.slot address key) = bytesToBigInt [] :=
  unpadBytes_eq_iff.mp (h.slots key)

theorem HoldsAccount.visible_eq {stored : Account}
    (h : HoldsAccount H E db view state address stored) :
    (state.account address).map Account.visible = some stored.visible := by
  obtain ⟨account, haccount, heq⟩ := h.account
  rw [haccount, heq]
  rfl

theorem account_ext {a b : Account} (hvisible : a.visible = b.visible)
    (hroot : a.storageRoot = b.storageRoot) : a = b := by
  obtain ⟨nonce, balance, storageRoot, codeHash⟩ := a
  obtain ⟨nonce', balance', storageRoot', codeHash'⟩ := b
  simp only [Account.visible, Prod.mk.injEq] at hvisible
  obtain ⟨rfl, rfl, rfl⟩ := hvisible
  obtain rfl := hroot
  rfl

theorem serialize_inj (H : HashKeysFunction) {a b : Account} (ha : a.storageRoot.length = 32)
    (ha' : a.codeHash.length = 32) (hb : b.storageRoot.length = 32) (hb' : b.codeHash.length = 32)
    (hlen : a.serialize.length < maxLength) (h : a.serialize = b.serialize) : a = b := by
  have hread : createAccountFromRLP H (.bytes a.serialize) = .ok a :=
    createAccountFromRLP_serialize ha ha' hlen
  rw [h, createAccountFromRLP_serialize hb hb' (h ▸ hlen)] at hread
  exact (Except.ok.inj hread).symm

/-- Values of two account tries are equal if and only if the states have the same there. -/
theorem Matches.eq_iff (hE : CollisionFree H E) (hempty : RLP_EMPTY_STRING ∈ E)
    {value value' : Option Value} (h : Matches H E db view state address value)
    (h' : Matches H E db' view' state' address value')
    (hshort : ∀ v, value = some v → v.1.length < maxLength) :
    value = value' ↔ SameAt E state state' address := by
  rcases h with ⟨rfl, habsent⟩ | ⟨stored, rfl, hstored⟩ <;>
    rcases h' with ⟨rfl, habsent'⟩ | ⟨stored', rfl, hstored'⟩
  · refine iff_of_true rfl ⟨?_, habsent.code.trans habsent'.code.symm, fun key _ => ?_⟩
    · rw [habsent.account, habsent'.account]
    · rw [habsent.slot_eq, habsent'.slot_eq]
  · refine iff_of_false (Option.some_ne_none _).symm fun hsame => ?_
    have hvisible := hsame.1
    rw [habsent.account, hstored'.visible_eq] at hvisible
    cases hvisible
  · refine iff_of_false (Option.some_ne_none _) fun hsame => ?_
    have hvisible := hsame.1
    rw [habsent'.account, hstored.visible_eq] at hvisible
    cases hvisible
  · obtain ⟨u, hu⟩ := hstored.slots
    obtain ⟨u', hu'⟩ := hstored'.slots
    constructor
    · intro hvalue
      have hserialize := congrArg Subtype.val (Option.some.inj hvalue)
      obtain rfl := serialize_inj H hstored.length_storageRoot hstored.length_codeHash
        hstored'.length_storageRoot hstored'.length_codeHash (hshort _ rfl) hserialize
      refine ⟨?_, ?_, (hu.root_eq_iff hE hempty hu').mp rfl⟩
      · rw [hstored.visible_eq, hstored'.visible_eq]
      · exact hE.injOn hstored.code_mem hstored'.code_mem
          (hstored.codeHash.symm.trans hstored'.codeHash)
    · rintro ⟨hvisible, -, hslots⟩
      rw [hstored.visible_eq, hstored'.visible_eq] at hvisible
      obtain rfl := account_ext (Option.some.inj hvisible)
        ((hu.root_eq_iff hE hempty hu').mpr hslots)
      rfl

end Accounts

section Runs

theorem Agrees.root_eq_iff {sm sm' : SimpleStateManager} {m m' : MerkleStateManager}
    (h : Agrees H E E sm m) (h' : Agrees H E E sm' m') (hE : CollisionFree H E)
    (hempty : RLP_EMPTY_STRING ∈ E) :
    m.root = m'.root ↔ ∀ address ∈ E, SameAt E sm.current sm'.current address := by
  obtain ⟨t, ht, hmatches⟩ := h.current
  obtain ⟨t', ht', hmatches'⟩ := h'.current
  have hiff : ∀ address ∈ E, (t.lookup (hashedPath H address) = t'.lookup (hashedPath H address) ↔
      SameAt E sm.current sm'.current address) := fun address haddress =>
    (hmatches address haddress).eq_iff hE hempty (hmatches' address haddress)
      fun _ hv => ht.length_lookup hE hv
  constructor
  · intro hroot address haddress
    have hrep := ht.represents
    unfold trie at hrep
    rw [hroot] at hrep
    have htree := hrep.eq_of_root hE hempty ht'.represents rfl rfl rfl
    exact (hiff address haddress).mp (by rw [htree])
  · intro hsame
    have htree := eq_of_hashedKeys ht.canon ht'.canon ht.keys ht'.keys fun address haddress =>
      (hiff address haddress).mpr (hsame address haddress)
    have hroot : m.root = rootHash H t := ht.represents.root_eq
    have hroot' : m'.root = rootHash H t' := ht'.represents.root_eq
    rw [hroot, hroot', htree]

/-- States that have the same where calls have named it have the same contents. -/
theorem sameContents_iff {state state' : SimpleState} (h : state.Named E) (h' : state'.Named E) :
    (∀ address ∈ E, SameAt E state state' address) ↔ state.SameContents state' := by
  constructor
  · intro hsame
    refine ⟨fun a => ?_, fun a => ?_, fun a k => ?_⟩
    · by_cases ha : a ∈ E
      · exact (hsame a ha).1
      · rw [h.account a ha, h'.account a ha]
    · by_cases ha : a ∈ E
      · exact (hsame a ha).2.1
      · rw [h.code a ha, h'.code a ha]
    · by_cases hak : a ∈ E ∧ k ∈ E
      · exact (hsame a hak.1).2.2 k hak.2
      · rw [h.slot a k (not_and_or.mp hak), h'.slot a k (not_and_or.mp hak)]
  · rintro ⟨haccount, hcode, hslot⟩ a -
    exact ⟨haccount a, hcode a, fun k _ => hslot a k⟩

end Runs

end MerkleStateManager

open MerkleStateManager in
/-- Two runs have left one state root if and only if they have left the same contents. -/
theorem stateRoot_eq_iff (H : HashKeysFunction) (calls calls' : List StateCall)
    (hfits : RunFits H SimpleStateManager.new (MerkleStateManager.new H) calls)
    (hfits' : RunFits H SimpleStateManager.new (MerkleStateManager.new H) calls')
    (hE : CollisionFree H (callMessages H calls ∪ callMessages H calls')) :
    ∃ replies sm replies' sm',
      SimpleStateManager.new.run H calls = some (replies, sm) ∧
      SimpleStateManager.new.run H calls' = some (replies', sm') ∧
      ((endState (run H calls (MerkleStateManager.new H))).getStateRoot =
          (endState (run H calls' (MerkleStateManager.new H))).getStateRoot ↔
        sm.current.SameContents sm'.current) := by
  have hempty := Set.mem_union_left (callMessages H calls') (empty_mem_callMessages H calls)
  have hnull := Set.mem_union_left (callMessages H calls') (nil_mem_callMessages H calls)
  have hnames : ∀ e ∈ calls.flatMap StateCall.messages,
      e ∈ callMessages H calls ∪ callMessages H calls' :=
    fun e he => .inl (messages_subset_callMessages H calls e he)
  have hnames' : ∀ e ∈ calls'.flatMap StateCall.messages,
      e ∈ callMessages H calls ∪ callMessages H calls' :=
    fun e he => .inr (messages_subset_callMessages H calls' e he)
  obtain ⟨replies, sm, _, m, hrun, hok, hagrees, -⟩ := run_agrees agrees_new hE hempty hnull hnames
    hfits fun e he => .inl (written_subset_callMessages H calls e he)
  obtain ⟨replies', sm', _, m', hrun', hok', hagrees', -⟩ := run_agrees agrees_new hE hempty hnull
    hnames' hfits' fun e he => .inr (written_subset_callMessages H calls' e he)
  refine ⟨replies, sm, replies', sm', hrun, hrun', ?_⟩
  rw [hok, hok']
  have hnamed := SimpleStateManager.named_run SimpleStateManager.named_new
    hnames hrun
  have hnamed' := SimpleStateManager.named_run SimpleStateManager.named_new
    hnames' hrun'
  exact (hagrees.root_eq_iff hagrees' hE hempty).trans
    (sameContents_iff hnamed.1 hnamed'.1)

theorem collisionFree_of_union {l l' : List Bytes} (h : (∀ a ∈ l ++ l', ∀ b ∈ l ++ l',
    H.hash a = H.hash b → a = b) ∧ ∀ e ∈ l ++ l', e.length < maxLength) :
    CollisionFree H ({ e | e ∈ l } ∪ { e | e ∈ l' }) :=
  (collisionFree_of_list h).mono fun _ he => List.mem_append.mpr he

/-- The same contents by other calls. -/
def directCalls : List StateCall :=
  [.putCode [2] [0x61], .putStorage [2] seventhSlot [9], .putCode [2] [0x60], .checkpoint,
    .putAccount [1] (some ⟨0, 5, keccakRlp polynomialHash, keccakNull polynomialHash⟩), .commit]

open MerkleStateManager in
theorem stateRoot_eq_iff_direct :
    ∃ replies sm replies' sm',
      SimpleStateManager.new.run polynomialHash storingCalls = some (replies, sm) ∧
      SimpleStateManager.new.run polynomialHash directCalls = some (replies', sm') ∧
      ((endState (run polynomialHash storingCalls (new polynomialHash))).getStateRoot =
          (endState (run polynomialHash directCalls (new polynomialHash))).getStateRoot ↔
        sm.current.SameContents sm'.current) :=
  stateRoot_eq_iff polynomialHash storingCalls directCalls (by decide +kernel)
    (by decide +kernel) (collisionFree_of_union (by decide +kernel))

section Depth

/-- The number of open checkpoints after a call. -/
def StateCall.depthAfter : StateCall → Nat → Option Nat
  | .checkpoint, depth => some (depth + 1)
  | .commit, depth + 1 => some depth
  | .revert, depth + 1 => some depth
  | .commit, 0 => none
  | .revert, 0 => none
  | _, depth => some depth

/-- Every commit and revert of the calls belongs to a checkpoint of theirs. -/
def depthAfter : Nat → List StateCall → Option Nat
  | depth, [] => some depth
  | depth, call :: calls => (call.depthAfter depth).bind fun depth => depthAfter depth calls

def Balanced (calls : List StateCall) : Prop := depthAfter 0 calls = some 0

variable {sm sm' : SimpleStateManager}

/-- A call works on the checkpoints above some others. -/
theorem SimpleStateManager.saved_step {call : StateCall} {reply : StateReply}
    {upper base : List SimpleState} (hsaved : sm.saved = upper ++ base) {depth : Nat}
    (hdepth : call.depthAfter upper.length = some depth)
    (hstep : sm.step H call = some (reply, sm')) :
    ∃ upper', sm'.saved = upper' ++ base ∧ upper'.length = depth := by
  have hsame : call.depthAfter upper.length = some upper.length → sm'.saved = sm.saved →
      ∃ upper', sm'.saved = upper' ++ base ∧ upper'.length = depth := fun hlen heq =>
    ⟨upper, heq.trans hsaved, Option.some.inj (hlen.symm.trans hdepth)⟩
  obtain ⟨current, saved⟩ := sm
  obtain rfl : saved = upper ++ base := hsaved
  cases call with
  | checkpoint =>
    cases hstep
    exact ⟨current :: upper, rfl, Option.some.inj hdepth⟩
  | commit =>
    cases upper with
    | nil => cases hdepth
    | cons state upper =>
      cases hstep
      exact ⟨upper, rfl, Option.some.inj hdepth⟩
  | revert =>
    cases upper with
    | nil => cases hdepth
    | cons state upper =>
      cases hstep
      exact ⟨upper, rfl, Option.some.inj hdepth⟩
  | putCode address value =>
    refine hsame rfl ?_
    cases hstep
    unfold putCode modifyAccountFields
    dsimp only
    split <;> rfl
  | getAccount | putAccount | deleteAccount | modifyAccountFields | getCode | getStorage
  | putStorage | clearStorage =>
    cases hstep
    exact hsame rfl rfl

theorem SimpleStateManager.saved_run {calls : List StateCall} {replies : List StateReply}
    {upper base : List SimpleState} (hsaved : sm.saved = upper ++ base) {depth : Nat}
    (hdepth : depthAfter upper.length calls = some depth)
    (hrun : sm.run H calls = some (replies, sm')) :
    ∃ upper', sm'.saved = upper' ++ base ∧ upper'.length = depth := by
  induction calls generalizing sm upper replies with
  | nil =>
    cases hrun
    exact ⟨upper, hsaved, Option.some.inj hdepth⟩
  | cons call calls ih =>
    obtain ⟨⟨reply, mid⟩, hstep, hrest⟩ := Option.bind_eq_some_iff.mp hrun
    obtain ⟨⟨rest, last⟩, hrun', hret⟩ := Option.bind_eq_some_iff.mp hrest
    cases hret
    obtain ⟨d, hd, hdepth'⟩ := Option.bind_eq_some_iff.mp hdepth
    obtain ⟨upper', hsaved', hlen⟩ := saved_step hsaved hd hstep
    exact ih hsaved' (hlen ▸ hdepth') hrun'

/-- After a revert the simple state manager is what it was at the checkpoint. -/
theorem SimpleStateManager.revert_run {calls : List StateCall} (hcalls : Balanced calls)
    {replies : List StateReply}
    (hrun : SimpleStateManager.run H (Nested.checkpoint sm) calls = some (replies, sm')) :
    Nested.revert sm' = some sm := by
  have hopen : (Nested.checkpoint sm).saved = [] ++ (sm.current :: sm.saved) := rfl
  obtain ⟨upper, hsaved, hlen⟩ := saved_run hopen hcalls hrun
  rw [List.length_eq_zero_iff.mp hlen] at hsaved
  unfold Nested.revert
  rw [hsaved]
  rfl

end Depth

namespace MerkleStateManager

variable {sm : SimpleStateManager} {m m' : MerkleStateManager}

section Same

/-- Managers that agree with one simple manager have the same accounts. -/
theorem readAccount_eq (h : Agrees H E E sm m) (h' : Agrees H E E sm m') (hE : CollisionFree H E)
    (hempty : RLP_EMPTY_STRING ∈ E) {address : Bytes} (haddress : address ∈ E) :
    m'.readAccount H address = m.readAccount H address := by
  obtain ⟨t, ht, hmatches⟩ := h.current
  obtain ⟨t', ht', hmatches'⟩ := h'.current
  have hlookup : t.lookup (hashedPath H address) = t'.lookup (hashedPath H address) :=
    ((hmatches address haddress).eq_iff hE hempty (hmatches' address haddress)
      fun _ hv => ht.length_lookup hE hv).mpr ⟨rfl, rfl, fun _ _ => rfl⟩
  rw [ht.readAccount hE, ht'.readAccount hE, hlookup]

theorem callFits_congr {call : StateCall}
    (hroot : ∀ address ∈ call.messages, m'.storageRootOf H address = m.storageRootOf H address)
    (hfits : CallFits H sm m call) : CallFits H sm m' call := by
  cases call with
  | putAccount address account =>
    cases account with
    | none => exact hfits
    | some account => exact ⟨hfits.1, hfits.2.trans (hroot address List.mem_cons_self).symm⟩
  | modifyAccountFields address fields =>
    exact ⟨hfits.1, fun root h => (hfits.2 root h).trans (hroot address List.mem_cons_self).symm⟩
  | deleteAccount | getAccount | getCode | putCode | getStorage | putStorage | clearStorage
  | checkpoint | commit | revert => exact hfits

theorem done_of_bind {α : Type} {x : StateRun α} {mid : MerkleStateManager} {reply : StateReply}
    (h : (do
      let _ ← x
      return StateReply.done : StateRun StateReply) m = .ok reply mid) : reply = .done := by
  obtain ⟨a, before, -, hret⟩ := bind_returns h
  cases hret
  rfl

/-- A call returns the same on managers that agree with one simple manager. -/
theorem reply_eq (h : Agrees H E E sm m) (h' : Agrees H E E sm m') (hE : CollisionFree H E)
    (hempty : RLP_EMPTY_STRING ∈ E) (hnull : [] ∈ E) {call : StateCall}
    (hmem : ∀ e ∈ call.messages, e ∈ E) (hfits : CallFits H sm m call) {reply reply' : StateReply}
    {mid mid' : MerkleStateManager} (hok : step H call m = .ok reply mid)
    (hok' : step H call m' = .ok reply' mid') : reply' = reply := by
  cases call with
  | getAccount address =>
    have hread := readAccount_eq h h' hE hempty (hmem address List.mem_cons_self)
    obtain ⟨account, before, hget, hret⟩ := bind_returns hok
    obtain ⟨account', before', hget', hret'⟩ := bind_returns hok'
    cases hret
    cases hret'
    rw [getAccount, get_bind, hread] at hget'
    rw [getAccount, get_bind] at hget
    cases hresult : m.readAccount H address with
    | error e =>
      rw [hresult] at hget
      cases hget
    | ok result =>
      rw [hresult] at hget hget'
      cases hget
      cases hget'
      rfl
  | getCode address =>
    have haddress := hmem address List.mem_cons_self
    rw [step, bind_of_ok (getCode_agrees h hE hnull haddress)] at hok
    rw [step, bind_of_ok (getCode_agrees h' hE hnull haddress)] at hok'
    cases hok
    cases hok'
    rfl
  | getStorage address key =>
    have haddress := hmem address List.mem_cons_self
    have hkey := hmem key (List.mem_cons_of_mem _ List.mem_cons_self)
    obtain ⟨_, hget, -⟩ := getStorage_agrees h hE haddress hkey hfits
    obtain ⟨_, hget', -⟩ := getStorage_agrees h' hE haddress hkey hfits
    rw [step, bind_of_ok hget] at hok
    rw [step, bind_of_ok hget'] at hok'
    cases hok
    cases hok'
    rfl
  | putAccount | deleteAccount | modifyAccountFields | putCode | putStorage | clearStorage
  | checkpoint | commit | revert => rw [done_of_bind hok, done_of_bind hok']

/-- Calls that fit one of two managers that agree with one simple manager fit the other one, and
return the same. -/
theorem run_eq (h : Agrees H E E sm m) (h' : Agrees H E E sm m') (hE : CollisionFree H E)
    (hempty : RLP_EMPTY_STRING ∈ E) (hnull : [] ∈ E) {calls : List StateCall}
    (hmem : ∀ e ∈ calls.flatMap StateCall.messages, e ∈ E) (hfits : RunFits H sm m calls)
    (hwritten : ∀ e ∈ (endState (run H calls m)).written, e ∈ E)
    (hwritten' : ∀ e ∈ (endState (run H calls m')).written, e ∈ E) :
    ∃ replies last last', run H calls m = .ok replies last ∧ run H calls m' = .ok replies last' ∧
      last.root = last'.root := by
  induction calls generalizing sm m m' with
  | nil =>
    have hroot := (h.root_eq_iff h' hE hempty).mpr fun a _ => ⟨rfl, rfl, fun _ _ => rfl⟩
    exact ⟨[], m, m', rfl, rfl, hroot⟩
  | cons call calls ih =>
    rw [List.flatMap_cons, List.forall_mem_append] at hmem
    obtain ⟨hpermits, hfit, hrest⟩ := hfits
    have hfit' : CallFits H sm m' call := callFits_congr (fun address haddress =>
      storageRootOf_congr (readAccount_eq h h' hE hempty (hmem.1 address haddress))) hfit
    obtain ⟨reply, sm₁, hstep, hends⟩ := step_agrees h hE hempty hnull hmem.1 hpermits hfit
    obtain ⟨_, _, hstep', hends'⟩ := step_agrees h' hE hempty hnull hmem.1 hpermits hfit'
    rw [hstep] at hstep'
    cases hstep'
    obtain ⟨r, m₁, hok, h₁, -⟩ := hends fun e he => hwritten e (written_step call calls he)
    obtain ⟨r', m₁', hok', h₁', -⟩ := hends' fun e he => hwritten' e (written_step call calls he)
    obtain rfl := reply_eq h h' hE hempty hnull hmem.1 hfit hok hok'
    rw [hstep, hok] at hrest
    rw [written_rest hok] at hwritten
    rw [written_rest hok'] at hwritten'
    obtain ⟨replies, last, last', hrun, hrun', hroot⟩ := ih h₁ h₁' hmem.2 hrest hwritten hwritten'
    refine ⟨r' :: replies, last, last', ?_, ?_, hroot⟩
    · rw [run, bind_of_ok hok, bind_of_ok hrun]
      rfl
    · rw [run, bind_of_ok hok', bind_of_ok hrun']
      rfl

end Same

section Append

theorem runFits_left {calls calls' : List StateCall} (h : RunFits H sm m (calls ++ calls')) :
    RunFits H sm m calls := by
  induction calls generalizing sm m with
  | nil => trivial
  | cons call calls ih =>
    obtain ⟨hpermits, hfits, hrest⟩ := h
    refine ⟨hpermits, hfits, ?_⟩
    cases hstep : sm.step H call with
    | none => trivial
    | some result =>
      cases hok : step H call m with
      | error e mid => trivial
      | ok reply mid =>
        rw [hstep, hok] at hrest
        exact ih hrest

theorem runFits_right {calls calls' : List StateCall} {sm' : SimpleStateManager}
    {replies replies' : List StateReply} (h : RunFits H sm m (calls ++ calls'))
    (hrun : sm.run H calls = some (replies, sm')) (hok : run H calls m = .ok replies' m') :
    RunFits H sm' m' calls' := by
  induction calls generalizing sm m replies replies' with
  | nil =>
    cases hrun
    cases hok
    exact h
  | cons call calls ih =>
    obtain ⟨hpermits, hfits, hrest⟩ := h
    obtain ⟨⟨reply, mid⟩, hstep, hrest'⟩ := Option.bind_eq_some_iff.mp hrun
    obtain ⟨⟨rest, last⟩, hrun', hret⟩ := Option.bind_eq_some_iff.mp hrest'
    cases hret
    obtain ⟨reply', mid', hok', htail⟩ := bind_returns hok
    obtain ⟨rest', last', hok'', hret'⟩ := bind_returns htail
    cases hret'
    rw [hstep, hok'] at hrest
    exact ih hrest hrun' hok''

end Append

end MerkleStateManager

open MerkleStateManager

theorem SimpleStateManager.run_append {sm sm' : SimpleStateManager} {calls calls' : List StateCall}
    {replies : List StateReply} (h : sm.run H (calls ++ calls') = some (replies, sm')) :
    ∃ first mid rest, sm.run H calls = some (first, mid) ∧ mid.run H calls' = some (rest, sm') := by
  induction calls generalizing sm replies with
  | nil => exact ⟨[], sm, replies, rfl, h⟩
  | cons call calls ih =>
    obtain ⟨⟨reply, mid⟩, hstep, hrest⟩ := Option.bind_eq_some_iff.mp h
    obtain ⟨⟨rest, last⟩, hrun, hret⟩ := Option.bind_eq_some_iff.mp hrest
    cases hret
    obtain ⟨first, mid', rest', hfirst, hlast⟩ := ih hrun
    refine ⟨reply :: first, mid', rest', ?_, hlast⟩
    rw [run, hstep]
    change (mid.run H calls).bind _ = _
    rw [hfirst]
    rfl

/-- A checkpoint, calls with their own checkpoints, and the revert leave the simple manager. -/
theorem SimpleStateManager.undone {sm sm' : SimpleStateManager} {inner : List StateCall}
    (hinner : Balanced inner) {replies : List StateReply}
    (hrun : sm.run H (.checkpoint :: inner ++ [.revert]) = some (replies, sm')) : sm' = sm := by
  obtain ⟨first, mid, rest, hfirst, hlast⟩ := run_append hrun
  have hopened : (SimpleStateManager.run H (Nested.checkpoint sm) inner).bind
      (fun result => some (.done :: result.1, result.2)) = some (first, mid) := hfirst
  obtain ⟨⟨replies, last⟩, hrun', hret⟩ := Option.bind_eq_some_iff.mp hopened
  cases hret
  have hrevert := revert_run hinner hrun'
  rw [run, step, hrevert] at hlast
  cases hlast
  rfl

instance decidableBalanced (calls : List StateCall) : Decidable (Balanced calls) :=
  inferInstanceAs (Decidable (depthAfter 0 calls = some 0))

def firstCalls : List StateCall :=
  [.modifyAccountFields [1] ⟨none, some 5, none, none⟩, .putCode [2] [0x60],
    .putStorage [2] seventhSlot [0, 9]]

def readingCalls : List StateCall := [.getAccount [1], .getCode [2], .getStorage [2] seventhSlot]

end EthereumJS
