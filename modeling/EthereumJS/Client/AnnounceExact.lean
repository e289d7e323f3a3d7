import EthereumJS.Client.Bookkeeping
import EthereumJS.Client.TxAnnounce

/-! # What is announced

`handleAnnouncedTxs` announces nothing and throws beside other peers, `handleAnnouncedTxHashes`
announces rejected transactions too, and `sendNewTxHashes` cuts a list of hashes off.
-/

namespace EthereumJS.Client.PeerTxPool

open RLP Tx Ordered

section Unknown

variable {known : List Bytes} {entries : List Entry} {entry : Entry} {α : Type}

theorem newHashes_map (known : List Bytes) (entries : List Entry) :
    newHashes known (entries.map Entry.hash) = (unknown known entries).map Entry.hash := by
  induction entries generalizing known with
  | nil => rfl
  | cons entry entries ih =>
    rw [List.map_cons, newHashes, unknown]
    split
    · exact ih known
    · rw [List.map_cons, ih]

theorem not_known_of_mem (h : entry ∈ unknown known entries) : entry.hash ∉ known := by
  induction entries generalizing known with
  | nil => cases h
  | cons first entries ih =>
    rw [unknown] at h
    split at h
    · exact ih h
    · next hnew =>
      obtain rfl | h := List.mem_cons.mp h
      · exact hnew
      · intro hmem
        exact ih h (List.mem_append_left _ hmem)

/-- An entry that is kept is the first one with its hash. -/
theorem find_of_mem_unknown (h : entry ∈ unknown known entries) :
    entries.find? (fun e => e.hash == entry.hash) = some entry := by
  induction entries generalizing known with
  | nil => cases h
  | cons first entries ih =>
    rw [unknown] at h
    split at h
    · next hold =>
      have hne : first.hash ≠ entry.hash := fun heq => not_known_of_mem h (heq ▸ hold)
      rw [List.find?_cons_of_neg (by simpa using hne)]
      exact ih h
    · obtain rfl | h := List.mem_cons.mp h
      · exact List.find?_cons_of_pos (by simp)
      · have hne : first.hash ≠ entry.hash := by
          intro heq
          apply not_known_of_mem h
          rw [heq]
          exact List.mem_append_right _ List.mem_cons_self
        rw [List.find?_cons_of_neg (by simpa using hne)]
        exact ih h

theorem getElem_findIdx (f : Entry → α) (entries : List Entry) (hash : Bytes) :
    (entries.map f)[(entries.map Entry.hash).findIdx (· == hash)]? =
      (entries.find? fun e => e.hash == hash).map f := by
  induction entries with
  | nil => rfl
  | cons first entries ih =>
    rw [List.map_cons, List.map_cons, List.findIdx_cons, List.find?_cons]
    cases first.hash == hash with
    | true => rfl
    | false =>
      rw [cond_false, List.getElem?_cons_succ]
      exact ih

/-- The lists that are sent stay aligned. -/
theorem message68_eq (known : List Bytes) (entries : List Entry) :
    message68 (announce entries) ((unknown known entries).map Entry.hash) =
      .newPooledTransactionHashes68 ((unknown known entries).map fun entry => some entry.type)
        ((unknown known entries).map fun entry => some entry.size)
        ((unknown known entries).map Entry.hash) := by
  have hcolumn : ∀ {β : Type} (f : Entry → β), ((unknown known entries).map Entry.hash).map
      (fun hash => (entries.map f)[(entries.map Entry.hash).findIdx (· == hash)]?) =
        (unknown known entries).map fun entry => some (f entry) := by
    intro β f
    rw [List.map_map]
    refine List.map_congr_left fun entry hentry => ?_
    rw [Function.comp_apply, getElem_findIdx, find_of_mem_unknown hentry, Option.map_some]
  rw [message68, announce]
  dsimp only
  rw [hcolumn Entry.type, hcolumn Entry.size]

end Unknown

section Send

variable {self : PeerTxPool} {known : List Bytes} {entries : List Entry} {peer other : TxPeer}
  {peers : List TxPeer}

/-- What a peer is sent that knows some hashes. -/
def turn (known : List Bytes) (entries : List Entry) (peer : TxPeer) : List TxMessage :=
  if unknown known entries = [] ∨ peer.eth = none then []
  else if peer.hasEth68 then [chunkMessage peer (unknown known entries)]
  else [.newPooledTransactionHashes (((unknown known entries).map Entry.hash).take 4096)]

/-- The peer knows all, or it can be told all of the rest in one message. -/
def FitsPeer (known : List Bytes) (entries : List Entry) (peer : TxPeer) : Prop :=
  unknown known entries = [] ∨
    peer.eth ≠ none ∧ (peer.hasEth68 ∨ (unknown known entries).length ≤ 4096)

theorem hashes_chunkMessage {peer : TxPeer} (h : ¬ peer.hasEth68) (chunk : List Entry) :
    chunkMessage peer chunk = .newPooledTransactionHashes (chunk.map Entry.hash) := if_neg h

theorem turn_iff : (∃ chunks : List (List Entry), turn known entries peer =
      chunks.map (chunkMessage peer) ∧ chunks.flatten = unknown known entries) ↔
    FitsPeer known entries peer := by
  rw [turn, FitsPeer]
  by_cases hnew : unknown known entries = []
  · rw [if_pos (.inl hnew)]
    exact iff_of_true ⟨[], rfl, hnew.symm⟩ (.inl hnew)
  by_cases heth : peer.eth = none
  · rw [if_pos (.inr heth)]
    refine iff_of_false ?_ (by simp [hnew, heth])
    rintro ⟨chunks, hchunks, hflat⟩
    rw [List.map_eq_nil_iff.mp hchunks.symm] at hflat
    exact hnew hflat.symm
  rw [if_neg (by simp [hnew, heth])]
  by_cases h68 : peer.hasEth68
  · rw [if_pos h68]
    exact iff_of_true ⟨[unknown known entries], rfl, List.flatten_singleton⟩
      (.inr ⟨heth, .inl h68⟩)
  rw [if_neg h68]
  constructor
  · rintro ⟨chunks, hchunks, hflat⟩
    obtain ⟨chunk, rfl, hchunk⟩ := List.map_eq_singleton_iff.mp hchunks.symm
    rw [List.flatten_singleton] at hflat
    subst hflat
    rw [hashes_chunkMessage h68] at hchunk
    have hlength := congrArg List.length (TxMessage.newPooledTransactionHashes.inj hchunk)
    rw [List.length_take, List.length_map] at hlength
    exact .inr ⟨heth, .inr (by omega)⟩
  · rintro (hnil | ⟨-, hhas | hle⟩)
    · exact absurd hnil hnew
    · exact absurd hhas h68
    · refine ⟨[unknown known entries], ?_, List.flatten_singleton⟩
      rw [List.take_of_length_le (by rwa [List.length_map]), List.map_singleton,
        hashes_chunkMessage h68]

theorem sendToPeer_eq (self : PeerTxPool) (entries : List Entry) (peer : TxPeer) :
    self.sendToPeer (announce entries) peer =
      ((self.addToKnownByPeer (announce entries).hashes peer).2,
        (turn (self.knownByPeer peer.id) entries peer).map fun message => (peer.id, message)) := by
  have hnew : (self.addToKnownByPeer (announce entries).hashes peer).1 =
      (unknown (self.knownByPeer peer.id) entries).map Entry.hash := newHashes_map _ _
  rw [sendToPeer, turn]
  dsimp only
  rw [hnew, List.length_map]
  by_cases hnil : unknown (self.knownByPeer peer.id) entries = []
  · rw [if_neg (by simp [hnil]), if_pos (.inl hnil)]
    rfl
  have hpos : (unknown (self.knownByPeer peer.id) entries).length > 0 :=
    List.length_pos_iff.mpr hnil
  by_cases heth : peer.eth = none
  · rw [if_neg (by simp [heth]), if_pos (.inr heth)]
    rfl
  rw [if_pos ⟨hpos, Option.isSome_iff_ne_none.mpr heth⟩, if_neg (not_or.mpr ⟨hnil, heth⟩)]
  by_cases h68 : peer.hasEth68
  · rw [if_pos h68, if_pos h68, message68_eq, List.map_singleton, chunkMessage, if_pos h68]
  · rw [if_neg h68, if_neg h68]
    rfl

theorem sendToPeer_known (self : PeerTxPool) (entries : List Entry) (h : other.id ≠ peer.id) :
    (self.sendToPeer (announce entries) peer).1.knownByPeer other.id =
      self.knownByPeer other.id := by
  rw [sendToPeer_eq, addToKnownByPeer]
  exact Function.update_of_ne h _ _

theorem sendNewTxHashes_cons (self : PeerTxPool) (entries : List Entry) (peer : TxPeer)
    (peers : List TxPeer) :
    (self.sendNewTxHashes (some (announce entries)) (peer :: peers)).2 =
      ((self.sendToPeer (announce entries) peer).2 ++
          ((self.sendToPeer (announce entries) peer).1.sendNewTxHashes (some (announce entries))
            peers).2.1,
        ((self.sendToPeer (announce entries) peer).1.sendNewTxHashes (some (announce entries))
            peers).2.2) := rfl

theorem sendNewTxHashes_ok (self : PeerTxPool) (announcement : Announcement)
    (peers : List TxPeer) :
    (self.sendNewTxHashes (some announcement) peers).2.2 = .ok () := by
  induction peers generalizing self with
  | nil => rfl
  | cons peer peers ih => exact ih (self.sendToPeer announcement peer).1

/-- Messages go to the peers of the list. -/
theorem sendNewTxHashes_ids {message : String × TxMessage}
    (h : message ∈ (self.sendNewTxHashes (some (announce entries)) peers).2.1) :
    message.1 ∈ peers.map TxPeer.id := by
  induction peers generalizing self with
  | nil => cases h
  | cons peer peers ih =>
    rw [sendNewTxHashes_cons, sendToPeer_eq, List.mem_append] at h
    obtain hfirst | hlater := h
    · obtain ⟨_, -, rfl⟩ := List.mem_map.mp hfirst
      exact List.mem_cons_self
    · exact List.mem_cons_of_mem _ (ih hlater)

/-- Each peer has its turn. -/
theorem sendNewTxHashes_turn (hnodup : (peers.map TxPeer.id).Nodup) (hpeer : peer ∈ peers) :
    ((self.sendNewTxHashes (some (announce entries)) peers).2.1.filter
      (fun message => message.1 = peer.id)).map Prod.snd =
        turn (self.knownByPeer peer.id) entries peer := by
  induction peers generalizing self with
  | nil => cases hpeer
  | cons first peers ih =>
    rw [List.map_cons, List.nodup_cons] at hnodup
    rw [sendNewTxHashes_cons]
    dsimp only
    rw [List.filter_append, List.map_append]
    obtain rfl | hpeer := List.mem_cons.mp hpeer
    · have hlater : ((self.sendToPeer (announce entries) peer).1.sendNewTxHashes
          (some (announce entries)) peers).2.1.filter
            (fun message => message.1 = peer.id) = [] := by
        rw [List.filter_eq_nil_iff]
        intro message hmessage heq
        exact hnodup.1 (of_decide_eq_true heq ▸ sendNewTxHashes_ids hmessage)
      have hown : ((self.sendToPeer (announce entries) peer).2.filter
          (fun message => message.1 = peer.id)) = (self.sendToPeer (announce entries) peer).2 := by
        rw [List.filter_eq_self, sendToPeer_eq]
        intro message hmessage
        obtain ⟨_, -, rfl⟩ := List.mem_map.mp hmessage
        exact decide_eq_true rfl
      rw [hlater, hown, sendToPeer_eq, List.map_nil, List.append_nil, List.map_map]
      exact List.map_id _
    · have hne : peer.id ≠ first.id := fun heq => hnodup.1 (heq ▸ List.mem_map_of_mem hpeer)
      have hfirst : ((self.sendToPeer (announce entries) first).2.filter
          (fun message => message.1 = peer.id)) = [] := by
        rw [List.filter_eq_nil_iff, sendToPeer_eq]
        intro message hmessage heq
        obtain ⟨_, -, rfl⟩ := List.mem_map.mp hmessage
        exact hne (of_decide_eq_true heq).symm
      rw [hfirst, List.map_nil, List.nil_append, ih hnodup.2 hpeer, sendToPeer_known _ _ hne]

theorem sendsExactly_iff (hnodup : (peers.map TxPeer.id).Nodup) :
    SendsExactly self entries peers ↔
      ∀ peer ∈ peers, FitsPeer (self.knownByPeer peer.id) entries peer := by
  constructor
  · rintro ⟨-, hpeers⟩ peer hpeer
    have hchunks := hpeers peer hpeer
    rw [sendNewTxHashes_turn hnodup hpeer] at hchunks
    exact turn_iff.mp hchunks
  · intro hfits
    refine ⟨sendNewTxHashes_ok _ _ _, fun peer hpeer => ?_⟩
    rw [sendNewTxHashes_turn hnodup hpeer]
    exact turn_iff.mpr (hfits peer hpeer)

end Send

section Handlers

variable {config : PoolConfig} {self : PeerTxPool} {pool : TxPool} {txs : List IncomingTx}
  {peer : TxPeer} {peerPool : PeerPool} {txHashes : List Bytes}
  {getPooledTransactions : List Bytes → Option (List IncomingTx)}

/-- An empty array stays empty. -/
theorem foldl_announceTx (config : PoolConfig) (pool : TxPool) (txs : List IncomingTx) :
    (txs.foldl (announceTx config) (pool, none)).2 = none := by
  induction txs generalizing pool with
  | nil => rfl
  | cons incoming txs ih =>
    have hstep : (announceTx config (pool, none) incoming).2 = none := by
      rw [announceTx]
      split
      · rfl
      · rfl
    rw [List.foldl_cons, ← Prod.mk.eta (p := announceTx config (pool, none) incoming), hstep]
    exact ih _

theorem sendNewTxHashes_none (self : PeerTxPool) (peers : List TxPeer) :
    (self.sendNewTxHashes none peers).2.2 = .ok () ↔ peers = [] := by
  cases peers with
  | nil => exact iff_of_true rfl rfl
  | cons peer peers => exact iff_of_false (by rintro ⟨⟩) (List.cons_ne_nil _ _)

theorem hash_ok_iff (config : PoolConfig) (tx : Tx.Transaction) :
    (∃ hash, TxPool.hash config tx = .ok hash) ↔ tx.base.isSigned := by
  rw [TxPool.hash]
  split
  · next h => exact iff_of_true ⟨_, rfl⟩ h
  · next h => exact iff_of_false (by rintro ⟨hash, ⟨⟩⟩) h

theorem mapM_hash_iff (config : PoolConfig) (txs : List IncomingTx) :
    (∃ hashes, (txs.mapM fun incoming => TxPool.hash config incoming.tx) = .ok hashes) ↔
      ∀ incoming ∈ txs, incoming.tx.base.isSigned := by
  rw [exists_mapM_eq_ok_iff]
  exact forall₂_congr fun incoming _ => hash_ok_iff config incoming.tx

/-- Peers behind those that get the transactions in full are there as soon as there are two. -/
theorem drop_sendFull_iff (peers : List TxPeer) :
    peers.drop (max 1 (peers.length / NUM_PEERS_REBROADCAST_QUOTIENT)) = [] ↔
      peers.length ≤ 1 := by
  rw [List.drop_eq_nil_iff, NUM_PEERS_REBROADCAST_QUOTIENT]
  omega

/-- The empty array goes to the peers behind those that get the transactions in full. -/
theorem handleAnnouncedTxs_run (peer : TxPeer) (peerPool : PeerPool)
    (hrun : ¬ (self.running = false ∨ txs = [])) {hashes : List Bytes}
    (hhashes : (txs.mapM fun incoming => TxPool.hash config incoming.tx) = .ok hashes) :
    (handleAnnouncedTxs config self txs peer peerPool).handed = some none ∧
      ((handleAnnouncedTxs config self txs peer peerPool).outcome = .ok () ↔
        peerPool.peers.length ≤ 1) := by
  have hnone := foldl_announceTx config (self.addToKnownByPeer hashes peer).2.toTxPool txs
  rw [handleAnnouncedTxs, if_neg (by simpa using hrun), hhashes]
  dsimp only
  rw [hnone]
  exact ⟨rfl, (sendNewTxHashes_none _ _).trans (drop_sendFull_iff _)⟩

/-- `handleAnnouncedTxs` is exact where it has nothing to announce and no one to tell. -/
theorem handleAnnouncedTxs_iff :
    AnnouncesExactly config self.toTxPool txs
        (handleAnnouncedTxs config self txs peer peerPool) ↔
      self.running = false ∨ txs = [] ∨
        (∀ incoming ∈ txs, incoming.tx.base.isSigned) ∧
          acceptedTxs config self.toTxPool txs = [] ∧ peerPool.peers.length ≤ 1 := by
  rw [← mapM_hash_iff config, AnnouncesExactly]
  by_cases hstop : self.running = false ∨ txs = []
  · rw [handleAnnouncedTxs, if_pos (by simpa using hstop)]
    exact iff_of_true ⟨rfl, fun _ h => by cases h⟩ (hstop.imp_right .inl)
  rw [← or_assoc, or_iff_right hstop]
  cases hhashes : txs.mapM fun incoming => TxPool.hash config incoming.tx with
  | error e =>
    rw [handleAnnouncedTxs, if_neg (by simpa using hstop), hhashes]
    exact iff_of_false (by rintro ⟨⟨⟩, -⟩) (by rintro ⟨⟨_, ⟨⟩⟩, -⟩)
  | ok hashes =>
    obtain ⟨hhanded, houtcome⟩ := handleAnnouncedTxs_run peer peerPool hstop hhashes
    rw [hhanded, houtcome]
    constructor
    · rintro ⟨hfew, hexact⟩
      exact ⟨⟨hashes, rfl⟩, hexact none rfl, hfew⟩
    · rintro ⟨-, hnothing, hfew⟩
      refine ⟨hfew, ?_⟩
      rintro announcement ⟨⟩
      exact hnothing

/-- The accepted transactions are some of those that came in. -/
theorem acceptedTxs_sublist (config : PoolConfig) (pool : TxPool) (txs : List IncomingTx) :
    (acceptedTxs config pool txs).Sublist (txs.map IncomingTx.tx) := by
  induction txs generalizing pool with
  | nil => exact List.Sublist.refl _
  | cons incoming txs ih =>
    rw [acceptedTxs, List.map_cons]
    split
    · exact (ih _).cons _
    · exact (ih _).cons_cons _

/-- What is accepted has a hash. -/
theorem hash_of_addIncoming {incoming : IncomingTx}
    (h : (addIncoming config pool incoming).2 = .ok ()) :
    ∃ hash, TxPool.hash config incoming.tx = .ok hash := by
  cases hhash : TxPool.hash config incoming.tx with
  | error e =>
    change TxPool.hash config incoming.request.tx = _ at hhash
    rw [addIncoming, TxPool.add] at h
    dsimp only at h
    rw [hhash] at h
    cases h
  | ok hash => exact ⟨hash, rfl⟩

/-- The lists grow by all transactions, whether `add` takes them or not. -/
theorem announceAll_spec (config : PoolConfig) (pool : TxPool) (start : Announcement)
    (txs : List IncomingTx) :
    match (announceAll config pool start txs).2 with
    | .error _ => ∃ incoming ∈ txs, ¬ incoming.tx.base.isSigned
    | .ok last => last.types = start.types ++ (txs.map IncomingTx.tx).map Tx.Transaction.type ∧
      last.sizes = start.sizes ++ (txs.map IncomingTx.tx).map (fun tx => tx.serialize.length) ∧
      last.hashes.map Except.ok =
        start.hashes.map Except.ok ++ (txs.map IncomingTx.tx).map (TxPool.hash config) := by
  induction txs generalizing pool start with
  | nil =>
    refine ⟨?_, ?_, ?_⟩
    · exact (List.append_nil _).symm
    · exact (List.append_nil _).symm
    · exact (List.append_nil _).symm
  | cons incoming txs ih =>
    rw [announceAll]
    dsimp only
    rw [pushTx]
    cases hhash : TxPool.hash config incoming.tx with
    | error e =>
      refine ⟨incoming, List.mem_cons_self, fun hsigned => ?_⟩
      obtain ⟨hash, hok⟩ := (hash_ok_iff config _).mpr hsigned
      rw [hhash] at hok
      cases hok
    | ok hash =>
      have hrest := ih (addIncoming config pool incoming).1
        ⟨start.types ++ [incoming.tx.type], start.sizes ++ [incoming.tx.serialize.length],
          start.hashes ++ [hash]⟩
      change match (announceAll config (addIncoming config pool incoming).1
        ⟨start.types ++ [incoming.tx.type], start.sizes ++ [incoming.tx.serialize.length],
          start.hashes ++ [hash]⟩ txs).2 with
        | .error _ => _
        | .ok last => _
      revert hrest
      cases (announceAll config (addIncoming config pool incoming).1
        ⟨start.types ++ [incoming.tx.type], start.sizes ++ [incoming.tx.serialize.length],
          start.hashes ++ [hash]⟩ txs).2 with
      | error e =>
        rintro ⟨other, hmem, hunsigned⟩
        exact ⟨other, List.mem_cons_of_mem _ hmem, hunsigned⟩
      | ok last =>
        rintro ⟨htypes, hsizes, hhashes⟩
        refine ⟨?_, ?_, ?_⟩
        · rw [htypes, List.append_assoc]
          rfl
        · rw [hsizes, List.append_assoc]
          rfl
        · rw [hhashes]
          simp [hhash]

/-- A list of all that came in is one of the accepted only where all are. -/
theorem lists_all_iff {last : Announcement}
    (htypes : last.types = (txs.map IncomingTx.tx).map Tx.Transaction.type)
    (hsizes : last.sizes = (txs.map IncomingTx.tx).map (fun tx => tx.serialize.length))
    (hhashes : last.hashes.map Except.ok = (txs.map IncomingTx.tx).map (TxPool.hash config)) :
    Lists config (acceptedTxs config pool txs) (some last) ↔
      acceptedTxs config pool txs = txs.map IncomingTx.tx := by
  constructor
  · rintro ⟨haccepted, -, -⟩
    have hlength := congrArg List.length (haccepted.symm.trans htypes)
    rw [List.length_map, List.length_map Tx.Transaction.type] at hlength
    exact (acceptedTxs_sublist config pool txs).eq_of_length hlength
  · intro hall
    rw [hall]
    exact ⟨htypes, hsizes, hhashes⟩

/-- All accepted transactions are signed. -/
theorem signed_of_accepted (h : acceptedTxs config pool txs = txs.map IncomingTx.tx) :
    ∀ incoming ∈ txs, incoming.tx.base.isSigned := by
  induction txs generalizing pool with
  | nil => exact fun _ hmem => (List.not_mem_nil hmem).elim
  | cons incoming txs ih =>
    rw [acceptedTxs, List.map_cons] at h
    split at h
    · next next error hadd =>
      have hlength := (acceptedTxs_sublist config next txs).length_le
      rw [h, List.length_cons] at hlength
      omega
    · next next hadd =>
      rw [List.forall_mem_cons]
      constructor
      · exact (hash_ok_iff config _).mp (hash_of_addIncoming (congrArg Prod.snd hadd))
      · exact ih (List.cons.inj h).2

/-- What the peer is asked for, and what it answers. -/
def answer (self : PeerTxPool) (txHashes : List Bytes) (peer : TxPeer)
    (getPooledTransactions : List Bytes → Option (List IncomingTx)) : Option (List IncomingTx) :=
  if self.running ∧ self.reqHashes txHashes ≠ [] ∧ peer.eth.isSome then
    getPooledTransactions ((self.reqHashes txHashes).take TX_RETRIEVAL_LIMIT)
  else none

theorem answer_eq_none
    (h : self.running = false ∨ self.reqHashes txHashes = []) :
    answer self txHashes peer getPooledTransactions = none := by
  rw [answer, if_neg]
  rintro ⟨hrun, hreq, -⟩
  obtain hstop | hnil := h
  · rw [hstop] at hrun
    cases hrun
  · exact hreq hnil

/-- Nothing is announced where nothing is requested. -/
theorem handleAnnouncedTxHashes_quiet (config : PoolConfig) (peer : TxPeer) (peerPool : PeerPool)
    (getPooledTransactions : List Bytes → Option (List IncomingTx))
    (h : self.running = false ∨ self.reqHashes txHashes = []) :
    (handleAnnouncedTxHashes config self txHashes peer getPooledTransactions peerPool).outcome =
        .ok () ∧
      (handleAnnouncedTxHashes config self txHashes peer getPooledTransactions peerPool).handed =
        none := by
  rw [handleAnnouncedTxHashes]
  split
  · exact ⟨rfl, rfl⟩
  · next hstart =>
    have hrun : self.running = true := by simp_all
    have hnil : (self.reqHashes txHashes).length = 0 := by simp_all
    have hsame : (self.addToKnownByPeer txHashes peer).2.reqHashes txHashes =
        self.reqHashes txHashes := rfl
    dsimp only
    rw [hsame, if_pos hnil]
    exact ⟨rfl, rfl⟩

/-- The lists are handed on when all transactions of the answer have a hash. -/
theorem handleAnnouncedTxHashes_run (config : PoolConfig) (peer : TxPeer) (peerPool : PeerPool)
    (getPooledTransactions : List Bytes → Option (List IncomingTx)) (hrun : self.running = true)
    (hreq : self.reqHashes txHashes ≠ []) :
    match answer self txHashes peer getPooledTransactions with
    | none => (handleAnnouncedTxHashes config self txHashes peer getPooledTransactions
          peerPool).outcome = .ok () ∧
        (handleAnnouncedTxHashes config self txHashes peer getPooledTransactions
          peerPool).handed = none
    | some txs =>
      match (announceAll config self.toTxPool ⟨[], [], []⟩ txs).2 with
      | .error e => (handleAnnouncedTxHashes config self txHashes peer getPooledTransactions
          peerPool).outcome = .error e
      | .ok last => (handleAnnouncedTxHashes config self txHashes peer getPooledTransactions
            peerPool).outcome = .ok () ∧
          (handleAnnouncedTxHashes config self txHashes peer getPooledTransactions
            peerPool).handed = some (some last) := by
  have hsame : (self.addToKnownByPeer txHashes peer).2.reqHashes txHashes =
      self.reqHashes txHashes := rfl
  have hne : txHashes ≠ [] := by
    rintro rfl
    exact hreq rfl
  have hanswer : answer self txHashes peer getPooledTransactions =
      if peer.eth.isSome then
        getPooledTransactions ((self.reqHashes txHashes).take TX_RETRIEVAL_LIMIT)
      else none := by
    rw [answer]
    simp only [hrun, hreq, ne_eq, not_false_eq_true, true_and]
  have hstart : ¬ (!self.running || decide (txHashes.length = 0)) = true := by simp [hrun, hne]
  have hsome : ¬ (self.reqHashes txHashes).length = 0 := by simpa using hreq
  rw [hanswer, handleAnnouncedTxHashes, if_neg hstart]
  dsimp only
  rw [hsame, if_neg hsome]
  cases (if peer.eth.isSome then
      getPooledTransactions ((self.reqHashes txHashes).take TX_RETRIEVAL_LIMIT) else none) with
  | none => exact ⟨rfl, rfl⟩
  | some txs =>
    have hpool : (self.addToKnownByPeer txHashes peer).2.toTxPool = self.toTxPool := rfl
    dsimp only
    rw [hpool]
    generalize announceAll config self.toTxPool ⟨[], [], []⟩ txs = all
    obtain ⟨pool, _ | last⟩ := all
    · rfl
    · exact ⟨sendNewTxHashes_ok _ _ _, rfl⟩

/-- `handleAnnouncedTxHashes` is exact where every transaction of the answer is accepted. -/
theorem handleAnnouncedTxHashes_iff :
    AnnouncesExactly config self.toTxPool
        ((answer self txHashes peer getPooledTransactions).getD [])
        (handleAnnouncedTxHashes config self txHashes peer getPooledTransactions peerPool) ↔
      ∀ txs, answer self txHashes peer getPooledTransactions = some txs →
        acceptedTxs config self.toTxPool txs = txs.map IncomingTx.tx := by
  rw [AnnouncesExactly]
  by_cases hquiet : self.running = false ∨ self.reqHashes txHashes = []
  · rw [answer_eq_none hquiet]
    obtain ⟨houtcome, hhanded⟩ := handleAnnouncedTxHashes_quiet config peer peerPool
      getPooledTransactions hquiet
    refine iff_of_true ⟨houtcome, fun announcement h => ?_⟩ fun _ h => by cases h
    rw [hhanded] at h
    cases h
  rw [not_or, Bool.not_eq_false] at hquiet
  have hrun := handleAnnouncedTxHashes_run config peer peerPool getPooledTransactions hquiet.1
    hquiet.2
  cases hanswer : answer self txHashes peer getPooledTransactions with
  | none =>
    rw [hanswer] at hrun
    refine iff_of_true ⟨hrun.1, fun announcement h => ?_⟩ fun _ h => by cases h
    rw [hrun.2] at h
    cases h
  | some txs =>
    rw [hanswer] at hrun
    dsimp only at hrun
    have hspec := announceAll_spec config self.toTxPool ⟨[], [], []⟩ txs
    have hall : (∀ txs', some txs = some txs' →
        acceptedTxs config self.toTxPool txs' = txs'.map IncomingTx.tx) ↔
          acceptedTxs config self.toTxPool txs = txs.map IncomingTx.tx :=
      ⟨fun h => h txs rfl, fun h txs' heq => Option.some.inj heq ▸ h⟩
    rw [hall, Option.getD_some]
    revert hrun hspec
    cases (announceAll config self.toTxPool ⟨[], [], []⟩ txs).2 with
    | error e =>
      rintro houtcome ⟨incoming, hmem, hunsigned⟩
      refine iff_of_false ?_ fun haccepted => hunsigned (signed_of_accepted haccepted _ hmem)
      rintro ⟨hok, -⟩
      rw [houtcome] at hok
      cases hok
    | ok last =>
      rintro ⟨houtcome, hhanded⟩ ⟨htypes, hsizes, hhashes⟩
      rw [houtcome, hhanded, ← lists_all_iff htypes hsizes hhashes]
      constructor
      · exact fun h => h.2 _ rfl
      · rintro h
        refine ⟨rfl, ?_⟩
        rintro announcement ⟨⟩
        exact h

/-- Announcing is exact just where nothing is accepted or all of it is, and no list is cut. -/
theorem announcing_iff (config : PoolConfig) (self : PeerTxPool) (txs : List IncomingTx)
    (txHashes : List Bytes) (peer : TxPeer) (peerPool : PeerPool)
    (getPooledTransactions : List Bytes → Option (List IncomingTx)) (entries : List Entry) :
    (AnnouncesExactly config self.toTxPool txs
          (handleAnnouncedTxs config self txs peer peerPool) ↔
        self.running = false ∨ txs = [] ∨
          (∀ incoming ∈ txs, incoming.tx.base.isSigned) ∧
            acceptedTxs config self.toTxPool txs = [] ∧ peerPool.peers.length ≤ 1) ∧
      (AnnouncesExactly config self.toTxPool
          ((answer self txHashes peer getPooledTransactions).getD [])
          (handleAnnouncedTxHashes config self txHashes peer getPooledTransactions peerPool) ↔
        ∀ txs, answer self txHashes peer getPooledTransactions = some txs →
          acceptedTxs config self.toTxPool txs = txs.map IncomingTx.tx) ∧
      (SendsExactly self entries peerPool.peers ↔
        ∀ peer ∈ peerPool.peers, FitsPeer (self.knownByPeer peer.id) entries peer) := by
  constructor
  · exact handleAnnouncedTxs_iff
  · constructor
    · exact handleAnnouncedTxHashes_iff
    · exact sendsExactly_iff peerPool.nodup

end Handlers

section Samples

open TxPool

def samplePool : PeerTxPool where
  toTxPool := TxPool.create.start
  pending := []
  knownByPeer _ := []

def sampleIncoming (nonce gasPrice : Nat) : IncomingTx where
  request :=
    { tx := sampleTx nonce gasPrice
      common := { chainId := 1, hardfork := .cancun, eips := [], param := fun _ => 0, kzg := true }
      isLocalTransaction := false
      getCanonicalHeadHeader := .ok { baseFeePerGas := some 7, gasLimit := 30000000 }
      getAccount := .ok (some (0, 10 ^ 18)) }
  added := 0

def samplePeer (id : String) : TxPeer := ⟨id, some (some [66, 67])⟩

def twoPeers : PeerPool := ⟨[samplePeer "a", samplePeer "b"], by decide⟩

/-- An accepted transaction is announced to no one, and a rejected one is announced. -/
theorem not_announcing :
    ¬ AnnouncesExactly sampleConfig samplePool.toTxPool [sampleIncoming 0 1000000000]
        (handleAnnouncedTxs sampleConfig samplePool [sampleIncoming 0 1000000000]
          (samplePeer "a") twoPeers) ∧
      ¬ AnnouncesExactly sampleConfig samplePool.toTxPool [sampleIncoming 0 1]
        (handleAnnouncedTxHashes sampleConfig samplePool [sampleHash 0 1] (samplePeer "a")
          (fun _ => some [sampleIncoming 0 1]) twoPeers) := by
  constructor
  · rintro ⟨hok, -⟩
    have hthrows : (handleAnnouncedTxs sampleConfig samplePool [sampleIncoming 0 1000000000]
        (samplePeer "a") twoPeers).outcome = .error "txHashes is not iterable" := by
      decide +kernel
    rw [hthrows] at hok
    cases hok
  · rintro ⟨-, hexact⟩
    have hrejected : acceptedTxs sampleConfig samplePool.toTxPool [sampleIncoming 0 1] = [] := by
      decide +kernel
    have hannounced : ((handleAnnouncedTxHashes sampleConfig samplePool [sampleHash 0 1]
        (samplePeer "a") (fun _ => some [sampleIncoming 0 1]) twoPeers).handed.map fun handed =>
          handed.map fun txs => txs.types) = some (some [.legacy]) := by
      decide +kernel
    rw [hrejected] at hexact
    cases hhanded : (handleAnnouncedTxHashes sampleConfig samplePool [sampleHash 0 1]
        (samplePeer "a") (fun _ => some [sampleIncoming 0 1]) twoPeers).handed with
    | none =>
      rw [hhanded] at hannounced
      cases hannounced
    | some handed =>
      rw [hhanded, Option.map_some, Option.some_inj] at hannounced
      obtain ⟨txs, rfl, htypes⟩ := Option.map_eq_some_iff.mp hannounced
      obtain ⟨hnone, -, -⟩ := hexact _ hhanded
      rw [htypes] at hnone
      cases hnone

end Samples

end EthereumJS.Client.PeerTxPool
