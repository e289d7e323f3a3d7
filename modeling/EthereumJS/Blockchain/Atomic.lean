import EthereumJS.Blockchain.Put

/-! # Putting an item that fails

`_putBlockOrHeader` restores the heads when it throws, and nothing else: the hardfork, the
deleted blocks, the caches and the database stay as the steps before have left them. Which
step throws decides what has to be unchanged then.
-/

namespace EthereumJS

open Overlay BlockchainM

/-- The tables hold the same. -/
structure ChainDB.Same (db db' : ChainDB) : Prop where
  header : db'.header = db.header
  body : db'.body = db.body
  td : db'.td = db.td
  hashToNumber : db'.hashToNumber = db.hashToNumber
  numberToHash : db'.numberToHash = db.numberToHash

/-- The state is as before, with what is read through the caches. -/
structure AllOrNothing (bc bc' : Blockchain) : Prop where
  view : bc.view.Same bc'.view
  db : bc.db.Same bc'.db
  saved : bc'.saved = bc.saved
  heads : bc'.heads = bc.heads
  headHeaderHash : bc'.headHeaderHash = bc.headHeaderHash
  headBlockHash : bc'.headBlockHash = bc.headBlockHash
  deletedBlocks : bc'.deletedBlocks = bc.deletedBlocks
  hardfork : bc'.hardfork = bc.hardfork

/-- A database that holds an item with this total difficulty. -/
structure Stored (db : ChainDB) (item : BlockItem) (td : Nat) : Prop where
  header : db.header item.header.number item.header.hash = some item.header
  body : ∀ body, item.body = some body →
    db.body item.header.number item.header.hash = some body
  td : db.td item.header.number item.header.hash = some td

section Same

variable {db after base : ChainDB} {item : BlockItem} {td : Nat}

theorem set_eq_self_iff {α : Type} {table : Table α} {number : Nat} {hash : Hash}
    {value : Option α} : table.set number hash value = table ↔ table number hash = value := by
  constructor
  · intro h
    have := congrFun (congrFun h number) hash
    simpa [Table.set] using this.symm
  · intro h
    funext n x
    unfold Table.set
    split
    · rename_i hkey
      rw [hkey.1, hkey.2, h]
    · rfl

theorem setBody_eq_self_iff {table : Table BlockBody} : table.setBody item = table ↔
    ∀ body, item.body = some body → table item.header.number item.header.hash = some body := by
  unfold Table.setBody
  cases item.body with
  | none => simp
  | some body => simp [set_eq_self_iff]

variable {ops : List DBOp} (disk : ChainDB)

theorem stored_iff (hheader : after.header =
      base.header.set item.header.number item.header.hash (some item.header))
    (hbody : after.body = base.body.setBody item)
    (htd : after.td = base.td.set item.header.number item.header.hash (some td)) :
    (after.header = base.header ∧ after.body = base.body ∧ after.td = base.td) ↔
      Stored base item td := by
  rw [hheader, hbody, htd, set_eq_self_iff, set_eq_self_iff, setBody_eq_self_iff]
  constructor
  · rintro ⟨hheader, hbody, htd⟩
    exact ⟨hheader, hbody, htd⟩
  · intro h
    exact ⟨h.header, h.body, h.td⟩

/-- Writing an item to the database changes nothing only where it is stored. -/
theorem batch_stored_iff (h : ItemWrites db item ops) :
    ((base.batch ops).header = base.header ∧ (base.batch ops).body = base.body ∧
      (base.batch ops).td = base.td) ↔ Stored base item (itemTd db item.header) :=
  stored_iff (h.batch_header base) (h.batch_body base) (h.batch_td base)

/-- Writing an item to the caches changes nothing only where it is stored. -/
theorem updateCaches_stored_iff (h : ItemWrites db item ops) :
    ((disk.updateCaches base ops).header = base.header ∧
      (disk.updateCaches base ops).body = base.body ∧
      (disk.updateCaches base ops).td = base.td) ↔ Stored base item (itemTd db item.header) := by
  apply stored_iff
  · funext n x
    rw [ChainDB.updateCaches_header, h.header, ← getD_latestWrite_singleton]
    simp only [latestWrite, Option.none_or]
    split <;> rfl
  · funext n x
    rw [ChainDB.updateCaches_body, h.body]
    unfold Table.setBody
    cases item.body with
    | none => rfl
    | some body =>
      simp only [Option.map_some, Option.toList_some, ← getD_latestWrite_singleton, latestWrite,
        Option.none_or]
      split <;> rfl
  · funext n x
    rw [ChainDB.updateCaches_td, h.td, ← getD_latestWrite_singleton]
    simp only [latestWrite, Option.none_or]
    split <;> rfl

/-- Writing the index changes nothing only where the item is in it and each deleted entry is
read from what the tables fall back to. -/
theorem index_same_iff {path : List BlockHeader} {ancestor : BlockHeader}
    (fallback : Nat → Option Hash) (hnumber : item.header.number ≠ 0)
    (hpath : Rebuilds base item.header.number item.header path ancestor)
    (hindex : ∀ n, after.numberToHash n =
      ((latestWrite ((canonicalOps base item path).filterMap DBOp.toNumberToHash) n).map
        fun v => v.or (fallback n)).getD (base.numberToHash n)) :
    after.numberToHash = base.numberToHash ↔
      base.numberToHash item.header.number = some item.header.hash ∧
        ∀ e ∈ above base (item.header.number + 1), fallback e.1 = some e.2 := by
  rw [canonicalOps_toNumberToHash] at hindex
  rcases hpath.eq_nil_or_head with ⟨rfl, rfl⟩ | ⟨hmem, hstale⟩
  · have hcanonical : base.numberToHash item.header.number = some item.header.hash :=
      (hpath.ancestor_canonical rfl).resolve_right hnumber
    simp only [List.map_nil, List.append_nil] at hindex
    refine ⟨fun hsame => ⟨hcanonical, ?_⟩, fun hfall => ?_⟩
    · rintro ⟨n, hash⟩ hentry
      have hlast : latestWrite ((above base (item.header.number + 1)).map
          fun e => (e.1, (none : Option Hash))) n = some none := by
        refine latestWrite_eq_some (List.mem_map.mpr ⟨(n, hash), hentry, rfl⟩) ?_
        intro u hu
        obtain ⟨e, -, he⟩ := List.mem_map.mp hu
        exact (Prod.mk.inj he).2.symm
      have hn := hindex n
      rw [hsame, hlast, (mem_above.mp hentry).2.1] at hn
      exact hn.symm
    · funext n
      rw [hindex n]
      cases hlast : latestWrite ((above base (item.header.number + 1)).map
          fun e => (e.1, (none : Option Hash))) n with
      | none => rfl
      | some v =>
        obtain ⟨⟨k, hash⟩, hentry, he⟩ := List.mem_map.mp (mem_of_latestWrite hlast)
        obtain ⟨rfl, rfl⟩ := Prod.mk.inj he
        have hentry' := hfall.2 _ hentry
        rw [(mem_above.mp hentry).2.1]
        exact hentry'
  · refine ⟨fun hsame => ?_, fun hfall => absurd hfall.1 hstale⟩
    have hlast : latestWrite ((above base (item.header.number + 1)).map
          (fun e => (e.1, (none : Option Hash))) ++
        path.map fun header => (header.number, some header.hash)) item.header.number =
          some (some item.header.hash) := by
      apply latestWrite_eq_some
      · exact List.mem_append_right _ (List.mem_map.mpr ⟨_, hmem, rfl⟩)
      · intro u hu
        rcases List.mem_append.mp hu with hu | hu
        · obtain ⟨⟨k, hash⟩, hentry, he⟩ := List.mem_map.mp hu
          have := (mem_above.mp hentry).1
          have := (Prod.mk.inj he).1
          dsimp only at this
          omega
        · obtain ⟨header, hheader, he⟩ := List.mem_map.mp hu
          obtain ⟨hnum, rfl⟩ := Prod.mk.inj he
          rw [hpath.eq_of_number_eq rfl hheader hmem hnum]
    have hn := hindex item.header.number
    rw [hlast, hsame] at hn
    exact absurd hn hstale

theorem same_iff : base.Same after ↔
    (after.header = base.header ∧ after.body = base.body ∧ after.td = base.td) ∧
      after.hashToNumber = base.hashToNumber ∧ after.numberToHash = base.numberToHash := by
  constructor
  · intro h
    exact ⟨⟨h.header, h.body, h.td⟩, h.hashToNumber, h.numberToHash⟩
  · rintro ⟨⟨hheader, hbody, htd⟩, hhash, hnumber⟩
    exact ⟨hheader, hbody, htd, hhash, hnumber⟩

theorem ChainDB.Same.refl (db : ChainDB) : db.Same db := ⟨rfl, rfl, rfl, rfl, rfl⟩

section Canonical

variable {path : List BlockHeader} {ancestor : BlockHeader}

theorem Rebuilds.path_eq_nil (hpath : Rebuilds base item.header.number item.header path ancestor)
    (h : base.numberToHash item.header.number = some item.header.hash) : path = [] := by
  rcases hpath.eq_nil_or_head with ⟨hnil, -⟩ | ⟨-, hstale⟩
  · exact hnil
  · exact absurd h hstale

/-- Without a path the lookups of hashes stay. -/
theorem batch_hashToNumber_nil :
    (disk.batch (canonicalOps base item [])).hashToNumber = disk.hashToNumber := by
  funext x
  rw [ChainDB.batch_hashToNumber, canonicalOps_toHashToNumber]
  rfl

theorem updateCaches_hashToNumber_nil :
    (disk.updateCaches base (canonicalOps base item [])).hashToNumber = base.hashToNumber := by
  funext x
  rw [ChainDB.updateCaches_hashToNumber, canonicalOps_toHashToNumber]
  rfl

theorem batch_canonical_same_iff (hnumber : item.header.number ≠ 0)
    (hpath : Rebuilds base item.header.number item.header path ancestor) :
    base.Same (base.batch (canonicalOps base item path)) ↔
      Stored base item (itemTd base item.header) ∧
        base.numberToHash item.header.number = some item.header.hash ∧
        above base (item.header.number + 1) = [] := by
  rw [same_iff, batch_stored_iff (canonicalOps_itemWrites base item path)]
  apply and_congr_right'
  have hindex : (base.batch (canonicalOps base item path)).numberToHash = base.numberToHash ↔ _ :=
    index_same_iff (fun _ => none) hnumber hpath (by
      intro n
      rw [ChainDB.batch_numberToHash]
      simp)
  have habove : (∀ e ∈ above base (item.header.number + 1), (none : Option Hash) = some e.2) ↔
      above base (item.header.number + 1) = [] := by
    rw [List.eq_nil_iff_forall_not_mem]
    simp
  rw [hindex, habove]
  refine ⟨And.right, fun h => ⟨?_, h⟩⟩
  rw [hpath.path_eq_nil h.1]
  exact batch_hashToNumber_nil base

theorem updateCaches_canonical_same_iff (hnumber : item.header.number ≠ 0)
    (hpath : Rebuilds base item.header.number item.header path ancestor) :
    base.Same (disk.updateCaches base (canonicalOps base item path)) ↔
      Stored base item (itemTd base item.header) ∧
        base.numberToHash item.header.number = some item.header.hash ∧
        ∀ e ∈ above base (item.header.number + 1), disk.numberToHash e.1 = some e.2 := by
  rw [same_iff, updateCaches_stored_iff disk (canonicalOps_itemWrites base item path)]
  apply and_congr_right'
  rw [index_same_iff _ hnumber hpath (disk.updateCaches_numberToHash base _)]
  refine ⟨And.right, fun h => ⟨?_, h⟩⟩
  rw [hpath.path_eq_nil h.1]
  exact updateCaches_hashToNumber_nil disk

/-- On the disk an item that is in the index, with nothing above it, is only stored again. -/
theorem batch_nil_same_iff (habove : above base (item.header.number + 1) = []) :
    disk.Same (disk.batch (canonicalOps base item [])) ↔
      Stored disk item (itemTd base item.header) := by
  rw [same_iff, batch_stored_iff (canonicalOps_itemWrites base item [])]
  refine ⟨And.left, fun h => ⟨h, batch_hashToNumber_nil disk, ?_⟩⟩
  funext n
  rw [ChainDB.batch_numberToHash, canonicalOps_toNumberToHash, habove]
  rfl

end Canonical

section Aside

theorem batch_aside_same_iff (disk base : ChainDB) (item : BlockItem) :
    disk.Same (disk.batch (asideOps base item)) ↔
    Stored disk item (itemTd base item.header) ∧
      disk.hashToNumber item.header.hash = some item.header.number := by
  rw [same_iff, batch_stored_iff (asideOps_itemWrites base item)]
  apply and_congr_right'
  have hnumber : (disk.batch (asideOps base item)).numberToHash = disk.numberToHash := by
    funext n
    rw [ChainDB.batch_numberToHash, asideOps_toNumberToHash]
    rfl
  have hhash : (disk.batch (asideOps base item)).hashToNumber =
      Function.update disk.hashToNumber item.header.hash (some item.header.number) := by
    funext x
    rw [ChainDB.batch_hashToNumber, asideOps_toHashToNumber, Function.update_apply]
    simp only [latestWrite, Option.none_or, eq_comm (a := x)]
    split <;> rfl
  rw [hnumber, hhash, and_iff_left rfl, Function.update_eq_self_iff]
  exact eq_comm

theorem updateCaches_aside_same_iff (disk base : ChainDB) (item : BlockItem) :
    base.Same (disk.updateCaches base (asideOps base item)) ↔
    Stored base item (itemTd base item.header) ∧
      base.hashToNumber item.header.hash = some item.header.number := by
  rw [same_iff, updateCaches_stored_iff disk (asideOps_itemWrites base item)]
  apply and_congr_right'
  have hnumber : (disk.updateCaches base (asideOps base item)).numberToHash =
      base.numberToHash := by
    funext n
    rw [ChainDB.updateCaches_numberToHash, asideOps_toNumberToHash]
    rfl
  have hhash : (disk.updateCaches base (asideOps base item)).hashToNumber =
      Function.update base.hashToNumber item.header.hash (some item.header.number) := by
    funext x
    rw [ChainDB.updateCaches_hashToNumber, asideOps_toHashToNumber, Function.update_apply]
    simp only [latestWrite, Option.none_or, eq_comm (a := x)]
    split <;> rfl
  rw [hnumber, hhash, and_iff_left rfl, Function.update_eq_self_iff]
  exact eq_comm

end Aside

end Same

variable (cfg : ChainConfig) (env : ChainEnv) (item : BlockItem) (bc : Blockchain)

def KeepsHardfork : Prop := (transitioned cfg env item.header bc.hardfork).2 = bc.hardfork

/-- No block has been recorded as deleted. -/
def KeepsEvents : Prop :=
  cfg.listening = false ∨ above bc.view (item.header.number + 1) = []

/-- What an item that becomes the head of the chain may find where a step throws. -/
def RestoresCanonical : Prop :=
  match findCommonAncestor bc item.header with
  | .error _ => True
  | .ok _ =>
    match (transitioned cfg env item.header bc.hardfork).1 with
    | .error _ => KeepsHardfork cfg env item bc
    | .ok _ =>
      match recordedBlocks cfg bc.view (above bc.view (item.header.number + 1)) with
      | .error _ => KeepsHardfork cfg env item bc ∧ bc.deletedBlocks = []
      | .ok _ =>
        match rebuildLoop bc.view item.header.number item.header with
        | .error _ => KeepsHardfork cfg env item bc ∧ KeepsEvents cfg item bc
        | .ok _ =>
          match env.batch with
          | .error _ =>
            (KeepsHardfork cfg env item bc ∧ KeepsEvents cfg item bc) ∧
              Stored bc.view item (itemTd bc.view item.header) ∧
              bc.view.numberToHash item.header.number = some item.header.hash ∧
              ∀ e ∈ above bc.view (item.header.number + 1), bc.db.numberToHash e.1 = some e.2
          | .ok _ =>
            match env.newBlock with
            | .error _ =>
              KeepsHardfork cfg env item bc ∧
                (Stored bc.view item (itemTd bc.view item.header) ∧
                  bc.view.numberToHash item.header.number = some item.header.hash ∧
                  above bc.view (item.header.number + 1) = []) ∧
                Stored bc.db item (itemTd bc.view item.header) ∧
                (bc.withTop item).toSave = bc.saved
            | .ok _ => True

/-- The heads with an item put aside. -/
def Blockchain.withAside (currentTdBlock : Nat) : Blockchain :=
  { bc with
    headBlockHash := if itemTd bc.view item.header > currentTdBlock ∧ item.body.isSome then
      item.header.hash else bc.headBlockHash }

/-- What an item that is put aside may find where a step throws. -/
def RestoresAside (currentTdBlock : Nat) : Prop :=
  match env.batch with
  | .error _ =>
    Stored bc.view item (itemTd bc.view item.header) ∧
      bc.view.hashToNumber item.header.hash = some item.header.number
  | .ok _ =>
    match env.newBlock with
    | .error _ =>
      (Stored bc.view item (itemTd bc.view item.header) ∧
        bc.view.hashToNumber item.header.hash = some item.header.number) ∧
        (Stored bc.db item (itemTd bc.view item.header) ∧
          bc.db.hashToNumber item.header.hash = some item.header.number) ∧
        (bc.withAside item currentTdBlock).toSave = bc.saved
    | .ok _ => True

/-- What an item may find where a step throws. -/
def Restores : Prop :=
  item.header.number ≠ 0 → checkItem cfg env item = .ok () →
    ∀ currentTdHeader currentTdBlock,
      bc.view.getTotalDifficultyByHash bc.headHeaderHash = .ok currentTdHeader →
      bc.view.getTotalDifficultyByHash bc.headBlockHash = .ok currentTdBlock →
      if takesOver bc.view item currentTdHeader then RestoresCanonical cfg env item bc
      else RestoresAside env item bc currentTdBlock

section Restore

variable {cfg env item bc}

/-- What `_putBlockOrHeader` does not restore is as before. -/
structure Kept (bc mid : Blockchain) : Prop where
  view : bc.view.Same mid.view
  db : bc.db.Same mid.db
  saved : mid.saved = bc.saved
  deletedBlocks : mid.deletedBlocks = bc.deletedBlocks
  hardfork : mid.hardfork = bc.hardfork

theorem Kept.refl (bc : Blockchain) : Kept bc bc := ⟨.refl _, .refl _, rfl, rfl, rfl⟩

theorem allOrNothing_of_error {e : BlockchainError} {mid : Blockchain}
    (hnumber : item.header.number ≠ 0) (h : putItem cfg env item bc = .error e mid) :
    (∀ e bc', putBlockOrHeader cfg env item bc = .error e bc' → AllOrNothing bc bc') ↔
      Kept bc mid := by
  have hput := putBlockOrHeader_of_error ((congrFun (if_neg hnumber) bc).trans h)
  constructor
  · intro hall
    have hnothing := hall _ _ hput
    exact ⟨hnothing.view, hnothing.db, hnothing.saved, hnothing.deletedBlocks, hnothing.hardfork⟩
  · intro hkept e bc' herror
    rw [hput] at herror
    cases herror
    exact ⟨hkept.view, hkept.db, hkept.saved, rfl, rfl, rfl, hkept.deletedBlocks, hkept.hardfork⟩

theorem allOrNothing_of_ok {mid : Blockchain} (hnumber : item.header.number ≠ 0)
    (h : putItem cfg env item bc = .ok () mid) :
    (∀ e bc', putBlockOrHeader cfg env item bc = .error e bc' → AllOrNothing bc bc') ↔ True := by
  have hput := putBlockOrHeader_of_ok ((congrFun (if_neg hnumber) bc).trans h)
  rw [iff_true]
  intro e bc' herror
  rw [hput] at herror
  cases herror

theorem append_eq_self_iff {blocks deleted : List Block} : deleted ++ blocks = deleted ↔
    blocks = [] := by
  constructor
  · intro h
    have := congrArg List.length h
    rw [List.length_append] at this
    exact List.length_eq_zero_iff.mp (by omega)
  · rintro rfl
    exact List.append_nil _

/-- Without a path and with nothing above, the heads only get the item on top. -/
theorem toSave_renewed (hash : Hash) :
    (renewed item [] (pathStale bc.view []) hash bc).toSave = (bc.withTop item).toSave := by
  have hid : ∀ head : Option Hash, head.map (fun head => renewHead (pathStale bc.view []) hash
      (moveHead item.header.hash [] head)) = head := by
    intro head
    cases head with
    | none => rfl
    | some head => simp [renewHead, pathStale, moveHead]
  simp only [Blockchain.toSave, renewed, hid, Blockchain.withTop]
  simp [renewHead, pathStale, moveHead]

theorem putBlockOrHeader_restores_canonical (hnumber : item.header.number ≠ 0)
    (hprepare : prepareItem cfg env item bc = putCanonical cfg env item (itemOps bc.view item) bc) :
    (∀ e bc', putBlockOrHeader cfg env item bc = .error e bc' → AllOrNothing bc bc') ↔
      RestoresCanonical cfg env item bc := by
  unfold RestoresCanonical
  cases hancestor : findCommonAncestor bc item.header with
  | error e =>
    rw [allOrNothing_of_error hnumber (putItem_of_unprepared
      (hprepare.trans (putCanonical_of_noAncestor hancestor)))]
    exact iff_true_intro (Kept.refl bc)
  | ok found =>
    cases htransition : (transitioned cfg env item.header bc.hardfork).1 with
    | error e =>
      rw [allOrNothing_of_error hnumber (putItem_of_unprepared
        (hprepare.trans (putCanonical_of_noTransition hancestor htransition)))]
      exact ⟨Kept.hardfork, fun h => ⟨.refl _, .refl _, rfl, rfl, h⟩⟩
    | ok _ =>
      cases hblocks : recordedBlocks cfg bc.view (above bc.view (item.header.number + 1)) with
      | error e =>
        obtain ⟨f, hput⟩ := putCanonical_of_unreadable (itemOps bc.view item) hancestor
          htransition hblocks
        rw [allOrNothing_of_error hnumber (putItem_of_unprepared (hprepare.trans hput))]
        exact ⟨fun h => ⟨h.hardfork, h.deletedBlocks.symm⟩,
          fun h => ⟨.refl _, .refl _, rfl, h.2.symm, h.1⟩⟩
      | ok blocks =>
        have hevents : bc.deletedBlocks ++ blocks = bc.deletedBlocks ↔ KeepsEvents cfg item bc :=
          append_eq_self_iff.trans (recordedBlocks_eq_nil_iff hblocks)
        cases hrebuild : rebuildLoop bc.view item.header.number item.header with
        | error e =>
          rw [allOrNothing_of_error hnumber (putItem_of_unprepared (hprepare.trans
            (putCanonical_of_noRebuild hancestor htransition hblocks hrebuild)))]
          exact ⟨fun h => ⟨h.hardfork, hevents.mp h.deletedBlocks⟩,
            fun h => ⟨.refl _, .refl _, rfl, hevents.mpr h.2, h.1⟩⟩
        | ok result =>
          obtain ⟨lookups, staleHashes, hash⟩ := result
          obtain ⟨path, ancestor, hpath, rfl, rfl, rfl⟩ := rebuildLoop_ok rfl hrebuild
          have hprepared := hprepare.trans
            (putCanonical_of_ok hancestor htransition hblocks hrebuild)
          cases hbatch : env.batch with
          | error e =>
            rw [allOrNothing_of_error hnumber (putItem_of_noBatch hprepared hbatch)]
            have hsame := updateCaches_canonical_same_iff bc.db hnumber hpath
            exact ⟨fun h => ⟨⟨h.hardfork, hevents.mp h.deletedBlocks⟩, hsame.mp h.view⟩,
              fun h => ⟨hsame.mpr h.2, .refl _, rfl, hevents.mpr h.1.2, h.1.1⟩⟩
          | ok _ =>
            have hput := putItem_of_prepared hprepared hbatch
            cases hnewBlock : env.newBlock with
            | ok _ => exact allOrNothing_of_ok hnumber (hput.trans (liftExcept_of_ok hnewBlock _))
            | error e =>
              rw [allOrNothing_of_error hnumber (hput.trans (liftExcept_of_error hnewBlock _))]
              have hsame := batch_canonical_same_iff hnumber hpath
              constructor
              · intro h
                have hview := hsame.mp h.view
                obtain rfl := hpath.path_eq_nil hview.2.1
                refine ⟨h.hardfork, hview, (batch_nil_same_iff bc.db hview.2.2).mp h.db, ?_⟩
                have hsaved := h.saved
                rw [hview.2.2] at hsaved
                rw [← hsaved, ← toSave_renewed]
                rfl
              · rintro ⟨hhardfork, hview, hdb, hsaved⟩
                obtain rfl := hpath.path_eq_nil hview.2.1
                refine ⟨hsame.mpr hview, (batch_nil_same_iff bc.db hview.2.2).mpr hdb, ?_,
                  hevents.mpr (.inr hview.2.2), hhardfork⟩
                rw [← hsaved, ← toSave_renewed]
                rw [hview.2.2]
                rfl

theorem putBlockOrHeader_restores_aside {currentTdBlock : Nat} (hnumber : item.header.number ≠ 0)
    (hprepared : prepareItem cfg env item bc =
      .ok (asideOps bc.view item) (bc.withAside item currentTdBlock)) :
    (∀ e bc', putBlockOrHeader cfg env item bc = .error e bc' → AllOrNothing bc bc') ↔
      RestoresAside env item bc currentTdBlock := by
  unfold RestoresAside
  cases hbatch : env.batch with
  | error e =>
    rw [allOrNothing_of_error hnumber (putItem_of_noBatch hprepared hbatch)]
    have hsame := updateCaches_aside_same_iff bc.db bc.view item
    exact ⟨fun h => hsame.mp h.view, fun h => ⟨hsame.mpr h, .refl _, rfl, rfl, rfl⟩⟩
  | ok _ =>
    have hput := putItem_of_prepared hprepared hbatch
    cases hnewBlock : env.newBlock with
    | ok _ => exact allOrNothing_of_ok hnumber (hput.trans (liftExcept_of_ok hnewBlock _))
    | error e =>
      rw [allOrNothing_of_error hnumber (hput.trans (liftExcept_of_error hnewBlock _))]
      have hview := batch_aside_same_iff bc.view bc.view item
      have hdb := batch_aside_same_iff bc.db bc.view item
      constructor
      · intro h
        exact ⟨hview.mp h.view, hdb.mp h.db, h.saved⟩
      · rintro ⟨h, h', hsaved⟩
        exact ⟨hview.mpr h, hdb.mpr h', hsaved, rfl, rfl⟩

end Restore

/-- A failing put restores the state exactly where what it does not restore has not changed. -/
theorem putBlockOrHeader_allOrNothing_iff :
    (∀ e bc', putBlockOrHeader cfg env item bc = .error e bc' → AllOrNothing bc bc') ↔
      Restores cfg env item bc := by
  unfold Restores
  rcases Classical.em (item.header.number = 0) with hgenesis | hnumber
  · refine ⟨fun _ hnumber => absurd hgenesis hnumber, fun _ e bc' herror => ?_⟩
    have hput : putBlockOrGenesis cfg env item =
        if cfg.genesisBlock.header.hash = item.header.hash then pure ()
        else throw .genesisMismatch := if_pos hgenesis
    unfold putBlockOrHeader at herror
    rw [hput] at herror
    split at herror
    · cases herror
    · cases herror
      exact ⟨.refl _, .refl _, rfl, rfl, rfl, rfl, rfl, rfl⟩
  · rw [forall_prop_of_true hnumber]
    cases hcheck : checkItem cfg env item with
    | error e =>
      rw [allOrNothing_of_error hnumber (putItem_of_unprepared (prepareItem_of_unchecked hcheck))]
      simp [Kept.refl]
    | ok _ =>
      cases hheader : bc.view.getTotalDifficultyByHash bc.headHeaderHash with
      | error e =>
        rw [allOrNothing_of_error hnumber
          (putItem_of_unprepared (prepareItem_of_noTdHeader hcheck hheader))]
        simp [Kept.refl]
      | ok currentTdHeader =>
        cases hblock : bc.view.getTotalDifficultyByHash bc.headBlockHash with
        | error e =>
          rw [allOrNothing_of_error hnumber
            (putItem_of_unprepared (prepareItem_of_noTdBlock hcheck hheader hblock))]
          simp [Kept.refl]
        | ok currentTdBlock =>
          simp only [Except.ok.injEq, forall_const]
          rcases Classical.em (takesOver bc.view item currentTdHeader) with htakes | haside
          · rw [putBlockOrHeader_restores_canonical hnumber
              (prepareItem_of_takesOver hcheck hheader hblock htakes)]
            constructor
            · rintro h _ _ rfl rfl
              rw [if_pos htakes]
              exact h
            · intro h
              have hrestores := h _ _ rfl rfl
              rw [if_pos htakes] at hrestores
              exact hrestores
          · rw [putBlockOrHeader_restores_aside hnumber
              (prepareItem_of_side hcheck hheader hblock haside)]
            constructor
            · rintro h _ _ rfl rfl
              rw [if_neg haside]
              exact h
            · intro h
              have hrestores := h _ _ rfl rfl
              rw [if_neg haside] at hrestores
              exact hrestores

/-- The block stays in the database if the hook for new blocks throws. -/
theorem not_allOrNothing_newBlock : ¬ ∀ cfg env item bc e bc',
    putBlockOrHeader cfg env item bc = .error e bc' → AllOrNothing bc bc' := by
  intro hall
  have hput : ∃ e bc', putBlockOrHeader Sample.config
      { Sample.passing with newBlock := .error (.external 0) }
      (Sample.block (Sample.header 1 1 0 1)) Sample.chain = .error e bc' ∧
      bc'.db.header 1 (Sample.hash 1) = some (Sample.header 1 1 0 1) := ⟨_, _, rfl, by decide⟩
  obtain ⟨e, bc', herror, hstored⟩ := hput
  rw [(hall _ _ _ _ _ _ herror).db.header] at hstored
  revert hstored
  decide

end EthereumJS
