import Mathlib.Logic.Basic
import EthereumJS.Ordered.InsertionMap
import EthereumJS.Rlp.Basic

/-! # Fetching bytecodes

`request`, `process`, `store` and `tasks` of `bytecodefetcher.ts`. The walk over the answers does
not move on from a requested hash that an answer matched, so that the next answer finds the hash
missing, and nothing looks at the hashes behind the last answer.
-/

namespace EthereumJS.Client

open Ordered

/-- The queue of hashes, the puts of all batches and the progress. -/
structure ByteCodeFetcher where
  hashes : List Bytes
  codeDB : List (Bytes × Bytes)
  first : Nat
  count : Nat

namespace ByteCodeFetcher

/-- A map from the hashes of codes to the codes. -/
abbrev CodeMap := List (Bytes × Bytes)

structure Job where
  hashes : List Bytes
  partialResult : Option (List CodeMap)

def CODEHASH_PREFIX : Bytes := [0x63]

section Request

variable (keccakFunction : Bytes → Bytes)

/-- The inner loop: the hashes from `requestedHashIndex` on are split at the first that matches. -/
def skipTo (receivedHash : Bytes) : List Bytes → List Bytes × List Bytes
  | [] => ([], [])
  | hash :: hashes =>
    if receivedHash = hash then ([], hash :: hashes)
    else
      let (skipped, rest) := skipTo receivedHash hashes
      (hash :: skipped, rest)

/-- The loop over the codes, on the hashes from `requestedHashIndex` on. -/
def matchCodes : List Bytes → List Bytes → CodeMap → List Bytes × CodeMap
  | [], _, receivedCodes => ([], receivedCodes)
  | receivedCode :: codes, hashes, receivedCodes =>
    let receivedHash := keccakFunction receivedCode
    let (skipped, rest) := skipTo receivedHash hashes
    match rest with
    | [] => (skipped, receivedCodes)
    | _ :: _ =>
      let (missing, receivedCodes) :=
        matchCodes codes rest (insertEntry receivedHash receivedCode receivedCodes)
      (skipped ++ missing, receivedCodes)

/-- The answer of the peer is `none` where `getByteCodes` gives `undefined`, and so is the result
where the job is queued again. -/
def request (fetcher : ByteCodeFetcher) (job : Job) (codes : Option (List Bytes)) :
    Option CodeMap × ByteCodeFetcher :=
  match codes with
  | none => (none, fetcher)
  | some codes =>
    if job.hashes.length < codes.length then (none, fetcher)
    else
      let (missingCodeHashes, receivedCodes) := matchCodes keccakFunction codes job.hashes []
      (some receivedCodes, { fetcher with hashes := fetcher.hashes ++ missingCodeHashes })

/-- Every result of `request` is completed. -/
def process (job : Job) (result : CodeMap) : List CodeMap :=
  job.partialResult.getD [] ++ [result]

/-- The batch of `store`, with the keys that it computes once more. -/
def putsOf (codes : CodeMap) : List (Bytes × Bytes) :=
  codes.map fun entry => (CODEHASH_PREFIX ++ keccakFunction entry.2, entry.2)

def store (fetcher : ByteCodeFetcher) (result : List CodeMap) : ByteCodeFetcher :=
  let codeHashToByteCode := result.headD []
  let first := fetcher.first + codeHashToByteCode.length
  { fetcher with
    codeDB := fetcher.codeDB ++ putsOf keccakFunction codeHashToByteCode
    first := first
    count := first + fetcher.hashes.length }

/-- A job from its answer to the end of its store; a job without a result changes nothing. -/
def runJob (fetcher : ByteCodeFetcher) (job : Job) (codes : Option (List Bytes)) :
    ByteCodeFetcher :=
  match request keccakFunction fetcher job codes with
  | (none, fetcher) => fetcher
  | (some result, fetcher) => store keccakFunction fetcher (process job result)

end Request

section Tasks

/-- `tasks`, with the hashes that it leaves. -/
def tasks (maxPerRequest : Nat) : Nat → List Bytes → List (List Bytes) × List Bytes
  | 0, hashes => ([], hashes)
  | _, [] => ([], [])
  | maxTasks + 1, hash :: hashes =>
    let (tasks, rest) := tasks maxPerRequest maxTasks ((hash :: hashes).drop maxPerRequest)
    ((hash :: hashes).take maxPerRequest :: tasks, rest)

/-- Every hash of the queue goes into one task or stays in the queue. -/
theorem flatten_tasks (maxPerRequest maxTasks : Nat) (hashes : List Bytes) :
    (tasks maxPerRequest maxTasks hashes).1.flatten ++ (tasks maxPerRequest maxTasks hashes).2 =
      hashes := by
  induction maxTasks generalizing hashes with
  | zero => rw [tasks, List.flatten_nil, List.nil_append]
  | succ maxTasks ih =>
    cases hashes with
    | nil => rfl
    | cons hash hashes =>
      rw [tasks, List.flatten_cons, List.append_assoc, ih, List.take_append_drop]

end Tasks

section Walk

variable {keccakFunction : Bytes → Bytes} {hash last code : Bytes}
  {hashes codes before behind : List Bytes} {receivedCodes : CodeMap}

theorem skipTo_append (h : hash ∉ before) :
    skipTo hash (before ++ hash :: behind) = (before, hash :: behind) := by
  induction before with
  | nil => exact if_pos rfl
  | cons first before ih =>
    rw [List.mem_cons, not_or] at h
    rw [List.cons_append, skipTo, if_neg h.1, ih h.2]

/-- The entries that a peer with the codes adds. -/
def entriesOf (keccakFunction : Bytes → Bytes) (codes : List Bytes) : CodeMap :=
  codes.map fun code => (keccakFunction code, code)

theorem insertEntry_of_not_mem (h : hash ∉ receivedCodes.map Prod.fst) :
    insertEntry hash code receivedCodes = receivedCodes ++ [(hash, code)] := by
  induction receivedCodes with
  | nil => rfl
  | cons entry entries ih =>
    obtain ⟨k, v⟩ := entry
    rw [List.map_cons, List.mem_cons, not_or] at h
    rw [insertEntry, if_neg fun heq => h.1 heq.symm, ih h.2, List.cons_append]

/-- A list that starts with `hash` is found behind what lacks `hash`. -/
theorem sublist_of_not_mem {rest : List Bytes} (h : hash ∉ before)
    (hsub : (hash :: rest).Sublist (before ++ hash :: behind)) : rest.Sublist behind := by
  induction before with
  | nil => exact List.cons_sublist_cons.mp hsub
  | cons first before ih =>
    rw [List.mem_cons, not_or] at h
    apply ih h.2
    cases hsub with
    | cons _ hsub => exact hsub
    | cons_cons _ hsub => exact absurd rfl h.1

theorem matchCodes_cons (h : keccakFunction code ∉ before)
    (hreceived : keccakFunction code ∉ receivedCodes.map Prod.fst) :
    matchCodes keccakFunction (code :: codes) (before ++ keccakFunction code :: behind)
        receivedCodes =
      (before ++ (matchCodes keccakFunction codes (keccakFunction code :: behind)
        (receivedCodes ++ [(keccakFunction code, code)])).1,
      (matchCodes keccakFunction codes (keccakFunction code :: behind)
        (receivedCodes ++ [(keccakFunction code, code)])).2) := by
  rw [matchCodes, skipTo_append h, insertEntry_of_not_mem hreceived]

/-- For codes of some of the hashes in their order, all hashes before the last match are missing,
the matched ones included, and every code is received. -/
theorem matchCodes_sublist (hnodup : hashes.Nodup)
    (hanswer : ((codes ++ [last]).map keccakFunction).Sublist hashes)
    (hreceived : ∀ code ∈ codes ++ [last], keccakFunction code ∉ receivedCodes.map Prod.fst) :
    ∃ before behind, hashes = before ++ keccakFunction last :: behind ∧
      (∀ code ∈ codes, keccakFunction code ∈ before) ∧
      matchCodes keccakFunction (codes ++ [last]) hashes receivedCodes =
        (before, receivedCodes ++ entriesOf keccakFunction (codes ++ [last])) := by
  induction codes generalizing hashes receivedCodes with
  | nil =>
    have hmem : keccakFunction last ∈ hashes := hanswer.subset List.mem_cons_self
    obtain ⟨before, behind, rfl, hfirst⟩ := List.eq_append_cons_of_mem hmem
    refine ⟨before, behind, rfl, fun _ h => absurd h List.not_mem_nil, ?_⟩
    rw [List.nil_append, matchCodes_cons hfirst (hreceived last List.mem_cons_self)]
    exact congrArg (·, _) (List.append_nil before)
  | cons code codes ih =>
    have hmem : keccakFunction code ∈ hashes := hanswer.subset List.mem_cons_self
    obtain ⟨before, behind, rfl, hfirst⟩ := List.eq_append_cons_of_mem hmem
    have hrest : ((codes ++ [last]).map keccakFunction).Sublist behind :=
      sublist_of_not_mem hfirst hanswer
    have htail : (keccakFunction code :: behind).Nodup :=
      hnodup.sublist (List.sublist_append_right _ _)
    have hother : keccakFunction code ∉ (codes ++ [last]).map keccakFunction :=
      fun h => (List.nodup_cons.mp htail).1 (hrest.subset h)
    have hfresh : ∀ c ∈ codes ++ [last], keccakFunction c ∉
        (receivedCodes ++ [(keccakFunction code, code)]).map Prod.fst := by
      intro c hc hmem
      rw [List.map_append, List.mem_append] at hmem
      obtain hmem | hmem := hmem
      · exact hreceived c (List.mem_cons_of_mem _ hc) hmem
      · rw [List.map_singleton, List.mem_singleton] at hmem
        have heq : keccakFunction c = keccakFunction code := hmem
        apply hother
        rw [← heq]
        exact List.mem_map_of_mem hc
    obtain ⟨before', behind', hsplit, hbefore, hmatch⟩ := ih htail (hrest.cons _) hfresh
    have hcode : keccakFunction code ∈ before' := by
      cases before' with
      | nil =>
        obtain ⟨heq, -⟩ := List.cons.inj hsplit
        refine absurd ?_ hother
        rw [heq]
        exact List.mem_map_of_mem (List.mem_append_right _ List.mem_cons_self)
      | cons first rest =>
        obtain ⟨heq, -⟩ := List.cons.inj hsplit
        rw [heq]
        exact List.mem_cons_self
    refine ⟨before ++ before', behind', ?_, ?_, ?_⟩
    · rw [hsplit, List.append_assoc]
    · intro c hc
      apply List.mem_append_right
      obtain rfl | hc := List.mem_cons.mp hc
      · exact hcode
      · exact hbefore c hc
    · rw [List.cons_append, matchCodes_cons hfirst (hreceived code List.mem_cons_self), hmatch,
        List.append_assoc]
      rfl

end Walk

section Kept

variable {keccakFunction : Bytes → Bytes} {hash last : Bytes} {hashes codes : List Bytes}

/-- What a job leaves behind: puts of codes that were requested, and hashes in the queue, so that
each requested hash is in exactly one of the two. -/
def RequestsKept (hashes : List Bytes) (fetcher after : ByteCodeFetcher) : Prop :=
  ∃ puts missing, after.codeDB = fetcher.codeDB ++ puts ∧ after.hashes = fetcher.hashes ++ missing ∧
    (∀ hash ∈ hashes, Xor (CODEHASH_PREFIX ++ hash ∈ puts.map Prod.fst) (hash ∈ missing)) ∧
    ∀ put ∈ puts, ∃ hash ∈ hashes, put.1 = CODEHASH_PREFIX ++ hash

theorem keys_putsOf_entriesOf (codes : List Bytes) :
    (putsOf keccakFunction (entriesOf keccakFunction codes)).map Prod.fst =
      codes.map fun code => CODEHASH_PREFIX ++ keccakFunction code := by
  rw [putsOf, entriesOf, List.map_map, List.map_map]
  rfl

theorem mem_keys_iff :
    CODEHASH_PREFIX ++ hash ∈ codes.map (fun code => CODEHASH_PREFIX ++ keccakFunction code) ↔
      hash ∈ codes.map keccakFunction := by
  constructor
  · intro h
    obtain ⟨code, hcode, heq⟩ := List.mem_map.mp h
    exact List.mem_map.mpr ⟨code, hcode, List.append_cancel_left heq⟩
  · intro h
    obtain ⟨code, hcode, rfl⟩ := List.mem_map.mp h
    exact List.mem_map_of_mem hcode

/-- A job with an answer adds the puts of what `matchCodes` received and the hashes that it found
missing, and nothing else. -/
theorem runJob_matchCodes (fetcher : ByteCodeFetcher) {missing : List Bytes}
    (hlength : codes.length ≤ hashes.length)
    (hmatch : matchCodes keccakFunction codes hashes [] =
      (missing, entriesOf keccakFunction codes)) :
    (runJob keccakFunction fetcher ⟨hashes, none⟩ (some codes)).codeDB =
        fetcher.codeDB ++ putsOf keccakFunction (entriesOf keccakFunction codes) ∧
      (runJob keccakFunction fetcher ⟨hashes, none⟩ (some codes)).hashes =
        fetcher.hashes ++ missing := by
  have hrequest : request keccakFunction fetcher ⟨hashes, none⟩ (some codes) =
      (some (entriesOf keccakFunction codes),
        { fetcher with hashes := fetcher.hashes ++ missing }) := by
    rw [request, if_neg (Nat.not_lt.mpr hlength), hmatch]
  rw [runJob, hrequest]
  exact ⟨rfl, rfl⟩

theorem requestsKept_iff {fetcher : ByteCodeFetcher} {missing : List Bytes}
    (hanswer : (codes.map keccakFunction).Sublist hashes)
    (hmatch : matchCodes keccakFunction codes hashes [] =
      (missing, entriesOf keccakFunction codes)) :
    RequestsKept hashes fetcher (runJob keccakFunction fetcher ⟨hashes, none⟩ (some codes)) ↔
      ∀ hash ∈ hashes, Xor (hash ∈ codes.map keccakFunction) (hash ∈ missing) := by
  have hlength : codes.length ≤ hashes.length := by
    rw [← List.length_map keccakFunction]
    exact hanswer.length_le
  obtain ⟨hputs, hqueue⟩ := runJob_matchCodes fetcher hlength hmatch
  rw [RequestsKept, hputs, hqueue]
  constructor
  · rintro ⟨puts, missing', hputs', hmissing', hkept, -⟩
    rw [← List.append_cancel_left hputs', ← List.append_cancel_left hmissing'] at hkept
    intro hash hhash
    have hone := hkept hash hhash
    rwa [keys_putsOf_entriesOf, mem_keys_iff] at hone
  · intro hkept
    refine ⟨_, _, rfl, rfl, ?_, ?_⟩
    · intro hash hhash
      rw [keys_putsOf_entriesOf, mem_keys_iff]
      exact hkept hash hhash
    · intro put hput
      have hkey := List.mem_map_of_mem (f := Prod.fst) hput
      rw [keys_putsOf_entriesOf] at hkey
      obtain ⟨code, hcode, heq⟩ := List.mem_map.mp hkey
      exact ⟨_, hanswer.subset (List.mem_map_of_mem hcode), heq.symm⟩

/-- Requests are kept if and only if nothing was requested, or the answer is one code and that of
the last hash. -/
theorem requests_kept_iff {fetcher : ByteCodeFetcher} (hnodup : hashes.Nodup)
    (hanswer : (codes.map keccakFunction).Sublist hashes) :
    RequestsKept hashes fetcher (runJob keccakFunction fetcher ⟨hashes, none⟩ (some codes)) ↔
      hashes = [] ∨ ∃ code, codes = [code] ∧ hashes.getLast? = some (keccakFunction code) := by
  rcases List.eq_nil_or_concat codes with rfl | ⟨codes, last, rfl⟩
  · have hnone : matchCodes keccakFunction [] hashes [] = ([], entriesOf keccakFunction []) := rfl
    rw [requestsKept_iff hanswer hnone]
    constructor
    · intro hkept
      left
      apply List.eq_nil_iff_forall_not_mem.mpr
      intro hash hhash
      obtain ⟨h, -⟩ | ⟨h, -⟩ := hkept hash hhash
      · exact List.not_mem_nil h
      · exact List.not_mem_nil h
    · rintro (rfl | ⟨_, h, -⟩)
      · exact fun _ h => absurd h List.not_mem_nil
      · cases h
  · rw [List.concat_eq_append] at hanswer ⊢
    have hnone : ∀ code ∈ codes ++ [last], keccakFunction code ∉ ([] : CodeMap).map Prod.fst :=
      fun _ _ => List.not_mem_nil
    obtain ⟨before, behind, rfl, hbefore, hmatch⟩ := matchCodes_sublist hnodup hanswer hnone
    rw [requestsKept_iff hanswer hmatch]
    obtain ⟨-, hsecond, hapart⟩ := List.nodup_append.mp hnodup
    obtain ⟨hbehind, -⟩ := List.nodup_cons.mp hsecond
    constructor
    · intro hkept
      right
      have hcodes : codes = [] := by
        apply List.eq_nil_iff_forall_not_mem.mpr
        intro code hcode
        have hin : keccakFunction code ∈ (codes ++ [last]).map keccakFunction :=
          List.mem_map_of_mem (List.mem_append_left _ hcode)
        obtain ⟨-, hnot⟩ | ⟨-, hnot⟩ := hkept _ (hanswer.subset hin)
        · exact hnot (hbefore code hcode)
        · exact hnot hin
      have hend : behind = [] := by
        apply List.eq_nil_iff_forall_not_mem.mpr
        intro hash hhash
        have hmem : hash ∈ before ++ keccakFunction last :: behind :=
          List.mem_append_right _ (List.mem_cons_of_mem _ hhash)
        obtain ⟨hin, -⟩ | ⟨hin, -⟩ := hkept _ hmem
        · rw [hcodes, List.nil_append, List.map_singleton, List.mem_singleton] at hin
          exact hbehind (hin ▸ hhash)
        · exact hapart _ hin _ (List.mem_cons_of_mem _ hhash) rfl
      refine ⟨last, by rw [hcodes, List.nil_append], ?_⟩
      rw [hend, List.getLast?_concat]
    · rintro (hempty | ⟨code, hone, hlast⟩)
      · exact absurd hempty (by simp)
      · have hcodes : codes = [] := by
          apply List.eq_nil_of_length_eq_zero
          have hlength := congrArg List.length hone
          rw [List.length_append, List.length_singleton, List.length_singleton] at hlength
          omega
        subst hcodes
        obtain ⟨rfl, -⟩ := List.cons.inj hone
        have hend : behind = [] := by
          rcases List.eq_nil_or_concat behind with h | ⟨init, final, rfl⟩
          · exact h
          · rw [List.concat_eq_append] at hlast hbehind
            rw [← List.cons_append, ← List.append_assoc, List.getLast?_concat] at hlast
            rw [← Option.some.inj hlast] at hbehind
            exact absurd (List.mem_append_right _ List.mem_cons_self) hbehind
        subst hend
        intro hash hhash
        rw [List.nil_append, List.map_singleton, List.mem_singleton]
        obtain hin | hin := List.mem_append.mp hhash
        · right
          exact ⟨hin, hapart _ hin _ List.mem_cons_self⟩
        · left
          rw [List.mem_singleton] at hin
          refine ⟨hin, fun h => ?_⟩
          exact hapart _ h _ List.mem_cons_self hin

/-- A hash without collisions on codes of one byte. -/
def byteHash (code : Bytes) : Bytes := List.replicate 31 0 ++ code

def twoCodes : List Bytes := [[0x00], [0xfe]]

theorem matchCodes_twoCodes : matchCodes byteHash twoCodes (twoCodes.map byteHash) [] =
    ([byteHash [0x00]], entriesOf byteHash twoCodes) := by decide

/-- The peer has both codes: the first is stored and requested again. -/
theorem not_requests_kept_both :
    ¬ RequestsKept (twoCodes.map byteHash) ⟨[], [], 0, 2⟩
      (runJob byteHash ⟨[], [], 0, 2⟩ ⟨twoCodes.map byteHash, none⟩ (some twoCodes)) := by
  rw [requestsKept_iff (List.Sublist.refl _) matchCodes_twoCodes]
  intro hkept
  exact absurd (hkept (byteHash [0x00]) (by decide)) (by decide)

theorem requests_kept_iff_last :
    RequestsKept (twoCodes.map byteHash) ⟨[], [], 0, 2⟩
      (runJob byteHash ⟨[], [], 0, 2⟩ ⟨twoCodes.map byteHash, none⟩ (some [[0xfe]])) ↔
    twoCodes.map byteHash = [] ∨
      ∃ code, [[0xfe]] = [code] ∧ (twoCodes.map byteHash).getLast? = some (byteHash code) :=
  requests_kept_iff (by decide) (by decide)

end Kept

end ByteCodeFetcher

end EthereumJS.Client
