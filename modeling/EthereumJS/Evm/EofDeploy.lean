import EthereumJS.Evm.EofVerify
import EthereumJS.Util.BinaryTree

/-! # Deployed EOF code

`validateEOF` of `container.ts`, and the container that `RETURNCONTRACT` makes of a validated one:
the data that it appends leaves nothing to be validated again.
-/

namespace EthereumJS.Evm.Eof

open RLP Ordered

section ValidateEOF

theorem sections_length_lt {container : EOFContainer} {smaller : Bool}
    (h : container.WellFormed smaller) {sub : Bytes} (hsub : sub ∈ container.body.containerSections) :
    sub.length < container.buffer.length := by
  have hle : sub.length ≤ container.body.containerSections.flatten.length :=
    (List.sublist_flatten_of_mem hsub).length_le
  have hheader := h.header.length_bytes
  rw [h.buffer, h.body.buffer, h.header.buffer]
  simp only [List.length_append]
  omega

/-- The containers in a container are validated each on its own. A container without an entry is
validated as runtime code. -/
def validateEOF (common : Common) (input : Bytes) (containerMode : ContainerSectionType)
    (eofMode : EOFContainerMode) : Except String EOFContainer :=
  match _h : newEOFContainer input eofMode (containerMode = .DeploymentCode) with
  | .error error => .error error
  | .ok container => do
    let containerMap ← validateOpcodes common containerMode container
    let _ ← container.body.containerSections.zipIdx.attach.mapM fun sub =>
      validateEOF common sub.1.1 ((containerMap.get sub.1.2).getD .RuntimeCode) .Default
    return container
termination_by input.length
decreasing_by
  obtain ⟨hwell, -, rfl⟩ := wellFormed_of_newEOFContainer _h
  exact sections_length_lt hwell (List.mem_of_getElem? (List.mem_zipIdx_iff_getElem?.mp sub.2))

variable {common : Common} {input : Bytes} {containerMode : ContainerSectionType}
  {eofMode : EOFContainerMode} {container : EOFContainer}

theorem validateEOF_eq_ok_iff :
    validateEOF common input containerMode eofMode = .ok container ↔
      newEOFContainer input eofMode (containerMode = .DeploymentCode) = .ok container ∧
        ∃ containerMap, validateOpcodes common containerMode container = .ok containerMap ∧
          ∀ i sub, container.body.containerSections[i]? = some sub →
            ∃ inner, validateEOF common sub ((containerMap.get i).getD .RuntimeCode) .Default =
              .ok inner := by
  have hsubs : ∀ (parsed : EOFContainer) (containerMap : InsertionMap Nat ContainerSectionType),
      (∃ inners, (parsed.body.containerSections.zipIdx.attach.mapM fun sub =>
        validateEOF common sub.1.1 ((containerMap.get sub.1.2).getD .RuntimeCode) .Default) =
          .ok inners) ↔
      ∀ i sub, parsed.body.containerSections[i]? = some sub →
        ∃ inner, validateEOF common sub ((containerMap.get i).getD .RuntimeCode) .Default =
          .ok inner := by
    intro parsed containerMap
    rw [exists_mapM_eq_ok_iff]
    constructor
    · intro h i sub hsub
      exact h ⟨(sub, i), List.mem_zipIdx_iff_getElem?.mpr hsub⟩ (List.mem_attach _ _)
    · intro h sub _
      exact h sub.1.2 sub.1.1 (List.mem_zipIdx_iff_getElem?.mp sub.2)
  rw [validateEOF]
  split
  · rename_i error herror
    rw [herror]
    exact iff_of_false (by rintro ⟨⟩) (by rintro ⟨⟨⟩, -⟩)
  · rename_i parsed hparsed
    rw [hparsed]
    constructor
    · intro h
      obtain ⟨containerMap, hmap, h⟩ := bind_eq_ok.mp h
      obtain ⟨inners, hinners, hok⟩ := bind_eq_ok.mp h
      obtain rfl := Except.ok.inj hok
      exact ⟨rfl, containerMap, hmap, (hsubs _ _).mp ⟨inners, hinners⟩⟩
    · rintro ⟨heq, containerMap, hmap, hall⟩
      obtain rfl := Except.ok.inj heq
      obtain ⟨inners, hinners⟩ := (hsubs _ _).mpr hall
      exact bind_eq_ok.mpr ⟨containerMap, hmap, bind_eq_ok.mpr ⟨inners, hinners, rfl⟩⟩

end ValidateEOF

section Deploys

/-- A container with more data in which there is nothing else to validate. -/
structure Deploys (container deployed : EOFContainer) : Prop where
  codeSizes : deployed.header.codeSizes = container.header.codeSizes
  containerSizes : deployed.header.containerSizes = container.header.containerSizes
  dataSize : container.header.dataSize ≤ deployed.header.dataSize
  typeSections : deployed.body.typeSections = container.body.typeSections
  codeSections : deployed.body.codeSections = container.body.codeSections
  containerSections : deployed.body.containerSections = container.body.containerSections

variable {common : Common} {container deployed : EOFContainer} {codeSection : Nat} {code : Bytes}
  {types : TypeSection} {st st' : SectionState} {heights : Heights} {opcode : UInt8}
  {operands : Operands}

theorem callTarget_deploys (h : Deploys container deployed) (mode mode' : ContainerSectionType) :
    callTarget ⟨common, mode', deployed, codeSection, code, types⟩ st =
      callTarget ⟨common, mode, container, codeSection, code, types⟩ st := by
  unfold callTarget
  dsimp only
  rw [h.codeSizes, h.typeSections]

theorem validateOperands_deploys (h : Deploys container deployed)
    (hok : validateOperands ⟨common, .DeploymentCode, container, codeSection, code, types⟩ st heights
      opcode = .ok operands) :
    validateOperands ⟨common, .RuntimeCode, deployed, codeSection, code, types⟩ st heights opcode =
      .ok operands := by
  unfold validateOperands at hok ⊢
  dsimp only at hok ⊢
  split at hok
  · rename_i hop
    rw [if_pos hop]
    exact hok
  rename_i hop
  rw [if_neg hop]
  clear hop
  split at hok
  · rename_i hop
    rw [if_pos hop]
    exact hok
  rename_i hop
  rw [if_neg hop]
  clear hop
  split at hok
  · rename_i hop
    rw [if_pos hop]
    unfold validateCallf at hok ⊢
    rw [callTarget_deploys h .DeploymentCode]
    exact hok
  rename_i hop
  rw [if_neg hop]
  clear hop
  split at hok
  · rename_i hop
    rw [if_pos hop]
    unfold validateJumpf at hok ⊢
    rw [callTarget_deploys h .DeploymentCode]
    exact hok
  rename_i hop
  rw [if_neg hop]
  clear hop
  split at hok
  · rename_i hop
    rw [if_pos hop]
    exact hok
  rename_i hop
  rw [if_neg hop]
  clear hop
  split at hok
  · rename_i hop
    rw [if_pos hop]
    exact hok
  rename_i hop
  rw [if_neg hop]
  clear hop
  split at hok
  · rename_i hop
    rw [if_pos hop]
    unfold validateTarget at hok ⊢
    dsimp only at hok ⊢
    rw [h.containerSizes]
    exact hok
  rename_i hop
  rw [if_neg hop]
  clear hop
  split at hok
  · rename_i hop
    rw [if_pos hop]
    obtain ⟨hmode, -⟩ := failWhen_bind_eq_ok.mp hok
    exact absurd (by decide) hmode
  rename_i hop
  rw [if_neg hop]
  clear hop
  split at hok
  · rename_i hop
    rw [if_pos hop]
    obtain ⟨dataTarget, hread, hok⟩ := bind_eq_ok.mp hok
    obtain ⟨hdata, hok⟩ := failWhen_bind_eq_ok.mp hok
    refine bind_eq_ok.mpr ⟨dataTarget, hread, failWhen_bind_eq_ok.mpr ⟨?_, hok⟩⟩
    exact fun hlt => hdata (h.dataSize.trans_lt hlt)
  rename_i hop
  rw [if_neg hop]
  clear hop
  split at hok
  · rename_i hop
    rw [if_pos hop]
    obtain ⟨-, hok⟩ := failWhen_bind_eq_ok.mp hok
    exact failWhen_bind_eq_ok.mpr ⟨by decide, hok⟩
  rename_i hop
  rw [if_neg hop]
  clear hop
  exact hok

theorem validateOpcode_deploys (h : Deploys container deployed) {low high : ℤ}
    (hok : validateOpcode ⟨common, .DeploymentCode, container, codeSection, code, types⟩ st opcode low
      high = .ok st') :
    validateOpcode ⟨common, .RuntimeCode, deployed, codeSection, code, types⟩ st opcode low high =
      .ok st' := by
  unfold validateOpcode at hok ⊢
  split at hok
  · cases hok
  · obtain ⟨hunder, hok⟩ := failWhen_bind_eq_ok.mp hok
    obtain ⟨hover, hok⟩ := failWhen_bind_eq_ok.mp hok
    obtain ⟨hreturning, hok⟩ := failWhen_bind_eq_ok.mp hok
    obtain ⟨hactive, hok⟩ := failWhen_bind_eq_ok.mp hok
    obtain ⟨operands, hoperands, hok⟩ := bind_eq_ok.mp hok
    exact failWhen_bind_eq_ok.mpr ⟨hunder, failWhen_bind_eq_ok.mpr ⟨hover,
      failWhen_bind_eq_ok.mpr ⟨hreturning, failWhen_bind_eq_ok.mpr ⟨hactive,
        bind_eq_ok.mpr ⟨operands, validateOperands_deploys h hoperands, hok⟩⟩⟩⟩⟩

theorem validateInstructions_deploys (h : Deploys container deployed) {n : Nat}
    (hok : validateInstructions ⟨common, .DeploymentCode, container, codeSection, code, types⟩ n st =
      .ok st') :
    validateInstructions ⟨common, .RuntimeCode, deployed, codeSection, code, types⟩ n st =
      .ok st' := by
  induction n generalizing st with
  | zero => exact hok
  | succ n ih =>
    unfold validateInstructions at hok ⊢
    dsimp only at hok ⊢
    split at hok
    · exact hok
    · obtain ⟨mid, hstep, hrest⟩ := bind_eq_ok.mp hok
      refine bind_eq_ok.mpr ⟨mid, ?_, ih hrest⟩
      unfold validateInstruction at hstep ⊢
      split at hstep
      · cases hstep
      rename_i hreachable
      rw [if_neg hreachable]
      split at hstep
      · cases hstep
      · exact validateOpcode_deploys h hstep

theorem validateSection_deploys (h : Deploys container deployed)
    {containerTypeMap : InsertionMap Nat ContainerSectionType}
    (hok : validateSection ⟨common, .DeploymentCode, container, codeSection, code, types⟩
      containerTypeMap = .ok st') :
    validateSection ⟨common, .RuntimeCode, deployed, codeSection, code, types⟩ containerTypeMap =
      .ok st' := by
  obtain ⟨last, hloop, hok⟩ := bind_eq_ok.mp hok
  exact bind_eq_ok.mpr ⟨last, validateInstructions_deploys h hloop, hok⟩

theorem validateSections_deploys (h : Deploys container deployed) {sections : List (Bytes × Nat)}
    {containerTypeMap : InsertionMap Nat ContainerSectionType}
    {result : List (List Nat) × InsertionMap Nat ContainerSectionType}
    (hok : validateSections common .DeploymentCode container sections containerTypeMap = .ok result) :
    validateSections common .RuntimeCode deployed sections containerTypeMap = .ok result := by
  induction sections generalizing containerTypeMap result with
  | nil => exact hok
  | cons first sections ih =>
    obtain ⟨code, codeSection⟩ := first
    unfold validateSections at hok ⊢
    rw [h.typeSections]
    split at hok
    · cases hok
    · obtain ⟨st, hsection, hok⟩ := bind_eq_ok.mp hok
      obtain ⟨rest, hrest, hok⟩ := bind_eq_ok.mp hok
      exact bind_eq_ok.mpr ⟨st, validateSection_deploys h hsection,
        bind_eq_ok.mpr ⟨rest, ih hrest, hok⟩⟩

theorem validateOpcodes_deploys (h : Deploys container deployed)
    {containerTypeMap : InsertionMap Nat ContainerSectionType}
    (hok : validateOpcodes common .DeploymentCode container = .ok containerTypeMap) :
    validateOpcodes common .RuntimeCode deployed = .ok containerTypeMap := by
  obtain ⟨result, hsections, hok⟩ := bind_eq_ok.mp hok
  unfold validateOpcodes
  rw [h.codeSections, h.codeSizes, h.containerSizes]
  exact bind_eq_ok.mpr ⟨result, validateSections_deploys h hsections, hok⟩

end Deploys

section ReturnContract

/-- The logic of `RETURNCONTRACT`. -/
def returnContract (containerCode auxData : Bytes) : Except String Bytes := do
  let deployContainer ← newEOFContainer containerCode .Initmode false
  let actualSectionSize := deployContainer.body.dataSection.length + auxData.length
  failWhen (actualSectionSize < deployContainer.header.dataSize)
    "invalid RETURNCONTRACT: data size lower than expected"
  failWhen (actualSectionSize > 0xffff) "out of gas"
  match setLengthLeft (bigIntToBytes actualSectionSize) 2 with
  | .error _ => .error "out of gas"
  | .ok newSize =>
    let dataSizePtr := deployContainer.header.dataSizePtr
    let written := (containerCode.set dataSizePtr (newSize.getD 0 0)).set (dataSizePtr + 1)
      (newSize.getD 1 0)
    .ok (written ++ auxData)

variable {containerCode auxData returnContainer : Bytes} {container : EOFContainer}

/-- The size of the data is all that is written in the header. -/
theorem EOFHeader.bytes_resize (header : EOFHeader) :
    ∃ before, header.bytes = before ++ (uint16 header.dataSize ++ [TERMINATOR]) ∧
      ∀ n buffer, ({ header with dataSize := n, buffer := buffer } : EOFHeader).bytes =
        before ++ (uint16 n ++ [TERMINATOR]) :=
  ⟨_, rfl, fun _ _ => rfl⟩

theorem set_two (before after : Bytes) (a b c d : UInt8) :
    ((before ++ a :: b :: after).set before.length c).set (before.length + 1) d =
      before ++ c :: d :: after := by
  rw [List.set_append_right _ _ le_rfl, Nat.sub_self, List.set_cons_zero,
    List.set_append_right _ _ (Nat.le_add_right _ _), Nat.add_sub_cancel_left, List.set_cons_succ,
    List.set_cons_zero]

theorem uint16_of_setLengthLeft {n : Nat} {newSize : Bytes}
    (h : setLengthLeft (bigIntToBytes n) 2 = .ok newSize) : newSize = uint16 n := by
  obtain ⟨hlen, hnumber, -⟩ := setLengthLeft_bigIntToBytes h
  obtain ⟨a, b, rfl⟩ := List.length_eq_two.mp hlen
  rw [← hnumber]
  exact (uint16_bytesToNumber a b).2.symm

/-- Before it is deployed a container is read as it is validated. -/
theorem newEOFContainer_initmode (h : newEOFContainer containerCode .Default true = .ok container) :
    newEOFContainer containerCode .Initmode false = .ok { container with eofMode := .Initmode } := by
  obtain ⟨header, hheader, h⟩ := bind_eq_ok.mp h
  obtain ⟨body, hbody, hok⟩ := bind_eq_ok.mp h
  obtain rfl := Except.ok.inj hok
  exact bind_eq_ok.mpr ⟨header, hheader, bind_eq_ok.mpr ⟨body, hbody, rfl⟩⟩

/-- The size of the data section in the container that is deployed. -/
def deployedSize (container : EOFContainer) (auxData : Bytes) : Nat :=
  container.body.dataSection.length + auxData.length

/-- The container that is deployed. -/
def deployedContainer (container : EOFContainer) (auxData : Bytes) : EOFContainer :=
  let header := { container.header with
    dataSize := deployedSize container auxData
    buffer := container.header.buffer.take container.header.dataSizePtr ++
      (uint16 (deployedSize container auxData) ++ [TERMINATOR]) }
  let body := { container.body with
    dataSection := container.body.dataSection ++ auxData
    buffer := container.body.buffer ++ auxData }
  ⟨header, body, header.buffer ++ body.buffer, .Default⟩

theorem EOFHeader.WellFormed.take_dataSizePtr {header : EOFHeader} (h : header.WellFormed)
    {before : Bytes} (hbytes : header.bytes = before ++ (uint16 header.dataSize ++ [TERMINATOR])) :
    header.dataSizePtr = before.length ∧ header.buffer.take header.dataSizePtr = before := by
  have hptr : header.dataSizePtr = before.length := by
    rw [h.dataSizePtr, h.buffer, hbytes, List.length_append]
    rfl
  refine ⟨hptr, ?_⟩
  rw [hptr, h.buffer, hbytes, List.take_left]

theorem returnContract_ok (h : container.WellFormed true) (hmode : container.eofMode = .Default)
    (hreturn : returnContract container.buffer auxData = .ok returnContainer) :
    returnContainer = (deployedContainer container auxData).buffer ∧
      container.header.dataSize ≤ deployedSize container auxData ∧
      deployedSize container auxData < 2 ^ 16 := by
  have hdefault := h.newEOFContainer_eq
  rw [hmode] at hdefault
  obtain ⟨deployContainer, hparse, hreturn⟩ := bind_eq_ok.mp hreturn
  obtain rfl := Except.ok.inj ((newEOFContainer_initmode hdefault).symm.trans hparse)
  obtain ⟨hsmall, hreturn⟩ := failWhen_bind_eq_ok.mp hreturn
  obtain ⟨hlarge, hreturn⟩ := failWhen_bind_eq_ok.mp hreturn
  refine ⟨?_, not_lt.mp hsmall, Nat.lt_succ_of_le (not_lt.mp hlarge)⟩
  split at hreturn
  · cases hreturn
  rename_i newSize hnewSize
  obtain rfl := uint16_of_setLengthLeft hnewSize
  obtain rfl := Except.ok.inj hreturn
  obtain ⟨before, hbytes, -⟩ := container.header.bytes_resize
  obtain ⟨hptr, htake⟩ := h.header.take_dataSizePtr hbytes
  unfold deployedContainer
  dsimp only
  rw [htake, hptr, h.buffer, h.header.buffer, hbytes]
  simp only [uint16, List.cons_append, List.nil_append, List.append_assoc]
  rw [set_two]
  simp [deployedSize]

theorem deployed_wellFormed (h : container.WellFormed true)
    (hsize : deployedSize container auxData < 2 ^ 16)
    (hlen : (deployedContainer container auxData).buffer.length ≤ MAX_HEADER_SIZE) :
    (deployedContainer container auxData).WellFormed false := by
  obtain ⟨before, hbytes, hresize⟩ := container.header.bytes_resize
  obtain ⟨hptr, htake⟩ := h.header.take_dataSizePtr hbytes
  have hnone : container.body.txCallData = none :=
    h.body.data.none_of_small fun hboth => hboth.2 rfl
  constructor
  · constructor
    · exact h.header.typeSize
    · exact h.header.codes
    · exact h.header.codeSizes
    · exact h.header.containers
    · exact h.header.containerSizes
    · exact hsize
    · unfold deployedContainer
      dsimp only
      rw [htake]
      exact (hresize _ _).symm
    · unfold deployedContainer
      dsimp only
      rw [htake, hptr, List.length_append]
      rfl
  · constructor
    · exact h.body.types
    · exact h.body.typeSections
    · exact h.body.codes
    · exact h.body.containers
    · unfold deployedContainer deployedSize
      dsimp only
      rw [hnone]
      exact ⟨by rw [List.length_append], fun _ => List.length_append, by simp⟩
    · exact h.body.entireCode
    · unfold deployedContainer
      dsimp only
      rw [h.body.buffer, hnone]
      simp only [Option.getD_none, List.append_nil, List.append_assoc]
  · rfl
  · exact hlen

theorem deployed_deploys (hsize : container.header.dataSize ≤ deployedSize container auxData) :
    Deploys container (deployedContainer container auxData) :=
  ⟨rfl, rfl, hsize, rfl, rfl, rfl⟩

end ReturnContract

/-- What `RETURNCONTRACT` makes of a validated container is a valid one, with the same code and all
the data. -/
theorem returnContract_valid {common : Common} {containerCode auxData returnContainer : Bytes}
    {container : EOFContainer}
    (hvalid : validateEOF common containerCode .DeploymentCode .Default = .ok container)
    (hreturn : returnContract containerCode auxData = .ok returnContainer)
    (hlen : returnContainer.length ≤ MAX_HEADER_SIZE) :
    ∃ deployed, validateEOF common returnContainer .RuntimeCode .Default = .ok deployed ∧
      deployed.body.typeSections = container.body.typeSections ∧
      deployed.body.codeSections = container.body.codeSections ∧
      deployed.body.containerSections = container.body.containerSections ∧
      deployed.body.dataSection = container.body.dataSection ++ auxData := by
  obtain ⟨hparse, containerMap, hmap, hall⟩ := validateEOF_eq_ok_iff.mp hvalid
  obtain ⟨hwell, hmode, rfl⟩ := wellFormed_of_newEOFContainer hparse
  obtain ⟨rfl, hsize, hlt⟩ := returnContract_ok hwell hmode hreturn
  refine ⟨deployedContainer container auxData, ?_, rfl, rfl, rfl, rfl⟩
  refine validateEOF_eq_ok_iff.mpr ⟨?_, containerMap, ?_, hall⟩
  · exact (deployed_wellFormed hwell hlt hlen).newEOFContainer_eq
  · exact validateOpcodes_deploys (deployed_deploys hsize) hmap

end EthereumJS.Evm.Eof
