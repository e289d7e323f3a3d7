import EthereumJS.Devp2p.Hello

/-! # Delivery of the messages of shared protocols

The two sides agree on the offsets as soon as they choose the same capabilities. The send
method lets one code too many through and `_handleBody` takes the first byte of a message for
its code, so that exactly the codes below 128, and 129, arrive where they belong.
-/

namespace EthereumJS.Devp2p

open RLP Ordered

section Offsets

/-- The codes of the first protocol lie before those of the second. -/
def Before (d e : SharedProtocol) : Prop := d.offset + d.length ≤ e.offset

theorem le_offset_of_mem {offset : Nat} {objs : List Capability} {d : SharedProtocol}
    (h : d ∈ withOffsets offset objs) : offset ≤ d.offset := by
  induction objs generalizing offset with
  | nil => cases h
  | cons obj objs ih =>
    obtain rfl | h := List.mem_cons.mp h
    · exact le_rfl
    · exact (Nat.le_add_right _ _).trans (ih h)

theorem pairwise_withOffsets (offset : Nat) (objs : List Capability) :
    (withOffsets offset objs).Pairwise Before := by
  induction objs generalizing offset with
  | nil => exact List.Pairwise.nil
  | cons obj objs ih => exact List.pairwise_cons.mpr ⟨fun d hd => le_offset_of_mem hd, ih _⟩

theorem map_obj_withOffsets (offset : Nat) (objs : List Capability) :
    (withOffsets offset objs).map SharedProtocol.obj = objs := by
  induction objs generalizing offset with
  | nil => rfl
  | cons obj objs ih => rw [withOffsets, List.map_cons, ih]

theorem withOffsets_injective (offset : Nat) : Function.Injective (withOffsets offset) :=
  Function.LeftInverse.injective (map_obj_withOffsets offset)

theorem getProtocol_of_mem {protocols : List SharedProtocol} {d : SharedProtocol} {c : Nat}
    (hordered : protocols.Pairwise Before) (hbase : BASE_PROTOCOL_LENGTH ≤ d.offset)
    (hd : d ∈ protocols) (hc : c < d.length) :
    getProtocol protocols (d.offset + c) = some (.subProtocol d) := by
  rw [getProtocol, if_neg (by omega)]
  have hfind : (protocols.find? fun obj =>
      obj.offset ≤ d.offset + c ∧ d.offset + c < obj.offset + obj.length) = some d := by
    induction protocols with
    | nil => cases hd
    | cons e protocols ih =>
      obtain ⟨hbefore, hordered⟩ := List.pairwise_cons.mp hordered
      obtain rfl | hd := List.mem_cons.mp hd
      · exact List.find?_cons_of_pos (by simp [hc])
      · have hlt : e.offset + e.length ≤ d.offset := hbefore d hd
        rw [List.find?_cons_of_neg (by simp; omega)]
        exact ih hordered hd
  rw [hfind, Option.map_some]

theorem getProtocol_eq_subProtocol {protocols : List SharedProtocol} {d : SharedProtocol}
    {code : Nat} (h : getProtocol protocols code = some (.subProtocol d)) :
    d.offset ≤ code ∧ code < d.offset + d.length := by
  rw [getProtocol] at h
  split at h
  · cases h
  · obtain ⟨e, hfind, heq⟩ := Option.map_eq_some_iff.mp h
    cases heq
    simpa using List.find?_some hfind

end Offsets

section Codes

theorem bodyCode_lt {body : Bytes} {code : Nat} (h : Peer.bodyCode body = some code) :
    code < 256 := by
  obtain ⟨b, -, rfl⟩ := Option.map_eq_some_iff.mp h
  have := b.toNat_lt
  split <;> omega

/-- Only the codes that RLP leaves as they are, and the one that its prefix looks like. -/
theorem bodyCode_encodeCode_iff (n : Nat) (data : Bytes) :
    Peer.bodyCode (encodeCode n ++ data) = some n ↔ n < 128 ∨ n = 129 := by
  obtain rfl | hpos := Nat.eq_zero_or_pos n
  · exact iff_of_true rfl (.inl (by omega))
  by_cases hbig : 256 ≤ n
  · refine iff_of_false (fun h => ?_) (by omega)
    exact absurd (bodyCode_lt h) (by omega)
  have hbytes : numberToBytes n = [UInt8.ofNat n] := numberToBytes_byte n hpos.ne' (by omega)
  have htoNat := toNat_ofNat_lt n (by omega)
  rw [encodeCode, if_neg hpos.ne', hbytes, encode, encodeBytes]
  by_cases hsmall : n < 128
  · have hlt : UInt8.ofNat n < 128 := by
      rw [UInt8.lt_iff_toNat_lt, htoNat]
      exact hsmall
    have hne : UInt8.ofNat n ≠ 0x80 := fun heq => by simp [heq] at hlt
    rw [if_pos hlt]
    simp [Peer.bodyCode, hne, htoNat, hsmall]
  · have hge : ¬ UInt8.ofNat n < 128 := by
      rw [UInt8.lt_iff_toNat_lt, htoNat]
      exact hsmall
    have hprefix : encodeLength 1 128 = [129] := by decide
    rw [if_neg hge, hprefix]
    simp only [Peer.bodyCode, List.cons_append, List.head?_cons, Option.map_some, Option.some.injEq]
    have h129 : (if (129 : UInt8) = 0x80 then 0 else (129 : UInt8).toNat) = 129 := by decide
    rw [h129]
    omega

end Codes

section Delivered

/-- A code is refused, or it reaches the same protocol on the other side. -/
def Delivered (protocols : List SharedProtocol) (d : SharedProtocol) (code : Nat)
    (data : Bytes) : Prop :=
  match sendMethod d code data with
  | .error e => e = "Code out of range"
  | .ok body => handleBody protocols body = some (.subProtocol d, code)

theorem handleBody_eq_some_iff {protocols : List SharedProtocol} {body : Bytes}
    {d : SharedProtocol} {c : Nat} :
    handleBody protocols body = some (.subProtocol d, c) ↔
      getProtocol protocols (d.offset + c) = some (.subProtocol d) ∧
        Peer.bodyCode body = some (d.offset + c) := by
  simp only [handleBody, Option.bind_eq_bind, Option.bind_eq_some_iff, Option.pure_def,
    Option.some.injEq, Prod.mk.injEq]
  constructor
  · rintro ⟨code, hcode, recipient, hrecipient, rfl, rfl⟩
    have hle := (getProtocol_eq_subProtocol hrecipient).1
    rw [Recipient.offset, Nat.add_sub_cancel' hle]
    exact ⟨hrecipient, hcode⟩
  · rintro ⟨hrecipient, hcode⟩
    exact ⟨_, hcode, _, hrecipient, rfl, Nat.add_sub_cancel_left _ _⟩

theorem delivered_iff {protocols : List SharedProtocol} {d : SharedProtocol}
    (hordered : protocols.Pairwise Before) (hbase : BASE_PROTOCOL_LENGTH ≤ d.offset)
    (hd : d ∈ protocols) (code : Nat) (data : Bytes) :
    Delivered protocols d code data ↔
      d.length < code ∨ code < d.length ∧ (d.offset + code < 128 ∨ d.offset + code = 129) := by
  rw [Delivered, sendMethod]
  by_cases hrange : code > d.length
  · simp [hrange]
  · simp only [hrange, if_false, false_or]
    rw [handleBody_eq_some_iff, bodyCode_encodeCode_iff]
    refine and_congr_left fun _ => ⟨fun h => ?_, getProtocol_of_mem hordered hbase hd⟩
    have hlt := (getProtocol_eq_subProtocol h).2
    omega

variable {a b : List Capability}

/-- The two sides compute the same protocols with the same disjoint ranges, all of them behind
the codes of the base protocol. -/
structure Agree (a b : List Capability) : Prop where
  same : handleHello a (sendHelloCapabilities b) = handleHello b (sendHelloCapabilities a)
  disjoint : (handleHello a (sendHelloCapabilities b)).Pairwise Before
  base : ∀ d ∈ handleHello a (sendHelloCapabilities b), BASE_PROTOCOL_LENGTH ≤ d.offset

theorem agree_iff (h : SameLengths (a ++ b)) : Agree a b ↔ SameChoice a b := by
  have hsame : handleHello a (sendHelloCapabilities b) = handleHello b (sendHelloCapabilities a) ↔
      SameChoice a b := by
    rw [sameChoice_iff h, handleHello, handleHello, (withOffsets_injective _).eq_iff]
    apply InsertionMap.insertionSort_values_eq_iff byName _ keyed_shared keyed_shared
    intro c c' hle hge
    exact (antisymm_compareLists Fin.val_injective).antisymm _ _ hle hge
  rw [← hsame]
  constructor
  · exact Agree.same
  · intro heq
    exact ⟨heq, pairwise_withOffsets _ _, fun d hd => le_offset_of_mem hd⟩

/-- When two peers agree on their protocols, and which codes are then delivered or refused. -/
theorem agree_and_delivered_iff (a b : List Capability) (hlengths : SameLengths (a ++ b)) :
    (Agree a b ↔ SameChoice a b) ∧
      ∀ d ∈ handleHello a (sendHelloCapabilities b), ∀ code data,
        Agree a b ∧ Delivered (handleHello b (sendHelloCapabilities a)) d code data ↔
          SameChoice a b ∧
            (d.length < code ∨
              code < d.length ∧ (d.offset + code < 128 ∨ d.offset + code = 129)) := by
  have hagree := agree_iff hlengths
  refine ⟨hagree, fun d hd code data => ?_⟩
  rw [← hagree]
  refine and_congr_right fun h => ?_
  exact delivered_iff (h.same ▸ h.disjoint) (h.base d hd) (h.same ▸ hd) code data

/-- `ETH.eth68` and `SNAP.snap`. -/
def eth68 : Capability := ⟨[101, 116, 104], 68, 17, by decide⟩

def snap1 : Capability := ⟨[115, 110, 97, 112], 1, 8, by decide⟩

theorem agree_and_delivered_iff_eth :
    SameLengths ([eth68] ++ [eth68, snap1]) ∧
      (Agree [eth68] [eth68, snap1] ↔ SameChoice [eth68] [eth68, snap1]) :=
  have hlengths : SameLengths ([eth68] ++ [eth68, snap1]) := by
    unfold SameLengths
    decide
  ⟨hlengths, (agree_and_delivered_iff [eth68] [eth68, snap1] hlengths).1⟩

/-- The code 17 of `ETH` is not refused and reaches `SNAP` with the code 0. -/
theorem not_delivered :
    ¬ ∀ a b, SameLengths (a ++ b) →
      Agree a b ∧ ∀ d ∈ handleHello a (sendHelloCapabilities b), ∀ code data,
        Delivered (handleHello b (sendHelloCapabilities a)) d code data := by
  intro h
  have hlengths : SameLengths ([eth68, snap1] ++ [eth68, snap1]) := by
    unfold SameLengths
    decide
  have hd : (⟨eth68, 16⟩ : SharedProtocol) ∈
      handleHello [eth68, snap1] (sendHelloCapabilities [eth68, snap1]) := by decide
  have hdelivered := (h _ _ hlengths).2 _ hd 17 []
  have hsend : sendMethod ⟨eth68, 16⟩ 17 [] = .ok [33] := by decide
  rw [Delivered, hsend] at hdelivered
  revert hdelivered
  decide

end Delivered

end EthereumJS.Devp2p
