import EthereumJS.Rlp.RoundTrip

/-! # Encoding is a left inverse of decoding

The decoder accepts no second form of an item: whatever it reads off an input is the
encoding of the item that it returns. With the round trip this makes the encoding a
bijection between the items and the inputs that are accepted.
-/

namespace EthereumJS.RLP

/-- A number without leading zeros is written as it was read. -/
theorem aux_bytesToNumber {v : Bytes} (hv : v.head? ≠ some 0) {fuel : Nat}
    (hfuel : bytesToNumber v ≤ fuel) : numberToBytesAux fuel (bytesToNumber v) [] = v := by
  induction v using List.reverseRecOn generalizing fuel with
  | nil => cases fuel <;> rfl
  | append_singleton w b ih =>
    rw [bytesToNumber_concat] at hfuel ⊢
    have hb := b.toNat_lt
    have hw : w.head? ≠ some 0 := by
      cases w with
      | nil => simp
      | cons c w => simpa using hv
    have hne : bytesToNumber w * 256 + b.toNat ≠ 0 := by
      intro hzero
      have hbzero : b = 0 := UInt8.toNat_inj.mp (by simp; omega)
      cases w with
      | nil => exact hv (by simp [hbzero])
      | cons c w =>
        have hnil := ih hw (show bytesToNumber (c :: w) ≤ 0 by omega)
        simp [numberToBytesAux] at hnil
    obtain ⟨fuel, rfl⟩ : ∃ n, fuel = n + 1 := ⟨fuel - 1, by omega⟩
    have hdiv : (bytesToNumber w * 256 + b.toNat) / 256 = bytesToNumber w := by omega
    have hmod : UInt8.ofNat (bytesToNumber w * 256 + b.toNat) = b := by
      apply UInt8.toNat_inj.mp
      rw [UInt8.toNat_ofNat']
      omega
    rw [numberToBytesAux_succ _ _ hne, hdiv, hmod, ih hw (by omega)]

theorem numberToBytes_bytesToNumber {v : Bytes} (hne : v ≠ []) (hv : v.head? ≠ some 0) :
    numberToBytes (bytesToNumber v) = v := by
  have haux := aux_bytesToNumber hv le_rfl
  unfold numberToBytes
  split
  · rename_i hzero
    rw [hzero] at haux
    exact absurd haux.symm hne
  · exact haux

theorem decodeLength_eq_ok {v : Bytes} {n : Nat} (h : decodeLength v = .ok n) :
    v.head? ≠ some 0 ∧ n = bytesToNumber v := by
  unfold decodeLength at h
  split at h
  · cases h
  · rename_i hv
    exact ⟨hv, (Except.ok.inj h).symm⟩

theorem safeSlice_eq_ok {input data : Bytes} {start stop : Nat}
    (h : safeSlice input start stop = .ok data) :
    stop ≤ input.length ∧ data = (input.take stop).drop start := by
  unfold safeSlice at h
  split at h
  · cases h
  · rename_i hle
    exact ⟨by omega, (Except.ok.inj h).symm⟩

/-- A slice behind the first byte, between what precedes and what follows it. -/
theorem slice_split (b : UInt8) (tail : Bytes) (a n : Nat) :
    b :: tail = b :: tail.take a ++
      (((b :: tail).take (a + 1 + n)).drop (a + 1) ++ (b :: tail).drop (a + 1 + n)) := by
  have hsum : a + 1 + n = a + n + 1 := by omega
  rw [hsum, List.take_succ_cons, List.drop_succ_cons, List.drop_succ_cons, List.cons_append]
  congr 1
  have htake : (tail.take (a + n)).take a = tail.take a := by
    rw [List.take_take, Nat.min_eq_left (by omega)]
  calc tail = tail.take (a + n) ++ tail.drop (a + n) := (List.take_append_drop _ _).symm
    _ = (tail.take (a + n)).take a ++ (tail.take (a + n)).drop a ++ tail.drop (a + n) := by
      rw [List.take_append_drop a]
    _ = tail.take a ++ ((tail.take (a + n)).drop a ++ tail.drop (a + n)) := by
      rw [htake, List.append_assoc]

theorem length_slice (b : UInt8) {tail : Bytes} {a n : Nat} (h : a + n ≤ tail.length) :
    (((b :: tail).take (a + 1 + n)).drop (a + 1)).length = n := by
  have hle : a + 1 + n ≤ tail.length + 1 := by
    rw [Nat.add_right_comm]
    exact Nat.succ_le_succ h
  rw [List.length_drop, List.length_take, List.length_cons, Nat.min_eq_left hle,
    Nat.add_sub_cancel_left]

theorem ofNat_toNat (b : UInt8) {n : Nat} (h : n = b.toNat) : UInt8.ofNat n = b := by
  rw [h, UInt8.ofNat_toNat]

/-- The header of a payload of at least 56 bytes, from its first byte and its length. -/
theorem encodeLength_of_long {b : UInt8} {l : Bytes} {offset : Nat}
    (hb : b.toNat = offset + 55 + l.length) (hl : l.head? ≠ some 0)
    (hlen : 56 ≤ bytesToNumber l) : encodeLength (bytesToNumber l) offset = b :: l := by
  have hne : l ≠ [] := by
    rintro rfl
    simp [bytesToNumber] at hlen
  have hlt := b.toNat_lt
  rw [encodeLength, if_neg (by omega)]
  simp only
  rw [numberToBytes_bytesToNumber hne hl, numberToBytes_byte _ (by omega) (by omega),
    ofNat_toNat b hb.symm]
  rfl

theorem encodeLength_of_short {b : UInt8} {n offset : Nat} (hb : b.toNat = n + offset)
    (hn : n < 56) : encodeLength n offset = [b] := by
  rw [encodeLength, if_pos hn, ofNat_toNat b hb.symm]

/-- A header with a length field, and the payload and the rest behind it. -/
theorem split_of_long {b : UInt8} {tail l : Bytes} {offset a len : Nat}
    (hb : b.toNat = offset + 55 + a) (hl : safeSlice (b :: tail) 1 (a + 1) = .ok l)
    (hlen : decodeLength l = .ok len) (hlong : 56 ≤ len) :
    b :: tail = encodeLength len offset ++
      (((b :: tail).take (a + 1 + len)).drop (a + 1) ++ (b :: tail).drop (a + 1 + len)) := by
  obtain ⟨hhead, rfl⟩ := decodeLength_eq_ok hlen
  obtain ⟨hle, hl⟩ := safeSlice_eq_ok hl
  rw [List.length_cons] at hle
  have hfield : l = tail.take a := by simpa using hl
  have hsize : l.length = a := by
    rw [hfield, List.length_take]
    omega
  have hsplit := slice_split b tail a (bytesToNumber l)
  rw [← hfield] at hsplit
  rwa [encodeLength_of_long (hsize.symm ▸ hb) hhead hlong]

theorem split_of_short {b : UInt8} {tail : Bytes} {n offset : Nat} (hb : b.toNat = n + offset)
    (hn : n < 56) :
    b :: tail = encodeLength n offset ++
      (((b :: tail).take (n + 1)).drop 1 ++ (b :: tail).drop (n + 1)) := by
  rw [encodeLength_of_short hb hn, Nat.add_comm n 1]
  simpa using slice_split b tail 0 n

theorem length_slice_one (b : UInt8) {tail : Bytes} {n : Nat} (h : n ≤ tail.length) :
    (((b :: tail).take (n + 1)).drop 1).length = n := by
  rw [List.length_drop, List.length_take, List.length_cons,
    Nat.min_eq_left (Nat.succ_le_succ h), Nat.add_one_sub_one]

/-- The payload of a string of at most 55 bytes. -/
theorem shortData_eq_ok {b : UInt8} {tail data : Bytes} {n : Nat} (hn : b.toNat = n + 128)
    (h : (if b.toNat = 0x80 then pure [] else safeSlice (b :: tail) 1 (n + 1)) = .ok data) :
    n ≤ tail.length ∧ data = ((b :: tail).take (n + 1)).drop 1 := by
  split at h
  · obtain rfl : n = 0 := by omega
    obtain rfl := Except.ok.inj h
    exact ⟨by omega, by simp⟩
  · obtain ⟨hle, hdata⟩ := safeSlice_eq_ok h
    rw [List.length_cons] at hle
    exact ⟨by omega, hdata⟩

theorem decodeFirst_short_string {fuel : Nat} {b : UInt8} {tail rest : Bytes} {d : Item}
    (hlow : 0x7f < b.toNat) (hhigh : b.toNat ≤ 0xb7)
    (h : decodeFirst (fuel + 1) (b :: tail) = .ok (d, rest)) : b :: tail = encode d ++ rest := by
  obtain ⟨n, hn⟩ : ∃ n, b.toNat = n + 128 := ⟨b.toNat - 128, by omega⟩
  have hsub : b.toNat - 127 = n + 1 := by omega
  rw [decodeFirst] at h
  simp only [if_neg (Nat.not_le.mpr hlow), if_pos hhigh, hsub] at h
  obtain ⟨data, hdata, h⟩ : ∃ data,
      (if b.toNat = 0x80 then pure [] else safeSlice (b :: tail) 1 (n + 1)) = .ok data ∧
      (if n + 1 = 2 ∧ data.head?.any (· < 0x80) then Except.error Error.singleBytePrefixed
        else Except.ok (Item.bytes data, (b :: tail).drop (n + 1))) = .ok (d, rest) := by
    split at h
    · exact ⟨[], if_pos ‹_›, h⟩
    · rw [if_neg ‹_›]
      exact bind_eq_ok.mp h
  split at h
  · cases h
  rename_i hprefixed
  obtain ⟨rfl, rfl⟩ := Prod.mk.inj (Except.ok.inj h)
  obtain ⟨hle, hdata⟩ := shortData_eq_ok hn hdata
  have hlen : data.length = n := by
    rw [hdata]
    exact length_slice_one b hle
  have hbyte : ∀ c, data = [c] → ¬ c < 128 := by
    rintro c rfl hc
    rw [List.length_singleton] at hlen
    exact hprefixed ⟨by omega, by simpa using hc⟩
  rw [encode, encodeBytes_eq data hbyte, hlen, List.append_assoc]
  conv_rhs => rw [hdata]
  exact split_of_short hn (by omega)

theorem decodeFirst_long_string {fuel : Nat} {b : UInt8} {tail rest : Bytes} {d : Item}
    (hlow : 0xb7 < b.toNat) (hhigh : b.toNat ≤ 0xbf)
    (h : decodeFirst (fuel + 1) (b :: tail) = .ok (d, rest)) : b :: tail = encode d ++ rest := by
  obtain ⟨a, ha⟩ : ∃ a, b.toNat = 128 + 55 + a := ⟨b.toNat - 183, by omega⟩
  have hsub : b.toNat - 182 = a + 1 := by omega
  rw [decodeFirst] at h
  simp only [if_neg (by omega : ¬ b.toNat ≤ 0x7f), if_neg (Nat.not_le.mpr hlow), if_pos hhigh,
    hsub] at h
  split at h
  · cases h
  obtain ⟨l, hl, h⟩ := bind_eq_ok.mp h
  obtain ⟨length, hlength, h⟩ := bind_eq_ok.mp h
  split at h
  · cases h
  rename_i hlong
  obtain ⟨data, hdata, h⟩ := bind_eq_ok.mp h
  obtain ⟨rfl, rfl⟩ := Prod.mk.inj (Except.ok.inj h)
  obtain ⟨hle, hdata⟩ := safeSlice_eq_ok hdata
  rw [List.length_cons] at hle
  rw [Nat.add_comm length] at hdata ⊢
  have hlen : data.length = length := by
    rw [hdata]
    exact length_slice b (by omega)
  have hbyte : ∀ c, data = [c] → ¬ c < 128 := by
    rintro c rfl
    rw [List.length_singleton] at hlen
    omega
  rw [encode, encodeBytes_eq data hbyte, hlen, List.append_assoc]
  conv_rhs => rw [hdata]
  exact split_of_long ha hl hlength (by omega)

theorem decodeFirst_short_list {fuel : Nat} {b : UInt8} {tail rest : Bytes} {d : Item}
    (hitems : ∀ payload items, decodeItems fuel payload = .ok items →
      payload = encodeItems items)
    (hlow : 0xbf < b.toNat) (hhigh : b.toNat ≤ 0xf7)
    (h : decodeFirst (fuel + 1) (b :: tail) = .ok (d, rest)) : b :: tail = encode d ++ rest := by
  obtain ⟨n, hn⟩ : ∃ n, b.toNat = n + 192 := ⟨b.toNat - 192, by omega⟩
  have hsub : b.toNat - 191 = n + 1 := by omega
  rw [decodeFirst] at h
  simp only [if_neg (by omega : ¬ b.toNat ≤ 0x7f), if_neg (by omega : ¬ b.toNat ≤ 0xb7),
    if_neg (Nat.not_le.mpr hlow), if_pos hhigh, hsub] at h
  obtain ⟨payload, hpayload, h⟩ := bind_eq_ok.mp h
  obtain ⟨items, hdecode, h⟩ := bind_eq_ok.mp h
  obtain ⟨rfl, rfl⟩ := Prod.mk.inj (Except.ok.inj h)
  obtain ⟨hle, hpayload⟩ := safeSlice_eq_ok hpayload
  rw [List.length_cons] at hle
  have hlen : payload.length = n := by
    rw [hpayload]
    exact length_slice_one b (by omega)
  rw [encode, ← hitems payload items hdecode, hlen, List.append_assoc]
  conv_rhs => rw [hpayload]
  exact split_of_short hn (by omega)

theorem decodeFirst_long_list {fuel : Nat} {b : UInt8} {tail rest : Bytes} {d : Item}
    (hitems : ∀ payload items, decodeItems fuel payload = .ok items →
      payload = encodeItems items)
    (hlow : 0xf7 < b.toNat)
    (h : decodeFirst (fuel + 1) (b :: tail) = .ok (d, rest)) : b :: tail = encode d ++ rest := by
  obtain ⟨a, ha⟩ : ∃ a, b.toNat = 192 + 55 + a := ⟨b.toNat - 247, by omega⟩
  have hsub : b.toNat - 246 = a + 1 := by omega
  rw [decodeFirst] at h
  simp only [if_neg (by omega : ¬ b.toNat ≤ 0x7f), if_neg (by omega : ¬ b.toNat ≤ 0xb7),
    if_neg (by omega : ¬ b.toNat ≤ 0xbf), if_neg (Nat.not_le.mpr hlow), hsub] at h
  obtain ⟨l, hl, h⟩ := bind_eq_ok.mp h
  obtain ⟨length, hlength, h⟩ := bind_eq_ok.mp h
  split at h
  · cases h
  rename_i hlong
  split at h
  · cases h
  obtain ⟨payload, hpayload, h⟩ := bind_eq_ok.mp h
  obtain ⟨items, hdecode, h⟩ := bind_eq_ok.mp h
  obtain ⟨rfl, rfl⟩ := Prod.mk.inj (Except.ok.inj h)
  obtain ⟨hle, hpayload⟩ := safeSlice_eq_ok hpayload
  rw [List.length_cons] at hle
  have hlen : payload.length = length := by
    rw [hpayload]
    exact length_slice b (by omega)
  rw [encode, ← hitems payload items hdecode, hlen, List.append_assoc]
  conv_rhs => rw [hpayload]
  exact split_of_long ha hl hlength (by omega)

theorem decodeFirst_single {fuel : Nat} {b : UInt8} {tail rest : Bytes} {d : Item}
    (hlow : b.toNat ≤ 0x7f) (h : decodeFirst (fuel + 1) (b :: tail) = .ok (d, rest)) :
    b :: tail = encode d ++ rest := by
  have hb : b < 128 := UInt8.lt_iff_toNat_lt.mpr (by simp; omega)
  rw [decodeFirst_small fuel b tail hb] at h
  obtain ⟨rfl, rfl⟩ := Prod.mk.inj (Except.ok.inj h)
  simp [encode, encodeBytes, hb]

/-- What the decoder reads is the encoding of what it returns. -/
theorem encode_of_decodeFirst (fuel : Nat) :
    (∀ input d rest, decodeFirst fuel input = .ok (d, rest) → input = encode d ++ rest) ∧
      ∀ payload items, decodeItems fuel payload = .ok items → payload = encodeItems items := by
  induction fuel with
  | zero =>
    refine ⟨fun input d rest h => ?_, fun payload items h => ?_⟩
    · cases h
    · cases payload with
      | nil =>
        obtain rfl := Except.ok.inj h
        rw [encodeItems]
      | cons b payload => cases h
  | succ fuel ih =>
    obtain ⟨hfirst, hitems⟩ := ih
    refine ⟨fun input d rest h => ?_, fun payload items h => ?_⟩
    · cases input with
      | nil => cases h
      | cons b tail =>
        rcases Nat.lt_or_ge 0x7f b.toNat with h7f | h7f
        swap
        · exact decodeFirst_single h7f h
        rcases Nat.lt_or_ge 0xb7 b.toNat with hb7 | hb7
        swap
        · exact decodeFirst_short_string h7f hb7 h
        rcases Nat.lt_or_ge 0xbf b.toNat with hbf | hbf
        swap
        · exact decodeFirst_long_string hb7 hbf h
        rcases Nat.lt_or_ge 0xf7 b.toNat with hf7 | hf7
        swap
        · exact decodeFirst_short_list hitems hbf hf7 h
        exact decodeFirst_long_list hitems hf7 h
    · cases payload with
      | nil =>
        obtain rfl := Except.ok.inj h
        rw [encodeItems]
      | cons b payload =>
        rw [decodeItems] at h
        swap
        · simp
        obtain ⟨⟨d, rest⟩, hd, h⟩ := bind_eq_ok.mp h
        obtain ⟨decoded, hrest, h⟩ := bind_eq_ok.mp h
        obtain rfl := Except.ok.inj h
        rw [encodeItems, hfirst _ _ _ hd, hitems _ _ hrest]

theorem encode_of_decode {b : Bytes} {d : Item} (hb : b ≠ []) (h : decode b = .ok d) :
    encode d = b := by
  have hpos := List.length_pos_of_ne_nil hb
  rw [decode, if_neg (by omega)] at h
  obtain ⟨⟨data, remainder⟩, hfirst, h⟩ := bind_eq_ok.mp h
  simp only at h
  split at h
  · cases h
  rename_i hrest
  obtain rfl := Except.ok.inj h
  obtain rfl : remainder = [] := by simpa using hrest
  rw [(encode_of_decodeFirst _).1 b data [] hfirst, List.append_nil]

/-- Encoding and decoding are inverse to each other, and decoding a stream leaves what
follows the encoding of the first item. -/
theorem bijective_onto_canonical :
    (∀ (x : Item) (s : Bytes), (encode x).length < maxLength →
      decode (encode x) = .ok x ∧ decodeStream (encode x ++ s) = .ok (x, s)) ∧
    ∀ (b : Bytes) (d : Item), b ≠ [] → decode b = .ok d → encode d = b :=
  ⟨fun x s hx => ⟨decode_encode x hx, decodeStream_encode x s hx⟩,
    fun _ _ hb hd => encode_of_decode hb hd⟩

theorem bijective_onto_canonical_nested :
    decode [0xc3, 0x01, 0x81, 0x80] = .ok (.list [.bytes [0x01], .bytes [0x80]]) ∧
    decodeStream [0xc3, 0x01, 0x81, 0x80, 0x05] =
      .ok (.list [.bytes [0x01], .bytes [0x80]], [0x05]) ∧
    encode (.list [.bytes [0x01], .bytes [0x80]]) = [0xc3, 0x01, 0x81, 0x80] := by
  have henc : encode (.list [.bytes [0x01], .bytes [0x80]]) = [0xc3, 0x01, 0x81, 0x80] := by
    simp [encode, encodeItems, encodeBytes, encodeLength]
  have hleft := bijective_onto_canonical.1 (.list [.bytes [0x01], .bytes [0x80]]) [0x05]
    (by rw [henc]; decide)
  rw [henc] at hleft
  exact ⟨hleft.1, hleft.2, bijective_onto_canonical.2 _ _ (by simp) hleft.1⟩

end EthereumJS.RLP
