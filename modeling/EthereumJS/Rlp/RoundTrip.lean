import EthereumJS.Rlp.Basic

/-! # Decoding is a left inverse of encoding

Lengths are below `2 ^ 53`, the largest length a JavaScript typed array can have.
-/

namespace EthereumJS.RLP

def maxLength : Nat := 2 ^ 53

theorem numberToBytesAux_append (fuel n : Nat) (acc : Bytes) :
    numberToBytesAux fuel n acc = numberToBytesAux fuel n [] ++ acc := by
  induction fuel generalizing n acc with
  | zero => rfl
  | succ fuel ih =>
    simp only [numberToBytesAux]
    split
    · rfl
    · rw [ih, ih (n / 256) [UInt8.ofNat n]]
      simp

theorem numberToBytesAux_succ (fuel n : Nat) (hn : n ≠ 0) :
    numberToBytesAux (fuel + 1) n [] = numberToBytesAux fuel (n / 256) [] ++ [UInt8.ofNat n] := by
  rw [numberToBytesAux, if_neg hn, numberToBytesAux_append]

theorem bytesToNumber_concat (v : Bytes) (b : UInt8) :
    bytesToNumber (v ++ [b]) = bytesToNumber v * 256 + b.toNat := by
  simp [bytesToNumber]

theorem bytesToNumber_aux (fuel n : Nat) (h : n ≤ fuel) :
    bytesToNumber (numberToBytesAux fuel n []) = n := by
  induction fuel generalizing n with
  | zero =>
    obtain rfl : n = 0 := by omega
    rfl
  | succ fuel ih =>
    by_cases hn : n = 0
    · subst hn
      rfl
    · rw [numberToBytesAux_succ fuel n hn, bytesToNumber_concat, ih (n / 256) (by omega)]
      simp only [UInt8.toNat_ofNat']
      omega

theorem head_aux_ne_zero (fuel n : Nat) (h : n ≤ fuel) :
    (numberToBytesAux fuel n []).head? ≠ some 0 := by
  induction fuel generalizing n with
  | zero => simp [numberToBytesAux]
  | succ fuel ih =>
    by_cases hn : n = 0
    · simp [numberToBytesAux, hn]
    · rw [numberToBytesAux_succ fuel n hn]
      by_cases hq : n / 256 = 0
      · have hzero : numberToBytesAux fuel (n / 256) [] = [] := by
          rw [hq]
          cases fuel <;> rfl
        rw [hzero]
        intro hhead
        have hbyte : UInt8.ofNat n = 0 := by simpa using hhead
        have hnat := congrArg UInt8.toNat hbyte
        simp only [UInt8.toNat_ofNat', UInt8.toNat_zero] at hnat
        omega
      · have hne : numberToBytesAux fuel (n / 256) [] ≠ [] := by
          intro hnil
          have := bytesToNumber_aux fuel (n / 256) (by omega)
          rw [hnil] at this
          exact hq this.symm
        rw [List.head?_append_of_ne_nil _ hne]
        exact ih (n / 256) (by omega)

theorem length_aux_le (k fuel n : Nat) (h : n < 256 ^ k) :
    (numberToBytesAux fuel n []).length ≤ k := by
  induction k generalizing fuel n with
  | zero =>
    obtain rfl : n = 0 := by simpa using h
    cases fuel <;> simp [numberToBytesAux]
  | succ k ih =>
    cases fuel with
    | zero => simp [numberToBytesAux]
    | succ fuel =>
      by_cases hn : n = 0
      · simp [numberToBytesAux, hn]
      · rw [numberToBytesAux_succ fuel n hn, List.length_append, List.length_singleton]
        have hq : n / 256 < 256 ^ k := by
          rw [pow_succ] at h
          exact Nat.div_lt_of_lt_mul (by rwa [mul_comm] at h)
        have := ih fuel (n / 256) hq
        omega

theorem bytesToNumber_numberToBytes (n : Nat) : bytesToNumber (numberToBytes n) = n := by
  unfold numberToBytes
  split
  · rename_i h
    rw [h]
    rfl
  · exact bytesToNumber_aux n n le_rfl

theorem head_numberToBytes (n : Nat) (hn : n ≠ 0) : (numberToBytes n).head? ≠ some 0 := by
  rw [numberToBytes, if_neg hn]
  exact head_aux_ne_zero n n le_rfl

theorem length_numberToBytes_le (k n : Nat) (hn : n ≠ 0) (h : n < 256 ^ k) :
    (numberToBytes n).length ≤ k := by
  rw [numberToBytes, if_neg hn]
  exact length_aux_le k n n h

theorem numberToBytes_ne_nil (n : Nat) : numberToBytes n ≠ [] := by
  intro h
  have hval := bytesToNumber_numberToBytes n
  rw [h] at hval
  have hn : n = 0 := hval.symm
  subst hn
  simp [numberToBytes] at h

/-- A number below 256 is written as the one byte it is. -/
theorem numberToBytes_byte (n : Nat) (hn : n ≠ 0) (h : n < 256) :
    numberToBytes n = [UInt8.ofNat n] := by
  obtain ⟨fuel, rfl⟩ : ∃ fuel, n = fuel + 1 := ⟨n - 1, by omega⟩
  rw [numberToBytes, if_neg hn, numberToBytesAux_succ _ _ hn, Nat.div_eq_of_lt h]
  cases fuel <;> rfl

theorem encodeLength_ne_nil (len offset : Nat) : encodeLength len offset ≠ [] := by
  unfold encodeLength
  split
  · simp
  · simp [numberToBytes_ne_nil]

theorem encodeBytes_ne_nil (data : Bytes) : encodeBytes data ≠ [] := by
  unfold encodeBytes
  split
  · split <;> simp
  · simp [encodeLength_ne_nil]

theorem encode_ne_nil (x : Item) : encode x ≠ [] := by
  cases x with
  | bytes data =>
    rw [encode]
    exact encodeBytes_ne_nil data
  | list items => simp [encode, encodeLength_ne_nil]

theorem encode_length_pos (x : Item) : 0 < (encode x).length :=
  List.length_pos_iff.mpr (encode_ne_nil x)

theorem safeSlice_append (front body rest : Bytes) {start stop : Nat} (hstart : start = front.length)
    (hstop : stop = front.length + body.length) :
    safeSlice (front ++ (body ++ rest)) start stop = .ok body := by
  subst hstart hstop
  unfold safeSlice
  rw [if_neg (by simp), List.take_append, List.take_of_length_le (by omega)]
  simp

/-- The slice right behind the first byte. -/
theorem safeSlice_tail (b : UInt8) (body rest : Bytes) {stop : Nat} (h : stop = body.length + 1) :
    safeSlice (b :: (body ++ rest)) 1 stop = .ok body :=
  safeSlice_append [b] body rest rfl (by simp [h, Nat.add_comm])

/-- The slice behind the first byte and a length field. -/
theorem safeSlice_payload (b : UInt8) (l body rest : Bytes) {start stop : Nat}
    (hstart : start = l.length + 1) (hstop : stop = body.length + l.length + 1) :
    safeSlice (b :: (l ++ (body ++ rest))) start stop = .ok body :=
  safeSlice_append (b :: l) body rest (by simp [hstart]) (by simp [hstop]; omega)

theorem drop_payload (b : UInt8) (l body rest : Bytes) {n : Nat}
    (h : n = body.length + l.length + 1) : (b :: (l ++ (body ++ rest))).drop n = rest := by
  rw [← List.append_assoc, ← List.cons_append]
  exact List.drop_left' (by simp [h]; omega)

/-- The header of a payload of at least 56 bytes: its first byte, then the length. -/
theorem encodeLength_long (len offset : Nat) (hlen : 56 ≤ len) (hmax : len < maxLength)
    (hoff : offset ≤ 192) :
    ∃ l, l = numberToBytes len ∧ 0 < l.length ∧ l.length ≤ 7 ∧
      encodeLength len offset = UInt8.ofNat (offset + 55 + l.length) :: l := by
  have hl : (numberToBytes len).length ≤ 7 :=
    length_numberToBytes_le 7 len (by omega) (lt_of_lt_of_le hmax (by decide))
  refine ⟨numberToBytes len, rfl, List.length_pos_iff.mpr (numberToBytes_ne_nil len), hl, ?_⟩
  rw [encodeLength, if_neg (by omega)]
  simp only
  rw [numberToBytes_byte _ (by omega) (by omega)]
  rfl

theorem decodeLength_numberToBytes (len : Nat) (h : len ≠ 0) :
    decodeLength (numberToBytes len) = .ok len := by
  rw [decodeLength, if_neg (head_numberToBytes len h), bytesToNumber_numberToBytes]

theorem toNat_ofNat_lt (n : Nat) (h : n < 256) : (UInt8.ofNat n).toNat = n := by
  rw [UInt8.toNat_ofNat']
  omega

/-- One byte below `0x80` is its own encoding. -/
theorem decodeFirst_small (fuel : Nat) (b : UInt8) (rest : Bytes) (h : b < 128) :
    decodeFirst (fuel + 1) (b :: rest) = .ok (.bytes [b], rest) := by
  have hb : b.toNat ≤ 0x7f := by
    have := UInt8.lt_iff_toNat_lt.mp h
    simp only [UInt8.reduceToNat] at this
    omega
  simp [decodeFirst, hb]

theorem decodeFirst_string_short (fuel : Nat) (data rest : Bytes) (hlen : data.length < 56)
    (hbyte : ∀ b, data = [b] → ¬ b < 128) :
    decodeFirst (fuel + 1) (UInt8.ofNat (data.length + 128) :: (data ++ rest)) =
      .ok (.bytes data, rest) := by
  have hnat := toNat_ofNat_lt (data.length + 128) (by omega)
  have hsub : data.length + 128 - 127 = data.length + 1 := by omega
  rw [decodeFirst]
  simp only [hnat]
  rw [if_neg (by omega), if_pos (by omega), hsub]
  have hrest : (UInt8.ofNat (data.length + 128) :: (data ++ rest)).drop (data.length + 1) = rest := by
    simp
  rw [hrest]
  by_cases hnil : data = []
  · subst hnil
    rfl
  · have hpos := List.length_pos_iff.mpr hnil
    rw [if_neg (by omega), safeSlice_tail _ _ _ rfl]
    change (if data.length + 1 = 2 ∧ (data.head?.any fun x => decide (x < 128)) = true then
      Except.error Error.singleBytePrefixed else Except.ok (Item.bytes data, rest)) = _
    rw [if_neg]
    rintro ⟨htwo, hany⟩
    obtain ⟨b, rfl⟩ := List.length_eq_one_iff.mp (by omega : data.length = 1)
    exact hbyte b rfl (by simpa using hany)

theorem decodeFirst_string_long (fuel : Nat) (data rest : Bytes) (hlen : 56 ≤ data.length)
    (hmax : data.length < maxLength) :
    decodeFirst (fuel + 1) (encodeLength data.length 128 ++ (data ++ rest)) =
      .ok (.bytes data, rest) := by
  obtain ⟨l, hl, hpos, hle, henc⟩ := encodeLength_long data.length 128 hlen hmax (by omega)
  have hnat := toNat_ofNat_lt (128 + 55 + l.length) (by omega)
  have hdecode : decodeLength l = .ok data.length :=
    hl ▸ decodeLength_numberToBytes data.length (by omega)
  rw [henc, List.cons_append, decodeFirst]
  simp only [hnat]
  rw [if_neg (by omega), if_neg (by omega), if_pos (by omega),
    if_neg (by simp only [List.length_cons, List.length_append]; omega),
    safeSlice_tail _ l _ (by omega)]
  change (decodeLength l >>= _) = _
  rw [hdecode]
  change (if data.length ≤ 55 then _ else _) = _
  rw [if_neg (by omega), safeSlice_payload _ l data rest (by omega) (by omega)]
  change Except.ok (Item.bytes data, _) = _
  rw [drop_payload _ l data rest (by omega)]

theorem decodeFirst_list_short (fuel : Nat) (payload rest : Bytes) (items : List Item)
    (hlen : payload.length < 56) (hitems : decodeItems fuel payload = .ok items) :
    decodeFirst (fuel + 1) (UInt8.ofNat (payload.length + 192) :: (payload ++ rest)) =
      .ok (.list items, rest) := by
  have hnat := toNat_ofNat_lt (payload.length + 192) (by omega)
  have hsub : payload.length + 192 - 191 = payload.length + 1 := by omega
  have hrest :
      (UInt8.ofNat (payload.length + 192) :: (payload ++ rest)).drop (payload.length + 1) = rest := by
    simp
  rw [decodeFirst]
  simp only [hnat]
  rw [if_neg (by omega), if_neg (by omega), if_neg (by omega), if_pos (by omega), hsub,
    safeSlice_tail _ payload rest rfl, hrest]
  change (decodeItems fuel payload >>= _) = _
  rw [hitems]
  rfl

theorem decodeFirst_list_long (fuel : Nat) (payload rest : Bytes) (items : List Item)
    (hlen : 56 ≤ payload.length) (hmax : payload.length < maxLength)
    (hitems : decodeItems fuel payload = .ok items) :
    decodeFirst (fuel + 1) (encodeLength payload.length 192 ++ (payload ++ rest)) =
      .ok (.list items, rest) := by
  obtain ⟨l, hl, hpos, hle, henc⟩ := encodeLength_long payload.length 192 hlen hmax (by omega)
  have hnat := toNat_ofNat_lt (192 + 55 + l.length) (by omega)
  have hdecode : decodeLength l = .ok payload.length :=
    hl ▸ decodeLength_numberToBytes payload.length (by omega)
  rw [henc, List.cons_append, decodeFirst]
  simp only [hnat]
  rw [if_neg (by omega), if_neg (by omega), if_neg (by omega), if_neg (by omega),
    safeSlice_tail _ l _ (by omega)]
  change (decodeLength l >>= _) = _
  rw [hdecode]
  change (if payload.length < 56 then _ else _) = _
  rw [if_neg (by omega), if_neg (by simp only [List.length_cons, List.length_append]; omega),
    safeSlice_payload _ l payload rest (by omega) (by omega)]
  change (decodeItems fuel payload >>= _) = _
  rw [hitems, drop_payload _ l payload rest (by omega)]
  rfl

theorem encode_list_length (items : List Item) :
    (encode (.list items)).length =
      (encodeLength (encodeItems items).length 192).length + (encodeItems items).length := by
  rw [encode]
  simp

theorem encodeBytes_eq (data : Bytes) (h : ∀ b, data = [b] → ¬ b < 128) :
    encodeBytes data = encodeLength data.length 128 ++ data := by
  unfold encodeBytes
  split
  · rename_i b
    rw [if_neg (h b rfl)]
    rfl
  · rfl

theorem decodeFirst_encodeBytes (fuel : Nat) (data rest : Bytes) (hpos : 0 < fuel)
    (hmax : (encodeBytes data).length < maxLength) :
    decodeFirst fuel (encodeBytes data ++ rest) = .ok (.bytes data, rest) := by
  obtain ⟨fuel, rfl⟩ : ∃ n, fuel = n + 1 := ⟨fuel - 1, by omega⟩
  by_cases hsmall : ∃ b, data = [b] ∧ b < 128
  · obtain ⟨b, rfl, hb⟩ := hsmall
    simp only [encodeBytes, if_pos hb, List.singleton_append]
    exact decodeFirst_small fuel b rest hb
  · have hbyte : ∀ b, data = [b] → ¬ b < 128 := fun b hb hlt => hsmall ⟨b, hb, hlt⟩
    rw [encodeBytes_eq data hbyte, List.length_append] at hmax
    rw [encodeBytes_eq data hbyte, List.append_assoc]
    by_cases hlen : data.length < 56
    · rw [encodeLength, if_pos hlen, List.singleton_append]
      exact decodeFirst_string_short fuel data rest hlen hbyte
    · exact decodeFirst_string_long fuel data rest (by omega) (by omega)

mutual
theorem decodeFirst_encode : (x : Item) → (fuel : Nat) → (rest : Bytes) →
    2 * (encode x).length ≤ fuel → (encode x).length < maxLength →
    decodeFirst fuel (encode x ++ rest) = .ok (x, rest)
  | .bytes data, fuel, rest, hfuel, hmax => by
    have hpos := encode_length_pos (.bytes data)
    rw [encode] at hmax hfuel hpos ⊢
    exact decodeFirst_encodeBytes fuel data rest (by omega) hmax
  | .list items, fuel, rest, hfuel, hmax => by
    have hlen := encode_list_length items
    have hhead := List.length_pos_iff.mpr (encodeLength_ne_nil (encodeItems items).length 192)
    obtain ⟨fuel, rfl⟩ : ∃ n, fuel = n + 1 := ⟨fuel - 1, by omega⟩
    have hitems := decodeItems_encodeItems items fuel (by omega) (by omega)
    rw [encode, List.append_assoc]
    by_cases hshort : (encodeItems items).length < 56
    · rw [encodeLength, if_pos hshort, List.singleton_append]
      exact decodeFirst_list_short fuel _ rest items hshort hitems
    · exact decodeFirst_list_long fuel _ rest items (by omega) (by omega) hitems

theorem decodeItems_encodeItems : (items : List Item) → (fuel : Nat) →
    2 * (encodeItems items).length + 1 ≤ fuel → (encodeItems items).length < maxLength →
    decodeItems fuel (encodeItems items) = .ok items
  | [], fuel, _, _ => by
    rw [encodeItems]
    cases fuel <;> rfl
  | item :: items, fuel, hfuel, hmax => by
    obtain ⟨fuel, rfl⟩ : ∃ n, fuel = n + 1 := ⟨fuel - 1, by omega⟩
    have hpos := encode_length_pos item
    rw [encodeItems] at hfuel hmax ⊢
    rw [List.length_append] at hfuel hmax
    have hfirst := decodeFirst_encode item fuel (encodeItems items) (by omega) (by omega)
    have hrest := decodeItems_encodeItems items fuel (by omega) (by omega)
    have hne : encode item ++ encodeItems items ≠ [] := by simp [encode_ne_nil]
    obtain ⟨b, tail, hb⟩ := List.exists_cons_of_ne_nil hne
    rw [hb, decodeItems, ← hb, hfirst]
    · change (decodeItems fuel (encodeItems items) >>= _) = _
      rw [hrest]
      rfl
    · simp
end

theorem decode_encode (x : Item) (hmax : (encode x).length < maxLength) :
    decode (encode x) = .ok x := by
  have hpos := encode_length_pos x
  have hfirst := decodeFirst_encode x (2 * (encode x).length) [] le_rfl hmax
  rw [List.append_nil] at hfirst
  rw [decode, if_neg (by omega), hfirst]
  rfl

theorem decodeStream_encode (x : Item) (rest : Bytes) (hmax : (encode x).length < maxLength) :
    decodeStream (encode x ++ rest) = .ok (x, rest) := by
  have hpos := encode_length_pos x
  rw [decodeStream, if_neg (by rw [List.length_append]; omega)]
  exact decodeFirst_encode x _ rest (by rw [List.length_append]; omega) hmax

theorem encode_injective {x y : Item} (hx : (encode x).length < maxLength)
    (h : encode x = encode y) : x = y := by
  have hx' := decode_encode x hx
  rw [h, decode_encode y (h ▸ hx)] at hx'
  exact (Except.ok.inj hx').symm

end EthereumJS.RLP
