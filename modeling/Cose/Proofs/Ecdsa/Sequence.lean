import Cose.Proofs.Ecdsa.Conversion

namespace Cose

namespace Bytes

theorem lt_of_toNat_lt {b : UInt8} {bs : Bytes} {high : Nat}
    (h : toNat (b :: bs) < 2 ^ (high + 8 * bs.length)) : b.toNat < 2 ^ high := by
  rw [toNat_cons, Nat.pow_add, ← count_eq] at h
  exact Nat.lt_of_mul_lt_mul_right (Nat.lt_of_le_of_lt (Nat.le_add_right _ _) h)

theorem le_of_le_toNat {b : UInt8} {bs : Bytes} {low : Nat}
    (h : 2 ^ (low + 8 * bs.length) ≤ toNat (b :: bs)) : 2 ^ low ≤ b.toNat := by
  have htail := toNat_lt bs
  rw [toNat_cons, Nat.pow_add, ← count_eq] at h
  have hlt : 2 ^ low * count bs.length < (b.toNat + 1) * count bs.length := by
    rw [Nat.add_mul, Nat.one_mul]
    omega
  exact Nat.le_of_lt_succ (Nat.lt_of_mul_lt_mul_right hlt)

/-- A number that fits comes back from its bytes. -/
theorem toNat_ofNat_of_log2 {len n : Nat} (h : n.log2 < 8 * len) : toNat (ofNat len n) = n := by
  rw [toNat_ofNat]
  apply Nat.mod_eq_of_lt
  rw [count_eq]
  by_cases hz : n = 0
  · rw [hz]
    exact Nat.two_pow_pos _
  · exact (Nat.log2_lt hz).mp h

theorem split?_append_of_length {front : Bytes} {n : Nat} (h : front.length = n) (rest : Bytes) :
    split? n (front ++ rest) = some (front, rest) := by
  rw [← h]
  exact split?_append front rest

end Bytes

namespace Der

open Bytes

theorem length_length_le (n : Nat) : (length n).length ≤ n.log2 + 2 := by
  unfold length
  split
  next => exact Nat.le_add_left 1 (n.log2 + 1)
  next =>
    rw [List.length_cons, length_ofNat, byteLength]
    omega

theorem readLength?_length {n : Nat} (fits : n < 2 ^ 64) (rest : Bytes) :
    readLength? (length n ++ rest) = some (n, rest) := by
  by_cases hn : n < 128
  · have hb : (UInt8.ofNat n).toNat = n := by
      rw [UInt8.toNat_ofNat']
      omega
    have hlt : UInt8.ofNat n < 128 := by
      rw [UInt8.lt_iff_toNat_lt, hb]
      exact hn
    rw [length, if_pos hn, List.cons_append, readLength?, if_pos hlt, hb]
    rfl
  · have hpos : n ≠ 0 := by omega
    have hlog : n.log2 < 64 := (Nat.log2_lt hpos).mpr fits
    have hdigits : toNat (ofNat (byteLength n) n) = n :=
      toNat_ofNat_of_log2 (by rw [byteLength]; omega)
    have hb : (UInt8.ofNat (128 + byteLength n)).toNat = 128 + byteLength n := by
      rw [UInt8.toNat_ofNat', byteLength]
      omega
    have hge : ¬UInt8.ofNat (128 + byteLength n) < 128 := by
      rw [UInt8.lt_iff_toNat_lt, hb]
      exact Nat.not_lt.mpr (Nat.le_add_right 128 _)
    have hwidth : (UInt8.ofNat (128 + byteLength n)).toNat - 128 = byteLength n := by omega
    have hfirst : (ofNat (byteLength n) n).head? ≠ some 0 := by
      have hlen := length_ofNat (byteLength n) n
      cases hd : ofNat (byteLength n) n with
      | nil => simp
      | cons b bs =>
        rw [hd, List.length_cons] at hlen
        -- A leading zero would mean that fewer bytes are enough.
        have hlow : 2 ^ (0 + 8 * bs.length) ≤ toNat (b :: bs) := by
          rw [← hd, hdigits]
          refine Nat.le_trans (Nat.pow_le_pow_right (by decide) ?_) (Nat.log2_self_le hpos)
          rw [byteLength] at hlen
          omega
        intro hzero
        have hb := le_of_le_toNat hlow
        rw [Option.some.inj hzero] at hb
        exact absurd hb (by decide)
    rw [length, if_neg hn, List.cons_append, readLength?, if_neg hge, hwidth,
      split?_append_of_length (length_ofNat _ n)]
    simp only [Option.bind_eq_bind, Option.bind_some, hdigits]
    exact if_pos ⟨Nat.not_lt.mp hn, hfirst⟩

theorem readElement?_element {content : Bytes} (fits : content.length < 2 ^ 64) (tag : UInt8)
    (rest : Bytes) : readElement? tag (element tag content ++ rest) = some (content, rest) := by
  have hl := readLength?_length fits (content ++ rest)
  rw [← List.append_assoc] at hl
  rw [element, List.cons_append, List.cons_append, readElement?, if_pos rfl, hl]
  exact split?_append content rest

/-- The content of an integer has room for a sign bit and no byte more than it needs. -/
theorem integerOf?_integerContent (n : Nat) : integerOf? (integerContent n) = some n := by
  have hvalue : toNat (integerContent n) = n := toNat_ofNat_of_log2 (by omega)
  have hlength : (integerContent n).length = (n.log2 + 1) / 8 + 1 := length_ofNat _ n
  have hhigh : n < 2 ^ (n.log2 + 1) := Nat.lt_log2_self
  cases hc : integerContent n with
  | nil => cases hc
  | cons b bs =>
    rw [hc] at hvalue hlength
    rw [List.length_cons] at hlength
    have hfits : toNat (b :: bs) < 2 ^ (7 + 8 * bs.length) := by
      rw [hvalue]
      exact Nat.lt_of_lt_of_le hhigh (Nat.pow_le_pow_right (by decide) (by omega))
    have hb : b.toNat < 2 ^ 7 := lt_of_toNat_lt hfits
    cases bs with
    | nil =>
      rw [toNat_singleton] at hvalue
      show (if b.toNat < 2 ^ 7 then some b.toNat else none) = some n
      rw [if_pos hb, hvalue]
    | cons c rest =>
      have hskip : b = 0 → 128 ≤ c := by
        intro hzero
        subst hzero
        have hrest : toNat (c :: rest) = n := by
          rw [toNat_cons] at hvalue
          simpa using hvalue
        have hpos : n ≠ 0 := by
          rintro rfl
          rw [List.length_cons] at hlength
          exact absurd hlength (by simp)
        rw [List.length_cons] at hlength
        have hlarge : 2 ^ (7 + 8 * rest.length) ≤ toNat (c :: rest) := by
          rw [hrest]
          refine Nat.le_trans (Nat.pow_le_pow_right (by decide) ?_) (Nat.log2_self_le hpos)
          omega
        exact le_of_le_toNat hlarge
      show (if b < 128 ∧ (b = 0 → 128 ≤ c) then some (toNat (b :: c :: rest)) else none) = some n
      rw [if_pos ⟨hb, hskip⟩, hvalue]

theorem readInteger?_element {n : Nat} (fits : n.log2 < 2 ^ 32) (rest : Bytes) :
    readInteger? (element integerTag (integerContent n) ++ rest) = some (n, rest) := by
  have hlength : (integerContent n).length < 2 ^ 64 := by
    rw [integerContent, length_ofNat]
    omega
  rw [readInteger?, readElement?_element hlength]
  show (integerOf? (integerContent n)).bind (fun m => some (m, rest)) = _
  rw [integerOf?_integerContent]
  rfl

theorem length_element_le (tag : UInt8) (content : Bytes) :
    (element tag content).length ≤ 2 * content.length + 3 := by
  have hl := length_length_le content.length
  have hlog := Nat.log2_le_self content.length
  rw [element, List.length_append, List.length_cons]
  omega

theorem decodePair?_encodePair {r s : Nat} (hr : r.log2 < 2 ^ 32) (hs : s.log2 < 2 ^ 32) :
    decodePair? (encodePair r s) = some (r, s) := by
  have hfits : (element integerTag (integerContent r) ++
      element integerTag (integerContent s)).length < 2 ^ 64 := by
    have hlr := length_element_le integerTag (integerContent r)
    have hls := length_element_le integerTag (integerContent s)
    rw [integerContent, length_ofNat] at hlr hls
    rw [List.length_append, integerContent, integerContent]
    omega
  have houter := readElement?_element hfits sequenceTag []
  have hlast := readInteger?_element hs []
  rw [List.append_nil] at houter hlast
  rw [decodePair?, encodePair, houter]
  show (readInteger? _).bind _ = _
  rw [readInteger?_element hr]
  show (readInteger? _).bind _ = _
  rw [hlast]
  rfl

end Der

namespace Ecdsa

namespace Signature

variable {c : PrimeCurve}

theorem ofPair?_eq (sig : Signature c) : ofPair? c sig.r sig.s = some sig :=
  dif_pos ⟨⟨sig.r_pos, sig.r_lt⟩, sig.s_pos, sig.s_lt⟩

theorem log2_lt_of_lt_order {n : Nat} (h : n < c.order) : n.log2 < 2 ^ 32 := by
  by_cases hz : n = 0
  · rw [hz]
    decide
  · have hlog : n.log2 < 8 * c.fieldLength := by
      apply (Nat.log2_lt hz).mpr
      rw [← Bytes.count_eq]
      exact Nat.lt_of_lt_of_le h c.order_le_count
    refine Nat.lt_trans hlog ?_
    cases c <;> decide

theorem ofDer?_toDer (sig : Signature c) : ofDer? c sig.toDer = some sig := by
  rw [ofDer?, toDer, Der.decodePair?_encodePair (log2_lt_of_lt_order sig.r_lt)
    (log2_lt_of_lt_order sig.s_lt)]
  exact sig.ofPair?_eq

end Signature

end Ecdsa

theorem PrimeCurve.ofFieldLength?_fieldLength (c : PrimeCurve) :
    ofFieldLength? c.fieldLength = some c := by
  cases c <;> rfl

namespace Ecdsa

theorem fixedOfDer_toDer {c : PrimeCurve} (sig : Signature c) :
    fixedOfDer sig.toDer c.fieldLength = .ok sig.toFixed := by
  simp only [fixedOfDer, c.ofFieldLength?_fieldLength, sig.ofDer?_toDer]

/-- A byte string is brought into the form of a sequence exactly if it is the fixed form of a
signature. -/
theorem derOfFixed_eq_ok_iff {c : PrimeCurve} {bs der : Bytes} :
    derOfFixed bs c.fieldLength = .ok der ↔
      ∃ sig, Signature.ofFixed? c bs = some sig ∧ sig.toDer = der := by
  simp only [derOfFixed, c.ofFieldLength?_fieldLength]
  by_cases hlen : bs.length = 2 * c.fieldLength
  · rw [if_neg (not_not_intro hlen)]
    cases hfixed : Signature.ofFixed? c bs with
    | none => simp
    | some sig => simp
  · rw [if_pos hlen, Signature.ofFixed?, if_neg hlen]
    simp

end Ecdsa

end Cose
