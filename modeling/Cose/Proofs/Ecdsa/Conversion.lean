import Mathlib.Algebra.Group.Nat.Defs
import Cose.Ecdsa.Signature

namespace Cose

namespace Bytes

theorem count_eq (len : Nat) : count len = 2 ^ (8 * len) := by
  induction len with
  | zero => rfl
  | succ len ih =>
    have hp : 2 ^ (8 * (len + 1)) = 2 ^ (8 * len) * 2 ^ 8 := Nat.pow_add 2 (8 * len) 8
    rw [count, ih, hp]
    omega

theorem toNat_singleton (b : UInt8) : toNat [b] = b.toNat := by
  simp [count]

theorem ofNat_toNat_of_length {bs : Bytes} {len : Nat} (h : bs.length = len) :
    ofNat len (toNat bs) = bs := by
  rw [← h]
  exact ofNat_toNat bs

/-- Where the first byte lies between two powers of two, so does the number, further up. -/
theorem log2_toNat {b : UInt8} (bs : Bytes) {low high : Nat} (hlow : 2 ^ low ≤ b.toNat)
    (hhigh : b.toNat < 2 ^ high) : low + 8 * bs.length ≤ (toNat (b :: bs)).log2 ∧
      (toNat (b :: bs)).log2 < high + 8 * bs.length := by
  have hpos : 0 < 2 ^ low := Nat.two_pow_pos low
  have hc := count_eq bs.length
  have hcpos := count_pos bs.length
  have htail := toNat_lt bs
  have hle : 2 ^ low * count bs.length ≤ b.toNat * count bs.length :=
    Nat.mul_le_mul_right (count bs.length) hlow
  have hlt : (b.toNat + 1) * count bs.length ≤ 2 ^ high * count bs.length :=
    Nat.mul_le_mul_right (count bs.length) hhigh
  rw [Nat.add_mul, Nat.one_mul] at hlt
  have hne : b.toNat * count bs.length + toNat bs ≠ 0 := by
    have := Nat.mul_pos hpos hcpos
    omega
  rw [toNat_cons]
  constructor
  · apply (Nat.le_log2 hne).mpr
    rw [Nat.pow_add, ← hc]
    omega
  · apply (Nat.log2_lt hne).mpr
    rw [Nat.pow_add, ← hc]
    omega

end Bytes

namespace Der

open Bytes

theorem byteLength_toNat {b : UInt8} {bs : Bytes} (h : b ≠ 0) :
    byteLength (toNat (b :: bs)) = (b :: bs).length := by
  have hpos : 2 ^ 0 ≤ b.toNat := by
    have hne : b.toNat ≠ 0 := fun hz => h (UInt8.toNat_inj.mp hz)
    omega
  have hlog := log2_toNat bs hpos (b.toNat_lt : b.toNat < 2 ^ 8)
  rw [byteLength, List.length_cons]
  omega

theorem eq_of_readLength? {bs rest : Bytes} {n : Nat} (h : readLength? bs = some (n, rest)) :
    bs = length n ++ rest := by
  cases bs with
  | nil => cases h
  | cons b bs =>
    rw [readLength?] at h
    split at h
    next hb =>
      cases Option.some.inj h
      have hlt : b.toNat < 128 := hb
      rw [length, if_pos hlt, UInt8.ofNat_toNat]
      rfl
    next hb =>
      obtain ⟨⟨digits, rest'⟩, hs, h⟩ := Option.bind_eq_some_iff.mp h
      dsimp only at h
      split at h
      next hd =>
        cases Option.some.inj h
        obtain ⟨rfl, hlen⟩ := split?_eq_some hs
        have hge : 128 ≤ b.toNat := Nat.not_lt.mp hb
        have hwidth : byteLength (toNat digits) = b.toNat - 128 := by
          cases digits with
          | nil => exact absurd hd.1 (by decide)
          | cons c digits =>
            have hc : c ≠ 0 := fun hz => hd.2 (congrArg some hz)
            rw [byteLength_toNat hc, hlen]
        have hb' : 128 + (b.toNat - 128) = b.toNat := by omega
        rw [length, if_neg (Nat.not_lt.mpr hd.1), hwidth, hb', UInt8.ofNat_toNat,
          ofNat_toNat_of_length hlen]
        rfl
      next => cases h

theorem eq_of_readElement? {tag : UInt8} {bs content rest : Bytes}
    (h : readElement? tag bs = some (content, rest)) : bs = element tag content ++ rest := by
  cases bs with
  | nil => cases h
  | cons b bs =>
    rw [readElement?] at h
    split at h
    next hb =>
      obtain ⟨⟨n, rest'⟩, hl, hs⟩ := Option.bind_eq_some_iff.mp h
      obtain ⟨hrest, hlen⟩ := split?_eq_some hs
      rw [hb, eq_of_readLength? hl, hrest, element, hlen, ← List.append_assoc]
      rfl
    next => cases h

/-- The content of an integer has as many bytes as it takes for the first bit to be zero. -/
theorem integerContent_of_integerOf? {bs : Bytes} {n : Nat} (h : integerOf? bs = some n) :
    integerContent n = bs := by
  unfold integerOf? at h
  split at h
  next => cases h
  next b =>
    split at h
    next hb =>
      cases Option.some.inj h
      have hlt : b.toNat < 2 ^ 7 := hb
      have hlog : b.toNat.log2 < 7 := by
        by_cases hz : b.toNat = 0
        · rw [hz]
          decide
        · exact (Nat.log2_lt hz).mpr hlt
      have hlen : (b.toNat.log2 + 1) / 8 + 1 = 1 := by omega
      rw [integerContent, hlen, ← toNat_singleton]
      exact ofNat_toNat [b]
    next => cases h
  next b c rest =>
    split at h
    next hb =>
      cases Option.some.inj h
      apply ofNat_toNat_of_length
      have hlt : b.toNat < 2 ^ 7 := hb.1
      rw [List.length_cons, List.length_cons]
      by_cases hz : b = 0
      · have hc : 2 ^ 7 ≤ c.toNat := hb.2 hz
        have hlog := log2_toNat rest hc (c.toNat_lt : c.toNat < 2 ^ 8)
        have hskip : toNat (b :: c :: rest) = toNat (c :: rest) := by
          rw [toNat_cons b, hz]
          simp
        rw [hskip]
        omega
      · have hpos : 2 ^ 0 ≤ b.toNat := by
          have hne : b.toNat ≠ 0 := fun h' => hz (UInt8.toNat_inj.mp h')
          omega
        have hlog := log2_toNat (c :: rest) hpos hlt
        rw [List.length_cons] at hlog
        omega
    next => cases h

theorem eq_of_readInteger? {bs rest : Bytes} {n : Nat} (h : readInteger? bs = some (n, rest)) :
    bs = element integerTag (integerContent n) ++ rest := by
  obtain ⟨⟨content, rest'⟩, he, h⟩ := Option.bind_eq_some_iff.mp h
  obtain ⟨m, hi, h⟩ := Option.bind_eq_some_iff.mp h
  cases Option.some.inj h
  rw [integerContent_of_integerOf? hi]
  exact eq_of_readElement? he

theorem encodePair_of_decodePair? {bs : Bytes} {r s : Nat} (h : decodePair? bs = some (r, s)) :
    encodePair r s = bs := by
  unfold decodePair? at h
  obtain ⟨⟨content, rest⟩, he, h⟩ := Option.bind_eq_some_iff.mp h
  cases rest with
  | cons => cases h
  | nil =>
    obtain ⟨⟨r', rest⟩, hr, h⟩ := Option.bind_eq_some_iff.mp h
    obtain ⟨⟨s', rest'⟩, hs, h⟩ := Option.bind_eq_some_iff.mp h
    cases rest' with
    | cons => cases h
    | nil =>
      cases Option.some.inj h
      have hcontent := eq_of_readInteger? hr
      rw [eq_of_readInteger? hs, List.append_nil] at hcontent
      rw [eq_of_readElement? he, List.append_nil, encodePair, ← hcontent]

end Der

namespace PrimeCurve

theorem order_le_count (c : PrimeCurve) : c.order ≤ Bytes.count c.fieldLength := by
  cases c <;> decide

theorem fieldLength_of_ofFieldLength? {n : Nat} {c : PrimeCurve} (h : ofFieldLength? n = some c) :
    c.fieldLength = n := by
  simpa using List.find?_some h

end PrimeCurve

namespace Ecdsa

namespace Signature

variable {c : PrimeCurve}

theorem eq_of_ofPair? {r s : Nat} {sig : Signature c} (h : ofPair? c r s = some sig) :
    sig.r = r ∧ sig.s = s := by
  unfold ofPair? at h
  split at h
  next =>
    cases Option.some.inj h
    exact ⟨rfl, rfl⟩
  next => cases h

theorem toDer_of_ofDer? {bs : Bytes} {sig : Signature c} (h : ofDer? c bs = some sig) :
    sig.toDer = bs := by
  obtain ⟨⟨r, s⟩, hp, h⟩ := Option.bind_eq_some_iff.mp h
  obtain ⟨hr, hs⟩ := eq_of_ofPair? h
  rw [toDer, hr, hs]
  exact Der.encodePair_of_decodePair? hp

theorem length_toFixed (sig : Signature c) : sig.toFixed.length = 2 * c.fieldLength := by
  rw [toFixed, List.length_append, Bytes.length_ofNat, Bytes.length_ofNat]
  omega

theorem ofFixed?_toFixed (sig : Signature c) : ofFixed? c sig.toFixed = some sig := by
  have hc := c.order_le_count
  have hr : sig.r % Bytes.count c.fieldLength = sig.r :=
    Nat.mod_eq_of_lt (Nat.lt_of_lt_of_le sig.r_lt hc)
  have hs : sig.s % Bytes.count c.fieldLength = sig.s :=
    Nat.mod_eq_of_lt (Nat.lt_of_lt_of_le sig.s_lt hc)
  have hl := Bytes.length_ofNat c.fieldLength sig.r
  rw [ofFixed?, if_pos sig.length_toFixed, toFixed, List.take_left' hl, List.drop_left' hl,
    Bytes.toNat_ofNat, Bytes.toNat_ofNat, hr, hs]
  exact dif_pos ⟨⟨sig.r_pos, sig.r_lt⟩, sig.s_pos, sig.s_lt⟩

end Signature

/-- A sequence that can be brought into fixed form is got back from it. -/
theorem derOfFixed_of_fixedOfDer {bs fixed : Bytes} {n : Nat} (h : fixedOfDer bs n = .ok fixed) :
    derOfFixed fixed n = .ok bs := by
  unfold fixedOfDer at h
  split at h
  next => cases h
  next c hc =>
    split at h
    next sig hsig =>
      cases h
      have hn := PrimeCurve.fieldLength_of_ofFieldLength? hc
      have hlen : ¬ sig.toFixed.length ≠ 2 * n := by
        rw [sig.length_toFixed, hn]
        exact fun hne => hne rfl
      rw [derOfFixed, if_neg hlen, hc]
      simp only [Signature.ofFixed?_toFixed, Signature.toDer_of_ofDer? hsig]
    next => cases h

end Ecdsa

end Cose
