import Mathlib.Algebra.Group.Int.Defs
import Cose.Proofs.Ecdsa.Sequence

namespace Cose

namespace Der

open Bytes

variable {α : Type}

/-- The ways to write a length: as one byte if it is below 128, or as bytes of any number behind a
first one that counts them. -/
inductive IsLength : Bytes → Nat → Prop
  | short {n : Nat} (h : n < 128) : IsLength [UInt8.ofNat n] n
  | long {digits : Bytes} (given : digits ≠ []) (few : digits.length < 127) :
      IsLength (UInt8.ofNat (128 + digits.length) :: digits) (toNat digits)

/-- The ways to write an integer: in two's complement, the first bit being the sign. -/
inductive IsInteger : Bytes → Int → Prop
  | nonnegative {b : UInt8} {bs : Bytes} (h : b < 128) : IsInteger (b :: bs) (toNat (b :: bs))
  | negative {b : UInt8} {bs : Bytes} (h : 128 ≤ b) :
      IsInteger (b :: bs) ((toNat (b :: bs) : Int) - 2 ^ (8 * (b :: bs).length))

/-- A way to write something such that no other one is shorter. -/
structure Shortest (F : Bytes → α → Prop) (b : Bytes) (a : α) : Prop where
  form : F b a
  least : ∀ b', F b' a → b.length ≤ b'.length

/-- The elements with a given tag and content, of which the length is written in the shortest
way. -/
inductive IsElement (tag : UInt8) : Bytes → Bytes → Prop
  | mk {hd content : Bytes} (h : Shortest IsLength hd content.length) :
      IsElement tag (tag :: hd ++ content) content

/-- The sequences of two integers, all of it written in the shortest way. -/
inductive IsPair : Bytes → Int → Int → Prop
  | mk {b b₁ b₂ c₁ c₂ : Bytes} {r s : Int} (sequence : IsElement sequenceTag b (b₁ ++ b₂))
      (first : IsElement integerTag b₁ c₁) (one : Shortest IsInteger c₁ r)
      (second : IsElement integerTag b₂ c₂) (other : Shortest IsInteger c₂ s) : IsPair b r s

theorem log2_lt_of_lt {n len : Nat} (h : n < 2 ^ len) (hpos : 0 < len) : n.log2 < len := by
  rcases Nat.eq_zero_or_pos n with rfl | hn
  · rw [Nat.log2_zero]
    exact hpos
  · exact (Nat.log2_lt (Nat.ne_of_gt hn)).mpr h

theorem byteLength_toNat_le {digits : Bytes} (hpos : 0 < digits.length) :
    byteLength (toNat digits) ≤ digits.length := by
  have hlt := toNat_lt digits
  rw [count_eq] at hlt
  have hlog := log2_lt_of_lt hlt (by omega)
  rw [byteLength]
  omega

theorem isLength_length {n : Nat} (fits : n < 2 ^ 64) : IsLength (length n) n := by
  by_cases hn : n < 128
  · rw [length, if_pos hn]
    exact .short hn
  · have hlog := log2_lt_of_lt fits (by decide)
    have hlength := length_ofNat (byteLength n) n
    have hvalue : toNat (ofNat (byteLength n) n) = n :=
      toNat_ofNat_of_log2 (by rw [byteLength]; omega)
    have hlong : IsLength (UInt8.ofNat (128 + (ofNat (byteLength n) n).length) ::
        ofNat (byteLength n) n) (toNat (ofNat (byteLength n) n)) := by
      refine .long (List.ne_nil_of_length_pos ?_) ?_ <;> rw [hlength, byteLength] <;> omega
    rw [hlength, hvalue] at hlong
    rw [length, if_neg hn]
    exact hlong

/-- Every way to write a length takes as many bytes as the strict one does, or more, and is the
strict one if it takes as many. -/
theorem IsLength.length_le {b : Bytes} {n : Nat} (h : IsLength b n) :
    (Der.length n).length ≤ b.length ∧ (b.length ≤ (Der.length n).length → b = Der.length n) := by
  cases h with
  | short h =>
    rw [Der.length, if_pos h]
    exact ⟨Nat.le_refl _, fun _ => rfl⟩
  | @long digits given few =>
    have hpos := List.length_pos_iff.mpr given
    have hle := byteLength_toNat_le hpos
    by_cases hn : toNat digits < 128
    · rw [Der.length, if_pos hn, List.length_singleton, List.length_cons]
      exact ⟨by omega, fun h => by omega⟩
    · rw [Der.length, if_neg hn, List.length_cons, List.length_cons, length_ofNat]
      refine ⟨by omega, fun h => ?_⟩
      have heq : digits.length = byteLength (toNat digits) := by omega
      rw [← heq, ofNat_toNat]

theorem shortest_isLength_iff {b : Bytes} {n : Nat} (fits : n < 2 ^ 64) :
    Shortest IsLength b n ↔ b = length n := by
  constructor
  · intro h
    exact h.form.length_le.2 (h.least _ (isLength_length fits))
  · rintro rfl
    exact ⟨isLength_length fits, fun b' hb' => hb'.length_le.1⟩

theorem IsInteger.exists_of_nonnegative {b : Bytes} {n : Nat} (h : IsInteger b n) :
    ∃ x bs, b = x :: bs ∧ x < 128 ∧ toNat b = n := by
  generalize hi : (n : Int) = i at h
  cases h with
  | @nonnegative x bs hx => exact ⟨x, bs, rfl, hx, by omega⟩
  | @negative x bs =>
    have hlt := toNat_lt (x :: bs)
    rw [count_eq] at hlt
    have hcast : (toNat (x :: bs) : Int) < 2 ^ (8 * (x :: bs).length) := by exact_mod_cast hlt
    omega

/-- Every way to write a natural number takes as many bytes as the strict one does, or more, and is
the strict one if it takes as many. -/
theorem IsInteger.length_le {b : Bytes} {n : Nat} (h : IsInteger b n) :
    (integerContent n).length ≤ b.length ∧
      (b.length ≤ (integerContent n).length → b = integerContent n) := by
  obtain ⟨x, bs, rfl, hx, rfl⟩ := h.exists_of_nonnegative
  have hx : x.toNat < 2 ^ 7 := hx
  have hlt : toNat (x :: bs) < 2 ^ (7 + 8 * bs.length) := by
    have htail := toNat_lt bs
    have hmul : (x.toNat + 1) * count bs.length ≤ 2 ^ 7 * count bs.length :=
      Nat.mul_le_mul_right _ hx
    rw [Nat.add_mul, Nat.one_mul] at hmul
    rw [toNat_cons, Nat.pow_add, ← count_eq]
    omega
  have hlog := log2_lt_of_lt hlt (by omega)
  rw [integerContent, length_ofNat, List.length_cons]
  refine ⟨by omega, fun h => ?_⟩
  have heq : (x :: bs).length = ((toNat (x :: bs)).log2 + 1) / 8 + 1 := by
    rw [List.length_cons]
    omega
  rw [← heq, ofNat_toNat]

theorem isInteger_of_integerOf? {b : Bytes} {n : Nat} (h : integerOf? b = some n) :
    IsInteger b n := by
  unfold integerOf? at h
  split at h
  next => cases h
  next x =>
    split at h
    next hx =>
      cases Option.some.inj h
      rw [← toNat_singleton]
      exact .nonnegative hx
    next => cases h
  next x y rest =>
    split at h
    next hx =>
      cases Option.some.inj h
      exact .nonnegative hx.1
    next => cases h

theorem shortest_isInteger_iff {b : Bytes} {n : Nat} :
    Shortest IsInteger b n ↔ b = integerContent n := by
  have hstrict := isInteger_of_integerOf? (integerOf?_integerContent n)
  constructor
  · intro h
    exact h.form.length_le.2 (h.least _ hstrict)
  · rintro rfl
    exact ⟨hstrict, fun b' hb' => hb'.length_le.1⟩

theorem isElement_iff {tag : UInt8} {b content : Bytes} (fits : content.length < 2 ^ 64) :
    IsElement tag b content ↔ b = element tag content := by
  constructor
  · intro h
    cases h with
    | mk h => rw [(shortest_isLength_iff fits).mp h, element]
  · rintro rfl
    exact .mk ((shortest_isLength_iff fits).mpr rfl)

/-- The strict sequences of two natural numbers are what the numbers are written as. -/
theorem isPair_iff {b : Bytes} {r s : Nat} (hr : r.log2 < 2 ^ 32) (hs : s.log2 < 2 ^ 32) :
    IsPair b r s ↔ b = encodePair r s := by
  have hlr : (integerContent r).length < 2 ^ 32 := by
    rw [integerContent, length_ofNat]
    omega
  have hls : (integerContent s).length < 2 ^ 32 := by
    rw [integerContent, length_ofNat]
    omega
  have hfits : (element integerTag (integerContent r) ++
      element integerTag (integerContent s)).length < 2 ^ 64 := by
    have hr' := length_element_le integerTag (integerContent r)
    have hs' := length_element_le integerTag (integerContent s)
    rw [List.length_append]
    omega
  constructor
  · intro h
    cases h with
    | mk sequence first one second other =>
      obtain rfl := shortest_isInteger_iff.mp one
      obtain rfl := shortest_isInteger_iff.mp other
      rw [isElement_iff (by omega)] at first second
      subst first second
      exact (isElement_iff hfits).mp sequence
  · rintro rfl
    exact .mk ((isElement_iff hfits).mpr rfl)
      ((isElement_iff (by omega)).mpr rfl) (shortest_isInteger_iff.mpr rfl)
      ((isElement_iff (by omega)).mpr rfl) (shortest_isInteger_iff.mpr rfl)

end Der

namespace PrimeCurve

/-- A number between one and the order. -/
def IsScalar (c : PrimeCurve) (n : Nat) : Prop := 0 < n ∧ n < c.order

end PrimeCurve

namespace Ecdsa

namespace Signature

variable {c : PrimeCurve}

theorem isPair_iff (sig : Signature c) {b : Bytes} :
    Der.IsPair b sig.r sig.s ↔ b = sig.toDer :=
  Der.isPair_iff (log2_lt_of_lt_order sig.r_lt) (log2_lt_of_lt_order sig.s_lt)

theorem ofDer?_eq_some_iff {b : Bytes} {sig : Signature c} :
    ofDer? c b = some sig ↔ Der.IsPair b sig.r sig.s := by
  rw [sig.isPair_iff]
  constructor
  · intro h
    exact (toDer_of_ofDer? h).symm
  · rintro rfl
    exact sig.ofDer?_toDer

theorem ofFixed?_eq_some_iff {b : Bytes} {sig : Signature c} :
    ofFixed? c b = some sig ↔ b.length = 2 * c.fieldLength ∧
      Bytes.toNat (b.take c.fieldLength) = sig.r ∧ Bytes.toNat (b.drop c.fieldLength) = sig.s := by
  constructor
  · intro h
    unfold ofFixed? at h
    split at h
    next hlength =>
      obtain ⟨hr, hs⟩ := eq_of_ofPair? h
      exact ⟨hlength, hr.symm, hs.symm⟩
    next => cases h
  · intro hform
    obtain ⟨hlength, hr, hs⟩ := hform
    rw [ofFixed?, if_pos hlength, hr, hs]
    exact sig.ofPair?_eq

theorem toFixed_of_ofFixed? {b : Bytes} {sig : Signature c} (h : ofFixed? c b = some sig) :
    sig.toFixed = b := by
  obtain ⟨hlength, hr, hs⟩ := ofFixed?_eq_some_iff.mp h
  have hfront : (b.take c.fieldLength).length = c.fieldLength := by
    rw [List.length_take]
    omega
  have hrest : (b.drop c.fieldLength).length = c.fieldLength := by
    rw [List.length_drop]
    omega
  rw [toFixed, ← hr, ← hs, Bytes.ofNat_toNat_of_length hfront, Bytes.ofNat_toNat_of_length hrest,
    List.take_append_drop]

theorem exists_iff {r s : Nat} :
    (∃ sig : Signature c, sig.r = r ∧ sig.s = s) ↔ c.IsScalar r ∧ c.IsScalar s := by
  constructor
  · rintro ⟨sig, rfl, rfl⟩
    exact ⟨⟨sig.r_pos, sig.r_lt⟩, sig.s_pos, sig.s_lt⟩
  · rintro ⟨⟨r_pos, r_lt⟩, s_pos, s_lt⟩
    exact ⟨⟨r, s, r_pos, r_lt, s_pos, s_lt⟩, rfl, rfl⟩

end Signature

variable {c : PrimeCurve} {b : Bytes}

theorem fixedOfDer_eq_ok_iff {fixed : Bytes} : fixedOfDer b c.fieldLength = .ok fixed ↔
    ∃ sig, Signature.ofDer? c b = some sig ∧ sig.toFixed = fixed := by
  simp only [fixedOfDer, c.ofFieldLength?_fieldLength]
  cases Signature.ofDer? c b with
  | none => simp
  | some sig => simp

theorem derOfFixed_eq_error {fault : SignatureFault}
    (h : derOfFixed b c.fieldLength = .error fault) : fault =
      if b.length = 2 * c.fieldLength then .unconvertible
      else .fixedLength (2 * c.fieldLength) b.length := by
  simp only [derOfFixed, c.ofFieldLength?_fieldLength] at h
  by_cases hlength : b.length = 2 * c.fieldLength
  · rw [if_neg (not_not_intro hlength)] at h
    rw [if_pos hlength]
    split at h <;> cases h
    rfl
  · rw [if_pos hlength] at h
    rw [if_neg hlength]
    cases h
    rfl

theorem fixedOfDer_eq_error {fault : SignatureFault}
    (h : fixedOfDer b c.fieldLength = .error fault) : fault = .unconvertible := by
  simp only [fixedOfDer, c.ofFieldLength?_fieldLength] at h
  split at h <;> cases h
  rfl

theorem exists_error_of_liftM {α : Type} {x : Except SignatureFault α} {e : CryptoError}
    (h : liftM x = Except.error e) : ∃ fault, x = .error fault ∧ e = .invalidSignature fault := by
  cases x with
  | ok a => cases h
  | error fault =>
    cases h
    exact ⟨fault, rfl, rfl⟩

/-- The two forms of a signature stand for each other: the one with two numbers in the length of the
field, and the strict sequence of two integers. In both, the numbers are positive and less than the
order of the curve; everything else is refused as an invalid signature. -/
theorem forms_in_bijection (c : PrimeCurve) (b : Bytes) :
    ((∃ der, derOfFixed b c.fieldLength = .ok der) ↔ b.length = 2 * c.fieldLength ∧
      c.IsScalar (Bytes.toNat (b.take c.fieldLength)) ∧
        c.IsScalar (Bytes.toNat (b.drop c.fieldLength))) ∧
    (∀ der, derOfFixed b c.fieldLength = .ok der → fixedOfDer der c.fieldLength = .ok b ∧
      Der.IsPair der (Bytes.toNat (b.take c.fieldLength)) (Bytes.toNat (b.drop c.fieldLength))) ∧
    ((∃ fixed, fixedOfDer b c.fieldLength = .ok fixed) ↔
      ∃ r s : Nat, Der.IsPair b r s ∧ c.IsScalar r ∧ c.IsScalar s) ∧
    (∀ fixed, fixedOfDer b c.fieldLength = .ok fixed →
      fixed.length = 2 * c.fieldLength ∧ derOfFixed fixed c.fieldLength = .ok b) ∧
    (∀ e : CryptoError, liftM (derOfFixed b c.fieldLength) = Except.error e →
      e = .invalidSignature (if b.length = 2 * c.fieldLength then .unconvertible
        else .fixedLength (2 * c.fieldLength) b.length)) ∧
    ∀ e : CryptoError, liftM (fixedOfDer b c.fieldLength) = Except.error e →
      e = .invalidSignature .unconvertible := by
  refine ⟨?_, ?_, ?_, ?_, ?_, ?_⟩
  · simp only [derOfFixed_eq_ok_iff, Signature.ofFixed?_eq_some_iff, ← Signature.exists_iff]
    constructor
    · rintro ⟨der, sig, ⟨hlength, hr, hs⟩, -⟩
      exact ⟨hlength, sig, hr.symm, hs.symm⟩
    · rintro ⟨hlength, sig, hr, hs⟩
      exact ⟨sig.toDer, sig, ⟨hlength, hr.symm, hs.symm⟩, rfl⟩
  · intro der h
    obtain ⟨sig, hread, rfl⟩ := derOfFixed_eq_ok_iff.mp h
    obtain ⟨hlength, hr, hs⟩ := Signature.ofFixed?_eq_some_iff.mp hread
    rw [fixedOfDer_toDer, Signature.toFixed_of_ofFixed? hread, hr, hs]
    exact ⟨rfl, sig.isPair_iff.mpr rfl⟩
  · simp only [fixedOfDer_eq_ok_iff, Signature.ofDer?_eq_some_iff, ← Signature.exists_iff]
    constructor
    · rintro ⟨fixed, sig, hpair, -⟩
      exact ⟨sig.r, sig.s, hpair, sig, rfl, rfl⟩
    · rintro ⟨r, s, hpair, sig, rfl, rfl⟩
      exact ⟨sig.toFixed, sig, hpair, rfl⟩
  · intro fixed h
    obtain ⟨sig, -, rfl⟩ := fixedOfDer_eq_ok_iff.mp h
    exact ⟨sig.length_toFixed, derOfFixed_of_fixedOfDer h⟩
  · intro e h
    obtain ⟨fault, hfault, rfl⟩ := exists_error_of_liftM h
    rw [derOfFixed_eq_error hfault]
  · intro e h
    obtain ⟨fault, hfault, rfl⟩ := exists_error_of_liftM h
    rw [fixedOfDer_eq_error hfault]

/-- The signature with the largest numbers for the longest field. Their sequence is too long for a
length of one byte. -/
def largest : Signature .p521 where
  r := PrimeCurve.p521.order - 1
  s := PrimeCurve.p521.order - 1
  r_pos := by decide
  r_lt := by decide
  s_pos := by decide
  s_lt := by decide

theorem forms_in_bijection_largest :
    (derOfFixed largest.toFixed 66 = .ok largest.toDer ∧
      fixedOfDer largest.toDer 66 = .ok largest.toFixed) ∧
    (fixedOfDer largest.toDer 66 = .ok largest.toFixed ∧ largest.toFixed.length = 132 ∧
      largest.toDer.take 3 = [0x30, 0x81, 0x88]) ∧
    (∃ e : CryptoError, liftM (derOfFixed [] 66) = Except.error e ∧
      e = .invalidSignature (.fixedLength 132 0)) ∧
    ∃ e : CryptoError, liftM (fixedOfDer [] 66) = Except.error e ∧
      e = .invalidSignature .unconvertible := by
  have hread : Signature.ofFixed? .p521 largest.toFixed = some largest := by decide +kernel
  have hder := derOfFixed_eq_ok_iff.mpr ⟨largest, hread, rfl⟩
  obtain ⟨-, back, -⟩ := forms_in_bijection .p521 largest.toFixed
  have hfixed := (back _ hder).1
  obtain ⟨-, -, -, forth, -⟩ := forms_in_bijection .p521 largest.toDer
  obtain ⟨-, -, -, -, short, none_such⟩ := forms_in_bijection .p521 []
  have hshort : liftM (derOfFixed [] 66) =
      (.error (.invalidSignature (.fixedLength 132 0)) : Except CryptoError Bytes) := rfl
  have hnone : liftM (fixedOfDer [] 66) =
      (.error (.invalidSignature .unconvertible) : Except CryptoError Bytes) := rfl
  exact ⟨⟨hder, hfixed⟩, ⟨hfixed, (forth _ hfixed).1, by decide +kernel⟩,
    ⟨_, hshort, short _ hshort⟩, _, hnone, none_such _ hnone⟩

/-- The lengths of the fields. -/
example : PrimeCurve.all.map PrimeCurve.fieldLength = [32, 48, 66] := rfl

end Ecdsa

end Cose
