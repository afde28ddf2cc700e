import Cose.Operation.Nonce

namespace Cose

namespace Bytes

theorem xor_zeros (bs : Bytes) : xor bs (List.replicate bs.length 0) = bs := by
  induction bs with
  | nil => rfl
  | cons b bs ih =>
    have hb : b ^^^ 0 = b := UInt8.xor_zero
    have hbs : List.zipWith (· ^^^ ·) bs (List.replicate bs.length 0) = bs := ih
    rw [xor, List.length_cons, List.replicate_succ, List.zipWith_cons_cons, hb, hbs]

theorem xor_xor {as bs : Bytes} (h : as.length = bs.length) : xor (xor as bs) bs = as := by
  induction as generalizing bs with
  | nil => rfl
  | cons a as ih =>
    cases bs with
    | nil => cases h
    | cons b bs =>
      have ha : a ^^^ b ^^^ b = a := by
        rw [UInt8.xor_assoc, UInt8.xor_self, UInt8.xor_zero]
      have has : List.zipWith (· ^^^ ·) (List.zipWith (· ^^^ ·) as bs) bs = as :=
        ih (Nat.succ.inj h)
      rw [xor, xor, List.zipWith_cons_cons, List.zipWith_cons_cons, ha, has]

theorem xor_comm (as bs : Bytes) : xor as bs = xor bs as :=
  List.zipWith_comm_of_comm UInt8.xor_comm

theorem xor_right_inj {as bs cs : Bytes} (hb : bs.length = as.length) (hc : cs.length = as.length) :
    xor as bs = xor as cs ↔ bs = cs := by
  constructor
  · intro h
    rw [xor_comm as bs, xor_comm as cs] at h
    rw [← xor_xor hb, h, xor_xor hc]
  · intro h
    rw [h]

/-- Zeros in front leave the first bytes as they are. -/
theorem xor_append_padLeft (front back part : Bytes) :
    xor (front ++ back) (padLeft (front.length + part.length) part) = front ++ xor back part := by
  have hzeros : (List.replicate front.length (0 : UInt8)).length = front.length :=
    List.length_replicate
  rw [padLeft, Nat.add_sub_cancel, xor, List.zipWith_append hzeros.symm]
  exact congrArg (· ++ xor back part) (xor_zeros front)

theorem toNat_padLeft (len : Nat) (bs : Bytes) : toNat (padLeft len bs) = toNat bs := by
  rw [padLeft]
  induction len - bs.length with
  | zero => rfl
  | succ n ih =>
    rw [List.replicate_succ, List.cons_append, toNat_cons, ih]
    simp

theorem toNat_inj {bs cs : Bytes} (h : bs.length = cs.length) : toNat bs = toNat cs ↔ bs = cs := by
  constructor
  · intro heq
    rw [← ofNat_toNat bs, ← ofNat_toNat cs, h, heq]
  · intro heq
    rw [heq]

end Bytes

namespace Nonce

variable {base part iv : Bytes} {length : Nat}

theorem combine_eq_ok_iff : combine base part length = .ok iv ↔
    base.length = length ∧ part.length ≤ length ∧
      iv = Bytes.xor base (Bytes.padLeft length part) := by
  unfold combine
  by_cases hbase : base.length = length
  · by_cases hpart : part.length ≤ length
    · rw [if_neg (not_not_intro hbase), if_neg (Nat.not_lt.mpr hpart), Except.ok.injEq]
      simp [hbase, hpart, eq_comm]
    · rw [if_neg (not_not_intro hbase), if_pos (Nat.lt_of_not_le hpart)]
      simp [hpart]
  · rw [if_pos hbase]
    simp [hbase]

/-- The end of the base that is as long as the part is changed, what stands before it stays. -/
theorem combine_eq_ok_iff_append : combine base part length = .ok iv ↔
    ∃ front back, base = front ++ back ∧ back.length = part.length ∧
      front.length + part.length = length ∧ iv = front ++ Bytes.xor back part := by
  rw [combine_eq_ok_iff]
  constructor
  · intro hform
    obtain ⟨hbase, hpart, rfl⟩ := hform
    have hfront : (base.take (length - part.length)).length = length - part.length := by
      rw [List.length_take]
      omega
    have hback : (base.drop (length - part.length)).length = part.length := by
      rw [List.length_drop]
      omega
    have hlength : (base.take (length - part.length)).length + part.length = length := by omega
    refine ⟨_, _, (List.take_append_drop (length - part.length) base).symm, hback, hlength, ?_⟩
    have hxor := Bytes.xor_append_padLeft (base.take (length - part.length))
      (base.drop (length - part.length)) part
    rwa [hlength, List.take_append_drop] at hxor
  · intro hform
    obtain ⟨front, back, rfl, hback, rfl, rfl⟩ := hform
    refine ⟨?_, Nat.le_add_left _ _, (Bytes.xor_append_padLeft front back part).symm⟩
    rw [List.length_append, hback]

theorem combine_eq_error_iff {e : CryptoError} : combine base part length = .error e ↔
    base.length ≠ length ∧ e = .invalidIv length base.length ∨
      base.length = length ∧ length < part.length ∧ e = .invalidIv length part.length := by
  unfold combine
  by_cases hbase : base.length = length
  · by_cases hpart : part.length ≤ length
    · rw [if_neg (not_not_intro hbase), if_neg (Nat.not_lt.mpr hpart)]
      simp [hbase, Nat.not_lt.mpr hpart]
    · rw [if_neg (not_not_intro hbase), if_pos (Nat.lt_of_not_le hpart), Except.error.injEq]
      simp [hbase, Nat.lt_of_not_le hpart, eq_comm]
  · rw [if_pos hbase, Except.error.injEq]
    simp [hbase, eq_comm]

/-- The part is taken out of the nonce as it was put in. -/
theorem combine_combine (h : combine base part length = .ok iv) :
    combine iv part length = .ok base := by
  obtain ⟨front, back, rfl, hback, hlength, rfl⟩ := combine_eq_ok_iff_append.mp h
  have hxor : (Bytes.xor back part).length = part.length := by
    rw [Bytes.length_xor]
    omega
  refine combine_eq_ok_iff_append.mpr ⟨front, _, rfl, hxor, hlength, ?_⟩
  rw [Bytes.xor_xor hback]

theorem eq_iff_of_combine {part' iv' : Bytes} (h : combine base part length = .ok iv)
    (h' : combine base part' length = .ok iv') :
    iv = iv' ↔ Bytes.padLeft length part = Bytes.padLeft length part' := by
  obtain ⟨hbase, hpart, rfl⟩ := combine_eq_ok_iff.mp h
  obtain ⟨-, hpart', rfl⟩ := combine_eq_ok_iff.mp h'
  refine Bytes.xor_right_inj ?_ ?_
  · rw [Bytes.length_padLeft]
    omega
  · rw [Bytes.length_padLeft]
    omega

theorem padLeft_eq_iff {part' : Bytes} (hpart : part.length ≤ length)
    (hpart' : part'.length ≤ length) : Bytes.padLeft length part = Bytes.padLeft length part' ↔
      Bytes.toNat part = Bytes.toNat part' := by
  have hlength : (Bytes.padLeft length part).length = (Bytes.padLeft length part').length := by
    rw [Bytes.length_padLeft, Bytes.length_padLeft]
    omega
  rw [← Bytes.toNat_inj hlength, Bytes.toNat_padLeft, Bytes.toNat_padLeft]

/-- A base and a part of a nonce are combined if and only if the base is as long as the nonce and the
part no longer; the length of the base is looked at first. The result is the base up to where the
part begins, and combined with the part again it is the base. Two parts give the same nonce if and
only if they are the same behind zeros, which is to say that they are the same number, so parts of
one length must be the same bytes. -/
theorem combined_by_number (base part : Bytes) (length : Nat) :
    ((∃ iv, combine base part length = .ok iv) ↔
      base.length = length ∧ part.length ≤ length) ∧
    (∀ e, combine base part length = .error e ↔
      base.length ≠ length ∧ e = .invalidIv length base.length ∨
        base.length = length ∧ length < part.length ∧ e = .invalidIv length part.length) ∧
    ∀ iv, combine base part length = .ok iv →
      iv.length = length ∧
      iv.take (length - part.length) = base.take (length - part.length) ∧
      combine iv part length = .ok base ∧
      ∀ part' iv', combine base part' length = .ok iv' →
        (iv = iv' ↔ Bytes.padLeft length part = Bytes.padLeft length part') ∧
        (iv = iv' ↔ Bytes.toNat part = Bytes.toNat part') ∧
        (part.length = part'.length → (iv = iv' ↔ part = part')) := by
  refine ⟨?_, fun e => combine_eq_error_iff, fun iv h => ?_⟩
  · simp only [combine_eq_ok_iff, exists_and_left, exists_eq, and_true]
  · obtain ⟨front, back, hbase, hback, hlength, hiv⟩ := combine_eq_ok_iff_append.mp h
    have hfront : front.length = length - part.length := by omega
    refine ⟨?_, ?_, combine_combine h, fun part' iv' h' => ?_⟩
    · rw [hiv, List.length_append, Bytes.length_xor]
      omega
    · rw [hiv, hbase, ← hfront, List.take_left', List.take_left']
      · rfl
      · rfl
    · have hpadded := eq_iff_of_combine h h'
      have hpart' := (combine_eq_ok_iff.mp h').2.1
      have hnumber := hpadded.trans (padLeft_eq_iff (by omega) hpart')
      exact ⟨hpadded, hnumber, fun hsame => hnumber.trans (Bytes.toNat_inj hsame)⟩

/-- A part that begins with a zero gives the nonce that it gives without it. -/
theorem combined_by_number_leading_zero :
    combine [0x10, 0x20, 0x30, 0x40] [0x07, 0xff] 4 = .ok [0x10, 0x20, 0x37, 0xbf] ∧
    combine [0x10, 0x20, 0x37, 0xbf] [0x07, 0xff] 4 = .ok [0x10, 0x20, 0x30, 0x40] ∧
    (∃ iv, combine [0x10, 0x20, 0x30, 0x40] [0x00, 0x07, 0xff] 4 = .ok iv ∧
      [0x10, 0x20, 0x37, 0xbf] = iv) ∧
    ∃ iv, combine [0x10, 0x20, 0x30, 0x40] [0x07, 0xfe] 4 = .ok iv ∧
      [0x10, 0x20, 0x37, 0xbf] ≠ iv := by
  obtain ⟨-, -, combined⟩ := combined_by_number [0x10, 0x20, 0x30, 0x40] [0x07, 0xff] 4
  have first : combine [0x10, 0x20, 0x30, 0x40] [0x07, 0xff] 4 = .ok [0x10, 0x20, 0x37, 0xbf] := rfl
  obtain ⟨-, -, restored, distinguished⟩ := combined _ first
  refine ⟨first, restored, ⟨_, rfl, (distinguished [0x00, 0x07, 0xff] _ rfl).2.1.mpr rfl⟩,
    _, rfl, ?_⟩
  intro h
  cases ((distinguished [0x07, 0xfe] _ rfl).2.2 rfl).mp h

end Nonce

end Cose
