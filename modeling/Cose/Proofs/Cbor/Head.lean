import Cose.Proofs.Cbor.Grammar

namespace Cose

namespace Bytes

/-- Two strings of which the first has the lesser byte where they first differ, so that it comes
first whatever follows them. -/
def Before (a b : Bytes) : Prop := ∀ s t : Bytes, a ++ s < b ++ t

theorem before_cons_of_lt {x y : UInt8} (h : x < y) (a b : Bytes) : Before (x :: a) (y :: b) :=
  fun _ _ => List.Lex.rel h

theorem Before.cons {a b : Bytes} (h : Before a b) (x : UInt8) : Before (x :: a) (x :: b) :=
  fun s t => List.Lex.cons (h s t)

theorem ofNat_mod (len n : Nat) : ofNat len (n % count len) = ofNat len n := by
  have hn : n / count len * count len + n % count len = n := by
    rw [Nat.mul_comm]
    exact Nat.div_add_mod n (count len)
  rw [← ofNat_add_mul len (n % count len) (n / count len), hn]

/-- Digits of one length compare as the numbers do. -/
theorem before_ofNat {len n m : Nat} (h : n < m) (hm : m < count len) :
    Before (ofNat len n) (ofNat len m) := by
  induction len generalizing n m with
  | zero =>
    rw [count] at hm
    omega
  | succ len ih =>
    have hpos := count_pos len
    have hq : m / count len < 256 := by
      rw [count, Nat.mul_comm] at hm
      exact Nat.div_lt_of_lt_mul hm
    have hle : n / count len ≤ m / count len := Nat.div_le_div_right (Nat.le_of_lt h)
    rw [ofNat, ofNat]
    rcases Nat.lt_or_eq_of_le hle with hlt | heq
    · refine before_cons_of_lt ?_ _ _
      rw [UInt8.lt_iff_toNat_lt, UInt8.toNat_ofNat', UInt8.toNat_ofNat',
        Nat.mod_eq_of_lt (Nat.lt_trans hlt hq), Nat.mod_eq_of_lt hq]
      exact hlt
    · have hmod : n % count len < m % count len := by
        have hn := Nat.div_add_mod n (count len)
        have hm := Nat.div_add_mod m (count len)
        rw [heq] at hn
        omega
      have hrest := ih hmod (Nat.mod_lt m hpos)
      rw [ofNat_mod, ofNat_mod] at hrest
      rw [heq]
      exact hrest.cons _

theorem map_toNat_lt_iff {a b : Bytes} : a.map UInt8.toNat < b.map UInt8.toNat ↔ a < b := by
  induction a generalizing b with
  | nil => cases b <;> simp
  | cons x a ih =>
    cases b with
    | nil => simp
    | cons y b =>
      simp only [List.map_cons, List.cons_lt_cons_iff, ih, UInt8.toNat_inj,
        ← UInt8.lt_iff_toNat_lt]

end Bytes

namespace Cbor

open Bytes

/-- The additional information of the shortest head for an argument, and how many bytes follow. -/
def shape (n : Nat) : Nat × Nat :=
  if n < 24 then (n, 0)
  else if n < 256 then (24, 1)
  else if n < 65536 then (25, 2)
  else if n < 4294967296 then (26, 4)
  else (27, 8)

theorem head_eq (major : Major) (n : Nat) :
    head major n = initial major (shape n).1 :: ofNat (shape n).2 n := by
  unfold head shape
  repeat' split
  all_goals rfl

theorem shape_info_lt (n : Nat) : (shape n).1 < 28 := by
  unfold shape
  repeat' split
  all_goals simp
  omega

/-- Of two heads the one with the lesser argument announces fewer bytes, or as many. -/
theorem shape_lt_or_eq {n m : Nat} (h : n < m) (hm : m < 2 ^ 64) :
    (shape n).1 < (shape m).1 ∨ shape n = shape m ∧ m < count (shape m).2 := by
  unfold shape
  repeat' split
  all_goals simp only [count, Prod.mk.injEq, true_and, and_true]
  all_goals omega

theorem initial_lt {major major' : Major} {info info' : Nat} (hi : info < 32) (hi' : info' < 32)
    (h : 32 * major.code + info < 32 * major'.code + info') :
    initial major info < initial major' info' := by
  rw [UInt8.lt_iff_toNat_lt, initial_toNat major hi, initial_toNat major' hi']
  exact h

/-- Shortest heads of one major type compare as their arguments do. -/
theorem before_head {major : Major} {n m : Nat} (h : n < m) (hm : m < 2 ^ 64) :
    Before (head major n) (head major m) := by
  have hn' := shape_info_lt n
  have hm' := shape_info_lt m
  rw [head_eq, head_eq]
  rcases shape_lt_or_eq h hm with hlt | hform
  · exact before_cons_of_lt (initial_lt (by omega) (by omega) (by omega)) _ _
  · obtain ⟨heq, hbound⟩ := hform
    rw [heq]
    exact (before_ofNat h hbound).cons _

theorem before_head_of_code {major major' : Major} (h : major.code < major'.code) (n m : Nat) :
    Before (head major n) (head major' m) := by
  have hn := shape_info_lt n
  have hm := shape_info_lt m
  rw [head_eq, head_eq]
  exact before_cons_of_lt (initial_lt (by omega) (by omega) (by omega)) _ _

/-- A head such that no other one with the same argument is shorter. -/
structure IsShortest (major : Major) (hd : Bytes) (n : Nat) : Prop where
  isHead : IsHead major hd n
  least : ∀ hd', IsHead major hd' n → hd.length ≤ hd'.length

/-- Every head announces at least as many bytes as the shortest one, and is it if it announces as
many. -/
theorem IsHead.shape_le {major : Major} {hd : Bytes} {n : Nat} (h : IsHead major hd n) :
    (shape n).2 + 1 ≤ hd.length ∧ (hd.length = (shape n).2 + 1 → hd = head major n) := by
  cases h with
  | inline h =>
    have hshape : shape n = (n, 0) := if_pos h
    rw [head_eq, hshape]
    exact ⟨Nat.le_refl _, fun _ => rfl⟩
  | @following info digits h =>
    have hlt := toNat_lt digits
    have hdigits := ofNat_toNat digits
    rw [head_eq, List.length_cons]
    generalize toNat digits = n at *
    rw [← hdigits]
    simp only [widths, List.mem_cons, Prod.mk.injEq, List.not_mem_nil, or_false] at h
    rcases h with ⟨rfl, h⟩ | ⟨rfl, h⟩ | ⟨rfl, h⟩ | ⟨rfl, h⟩ <;>
      simp only [h, count, length_ofNat] at hlt ⊢ <;> unfold shape <;> repeat' split
    all_goals simp

theorem isShortest_iff {major : Major} {hd : Bytes} {n : Nat} (h : n < 2 ^ 64) :
    IsShortest major hd n ↔ hd = head major n := by
  have hhead := head_isHead major h
  have hlength : (head major n).length = (shape n).2 + 1 := by simp [head_eq]
  constructor
  · intro hs
    have hle := hs.least _ hhead
    have hge := hs.isHead.shape_le.1
    exact hs.isHead.shape_le.2 (by omega)
  · rintro rfl
    refine ⟨hhead, fun hd' hd'h => ?_⟩
    have := hd'h.shape_le.1
    omega

/-- Where a head ends is plain from its first byte. -/
theorem IsHead.unique {major major' : Major} {hd hd' s t : Bytes} {n n' : Nat}
    (h : IsHead major hd n) (h' : IsHead major' hd' n') (heq : hd ++ s = hd' ++ t) :
    major = major' ∧ n = n' ∧ hd = hd' ∧ s = t := by
  obtain ⟨b, digits, form, rfl, hl, hform⟩ := h.exists_lead
  obtain ⟨b', digits', form', rfl, hl', hform'⟩ := h'.exists_lead
  obtain ⟨rfl, htail⟩ := List.cons.inj heq
  cases hl.symm.trans hl'
  rcases hform with ⟨rfl, rfl⟩ | ⟨rfl, hn, -⟩
  · rcases hform' with ⟨hinline, rfl⟩ | ⟨hfollowing, -⟩
    · cases hinline
      exact ⟨rfl, rfl, rfl, htail⟩
    · cases hfollowing
  · rcases hform' with ⟨hinline, -⟩ | ⟨hfollowing, hn', -⟩
    · cases hinline
    · have hlength : digits.length = digits'.length := by
        injection hfollowing
      obtain ⟨rfl, rfl⟩ := List.append_inj htail hlength
      exact ⟨rfl, hn.symm.trans hn', rfl, rfl⟩

end Cbor

end Cose
