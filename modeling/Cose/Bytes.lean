namespace Cose

abbrev Bytes := List UInt8

namespace Bytes

/-- The number whose base-256 digits, most significant first, are the given bytes. -/
def toNat (bs : Bytes) : Nat :=
  bs.foldl (fun n b => 256 * n + b.toNat) 0

/-- How many byte strings of a given length there are. -/
def count : (len : Nat) → Nat
  | 0 => 1
  | len + 1 => 256 * count len

/-- The last `len` base-256 digits of a number, most significant first. -/
def ofNat : (len n : Nat) → Bytes
  | 0, _ => []
  | len + 1, n => UInt8.ofNat (n / count len) :: ofNat len n

/-- Zeros in front bring a string to the given length; a longer one stays as it is. -/
def padLeft (len : Nat) (bs : Bytes) : Bytes :=
  List.replicate (len - bs.length) 0 ++ bs

/-- Exclusive or, byte by byte, up to the end of the shorter string. -/
def xor (as bs : Bytes) : Bytes :=
  List.zipWith (· ^^^ ·) as bs

/-- The first `n` bytes and what follows them, if there are that many. -/
def split? : (n : Nat) → Bytes → Option (Bytes × Bytes)
  | 0, bs => some ([], bs)
  | _ + 1, [] => none
  | n + 1, b :: bs => (split? n bs).map fun (front, rest) => (b :: front, rest)

def ofText (s : String) : Bytes :=
  s.toByteArray.data.toList

/-- The text whose UTF-8 form is given, if the bytes are well-formed UTF-8. -/
def toText? (bs : Bytes) : Option String :=
  String.fromUTF8? ⟨bs.toArray⟩

@[simp] theorem length_ofNat (len n : Nat) : (ofNat len n).length = len := by
  induction len generalizing n with
  | zero => rfl
  | succ len ih => simp [ofNat, ih]

@[simp] theorem toNat_nil : toNat [] = 0 := rfl

theorem count_pos (len : Nat) : 0 < count len := by
  induction len with
  | zero => decide
  | succ len ih => exact Nat.mul_pos (by decide) ih

theorem foldl_digits (bs : Bytes) (n : Nat) :
    bs.foldl (fun n b => 256 * n + b.toNat) n = n * count bs.length + toNat bs := by
  induction bs generalizing n with
  | nil => simp [count]
  | cons b bs ih =>
    rw [toNat, List.foldl_cons, List.foldl_cons, ih, ih, List.length_cons, count]
    grind

@[simp] theorem toNat_cons (b : UInt8) (bs : Bytes) :
    toNat (b :: bs) = b.toNat * count bs.length + toNat bs := by
  rw [toNat, List.foldl_cons, foldl_digits]
  simp

theorem toNat_lt (bs : Bytes) : toNat bs < count bs.length := by
  induction bs with
  | nil => decide
  | cons b bs ih =>
    have hb : b.toNat + 1 ≤ 256 := b.toNat_lt
    have hm := Nat.mul_le_mul_right (count bs.length) hb
    rw [toNat_cons, List.length_cons, count]
    grind

theorem toNat_ofNat (len n : Nat) : toNat (ofNat len n) = n % count len := by
  induction len with
  | zero => simp [ofNat, count, Nat.mod_one]
  | succ len ih =>
    have hb : (UInt8.ofNat (n / count len)).toNat = n / count len % 256 := UInt8.toNat_ofNat'
    rw [ofNat, toNat_cons, ih, length_ofNat, hb, count, Nat.mul_comm 256, Nat.mod_mul,
      Nat.add_comm, Nat.mul_comm]

theorem ofNat_add_mul (len n q : Nat) : ofNat len (q * count len + n) = ofNat len n := by
  induction len generalizing q n with
  | zero => rfl
  | succ len ih =>
    have hp : q * count (len + 1) + n = q * 256 * count len + n := by
      rw [count]
      grind
    have hd : (q * 256 * count len + n) / count len = q * 256 + n / count len := by
      rw [Nat.add_comm, Nat.add_mul_div_right _ _ (count_pos len), Nat.add_comm]
    rw [hp, ofNat, ofNat, ih, hd]
    congr 1
    apply UInt8.toNat_inj.mp
    simp only [UInt8.toNat_ofNat']
    omega

theorem ofNat_toNat (bs : Bytes) : ofNat bs.length (toNat bs) = bs := by
  induction bs with
  | nil => rfl
  | cons b bs ih =>
    have hb : b.toNat < 256 := b.toNat_lt
    have hd : (b.toNat * count bs.length + toNat bs) / count bs.length = b.toNat := by
      rw [Nat.add_comm, Nat.add_mul_div_right _ _ (count_pos bs.length),
        Nat.div_eq_of_lt (toNat_lt bs), Nat.zero_add]
    rw [List.length_cons, toNat_cons, ofNat, hd, ofNat_add_mul, ih, UInt8.ofNat_toNat]

@[simp] theorem length_padLeft (len : Nat) (bs : Bytes) :
    (padLeft len bs).length = max len bs.length := by
  simp [padLeft]
  omega

@[simp] theorem length_xor (as bs : Bytes) : (xor as bs).length = min as.length bs.length := by
  simp [xor]

theorem split?_append (front rest : Bytes) :
    split? front.length (front ++ rest) = some (front, rest) := by
  induction front with
  | nil => rfl
  | cons b front ih => simp [split?, ih]

theorem split?_eq_some {n : Nat} {bs front rest : Bytes} (h : split? n bs = some (front, rest)) :
    bs = front ++ rest ∧ front.length = n := by
  induction n generalizing bs front with
  | zero => simp_all [split?]
  | succ n ih =>
    cases bs with
    | nil => simp [split?] at h
    | cons b bs =>
      simp only [split?, Option.map_eq_some_iff, Prod.mk.injEq, Prod.exists] at h
      obtain ⟨f, r, hs, hf, hr⟩ := h
      subst hf hr
      obtain ⟨h1, h2⟩ := ih hs
      simp [h1, h2]

@[simp] theorem toText?_ofText (s : String) : toText? (ofText s) = some s := by
  simp only [toText?, ofText, Array.toArray_toList]
  exact dif_pos s.isValidUTF8

theorem ofText_of_toText? {bs : Bytes} {s : String} (h : toText? bs = some s) :
    ofText s = bs := by
  unfold toText? String.fromUTF8? at h
  split at h
  · obtain rfl := Option.some.inj h
    rfl
  · cases h

theorem ofText_injective {s t : String} (h : ofText s = ofText t) : s = t :=
  Option.some.inj (by rw [← toText?_ofText s, h, toText?_ofText])

end Bytes

end Cose
