import Mathlib.Algebra.Group.Nat.Defs
import Cose.Cbor.Reader

namespace Cose.Cbor

variable {α : Type}

/-- The widths in which a head gives an argument after its initial byte, each with the additional
information that announces it. -/
def widths : List (Nat × Nat) := [(24, 1), (25, 2), (26, 4), (27, 8)]

/-- The heads of a major type with a given argument. -/
inductive IsHead (major : Major) : Bytes → Nat → Prop
  | inline {n : Nat} (h : n < 24) : IsHead major [initial major n] n
  | following {info : Nat} {digits : Bytes} (h : (info, digits.length) ∈ widths) :
      IsHead major (initial major info :: digits) (Bytes.toNat digits)

/-- The items that stand for an integer of 64 bits. -/
inductive IsInt : Bytes → Int64 → Prop
  | unsigned {b : Bytes} {n : Nat} {i : Int64} (h : IsHead .unsigned b n) (value : i.toInt = n) :
      IsInt b i
  | negative {b : Bytes} {n : Nat} {i : Int64} (h : IsHead .negative b n)
      (value : i.toInt = -1 - n) : IsInt b i

/-- The items that stand for a byte string. -/
inductive IsBytes : Bytes → Bytes → Prop
  | mk {hd bs : Bytes} (h : IsHead .bytes hd bs.length) : IsBytes (hd ++ bs) bs

/-- The items that stand for a text. -/
inductive IsText : Bytes → String → Prop
  | mk {hd : Bytes} {s : String} (h : IsHead .text hd (Bytes.ofText s).length) :
      IsText (hd ++ Bytes.ofText s) s

/-- The items that stand for a byte string, or for there being none. -/
inductive IsBytesOrNull : Bytes → Option Bytes → Prop
  | bytes {b bs : Bytes} (h : IsBytes b bs) : IsBytesOrNull b (some bs)
  | null : IsBytesOrNull [0xf6] none

/-- The arrays of at least one item, each of a given form. -/
inductive IsList (F : Bytes → α → Prop) : Bytes → List α → Prop
  | mk {hd : Bytes} {items : List (Bytes × α)} (array : IsHead .array hd items.length)
      (nonempty : items ≠ []) (each : ∀ i ∈ items, F i.1 i.2) :
      IsList F (hd ++ items.flatMap (·.1)) (items.map (·.2))

theorem initial_toNat (major : Major) {info : Nat} (h : info < 32) :
    (initial major info).toNat = 32 * major.code + info := by
  have hc : major.code ≤ 6 := by cases major <;> decide
  simp only [initial, UInt8.toNat_ofNat']
  omega

theorem ofCode?_code (major : Major) : Major.ofCode? major.code = some major := by
  cases major <;> rfl

theorem code_of_ofCode? {n : Nat} {major : Major} (h : Major.ofCode? n = some major) :
    major.code = n := by
  unfold Major.ofCode? at h
  split at h <;> cases h <;> rfl

theorem info_lt_of_mem_widths {info width : Nat} (h : (info, width) ∈ widths) : info < 32 := by
  simp only [widths, List.mem_cons, Prod.mk.injEq, List.not_mem_nil, or_false] at h
  omega

theorem ofInfo?_of_mem_widths {info width : Nat} (h : (info, width) ∈ widths) :
    Argument.ofInfo? info = some (.following width) := by
  simp only [widths, List.mem_cons, Prod.mk.injEq, List.not_mem_nil, or_false] at h
  rcases h with ⟨rfl, rfl⟩ | ⟨rfl, rfl⟩ | ⟨rfl, rfl⟩ | ⟨rfl, rfl⟩ <;> rfl

theorem ofInfo?_eq_some {info : Nat} {form : Argument} (h : Argument.ofInfo? info = some form) :
    (info < 24 ∧ form = .inline info) ∨ ∃ width, (info, width) ∈ widths ∧ form = .following width := by
  unfold Argument.ofInfo? at h
  split at h
  next hi =>
    cases h
    exact .inl ⟨hi, rfl⟩
  next =>
    right
    split at h <;> cases h <;> exact ⟨_, by decide, rfl⟩

theorem ofByte_initial (major : Major) {info : Nat} {form : Argument}
    (h : Argument.ofInfo? info = some form) (hi : info < 32) :
    Lead.ofByte (initial major info) = .item major form := by
  have hb := initial_toNat major hi
  have hd : (initial major info).toNat / 32 = major.code := by omega
  have hm : (initial major info).toNat % 32 = info := by omega
  simp only [Lead.ofByte, hd, hm, ofCode?_code, h]

/-- What an initial byte can announce, and which byte it is then. -/
theorem ofByte_cases (b : UInt8) :
    (∃ major info form, b = initial major info ∧ Argument.ofInfo? info = some form ∧
      Lead.ofByte b = .item major form) ∨
    (∃ items, Lead.ofByte b = .indefinite items) ∨
    (∃ value : Bool, b = (if value then 0xf5 else 0xf4) ∧ Lead.ofByte b = .bool value) ∨
    (b = 0xf6 ∧ Lead.ofByte b = .null) ∨ Lead.ofByte b = .other := by
  rw [Lead.ofByte]
  split
  next major hm =>
    split
    next form hf =>
      have hc := code_of_ofCode? hm
      have hb : 32 * major.code + b.toNat % 32 = b.toNat := by omega
      refine .inl ⟨major, b.toNat % 32, form, ?_, hf, rfl⟩
      rw [initial, hb, UInt8.ofNat_toNat]
    next =>
      split
      · cases major.sequence? with
        | none => simp
        | some items => exact .inr (.inl ⟨items, rfl⟩)
      · simp
  next =>
    split
    next hb => exact .inr (.inr (.inl ⟨false, hb, rfl⟩))
    next =>
      split
      next hb => exact .inr (.inr (.inl ⟨true, hb, rfl⟩))
      next =>
        split
        next hb => exact .inr (.inr (.inr (.inl ⟨hb, rfl⟩)))
        next => simp

theorem ofByte_eq_item {b : UInt8} {major : Major} {form : Argument}
    (h : Lead.ofByte b = .item major form) :
    ∃ info, b = initial major info ∧ Argument.ofInfo? info = some form := by
  rcases ofByte_cases b with ⟨major', info, form', hb, hf, hl⟩ | ⟨_, hl⟩ | ⟨_, _, hl⟩ | ⟨_, hl⟩ | hl <;>
    rw [hl] at h <;> cases h
  exact ⟨info, hb, hf⟩

theorem byte_of_bool {b : UInt8} {value : Bool} (h : Lead.ofByte b = .bool value) :
    b = if value then 0xf5 else 0xf4 := by
  rcases ofByte_cases b with ⟨_, _, _, _, _, hl⟩ | ⟨_, hl⟩ | ⟨_, hb, hl⟩ | ⟨_, hl⟩ | hl <;>
    rw [hl] at h <;> cases h
  exact hb

theorem byte_of_null {b : UInt8} (h : Lead.ofByte b = .null) : b = 0xf6 := by
  rcases ofByte_cases b with ⟨_, _, _, _, _, hl⟩ | ⟨_, hl⟩ | ⟨_, _, hl⟩ | ⟨hb, hl⟩ | hl <;>
    rw [hl] at h <;> cases h
  exact hb

theorem IsHead.argument_lt {major : Major} {hd : Bytes} {n : Nat} (h : IsHead major hd n) :
    n < 2 ^ 64 := by
  cases h with
  | inline h => omega
  | @following info digits h =>
    have hlt := Bytes.toNat_lt digits
    simp only [widths, List.mem_cons, Prod.mk.injEq, List.not_mem_nil, or_false] at h
    rcases h with ⟨-, h⟩ | ⟨-, h⟩ | ⟨-, h⟩ | ⟨-, h⟩ <;> simp only [h, Bytes.count] at hlt <;> omega

theorem IsHead.exists_lead {major : Major} {hd : Bytes} {n : Nat} (h : IsHead major hd n) :
    ∃ b digits form, hd = b :: digits ∧ Lead.ofByte b = .item major form ∧
      (form = .inline n ∧ digits = [] ∨
        form = .following digits.length ∧ Bytes.toNat digits = n ∧ digits ≠ []) := by
  cases h with
  | inline h =>
    have hf : Argument.ofInfo? n = some (.inline n) := by simp [Argument.ofInfo?, h]
    exact ⟨_, [], _, rfl, ofByte_initial major hf (by omega), .inl ⟨rfl, rfl⟩⟩
  | following h =>
    refine ⟨_, _, _, rfl, ofByte_initial major (ofInfo?_of_mem_widths h) (info_lt_of_mem_widths h),
      .inr ⟨rfl, rfl, ?_⟩⟩
    intro heq
    subst heq
    simp [widths] at h

theorem IsHead.length_pos {major : Major} {hd : Bytes} {n : Nat} (h : IsHead major hd n) :
    0 < hd.length := by
  obtain ⟨b, digits, form, rfl, -⟩ := h.exists_lead
  simp

theorem head_isHead (major : Major) {n : Nat} (h : n < 2 ^ 64) : IsHead major (head major n) n := by
  have wide : ∀ info width, (info, width) ∈ widths → n < Bytes.count width →
      IsHead major (initial major info :: Bytes.ofNat width n) n := by
    intro info width hw hn
    have hh := @IsHead.following major info (Bytes.ofNat width n) (by simpa using hw)
    rwa [Bytes.toNat_ofNat, Nat.mod_eq_of_lt hn] at hh
  unfold head
  split
  next hn => exact .inline hn
  next =>
    split
    next hn => exact wide 24 1 (by decide) hn
    next =>
      split
      next hn => exact wide 25 2 (by decide) hn
      next =>
        split
        next hn => exact wide 26 4 (by decide) hn
        next => exact wide 27 8 (by decide) h

theorem isList_and {F : Bytes → α → Prop} {P : α → Prop} {b : Bytes} {as : List α} :
    IsList (fun b a => F b a ∧ P a) b as ↔ IsList F b as ∧ ∀ a ∈ as, P a := by
  constructor
  · intro h
    cases h with
    | mk array nonempty each =>
      refine ⟨.mk array nonempty fun i hi => (each i hi).1, ?_⟩
      intro a ha
      obtain ⟨i, hi, rfl⟩ := List.mem_map.mp ha
      exact (each i hi).2
  · intro hform
    obtain ⟨h, hP⟩ := hform
    cases h with
    | mk array nonempty each =>
      exact .mk array nonempty fun i hi => ⟨each i hi, hP i.2 (List.mem_map_of_mem hi)⟩

end Cose.Cbor
