import Mathlib.Algebra.BigOperators.Group.List.Basic
import Cose.Proofs.Cbor.Deterministic
import Cose.Proofs.Cbor.Exact

namespace Cose

namespace Cbor

/-- The argument of a head counts what follows it: bytes, items or entries. -/
def Major.Counts (major : Major) : Prop := major ∈ [.bytes, .text, .array, .map]

instance (major : Major) : Decidable major.Counts := inferInstanceAs (Decidable (_ ∈ _))

theorem WellFormed.length_pos {b : Bytes} (h : WellFormed b) : 0 < b.length := by
  cases h with
  | int _ h => exact h.length_pos
  | simple => exact Nat.one_pos
  | string _ h | array h | map h | tagged h =>
    have hp := h.length_pos
    rw [List.length_append]
    omega

theorem length_le_length_flatten {items : List Bytes} (h : ∀ i ∈ items, WellFormed i) :
    items.length ≤ items.flatten.length := by
  have hone : ∀ n ∈ items.map List.length, 1 ≤ n := by
    rw [List.forall_mem_map]
    exact fun i hi => (h i hi).length_pos
  have hsum := List.length_le_sum_of_one_le _ hone
  rwa [List.length_map, ← List.length_flatten] at hsum

/-- An item has at least as many bytes behind its head as the head counts. -/
theorem le_length_of_tail {major : Major} {n : Nat} {tail : Bytes} (counts : major.Counts)
    (h : Tail IsHead (fun _ => True) major n tail) : n ≤ tail.length := by
  cases major with
  | unsigned | negative | tag => simp [Major.Counts] at counts
  | bytes | text => exact Nat.le_of_eq h.symm
  | array =>
    obtain ⟨items, rfl, rfl, each⟩ := h
    exact length_le_length_flatten each
  | map =>
    obtain ⟨entries, rfl, rfl, labels, values, -⟩ := h
    have hflat := length_le_length_flatten (forall_mem_flat.mpr ⟨labels, values⟩)
    rw [flatten_flat, length_flat] at hflat
    omega

theorem IsList.wellFormed {α : Type} {F : Bytes → α → Prop} {b : Bytes} {as : List α}
    (h : IsList F b as) (items : ∀ b a, F b a → WellFormed b) : WellFormed b := by
  cases h with
  | @mk hd parts array _ each =>
    rw [List.flatMap_def]
    refine .array (by rwa [List.length_map]) ?_
    rw [List.forall_mem_map]
    exact fun i hi => items i.1 i.2 (each i hi)

/-- Read item by item from its front, the input comes to a place where a further item begins. -/
inductive Reaches : Bytes → Bytes → Prop
  | here (s : Bytes) : Reaches s s
  | into {major : Major} {hd s t : Bytes} {n : Nat} (nests : major ∈ [.array, .map, .tag])
      (h : IsHead major hd n) (rest : Reaches s t) : Reaches (hd ++ s) t
  | past {b s t : Bytes} (item : WellFormed b) (rest : Reaches s t) : Reaches (b ++ s) t

/-- Wherever an item begins in the input, as much follows its head as the head counts. -/
def Covered (b : Bytes) : Prop :=
  ∀ (major : Major) (hd : Bytes) (n : Nat) (rest : Bytes), Reaches b (hd ++ rest) →
    major.Counts → IsHead major hd n → n ≤ rest.length

/-- Some items one after the other. -/
def IsSequence (s : Bytes) : Prop :=
  ∃ items : List Bytes, s = items.flatten ∧ ∀ i ∈ items, WellFormed i

theorem IsSequence.exists_item {s : Bytes} (h : IsSequence s) (hne : s ≠ []) :
    ∃ b t, s = b ++ t ∧ WellFormed b ∧ IsSequence t := by
  obtain ⟨items, rfl, hitems⟩ := h
  cases items with
  | nil => exact absurd rfl hne
  | cons b items =>
    obtain ⟨hb, hrest⟩ := List.forall_mem_cons.mp hitems
    exact ⟨b, items.flatten, rfl, hb, items, rfl, hrest⟩

theorem IsSequence.of_head {major : Major} {hd s : Bytes} {n : Nat} (h : IsSequence (hd ++ s))
    (hh : IsHead major hd n) : ∃ tail behind, s = tail ++ behind ∧
      Tail IsHead (fun _ => True) major n tail ∧ IsSequence behind := by
  have hne := List.ne_nil_of_length_pos hh.length_pos
  obtain ⟨b, t, heq, hb, ht⟩ := h.exists_item (List.append_ne_nil_of_left_ne_nil hne s)
  obtain ⟨tail, -, hs, -, htail⟩ := IsItem.of_head (fun _ _ _ h => h) hb hh heq
  exact ⟨tail, t, hs, htail, ht⟩

theorem IsSequence.append {s t : Bytes} (hs : IsSequence s) (ht : IsSequence t) :
    IsSequence (s ++ t) := by
  obtain ⟨items, rfl, hitems⟩ := hs
  obtain ⟨items', rfl, hitems'⟩ := ht
  exact ⟨items ++ items', List.flatten_append.symm, List.forall_mem_append.mpr ⟨hitems, hitems'⟩⟩

theorem WellFormed.isSequence {b : Bytes} (h : WellFormed b) : IsSequence b :=
  ⟨[b], by simp, List.forall_mem_singleton.mpr h⟩

/-- What is inside an array, a map or a tagged item are items again. -/
theorem isSequence_of_tail {major : Major} {n : Nat} {tail : Bytes}
    (nests : major ∈ [.array, .map, .tag]) (h : Tail IsHead (fun _ => True) major n tail) :
    IsSequence tail := by
  cases major with
  | unsigned | negative | bytes | text => simp at nests
  | array =>
    obtain ⟨items, -, rfl, each⟩ := h
    exact ⟨items, rfl, each⟩
  | map =>
    obtain ⟨entries, -, rfl, labels, values, -⟩ := h
    exact ⟨flat entries, (flatten_flat entries).symm, forall_mem_flat.mpr ⟨labels, values⟩⟩
  | tag => exact WellFormed.isSequence h

theorem Reaches.isSequence {s t : Bytes} (h : Reaches s t) (hs : IsSequence s) :
    IsSequence t := by
  induction h with
  | here => exact hs
  | into nests hh _ ih =>
    obtain ⟨tail, behind, rfl, htail, hbehind⟩ := hs.of_head hh
    exact ih ((isSequence_of_tail nests htail).append hbehind)
  | @past b s t item _ ih =>
    have hne := List.ne_nil_of_length_pos item.length_pos
    obtain ⟨b', s', heq, hb', hs'⟩ := hs.exists_item (List.append_ne_nil_of_left_ne_nil hne s)
    obtain ⟨-, rfl⟩ := item.prefix_free hb' heq
    exact ih hs'

theorem IsSequence.covered {b : Bytes} (h : IsSequence b) : Covered b := by
  intro major hd n rest hreach counts hh
  obtain ⟨tail, behind, rfl, htail, -⟩ := (hreach.isSequence h).of_head hh
  have hn := le_length_of_tail counts htail
  rw [List.length_append]
  omega

end Cbor

namespace Reader

open Cbor

variable {α : Type} {r : Reader α}

/-- The reader takes at least one byte off its input whenever it gives a result. -/
def Advances (r : Reader α) : Prop :=
  ∀ c c' a, r c = .ok (a, c') →
    ∃ b ≠ [], c.rest = b ++ c'.rest ∧ c'.position = c.position + b.length

/-- The reader fails where a head counts more than there are bytes behind it. -/
def RefusesExcess (r : Reader α) : Prop :=
  ∀ (major : Major) (hd : Bytes) (n : Nat) (c : Cursor), major.Counts → IsHead major hd n →
    c.rest.length < n → ∃ e, r ⟨hd ++ c.rest, c.position⟩ = .error e

theorem Advances.length_lt (h : r.Advances) {c c' : Cursor} {a : α} (hr : r c = .ok (a, c')) :
    c'.rest.length < c.rest.length := by
  obtain ⟨b, hne, hrest, -⟩ := h c c' a hr
  have hb := List.length_pos_iff.mpr hne
  rw [hrest, List.length_append]
  omega

theorem advances_of_yields {F : Bytes → α → Prop} (h : r.Yields F)
    (items : ∀ b a, F b a → WellFormed b) : r.Advances := by
  intro c c' a hr
  obtain ⟨b, hrest, hposition, hb⟩ := h c a c' hr
  have hp := (items b a hb).length_pos
  exact ⟨b, List.ne_nil_of_length_pos hp, hrest, hposition⟩

theorem refusesExcess_of_yields {F : Bytes → α → Prop} (h : r.Yields F)
    (items : ∀ b a, F b a → WellFormed b) : r.RefusesExcess := by
  intro major hd n c counts hh hlt
  cases hr : r ⟨hd ++ c.rest, c.position⟩ with
  | error e => exact ⟨e, rfl⟩
  | ok p =>
    obtain ⟨b, hrest, -, hb⟩ := h _ p.1 p.2 hr
    obtain ⟨tail, -, hc, -, htail⟩ := IsItem.of_head (fun _ _ _ h => h) (items b p.1 hb) hh hrest
    have hn := le_length_of_tail counts htail
    rw [hc, List.length_append] at hlt
    omega

/-- Once there are more rounds than bytes, their number makes no difference: the reader has failed
before they are over. -/
theorem times_eq_of_lt (h : r.Advances) {n m : Nat} {c : Cursor} (hn : c.rest.length < n)
    (hm : c.rest.length < m) : times n r c = times m r c := by
  -- Each round leaves less input, so the bounds on the rounds hold for those that remain.
  induction n generalizing m c with
  | zero => omega
  | succ n ih =>
    obtain ⟨m, rfl⟩ : ∃ k, m = k + 1 := ⟨m - 1, by omega⟩
    rw [times, times, bind_apply, bind_apply]
    cases hr : r c with
    | error e => rfl
    | ok p =>
      have hlt := h.length_lt hr
      have hrest := ih (m := m) (c := p.2) (by omega) (by omega)
      show (times n r >>= _) p.2 = (times m r >>= _) p.2
      rw [bind_apply, bind_apply, hrest]

/-- A reader that gets on with every result, is not misled by what a head announces, and is called
at most once more than there are bytes left, however many rounds are asked for. -/
structure Progresses (r : Reader α) : Prop where
  advances : r.Advances
  refuses : r.RefusesExcess
  rounds : ∀ n c, times n r c = times (min n (c.rest.length + 1)) r c

theorem progresses_of_yields {F : Bytes → α → Prop} (h : r.Yields F)
    (items : ∀ b a, F b a → WellFormed b) : r.Progresses where
  advances := advances_of_yields h items
  refuses := refusesExcess_of_yields h items
  rounds n c := by
    rcases Nat.le_total n (c.rest.length + 1) with hle | hle
    · rw [Nat.min_eq_left hle]
    · exact times_eq_of_lt (advances_of_yields h items) (by omega) (by omega)

theorem progresses_listOf {F : Bytes → α → Prop} (h : r.Yields F)
    (items : ∀ b a, F b a → WellFormed b) (field name : String) :
    (listOf field name r).Progresses :=
  progresses_of_yields (yields_listOf h field name) fun _ _ hb => hb.wellFormed items

end Reader

end Cose
