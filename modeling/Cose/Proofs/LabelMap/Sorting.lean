import Mathlib.Data.List.Sort
import Cose.Proofs.LabelMap.Deterministic
import Cose.Key.Basic

namespace Cose

namespace Label

/-- The documented order: the non-negative integers upwards, the negative ones from minus one
downwards, then texts, the shorter first and bytewise within one length. -/
inductive Precedes : Label → Label → Prop
  | upwards {i j : Int64} (nonneg : 0 ≤ i) (lt : i < j) : Precedes (.int i) (.int j)
  | sign {i j : Int64} (nonneg : 0 ≤ i) (neg : j < 0) : Precedes (.int i) (.int j)
  | downwards {i j : Int64} (neg : i < 0) (lt : j < i) : Precedes (.int i) (.int j)
  | kind (i : Int64) (s : String) : Precedes (.int i) (.text s)
  | shorter {s t : String} (length : (Bytes.ofText s).length < (Bytes.ofText t).length) :
      Precedes (.text s) (.text t)
  | bytewise {s t : String} (length : (Bytes.ofText s).length = (Bytes.ofText t).length)
      (lt : Bytes.ofText s < Bytes.ofText t) : Precedes (.text s) (.text t)

theorem precedes_int_iff {i j : Int64} : Precedes (.int i) (.int j) ↔
    0 ≤ i.toInt ∧ (i.toInt < j.toInt ∨ j.toInt < 0) ∨ i.toInt < 0 ∧ j.toInt < i.toInt := by
  constructor
  · intro h
    cases h with
    | upwards nonneg lt =>
      rw [Int64.le_iff_toInt_le, Int64.toInt_zero] at nonneg
      rw [Int64.lt_iff_toInt_lt] at lt
      omega
    | sign nonneg neg =>
      rw [Int64.le_iff_toInt_le, Int64.toInt_zero] at nonneg
      rw [Int64.lt_iff_toInt_lt, Int64.toInt_zero] at neg
      omega
    | downwards neg lt =>
      rw [Int64.lt_iff_toInt_lt, Int64.toInt_zero] at neg
      rw [Int64.lt_iff_toInt_lt] at lt
      omega
  · intro h
    rcases h with ⟨nonneg, lt | neg⟩ | ⟨neg, lt⟩
    · exact .upwards (Int64.le_iff_toInt_le.mpr nonneg) (Int64.lt_iff_toInt_lt.mpr lt)
    · exact .sign (Int64.le_iff_toInt_le.mpr nonneg) (Int64.lt_iff_toInt_lt.mpr neg)
    · exact .downwards (Int64.lt_iff_toInt_lt.mpr neg) (Int64.lt_iff_toInt_lt.mpr lt)

theorem precedes_text_iff {s t : String} : Precedes (.text s) (.text t) ↔
    (Bytes.ofText s).length < (Bytes.ofText t).length ∨
      (Bytes.ofText s).length = (Bytes.ofText t).length ∧ Bytes.ofText s < Bytes.ofText t := by
  constructor
  · intro h
    cases h with
    | shorter length => exact .inl length
    | bytewise length lt => exact .inr ⟨length, lt⟩
  · rintro (length | ⟨length, lt⟩)
    · exact .shorter length
    · exact .bytewise length lt

theorem rank_int (i : Int64) :
    (int i).rank = if 0 ≤ i.toInt then [0, i.toInt.toNat] else [1, (-1 - i.toInt).toNat] := by
  simp only [rank, Int64.le_iff_toInt_le, Int64.toInt_zero]

theorem lt_iff_precedes {a b : Label} : a < b ↔ a.Precedes b := by
  show a.rank < b.rank ↔ _
  cases a with
  | int i =>
    rw [rank_int]
    cases b with
    | int j =>
      rw [rank_int, precedes_int_iff]
      generalize i.toInt = x, j.toInt = y
      split <;> split <;> simp [List.cons_lt_cons_iff] <;> omega
    | text t =>
      have hprecedes : Precedes (.int i) (.text t) := .kind i t
      rw [rank]
      split <;> simp [List.cons_lt_cons_iff, hprecedes]
  | text s =>
    cases b with
    | int j =>
      have hnot : ¬Precedes (.text s) (.int j) := by
        intro h
        cases h
      rw [rank_int, rank]
      split <;> simp [List.cons_lt_cons_iff, hnot]
    | text t =>
      rw [rank, rank, precedes_text_iff]
      simp [List.cons_lt_cons_iff, Bytes.map_toNat_lt_iff]

theorem Precedes.trichotomy (a b : Label) : a.Precedes b ∨ a = b ∨ b.Precedes a := by
  rw [← lt_iff_precedes, ← lt_iff_precedes]
  by_cases hlt : a < b
  · exact .inl hlt
  · by_cases heq : a = b
    · exact .inr (.inl heq)
    · exact .inr (.inr (lt_of_not_lt_of_ne hlt heq))

/-- What one label is written as does not begin with what another one is written as. -/
theorem eq_of_prefix {a b : Label} (ha : a.Fits) (hb : b.Fits) (h : a.encode <+: b.encode) :
    a = b := by
  obtain ⟨rest, heq⟩ := h
  rw [← List.append_nil b.encode] at heq
  have hencode := (ha.written.wellFormed.prefix_free hb.written.wellFormed heq).1
  by_contra hne
  have hab : ¬a < b := by
    rw [← encode_lt_iff ha hb, hencode]
    exact List.lt_irrefl _
  have hba := encode_lt_of_lt (lt_of_not_lt_of_ne hab hne) ha
  rw [hencode] at hba
  exact List.lt_irrefl _ hba

end Label

namespace LabelMap

/-- The entries sorted by what their labels are written as. -/
def sortEntries (es : List (Label × Value)) : List (Label × Value) :=
  es.mergeSort fun d e => d.1.encode ≤ e.1.encode

/-- The map with the entries visited in the given order and sorted before they are written. -/
def encodeSorted (es : List (Label × Value)) : Bytes :=
  Cbor.head .map (sortEntries es).length ++
    (sortEntries es).flatMap fun e => e.1.encode ++ e.2.encode

theorem sortEntries_perm (es : List (Label × Value)) : (sortEntries es).Perm es :=
  List.mergeSort_perm es _

theorem pairwise_sortEntries (es : List (Label × Value)) :
    (sortEntries es).Pairwise fun d e => d.1.encode ≤ e.1.encode := by
  have htrans : ∀ c d e : Label × Value, decide (c.1.encode ≤ d.1.encode) →
      decide (d.1.encode ≤ e.1.encode) → decide (c.1.encode ≤ e.1.encode) := by
    intro c d e hcd hde
    exact decide_eq_true (List.le_trans (of_decide_eq_true hcd) (of_decide_eq_true hde))
  have htotal : ∀ d e : Label × Value,
      (decide (d.1.encode ≤ e.1.encode) || decide (e.1.encode ≤ d.1.encode)) = true := by
    intro d e
    have := List.le_total d.1.encode e.1.encode
    simpa using this
  exact (List.pairwise_mergeSort htrans htotal es).imp of_decide_eq_true

/-- Sorting puts distinct labels into their order. -/
theorem ascending_sortEntries {es : List (Label × Value)} (fits : ∀ e ∈ es, e.1.Fits)
    (distinct : (es.map (·.1)).Nodup) : (sortEntries es).Pairwise (·.1 < ·.1) := by
  have hperm := sortEntries_perm es
  have hnodup : ((sortEntries es).map (·.1)).Nodup := (hperm.map _).nodup_iff.mpr distinct
  have hdistinct := List.pairwise_map.mp hnodup
  refine ((pairwise_sortEntries es).and hdistinct).imp_of_mem fun {d e} hd he h => ?_
  obtain ⟨hle, hne⟩ := h
  have hd' := fits d (hperm.mem_iff.mp hd)
  have he' := fits e (hperm.mem_iff.mp he)
  by_contra hlt
  have hed := Label.encode_lt_of_lt (Label.lt_of_not_lt_of_ne hlt hne) hd'
  exact List.not_lt.mpr hle hed

theorem sortEntries_eq_of_perm {es fs : List (Label × Value)} (fits : ∀ e ∈ es, e.1.Fits)
    (distinct : (es.map (·.1)).Nodup) (h : es.Perm fs) : sortEntries es = sortEntries fs := by
  have hes := sortEntries_perm es
  have hfs := sortEntries_perm fs
  have fits' : ∀ e ∈ fs, e.1.Fits := fun e he => fits e (h.mem_iff.mpr he)
  have distinct' : (fs.map (·.1)).Nodup := (h.map (·.1)).nodup_iff.mp distinct
  refine eq_of_mem_iff (ascending_sortEntries fits distinct)
    (ascending_sortEntries fits' distinct') fun e => ?_
  rw [hes.mem_iff, hfs.mem_iff, h.mem_iff]

/-- However the entries of a map are visited, sorting gives them as the map has them. -/
theorem sortEntries_eq_entries {m : LabelMap} {es : List (Label × Value)}
    (fits : ∀ e ∈ m.entries, e.1.Fits) (h : es.Perm m.entries) : sortEntries es = m.entries := by
  have distinct : (m.entries.map (·.1)).Nodup := m.ascending.map _ fun _ _ hlt => Label.ne_of_lt hlt
  have hm := ascending_sortEntries fits distinct
  rw [← sortEntries_eq_of_perm fits distinct h.symm]
  exact eq_of_mem_iff hm m.ascending fun e => (sortEntries_perm m.entries).mem_iff

theorem encodeSorted_eq {m : LabelMap} {es : List (Label × Value)}
    (fits : ∀ e ∈ m.entries, e.1.Fits) (h : es.Perm m.entries) : encodeSorted es = m.encode := by
  rw [encodeSorted, sortEntries_eq_entries fits h]
  rfl

/-- Labels whose texts a head can announce come in the documented order, which is total, exactly as
what they are written as comes in the bytewise order, where no label begins another. Sorting the
entries of a map, and the further entries of a key, therefore has one result for all orders in which
they are visited, and that is how they are written. -/
theorem encode_order :
    (∀ a b : Label, a.Fits → b.Fits →
      (a.encode < b.encode ↔ a.Precedes b) ∧ (a.encode = b.encode ↔ a = b) ∧
        (a.encode <+: b.encode → a = b)) ∧
    ((∀ a : Label, ¬a.Precedes a) ∧
      (∀ a b c : Label, a.Precedes b → b.Precedes c → a.Precedes c) ∧
      ∀ a b : Label, a.Precedes b ∨ a = b ∨ b.Precedes a) ∧
    (∀ es : List (Label × Value), (∀ e ∈ es, e.1.Fits) → (es.map (·.1)).Nodup →
      (sortEntries es).Perm es ∧ (sortEntries es).Pairwise (fun d e => d.1.Precedes e.1) ∧
        ∀ fs : List (Label × Value), es.Perm fs → sortEntries fs = sortEntries es) ∧
    (∀ (m : LabelMap) (es : List (Label × Value)), (∀ e ∈ m.entries, e.1.Fits) →
      es.Perm m.entries → encodeSorted es = m.encode) ∧
    ∀ (key : Key) (es : List (Label × Value)), (∀ e ∈ key.extra.entries, e.1.Fits) →
      es.Perm key.extra.entries →
        key.entries = key.commonEntries ++ key.material.entries ++ sortEntries es := by
  refine ⟨fun a b ha hb => ⟨?_, ?_, Label.eq_of_prefix ha hb⟩, ⟨?_, ?_, Label.Precedes.trichotomy⟩,
    fun es fits distinct => ⟨sortEntries_perm es, ?_, ?_⟩, ?_, ?_⟩
  · rw [Label.encode_lt_iff ha hb, Label.lt_iff_precedes]
  · constructor
    · intro heq
      have hprefix : a.encode <+: b.encode := heq ▸ List.prefix_rfl
      exact Label.eq_of_prefix ha hb hprefix
    · exact congrArg Label.encode
  · intro a h
    exact Label.lt_irrefl a (Label.lt_iff_precedes.mpr h)
  · intro a b c hab hbc
    rw [← Label.lt_iff_precedes] at hab hbc ⊢
    exact Label.lt_trans hab hbc
  · exact (ascending_sortEntries fits distinct).imp Label.lt_iff_precedes.mp
  · intro fs h
    exact (sortEntries_eq_of_perm fits distinct h).symm
  · intro m es fits h
    exact encodeSorted_eq fits h
  · intro key es fits h
    rw [sortEntries_eq_entries fits h]
    rfl

/-- Labels on both sides of the places where heads grow, with the extremes of the integers. -/
def boundaries : LabelMap :=
  let ints : List Int64 := [6, 23, 24, 255, 256, 65535, 65536, 4294967295, 4294967296,
    Int64.maxValue, -5, -24, -25, -256, -257, -65536, -65537, -4294967296, -4294967297,
    Int64.minValue]
  let texts := ["", "b", "ab", "é", "abcdefghijklmnopqrstuvw", "abcdefghijklmnopqrstuvwx"]
  ofList ((ints.map Label.int ++ texts.map Label.text).map fun l => (l, .null))

/-- A symmetric key with an entry under each of these labels. -/
def boundaryKey : Key where
  keyId := none
  algorithm := none
  operations := []
  baseIv := none
  material := .symmetric [0x5a]
  extra := boundaries
  sound := rfl
  unreserved := by decide +kernel

theorem encode_order_boundaries :
    ((Label.int Int64.maxValue).encode < (Label.int (-1)).encode ∧
      (Label.int Int64.minValue).encode < (Label.text "").encode ∧
      (Label.text "b").encode < (Label.text "ab").encode ∧
      ¬(Label.text "").encode <+: (Label.text "a").encode) ∧
    (Label.int Int64.minValue).Precedes (.text "ab") ∧
    (sortEntries boundaries.entries.reverse).Perm boundaries.entries.reverse ∧
    encodeSorted boundaries.entries.reverse = boundaries.encode ∧
    boundaryKey.entries = boundaryKey.commonEntries ++ boundaryKey.material.entries ++
      sortEntries boundaries.entries.reverse := by
  obtain ⟨bytewise, ⟨-, transitive, -⟩, sorted, map, key⟩ := encode_order
  have hfits : ∀ e ∈ boundaries.entries, e.1.Fits := by
    have : ∀ e ∈ boundaries.entries, e.1.parts.2.1 < 2 ^ 64 := by decide +kernel
    exact this
  have hreverse : boundaries.entries.reverse.Perm boundaries.entries := List.reverse_perm _
  have hdistinct : (boundaries.entries.reverse.map (·.1)).Nodup := by decide +kernel
  have htext : ∀ t ∈ ["", "a", "b", "ab"], (Label.text t).Fits := by
    have : ∀ t ∈ ["", "a", "b", "ab"], (Bytes.ofText t).length < 2 ^ 64 := by decide +kernel
    exact this
  have hempty := htext "" (by simp)
  have hb := htext "b" (by simp)
  refine ⟨⟨?_, ?_, ?_, ?_⟩, ?_, ?_, map boundaries _ hfits hreverse,
    key boundaryKey _ hfits hreverse⟩
  · exact (bytewise _ _ (Label.fits_int _) (Label.fits_int _)).1.mpr (.sign (by decide) (by decide))
  · exact (bytewise _ _ (Label.fits_int _) hempty).1.mpr (.kind _ _)
  · exact (bytewise _ _ hb (htext "ab" (by simp))).1.mpr (.shorter (by decide +kernel))
  · intro h
    have heq := (bytewise _ _ hempty (htext "a" (by simp))).2.2 h
    revert heq
    decide
  · exact transitive _ (.text "b") _ (.kind _ _) (.shorter (by decide +kernel))
  · exact (sorted _ (fun e he => hfits e (List.mem_reverse.mp he)) hdistinct).1

end LabelMap

end Cose
