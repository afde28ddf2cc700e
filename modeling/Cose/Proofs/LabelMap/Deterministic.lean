import Cose.Proofs.Cbor.Deterministic
import Cose.Proofs.LabelMap.Order
import Cose.Proofs.LabelMap.Writing

namespace Cose

open Cbor

theorem Cbor.IsInt.wellFormed {b : Bytes} {i : Int64} (h : IsInt b i) : WellFormed b := by
  cases h with
  | unsigned h => exact .int (.inl rfl) h
  | negative h => exact .int (.inr rfl) h

theorem Cbor.IsBytes.wellFormed {b bs : Bytes} (h : IsBytes b bs) : WellFormed b := by
  cases h with
  | mk h => exact .string (.inl rfl) h

theorem Cbor.IsText.wellFormed {b : Bytes} {s : String} (h : IsText b s) : WellFormed b := by
  cases h with
  | mk h => exact .string (.inr rfl) h

namespace Cbor

theorem IsHead.isShortest {major : Major} {hd : Bytes} {n : Nat} (h : IsHead major hd n) :
    IsShortest major (head major n) n :=
  (isShortest_iff h.argument_lt).mpr rfl

theorem IsShortest.eq_head {major : Major} {hd : Bytes} {n : Nat} (h : IsShortest major hd n) :
    hd = head major n :=
  (isShortest_iff h.isHead.argument_lt).mp h

/-- What is known of an item in deterministic encoding from its head. -/
theorem Deterministic.of_head {major : Major} {hd s : Bytes} {n : Nat}
    (hb : Deterministic (hd ++ s)) (h : IsHead major hd n) :
    hd = head major n ∧ Tail IsShortest (fun keys => keys.Pairwise (· < ·)) major n s := by
  obtain ⟨tail, htail, -, hs, ht⟩ :=
    IsItem.of_head (fun _ _ _ hs => hs.isHead) hb h (List.append_nil _).symm
  obtain rfl := List.append_cancel_left htail
  exact ⟨hs.eq_head, ht⟩

theorem Deterministic.wellFormed {b : Bytes} (h : Deterministic b) : WellFormed b :=
  IsItem.wellFormed (fun _ _ _ hs => hs.isHead) h

theorem IsInt.exists_head {b : Bytes} {i : Int64} (h : IsInt b i) : ∃ major n,
    (major = .unsigned ∨ major = .negative) ∧ IsHead major b n ∧ int i = head major n := by
  cases h with
  | @unsigned n _ h value =>
    refine ⟨.unsigned, n, .inl rfl, h, ?_⟩
    rw [int, if_pos, value]
    · rfl
    · rw [Int64.le_iff_toInt_le, Int64.toInt_zero]
      omega
  | @negative n _ h value =>
    refine ⟨.negative, n, .inr rfl, h, ?_⟩
    rw [int, if_neg, value]
    · congr 1
      omega
    · rw [Int64.le_iff_toInt_le, Int64.toInt_zero]
      omega

theorem IsInt.deterministic_int {b : Bytes} {i : Int64} (h : IsInt b i) :
    Deterministic (int i) := by
  obtain ⟨major, n, sign, hh, hi⟩ := h.exists_head
  rw [hi]
  exact .int sign hh.isShortest

theorem IsInt.eq_int {b : Bytes} {i : Int64} (h : IsInt b i) (hb : Deterministic b) :
    b = int i := by
  obtain ⟨major, n, -, hh, hi⟩ := h.exists_head
  rw [← List.append_nil b] at hb
  rw [hi]
  exact (hb.of_head hh).1

theorem IsBytes.deterministic_bytes {b bs : Bytes} (h : IsBytes b bs) :
    Deterministic (bytes bs) := by
  cases h with
  | mk h => exact .string (.inl rfl) h.isShortest

theorem IsBytes.eq_bytes {b bs : Bytes} (h : IsBytes b bs) (hb : Deterministic b) :
    b = bytes bs := by
  cases h with
  | mk h => rw [(hb.of_head h).1, bytes]

theorem IsText.deterministic_text {b : Bytes} {s : String} (h : IsText b s) :
    Deterministic (text s) := by
  cases h with
  | mk h => exact .string (.inr rfl) h.isShortest

theorem IsText.eq_text {b : Bytes} {s : String} (h : IsText b s) (hb : Deterministic b) :
    b = text s := by
  cases h with
  | mk h => rw [(hb.of_head h).1, text]

end Cbor

namespace Label.Written

variable {b : Bytes} {l : Label}

theorem wellFormed (h : Written b l) : WellFormed b := by
  cases h with
  | int h => exact h.wellFormed
  | text h => exact h.wellFormed

theorem written_encode (h : Written b l) : Written l.encode l := by
  cases h with
  | int h => exact .int (int_isInt _)
  | text h =>
    cases h with
    | mk h => exact .text (text_isText h.argument_lt)

theorem deterministic_encode (h : Written b l) : Deterministic l.encode := by
  cases h with
  | int h => exact h.deterministic_int
  | text h => exact h.deterministic_text

theorem eq_encode (h : Written b l) (hb : Deterministic b) : b = l.encode := by
  cases h with
  | int h => exact h.eq_int hb
  | text h => exact h.eq_text hb

end Label.Written

namespace LabelMap

variable {entries : List WrittenEntry} {m : LabelMap}

theorem perm_entries (distinct : (entries.map (·.label)).Nodup)
    (same : ∀ l v, m.get? l = some v ↔ ∃ e ∈ entries, e.label = l ∧ e.value = v) :
    (entries.map fun e => (e.label, e.value)).Perm m.entries := by
  have hnodup : (entries.map fun e => (e.label, e.value)).Nodup := by
    refine List.Pairwise.of_map (S := (· ≠ ·)) Prod.fst
      (fun _ _ hne heq => hne (congrArg Prod.fst heq)) ?_
    rwa [List.map_map]
  have hascending : m.entries.Nodup :=
    m.ascending.imp fun hlt heq => Label.ne_of_lt hlt (congrArg Prod.fst heq)
  refine (List.perm_ext_iff_of_nodup hnodup hascending).mpr fun e => ?_
  rw [← get?_eq_some_iff, same, List.mem_map]
  constructor
  · intro hform
    obtain ⟨w, hw, rfl⟩ := hform
    exact ⟨w, hw, rfl, rfl⟩
  · intro hform
    obtain ⟨w, hw, hl, hv⟩ := hform
    exact ⟨w, hw, Prod.ext hl hv⟩

theorem length_writtenEntries (distinct : (entries.map (·.label)).Nodup)
    (same : ∀ l v, m.get? l = some v ↔ ∃ e ∈ entries, e.label = l ∧ e.value = v) :
    entries.length = m.writtenEntries.length := by
  have hlength := (perm_entries distinct same).length_eq
  rw [List.length_map] at hlength
  rw [hlength, writtenEntries, List.length_map]

/-- What holds of all entries that stand for a map holds of those of the map. -/
theorem forall_entries {P : Label → Value → Prop}
    (same : ∀ l v, m.get? l = some v ↔ ∃ e ∈ entries, e.label = l ∧ e.value = v)
    (h : ∀ e ∈ entries, P e.label e.value) : ∀ e ∈ m.entries, P e.1 e.2 := by
  intro e he
  obtain ⟨w, hw, hl, hv⟩ := (same e.1 e.2).mp (get?_eq_some_iff.mpr he)
  rw [← hl, ← hv]
  exact h w hw

/-- Entries in the order of their labels are listed as the map lists them. -/
theorem entries_eq_of_ascending (distinct : (entries.map (·.label)).Nodup)
    (same : ∀ l v, m.get? l = some v ↔ ∃ e ∈ entries, e.label = l ∧ e.value = v)
    (ascending : (entries.map fun e => (e.label, e.value)).Pairwise (·.1 < ·.1)) :
    m.entries = entries.map fun e => (e.label, e.value) := by
  have hperm := perm_entries distinct same
  exact eq_of_mem_iff m.ascending ascending fun e => hperm.symm.mem_iff

end LabelMap

theorem WrittenEntry.flatMap_bytes (entries : List WrittenEntry) :
    entries.flatMap WrittenEntry.bytes =
      (entries.map fun e => (e.labelBytes, e.valueBytes)).flatMap fun e => e.1 ++ e.2 := by
  rw [List.flatMap_map]
  rfl

namespace Value.Written

variable {b : Bytes} {v : Value}

theorem wellFormed (h : Written b v) : WellFormed b := by
  induction h with
  | int h => exact h.wellFormed
  | bytes h => exact h.wellFormed
  | text h => exact h.wellFormed
  | @array hd items h _ ih =>
    rw [List.flatMap_def]
    refine .array (by rwa [List.length_map]) ?_
    rw [List.forall_mem_map]
    exact ih
  | @map hd entries m h labels _ _ _ ih =>
    rw [WrittenEntry.flatMap_bytes]
    refine .map (by rwa [List.length_map]) ?_ ?_ trivial
    · rw [List.forall_mem_map]
      exact fun e he => (labels e he).wellFormed
    · rw [List.forall_mem_map]
      exact ih
  | bool b => cases b <;> exact .simple (by decide)
  | null => exact .simple (by decide)
  | tagged h _ ih => exact .tagged h ih

theorem written_encode (h : Written b v) : Written v.encode v := by
  induction h with
  | int h => exact .int (int_isInt _)
  | bytes h =>
    cases h with
    | mk h => exact .bytes (bytes_isBytes h.argument_lt)
  | text h =>
    cases h with
    | mk h => exact .text (text_isText h.argument_lt)
  | @array hd items h _ ih =>
    have hw := @Written.array (head .array items.length) (items.map fun i => (i.2.encode, i.2))
      (by simpa using head_isHead .array h.argument_lt) (by
        rw [List.forall_mem_map]
        exact ih)
    rw [List.flatMap_map, List.map_map] at hw
    rwa [encode_array, List.length_map, List.flatMap_map]
  | @map hd entries m h labels _ distinct same ih =>
    have hlength := LabelMap.length_writtenEntries distinct same
    rw [encode_map, LabelMap.encode_eq, ← hlength]
    refine .map ?_ ?_ ?_ m.nodup_writtenEntries m.get?_iff_writtenEntries
    · rw [← hlength]
      exact head_isHead .map h.argument_lt
    · rw [LabelMap.writtenEntries, List.forall_mem_map]
      exact LabelMap.forall_entries (P := fun l _ => Label.Written l.encode l) same
        fun w hw => (labels w hw).written_encode
    · rw [LabelMap.writtenEntries, List.forall_mem_map]
      exact LabelMap.forall_entries (P := fun _ v => Written v.encode v) same ih
  | bool b =>
    cases b
    · exact .bool false
    · exact .bool true
  | null => exact .null
  | tagged h _ ih => exact .tagged (head_isHead .tag h.argument_lt) ih

theorem deterministic_encode (h : Written b v) : Deterministic v.encode := by
  induction h with
  | int h => exact h.deterministic_int
  | bytes h => exact h.deterministic_bytes
  | text h => exact h.deterministic_text
  | @array hd items h _ ih =>
    rw [encode_array, List.length_map, List.flatMap_def, List.map_map]
    refine .array (by rw [List.length_map]; exact h.isShortest) ?_
    rw [List.forall_mem_map]
    exact ih
  | @map hd entries m h labels _ distinct same ih =>
    have hlength := LabelMap.length_writtenEntries distinct same
    rw [encode_map, LabelMap.encode_eq, ← hlength, WrittenEntry.flatMap_bytes]
    refine .map (by rw [List.length_map, ← hlength]; exact h.isShortest) ?_ ?_ ?_
    · rw [List.forall_mem_map, LabelMap.writtenEntries, List.forall_mem_map]
      exact LabelMap.forall_entries (P := fun l _ => Deterministic l.encode) same
        fun w hw => (labels w hw).deterministic_encode
    · rw [List.forall_mem_map, LabelMap.writtenEntries, List.forall_mem_map]
      exact LabelMap.forall_entries (P := fun _ v => Deterministic v.encode) same ih
    · have hfits := LabelMap.forall_entries (P := fun l _ => l.Fits) same
        fun w hw => (labels w hw).fits
      rw [List.map_map, LabelMap.writtenEntries, List.map_map]
      have hascending := LabelMap.ascending_encode (m := m) (by
        rw [LabelMap.labels, List.forall_mem_map]
        exact hfits)
      rwa [LabelMap.labels, List.map_map] at hascending
  | bool b =>
    cases b
    · exact .simple (by decide)
    · exact .simple (by decide)
  | null => exact .simple (by decide)
  | tagged h _ ih => exact .tagged h.isShortest ih

theorem eq_encode (h : Written b v) (hb : Deterministic b) : b = v.encode := by
  induction h with
  | int h => exact h.eq_int hb
  | bytes h => exact h.eq_bytes hb
  | text h => exact h.eq_text hb
  | @array hd items h values ih =>
    rw [List.flatMap_def] at hb ⊢
    obtain ⟨hhd, items', hlength, hflat, each⟩ := hb.of_head h
    have hitems : items.map (·.1) = items' := by
      refine WellFormed.eq_of_flatten ?_ (fun i hi => Deterministic.wellFormed (each i hi)) ?_ hflat
      · rw [List.forall_mem_map]
        exact fun i hi => (values i hi).wellFormed
      · rw [List.length_map, hlength]
    have hencode : items.map (·.1) = items.map fun i => i.2.encode := by
      refine List.map_congr_left fun i hi => ih i hi (each i.1 ?_)
      rw [← hitems]
      exact List.mem_map_of_mem hi
    rw [encode_array, List.length_map, hhd, hencode, List.flatMap_map, List.flatMap_def]
  | @map hd entries m h labels values distinct same ih =>
    rw [WrittenEntry.flatMap_bytes] at hb
    obtain ⟨hhd, entries', hlength, hflat, labels', values', keys⟩ := hb.of_head h
    have hentries : (entries.map fun e => (e.labelBytes, e.valueBytes)) = entries' := by
      refine WellFormed.eq_of_flatMap ?_ ?_ (by rw [List.length_map, hlength]) hflat
      · rw [forall_mem_flat, List.forall_mem_map, List.forall_mem_map]
        exact ⟨fun e he => (labels e he).wellFormed, fun e he => (values e he).wellFormed⟩
      · rw [forall_mem_flat]
        exact ⟨fun e he => Deterministic.wellFormed (labels' e he),
          fun e he => Deterministic.wellFormed (values' e he)⟩
    rw [← hentries, List.forall_mem_map] at labels' values'
    rw [← hentries, List.map_map, List.pairwise_map] at keys
    have hlabel : ∀ e ∈ entries, e.labelBytes = e.label.encode :=
      fun e he => (labels e he).eq_encode (labels' e he)
    have hvalue : ∀ e ∈ entries, e.valueBytes = e.value.encode :=
      fun e he => ih e he (values' e he)
    -- The labels ascend as their bytes do, so the entries are listed as the map lists them.
    have hascending : (entries.map fun e => (e.label, e.value)).Pairwise (·.1 < ·.1) := by
      rw [List.pairwise_map]
      refine keys.imp_of_mem fun {d e} hd he hlt => ?_
      have hlt : d.labelBytes < e.labelBytes := hlt
      rw [hlabel d hd, hlabel e he] at hlt
      exact (Label.encode_lt_iff (labels d hd).fits (labels e he).fits).mp hlt
    have heq := LabelMap.entries_eq_of_ascending distinct same hascending
    rw [encode_map, LabelMap.encode, LabelMap.size, heq, List.length_map, List.flatMap_map, hhd]
    congr 1
    refine List.flatMap_congr fun e he => ?_
    rw [WrittenEntry.bytes, hlabel e he, hvalue e he]
  | bool b => cases b <;> rfl
  | null => rfl
  | tagged h _ ih =>
    obtain ⟨hhd, hcontent⟩ := hb.of_head h
    rw [encode_tagged, hhd, ih hcontent]

/-- Of the items that stand for a value exactly one is in deterministic encoding. -/
theorem deterministic_iff (h : Written b v) : Deterministic b ↔ b = v.encode := by
  constructor
  · exact h.eq_encode
  · rintro rfl
    exact h.deterministic_encode

end Value.Written

end Cose
