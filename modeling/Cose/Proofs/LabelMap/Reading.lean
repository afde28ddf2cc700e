import Cose.LabelMap.Reader
import Cose.Proofs.Cbor.Exact
import Cose.Proofs.LabelMap.Grammar

namespace Cose

open Cbor Reader

theorem Label.takes_read {b : Bytes} {l : Label} (h : Label.Written b l) (field : String) :
    (Label.read field).Takes b l := by
  cases h with
  | int h =>
    cases h with
    | unsigned h value =>
      obtain ⟨form, hb, ha⟩ := takes_argument h
      exact hb.takes ((takes_int ha (by simpa using value)).map Label.int)
    | negative h value =>
      obtain ⟨form, hb, ha⟩ := takes_argument h
      exact hb.takes ((takes_int ha (by simpa using value)).map Label.int)
  | text h =>
    cases h with
    | mk h =>
      obtain ⟨form, hb, ht⟩ := takes_text h
      exact (hb.append _).takes (ht.map Label.text)

theorem yieldsAt_unsigned {form : Argument} {b : UInt8}
    (h : Lead.ofByte b = .item .unsigned form) (bs : Bytes) (position : Nat) :
    (Reader.int false form).YieldsAt ⟨b :: bs, position⟩ IsInt := by
  refine (yieldsAt_int (yieldsAt_argument h bs position)).mono ?_
  intro b' i hform
  obtain ⟨n, hn, hi⟩ := hform
  exact .unsigned hn (by simpa using hi)

theorem yieldsAt_negative {form : Argument} {b : UInt8}
    (h : Lead.ofByte b = .item .negative form) (bs : Bytes) (position : Nat) :
    (Reader.int true form).YieldsAt ⟨b :: bs, position⟩ IsInt := by
  refine (yieldsAt_int (yieldsAt_argument h bs position)).mono ?_
  intro b' i hform
  obtain ⟨n, hn, hi⟩ := hform
  exact .negative hn (by simpa using hi)

theorem Label.yields_read (field : String) : (Label.read field).Yields Label.Written := by
  refine yields_lead fun b bs position => ?_
  split
  next form hl => exact (yieldsAt_unsigned hl bs position).map fun _ _ => .int
  next form hl => exact (yieldsAt_negative hl bs position).map fun _ _ => .int
  next form hl => exact (yieldsAt_text hl bs position).map fun _ _ => .text
  next => exact yieldsAt_throw _ _ _

namespace LabelMap

/-- Entries that can be put into a map one after the other: their labels are as they are written,
new to the map and different from each other, and their values have a given form. -/
structure Addable (F : Bytes → Value → Prop) (m : LabelMap) (entries : List WrittenEntry) :
    Prop where
  labels : ∀ e ∈ entries, Label.Written e.labelBytes e.label
  values : ∀ e ∈ entries, F e.valueBytes e.value
  distinct : (entries.map (·.label)).Nodup
  fresh : ∀ e ∈ entries, m.get? e.label = none

theorem addable_cons {F : Bytes → Value → Prop} {m : LabelMap} {e : WrittenEntry}
    {es : List WrittenEntry} : Addable F m (e :: es) ↔
      Label.Written e.labelBytes e.label ∧ F e.valueBytes e.value ∧ m.get? e.label = none ∧
        Addable F (m.insert e.label e.value) es := by
  constructor
  · intro hform
    obtain ⟨labels, values, distinct, fresh⟩ := hform
    obtain ⟨hl, labels⟩ := List.forall_mem_cons.mp labels
    obtain ⟨hv, values⟩ := List.forall_mem_cons.mp values
    obtain ⟨hf, fresh⟩ := List.forall_mem_cons.mp fresh
    obtain ⟨hn, distinct⟩ := List.nodup_cons.mp distinct
    refine ⟨hl, hv, hf, labels, values, distinct, fun x hx => ?_⟩
    have hne : x.label ≠ e.label := fun he => hn (List.mem_map.mpr ⟨x, hx, he⟩)
    rw [get?_insert, if_neg hne]
    exact fresh x hx
  · intro hform
    obtain ⟨hl, hv, hf, labels, values, distinct, fresh⟩ := hform
    have hne : ∀ x ∈ es, x.label ≠ e.label := by
      intro x hx he
      have hx := fresh x hx
      simp [get?_insert, he] at hx
    refine ⟨List.forall_mem_cons.mpr ⟨hl, labels⟩, List.forall_mem_cons.mpr ⟨hv, values⟩,
      List.nodup_cons.mpr ⟨fun hm => ?_, distinct⟩, List.forall_mem_cons.mpr ⟨hf, fun x hx => ?_⟩⟩
    · obtain ⟨x, hx, he⟩ := List.mem_map.mp hm
      exact hne x hx he
    · have hx' := fresh x hx
      rwa [get?_insert, if_neg (hne x hx)] at hx'

/-- The map with all entries of a list, each put in place of what was under its label. -/
def insertAll (m : LabelMap) (entries : List WrittenEntry) : LabelMap :=
  entries.foldl (fun m e => m.insert e.label e.value) m

theorem get?_insertAll {F : Bytes → Value → Prop} {entries : List WrittenEntry} {m : LabelMap}
    (h : Addable F m entries) (l : Label) (v : Value) :
    (m.insertAll entries).get? l = some v ↔
      (∃ e ∈ entries, e.label = l ∧ e.value = v) ∨ m.get? l = some v := by
  induction entries generalizing m with
  | nil => simp [insertAll]
  | cons e es ih =>
    obtain ⟨-, -, hm, hes⟩ := addable_cons.mp h
    show ((m.insert e.label e.value).insertAll es).get? l = some v ↔ _
    rw [ih hes, get?_insert]
    by_cases hl : l = e.label
    · subst hl
      simp [hm, or_comm]
    · have hl' : ¬e.label = l := fun h => hl h.symm
      simp [hl, hl']

/-- The map that holds exactly the entries of a list is the one that results from adding them. -/
theorem insertAll_empty_eq_iff {F : Bytes → Value → Prop} {entries : List WrittenEntry}
    (h : Addable F empty entries) {m : LabelMap} : empty.insertAll entries = m ↔
      ∀ l v, m.get? l = some v ↔ ∃ e ∈ entries, e.label = l ∧ e.value = v := by
  have hg := get?_insertAll h
  simp only [get?_empty, reduceCtorEq, or_false] at hg
  constructor
  · intro heq l v
    subst heq
    exact hg l v
  · intro hm
    refine ext_get? fun l => Option.ext fun v => ?_
    rw [hg l v, hm l v]

theorem takes_readEntries {item : Reader Value} {entries : List WrittenEntry} {m : LabelMap}
    (h : Addable item.Takes m entries) (field : String) :
    (readEntries field item entries.length m).Takes (entries.flatMap WrittenEntry.bytes)
      (m.insertAll entries) := by
  induction entries generalizing m with
  | nil => exact takes_pure m
  | cons e es ih =>
    obtain ⟨hl, hv, hm, hes⟩ := addable_cons.mp h
    have hc : m.contains e.label = false := by simp [contains, hm]
    have ih := ih hes
    rw [List.flatMap_cons, WrittenEntry.bytes, List.append_assoc]
    refine (Label.takes_read hl field).bind (hv.bind ?_)
    simpa [hc, insertAll] using ih

/-- Entries are taken up to the first value that is refused. -/
theorem refuses_readEntries {item : Reader Value} {error : DecodingError}
    {entries : List WrittenEntry} {m : LabelMap}
    (h : Addable (fun b v => item.Takes b v ∨ item.Refuses b error) m entries)
    (refused : ∃ e ∈ entries, item.Refuses e.valueBytes error) (field : String) :
    (readEntries field item entries.length m).Refuses (entries.flatMap WrittenEntry.bytes)
      error := by
  induction entries generalizing m with
  | nil =>
    obtain ⟨e, he, -⟩ := refused
    cases he
  | cons e es ih =>
    obtain ⟨hl, hv, hm, hes⟩ := addable_cons.mp h
    rw [List.flatMap_cons, WrittenEntry.bytes, List.append_assoc]
    refine (Label.takes_read hl field).refuses ?_
    rcases hv with hv | hv
    · obtain ⟨x, hx, hr⟩ := refused
      rcases List.mem_cons.mp hx with rfl | hx
      · have := (hv [] 0).symm.trans (hr [] 0)
        cases this
      · have hc : m.contains e.label = false := by simp [contains, hm]
        have ih := ih hes ⟨x, hx, hr⟩
        refine hv.refuses ?_
        simpa [hc] using ih
    · exact (hv.append _).bind _

theorem yields_readEntries {item : Reader Value} {F : Bytes → Value → Prop} (h : item.Yields F)
    (field : String) (n : Nat) (m : LabelMap) :
    (readEntries field item n m).Yields fun b m' => ∃ entries, entries.length = n ∧
      b = entries.flatMap WrittenEntry.bytes ∧ Addable F m entries ∧ m' = m.insertAll entries := by
  induction n generalizing m with
  | zero =>
    intro c
    refine YieldsAt.mono (yields_pure m c) ?_
    intro b m' hform
    obtain ⟨rfl, rfl⟩ := hform
    exact ⟨[], rfl, rfl, ⟨by simp, by simp, .nil, by simp⟩, rfl⟩
  | succ n ih =>
    intro c
    refine (Label.yields_read field c).bind (fun l c => (h c).bind
      (G := fun v b m' => m.get? l = none ∧ ∃ entries, entries.length = n ∧
        b = entries.flatMap WrittenEntry.bytes ∧ Addable F (m.insert l v) entries ∧
        m' = (m.insert l v).insertAll entries)
      (H := fun b m' => ∃ vb v, F vb v ∧ m.get? l = none ∧ ∃ entries, entries.length = n ∧
        b = vb ++ entries.flatMap WrittenEntry.bytes ∧ Addable F (m.insert l v) entries ∧
        m' = (m.insert l v).insertAll entries) (fun v c => ?_) ?_) ?_
    · cases hm : m.contains l with
      | true => exact yieldsAt_throw _ _ _
      | false =>
        refine YieldsAt.mono (ih (m.insert l v) c) fun b m' hb => ⟨?_, hb⟩
        simpa [contains] using hm
    · intro vb v b m' hv hform
      obtain ⟨hl, entries, hn, rfl, hes, hm'⟩ := hform
      exact ⟨vb, v, hv, hl, entries, hn, rfl, hes, hm'⟩
    · intro lb l b m' hl hform
      obtain ⟨vb, v, hv, hm, entries, rfl, rfl, hes, rfl⟩ := hform
      refine ⟨⟨lb, l, vb, v⟩ :: entries, rfl, ?_, addable_cons.mpr ⟨hl, hv, hm, hes⟩, rfl⟩
      simp [WrittenEntry.bytes]

theorem takes_readWith {item : Reader Value} {hd : Bytes} {entries : List WrittenEntry}
    {m : LabelMap} (h : IsHead .map hd entries.length) (ha : Addable item.Takes empty entries)
    (same : ∀ l v, m.get? l = some v ↔ ∃ e ∈ entries, e.label = l ∧ e.value = v)
    (field : String) :
    ∃ form, Begins (hd ++ entries.flatMap WrittenEntry.bytes) (.item .map form) ∧
      (readWith field item).Takes (hd ++ entries.flatMap WrittenEntry.bytes) m := by
  obtain ⟨form, hb, hn⟩ := takes_argument h
  have hm := (insertAll_empty_eq_iff ha).mpr same
  have he := takes_readEntries ha field
  rw [hm] at he
  exact ⟨form, hb.append _, (hb.append _).takes (hn.bind he)⟩

theorem refuses_readWith {item : Reader Value} {error : DecodingError} {hd : Bytes}
    {entries : List WrittenEntry} (h : IsHead .map hd entries.length)
    (ha : Addable (fun b v => item.Takes b v ∨ item.Refuses b error) empty entries)
    (refused : ∃ e ∈ entries, item.Refuses e.valueBytes error) (field : String) :
    ∃ form, Begins (hd ++ entries.flatMap WrittenEntry.bytes) (.item .map form) ∧
      (readWith field item).Refuses (hd ++ entries.flatMap WrittenEntry.bytes) error := by
  obtain ⟨form, hb, hn⟩ := takes_argument h
  have he := refuses_readEntries ha refused field
  exact ⟨form, hb.append _, (hb.append _).refuses (hn.refuses he)⟩

theorem yields_readWith {item : Reader Value} {F : Bytes → Value → Prop} (h : item.Yields F)
    (field : String) :
    (readWith field item).Yields fun b m => ∃ hd entries,
      b = hd ++ entries.flatMap WrittenEntry.bytes ∧ IsHead .map hd entries.length ∧
        Addable F empty entries ∧
        ∀ l v, m.get? l = some v ↔ ∃ e ∈ entries, e.label = l ∧ e.value = v := by
  refine yields_lead fun b bs position => ?_
  split
  next form hl =>
    refine (yieldsAt_argument hl bs position).bind
      (fun n => yields_readEntries h field n empty) ?_
    intro hd n b' m hh hform
    obtain ⟨entries, rfl, rfl, ha, rfl⟩ := hform
    exact ⟨hd, entries, rfl, hh, ha, (insertAll_empty_eq_iff ha).mp rfl⟩
  next => exact yieldsAt_throw _ _ _
  next => exact yieldsAt_throw _ _ _

end LabelMap

namespace Value

theorem addable_of_written {F : Bytes → Value → Prop} {entries : List WrittenEntry}
    (labels : ∀ e ∈ entries, Label.Written e.labelBytes e.label)
    (values : ∀ e ∈ entries, F e.valueBytes e.value)
    (distinct : (entries.map (·.label)).Nodup) : LabelMap.Addable F .empty entries :=
  ⟨labels, values, distinct, fun _ _ => rfl⟩

/-- The entries of a map and the entries that stand for it hold the same values. -/
theorem forall_entries_iff {entries : List WrittenEntry} {m : LabelMap}
    (same : ∀ l v, m.get? l = some v ↔ ∃ e ∈ entries, e.label = l ∧ e.value = v)
    {P : Value → Prop} : (∀ e ∈ m.entries, P e.2) ↔ ∀ e ∈ entries, P e.value := by
  constructor
  · intro h e he
    exact h (e.label, e.value) (LabelMap.get?_eq_some_iff.mp ((same _ _).mpr ⟨e, he, rfl, rfl⟩))
  · intro h hform hm
    obtain ⟨l, v⟩ := hform
    obtain ⟨e, he, rfl, rfl⟩ := (same l v).mp (LabelMap.get?_eq_some_iff.mpr hm)
    exact h e he

theorem exists_levels {v : Value} {levels : Nat} (h : v.depth ≤ levels) :
    ∃ n, levels = n + 1 := by
  have hp := v.depth_pos
  exact ⟨levels - 1, by omega⟩

theorem takes_readWithin {b : Bytes} {v : Value} (h : Written b v) {levels : Nat}
    (deep : v.depth ≤ levels) (field : String) : (readWithin field levels).Takes b v := by
  induction h generalizing levels with
  | int h =>
    obtain ⟨n, rfl⟩ := exists_levels deep
    rw [readWithin]
    cases h with
    | unsigned h value =>
      obtain ⟨form, hb, ha⟩ := takes_argument h
      exact hb.takes ((takes_int ha (by simpa using value)).map Value.int)
    | negative h value =>
      obtain ⟨form, hb, ha⟩ := takes_argument h
      exact hb.takes ((takes_int ha (by simpa using value)).map Value.int)
  | bytes h =>
    obtain ⟨n, rfl⟩ := exists_levels deep
    rw [readWithin]
    cases h with
    | mk h =>
      obtain ⟨form, hb, ht⟩ := takes_bytes h
      exact (hb.append _).takes (ht.map Value.bytes)
  | text h =>
    obtain ⟨n, rfl⟩ := exists_levels deep
    rw [readWithin]
    cases h with
    | mk h =>
      obtain ⟨form, hb, ht⟩ := takes_text h
      exact (hb.append _).takes (ht.map Value.text)
  | @array hd items h _ ih =>
    obtain ⟨n, rfl⟩ := exists_levels deep
    rw [readWithin]
    obtain ⟨form, hb, ha⟩ := takes_argument h
    have hi : ∀ i ∈ items, (readWithin field n).Takes i.1 i.2 := by
      intro i hi
      exact ih i hi (depth_array_le.mp deep i.2 (List.mem_map_of_mem hi))
    exact (hb.append _).takes (ha.bind ((takes_times hi).map Value.array))
  | map h labels _ distinct same ih =>
    obtain ⟨n, rfl⟩ := exists_levels deep
    rw [readWithin]
    have hv := (forall_entries_iff (P := fun v => v.depth ≤ n) same).mp (depth_map_le.mp deep)
    have hi := addable_of_written (F := (readWithin field n).Takes) labels
      (fun e he => ih e he (hv e he)) distinct
    obtain ⟨form, hb, hm⟩ := LabelMap.takes_readWith h hi same field
    exact hb.takes (hm.map Value.map)
  | bool b =>
    obtain ⟨n, rfl⟩ := exists_levels deep
    rw [readWithin]
    cases b
    · exact (begins_byte (l := .bool false) rfl rfl).takes
        ((takes_skip _).map fun _ => Value.bool false)
    · exact (begins_byte (l := .bool true) rfl rfl).takes
        ((takes_skip _).map fun _ => Value.bool true)
  | null =>
    obtain ⟨n, rfl⟩ := exists_levels deep
    rw [readWithin]
    exact (begins_byte (l := .null) rfl rfl).takes ((takes_skip _).map fun _ => Value.null)
  | @tagged hd b tag v h _ ih =>
    obtain ⟨n, rfl⟩ := exists_levels deep
    rw [readWithin]
    obtain ⟨form, hb, ha⟩ := takes_argument h
    have hv := ih (depth_tagged_le.mp deep)
    refine (hb.append _).takes (ha.bind ?_)
    rw [UInt64.ofNat_toNat]
    exact hv.map (Value.tagged tag)

/-- An item stands for one value only. -/
theorem Written.unique {b : Bytes} {v w : Value} (hv : Written b v) (hw : Written b w) : v = w := by
  have hread := takes_readWithin hv (Nat.le_max_left v.depth w.depth) ""
  have hread' := takes_readWithin hw (Nat.le_max_right v.depth w.depth) ""
  obtain ⟨-, heq, -⟩ := hread.unique hread' (rfl : b ++ [] = b ++ [])
  exact heq

/-- A value that nests too deep is refused, and for that reason only: what stands before the place
where the levels run out is taken. -/
theorem refuses_readWithin {b : Bytes} {v : Value} (h : Written b v) {levels : Nat}
    (deep : levels < v.depth) (field : String) :
    (readWithin field levels).Refuses b (.nestingTooDeep "header value" maxDepth) := by
  induction h generalizing levels with
  | @array hd items h values ih =>
    cases levels with
    | zero => exact refuses_throw _ _
    | succ n =>
      rw [readWithin]
      obtain ⟨form, hb, ha⟩ := takes_argument h
      have hi : ∀ i ∈ items, (readWithin field n).Takes i.1 i.2 ∨
          (readWithin field n).Refuses i.1 (.nestingTooDeep "header value" maxDepth) := by
        intro i hi
        rcases Nat.lt_or_ge n i.2.depth with hd | hd
        · exact .inr (ih i hi hd)
        · exact .inl (takes_readWithin (values i hi) hd field)
      have hr : ∃ i ∈ items, (readWithin field n).Refuses i.1
          (.nestingTooDeep "header value" maxDepth) := by
        obtain ⟨v, hv, hd⟩ := lt_depth_array.mp deep
        obtain ⟨i, hi, rfl⟩ := List.mem_map.mp hv
        exact ⟨i, hi, ih i hi hd⟩
      exact (hb.append _).refuses (ha.refuses ((refuses_times hi hr).bind _))
  | @map hd entries m h labels values distinct same ih =>
    cases levels with
    | zero => exact refuses_throw _ _
    | succ n =>
      rw [readWithin]
      have hi := addable_of_written (F := fun b v => (readWithin field n).Takes b v ∨
        (readWithin field n).Refuses b (.nestingTooDeep "header value" maxDepth)) labels
        (fun e he => by
          rcases Nat.lt_or_ge n e.value.depth with hd | hd
          · exact .inr (ih e he hd)
          · exact .inl (takes_readWithin (values e he) hd field)) distinct
      have hr : ∃ e ∈ entries, (readWithin field n).Refuses e.valueBytes
          (.nestingTooDeep "header value" maxDepth) := by
        obtain ⟨⟨l, v⟩, hm, hd⟩ := lt_depth_map.mp deep
        obtain ⟨e, he, rfl, rfl⟩ := (same l v).mp (LabelMap.get?_eq_some_iff.mpr hm)
        exact ⟨e, he, ih e he hd⟩
      obtain ⟨form, hb, hm⟩ := LabelMap.refuses_readWith h hi hr field
      exact hb.refuses (hm.bind _)
  | @tagged hd b tag v h _ ih =>
    cases levels with
    | zero => exact refuses_throw _ _
    | succ n =>
      rw [readWithin]
      obtain ⟨form, hb, ha⟩ := takes_argument h
      exact (hb.append _).refuses (ha.refuses ((ih (lt_depth_tagged.mp deep)).bind _))
  | _ =>
    -- A value without content has one level, so there was none to read it with.
    obtain rfl : levels = 0 := Nat.lt_one_iff.mp deep
    exact refuses_throw _ _

theorem yields_readWithin (field : String) (levels : Nat) :
    (readWithin field levels).Yields fun b v => Written b v ∧ v.depth ≤ levels := by
  induction levels with
  | zero => exact fun c => yieldsAt_throw _ c _
  | succ n ih =>
    refine yields_lead fun b bs position => ?_
    split
    next form hl =>
      exact (yieldsAt_unsigned hl bs position).map fun _ _ h => ⟨.int h, Nat.le_add_left 1 n⟩
    next form hl =>
      exact (yieldsAt_negative hl bs position).map fun _ _ h => ⟨.int h, Nat.le_add_left 1 n⟩
    next form hl =>
      exact (yieldsAt_bytes hl bs position).map fun _ _ h => ⟨.bytes h, Nat.le_add_left 1 n⟩
    next form hl =>
      exact (yieldsAt_text hl bs position).map fun _ _ h => ⟨.text h, Nat.le_add_left 1 n⟩
    next form hl =>
      refine (yieldsAt_argument hl bs position).bind
        (fun len c => ((yields_times ih len) c).map (g := Value.array)
          (H := fun b v => ∃ items : List (Bytes × Value), items.length = len ∧
            b = items.flatMap (·.1) ∧ v = .array (items.map (·.2)) ∧
            ∀ i ∈ items, Written i.1 i.2 ∧ i.2.depth ≤ n) ?_) ?_
      · intro b vs hform
        obtain ⟨items, hn, hb, rfl, hi⟩ := hform
        exact ⟨items, hn, hb, rfl, hi⟩
      · intro hd len b v hh hform
        obtain ⟨items, rfl, rfl, rfl, hi⟩ := hform
        refine ⟨.array hh fun i h => (hi i h).1, depth_array_le.mpr fun v hv => ?_⟩
        obtain ⟨i, h, rfl⟩ := List.mem_map.mp hv
        exact (hi i h).2
    next form hl =>
      refine (LabelMap.yields_readWith ih field _).map ?_
      intro b m hform
      obtain ⟨hd, entries, rfl, hh, ha, same⟩ := hform
      refine ⟨.map hh ha.labels (fun e he => (ha.values e he).1) ha.distinct same, ?_⟩
      exact depth_map_le.mpr ((forall_entries_iff (P := fun v => v.depth ≤ n) same).mpr
        fun e he => (ha.values e he).2)
    next form hl =>
      refine (yieldsAt_argument hl bs position).bind
        (fun tag c => (ih c).map (g := Value.tagged (UInt64.ofNat tag))
          (H := fun b v => ∃ w, Written b w ∧ w.depth ≤ n ∧ v = .tagged (UInt64.ofNat tag) w) ?_) ?_
      · intro b w hform
        obtain ⟨hw, hd⟩ := hform
        exact ⟨w, hw, hd, rfl⟩
      · intro hd tag b v hh hform
        obtain ⟨w, hw, hn, rfl⟩ := hform
        have ht : (UInt64.ofNat tag).toNat = tag := by
          rw [UInt64.toNat_ofNat', Nat.mod_eq_of_lt hh.argument_lt]
        exact ⟨.tagged (by rwa [ht]) hw, depth_tagged_le.mpr hn⟩
    next value hl =>
      refine (yieldsAt_skip b bs position).map ?_
      intro b' _ heq
      subst heq
      have hb : b = if value then 0xf5 else 0xf4 := byte_of_bool hl
      subst hb
      exact ⟨.bool value, Nat.le_add_left 1 n⟩
    next hl =>
      refine (yieldsAt_skip b bs position).map ?_
      intro b' _ heq
      subst heq
      obtain rfl : b = 0xf6 := byte_of_null hl
      exact ⟨.null, Nat.le_add_left 1 n⟩
    next => exact yieldsAt_throw _ _ _
    next => exact yieldsAt_throw _ _ _

end Value

namespace LabelMap

theorem takes_read {b : Bytes} {m : LabelMap} (h : Value.Written b (.map m))
    (deep : ∀ e ∈ m.entries, e.2.depth ≤ Value.maxDepth) (field : String) :
    (read field).Takes b m := by
  obtain ⟨hd, entries, rfl, hh, labels, values, distinct, same⟩ := h.of_map
  have hv := (Value.forall_entries_iff (P := fun v => v.depth ≤ Value.maxDepth) same).mp deep
  have ha := Value.addable_of_written labels
    (fun e he => Value.takes_readWithin (values e he) (hv e he) field) distinct
  obtain ⟨form, -, hm⟩ := takes_readWith hh ha same field
  exact hm

theorem refuses_read {b : Bytes} {m : LabelMap} (h : Value.Written b (.map m))
    (deep : ∃ e ∈ m.entries, Value.maxDepth < e.2.depth) (field : String) :
    (read field).Refuses b (.nestingTooDeep "header value" Value.maxDepth) := by
  obtain ⟨hd, entries, rfl, hh, labels, values, distinct, same⟩ := h.of_map
  have hv : ∀ e ∈ entries, (Value.readWithin field Value.maxDepth).Takes e.valueBytes e.value ∨
      (Value.readWithin field Value.maxDepth).Refuses e.valueBytes
        (.nestingTooDeep "header value" Value.maxDepth) := by
    intro e he
    rcases Nat.lt_or_ge Value.maxDepth e.value.depth with hd | hd
    · exact .inr (Value.refuses_readWithin (values e he) hd field)
    · exact .inl (Value.takes_readWithin (values e he) hd field)
  obtain ⟨⟨l, v⟩, hm, hd⟩ := deep
  obtain ⟨e, he, rfl, rfl⟩ := (same l v).mp (get?_eq_some_iff.mpr hm)
  obtain ⟨form, -, hr⟩ := refuses_readWith hh (Value.addable_of_written labels hv distinct)
    ⟨e, he, Value.refuses_readWithin (values e he) hd field⟩ field
  exact hr

theorem yields_read (field : String) :
    (read field).Yields fun b m =>
      Value.Written b (.map m) ∧ ∀ e ∈ m.entries, e.2.depth ≤ Value.maxDepth := by
  intro c
  refine (yields_readWith (Value.yields_readWithin field Value.maxDepth) field c).mono ?_
  intro b m hform
  obtain ⟨hd, entries, rfl, hh, ha, same⟩ := hform
  refine ⟨.map hh ha.labels (fun e he => (ha.values e he).1) ha.distinct same, ?_⟩
  exact (Value.forall_entries_iff (P := fun v => v.depth ≤ Value.maxDepth) same).mpr
    fun e he => (ha.values e he).2

/-- Reading takes exactly what the grammar allows and does not nest too deep. -/
theorem reads_read (field : String) :
    (read field).Reads fun b m =>
      Value.Written b (.map m) ∧ ∀ e ∈ m.entries, e.2.depth ≤ Value.maxDepth :=
  ⟨fun h => takes_read h.1 h.2 field, yields_read field⟩

theorem decodeHeader_of_written {b : Bytes} {m : LabelMap} (h : Value.Written b (.map m))
    (deep : ∀ e ∈ m.entries, e.2.depth ≤ Value.maxDepth) : decodeHeader b = .ok m := by
  obtain ⟨hd, entries, rfl, hh, -⟩ := h.of_map
  have hne : (hd ++ entries.flatMap WrittenEntry.bytes).isEmpty = false := by
    have hp := hh.length_pos
    cases hd with
    | nil => simp at hp
    | cons => rfl
  rw [decodeHeader, hne]
  exact Returns.complete (x := .ok m) (takes_read h deep _) _

theorem written_of_decodeHeader {b : Bytes} {m : LabelMap} (h : decodeHeader b = .ok m) :
    (b = [] ∧ m = empty) ∨
      (Value.Written b (.map m) ∧ ∀ e ∈ m.entries, e.2.depth ≤ Value.maxDepth) := by
  cases b with
  | nil =>
    cases h
    exact .inl ⟨rfl, rfl⟩
  | cons x xs =>
    obtain ⟨c, hc, hr⟩ := complete_eq_ok.mp h
    obtain ⟨b, hb, -, hw⟩ := yields_read _ _ m c hc
    obtain rfl : x :: xs = b := by rw [← List.append_nil b, ← hr, ← hb]
    exact .inr hw

/-- A protected header is read from no bytes at all or from exactly one map of the grammar, no value
of which nests too deep. -/
theorem decodeHeader_eq_ok_iff (b : Bytes) (m : LabelMap) :
    decodeHeader b = .ok m ↔ (b = [] ∧ m = empty) ∨
      (Value.Written b (.map m) ∧ ∀ e ∈ m.entries, e.2.depth ≤ Value.maxDepth) := by
  constructor
  · exact written_of_decodeHeader
  · rintro (⟨rfl, rfl⟩ | ⟨hw, deep⟩)
    · rfl
    · exact decodeHeader_of_written hw deep

/-- A label counts as repeated also where its second head is longer than the first. -/
example : decodeHeader [0xa2, 0x01, 0xf6, 0x18, 0x01, 0xf6] = .error (.duplicateLabel (.int 1)) :=
  rfl

end LabelMap

end Cose
