import Cose.Proofs.LabelMap.Grammar
import Cose.Proofs.LabelMap.Order

namespace Cose

open Cbor

theorem length_le_of_mem_flatMap {α : Type} {f : α → Bytes} {xs : List α} {x : α} (h : x ∈ xs) :
    (f x).length ≤ (xs.flatMap f).length := by
  induction xs with
  | nil => cases h
  | cons y ys ih =>
    rw [List.flatMap_cons, List.length_append]
    rcases List.mem_cons.mp h with rfl | h
    · omega
    · have := ih h
      omega

theorem length_le_length_flatMap {α : Type} {f : α → Bytes} {xs : List α}
    (h : ∀ x ∈ xs, 0 < (f x).length) : xs.length ≤ (xs.flatMap f).length := by
  induction xs with
  | nil => simp
  | cons y ys ih =>
    have hy := h y List.mem_cons_self
    have hys := ih fun x hx => h x (List.mem_cons_of_mem y hx)
    simp only [List.flatMap_cons, List.length_append, List.length_cons]
    omega

namespace Cbor

theorem head_length_pos (major : Major) (n : Nat) : 0 < (head major n).length := by
  unfold head
  repeat' split
  all_goals simp

theorem int_isInt (i : Int64) : IsInt (int i) i := by
  have hlo := i.le_toInt
  have hhi := i.toInt_lt
  unfold int
  split
  next h =>
    rw [Int64.le_iff_toInt_le, Int64.toInt_zero] at h
    exact .unsigned (head_isHead .unsigned (n := i.toInt.toNat) (by omega)) (by omega)
  next h =>
    rw [Int64.le_iff_toInt_le, Int64.toInt_zero] at h
    exact .negative (head_isHead .negative (n := (-1 - i.toInt).toNat) (by omega)) (by omega)

theorem bytes_isBytes {bs : Bytes} (h : bs.length < 2 ^ 64) : IsBytes (bytes bs) bs :=
  .mk (head_isHead .bytes h)

theorem text_isText {s : String} (h : (Bytes.ofText s).length < 2 ^ 64) : IsText (text s) s :=
  .mk (head_isHead .text h)

theorem length_le_length_bytes (bs : Bytes) : bs.length ≤ (bytes bs).length := by
  simp [bytes]

end Cbor

theorem Label.encode_length_pos (l : Label) : 0 < l.encode.length := by
  cases l with
  | int i =>
    simp only [encode, Cbor.int]
    split <;> exact head_length_pos _ _
  | text s =>
    have := head_length_pos .text (Bytes.ofText s).length
    simp only [encode, Cbor.text, List.length_append]
    omega

theorem Label.Fits.written {l : Label} (h : l.Fits) : Written l.encode l := by
  cases l with
  | int i => exact .int (int_isInt i)
  | text s => exact .text (text_isText h)

namespace Value

theorem entries_of_pmap {es : List (Label × Datum)} (h : (Datum.map es).Ordered) :
    ∃ m : LabelMap, (⟨.map es, h⟩ : Value) = map m ∧
      ∀ e ∈ m.entries, (e.1, e.2.datum) ∈ es := by
  refine ⟨⟨es.pmap (fun e he => (e.1, ⟨e.2, he⟩)) h.entries, ?_⟩, ?_, ?_⟩
  · rw [List.pairwise_pmap]
    exact h.labels.imp fun hlt _ _ => hlt
  · ext1
    simp [map, List.map_pmap]
  · intro hform he
    obtain ⟨l, v⟩ := hform
    obtain ⟨⟨l', d⟩, hm, heq⟩ := List.mem_pmap.mp he
    cases heq
    exact hm

@[elab_as_elim]
theorem inductionOn {motive : Value → Prop} (v : Value) (int : ∀ i, motive (.int i))
    (bytes : ∀ bs, motive (.bytes bs)) (text : ∀ s, motive (.text s))
    (array : ∀ items, (∀ v ∈ items, motive v) → motive (.array items))
    (map : ∀ m : LabelMap, (∀ e ∈ m.entries, motive e.2) → motive (.map m))
    (bool : ∀ b, motive (.bool b)) (null : motive .null)
    (tagged : ∀ tag v, motive v → motive (.tagged tag v)) : motive v :=
  match v with
  | ⟨.int i, _⟩ => int i
  | ⟨.bytes bs, _⟩ => bytes bs
  | ⟨.text s, _⟩ => text s
  | ⟨.array ds, h⟩ => by
    have hv : (⟨.array ds, h⟩ : Value) = .array (ds.pmap Value.mk h.items) := by
      ext1
      simp [Value.array, List.map_pmap]
    rw [hv]
    refine array _ fun w hw => ?_
    obtain ⟨d, hd, rfl⟩ := List.mem_pmap.mp hw
    exact inductionOn ⟨d, h.items d hd⟩ int bytes text array map bool null tagged
  | ⟨.map es, h⟩ => by
    obtain ⟨m, hm, hes⟩ := entries_of_pmap h
    rw [hm]
    refine map m fun e he => ?_
    exact inductionOn e.2 int bytes text array map bool null tagged
  | ⟨.bool b, _⟩ => bool b
  | ⟨.null, _⟩ => null
  | ⟨.tagged tag d, h⟩ =>
    tagged tag ⟨d, h.content⟩ (inductionOn ⟨d, h.content⟩ int bytes text array map bool null tagged)
termination_by sizeOf v.datum
decreasing_by
  · have := List.sizeOf_lt_of_mem hd
    simp
    omega
  · have := List.sizeOf_lt_of_mem (hes e he)
    simp at this ⊢
    omega
  · show sizeOf d < sizeOf (Datum.tagged tag d)
    rw [Datum.tagged.sizeOf_spec]
    omega

theorem encodeItems_eq (ds : List Datum) : Datum.encodeItems ds = ds.flatMap Datum.encode := by
  induction ds with
  | nil => rfl
  | cons d ds ih => simp [Datum.encodeItems, ih]

theorem encodeEntries_eq (es : List (Label × Datum)) :
    Datum.encodeEntries es = es.flatMap fun e => e.1.encode ++ e.2.encode := by
  induction es with
  | nil => rfl
  | cons e es ih => simp [Datum.encodeEntries, ih]

theorem encode_array (items : List Value) :
    (array items).encode = head .array items.length ++ items.flatMap encode := by
  show Datum.encode (.array (items.map datum)) = _
  rw [Datum.encode, encodeItems_eq, List.length_map, List.flatMap_map]
  rfl

theorem encode_map (m : LabelMap) : (map m).encode = m.encode := by
  show Datum.encode (.map (m.entries.map fun e => (e.1, e.2.datum))) = _
  rw [Datum.encode, encodeEntries_eq, List.length_map, List.flatMap_map]
  rfl

theorem encode_tagged (tag : UInt64) (v : Value) :
    (tagged tag v).encode = head .tag tag.toNat ++ v.encode := rfl

theorem encode_length_pos (v : Value) : 0 < v.encode.length := by
  induction v using inductionOn with
  | int i => exact Label.encode_length_pos (.int i)
  | bytes bs =>
    have := head_length_pos .bytes bs.length
    simp only [encode, bytes, Datum.encode, Cbor.bytes, List.length_append]
    omega
  | text s => exact Label.encode_length_pos (.text s)
  | array items =>
    have := head_length_pos .array items.length
    rw [encode_array, List.length_append]
    omega
  | map m =>
    have := head_length_pos .map m.size
    rw [encode_map, LabelMap.encode, List.length_append]
    omega
  | bool b => cases b <;> decide
  | null => decide
  | tagged tag v ih =>
    rw [encode_tagged, List.length_append]
    omega

end Value

/-- The entries of a map with what they are written as. -/
def LabelMap.writtenEntries (m : LabelMap) : List WrittenEntry :=
  m.entries.map fun e => ⟨e.1.encode, e.1, e.2.encode, e.2⟩

namespace LabelMap

theorem encode_eq (m : LabelMap) : m.encode =
    head .map m.writtenEntries.length ++ m.writtenEntries.flatMap WrittenEntry.bytes := by
  rw [encode, writtenEntries, List.length_map, List.flatMap_map]
  rfl

theorem nodup_writtenEntries (m : LabelMap) : (m.writtenEntries.map (·.label)).Nodup := by
  rw [writtenEntries, List.map_map]
  exact m.ascending.map _ fun _ _ h => Label.ne_of_lt h

theorem get?_iff_writtenEntries (m : LabelMap) (l : Label) (v : Value) :
    m.get? l = some v ↔ ∃ e ∈ m.writtenEntries, e.label = l ∧ e.value = v := by
  rw [get?_eq_some_iff]
  constructor
  · intro he
    exact ⟨_, List.mem_map_of_mem he, rfl, rfl⟩
  · intro hform
    obtain ⟨x, hx, rfl, rfl⟩ := hform
    obtain ⟨e, he, rfl⟩ := List.mem_map.mp hx
    exact he

theorem bytes_length_pos {m : LabelMap} {e : WrittenEntry} (h : e ∈ m.writtenEntries) :
    0 < e.bytes.length := by
  obtain ⟨e, -, rfl⟩ := List.mem_map.mp h
  have := e.1.encode_length_pos
  rw [WrittenEntry.bytes, List.length_append]
  exact Nat.add_pos_left this _

end LabelMap

namespace Value

/-- A value in which every head can announce what follows it: none of its byte strings, texts, arrays
and maps has 2 ^ 64 or more parts. -/
inductive Fits : Value → Prop
  | int (i : Int64) : Fits (.int i)
  | bytes {bs : Bytes} (length : bs.length < 2 ^ 64) : Fits (.bytes bs)
  | text {s : String} (length : (Bytes.ofText s).length < 2 ^ 64) : Fits (.text s)
  | array {items : List Value} (count : items.length < 2 ^ 64) (each : ∀ v ∈ items, Fits v) :
      Fits (.array items)
  | map {m : LabelMap} (count : m.size < 2 ^ 64) (labels : ∀ e ∈ m.entries, e.1.Fits)
      (values : ∀ e ∈ m.entries, Fits e.2) : Fits (.map m)
  | bool (b : Bool) : Fits (.bool b)
  | null : Fits .null
  | tagged (tag : UInt64) {v : Value} (content : Fits v) : Fits (.tagged tag v)

theorem Fits.written {v : Value} (h : v.Fits) : Written v.encode v := by
  induction h with
  | int i => exact .int (int_isInt i)
  | bytes length => exact .bytes (bytes_isBytes length)
  | text length => exact .text (text_isText length)
  | @array items count each ih =>
    have hi : (items.map fun v => (v.encode, v)).map (·.2) = items := by
      rw [List.map_map]
      exact List.map_id' items
    have hw := @Written.array (head .array items.length) (items.map fun v => (v.encode, v))
      (by simpa using head_isHead .array count)
      (fun i hi => by
        obtain ⟨v, hv, rfl⟩ := List.mem_map.mp hi
        exact ih v hv)
    rwa [List.flatMap_map, hi, ← encode_array] at hw
  | @map m count labels values ih =>
    rw [encode_map, LabelMap.encode_eq]
    have hcount : m.writtenEntries.length = m.size := List.length_map _
    refine .map (head_isHead .map (by omega)) ?_ ?_ m.nodup_writtenEntries m.get?_iff_writtenEntries
    · intro x hx
      obtain ⟨e, he, rfl⟩ := List.mem_map.mp hx
      exact (labels e he).written
    · intro x hx
      obtain ⟨e, he, rfl⟩ := List.mem_map.mp hx
      exact ih e he
  | bool b =>
    cases b
    · exact .bool false
    · exact .bool true
  | null => exact .null
  | tagged tag _ ih => exact .tagged (head_isHead .tag tag.toNat_lt) ih

/-- What is written as fewer bytes than a head can announce has only parts that can be announced. -/
theorem fits_of_length {v : Value} (h : v.encode.length < 2 ^ 64) : v.Fits := by
  induction v using inductionOn with
  | int i => exact .int i
  | bytes bs =>
    have hb : bs.length ≤ (encode (.bytes bs)).length := length_le_length_bytes bs
    exact .bytes (by omega)
  | text s =>
    have hs : (Bytes.ofText s).length ≤ (encode (.text s)).length := by
      simp [encode, text, Datum.encode, Cbor.text]
    exact .text (by omega)
  | array items ih =>
    rw [encode_array, List.length_append] at h
    have hn := length_le_length_flatMap (f := encode) fun v (_ : v ∈ items) => v.encode_length_pos
    refine .array (by omega) fun v hv => ?_
    have := length_le_of_mem_flatMap (f := encode) hv
    exact ih v hv (by omega)
  | map m ih =>
    rw [encode_map, LabelMap.encode_eq, List.length_append] at h
    have hcount : m.writtenEntries.length = m.size := List.length_map _
    have hn := length_le_length_flatMap fun e he => m.bytes_length_pos (e := e) he
    have hentry : ∀ e ∈ m.entries, e.1.encode.length + e.2.encode.length < 2 ^ 64 := by
      intro e he
      have hmem : ⟨e.1.encode, e.1, e.2.encode, e.2⟩ ∈ m.writtenEntries := List.mem_map_of_mem he
      have hle : (e.1.encode ++ e.2.encode).length ≤ _ :=
        length_le_of_mem_flatMap (f := WrittenEntry.bytes) hmem
      rw [List.length_append] at hle
      omega
    refine .map (by omega) (fun e he => ?_) fun e he => ?_
    · have := hentry e he
      exact Label.fits_of_length (by omega)
    · have := hentry e he
      exact ih e he (by omega)
  | bool b => exact .bool b
  | null => exact .null
  | tagged tag v ih =>
    rw [encode_tagged, List.length_append] at h
    exact .tagged tag (ih (by omega))

end Value

namespace LabelMap

/-- A map in which every head can announce what follows it. -/
def Fits (m : LabelMap) : Prop := (Value.map m).Fits

theorem fits_of_length {m : LabelMap} (h : m.encode.length < 2 ^ 64) : m.Fits := by
  rw [← Value.encode_map] at h
  exact Value.fits_of_length h

theorem Fits.written {m : LabelMap} (h : m.Fits) : Value.Written m.encode (.map m) := by
  rw [← Value.encode_map]
  exact Value.Fits.written h

theorem encode_length_pos (m : LabelMap) : 0 < m.encode.length := by
  rw [← Value.encode_map]
  exact Value.encode_length_pos _

end LabelMap

end Cose
