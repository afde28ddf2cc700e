import Cose.Value

namespace Cose

/-- A map from labels to values. -/
structure LabelMap where
  entries : List (Label × Value)
  ascending : entries.Pairwise (·.1 < ·.1)

namespace LabelMap

@[ext] theorem ext {m n : LabelMap} (h : m.entries = n.entries) : m = n := by
  cases m
  cases n
  congr

def empty : LabelMap := ⟨[], .nil⟩

instance : Inhabited LabelMap := ⟨empty⟩
instance : EmptyCollection LabelMap := ⟨empty⟩

def labels (m : LabelMap) : List Label := m.entries.map (·.1)

def size (m : LabelMap) : Nat := m.entries.length

def isEmpty (m : LabelMap) : Bool := m.entries.isEmpty

def get? (m : LabelMap) (l : Label) : Option Value := m.entries.lookup l

def contains (m : LabelMap) (l : Label) : Bool := (m.get? l).isSome

/-- Puts an entry into an ascending list, in place of one with the same label. -/
def insertEntry (l : Label) (v : Value) : List (Label × Value) → List (Label × Value)
  | [] => [(l, v)]
  | e :: es =>
    if l < e.1 then (l, v) :: e :: es
    else if l = e.1 then (l, v) :: es
    else e :: insertEntry l v es

theorem label_of_mem_insertEntry {l : Label} {v : Value} {es : List (Label × Value)}
    {e : Label × Value} (h : e ∈ insertEntry l v es) : e.1 = l ∨ e ∈ es := by
  induction es with
  | nil => simp_all [insertEntry]
  | cons x xs ih =>
    unfold insertEntry at h
    split at h
    · rcases List.mem_cons.mp h with rfl | h
      · exact .inl rfl
      · exact .inr h
    · split at h
      · rcases List.mem_cons.mp h with rfl | h
        · exact .inl rfl
        · exact .inr (List.mem_cons_of_mem x h)
      · rcases List.mem_cons.mp h with rfl | h
        · exact .inr List.mem_cons_self
        · exact (ih h).imp_right (List.mem_cons_of_mem x)

theorem pairwise_insertEntry {l : Label} {v : Value} {es : List (Label × Value)}
    (h : es.Pairwise (·.1 < ·.1)) : (insertEntry l v es).Pairwise (·.1 < ·.1) := by
  induction es with
  | nil => simp [insertEntry]
  | cons x xs ih =>
    obtain ⟨hx, hxs⟩ := List.pairwise_cons.mp h
    unfold insertEntry
    split
    next hl =>
      refine List.pairwise_cons.mpr ⟨fun e he => ?_, h⟩
      rcases List.mem_cons.mp he with rfl | he
      · exact hl
      · exact Label.lt_trans hl (hx e he)
    next hl =>
      split
      next heq =>
        exact List.pairwise_cons.mpr ⟨fun e he => heq ▸ hx e he, hxs⟩
      next hne =>
        refine List.pairwise_cons.mpr ⟨fun e he => ?_, ih hxs⟩
        rcases label_of_mem_insertEntry he with heq | he
        · exact heq ▸ Label.lt_of_not_lt_of_ne hl hne
        · exact hx e he

/-- Puts a value under a label, in place of any value that was there. -/
def insert (m : LabelMap) (l : Label) (v : Value) : LabelMap :=
  ⟨insertEntry l v m.entries, pairwise_insertEntry m.ascending⟩

/-- The entries whose labels satisfy a condition. -/
def filter (p : Label → Bool) (m : LabelMap) : LabelMap :=
  ⟨m.entries.filter (p ·.1), m.ascending.filter _⟩

def erase (m : LabelMap) (l : Label) : LabelMap := m.filter (· != l)

/-- The map with the given entries; of two with the same label the later one counts. -/
def ofList (es : List (Label × Value)) : LabelMap :=
  es.foldl (fun m e => m.insert e.1 e.2) empty

def int? (m : LabelMap) (l : Label) : Option Int64 := (m.get? l).bind Value.int?

def bytes? (m : LabelMap) (l : Label) : Option Bytes := (m.get? l).bind Value.bytes?

def text? (m : LabelMap) (l : Label) : Option String := (m.get? l).bind Value.text?

def array? (m : LabelMap) (l : Label) : Option (List Value) := (m.get? l).bind Value.array?

/-- Whether a label comes no later than another where integers ascend and texts follow them
bytewise. -/
def listedBefore (k l : Label) : Bool :=
  match k, l with
  | .int i, .int j => i ≤ j
  | .int _, .text _ => true
  | .text _, .int _ => false
  | .text s, .text t => !(Bytes.ofText t < Bytes.ofText s : Bool)

/-- The entries for display: integer labels ascending, then texts bytewise. -/
def listing (m : LabelMap) : List (Label × Value) :=
  m.entries.mergeSort fun d e => listedBefore d.1 e.1

/-- The map in deterministic form. -/
def encode (m : LabelMap) : Bytes :=
  Cbor.head .map m.size ++ m.entries.flatMap fun e => e.1.encode ++ e.2.encode

theorem lookup_cons (l : Label) (e : Label × Value) (es : List (Label × Value)) :
    (e :: es).lookup l = if l = e.1 then some e.2 else es.lookup l := by
  obtain ⟨k, v⟩ := e
  by_cases h : l = k
  · simp [h]
  · have hb : (l == k) = false := by simpa using h
    simp [List.lookup_cons, h, hb]

theorem lookup_insertEntry (l k : Label) (v : Value) (es : List (Label × Value)) :
    (insertEntry l v es).lookup k = if k = l then some v else es.lookup k := by
  induction es with
  | nil => simp [insertEntry, lookup_cons]
  | cons x xs ih =>
    unfold insertEntry
    split
    next hl => rw [lookup_cons]
    next hl =>
      split
      next heq =>
        subst heq
        by_cases hk : k = x.1 <;> simp [hk, lookup_cons]
      next hne =>
        rw [lookup_cons, lookup_cons, ih]
        by_cases hk : k = x.1
        · simp [hk, Ne.symm hne]
        · simp [hk]

@[simp] theorem get?_empty (l : Label) : (empty : LabelMap).get? l = none := rfl

theorem get?_insert (m : LabelMap) (l k : Label) (v : Value) :
    (m.insert l v).get? k = if k = l then some v else m.get? k :=
  lookup_insertEntry l k v m.entries

theorem lookup_filter (p : Label → Bool) (l : Label) (es : List (Label × Value)) :
    (es.filter (p ·.1)).lookup l = if p l then es.lookup l else none := by
  induction es with
  | nil => simp
  | cons x xs ih =>
    rw [List.filter_cons, lookup_cons]
    by_cases hp : p x.1
    · rw [if_pos hp, lookup_cons, ih]
      by_cases hl : l = x.1
      · simp [hl, hp]
      · simp [hl]
    · rw [if_neg hp, ih]
      by_cases hl : l = x.1
      · simp [hl, hp]
      · simp [hl]

theorem get?_filter (p : Label → Bool) (m : LabelMap) (l : Label) :
    (m.filter p).get? l = if p l then m.get? l else none :=
  lookup_filter p l m.entries

theorem lookup_eq_some_iff_mem {es : List (Label × Value)} (h : es.Pairwise (·.1 < ·.1))
    {l : Label} {v : Value} : es.lookup l = some v ↔ (l, v) ∈ es := by
  induction es with
  | nil => simp
  | cons x xs ih =>
    obtain ⟨k, w⟩ := x
    obtain ⟨hx, hxs⟩ := List.pairwise_cons.mp h
    rw [lookup_cons, List.mem_cons, Prod.mk.injEq]
    by_cases hl : l = k
    · subst hl
      have hn : (l, v) ∉ xs := fun hm => Label.lt_irrefl l (hx (l, v) hm)
      simp [hn, eq_comm]
    · simp [hl, ih hxs]

theorem get?_eq_some_iff {m : LabelMap} {l : Label} {v : Value} :
    m.get? l = some v ↔ (l, v) ∈ m.entries :=
  lookup_eq_some_iff_mem m.ascending

/-- Two ascending lists with the same members are equal. -/
theorem eq_of_mem_iff {es fs : List (Label × Value)} (he : es.Pairwise (·.1 < ·.1))
    (hf : fs.Pairwise (·.1 < ·.1)) (h : ∀ e, e ∈ es ↔ e ∈ fs) : es = fs := by
  induction es generalizing fs with
  | nil =>
    cases fs with
    | nil => rfl
    | cons y ys => exact absurd ((h y).mpr List.mem_cons_self) List.not_mem_nil
  | cons x xs ih =>
    cases fs with
    | nil => exact absurd ((h x).mp List.mem_cons_self) List.not_mem_nil
    | cons y ys =>
      obtain ⟨hx, hxs⟩ := List.pairwise_cons.mp he
      obtain ⟨hy, hys⟩ := List.pairwise_cons.mp hf
      have hxy : x = y := by
        rcases List.mem_cons.mp ((h x).mp List.mem_cons_self) with rfl | hxm
        · rfl
        · rcases List.mem_cons.mp ((h y).mpr List.mem_cons_self) with rfl | hym
          · rfl
          · exact absurd (Label.lt_trans (hx _ hym) (hy _ hxm)) (Label.lt_irrefl _)
      subst hxy
      congr 1
      refine ih hxs hys fun e => ⟨fun hm => ?_, fun hm => ?_⟩
      · rcases List.mem_cons.mp ((h e).mp (List.mem_cons_of_mem _ hm)) with rfl | hm'
        · exact absurd (hx _ hm) (Label.lt_irrefl _)
        · exact hm'
      · rcases List.mem_cons.mp ((h e).mpr (List.mem_cons_of_mem _ hm)) with rfl | hm'
        · exact absurd (hy _ hm) (Label.lt_irrefl _)
        · exact hm'

/-- A map is determined by the values under its labels. -/
theorem ext_get? {m n : LabelMap} (h : ∀ l, m.get? l = n.get? l) : m = n := by
  ext1
  refine eq_of_mem_iff m.ascending n.ascending fun ⟨l, v⟩ => ?_
  rw [← get?_eq_some_iff, ← get?_eq_some_iff, h]

end LabelMap

namespace Value

def map (m : LabelMap) : Value where
  datum := .map (m.entries.map fun e => (e.1, e.2.datum))
  ordered := by
    refine .map (List.pairwise_map.mpr m.ascending) fun e he => ?_
    obtain ⟨⟨l, v⟩, _, rfl⟩ := List.mem_map.mp he
    exact v.ordered

def map? (v : Value) : Option LabelMap :=
  match v with
  | ⟨.map entries, h⟩ =>
    some ⟨entries.pmap (fun e he => (e.1, ⟨e.2, he⟩)) h.entries, by
      rw [List.pairwise_pmap]
      exact h.labels.imp fun hlt _ _ => hlt⟩
  | _ => none

/-- What a value is, with its immediate parts. -/
inductive View
  | int (value : Int64)
  | bytes (value : Bytes)
  | text (value : String)
  | array (items : List Value)
  | map (entries : LabelMap)
  | bool (value : Bool)
  | null
  | tagged (tag : UInt64) (content : Value)

/-- The value's outermost form. -/
def view (v : Value) : View :=
  match v with
  | ⟨.int i, _⟩ => .int i
  | ⟨.bytes bs, _⟩ => .bytes bs
  | ⟨.text s, _⟩ => .text s
  | ⟨.array items, h⟩ => .array (items.pmap Value.mk h.items)
  | ⟨.map entries, h⟩ =>
    .map ⟨entries.pmap (fun e he => (e.1, ⟨e.2, he⟩)) h.entries, by
      rw [List.pairwise_pmap]
      exact h.labels.imp fun hlt _ _ => hlt⟩
  | ⟨.bool b, _⟩ => .bool b
  | ⟨.null, _⟩ => .null
  | ⟨.tagged tag d, h⟩ => .tagged tag ⟨d, h.content⟩

end Value

end Cose
