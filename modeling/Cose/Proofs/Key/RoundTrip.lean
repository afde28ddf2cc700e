import Cose.Proofs.Key.Reading
import Cose.Proofs.LabelMap.Order
import Cose.Proofs.LabelMap.Reading
import Cose.Proofs.LabelMap.Writing

namespace Cose

namespace LabelMap

theorem lookup_eq_none_iff {es : List (Label × Value)} {l : Label} :
    es.lookup l = none ↔ l ∉ es.map (·.1) := by
  rw [List.lookup_eq_none_iff, List.mem_map]
  constructor
  · intro h hl
    obtain ⟨e, he, rfl⟩ := hl
    simpa using h e he
  · intro h e he
    have hne : l ≠ e.1 := fun heq => h ⟨e, he, heq.symm⟩
    simpa using hne

theorem get?_foldl_insert {es : List (Label × Value)} (h : (es.map (·.1)).Nodup) (m : LabelMap)
    (l : Label) : (es.foldl (fun m e => m.insert e.1 e.2) m).get? l =
      (es.lookup l).or (m.get? l) := by
  induction es generalizing m with
  | nil => rfl
  | cons e es ih =>
    obtain ⟨hnot, hnodup⟩ := List.nodup_cons.mp h
    rw [List.foldl_cons, ih hnodup, get?_insert, lookup_cons]
    by_cases hl : l = e.1
    · rw [if_pos hl, if_pos hl, hl, lookup_eq_none_iff.mpr hnot]
      rfl
    · rw [if_neg hl, if_neg hl]

/-- Of entries under different labels the first one under a label is the only one. -/
theorem get?_ofList {es : List (Label × Value)} (h : (es.map (·.1)).Nodup) (l : Label) :
    (ofList es).get? l = es.lookup l := by
  rw [ofList, get?_foldl_insert h, get?_empty, Option.or_none]

theorem lookup_eq_some_iff {es : List (Label × Value)} (h : (es.map (·.1)).Nodup) {l : Label}
    {v : Value} : es.lookup l = some v ↔ (l, v) ∈ es := by
  induction es with
  | nil => simp
  | cons e es ih =>
    obtain ⟨hnot, hnodup⟩ := List.nodup_cons.mp h
    rw [lookup_cons, List.mem_cons]
    by_cases hl : l = e.1
    · have hfirst : (l, v) ∉ es := by
        intro hm
        have hlabel : l ∈ es.map (·.1) := List.mem_map_of_mem hm
        rw [hl] at hlabel
        exact hnot hlabel
      rw [if_pos hl, Option.some.injEq, or_iff_left hfirst, Prod.ext_iff]
      exact ⟨fun hv => ⟨hl, hv.symm⟩, fun hv => hv.2.symm⟩
    · have hrest : (l, v) ≠ e := fun heq => hl (congrArg Prod.fst heq)
      rw [if_neg hl, ih hnodup, or_iff_right hrest]

theorem mem_ofList {es : List (Label × Value)} (h : (es.map (·.1)).Nodup) {e : Label × Value} :
    e ∈ (ofList es).entries ↔ e ∈ es := by
  rw [← get?_eq_some_iff, get?_ofList h, lookup_eq_some_iff h]

theorem ofList_entries (m : LabelMap) : ofList m.entries = m := by
  refine ext_get? fun l => ?_
  rw [get?_ofList (Key.nodup_labels m), get?]

/-- Entries under different labels, written one after the other in any order, stand for the map that
they make up. -/
theorem written_ofList {es : List (Label × Value)} (h : (es.map (·.1)).Nodup)
    (count : es.length < 2 ^ 64) (labels : ∀ e ∈ es, Label.Written e.1.encode e.1)
    (values : ∀ e ∈ es, Value.Written e.2.encode e.2) :
    Value.Written (Cbor.head .map es.length ++ es.flatMap fun e => e.1.encode ++ e.2.encode)
      (.map (ofList es)) := by
  let written : List WrittenEntry := es.map fun e => ⟨e.1.encode, e.1, e.2.encode, e.2⟩
  have hbytes : es.flatMap (fun e => e.1.encode ++ e.2.encode) =
      written.flatMap WrittenEntry.bytes := by
    rw [List.flatMap_map]
    rfl
  rw [hbytes]
  refine .map ?_ ?_ ?_ ?_ ?_
  · rw [List.length_map]
    exact Cbor.head_isHead .map count
  · rw [List.forall_mem_map]
    exact labels
  · rw [List.forall_mem_map]
    exact values
  · rw [List.map_map]
    exact h
  · intro l v
    rw [get?_ofList h, lookup_eq_some_iff h]
    constructor
    · intro hm
      exact ⟨_, List.mem_map_of_mem hm, rfl, rfl⟩
    · intro hform
      obtain ⟨w, hw, rfl, rfl⟩ := hform
      obtain ⟨e, he, rfl⟩ := List.mem_map.mp hw
      exact he

theorem written_ofList_of_fits {es : List (Label × Value)} (h : (es.map (·.1)).Nodup)
    (fits : (Cbor.head .map es.length ++
      es.flatMap fun e => e.1.encode ++ e.2.encode).length < 2 ^ 64) :
    Value.Written (Cbor.head .map es.length ++ es.flatMap fun e => e.1.encode ++ e.2.encode)
      (.map (ofList es)) := by
  rw [List.length_append] at fits
  have hlength : es.length ≤ (es.flatMap fun e => e.1.encode ++ e.2.encode).length := by
    refine length_le_length_flatMap fun e _ => ?_
    have := e.1.encode_length_pos
    rw [List.length_append]
    exact Nat.add_pos_left this _
  have hentry : ∀ e ∈ es, e.1.encode.length + e.2.encode.length < 2 ^ 64 := by
    intro e he
    have := length_le_of_mem_flatMap (f := fun e => e.1.encode ++ e.2.encode) he
    rw [List.length_append] at this
    omega
  refine written_ofList h (by omega) ?_ ?_
  · intro e he
    have := hentry e he
    exact (Label.fits_of_length (by omega)).written
  · intro e he
    have := hentry e he
    exact (Value.fits_of_length (by omega)).written

end LabelMap

namespace Key

variable {key : Key}

/-- The entries under the labels with a meaning. -/
def ownEntries (key : Key) : List (Label × Value) := key.commonEntries ++ key.material.entries

def toMap (key : Key) : LabelMap := LabelMap.ofList key.entries

theorem labels_ownEntries (key : Key) : key.ownEntries.map (·.1) = key.ownLabels := by
  have h := key.labels_entries
  rw [entries, List.map_append] at h
  exact List.append_cancel_right h

theorem get?_toMap (key : Key) (l : Label) :
    key.toMap.get? l = (key.ownEntries.lookup l).or (key.extra.get? l) := by
  rw [toMap, LabelMap.get?_ofList key.nodup_labels_entries, entries, List.lookup_append]
  rfl

theorem get?_of_unreserved {kind : Kind} {m : LabelMap} {l : Label}
    (unreserved : ∀ l ∈ m.labels, kind.reserves l = false) (h : kind.reserves l = true) :
    m.get? l = none := by
  cases hv : m.get? l with
  | none => rfl
  | some v =>
    have hm := List.mem_map_of_mem (f := Prod.fst) (LabelMap.get?_eq_some_iff.mp hv)
    rw [unreserved l hm] at h
    cases h

theorem get?_extra {l : Label} (h : key.material.kind.reserves l = true) :
    key.extra.get? l = none :=
  get?_of_unreserved key.unreserved h

/-- No label has both a meaning common to all keys and one of its own. -/
theorem Kind.not_mem_common {kind : Kind} {i : Int64} (h : i ∈ kind.interpreted) :
    i ∉ ([1, 2, 3, 4, 5] : List Int64) := by
  revert h
  cases kind <;> simp +contextual [interpreted] <;> grind

theorem lookup_ownEntries {l : Label} (h : key.material.kind.reserves l = false) :
    key.ownEntries.lookup l = none := by
  refine LabelMap.lookup_eq_none_iff.mpr ?_
  rw [labels_ownEntries]
  intro hm
  rw [reserves_of_mem_ownLabels hm] at h
  cases h

/-- Under labels without a meaning there is nothing but the other entries. -/
theorem extraOf_toMap (key : Key) : extraOf key.toMap key.material.kind = key.extra := by
  refine LabelMap.ext_get? fun l => ?_
  rw [extraOf, LabelMap.get?_filter, get?_toMap]
  cases h : key.material.kind.reserves l with
  | true => rw [get?_extra h]; rfl
  | false => rw [lookup_ownEntries h]; rfl

theorem lookup_optional {α : Type} (o : Option α) (f : α → Value) (k l : Label) :
    (o.toList.map fun a => (k, f a)).lookup l = if l = k then o.map f else none := by
  cases o with
  | none => simp
  | some a => simp [LabelMap.lookup_cons]

/-- The entries under the common labels that go with these parameters. -/
def common (kind : Kind) (keyId : Option Bytes) (algorithm : Option Int64)
    (operations : List KeyOperation) (baseIv : Option Bytes) : List (Label × Value) :=
  (.int Parameter.keyType, .int kind.keyType.id) :: Material.bytesEntry Parameter.keyId keyId
    ++ algorithm.toList.map (fun i => (.int Parameter.algorithm, .int i))
    ++ (if operations.isEmpty then []
      else [(.int Parameter.operations, .array (operations.map fun op => .int op.id))])
    ++ Material.bytesEntry Parameter.baseIv baseIv

theorem commonEntries_eq (key : Key) : key.commonEntries =
    common key.material.kind key.keyId key.algorithm key.operations key.baseIv := rfl

theorem lookup_common (kind : Kind) (keyId : Option Bytes) (algorithm : Option Int64)
    (ops : List KeyOperation) (baseIv : Option Bytes) :
    let entries := common kind keyId algorithm ops baseIv
    entries.lookup (.int 1) = some (.int kind.keyType.id) ∧
    entries.lookup (.int 2) = keyId.map .bytes ∧
    entries.lookup (.int 3) = algorithm.map .int ∧
    entries.lookup (.int 4) = (if ops.isEmpty then none
      else some (.array (ops.map fun op => .int op.id))) ∧
    entries.lookup (.int 5) = baseIv.map .bytes ∧
    ∀ i ∉ ([1, 2, 3, 4, 5] : List Int64), entries.lookup (.int i) = none := by
  have operations (i : Int64) : (if ops = [] then []
      else [((.int 4, .array (ops.map fun op => .int op.id)) : Label × Value)]).lookup
        (.int i) = if i = 4 then if ops = [] then none
          else some (.array (ops.map fun op => .int op.id)) else none := by
    by_cases h : ops = [] <;> simp [h, LabelMap.lookup_cons]
  simp +contextual [common, Material.bytesEntry, LabelMap.lookup_cons, List.lookup_append,
    lookup_optional, operations, Parameter.keyType, Parameter.keyId, Parameter.algorithm,
    Parameter.operations, Parameter.baseIv]

theorem lookup_commonEntries (key : Key) :
    key.commonEntries.lookup (.int 1) = some (.int key.keyType.id) ∧
    key.commonEntries.lookup (.int 2) = key.keyId.map .bytes ∧
    key.commonEntries.lookup (.int 3) = key.algorithm.map .int ∧
    key.commonEntries.lookup (.int 4) = (if key.operations.isEmpty then none
      else some (.array (key.operations.map fun op => .int op.id))) ∧
    key.commonEntries.lookup (.int 5) = key.baseIv.map .bytes ∧
    ∀ i ∉ ([1, 2, 3, 4, 5] : List Int64), key.commonEntries.lookup (.int i) = none := by
  rw [commonEntries_eq]
  exact lookup_common _ _ _ _ _

theorem get?_toMap_common (key : Key) (i : Int64) (h : i ∈ ([1, 2, 3, 4, 5] : List Int64)) :
    key.toMap.get? (.int i) = key.commonEntries.lookup (.int i) := by
  have hreserves : key.material.kind.reserves (.int i) = true :=
    Kind.reserves_int_iff.mpr (.inl h)
  have hmaterial : key.material.entries.lookup (.int i) = none := by
    refine LabelMap.lookup_eq_none_iff.mpr ?_
    rw [Material.labels_entries]
    simp only [List.mem_cons, List.not_mem_nil, or_false] at h
    obtain rfl | rfl | rfl | rfl | rfl := h <;> simp
  rw [get?_toMap, get?_extra hreserves, Option.or_none, ownEntries, List.lookup_append, hmaterial,
    Option.or_none]

theorem get?_toMap_material (key : Key) (i : Int64) (h : i ∈ key.material.kind.interpreted) :
    key.toMap.get? (.int i) = key.material.entries.lookup (.int i) := by
  have hreserves := Kind.reserves_int_iff.mpr (.inr h)
  obtain ⟨-, -, -, -, -, others⟩ := lookup_commonEntries key
  rw [get?_toMap, get?_extra hreserves, Option.or_none, ownEntries, List.lookup_append,
    others i (Kind.not_mem_common h), Option.none_or]

theorem lookup_bytesEntry (label i : Int64) (bs : Option Bytes) :
    (Material.bytesEntry label bs).lookup (.int i) = if i = label then bs.map .bytes else none := by
  rw [Material.bytesEntry, lookup_optional]
  simp

theorem Material.lookup_entries (m : Material) :
    (∀ curve, m.curve? = some curve → m.entries.lookup (.int (-1)) = some (.int curve.id)) ∧
    (∀ k, m.k? = some k → m.entries.lookup (.int (-1)) = some (.bytes k)) ∧
    m.entries.lookup (.int (-2)) = m.x?.map .bytes ∧
    m.entries.lookup (.int (-3)) = m.y?.map .bytes ∧
    m.entries.lookup (.int (-4)) = m.d?.map .bytes := by
  cases m <;> simp [entries, LabelMap.lookup_cons, List.lookup_append, lookup_bytesEntry, curve?,
    x?, y?, d?, k?, Parameter.curve, Parameter.x, Parameter.y, Parameter.d, Parameter.k]

theorem material_ofMap_toMap (key : Key) :
    Material.ofMap key.toMap key.material.kind = .ok key.material := by
  have hget := key.get?_toMap_material
  have hne := key.wellFormed.nonempty
  have hform := key.wellFormed.material
  obtain ⟨hcurve, hk, hx, hy, hd⟩ := key.material.lookup_entries
  generalize key.material = material at *
  cases hform with
  | @ec2 curve x y d type =>
    have hget : ∀ i ∈ Kind.ec2.interpreted, _ := hget
    have hcurve : curveAt key.toMap .ec2 = .ok curve :=
      curveAt_eq_ok_iff.mpr ⟨(hget (-1) (by decide)).trans (hcurve curve rfl), type⟩
    have hx : materialAt key.toMap Parameter.x = .ok x :=
      materialAt_of_get? ((hget (-2) (by decide)).trans hx) fun b hb => hne b (.inl hb)
    have hy : materialAt key.toMap Parameter.y = .ok y :=
      materialAt_of_get? ((hget (-3) (by decide)).trans hy) fun b hb => hne b (.inr (.inl hb))
    have hd : materialAt key.toMap Parameter.d = .ok d :=
      materialAt_of_get? ((hget (-4) (by decide)).trans hd)
        fun b hb => hne b (.inr (.inr (.inl hb)))
    simp only [Material.kind, Material.ofMap, hcurve, hx, hy, hd]
    rfl
  | @okp curve x d type =>
    have hget : ∀ i ∈ Kind.okp.interpreted, _ := hget
    have hcurve : curveAt key.toMap .okp = .ok curve :=
      curveAt_eq_ok_iff.mpr ⟨(hget (-1) (by decide)).trans (hcurve curve rfl), type⟩
    have hx : materialAt key.toMap Parameter.x = .ok x :=
      materialAt_of_get? ((hget (-2) (by decide)).trans hx) fun b hb => hne b (.inl hb)
    have hd : materialAt key.toMap Parameter.d = .ok d :=
      materialAt_of_get? ((hget (-4) (by decide)).trans hd)
        fun b hb => hne b (.inr (.inr (.inl hb)))
    simp only [Material.kind, Material.ofMap, hcurve, hx, hd]
    rfl
  | @symmetric k =>
    have hget : ∀ i ∈ Kind.symmetric.interpreted, _ := hget
    have hk : bytesAt key.toMap Parameter.k = .ok (some k) :=
      bytesAt_eq_ok_iff.mpr ((hget (-1) (by decide)).trans (hk k rfl))
    simp only [Material.kind, Material.ofMap, hk]
    rfl

theorem operationsAt_toMap (key : Key) : operationsAt key.toMap = .ok key.operations := by
  obtain ⟨-, -, -, hoperations, -⟩ := key.lookup_commonEntries
  exact operationsAt_of_get? ((key.get?_toMap_common 4 (by decide)).trans hoperations)

/-- A key is read back from the map of its entries. -/
theorem ofMap_toMap (key : Key) : ofMap key.toMap = .ok key := by
  have hget := key.get?_toMap_common
  obtain ⟨hkind, hkeyId, halgorithm, -, hbaseIv, -⟩ := key.lookup_commonEntries
  have hkind : kindAt key.toMap = .ok key.material.kind :=
    kindAt_eq_ok_iff.mpr ((hget 1 (by decide)).trans hkind)
  have hkeyId : bytesAt key.toMap Parameter.keyId = .ok key.keyId :=
    bytesAt_eq_ok_iff.mpr ((hget 2 (by decide)).trans hkeyId)
  have halgorithm : intAt key.toMap Parameter.algorithm = .ok key.algorithm :=
    intAt_eq_ok_iff.mpr ((hget 3 (by decide)).trans halgorithm)
  have hbaseIv : bytesAt key.toMap Parameter.baseIv = .ok key.baseIv :=
    bytesAt_eq_ok_iff.mpr ((hget 5 (by decide)).trans hbaseIv)
  have hmake : ofMap key.toMap = make key.keyId key.algorithm key.operations key.baseIv
      key.material (extraOf key.toMap key.material.kind) (extraOf_unreserved _ _) := by
    simp only [ofMap, hkind, hkeyId, halgorithm, operationsAt_toMap, hbaseIv, bind, Except.bind,
      material_ofMap_toMap]
  rw [hmake, make_eq_ok key.sound]
  simp only [extraOf_toMap]

theorem Material.depth_bytesEntry (label : Int64) (bs : Option Bytes) :
    ∀ e ∈ bytesEntry label bs, e.2.depth ≤ 2 := by
  intro e he
  obtain ⟨b, -, rfl⟩ := List.mem_map.mp he
  exact Nat.le_succ 1

theorem depth_commonEntries (key : Key) : ∀ e ∈ key.commonEntries, e.2.depth ≤ 2 := by
  have ints (i : Int64) : (Value.int i).depth ≤ 1 := Nat.le_refl 1
  have algorithm : ∀ e ∈ key.algorithm.toList.map fun i =>
      ((.int Parameter.algorithm, .int i) : Label × Value), e.2.depth ≤ 2 := by
    intro e he
    obtain ⟨i, -, rfl⟩ := List.mem_map.mp he
    exact Nat.le_succ_of_le (ints i)
  have operations : ∀ e ∈ (if key.operations.isEmpty then []
      else [((.int Parameter.operations, .array (key.operations.map fun op => .int op.id)) :
        Label × Value)]), e.2.depth ≤ 2 := by
    intro e he
    split at he
    next => cases he
    next =>
      cases List.mem_singleton.mp he
      refine Value.depth_array_le.mpr fun v hv => ?_
      obtain ⟨op, -, rfl⟩ := List.mem_map.mp hv
      exact ints op.id
  rw [commonEntries]
  simp only [List.cons_append, List.forall_mem_cons, List.forall_mem_append]
  exact ⟨Nat.le_succ_of_le (ints key.keyType.id), ⟨⟨Material.depth_bytesEntry _ _, algorithm⟩,
    operations⟩, Material.depth_bytesEntry _ _⟩

theorem Material.depth_entries (m : Material) : ∀ e ∈ m.entries, e.2.depth ≤ 2 := by
  have curve (c : Curve) : (Value.int c.id).depth ≤ 2 := Nat.le_succ 1
  cases m with
  | ec2 c x y d =>
    simp only [entries, List.cons_append, List.forall_mem_cons, List.forall_mem_append]
    exact ⟨curve c, ⟨depth_bytesEntry _ _, depth_bytesEntry _ _⟩, depth_bytesEntry _ _⟩
  | okp c x d =>
    simp only [entries, List.cons_append, List.forall_mem_cons, List.forall_mem_append]
    exact ⟨curve c, depth_bytesEntry _ _, depth_bytesEntry _ _⟩
  | symmetric k => exact depth_bytesEntry _ _

/-- Only under labels without a meaning can a value nest too deep. -/
theorem depth_toMap_le_iff (key : Key) :
    (∀ e ∈ key.toMap.entries, e.2.depth ≤ Value.maxDepth) ↔
      ∀ e ∈ key.extra.entries, e.2.depth ≤ Value.maxDepth := by
  have htwo : 2 ≤ Value.maxDepth := by decide
  have hmem (e : Label × Value) : e ∈ key.toMap.entries ↔ e ∈ key.entries :=
    LabelMap.mem_ofList key.nodup_labels_entries
  simp only [hmem, entries, List.forall_mem_append]
  constructor
  · intro h
    exact h.2
  · intro h
    exact ⟨⟨fun e he => Nat.le_trans (key.depth_commonEntries e he) htwo,
      fun e he => Nat.le_trans (key.material.depth_entries e he) htwo⟩, h⟩

theorem decode_of_ne_nil {b : Bytes} (hne : b ≠ []) : decode b =
    ((Reader.complete "COSE_Key" (LabelMap.read "COSE_Key") b).mapError Error.decoding >>=
      fun m => (ofMap m).mapError Error.key) := by
  cases b with
  | nil => exact absurd rfl hne
  | cons => rfl

theorem exists_map_of_decode {b : Bytes} {key : Key} (h : decode b = .ok key) : b ≠ [] ∧
    ∃ m, Reader.complete "COSE_Key" (LabelMap.read "COSE_Key") b = .ok m ∧ ofMap m = .ok key := by
  have hne : b ≠ [] := by
    rintro rfl
    cases h
  rw [decode_of_ne_nil hne] at h
  obtain ⟨m, hm, hkey⟩ := eq_ok_of_bind h
  exact ⟨hne, m, eq_ok_of_mapError hm, eq_ok_of_mapError hkey⟩

theorem decode_eq {b : Bytes} {x : Except DecodingError LabelMap} (hne : b ≠ [])
    (h : (LabelMap.read "COSE_Key").Returns b x) :
    decode b = (x.mapError Error.decoding >>= fun m => (ofMap m).mapError Error.key) := by
  rw [decode_of_ne_nil hne, h.complete]

theorem decode_encode (key : Key) (fits : key.encode.length < 2 ^ 64) :
    decode key.encode = if ∀ e ∈ key.extra.entries, e.2.depth ≤ Value.maxDepth then .ok key
      else .error (.decoding (.nestingTooDeep "header value" Value.maxDepth)) := by
  have hwritten : Value.Written key.encode (.map key.toMap) :=
    LabelMap.written_ofList_of_fits key.nodup_labels_entries fits
  have hne : key.encode ≠ [] := by
    have hpos := Cbor.head_length_pos .map key.entries.length
    refine List.ne_nil_of_length_pos ?_
    rw [encode, List.length_append]
    exact Nat.add_pos_left hpos _
  split
  next deep =>
    have hread := LabelMap.takes_read hwritten (key.depth_toMap_le_iff.mpr deep) "COSE_Key"
    rw [decode_eq (x := .ok key.toMap) hne hread]
    show (ofMap key.toMap).mapError Error.key = _
    rw [ofMap_toMap]
    rfl
  next deep =>
    have hdeep : ∃ e ∈ key.toMap.entries, Value.maxDepth < e.2.depth := by
      rw [← depth_toMap_le_iff] at deep
      simpa using deep
    have hread := LabelMap.refuses_read hwritten hdeep "COSE_Key"
    rw [decode_eq (x := .error _) hne hread]
    rfl

theorem length_encode_le_of_mem_extra {l : Label} (h : l ∈ key.extra.labels) :
    l.encode.length ≤ key.encode.length := by
  obtain ⟨e, he, rfl⟩ := List.mem_map.mp h
  have hmem : e ∈ key.entries := List.mem_append_right _ he
  have hle := length_le_of_mem_flatMap (f := fun e => e.1.encode ++ e.2.encode) hmem
  rw [List.length_append] at hle
  rw [encode, List.length_append]
  omega

theorem ascending_extra (fits : key.encode.length < 2 ^ 64) :
    (key.extra.labels.map Label.encode).Pairwise (· < ·) := by
  refine LabelMap.ascending_encode fun l hl => ?_
  have hle := length_encode_le_of_mem_extra hl
  exact Label.fits_of_length (by omega)

/-- Every key is one that came about. -/
theorem obtained (key : Key) : key.Obtained := .interpreted key.ofMap_toMap

/-- A key is read back from its entries, in which the labels with a meaning come in their order and
then the others, bytewise ascending; and it is read back from its bytes unless a value under one
of the others nests too deep. Keys longer than a head can announce are left out where bytes count. -/
theorem round_trip (key : Key) :
    ofMap (LabelMap.ofList key.entries) = .ok key ∧
    key.entries.map (·.1) = key.ownLabels ++ key.extra.labels ∧
    (key.encode.length < 2 ^ 64 →
      (key.extra.labels.map Label.encode).Pairwise (· < ·) ∧
      decode key.encode = if ∀ e ∈ key.extra.entries, e.2.depth ≤ 16 then .ok key
        else .error (.decoding (.nestingTooDeep "header value" 16))) := by
  refine ⟨key.ofMap_toMap, key.labels_entries, ?_⟩
  intro fits
  exact ⟨ascending_extra fits, key.decode_encode fits⟩

/-- Entries under labels without a meaning, of which one nests so many levels. -/
def deepEntries (levels : Nat) : LabelMap :=
  LabelMap.ofList [(.text "a", .null), (.int (-70000), .int 24), (.int 6, .bytes [0x01]),
    (.text "", (List.range levels).foldl (fun v _ => .array [v]) .null)]

theorem labels_deepEntries (levels : Nat) : (deepEntries levels).labels =
    [.int 6, .int (-70000), .text "", .text "a"] := rfl

/-- A key that declares an operation twice, with these entries. -/
def extended (levels : Nat) : Key where
  keyId := some []
  algorithm := some Algorithm.es256.id
  operations := [.sign, .verify, .sign]
  baseIv := none
  material := .ec2 .p256 none none (some (List.replicate 32 0x07))
  extra := deepEntries levels
  sound := rfl
  unreserved := by
    rw [labels_deepEntries]
    decide

theorem round_trip_extended :
    (extended 15).encode.length < 2 ^ 64 ∧ decode (extended 15).encode = .ok (extended 15) ∧
    (extended 16).encode.length < 2 ^ 64 ∧
      decode (extended 16).encode = .error (.decoding (.nestingTooDeep "header value" 16)) := by
  have fits : (extended 15).encode.length < 2 ^ 64 := by decide +kernel
  have fits' : (extended 16).encode.length < 2 ^ 64 := by decide +kernel
  obtain ⟨-, -, h⟩ := (extended 15).round_trip
  obtain ⟨-, -, h'⟩ := (extended 16).round_trip
  refine ⟨fits, (h fits).2.trans (if_pos ?_), fits', (h' fits').2.trans (if_neg ?_)⟩
  · decide +kernel
  · decide +kernel

end Key

end Cose
