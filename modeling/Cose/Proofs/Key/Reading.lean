import Cose.Proofs.Key.WellFormed

namespace Cose.Key

theorem filter_of_ne_nil {bs : Option Bytes} (h : bs ≠ some []) :
    bs.filter (!·.isEmpty) = bs := by
  cases bs with
  | none => rfl
  | some b =>
    have hb : b.isEmpty = false := by simpa using h
    rw [Option.filter_some, hb]
    rfl

theorem filter_ne_nil (bs : Option Bytes) : bs.filter (!·.isEmpty) ≠ some [] := by
  intro h
  have hkept := Option.filter_eq_some_iff.mp h
  cases hkept.2

section

variable {m : LabelMap} {label : Int64}

theorem bytesAt_eq_ok_iff {bs : Option Bytes} :
    bytesAt m label = .ok bs ↔ m.get? (.int label) = bs.map .bytes := by
  rw [bytesAt]
  constructor
  · intro h
    split at h
    next hget =>
      cases h
      exact hget
    next v hget =>
      split at h
      next b hb =>
        cases h
        rw [hget, Value.eq_bytes_of_bytes? hb]
        rfl
      next => cases h
  · intro hget
    rw [hget]
    cases bs <;> rfl

theorem intAt_eq_ok_iff {i : Option Int64} :
    intAt m label = .ok i ↔ m.get? (.int label) = i.map .int := by
  rw [intAt]
  constructor
  · intro h
    split at h
    next hget =>
      cases h
      exact hget
    next v hget =>
      split at h
      next j hj =>
        cases h
        rw [hget, Value.eq_int_of_int? hj]
        rfl
      next => cases h
  · intro hget
    rw [hget]
    cases i <;> rfl

/-- Material is read from a byte string, of which only an empty one counts as missing. -/
theorem materialAt_eq_ok_iff {bs : Option Bytes} :
    materialAt m label = .ok bs ↔ ∃ given : Option Bytes,
      m.get? (.int label) = given.map .bytes ∧ bs = given.filter (!·.isEmpty) := by
  constructor
  · intro h
    obtain ⟨given, hgiven, h⟩ := eq_ok_of_bind h
    cases h
    exact ⟨given, bytesAt_eq_ok_iff.mp hgiven, rfl⟩
  · intro hform
    obtain ⟨given, hget, rfl⟩ := hform
    rw [materialAt, bytesAt_eq_ok_iff.mpr hget]
    rfl

theorem materialAt_of_get? {bs : Option Bytes} (h : m.get? (.int label) = bs.map .bytes)
    (hne : ∀ b, bs = some b → b ≠ []) : materialAt m label = .ok bs := by
  refine materialAt_eq_ok_iff.mpr ⟨bs, h, (filter_of_ne_nil ?_).symm⟩
  intro hempty
  exact hne [] hempty rfl

theorem curveAt_of_none {t : KeyType} (h : m.get? (.int Parameter.curve) = none) :
    curveAt m t = .error .missingCurve := by
  have hid : intAt m Parameter.curve = .ok none := intAt_eq_ok_iff.mpr h
  simp only [curveAt, hid, bind, Except.bind]
  rfl

theorem curveAt_of_get? {curve : Curve} {t : KeyType}
    (h : m.get? (.int Parameter.curve) = some (.int curve.id)) :
    curveAt m t = Material.checkCurve curve t >>= fun _ => .ok curve := by
  have hid : intAt m Parameter.curve = .ok (some curve.id) := intAt_eq_ok_iff.mpr h
  simp only [curveAt, hid, bind, Except.bind, Curve.ofId?_id]
  rfl

theorem curveAt_eq_ok_iff {curve : Curve} {t : KeyType} : curveAt m t = .ok curve ↔
    m.get? (.int Parameter.curve) = some (.int curve.id) ∧ curve.keyType = t := by
  constructor
  · intro h
    obtain ⟨id, hid, h⟩ := eq_ok_of_bind h
    have hget := intAt_eq_ok_iff.mp hid
    split at h
    next id =>
      split at h
      next c hc =>
        obtain ⟨⟨⟩, hcheck, h⟩ := eq_ok_of_bind h
        cases h
        rw [Curve.id_of_ofId? hc]
        exact ⟨hget, Material.checkCurve_eq_ok_iff.mp hcheck⟩
      next => cases h
    next => cases h
  · intro hform
    obtain ⟨hget, type⟩ := hform
    rw [curveAt_of_get? hget, Material.checkCurve_eq_ok_iff.mpr type]
    rfl

theorem operationOf_eq_ok_iff {v : Value} {op : KeyOperation} :
    operationOf v = .ok op ↔ v = .int op.id := by
  rw [operationOf]
  constructor
  · intro h
    split at h
    next => cases h
    next id hid =>
      split at h
      next op hop =>
        cases h
        rw [KeyOperation.id_of_ofId? hop]
        exact Value.eq_int_of_int? hid
      next => cases h
  · rintro rfl
    simp only [Value.int?_int, KeyOperation.ofId?_id]

theorem mapM_operationOf_eq_ok_iff {vs : List Value} {ops : List KeyOperation} :
    vs.mapM operationOf = .ok ops ↔ vs = ops.map fun op => .int op.id := by
  induction vs generalizing ops with
  | nil =>
    cases ops with
    | nil => exact ⟨fun _ => rfl, fun _ => rfl⟩
    | cons op ops =>
      constructor
      · intro h
        cases h
      · intro h
        cases h
  | cons v vs ih =>
    rw [List.mapM_cons]
    constructor
    · intro h
      obtain ⟨op, hop, h⟩ := eq_ok_of_bind h
      obtain ⟨rest, hrest, h⟩ := eq_ok_of_bind h
      cases h
      rw [operationOf_eq_ok_iff.mp hop, ih.mp hrest, List.map_cons]
    · intro h
      cases ops with
      | nil => cases h
      | cons op ops =>
        obtain ⟨hop, hrest⟩ := List.cons.inj h
        rw [operationOf_eq_ok_iff.mpr hop, ih.mpr hrest]
        rfl

/-- Operations are read from an array of their identifiers, without which there are none. -/
theorem operationsAt_eq_ok_iff {ops : List KeyOperation} : operationsAt m = .ok ops ↔
    m.get? (.int Parameter.operations) = some (.array (ops.map fun op => .int op.id)) ∨
      m.get? (.int Parameter.operations) = none ∧ ops = [] := by
  rw [operationsAt]
  constructor
  · intro h
    split at h
    next hget =>
      cases h
      exact .inr ⟨hget, rfl⟩
    next v hget =>
      split at h
      next items hitems =>
        rw [hget, Value.eq_array_of_array? hitems, mapM_operationOf_eq_ok_iff.mp h]
        exact .inl rfl
      next => cases h
  · rintro (hget | ⟨hget, rfl⟩)
    · simp only [hget, Value.array?_array]
      exact mapM_operationOf_eq_ok_iff.mpr rfl
    · simp only [hget]

theorem operationsAt_of_get? {ops : List KeyOperation}
    (h : m.get? (.int Parameter.operations) = if ops.isEmpty then none
      else some (.array (ops.map fun op => .int op.id))) : operationsAt m = .ok ops := by
  refine operationsAt_eq_ok_iff.mpr ?_
  cases ops with
  | nil => exact .inr ⟨h, rfl⟩
  | cons op ops => exact .inl h

theorem keyType_of_ofKeyType? {t : KeyType} {kind : Kind} (h : Kind.ofKeyType? t = some kind) :
    kind.keyType = t := by
  cases t <;> cases h <;> rfl

theorem kindAt_eq_ok_iff {kind : Kind} : kindAt m = .ok kind ↔
    m.get? (.int Parameter.keyType) = some (.int kind.keyType.id) := by
  constructor
  · intro h
    obtain ⟨id, hid, h⟩ := eq_ok_of_bind h
    have hget := intAt_eq_ok_iff.mp hid
    split at h
    next id =>
      split at h
      next kind hkind =>
        cases h
        obtain ⟨t, ht, hkind⟩ := Option.bind_eq_some_iff.mp hkind
        rw [keyType_of_ofKeyType? hkind, KeyType.id_of_ofId? ht]
        exact hget
      next => cases h
    next => cases h
  · intro h
    have hid : intAt m Parameter.keyType = .ok (some kind.keyType.id) := intAt_eq_ok_iff.mpr h
    rw [kindAt, hid]
    cases kind <;> rfl

theorem Material.ofMap_ec2_eq_ok {material : Material} (h : ofMap m .ec2 = .ok material) :
    ∃ curve x y d, curveAt m .ec2 = .ok curve ∧ materialAt m Parameter.x = .ok x ∧
      materialAt m Parameter.y = .ok y ∧ materialAt m Parameter.d = .ok d ∧
      material = .ec2 curve x y d := by
  obtain ⟨curve, hcurve, h⟩ := eq_ok_of_bind h
  obtain ⟨x, hx, h⟩ := eq_ok_of_bind h
  obtain ⟨y, hy, h⟩ := eq_ok_of_bind h
  obtain ⟨d, hd, h⟩ := eq_ok_of_bind h
  cases h
  exact ⟨curve, x, y, d, hcurve, hx, hy, hd, rfl⟩

theorem Material.ofMap_okp_eq_ok {material : Material} (h : ofMap m .okp = .ok material) :
    ∃ curve x d, curveAt m .okp = .ok curve ∧ materialAt m Parameter.x = .ok x ∧
      materialAt m Parameter.d = .ok d ∧ material = .okp curve x d := by
  obtain ⟨curve, hcurve, h⟩ := eq_ok_of_bind h
  obtain ⟨x, hx, h⟩ := eq_ok_of_bind h
  obtain ⟨d, hd, h⟩ := eq_ok_of_bind h
  cases h
  exact ⟨curve, x, d, hcurve, hx, hd, rfl⟩

theorem Material.ofMap_symmetric_eq_ok {material : Material}
    (h : ofMap m .symmetric = .ok material) :
    ∃ k, bytesAt m Parameter.k = .ok (some k) ∧ material = .symmetric k := by
  obtain ⟨k, hk, h⟩ := eq_ok_of_bind h
  cases k with
  | none => cases h
  | some k =>
    cases h
    exact ⟨k, hk, rfl⟩

theorem Material.kind_of_ofMap {kind : Kind} {material : Material}
    (h : ofMap m kind = .ok material) : material.kind = kind := by
  cases kind with
  | ec2 =>
    obtain ⟨curve, x, y, d, -, -, -, -, rfl⟩ := ofMap_ec2_eq_ok h
    rfl
  | okp =>
    obtain ⟨curve, x, d, -, -, -, rfl⟩ := ofMap_okp_eq_ok h
    rfl
  | symmetric =>
    obtain ⟨k, -, rfl⟩ := ofMap_symmetric_eq_ok h
    rfl

end

theorem make_eq_ok {keyId : Option Bytes} {algorithm : Option Int64}
    {operations : List KeyOperation} {baseIv : Option Bytes} {material : Material}
    {extra : LabelMap} {unreserved : ∀ l ∈ extra.labels, material.kind.reserves l = false}
    (sound : material.check = .ok ()) :
    make keyId algorithm operations baseIv material extra unreserved =
      .ok { keyId, algorithm, operations, baseIv, material, extra, sound, unreserved } := by
  unfold make
  split
  next => rfl
  next e he =>
    rw [sound] at he
    cases he

theorem make_eq_error {keyId : Option Bytes} {algorithm : Option Int64}
    {operations : List KeyOperation} {baseIv : Option Bytes} {material : Material}
    {extra : LabelMap} {unreserved : ∀ l ∈ extra.labels, material.kind.reserves l = false}
    {e : KeyError} (h : material.check = .error e) :
    make keyId algorithm operations baseIv material extra unreserved = .error e := by
  unfold make
  split
  next sound =>
    rw [h] at sound
    cases sound
  next e' he =>
    rw [h] at he
    cases he
    rfl

theorem eq_of_make {keyId : Option Bytes} {algorithm : Option Int64}
    {operations : List KeyOperation} {baseIv : Option Bytes} {material : Material}
    {extra : LabelMap} {unreserved : ∀ l ∈ extra.labels, material.kind.reserves l = false}
    {key : Key} (h : make keyId algorithm operations baseIv material extra unreserved = .ok key) :
    ∃ sound, key =
      { keyId, algorithm, operations, baseIv, material, extra, sound, unreserved } := by
  unfold make at h
  split at h
  next sound =>
    cases h
    exact ⟨sound, rfl⟩
  next => cases h

/-- A map that is read as a key describes its parameters, and the labels without a meaning to a
key of its kind are kept. -/
structure Describes (m : LabelMap) (key : Key) : Prop where
  kind : kindAt m = .ok key.material.kind
  keyId : bytesAt m Parameter.keyId = .ok key.keyId
  algorithm : intAt m Parameter.algorithm = .ok key.algorithm
  operations : operationsAt m = .ok key.operations
  baseIv : bytesAt m Parameter.baseIv = .ok key.baseIv
  material : Material.ofMap m key.material.kind = .ok key.material
  extra : key.extra = extraOf m key.material.kind

theorem describes_of_ofMap {m : LabelMap} {key : Key} (h : ofMap m = .ok key) :
    Describes m key := by
  obtain ⟨kind, hkind, h⟩ := eq_ok_of_bind h
  obtain ⟨keyId, hkeyId, h⟩ := eq_ok_of_bind h
  obtain ⟨algorithm, halgorithm, h⟩ := eq_ok_of_bind h
  obtain ⟨operations, hoperations, h⟩ := eq_ok_of_bind h
  obtain ⟨baseIv, hbaseIv, h⟩ := eq_ok_of_bind h
  obtain ⟨material, hmaterial, h⟩ := eq_ok_of_bind h
  obtain ⟨sound, rfl⟩ := eq_of_make h
  obtain rfl := Material.kind_of_ofMap hmaterial
  exact ⟨hkind, hkeyId, halgorithm, hoperations, hbaseIv, hmaterial, rfl⟩

end Cose.Key
