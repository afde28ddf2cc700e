import Cose.Proofs.Key.RoundTrip

namespace Cose.Key

namespace Material

/-- The parameters of which empty ones are missing. -/
def dense : Material → Material
  | ec2 curve x y d =>
    .ec2 curve (x.filter (!·.isEmpty)) (y.filter (!·.isEmpty)) (d.filter (!·.isEmpty))
  | okp curve x d => .okp curve (x.filter (!·.isEmpty)) (d.filter (!·.isEmpty))
  | symmetric k => .symmetric k

/-- The first of the rules for the parameters. -/
def checkType : Material → Except KeyError Unit
  | ec2 curve .. => checkCurve curve .ec2
  | okp curve .. => checkCurve curve .okp
  | symmetric _ => .ok ()

theorem check_of_checkType {m : Material} {e : KeyError} (h : m.checkType = .error e) :
    m.check = .error e := by
  cases m with
  | ec2 curve x y d =>
    have h : checkCurve curve .ec2 = .error e := h
    rw [check, h]
    rfl
  | okp curve x d =>
    have h : checkCurve curve .okp = .error e := h
    rw [check, h]
    rfl
  | symmetric k => cases h

/-- Parameters that obey the rules are not empty. -/
theorem dense_of_check {m : Material} (h : m.check = .ok ()) : m.dense = m := by
  have hne (bs : Option Bytes) (hbs : m.x? = bs ∨ m.y? = bs ∨ m.d? = bs) :
      bs.filter (!·.isEmpty) = bs := by
    refine filter_of_ne_nil ?_
    rintro rfl
    have hform : m.x? = some [] ∨ m.y? = some [] ∨ m.d? = some [] ∨ m.k? = some [] :=
      hbs.imp_right fun hrest => hrest.imp_right .inl
    exact (check_eq_ok_iff.mp h).ne_nil hform rfl
  cases m with
  | ec2 curve x y d =>
    rw [dense, hne x (.inl rfl), hne y (.inr (.inl rfl)), hne d (.inr (.inr rfl))]
  | okp curve x d => rw [dense, hne x (.inl rfl), hne d (.inr (.inr rfl))]
  | symmetric k => rfl

section

variable {curve : Curve} {x y d : Option Bytes}

theorem check_ec2 (type : curve.keyType = .ec2) : (ec2 curve x y d).check =
    (checkPoint x y d >>= fun _ => checkLength "x" curve x >>= fun _ =>
      checkLength "y" curve y >>= fun _ => checkLength "d" curve d) := by
  rw [check, checkCurve_eq_ok_iff.mpr type]
  rfl

theorem checkLength_nil (parameter : String) : checkLength parameter curve (some []) =
    .error (.invalidLength parameter curve.coordinateLength 0) := by
  have hlength : ¬([] : Bytes).length = curve.coordinateLength := by
    have hpos := curve.coordinateLength_pos
    rw [List.length_nil]
    omega
  rw [checkLength, if_neg hlength]
  rfl

theorem checkLength_eq_error {parameter : String} {bs : Option Bytes} {e : KeyError}
    (h : checkLength parameter curve bs = .error e) :
    ∃ b, bs = some b ∧ e = .invalidLength parameter curve.coordinateLength b.length := by
  cases bs with
  | none => cases h
  | some b =>
    rw [checkLength] at h
    split at h
    next => cases h
    next =>
      cases h
      exact ⟨b, rfl, rfl⟩

/-- Lengths are looked at one after the other. -/
theorem lengths_eq_error {e : KeyError}
    (h : (checkLength "x" curve x >>= fun _ => checkLength "y" curve y >>= fun _ =>
      checkLength "d" curve d) = .error e) :
    ∃ parameter actual, e = .invalidLength parameter curve.coordinateLength actual ∧
      (parameter = "x" → x.isSome) := by
  cases hx : checkLength "x" curve x with
  | error e' =>
    rw [hx] at h
    cases h
    obtain ⟨b, rfl, rfl⟩ := checkLength_eq_error hx
    exact ⟨_, _, rfl, fun _ => rfl⟩
  | ok =>
    rw [hx] at h
    have h : (checkLength "y" curve y >>= fun _ => checkLength "d" curve d) = .error e := h
    cases hy : checkLength "y" curve y with
    | error e' =>
      rw [hy] at h
      cases h
      obtain ⟨b, rfl, rfl⟩ := checkLength_eq_error hy
      exact ⟨_, _, rfl, fun hname => absurd hname (by decide)⟩
    | ok =>
      rw [hy] at h
      have h : checkLength "d" curve d = .error e := h
      obtain ⟨b, rfl, rfl⟩ := checkLength_eq_error h
      exact ⟨_, _, rfl, fun hname => absurd hname (by decide)⟩

/-- A point is found incomplete exactly if one coordinate is there without the other. -/
theorem check_eq_incomplete_iff (type : curve.keyType = .ec2) : (ec2 curve x y d).check =
    .error (.incompleteMaterial "x and y must both be present") ↔ ¬(x.isSome ↔ y.isSome) := by
  rw [check_ec2 type]
  constructor
  · intro h
    by_contra hwhole
    cases hpoint : checkPoint x y d with
    | error e =>
      rw [hpoint] at h
      cases h
      revert hpoint hwhole
      cases x <;> cases y <;> cases d <;> simp [checkPoint]
    | ok =>
      rw [hpoint] at h
      obtain ⟨_, _, heq, -⟩ := lengths_eq_error h
      cases heq
  · intro hhalf
    cases x with
    | none =>
      cases y with
      | none => exact absurd Iff.rfl hhalf
      | some b => rfl
    | some a =>
      cases y with
      | none => rfl
      | some b => exact absurd Iff.rfl hhalf

theorem isSome_of_check_eq_invalidLength (type : curve.keyType = .ec2) {actual : Nat}
    (h : (ec2 curve x y d).check =
      .error (.invalidLength "x" curve.coordinateLength actual)) : x.isSome := by
  rw [check_ec2 type] at h
  cases hpoint : checkPoint x y d with
  | error e =>
    rw [hpoint] at h
    cases h
    revert hpoint
    cases x <;> cases y <;> cases d <;> simp [checkPoint]
  | ok =>
    rw [hpoint] at h
    obtain ⟨_, _, heq, hx⟩ := lengths_eq_error h
    cases heq
    exact hx rfl

/-- A coordinate without bytes takes the other one's partner away if it does not count, unless the
other one is empty as well; and then it is too short. -/
theorem check_ne_dense_of_empty_point (type : curve.keyType = .ec2)
    (h : x = some [] ∨ y = some []) : (ec2 curve x y d).check ≠ (ec2 curve x y d).dense.check := by
  intro heq
  have hparity := check_eq_incomplete_iff type (x := x) (y := y) (d := d)
  rw [heq, dense, check_eq_incomplete_iff type, not_iff_not] at hparity
  have hdropped : (some ([] : Bytes)).filter (!·.isEmpty) = none := rfl
  -- Dropping both leaves a point that is as whole as before, so there the lengths have to tell.
  by_cases hboth : x = some [] ∧ y = some []
  · obtain ⟨rfl, rfl⟩ := hboth
    have hshort : (ec2 curve (some []) (some []) d).check =
        .error (.invalidLength "x" curve.coordinateLength 0) := by
      rw [check_ec2 type, checkPoint, checkLength_nil]
      rfl
    rw [hshort] at heq
    have hx := isSome_of_check_eq_invalidLength type heq.symm
    cases hx
  · rcases h with rfl | rfl
    · have hy : y ≠ some [] := fun hy => hboth ⟨rfl, hy⟩
      rw [hdropped, filter_of_ne_nil hy] at hparity
      cases y <;> simp at hparity
    · have hx : x ≠ some [] := fun hx => hboth ⟨hx, rfl⟩
      rw [hdropped, filter_of_ne_nil hx] at hparity
      cases x <;> simp at hparity

/-- A private part without bytes is noticed if nothing else is wrong with the key. -/
theorem check_eq_without_private_iff (type : curve.keyType = .ec2) :
    (ec2 curve x y (some [])).check = (ec2 curve x y none).check ↔
      ¬(x = none ∧ y = none ∨ ∃ a b, x = some a ∧ y = some b ∧
        a.length = curve.coordinateLength ∧ b.length = curve.coordinateLength) := by
  rw [check_ec2 type, check_ec2 type, checkLength_nil]
  cases x with
  | none =>
    cases y with
    | none => simp [checkPoint, checkLength, bind, Except.bind]
    | some b => simp [checkPoint, bind, Except.bind]
  | some a =>
    cases y with
    | none => simp [checkPoint, bind, Except.bind]
    | some b =>
      by_cases ha : a.length = curve.coordinateLength
      · by_cases hb : b.length = curve.coordinateLength
        · simp [checkPoint, checkLength, ha, hb, bind, Except.bind]
        · simp [checkPoint, checkLength, ha, hb, bind, Except.bind]
      · simp [checkPoint, checkLength, ha, bind, Except.bind]

end

end Material

theorem make_eq_make_iff {keyId : Option Bytes} {algorithm : Option Int64}
    {operations : List KeyOperation} {baseIv : Option Bytes} {material material' : Material}
    {extra : LabelMap} {unreserved : ∀ l ∈ extra.labels, material.kind.reserves l = false}
    {unreserved' : ∀ l ∈ extra.labels, material'.kind.reserves l = false}
    (same : material.check = .ok () → material' = material) :
    make keyId algorithm operations baseIv material extra unreserved =
      make keyId algorithm operations baseIv material' extra unreserved' ↔
        material.check = material'.check := by
  cases h : material.check with
  | ok =>
    obtain rfl := same h
    simp [h]
  | error e =>
    rw [make_eq_error h]
    cases h' : material'.check with
    | ok =>
      rw [make_eq_ok h']
      simp
    | error e' =>
      rw [make_eq_error h', Except.error.injEq, Except.error.injEq]

namespace Draft

variable {draft : Draft}

theorem buildUnrestricted_of_error {e : KeyError} (h : draft.material = .error e) :
    draft.buildUnrestricted = .error e := by
  unfold buildUnrestricted
  split
  next e' he =>
    rw [h] at he
    cases he
    rfl
  next material hm =>
    rw [h] at hm
    cases hm

theorem buildUnrestricted_of_ok {material : Material} (h : draft.material = .ok material) :
    draft.buildUnrestricted = make draft.keyId draft.algorithm draft.operations draft.baseIv
      material draft.extra (kind_of_material h ▸ draft.unreserved) := by
  unfold buildUnrestricted
  split
  next e he =>
    rw [h] at he
    cases he
  next material' hm =>
    rw [h] at hm
    cases hm
    rfl

theorem build_of_free (free : draft.usage = none) : draft.build = draft.buildUnrestricted := by
  rw [build, free]
  exact bind_pure _

/-- The draft without the parameters that have no bytes. -/
def dense (draft : Draft) : Draft :=
  { draft with
    x := draft.x.filter (!·.isEmpty)
    y := draft.y.filter (!·.isEmpty)
    d := draft.d.filter (!·.isEmpty) }

theorem material_dense (draft : Draft) :
    draft.dense.material = draft.material.map Material.dense := by
  obtain ⟨kind, curve, x, y, d, k, _⟩ := draft
  cases kind with
  | ec2 => cases curve <;> rfl
  | okp => cases curve <;> rfl
  | symmetric => cases k <;> rfl

/-- The entries of the parameters that only keys of the kind have. -/
def materialEntries (draft : Draft) : List (Label × Value) :=
  let curve := draft.curve.toList.map fun c => (.int Parameter.curve, .int c.id)
  let x := Material.bytesEntry Parameter.x draft.x
  let y := Material.bytesEntry Parameter.y draft.y
  let d := Material.bytesEntry Parameter.d draft.d
  match draft.kind with
  | .ec2 => curve ++ x ++ y ++ d
  | .okp => curve ++ x ++ d
  | .symmetric => Material.bytesEntry Parameter.k draft.k

/-- An entry for the type of key and one for each parameter given. -/
def ownEntries (draft : Draft) : List (Label × Value) :=
  common draft.kind draft.keyId draft.algorithm draft.operations draft.baseIv ++
    draft.materialEntries

/-- The map that gives all parameters of a draft at once. -/
def toMap (draft : Draft) : LabelMap := LabelMap.ofList (draft.ownEntries ++ draft.extra.entries)

theorem labels_optional {α : Type} (o : Option α) (f : α → Value) (i : Int64) :
    ((o.toList.map fun a => ((.int i, f a) : Label × Value)).map (·.1)).Sublist [.int i] := by
  cases o with
  | none => exact List.nil_sublist _
  | some a => exact List.Sublist.refl _

theorem labels_common (draft : Draft) : ((common draft.kind draft.keyId draft.algorithm
    draft.operations draft.baseIv).map (·.1)).Sublist
      (([1, 2, 3, 4, 5] : List Int64).map Label.int) := by
  have operations : ((if draft.operations.isEmpty then []
      else [((.int 4, .array (draft.operations.map fun op => .int op.id)) :
        Label × Value)]).map (·.1)).Sublist [.int 4] := by
    split
    · exact List.nil_sublist _
    · exact List.Sublist.refl _
  simp only [common, List.map_append, List.map_cons]
  exact ((((labels_optional draft.keyId _ 2).cons_cons _).append
    (labels_optional draft.algorithm _ 3)).append operations).append
    (labels_optional draft.baseIv _ 5)

theorem labels_materialEntries (draft : Draft) :
    (draft.materialEntries.map (·.1)).Sublist (draft.kind.interpreted.map Label.int) := by
  have hcurve := labels_optional draft.curve (fun c => .int c.id) (-1)
  have hx := labels_optional draft.x Value.bytes (-2)
  have hy := labels_optional draft.y Value.bytes (-3)
  have hd := labels_optional draft.d Value.bytes (-4)
  have hk := labels_optional draft.k Value.bytes (-1)
  unfold materialEntries
  cases draft.kind with
  | ec2 =>
    simp only [List.map_append]
    exact ((hcurve.append hx).append hy).append hd
  | okp =>
    simp only [List.map_append]
    exact (hcurve.append hx).append hd
  | symmetric => exact hk

/-- Each label has one place in the entries. -/
theorem labels_ownEntries (draft : Draft) : (draft.ownEntries.map (·.1)).Sublist
    (([1, 2, 3, 4, 5] ++ draft.kind.interpreted : List Int64).map Label.int) := by
  rw [ownEntries, List.map_append, List.map_append]
  exact draft.labels_common.append draft.labels_materialEntries

theorem reserves_of_mem_ownEntries {l : Label} (h : l ∈ draft.ownEntries.map (·.1)) :
    draft.kind.reserves l = true := by
  obtain ⟨i, hi, rfl⟩ := List.mem_map.mp (draft.labels_ownEntries.subset h)
  exact Kind.reserves_int_iff.mpr (List.mem_append.mp hi)

theorem nodup_labels_entries (draft : Draft) :
    ((draft.ownEntries ++ draft.extra.entries).map (·.1)).Nodup := by
  have hown : (draft.ownEntries.map (·.1)).Nodup := by
    refine List.Nodup.sublist draft.labels_ownEntries ?_
    cases draft.kind <;> decide
  rw [List.map_append]
  refine List.nodup_append.mpr ⟨hown, nodup_labels draft.extra, ?_⟩
  intro l hl l' hl' heq
  have hfree := draft.unreserved l' hl'
  rw [← heq, reserves_of_mem_ownEntries hl] at hfree
  cases hfree

theorem get?_toMap (draft : Draft) (l : Label) :
    draft.toMap.get? l = (draft.ownEntries.lookup l).or (draft.extra.get? l) := by
  rw [toMap, LabelMap.get?_ofList draft.nodup_labels_entries, List.lookup_append]
  rfl

theorem get?_toMap_common (draft : Draft) {i : Int64} (h : i ∈ ([1, 2, 3, 4, 5] : List Int64)) :
    draft.toMap.get? (.int i) = (common draft.kind draft.keyId draft.algorithm draft.operations
      draft.baseIv).lookup (.int i) := by
  have hfree := get?_of_unreserved draft.unreserved (Kind.reserves_int_iff.mpr (.inl h))
  have hmaterial : draft.materialEntries.lookup (.int i) = none := by
    refine LabelMap.lookup_eq_none_iff.mpr fun hmem => ?_
    obtain ⟨j, hj, heq⟩ := List.mem_map.mp (draft.labels_materialEntries.subset hmem)
    cases heq
    exact Kind.not_mem_common hj h
  rw [get?_toMap, hfree, Option.or_none, ownEntries, List.lookup_append, hmaterial, Option.or_none]

theorem get?_toMap_material (draft : Draft) {i : Int64} (h : i ∈ draft.kind.interpreted) :
    draft.toMap.get? (.int i) = draft.materialEntries.lookup (.int i) := by
  have hfree := get?_of_unreserved draft.unreserved (Kind.reserves_int_iff.mpr (.inr h))
  obtain ⟨-, -, -, -, -, others⟩ :=
    lookup_common draft.kind draft.keyId draft.algorithm draft.operations draft.baseIv
  rw [get?_toMap, hfree, Option.or_none, ownEntries, List.lookup_append,
    others i (Kind.not_mem_common h), Option.none_or]

theorem get?_toMap_of_kind (draft : Draft) :
    (draft.kind = .ec2 →
      draft.toMap.get? (.int (-1)) = draft.curve.map (fun c => .int c.id) ∧
      draft.toMap.get? (.int (-2)) = draft.x.map .bytes ∧
      draft.toMap.get? (.int (-3)) = draft.y.map .bytes ∧
      draft.toMap.get? (.int (-4)) = draft.d.map .bytes) ∧
    (draft.kind = .okp →
      draft.toMap.get? (.int (-1)) = draft.curve.map (fun c => .int c.id) ∧
      draft.toMap.get? (.int (-2)) = draft.x.map .bytes ∧
      draft.toMap.get? (.int (-4)) = draft.d.map .bytes) ∧
    (draft.kind = .symmetric → draft.toMap.get? (.int (-1)) = draft.k.map .bytes) := by
  have hget {kind : Kind} {i : Int64} (hk : draft.kind = kind) (h : i ∈ kind.interpreted) :=
    draft.get?_toMap_material (hk ▸ h)
  refine ⟨fun hk => ?_, fun hk => ?_, fun hk => ?_⟩
  · rw [hget hk (by decide), hget hk (by decide), hget hk (by decide), hget hk (by decide),
      materialEntries, hk]
    simp [List.lookup_append, lookup_optional, lookup_bytesEntry, Parameter.curve, Parameter.x,
      Parameter.y, Parameter.d]
  · rw [hget hk (by decide), hget hk (by decide), hget hk (by decide), materialEntries, hk]
    simp [List.lookup_append, lookup_optional, lookup_bytesEntry, Parameter.curve, Parameter.x,
      Parameter.d]
  · rw [hget hk (by decide), materialEntries, hk]
    simp [lookup_bytesEntry, Parameter.k]

/-- All parameters are read, empty ones as missing, but the curve is looked at at once. -/
theorem ofMap_toMap_material (draft : Draft) : Material.ofMap draft.toMap draft.kind =
    draft.dense.material >>= fun m => m.checkType >>= fun _ => .ok m := by
  obtain ⟨hec2, hokp, hsymmetric⟩ := draft.get?_toMap_of_kind
  have read {label : Int64} {bs : Option Bytes}
      (hget : draft.toMap.get? (.int label) = bs.map .bytes) :
      materialAt draft.toMap label = .ok (bs.filter (!·.isEmpty)) :=
    materialAt_eq_ok_iff.mpr ⟨bs, hget, rfl⟩
  rw [material_dense]
  cases hk : draft.kind with
  | ec2 =>
    obtain ⟨hcurve, hx, hy, hd⟩ := hec2 hk
    rw [Material.ofMap, Draft.material, hk]
    simp only [Parameter.x, Parameter.y, Parameter.d, read hx, read hy, read hd]
    cases hc : draft.curve with
    | none =>
      rw [hc] at hcurve
      rw [curveAt_of_none hcurve]
      rfl
    | some c =>
      rw [hc] at hcurve
      rw [curveAt_of_get? hcurve]
      show _ = (Material.checkCurve c .ec2 >>= _)
      cases Material.checkCurve c .ec2 <;> rfl
  | okp =>
    obtain ⟨hcurve, hx, hd⟩ := hokp hk
    rw [Material.ofMap, Draft.material, hk]
    simp only [Parameter.x, Parameter.d, read hx, read hd]
    cases hc : draft.curve with
    | none =>
      rw [hc] at hcurve
      rw [curveAt_of_none hcurve]
      rfl
    | some c =>
      rw [hc] at hcurve
      rw [curveAt_of_get? hcurve]
      have hx : (draft.x.filter (!·.isEmpty)).filter (!·.isEmpty) = draft.x.filter (!·.isEmpty) :=
        filter_of_ne_nil (filter_ne_nil _)
      have hd : (draft.d.filter (!·.isEmpty)).filter (!·.isEmpty) = draft.d.filter (!·.isEmpty) :=
        filter_of_ne_nil (filter_ne_nil _)
      show _ = (Material.checkCurve c .okp >>= fun _ => Except.ok (Material.okp c _ _))
      rw [hx, hd]
      cases Material.checkCurve c .okp <;> rfl
  | symmetric =>
    have hbytes : bytesAt draft.toMap Parameter.k = .ok draft.k :=
      bytesAt_eq_ok_iff.mpr (hsymmetric hk)
    rw [Material.ofMap, Draft.material, hk]
    simp only [hbytes]
    cases draft.k <;> rfl

theorem extraOf_toMap (draft : Draft) : extraOf draft.toMap draft.kind = draft.extra := by
  refine LabelMap.ext_get? fun l => ?_
  rw [extraOf, LabelMap.get?_filter, get?_toMap]
  cases h : draft.kind.reserves l with
  | true =>
    rw [get?_of_unreserved draft.unreserved h]
    rfl
  | false =>
    have hnone : draft.ownEntries.lookup l = none := by
      refine LabelMap.lookup_eq_none_iff.mpr fun hmem => ?_
      rw [reserves_of_mem_ownEntries hmem] at h
      cases h
    rw [hnone]
    rfl

/-- A map is read as the draft is built once the parameters without bytes are taken away. -/
theorem ofMap_toMap (draft : Draft) : ofMap draft.toMap = draft.dense.buildUnrestricted := by
  obtain ⟨hkind, hkeyId, halgorithm, hoperations, hbaseIv, -⟩ :=
    lookup_common draft.kind draft.keyId draft.algorithm draft.operations draft.baseIv
  have hget {i : Int64} (h : i ∈ ([1, 2, 3, 4, 5] : List Int64)) := draft.get?_toMap_common h
  have hkind : kindAt draft.toMap = .ok draft.kind :=
    kindAt_eq_ok_iff.mpr ((hget (by decide)).trans hkind)
  have hkeyId : bytesAt draft.toMap Parameter.keyId = .ok draft.keyId :=
    bytesAt_eq_ok_iff.mpr ((hget (by decide)).trans hkeyId)
  have halgorithm : intAt draft.toMap Parameter.algorithm = .ok draft.algorithm :=
    intAt_eq_ok_iff.mpr ((hget (by decide)).trans halgorithm)
  have hoperations : operationsAt draft.toMap = .ok draft.operations :=
    operationsAt_of_get? ((hget (by decide)).trans hoperations)
  have hbaseIv : bytesAt draft.toMap Parameter.baseIv = .ok draft.baseIv :=
    bytesAt_eq_ok_iff.mpr ((hget (by decide)).trans hbaseIv)
  simp only [ofMap, hkind, hkeyId, halgorithm, hoperations, hbaseIv, bind, Except.bind]
  have hmaterial := draft.ofMap_toMap_material
  cases hm : draft.dense.material with
  | error e =>
    rw [hm] at hmaterial
    rw [buildUnrestricted_of_error hm]
    simp only [hmaterial, bind, Except.bind]
  | ok material =>
    rw [hm] at hmaterial
    have hkind : material.kind = draft.dense.kind := kind_of_material hm
    rw [buildUnrestricted_of_ok hm]
    cases htype : material.checkType with
    | error e =>
      simp only [htype, bind, Except.bind] at hmaterial
      rw [hmaterial, make_eq_error (Material.check_of_checkType htype)]
    | ok =>
      simp only [htype, bind, Except.bind] at hmaterial
      have hextra : extraOf draft.toMap material.kind = draft.dense.extra := by
        rw [hkind]
        exact draft.extraOf_toMap
      rw [hmaterial]
      simp only [hextra]
      rfl

/-- The draft of an elliptic-curve key claims material without carrying any, and there is nothing
before it to be refused for. -/
def Hollow (draft : Draft) : Prop :=
  draft.kind = .ec2 ∧ ∃ curve, draft.curve = some curve ∧ curve.keyType = .ec2 ∧
    (draft.x = some [] ∨ draft.y = some [] ∨ draft.d = some [] ∧
      (draft.x = none ∧ draft.y = none ∨ ∃ x y, draft.x = some x ∧ draft.y = some y ∧
        x.length = curve.coordinateLength ∧ y.length = curve.coordinateLength))

theorem check_eq_dense_iff {material : Material} (h : draft.material = .ok material) :
    material.check = material.dense.check ↔ ¬draft.Hollow := by
  unfold Draft.material at h
  cases hk : draft.kind with
  | ec2 =>
    rw [hk] at h
    cases hc : draft.curve with
    | none =>
      rw [hc] at h
      cases h
    | some curve =>
      rw [hc] at h
      cases h
      have hhollow : draft.Hollow ↔ curve.keyType = .ec2 ∧
          (draft.x = some [] ∨ draft.y = some [] ∨ draft.d = some [] ∧
            (draft.x = none ∧ draft.y = none ∨ ∃ x y, draft.x = some x ∧ draft.y = some y ∧
              x.length = curve.coordinateLength ∧ y.length = curve.coordinateLength)) := by
        simp [Hollow, hk, hc]
      rw [hhollow]
      by_cases type : curve.keyType = .ec2
      · by_cases hpoint : draft.x = some [] ∨ draft.y = some []
        · have hne := Material.check_ne_dense_of_empty_point type (d := draft.d) hpoint
          exact iff_of_false hne fun hnot => hnot ⟨type, hpoint.imp_right .inl⟩
        · obtain ⟨hx, hy⟩ := not_or.mp hpoint
          rw [Material.dense, filter_of_ne_nil hx, filter_of_ne_nil hy]
          by_cases hd : draft.d = some []
          · rw [hd]
            have hiff := Material.check_eq_without_private_iff type (x := draft.x) (y := draft.y)
            simp only [type, hx, hy, false_or, true_and]
            exact hiff
          · rw [filter_of_ne_nil hd]
            simp [hx, hy, hd]
      · -- On a curve of another type both are refused before a coordinate is looked at.
        have htype : ∀ x y d, (Material.ec2 curve x y d).check =
            .error (.unsupportedCurve curve.id .ec2) := by
          intro x y d
          exact Material.check_of_checkType (if_neg type)
        rw [Material.dense, htype, htype]
        simp [type]
  | okp =>
    rw [hk] at h
    cases hc : draft.curve with
    | none =>
      rw [hc] at h
      cases h
    | some curve =>
      rw [hc] at h
      cases h
      rw [Material.dense, filter_of_ne_nil (filter_ne_nil _), filter_of_ne_nil (filter_ne_nil _)]
      simp [Hollow, hk]
  | symmetric =>
    rw [hk] at h
    cases hkey : draft.k with
    | none =>
      rw [hkey] at h
      cases h
    | some k =>
      rw [hkey] at h
      cases h
      simp [Hollow, hk, Material.dense]

theorem not_hollow_of_error {e : KeyError} (h : draft.material = .error e) : ¬draft.Hollow := by
  intro hhollow
  obtain ⟨hk, curve, hc, -⟩ := hhollow
  unfold Draft.material at h
  rw [hk, hc] at h
  cases h

/-- A map of parameters is read as any key that is built from them. -/
theorem ofMap_of_build (free : draft.usage = none) {key : Key} (h : draft.build = .ok key) :
    ofMap draft.toMap = .ok key := by
  rw [build_of_free free] at h
  rw [ofMap_toMap]
  have hdense := draft.material_dense
  cases hm : draft.material with
  | error e =>
    rw [buildUnrestricted_of_error hm] at h
    cases h
  | ok material =>
    rw [hm] at hdense
    rw [buildUnrestricted_of_ok hm] at h
    obtain ⟨sound, -⟩ := eq_of_make h
    have hsame : Except.map Material.dense (.ok material) = (.ok material : Except KeyError _) :=
      congrArg Except.ok (Material.dense_of_check sound)
    rw [hsame] at hdense
    rw [buildUnrestricted_of_ok hdense]
    exact h

theorem build_eq_ofMap_iff (free : draft.usage = none) :
    draft.build = ofMap draft.toMap ↔ ¬draft.Hollow := by
  rw [build_of_free free, ofMap_toMap]
  have hdense := draft.material_dense
  cases hm : draft.material with
  | error e =>
    rw [hm] at hdense
    rw [buildUnrestricted_of_error hm, buildUnrestricted_of_error hdense]
    exact iff_of_true rfl (not_hollow_of_error hm)
  | ok material =>
    rw [hm] at hdense
    rw [buildUnrestricted_of_ok hm, buildUnrestricted_of_ok hdense, ← check_eq_dense_iff hm]
    exact make_eq_make_iff Material.dense_of_check

/-- All parameters of a draft, one after the other. -/
def steps (draft : Draft) : List Step :=
  draft.curve.toList.map .curve ++ draft.x.toList.map .x ++ draft.y.toList.map .y ++
    draft.d.toList.map .d ++ draft.k.toList.map .k ++ draft.keyId.toList.map .keyId ++
    draft.algorithm.toList.map .algorithm ++ draft.baseIv.toList.map .baseIv ++
    draft.operations.map .addOperation ++ draft.extra.entries.map fun e => .label e.1 e.2

theorem run_append (draft : Draft) (front rest : List Step) :
    draft.run (front ++ rest) = (draft.run front).run rest :=
  List.foldl_append

/-- A parameter that may be missing, given to a draft that does not have it. -/
theorem run_optional {α : Type} (f : α → Step) (draftWith : Option α → Draft)
    (h : ∀ a, (draftWith none).apply (f a) = .ok (draftWith (some a))) (o : Option α) :
    (draftWith none).run (o.toList.map f) = draftWith o := by
  cases o with
  | none => rfl
  | some a =>
    show (draftWith none).attempt (f a) = draftWith (some a)
    rw [attempt, h a]

theorem run_operations (draft : Draft) (free : draft.usage = none) (ops : List KeyOperation)
    (nodup : (draft.operations ++ ops).Nodup) :
    draft.run (ops.map .addOperation) = { draft with operations := draft.operations ++ ops } := by
  induction ops generalizing draft with
  | nil => simp [run]
  | cons op ops ih =>
    have hnew : draft.operations.contains op = false := by
      obtain ⟨-, -, hdisjoint⟩ := List.nodup_append.mp nodup
      rw [← Bool.not_eq_true, List.contains_iff_mem]
      exact fun hmem => hdisjoint op hmem op List.mem_cons_self rfl
    have hadd : draft.attempt (.addOperation op) =
        { draft with operations := draft.operations ++ [op] } := by
      simp only [attempt, apply, addOperation, hnew, free]
      rfl
    rw [List.map_cons]
    show (draft.attempt (.addOperation op)).run _ = _
    rw [hadd, ih { draft with operations := draft.operations ++ [op] } free
      (by simpa [List.append_assoc] using nodup)]
    simp [List.append_assoc]

theorem run_labels (draft : Draft) (es : List (Label × Value))
    (h : ∀ e ∈ es, draft.kind.reserves e.1 = false) :
    ∃ unreserved, draft.run (es.map fun e => .label e.1 e.2) =
      { draft with extra := es.foldl (fun m e => m.insert e.1 e.2) draft.extra, unreserved } := by
  induction es generalizing draft with
  | nil => exact ⟨draft.unreserved, rfl⟩
  | cons e es ih =>
    obtain ⟨he, hes⟩ := List.forall_mem_cons.mp h
    have hput : draft.attempt (.label e.1 e.2) = draft.putExtra e.1 e.2 he := by
      obtain ⟨l, v⟩ := e
      cases l with
      | int i => simp only [attempt, apply, setLabel, he, dif_pos]
      | text s => rfl
    rw [List.map_cons]
    show ∃ _, (draft.attempt (.label e.1 e.2)).run _ = _
    rw [hput]
    exact ih (draft.putExtra e.1 e.2 he) hes

/-- A draft is what comes of giving all its parameters to an empty one. -/
theorem run_steps (draft : Draft) (free : draft.usage = none) (nodup : draft.operations.Nodup) :
    (empty draft.kind).run draft.steps = draft := by
  obtain ⟨kind, curve, x, y, d, k, keyId, algorithm, operations, baseIv, extra, usage,
    unreserved⟩ := draft
  obtain rfl : usage = none := free
  have hcurve : (empty kind).run (curve.toList.map .curve) = { empty kind with curve } :=
    run_optional .curve (fun o => { empty kind with curve := o }) (fun _ => rfl) curve
  have hx : Draft.run { empty kind with curve } (x.toList.map .x) =
      { empty kind with curve, x } :=
    run_optional .x (fun o => { empty kind with curve, x := o }) (fun _ => rfl) x
  have hy : Draft.run { empty kind with curve, x } (y.toList.map .y) =
      { empty kind with curve, x, y } :=
    run_optional .y (fun o => { empty kind with curve, x, y := o }) (fun _ => rfl) y
  have hd : Draft.run { empty kind with curve, x, y } (d.toList.map .d) =
      { empty kind with curve, x, y, d } :=
    run_optional .d (fun o => { empty kind with curve, x, y, d := o }) (fun _ => rfl) d
  have hk : Draft.run { empty kind with curve, x, y, d } (k.toList.map .k) =
      { empty kind with curve, x, y, d, k } :=
    run_optional .k (fun o => { empty kind with curve, x, y, d, k := o }) (fun _ => rfl) k
  have hkeyId : Draft.run { empty kind with curve, x, y, d, k } (keyId.toList.map .keyId) =
      { empty kind with curve, x, y, d, k, keyId } :=
    run_optional .keyId (fun o => { empty kind with curve, x, y, d, k, keyId := o })
      (fun _ => rfl) keyId
  have halgorithm : Draft.run { empty kind with curve, x, y, d, k, keyId }
      (algorithm.toList.map .algorithm) = { empty kind with curve, x, y, d, k, keyId, algorithm } :=
    run_optional .algorithm
      (fun o => { empty kind with curve, x, y, d, k, keyId, algorithm := o })
      (fun _ => rfl) algorithm
  have hbaseIv : Draft.run { empty kind with curve, x, y, d, k, keyId, algorithm }
      (baseIv.toList.map .baseIv) =
        { empty kind with curve, x, y, d, k, keyId, algorithm, baseIv } :=
    run_optional .baseIv
      (fun o => { empty kind with curve, x, y, d, k, keyId, algorithm, baseIv := o })
      (fun _ => rfl) baseIv
  have hoperations : Draft.run { empty kind with curve, x, y, d, k, keyId, algorithm, baseIv }
      (operations.map .addOperation) =
        { empty kind with curve, x, y, d, k, keyId, algorithm, baseIv, operations } :=
    run_operations { empty kind with curve, x, y, d, k, keyId, algorithm, baseIv } rfl operations
      nodup
  obtain ⟨_, hlabels⟩ := run_labels
    { empty kind with curve, x, y, d, k, keyId, algorithm, baseIv, operations } extra.entries
    fun e he => unreserved e.1 (List.mem_map_of_mem he)
  have hextra : extra.entries.foldl (fun m e => m.insert e.1 e.2) LabelMap.empty = extra :=
    extra.ofList_entries
  simp only [steps, run_append]
  rw [hcurve, hx, hy, hd, hk, hkeyId, halgorithm, hbaseIv, hoperations, hlabels]
  simp only [empty, hextra]

/-- Every draft without a usage comes of giving its parameters to an empty one. The key that it
makes is also read from the map of its parameters, and where it makes none the map is refused for
the same reason, unless the draft is hollow. -/
theorem build_agrees_with_map (free : draft.usage = none) :
    (draft.operations.Nodup → (empty draft.kind).run draft.steps = draft) ∧
    (∀ key, draft.build = .ok key → ofMap draft.toMap = .ok key) ∧
    (draft.build = ofMap draft.toMap ↔ ¬draft.Hollow) :=
  ⟨draft.run_steps free, fun _ => ofMap_of_build free, build_eq_ofMap_iff free⟩

/-- An octet key with an empty public part, an operation, and an entry under the label of a
y-coordinate. -/
def octet : Draft :=
  (empty .okp).run [.curve .ed25519, .label (.int (-3)) .null, .x [], .addOperation .sign,
    .d (List.replicate 32 0x07), .keyId []]

theorem build_agrees_with_map_octet :
    octet.usage = none ∧ (∃ key, ofMap octet.toMap = .ok key) ∧
      octet.build = ofMap octet.toMap := by
  have free : octet.usage = none := rfl
  obtain ⟨-, read, agrees⟩ := build_agrees_with_map free
  have solid : ¬octet.Hollow := by
    intro hhollow
    cases hhollow.1
  exact ⟨free, ⟨_, read _ rfl⟩, agrees.mpr solid⟩

/-- An elliptic-curve key of which only the private part is not empty. -/
def unfilled : Draft :=
  (empty .ec2).run [.curve .p256, .x [], .y [], .d (List.replicate 32 0x07)]

/-- The draft is refused, and the map of the same parameters is read. -/
theorem empty_coordinates_refused :
    unfilled.toMap = LabelMap.ofList [(.int 1, .int 2), (.int (-1), .int 1), (.int (-2), .bytes []),
      (.int (-3), .bytes []), (.int (-4), .bytes (List.replicate 32 0x07))] ∧
    unfilled.build = .error (.invalidLength "x" 32 0) ∧
    ∃ key, ofMap unfilled.toMap = .ok key ∧
      key.material = .ec2 .p256 none none (some (List.replicate 32 0x07)) :=
  ⟨rfl, rfl, _, rfl, rfl⟩

end Draft

end Cose.Key
