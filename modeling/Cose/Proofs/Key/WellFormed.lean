import Cose.Operation.Keys
import Cose.Proofs.LabelMap.Grammar
import Cose.Proofs.Session

namespace Cose.Key

/-- A byte string that has a given length if it is there. -/
def Sized (length : Nat) (bs : Option Bytes) : Prop :=
  ∀ b, bs = some b → b.length = length

namespace Material

/-- Parameters that belong together: the curve is one for the type of key, a point has both
coordinates, there is something to use, and everything is as long as the curve demands. -/
inductive WellFormed : Material → Prop
  | ec2 {curve : Curve} {x y d : Option Bytes} (type : curve.keyType = .ec2)
      (whole : x.isSome ↔ y.isSome) (usable : x.isSome ∨ d.isSome)
      (xSized : Sized curve.coordinateLength x) (ySized : Sized curve.coordinateLength y)
      (dSized : Sized curve.coordinateLength d) : WellFormed (.ec2 curve x y d)
  | okp {curve : Curve} {x d : Option Bytes} (type : curve.keyType = .okp)
      (usable : x.isSome ∨ d.isSome) (xSized : Sized curve.coordinateLength x)
      (dSized : Sized curve.coordinateLength d) : WellFormed (.okp curve x d)
  | symmetric {k : Bytes} (nonempty : k ≠ []) : WellFormed (.symmetric k)

theorem checkCurve_eq_ok_iff {curve : Curve} {t : KeyType} :
    checkCurve curve t = .ok () ↔ curve.keyType = t := by
  simp [checkCurve]

theorem checkLength_eq_ok_iff {parameter : String} {curve : Curve} {bs : Option Bytes} :
    checkLength parameter curve bs = .ok () ↔ Sized curve.coordinateLength bs := by
  cases bs <;> simp [checkLength, Sized]

theorem checkPoint_eq_ok_iff {x y d : Option Bytes} :
    checkPoint x y d = .ok () ↔ (x.isSome ↔ y.isSome) ∧ (x.isSome ∨ d.isSome) := by
  cases x <;> cases y <;> cases d <;> simp [checkPoint]

/-- The checks accept exactly the parameters that belong together. -/
theorem check_eq_ok_iff {m : Material} : m.check = .ok () ↔ m.WellFormed := by
  cases m with
  | ec2 curve x y d =>
    simp only [check, bind_unit_eq_ok, checkCurve_eq_ok_iff, checkPoint_eq_ok_iff,
      checkLength_eq_ok_iff]
    constructor
    · intro hform
      obtain ⟨type, ⟨whole, usable⟩, hx, hy, hd⟩ := hform
      exact .ec2 type whole usable hx hy hd
    · intro h
      cases h with
      | ec2 type whole usable hx hy hd => exact ⟨type, ⟨whole, usable⟩, hx, hy, hd⟩
  | okp curve x d =>
    have hcond : (x.isNone && d.isNone) = true ↔ ¬(x.isSome ∨ d.isSome) := by
      cases x <;> cases d <;> simp
    by_cases husable : x.isSome ∨ d.isSome
    · simp only [check, if_neg (fun h => hcond.mp h husable), bind_unit_eq_ok,
        checkCurve_eq_ok_iff, checkLength_eq_ok_iff]
      constructor
      · intro hform
        obtain ⟨type, hx, hd⟩ := hform
        exact .okp type husable hx hd
      · intro h
        cases h with
        | okp type _ hx hd => exact ⟨type, hx, hd⟩
    · constructor
      · intro h
        rw [check, if_pos (hcond.mpr husable)] at h
        obtain ⟨⟨⟩, -, h⟩ := eq_ok_of_bind h
        cases h
      · intro h
        cases h with
        | okp _ usable => exact absurd usable husable
  | symmetric k =>
    cases k with
    | nil =>
      constructor
      · intro h
        cases h
      · intro h
        cases h with
        | symmetric nonempty => exact absurd rfl nonempty
    | cons b bs =>
      constructor
      · intro _
        exact .symmetric (List.cons_ne_nil b bs)
      · intro _
        rfl

end Material

/-- The labels with a meaning, in the order in which they are written, and whether a key has
something to write under them. -/
def layout (key : Key) : List (Int64 × Bool) :=
  [(1, true), (2, key.keyId.isSome), (3, key.algorithm.isSome), (4, !key.operations.isEmpty),
    (5, key.baseIv.isSome), (-1, true), (-2, key.material.x?.isSome),
    (-3, key.material.y?.isSome), (-4, key.material.d?.isSome)]

/-- The labels of the layout that are written. -/
def ownLabels (key : Key) : List Label :=
  (key.layout.filter (·.2)).map fun e => .int e.1

theorem map_bytesEntry (label : Int64) (bs : Option Bytes) :
    (Material.bytesEntry label bs).map (·.1) = if bs.isSome then [.int label] else [] := by
  cases bs <;> rfl

theorem labels_filter_cons (l : Int64) (present : Bool) (es : List (Int64 × Bool)) :
    ((((l, present) :: es).filter (·.2)).map fun e => Label.int e.1) =
      (if present then [.int l] else []) ++ (es.filter (·.2)).map fun e => .int e.1 := by
  cases present <;> rfl

theorem labels_commonEntries (key : Key) : key.commonEntries.map (·.1) =
    [.int 1] ++ ((if key.keyId.isSome then [.int 2] else []) ++
      ((if key.algorithm.isSome then [.int 3] else []) ++
        ((if !key.operations.isEmpty then [.int 4] else []) ++
          if key.baseIv.isSome then [.int 5] else []))) := by
  have algorithm : (key.algorithm.toList.map fun i =>
      ((.int Parameter.algorithm, .int i) : Label × Value)).map (·.1) =
        if key.algorithm.isSome then [.int 3] else [] := by
    cases key.algorithm <;> rfl
  have operations : (if key.operations.isEmpty then []
      else [((.int Parameter.operations, .array (key.operations.map fun op => .int op.id)) :
        Label × Value)]).map (·.1) = if !key.operations.isEmpty then [.int 4] else [] := by
    cases key.operations <;> rfl
  simp only [commonEntries, List.map_append, List.map_cons, map_bytesEntry, algorithm, operations,
    List.append_assoc, List.cons_append]
  rfl

theorem Material.labels_entries (m : Material) : m.entries.map (·.1) =
    [.int (-1)] ++ ((if m.x?.isSome then [.int (-2)] else []) ++
      ((if m.y?.isSome then [.int (-3)] else []) ++
        if m.d?.isSome then [.int (-4)] else [])) := by
  cases m with
  | ec2 curve x y d =>
    simp only [entries, List.map_append, List.map_cons, map_bytesEntry, List.append_assoc,
      List.cons_append]
    rfl
  | okp curve x d =>
    simp only [entries, List.map_append, List.map_cons, map_bytesEntry, List.cons_append]
    rfl
  | symmetric k => rfl

/-- The entries of a key are in the order of the layout, and behind them are the others. -/
theorem labels_entries (key : Key) :
    key.entries.map (·.1) = key.ownLabels ++ key.extra.labels := by
  rw [entries, List.map_append, List.map_append, labels_commonEntries, Material.labels_entries,
    ownLabels, layout]
  simp only [labels_filter_cons, List.filter_nil, List.map_nil, List.append_nil,
    List.append_assoc]
  rfl

/-- The labels that a kind of key interprets besides the common ones. -/
def Kind.interpreted : Kind → List Int64
  | ec2 => [-1, -2, -3, -4]
  | okp => [-1, -2, -4]
  | symmetric => [-1]

theorem Kind.reserves_int_iff {kind : Kind} {i : Int64} : kind.reserves (.int i) = true ↔
    i ∈ ([1, 2, 3, 4, 5] : List Int64) ∨ i ∈ kind.interpreted := by
  have : kind.reserves (.int i) =
      (([1, 2, 3, 4, 5] : List Int64).contains i || kind.interpreted.contains i) := by
    cases kind <;> rfl
  rw [this, Bool.or_eq_true, List.contains_iff_mem, List.contains_iff_mem]

theorem reserves_of_mem_ownLabels {key : Key} {l : Label} (h : l ∈ key.ownLabels) :
    key.material.kind.reserves l = true := by
  obtain ⟨e, he, rfl⟩ := List.mem_map.mp h
  obtain ⟨he, present⟩ := List.mem_filter.mp he
  have table : ∀ e ∈ key.layout, e.2 = true →
      e.1 ∈ ([1, 2, 3, 4, 5] : List Int64) ∨ e.1 ∈ key.material.kind.interpreted := by
    rw [layout]
    cases key.material <;>
      simp [Material.kind, Kind.interpreted, Material.x?, Material.y?, Material.d?]
  exact Kind.reserves_int_iff.mpr (table e he present)

theorem nodup_ownLabels (key : Key) : key.ownLabels.Nodup := by
  have hall : (key.layout.map (·.1)).Nodup := by
    show ([1, 2, 3, 4, 5, -1, -2, -3, -4] : List Int64).Nodup
    decide
  have hsub : ((key.layout.filter (·.2)).map (·.1)).Nodup :=
    hall.sublist (List.filter_sublist.map _)
  have hmap : (((key.layout.filter (·.2)).map (·.1)).map Label.int).Nodup :=
    List.Pairwise.map Label.int (fun _ _ hne heq => hne (Label.int.inj heq)) hsub
  rwa [List.map_map] at hmap

theorem nodup_labels (m : LabelMap) : m.labels.Nodup :=
  m.ascending.map _ fun _ _ h => Label.ne_of_lt h

theorem nodup_labels_entries (key : Key) : (key.entries.map (·.1)).Nodup := by
  rw [labels_entries]
  refine List.nodup_append.mpr ⟨key.nodup_ownLabels, nodup_labels key.extra, ?_⟩
  intro l hl l' hl' heq
  have hfree := key.unreserved l' hl'
  rw [← heq, reserves_of_mem_ownLabels hl] at hfree
  cases hfree

/-- A key whose parameters belong together and are not empty, whose other entries are under labels
without a meaning, and in which no label is written twice. -/
structure WellFormed (key : Key) : Prop where
  material : key.material.WellFormed
  nonempty : ∀ bs, key.material.x? = some bs ∨ key.material.y? = some bs ∨
    key.material.d? = some bs ∨ key.material.k? = some bs → bs ≠ []
  extra : ∀ i : Int64, .int i ∈ key.extra.labels →
    i ∉ ([1, 2, 3, 4, 5] : List Int64) ∧ i ∉ key.material.kind.interpreted
  nodup : (key.entries.map (·.1)).Nodup

theorem Material.WellFormed.x?_or_d? {m : Material} {curve : Curve} (h : m.WellFormed)
    (on : m.curve? = some curve) : m.x?.isSome ∨ m.d?.isSome := by
  cases h with
  | ec2 _ _ usable => exact usable
  | okp _ usable => exact usable
  | symmetric => cases on

theorem Sized.ne_nil {curve : Curve} {o : Option Bytes} {bs : Bytes}
    (h : Sized curve.coordinateLength o) (hbs : o = some bs) : bs ≠ [] := by
  intro hnil
  have hlength := h bs hbs
  have hpos := curve.coordinateLength_pos
  rw [hnil, List.length_nil] at hlength
  omega

theorem Material.WellFormed.ne_nil {m : Material} {bs : Bytes} (h : m.WellFormed)
    (hbs : m.x? = some bs ∨ m.y? = some bs ∨ m.d? = some bs ∨ m.k? = some bs) : bs ≠ [] := by
  cases h with
  | ec2 _ _ _ xSized ySized dSized =>
    obtain hx | hy | hd | hk := hbs
    · exact xSized.ne_nil hx
    · exact ySized.ne_nil hy
    · exact dSized.ne_nil hd
    · cases hk
  | okp _ _ xSized dSized =>
    obtain hx | hy | hd | hk := hbs
    · exact xSized.ne_nil hx
    · cases hy
    · exact dSized.ne_nil hd
    · cases hk
  | symmetric nonempty =>
    obtain hx | hy | hd | hk := hbs
    · cases hx
    · cases hy
    · cases hd
    · cases hk
      exact nonempty

/-- The rules that a key carries are those that make it well-formed. -/
theorem wellFormed (key : Key) : key.WellFormed where
  material := Material.check_eq_ok_iff.mp key.sound
  nonempty := fun _ => (Material.check_eq_ok_iff.mp key.sound).ne_nil
  extra := by
    intro i hi
    have hfree : ¬key.material.kind.reserves (.int i) = true := by
      simp [key.unreserved _ hi]
    rwa [Kind.reserves_int_iff, not_or] at hfree
  nodup := key.nodup_labels_entries

/-- The keys that come about: read from bytes or from a map, built from any parameters given one
after the other to an empty draft or to that of a key, made public, or newly generated, whatever the
provider answers. -/
inductive Obtained : Key → Prop
  | decoded {bs : Bytes} {key : Key} (h : decode bs = .ok key) : Obtained key
  | interpreted {m : LabelMap} {key : Key} (h : ofMap m = .ok key) : Obtained key
  | built {kind : Kind} {steps : List Draft.Step} {key : Key}
      (h : ((Draft.empty kind).run steps).build = .ok key) : Obtained key
  | rebuilt {kind : Kind} {source key : Key} {draft : Draft} {steps : List Draft.Step}
      (obtained : Obtained source) (seed : Draft.ofKeyOfKind kind source = .ok draft)
      (h : (draft.run steps).build = .ok key) : Obtained key
  | published {p : Provider} {source key : Key} (obtained : Obtained source)
      (h : (source.toPublic p).outcome = .ok key) : Obtained key
  | generatedEc2 {p : Provider} {curve : Curve} {key : Key}
      (h : (generateEc2 p curve).outcome = .ok key) : Obtained key
  | generatedOkp {p : Provider} {curve : Curve} {key : Key}
      (h : (generateOkp p curve).outcome = .ok key) : Obtained key
  | generatedSymmetric {p : Provider} {alg : Algorithm} {key : Key}
      (h : (generateSymmetric p alg).outcome = .ok key) : Obtained key

/-- Every key that comes about is well-formed. -/
theorem wellFormed_of_obtained {key : Key} : key.Obtained → key.WellFormed := by
  intro _
  exact key.wellFormed

/-- The private key of a signature pair. -/
def privateOctet : Key where
  keyId := some []
  algorithm := none
  operations := [.sign]
  baseIv := none
  material := .okp .ed25519 none (some (List.replicate 32 0x07))
  extra := .empty
  sound := rfl
  unreserved := fun _ h => nomatch h

/-- The same key with an entry under the label of a y-coordinate, which octet keys do not have. -/
def labelledOctet : Key :=
  { privateOctet with
    extra := LabelMap.empty.insert (.int (-3)) .null
    unreserved := by decide }

theorem wellFormed_of_obtained_labelledOctet :
    labelledOctet.Obtained ∧ labelledOctet.WellFormed := by
  have built : ((Draft.empty .okp).run [.label (.int (-2)) .null, .x [], .usage .signing,
      .keyId [], .addOperation .sign, .addOperation .encrypt, .curve .ed25519,
      .d (List.replicate 32 0x07)]).build = .ok privateOctet := rfl
  have seed : Draft.ofKeyOfKind .okp privateOctet = .ok (Draft.ofKey privateOctet) := rfl
  have rebuilt : ((Draft.ofKey privateOctet).run [.label (.int (-3)) .null]).build =
      .ok labelledOctet := rfl
  have obtained : labelledOctet.Obtained := .rebuilt (.built built) seed rebuilt
  exact ⟨obtained, wellFormed_of_obtained obtained⟩

end Cose.Key
