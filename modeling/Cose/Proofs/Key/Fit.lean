import Cose.Key.Fit
import Cose.Key.Role
import Cose.Operation.PublicKey
import Cose.Proofs.Key.WellFormed

namespace Cose.Key

variable {key : Key} {alg : Algorithm} {op : KeyOperation} {curve : Curve}

/-- The key does not stand against the algorithm and the operation: it declares no algorithm or this
one, and no operations or this one among them. -/
structure Allows (key : Key) (alg : Algorithm) (op : KeyOperation) : Prop where
  algorithm : key.algorithm = none ∨ key.algorithm = some alg.id
  operation : key.operations = [] ∨ op ∈ key.operations

/-- The key is one for the algorithm: of one of its types, on one of its curves if on any, and as
long as it demands. -/
structure Suits (key : Key) (alg : Algorithm) : Prop where
  keyType : key.keyType ∈ alg.spec.keyTypes
  curve : ∀ curve, key.curve? = some curve → curve ∈ alg.spec.curves
  length : ∀ n k, alg.spec.keyLength = some n → key.material.k? = some k → k.length = n

theorem checkDeclared_eq_ok_iff :
    key.checkDeclared alg = .ok () ↔ key.algorithm = none ∨ key.algorithm = some alg.id := by
  unfold checkDeclared
  cases key.algorithm <;> simp

theorem checkOperation_eq_ok_iff :
    key.checkOperation op = .ok () ↔ key.operations = [] ∨ op ∈ key.operations := by
  simp [checkOperation, Classical.or_iff_not_imp_left]

theorem misfit?_eq_none_iff : key.misfit? alg = none ↔ key.Suits alg := by
  unfold misfit?
  split
  next htype =>
    have hnot : key.keyType ∉ alg.spec.keyTypes := by simpa using htype
    constructor
    · intro h
      cases h
    · intro suits
      exact absurd suits.keyType hnot
  next htype =>
    have hmem : key.keyType ∈ alg.spec.keyTypes := by simpa using htype
    split
    next curve hcurve =>
      have hform : key.curve? = some curve ∧ curve ∉ alg.spec.curves := by
        simpa [Option.filter_eq_some_iff] using hcurve
      obtain ⟨on, hnot⟩ := hform
      constructor
      · intro h
        cases h
      · intro suits
        exact absurd (suits.curve curve on) hnot
    next hcurve =>
      have hcurves : ∀ curve, key.curve? = some curve → curve ∈ alg.spec.curves := by
        simpa [Option.filter_eq_none_iff] using hcurve
      split
      next n k hn hk =>
        constructor
        · intro h
          split at h
          next hlength =>
            refine ⟨hmem, hcurves, ?_⟩
            intro n' k' hn' hk'
            cases hn.symm.trans hn'
            cases hk.symm.trans hk'
            exact hlength
          next => cases h
        · intro suits
          exact if_pos (suits.length n k hn hk)
      next hnone =>
        constructor
        · intro _
          exact ⟨hmem, hcurves, fun n k hn hk => absurd hk (hnone n k hn)⟩
        · intro _
          rfl

theorem checkSuited_eq_ok_iff : key.checkSuited alg = .ok () ↔ key.Suits alg := by
  rw [← misfit?_eq_none_iff, checkSuited]
  cases key.misfit? alg <;> simp

theorem checkFor_eq_ok_iff :
    key.checkFor alg op = .ok () ↔ key.Allows alg op ∧ key.Suits alg := by
  simp only [checkFor, bind_unit_eq_ok, checkDeclared_eq_ok_iff, checkSuited_eq_ok_iff,
    checkOperation_eq_ok_iff]
  constructor
  · intro hform
    obtain ⟨algorithm, suits, operation⟩ := hform
    exact ⟨⟨algorithm, operation⟩, suits⟩
  · intro hform
    obtain ⟨⟨algorithm, operation⟩, suits⟩ := hform
    exact ⟨algorithm, suits, operation⟩

theorem eq_some_of_required {α : Type} {parameter : String} {o : Option α} {a : α}
    (h : required parameter o = .ok a) : o = some a := by
  cases o with
  | none => cases h
  | some b =>
    cases h
    rfl

theorem requiredCurve_eq_ok_iff : key.requiredCurve = .ok curve ↔ key.curve? = some curve := by
  rw [requiredCurve]
  cases key.curve? <;> simp

/-- A public part is the one that the key carries or the answer to one call. -/
theorem publicPoint_eq_ok {p : Provider} {missing : String} {calls : List Call}
    {point : PublicPoint} (h : key.publicPoint p curve missing = ⟨calls, .ok point⟩) :
    (calls = [] ∧ key.material.x? = some point.x ∧ key.material.y? = point.y) ∨
      (key.material.x? = none ∧ ∃ d, key.material.d? = some d ∧
        calls = [.derivePublic curve d] ∧ p.reply (.derivePublic curve d) = .ok point) := by
  unfold publicPoint at h
  split at h
  next x hx =>
    cases h
    exact .inl ⟨rfl, hx, rfl⟩
  next absent =>
    obtain ⟨d, hd, h⟩ := Session.bind_mapError_eq_ok h
    obtain ⟨reply, hcalls⟩ := Session.ask_eq_ok h
    exact .inr ⟨absent, d, eq_some_of_required hd, hcalls, reply⟩

/-- A key on a curve has one of its two parts, so it makes no difference what is called missing. -/
theorem publicPoint_eq (on : key.curve? = some curve) (p : Provider) (missing other : String) :
    key.publicPoint p curve missing = key.publicPoint p curve other := by
  have usable : key.material.x?.isSome ∨ key.material.d?.isSome :=
    key.wellFormed.material.x?_or_d? on
  cases hx : key.material.x? with
  | some x => rw [publicPoint_of_x? hx, publicPoint_of_x? hx]
  | none =>
    cases hd : key.material.d? with
    | some d => rw [publicPoint, publicPoint, hd, required, required]
    | none =>
      rw [hx, hd] at usable
      rcases usable with h | h <;> cases h

/-- The private part of a key, as long as the coordinates of the curve on which the key lies. -/
structure Scalar (key : Key) (curve : Curve) (d : Bytes) : Prop where
  on : key.curve? = some curve
  carried : key.material.d? = some d
  length : d.length = curve.coordinateLength

/-- The public part that a key on a curve carries: its x-coordinate is as long as the curve's
coordinates, and so is the y-coordinate, which is there exactly on curves of prime order. -/
structure Point (key : Key) (curve : Curve) (point : PublicPoint) : Prop where
  on : key.curve? = some curve
  x : key.material.x? = some point.x
  y : key.material.y? = point.y
  xLength : point.x.length = curve.coordinateLength
  yLength : Sized curve.coordinateLength point.y
  whole : point.y.isSome ↔ curve.keyType = .ec2

namespace Material.WellFormed

variable {m : Material}

theorem sized_d? (h : m.WellFormed) (on : m.curve? = some curve) :
    Sized curve.coordinateLength m.d? := by
  cases h with
  | ec2 _ _ _ _ _ dSized =>
    cases on
    exact dSized
  | okp _ _ _ dSized =>
    cases on
    exact dSized
  | symmetric => cases on

theorem sized_x? (h : m.WellFormed) (on : m.curve? = some curve) :
    Sized curve.coordinateLength m.x? := by
  cases h with
  | ec2 _ _ _ xSized =>
    cases on
    exact xSized
  | okp _ _ xSized =>
    cases on
    exact xSized
  | symmetric => cases on

theorem sized_y? (h : m.WellFormed) (on : m.curve? = some curve) :
    Sized curve.coordinateLength m.y? := by
  cases h with
  | ec2 _ _ _ _ ySized =>
    cases on
    exact ySized
  | okp =>
    intro _ hy
    cases hy
  | symmetric => cases on

theorem isSome_y?_iff (h : m.WellFormed) (on : m.curve? = some curve) (hx : m.x?.isSome) :
    m.y?.isSome ↔ curve.keyType = .ec2 := by
  cases h with
  | ec2 type whole =>
    cases on
    exact iff_of_true (whole.mp hx) type
  | okp type =>
    cases on
    simp [y?, type]
  | symmetric => cases on

end Material.WellFormed

theorem scalar_of_d? {d : Bytes} (on : key.curve? = some curve) (hd : key.material.d? = some d) :
    key.Scalar curve d := by
  exact ⟨on, hd, key.wellFormed.material.sized_d? on d hd⟩

theorem point_of_x? {x : Bytes} (on : key.curve? = some curve) (hx : key.material.x? = some x) :
    key.Point curve ⟨x, key.material.y?⟩ := by
  have hmaterial := key.wellFormed.material
  have hsome : key.material.x?.isSome := by rw [hx]; rfl
  exact ⟨on, hx, rfl, hmaterial.sized_x? on x hx, hmaterial.sized_y? on,
    hmaterial.isSome_y?_iff on hsome⟩

theorem ne_nil_of_k? {k : Bytes} (hk : key.material.k? = some k) : k ≠ [] := by
  exact key.wellFormed.nonempty k (.inr (.inr (.inr hk)))

end Cose.Key

namespace Cose

namespace KeyUsage

theorem accepts_incomplete_iff {u : KeyUsage} {ops : List KeyOperation} :
    u.accepts ops false = true ↔ ∀ op ∈ ops, u.permits op = true := by
  simp [accepts]

/-- A list that is complete has to name all operations of a joint usage if it names any. -/
theorem accepts_complete_iff {u : KeyUsage} {ops : List KeyOperation} :
    u.accepts ops true = true ↔ (∀ op ∈ ops, u.permits op = true) ∧
      (u.joint = true → ops ≠ [] → ∀ op ∈ u.operations, op ∈ ops) := by
  cases hj : u.joint with
  | false => simp [accepts, hj]
  | true =>
    by_cases hops : ops = []
    · simp [accepts, hops]
    · simp [accepts, hj, hops]

theorem permits_iff {u : KeyUsage} {op : KeyOperation} :
    u.permits op = true ↔ op ∈ u.operations :=
  List.contains_iff_mem

end KeyUsage

namespace Key

theorem checkOperations_eq_ok_iff {u : KeyUsage} {ops : List KeyOperation} {complete : Bool} :
    checkOperations u ops complete = .ok () ↔ u.accepts ops complete = true := by
  simp [checkOperations]

theorem checkUsage_eq_ok_iff {key : Key} {u : KeyUsage} : key.checkUsage u = .ok () ↔
    u.supports key.keyType key.curve? = true ∧
      (∀ op ∈ key.operations, u.permits op = true) ∧
      (u.joint = true → key.operations ≠ [] → ∀ op ∈ u.operations, op ∈ key.operations) := by
  rw [← KeyUsage.accepts_complete_iff, ← checkOperations_eq_ok_iff, checkUsage]
  split
  next h => simp [h]
  next h => simp [h]

end Key

theorem RoleKey.supports {usage : KeyUsage} (key : RoleKey usage) :
    usage.supports key.key.keyType key.key.curve? = true :=
  (Key.checkUsage_eq_ok_iff.mp key.fits).1

theorem KeyUsage.agrees_of_supports {t : KeyType} {curve : Curve}
    (h : keyAgreement.supports t (some curve) = true) : curve.agrees = true := by
  cases t <;> simp_all [supports]

/-- A key for key agreement lies on a curve on which keys can agree. -/
theorem RoleKey.agrees_of_curve? {key : AgreementKey} {curve : Curve}
    (on : key.key.curve? = some curve) : curve.agrees = true := by
  have hsupports := key.supports
  rw [on] at hsupports
  exact KeyUsage.agrees_of_supports hsupports

end Cose
