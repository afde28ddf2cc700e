import Cose.Provider.Software
import Cose.Proofs.Key.RoundTrip
import Cose.Proofs.Operation.Verification

namespace Cose.Key

namespace Material

/-- The parameters without the private one. -/
def withoutPrivate : Material → Material
  | ec2 curve x y _ => ec2 curve x y none
  | okp curve x _ => okp curve x none
  | symmetric k => symmetric k

theorem d?_publish (m : Material) (point : PublicPoint) : (m.publish point).d? = none := by
  cases m <;> rfl

theorem k?_publish (m : Material) (point : PublicPoint) : (m.publish point).k? = m.k? := by
  cases m <;> rfl

theorem curve?_publish (m : Material) (point : PublicPoint) :
    (m.publish point).curve? = m.curve? := by
  cases m <;> rfl

theorem x?_publish {m : Material} {curve : Curve} (on : m.curve? = some curve)
    (point : PublicPoint) : (m.publish point).x? = some point.x := by
  cases m with
  | ec2 => rfl
  | okp => rfl
  | symmetric => cases on

/-- Of a point that is published on another curve than one of prime order, only x is kept. -/
theorem y?_publish (m : Material) (point : PublicPoint) :
    (m.publish point).y? = if m.kind.keyType = .ec2 then point.y else none := by
  cases m <;> rfl

theorem y?_publish_of_eq {m : Material} {point : PublicPoint} (h : m.y? = point.y) :
    (m.publish point).y? = m.y? := by
  cases m with
  | ec2 => exact h.symm
  | okp => rfl
  | symmetric => rfl

/-- To publish the point that is there already is to leave out the private part. -/
theorem publish_own {m : Material} {x : Bytes} (hx : m.x? = some x) :
    m.publish ⟨x, m.y?⟩ = m.withoutPrivate := by
  cases m with
  | ec2 curve x' y d =>
    obtain rfl : x' = some x := hx
    rfl
  | okp curve x' d =>
    obtain rfl : x' = some x := hx
    rfl
  | symmetric => rfl

theorem withoutPrivate_publish (m : Material) (point : PublicPoint) :
    (m.publish point).withoutPrivate = m.publish point := by
  cases m <;> rfl

theorem x?_withoutPrivate (m : Material) : m.withoutPrivate.x? = m.x? := by
  cases m <;> rfl

theorem sized_none (length : Nat) : Sized length none := by
  intro b hb
  cases hb

/-- Without the private part parameters still belong together if there is a public part. -/
theorem WellFormed.withoutPrivate {m : Material} (h : m.WellFormed) (hx : m.x?.isSome) :
    m.withoutPrivate.WellFormed := by
  cases h with
  | ec2 type whole _ xSized ySized =>
    exact .ec2 type whole (.inl hx) xSized ySized (sized_none _)
  | okp type _ xSized => exact .okp type (.inl hx) xSized (sized_none _)
  | symmetric nonempty => exact .symmetric nonempty

theorem curve?_of_x? {m : Material} {x : Bytes} (hx : m.x? = some x) :
    ∃ curve, m.curve? = some curve := by
  cases m with
  | ec2 curve => exact ⟨curve, rfl⟩
  | okp curve => exact ⟨curve, rfl⟩
  | symmetric => cases hx

end Material

/-- Keys that have everything in common but the parameters particular to their kind. -/
structure SharesCommon (key other : Key) : Prop where
  keyId : key.keyId = other.keyId
  algorithm : key.algorithm = other.algorithm
  operations : key.operations = other.operations
  baseIv : key.baseIv = other.baseIv
  extra : key.extra = other.extra

namespace SharesCommon

variable {key other third : Key}

theorem symm (h : key.SharesCommon other) : other.SharesCommon key :=
  ⟨h.keyId.symm, h.algorithm.symm, h.operations.symm, h.baseIv.symm, h.extra.symm⟩

theorem trans (h : key.SharesCommon other) (h' : other.SharesCommon third) :
    key.SharesCommon third where
  keyId := h.keyId.trans h'.keyId
  algorithm := h.algorithm.trans h'.algorithm
  operations := h.operations.trans h'.operations
  baseIv := h.baseIv.trans h'.baseIv
  extra := h.extra.trans h'.extra

theorem eq (h : key.SharesCommon other) (hmaterial : key.material = other.material) :
    key = other := by
  obtain ⟨keyId, algorithm, operations, baseIv, material, extra⟩ := key
  obtain ⟨hkeyId, halgorithm, hoperations, hbaseIv, hextra⟩ := h
  subst hkeyId halgorithm hoperations hbaseIv hextra hmaterial
  rfl

end SharesCommon

/-- Keys that differ in nothing but their private part, which each of them may have or not. -/
structure DiffersInPrivate (key other : Key) : Prop extends key.SharesCommon other where
  material : key.material.withoutPrivate = other.material.withoutPrivate

section

variable {p : Provider} {key pub : Key} {curve : Curve} {calls : List Call} {x : Bytes}

/-- A key made public has the public part instead of the parameters, and all else in common. -/
theorem toPublic_eq_ok (h : key.toPublic p = ⟨calls, .ok pub⟩) :
    ∃ curve point, key.curve? = some curve ∧
      key.publicPoint p curve "x or d" = ⟨calls, .ok point⟩ ∧
      pub.SharesCommon key ∧ pub.material = key.material.publish point := by
  unfold toPublic at h
  split at h
  next => cases h
  next curve on =>
    obtain ⟨front, point, rest, hpoint, hrest, rfl⟩ := Session.bind_eq_ok h
    obtain ⟨hmake, rfl⟩ := Session.ofExcept_eq_ok hrest
    obtain ⟨-, rfl⟩ := eq_of_make (eq_ok_of_mapError (f := Error.key) hmake)
    rw [List.append_nil]
    exact ⟨curve, point, on, hpoint, ⟨rfl, rfl, rfl, rfl, rfl⟩, rfl⟩

theorem keyType_of_publish {point : PublicPoint}
    (h : pub.material = key.material.publish point) : pub.keyType = key.keyType := by
  rw [keyType, h, Material.kind_publish, keyType]

theorem curve?_of_publish {point : PublicPoint}
    (h : pub.material = key.material.publish point) : pub.curve? = key.curve? := by
  rw [curve?, h, Material.curve?_publish, curve?]

/-- A key that carries its public part is made public without a call. -/
theorem toPublic_of_x? (hx : key.material.x? = some x) (p : Provider) :
    ∃ pub, key.toPublic p = ⟨[], .ok pub⟩ ∧ pub.SharesCommon key ∧
      pub.material = key.material.withoutPrivate := by
  obtain ⟨curve, on⟩ := Material.curve?_of_x? hx
  have hsome : key.material.x?.isSome := by rw [hx]; rfl
  have sound : (key.material.publish ⟨x, key.material.y?⟩).check = .ok () := by
    rw [Material.publish_own hx]
    exact Material.check_eq_ok_iff.mpr (key.wellFormed.material.withoutPrivate hsome)
  have on : key.curve? = some curve := on
  unfold toPublic
  simp only [on, publicPoint_of_x? hx, pure_bind, make_eq_ok sound]
  exact ⟨_, rfl, ⟨rfl, rfl, rfl, rfl, rfl⟩, Material.publish_own hx⟩

/-- Of keys that carry a public part the private part has no influence on what becomes public. -/
theorem toPublic_eq_of_differsInPrivate {other : Key} (h : key.DiffersInPrivate other)
    (hx : key.material.x? = some x) (p q : Provider) : key.toPublic p = other.toPublic q := by
  have hx' : other.material.x? = some x := by
    rw [← hx, ← Material.x?_withoutPrivate, ← h.material, Material.x?_withoutPrivate]
  obtain ⟨pub, hpub, hcommon, hmaterial⟩ := toPublic_of_x? hx p
  obtain ⟨pub', hpub', hcommon', hmaterial'⟩ := toPublic_of_x? hx' q
  have hshared : pub.SharesCommon pub' :=
    (hcommon.trans h.toSharesCommon).trans hcommon'.symm
  rw [hpub, hpub', hshared.eq (hmaterial.trans (h.material.trans hmaterial'.symm))]

/-- Under its label stands the private part, and nothing without one. -/
theorem get?_toMap_d (on : key.curve? = some curve) :
    key.toMap.get? (.int Parameter.d) = key.material.d?.map .bytes := by
  have interpreted : Parameter.d ∈ key.material.kind.interpreted := by
    rw [curve?] at on
    cases hm : key.material with
    | ec2 => simp [Material.kind, Kind.interpreted, Parameter.d]
    | okp => simp [Material.kind, Kind.interpreted, Parameter.d]
    | symmetric =>
      rw [hm] at on
      cases on
  obtain ⟨-, -, -, -, hd⟩ := key.material.lookup_entries
  exact (get?_toMap_material key Parameter.d interpreted).trans hd

theorem not_mem_labels_entries {l : Label} (h : key.toMap.get? l = none) :
    l ∉ key.entries.map (·.1) := by
  rw [toMap, LabelMap.get?_ofList key.nodup_labels_entries] at h
  exact LabelMap.lookup_eq_none_iff.mp h

end

/-- What a key is made public as. It has a public part and no private one, neither in itself nor in
what is written of it, and agrees with the key in all else. The public part is the key's own or, if
the key has none, the provider's answer to one call. To make it public once more changes nothing. -/
structure Publication (p : Provider) (key pub : Key) : Prop extends pub.SharesCommon key where
  keyType : pub.keyType = key.keyType
  curve : pub.curve? = key.curve?
  x : pub.material.x?.isSome
  d : pub.material.d? = none
  unwritten : .int (-4) ∉ pub.entries.map (·.1)
  unread : pub.encode.length < 2 ^ 64 →
    ∃ m, Value.Written pub.encode (.map m) ∧ m.get? (.int (-4)) = none
  own : ∀ x, key.material.x? = some x → (key.toPublic p).calls = [] ∧
    pub.material.x? = some x ∧ pub.material.y? = key.material.y?
  derived : key.material.x? = none → ∃ curve d point, key.curve? = some curve ∧
    key.material.d? = some d ∧ (key.toPublic p).calls = [.derivePublic curve d] ∧
    p.reply (.derivePublic curve d) = .ok point ∧ pub.material.x? = some point.x ∧
    pub.material.y? = if key.keyType = .ec2 then point.y else none
  settled : ∀ q : Provider, pub.toPublic q = ⟨[], .ok pub⟩

theorem publication_of_toPublic {p : Provider} {key pub : Key}
    (h : (key.toPublic p).outcome = .ok pub) : Publication p key pub := by
  obtain ⟨curve, point, on, hpoint, hcommon, hmaterial⟩ := toPublic_eq_ok (Session.eq_of_outcome h)
  have hx : pub.material.x? = some point.x := by
    rw [hmaterial, Material.x?_publish on]
  have hd : pub.material.d? = none := by
    rw [hmaterial, Material.d?_publish]
  have hcurve := curve?_of_publish hmaterial
  have hget : pub.toMap.get? (.int (-4)) = none := by
    rw [← Parameter.d, get?_toMap_d (hcurve.trans on), hd]
    rfl
  refine { hcommon with
    keyType := keyType_of_publish hmaterial, curve := hcurve, x := ?_, d := hd
    unwritten := not_mem_labels_entries hget, unread := ?_, own := ?_, derived := ?_
    settled := ?_ }
  · rw [hx]
    rfl
  · intro fits
    exact ⟨pub.toMap, LabelMap.written_ofList_of_fits pub.nodup_labels_entries fits, hget⟩
  · intro x own
    rcases publicPoint_eq_ok hpoint with ⟨hcalls, hown, hy⟩ | ⟨absent, -⟩
    · refine ⟨hcalls, by rw [hx, ← hown, own], ?_⟩
      rw [hmaterial, Material.y?_publish_of_eq hy]
    · rw [own] at absent
      cases absent
  · intro absent
    rcases publicPoint_eq_ok hpoint with ⟨-, hown, -⟩ | ⟨-, d, hd, hcalls, reply⟩
    · rw [absent] at hown
      cases hown
    · refine ⟨curve, d, point, on, hd, hcalls, reply, hx, ?_⟩
      rw [hmaterial, Material.y?_publish, keyType]
  · -- What is public has a public part of its own, for which no provider is asked.
    intro q
    obtain ⟨again, hagain, hcommon', hmaterial'⟩ := toPublic_of_x? hx q
    have hsame : again.material = pub.material := by
      rw [hmaterial', hmaterial, Material.withoutPrivate_publish]
    rw [hagain, hcommon'.eq hsame]

/-- Nothing private is published, and nothing else is changed: whatever a key is made public as is
its publication, keys with a public part that differ in their private part only are made public as
the same key and without a call, and symmetric keys have nothing to be made public. -/
theorem private_part_not_published (p : Provider) (key : Key) :
    (∀ pub, (key.toPublic p).outcome = .ok pub → Publication p key pub) ∧
    (key.material.x?.isSome → ∃ pub, key.toPublic p = ⟨[], .ok pub⟩ ∧
      ∀ (q : Provider) (other : Key), key.DiffersInPrivate other →
        other.toPublic q = ⟨[], .ok pub⟩) ∧
    (key.keyType = .symmetric →
      key.toPublic p = ⟨[], .error (.key (.noPublicKey .symmetric))⟩) := by
  refine ⟨fun pub => publication_of_toPublic, ?_, ?_⟩
  · intro hsome
    obtain ⟨x, hx⟩ := Option.isSome_iff_exists.mp hsome
    obtain ⟨pub, hpub, -⟩ := toPublic_of_x? hx p
    refine ⟨pub, hpub, ?_⟩
    intro q other differs
    rw [← toPublic_eq_of_differsInPrivate differs hx p q, hpub]
  · intro symmetric
    have hcurve : key.curve? = none := by
      rw [keyType] at symmetric
      rw [curve?]
      cases hm : key.material with
      | symmetric => rfl
      | ec2 | okp =>
        rw [hm] at symmetric
        cases symmetric
    rw [toPublic, hcurve, symmetric]
    rfl

/-- A key pair for octets, with an entry under the label of a y-coordinate. -/
def octetPair : Key :=
  { labelledOctet with
    material := .okp .ed25519 (some (List.replicate 32 0x2a)) (some (List.replicate 32 0x07))
    sound := rfl }

/-- The same key without its private part. -/
def octetPublic : Key :=
  { octetPair with
    material := .okp .ed25519 (some (List.replicate 32 0x2a)) none
    sound := rfl }

theorem octetPair_differsInPrivate : octetPair.DiffersInPrivate octetPublic :=
  ⟨⟨rfl, rfl, rfl, rfl, rfl⟩, rfl⟩

theorem private_part_not_published_software :
    (∃ pub, (SigningKey.privateOnly.key.toPublic (Software.provider .fixed fun _ => [])).outcome =
        .ok pub ∧
      Publication (Software.provider .fixed fun _ => []) SigningKey.privateOnly.key pub) ∧
    octetPair.toPublic .accepting = octetPublic.toPublic (Software.provider .der fun _ => []) ∧
    MacKey.restricted.key.toPublic .accepting =
      ⟨[], .error (.key (.noPublicKey .symmetric))⟩ := by
  refine ⟨?_, ?_, (private_part_not_published .accepting MacKey.restricted.key).2.2 rfl⟩
  · have hok : (SigningKey.privateOnly.key.toPublic
        (Software.provider .fixed fun _ => [])).outcome.isOk = true := by
      decide +kernel
    obtain ⟨pub, hpub⟩ := Session.exists_of_isOk hok
    exact ⟨pub, hpub, (private_part_not_published _ _).1 pub hpub⟩
  · obtain ⟨pub, hpub, hall⟩ := (private_part_not_published .accepting octetPair).2.1 rfl
    rw [hpub, hall _ _ octetPair_differsInPrivate]

end Cose.Key
