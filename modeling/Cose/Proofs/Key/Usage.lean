import Cose.Proofs.Key.Agreement
import Cose.Proofs.Key.Fit
import Cose.Proofs.Run

namespace Cose

namespace RoleKey

variable {u : KeyUsage} {key : Key}

theorem ofKey_eq_ok_iff {role : RoleKey u} : ofKey u key = .ok role ↔ role.key = key := by
  unfold ofKey
  constructor
  · intro h
    split at h
    next =>
      cases h
      rfl
    next => cases h
  · rintro rfl
    split
    next => rfl
    next e he =>
      rw [role.fits] at he
      cases he

theorem exists_ofKey_iff :
    (∃ role, ofKey u key = .ok role ∧ role.key = key) ↔ key.checkUsage u = .ok () := by
  constructor
  · intro hform
    obtain ⟨role, -, rfl⟩ := hform
    exact role.fits
  · intro h
    exact ⟨⟨key, h⟩, ofKey_eq_ok_iff.mpr rfl, rfl⟩

/-- A key of a joint usage can be used for each of its operations. -/
theorem checkOperation_of_joint {role : RoleKey u} (h : ofKey u key = .ok role)
    (joint : u.joint = true) {op : KeyOperation} (hop : op ∈ u.operations) :
    key.checkOperation op = .ok () := by
  obtain rfl := ofKey_eq_ok_iff.mp h
  obtain ⟨-, -, together⟩ := Key.checkUsage_eq_ok_iff.mp role.fits
  rw [Key.checkOperation_eq_ok_iff]
  by_cases hnone : role.key.operations = []
  · exact .inl hnone
  · exact .inr (together joint hnone op hop)

/-- A key declares no operation outside the usage that it serves. -/
theorem mem_operations {role : RoleKey u} (h : ofKey u key = .ok role) {op : KeyOperation}
    (hop : op ∈ key.operations) : op ∈ u.operations := by
  obtain rfl := ofKey_eq_ok_iff.mp h
  obtain ⟨-, permitted, -⟩ := Key.checkUsage_eq_ok_iff.mp role.fits
  exact KeyUsage.permits_iff.mp (permitted op hop)

end RoleKey

namespace Key.Draft

variable {draft draft' : Draft}

theorem attempt_eq_next (draft : Draft) (s : Step) : draft.attempt s = Run.next apply draft s := by
  rw [attempt, Run.next]
  cases draft.apply s <;> rfl

theorem foldlM_accepted (draft : Draft) (steps : List Step) :
    (Run.accepted apply draft steps).foldlM apply draft = .ok (draft.run steps) :=
  Run.foldlM_accepted attempt_eq_next draft steps

theorem apply_usage_eq_ok_iff {u : KeyUsage} : draft.apply (.usage u) = .ok draft' ↔
    (∀ op ∈ draft.operations, u.permits op = true) ∧
      draft' = { draft with usage := some u } := by
  rw [← KeyUsage.accepts_incomplete_iff, ← checkOperations_eq_ok_iff]
  constructor
  · intro h
    obtain ⟨⟨⟩, hcheck, h⟩ := eq_ok_of_bind h
    cases h
    exact ⟨hcheck, rfl⟩
  · intro hform
    obtain ⟨hcheck, rfl⟩ := hform
    rw [apply, hcheck]
    rfl

/-- An operation that is there already is not looked at again. -/
theorem apply_addOperation_of_mem {op : KeyOperation} (h : op ∈ draft.operations) :
    draft.apply (.addOperation op) = .ok draft :=
  if_pos (List.contains_iff_mem.mpr h)

/-- A new one has to be among those of the usage, if there is one, as have those that are there. -/
theorem apply_addOperation_of_not_mem {op : KeyOperation} (h : op ∉ draft.operations) :
    draft.apply (.addOperation op) =
      (draft.usage.elim (.ok ()) (checkOperations · (draft.operations ++ [op]) false)).map
        fun _ => { draft with operations := draft.operations ++ [op] } := by
  have hnew : ¬draft.operations.contains op = true := fun hc => h (List.contains_iff_mem.mp hc)
  rw [apply, addOperation, if_neg hnew]
  cases draft.usage with
  | none => rfl
  | some u =>
    show (checkOperations u (draft.operations ++ [op]) false >>= _) =
      (checkOperations u (draft.operations ++ [op]) false).map _
    cases checkOperations u (draft.operations ++ [op]) false <;> rfl

theorem apply_addOperation_eq_ok_iff {op : KeyOperation} (h : op ∉ draft.operations) :
    draft.apply (.addOperation op) = .ok draft' ↔
      (∀ u, draft.usage = some u → ∀ o ∈ draft.operations ++ [op], u.permits o = true) ∧
        draft' = { draft with operations := draft.operations ++ [op] } := by
  have hcheck : draft.usage.elim (.ok ()) (checkOperations · (draft.operations ++ [op]) false) =
      .ok () ↔
        ∀ u, draft.usage = some u → ∀ o ∈ draft.operations ++ [op], u.permits o = true := by
    cases draft.usage with
    | none => simp
    | some u =>
      simp only [Option.elim_some, Option.some.injEq, forall_eq', checkOperations_eq_ok_iff,
        KeyUsage.accepts_incomplete_iff]
  rw [apply_addOperation_of_not_mem h, ← hcheck]
  cases draft.usage.elim (.ok ()) (checkOperations · (draft.operations ++ [op]) false) with
  | error e => simp [Except.map]
  | ok =>
    rw [Except.map, Except.ok.injEq, eq_comm]
    exact (and_iff_right rfl).symm

theorem apply_label_eq_ok_iff {l : Label} {v : Value} : draft.apply (.label l v) = .ok draft' ↔
    ∃ h : draft.kind.reserves l = false, draft' = draft.putExtra l v h := by
  cases l with
  | int i =>
    by_cases h : draft.kind.reserves (.int i) = false
    · simp [apply, setLabel, h, eq_comm]
    · simp [apply, setLabel, h]
  | text s =>
    have h : draft.kind.reserves (.text s) = false := rfl
    simp [apply, setLabel, h, eq_comm]

/-- The usage permits all operations of the draft, if there is one. -/
def Restrained (draft : Draft) : Prop :=
  ∀ u, draft.usage = some u → ∀ op ∈ draft.operations, u.permits op = true

theorem restrained_of_apply {s : Step} (h : draft.Restrained) (hs : draft.apply s = .ok draft') :
    draft'.Restrained := by
  cases s with
  | usage u =>
    obtain ⟨permitted, rfl⟩ := apply_usage_eq_ok_iff.mp hs
    intro u' hu
    cases hu
    exact permitted
  | addOperation op =>
    by_cases hop : op ∈ draft.operations
    · cases (apply_addOperation_of_mem hop).symm.trans hs
      exact h
    · obtain ⟨permitted, rfl⟩ := (apply_addOperation_eq_ok_iff hop).mp hs
      exact permitted
  | clearOperations =>
    cases hs
    intro u _ op hop
    cases hop
  | label l v =>
    obtain ⟨_, rfl⟩ := apply_label_eq_ok_iff.mp hs
    exact h
  | _ =>
    cases hs
    exact h

/-- The usage that a parameter sets. -/
def Step.usage? : Step → Option KeyUsage
  | .usage u => some u
  | _ => none

theorem usage_of_apply {s : Step} (hs : draft.apply s = .ok draft') :
    draft'.usage = s.usage?.or draft.usage := by
  cases s with
  | usage u =>
    obtain ⟨-, rfl⟩ := apply_usage_eq_ok_iff.mp hs
    rfl
  | addOperation op =>
    by_cases hop : op ∈ draft.operations
    · cases (apply_addOperation_of_mem hop).symm.trans hs
      rfl
    · obtain ⟨-, rfl⟩ := (apply_addOperation_eq_ok_iff hop).mp hs
      rfl
  | label l v =>
    obtain ⟨_, rfl⟩ := apply_label_eq_ok_iff.mp hs
    rfl
  | _ =>
    cases hs
    rfl

/-- The same draft without a usage. -/
def free (draft : Draft) : Draft := { draft with usage := none }

theorem free_of_none (h : draft.usage = none) : draft.free = draft := by
  rw [free, ← h]

theorem apply_free {s : Step} (other : s.usage? = none) (hs : draft.apply s = .ok draft') :
    draft.free.apply s = .ok draft'.free := by
  cases s with
  | usage u => cases other
  | addOperation op =>
    by_cases hop : op ∈ draft.operations
    · cases (apply_addOperation_of_mem hop).symm.trans hs
      exact apply_addOperation_of_mem hop
    · obtain ⟨-, rfl⟩ := (apply_addOperation_eq_ok_iff hop).mp hs
      have hnew : op ∉ draft.free.operations := hop
      refine (apply_addOperation_eq_ok_iff hnew).mpr ⟨?_, rfl⟩
      intro u hu
      cases hu
  | label l v =>
    obtain ⟨hfree, rfl⟩ := apply_label_eq_ok_iff.mp hs
    exact apply_label_eq_ok_iff.mpr ⟨hfree, rfl⟩
  | _ =>
    cases hs
    rfl

/-- Without the steps that set a usage, the others lead to the same draft but for the usage. -/
theorem foldlM_free {steps : List Step} (h : steps.foldlM apply draft = .ok draft') :
    (steps.filter (·.usage?.isNone)).foldlM apply draft.free = .ok draft'.free := by
  induction steps generalizing draft with
  | nil =>
    cases h
    rfl
  | cons s steps ih =>
    obtain ⟨next, hs, h⟩ := Run.foldlM_cons_eq_ok.mp h
    have hrest := ih h
    cases hu : s.usage? with
    | none =>
      rw [List.filter_cons_of_pos (by simp [hu])]
      exact Run.foldlM_cons_eq_ok.mpr ⟨next.free, apply_free hu hs, hrest⟩
    | some u =>
      rw [List.filter_cons_of_neg (by simp [hu])]
      have hsame : next.free = draft.free := by
        cases s with
        | usage u =>
          obtain ⟨-, rfl⟩ := apply_usage_eq_ok_iff.mp hs
          rfl
        | _ => cases hu
      rwa [hsame] at hrest

theorem build_eq_ok_iff {u : KeyUsage} (hu : draft.usage = some u) {key : Key} :
    draft.build = .ok key ↔ draft.free.build = .ok key ∧ key.checkUsage u = .ok () := by
  have hfree : draft.free.build = draft.buildUnrestricted := build_of_free rfl
  rw [hfree, build, hu]
  constructor
  · intro h
    obtain ⟨key', hbuild, h⟩ := eq_ok_of_bind h
    obtain ⟨⟨⟩, hcheck, h⟩ := eq_ok_of_bind h
    cases h
    exact ⟨hbuild, hcheck⟩
  · intro hform
    obtain ⟨hbuild, hcheck⟩ := hform
    show (draft.buildUnrestricted >>= fun key => key.checkUsage u >>= fun _ => pure key) = .ok key
    rw [hbuild]
    show (key.checkUsage u >>= fun _ => pure key) = .ok key
    rw [hcheck]
    rfl

theorem usage_of_seed {kind : Kind} {start : Draft}
    (seed : start = empty kind ∨ ∃ source, ofKeyOfKind kind source = .ok start) :
    start.usage = none := by
  rcases seed with rfl | ⟨source, h⟩
  · rfl
  · unfold ofKeyOfKind at h
    split at h
    next =>
      cases h
      rfl
    next => cases h

/-- A draft that starts empty or from a key, of which `u` is the last usage that was accepted, holds
no operation that `u` does not permit. The accepted steps that set no usage lead to the same draft
without one, and the draft builds the keys that this one builds if they can serve `u`, which are those
that the role of `u` takes as they are. Keys for encryption and for authentication tags can be used for
both of their operations; keys for signatures and for key agreement declare no others than theirs. -/
theorem usage_kept_over_runs :
    (∀ (kind : Kind) (start : Draft) (steps : List Step) (u : KeyUsage),
      (start = empty kind ∨ ∃ source, ofKeyOfKind kind source = .ok start) →
      Run.last? Step.usage? (Run.accepted apply start steps) = some u →
      (∀ op ∈ (start.run steps).operations, u.permits op = true) ∧
      ((Run.accepted apply start steps).filter (·.usage?.isNone)).foldlM apply start =
        .ok { start.run steps with usage := none } ∧
      ∀ key, ((start.run steps).build = .ok key ↔
          Draft.build { start.run steps with usage := none } = .ok key ∧
            key.checkUsage u = .ok ()) ∧
        ((start.run steps).build = .ok key →
          ∃ role, RoleKey.ofKey u key = .ok role ∧ role.key = key)) ∧
    (∀ key role, RoleKey.ofKey .encryption key = .ok role →
      key.checkOperation .encrypt = .ok () ∧ key.checkOperation .decrypt = .ok ()) ∧
    (∀ key role, RoleKey.ofKey .mac key = .ok role →
      key.checkOperation .macCreate = .ok () ∧ key.checkOperation .macVerify = .ok ()) ∧
    (∀ key role, RoleKey.ofKey .signing key = .ok role →
      ∀ op ∈ key.operations, op ∈ [.sign, .verify]) ∧
    ∀ key role, RoleKey.ofKey .keyAgreement key = .ok role →
      ∀ op ∈ key.operations, op ∈ [.wrapKey, .unwrapKey] := by
  refine ⟨?_, ?_, ?_, ?_, ?_⟩
  · intro kind start steps u seed last
    have hstart := usage_of_seed seed
    have haccepted := start.foldlM_accepted steps
    have hlast : (start.run steps).usage =
        (Run.last? Step.usage? (Run.accepted apply start steps)).or start.usage :=
      Run.eq_last?_of_foldlM (fun _ _ _ hs => usage_of_apply hs) haccepted
    have hu : (start.run steps).usage = some u := by
      rw [hlast, last]
      rfl
    have hrestrained : start.Restrained := by
      intro u' hu'
      cases hstart.symm.trans hu'
    have restrained : (start.run steps).Restrained :=
      Run.kept_of_foldlM (fun _ _ _ h hs => restrained_of_apply h hs) hrestrained haccepted
    have hfree := foldlM_free haccepted
    rw [free_of_none hstart] at hfree
    refine ⟨restrained u hu, hfree, fun key => ⟨build_eq_ok_iff hu, fun hbuild => ?_⟩⟩
    exact RoleKey.exists_ofKey_iff.mpr ((build_eq_ok_iff hu).mp hbuild).2
  · intro key role h
    exact ⟨RoleKey.checkOperation_of_joint h rfl (by decide),
      RoleKey.checkOperation_of_joint h rfl (by decide)⟩
  · intro key role h
    exact ⟨RoleKey.checkOperation_of_joint h rfl (by decide),
      RoleKey.checkOperation_of_joint h rfl (by decide)⟩
  · intro key role h op hop
    exact RoleKey.mem_operations h hop
  · intro key role h op hop
    exact RoleKey.mem_operations h hop

/-- A symmetric key that declares the given operations. -/
def shared (operations : List KeyOperation) : Key where
  keyId := none
  algorithm := none
  operations := operations
  baseIv := none
  material := .symmetric [0x07]
  extra := .empty
  sound := rfl
  unreserved := fun _ h => nomatch h

/-- A private key for key agreement that declares that it unwraps keys. -/
def unwrapping : Key where
  keyId := none
  algorithm := none
  operations := [.unwrapKey]
  baseIv := none
  material := .okp .x25519 none (some (List.replicate 32 0x07))
  extra := .empty
  sound := rfl
  unreserved := fun _ h => nomatch h

/-- Steps of which the first, the third and the last are refused by a draft with the operation of
signing. -/
def wavering : List Step :=
  [.usage .encryption, .usage .signing, .addOperation .encrypt, .addOperation .verify,
    .clearOperations, .addOperation .verify, .addOperation .verify, .usage .mac]

theorem usage_kept_over_runs_wavering :
    (∃ start key, ofKeyOfKind .okp privateOctet = .ok start ∧
      Run.last? Step.usage? (Run.accepted apply start wavering) = some .signing ∧
      (∀ op ∈ (start.run wavering).operations, KeyUsage.signing.permits op = true) ∧
      (start.run wavering).build = .ok key ∧ key.operations = [.verify] ∧
      ∃ role, RoleKey.ofKey .signing key = .ok role ∧ role.key = key) ∧
    (∃ role, RoleKey.ofKey .encryption (shared [.decrypt, .encrypt]) = .ok role ∧
      (shared [.decrypt, .encrypt]).checkOperation .encrypt = .ok ()) ∧
    (∃ role, RoleKey.ofKey .mac (shared []) = .ok role ∧
      (shared []).checkOperation .macVerify = .ok ()) ∧
    (∃ role, RoleKey.ofKey .signing privateOctet = .ok role ∧
      ∀ op ∈ privateOctet.operations, op ∈ [.sign, .verify]) ∧
    ∃ role, RoleKey.ofKey .keyAgreement unwrapping = .ok role ∧
      ∀ op ∈ unwrapping.operations, op ∈ [.wrapKey, .unwrapKey] := by
  obtain ⟨runs, encryption, mac, signing, agreement⟩ := usage_kept_over_runs
  have last : Run.last? Step.usage? (Run.accepted apply (ofKey privateOctet) wavering) =
      some .signing := rfl
  obtain ⟨permitted, -, builds⟩ := runs .okp (ofKey privateOctet) wavering .signing
    (.inr ⟨privateOctet, rfl⟩) last
  exact ⟨⟨_, _, rfl, last, permitted, rfl, rfl, (builds _).2 rfl⟩,
    ⟨_, rfl, (encryption _ _ rfl).1⟩, ⟨_, rfl, (mac _ _ rfl).2⟩, ⟨_, rfl, signing _ _ rfl⟩,
    _, rfl, agreement _ _ rfl⟩

end Key.Draft

end Cose
