import Mathlib.Data.List.Zip
import Cose.Proofs.Operation.Veto
import Cose.Proofs.Operation.Verification

namespace Cose

open Message

theorem exists_forall₂ {α β : Type} {R : α → β → Prop} {xs : List α}
    (h : ∀ x ∈ xs, ∃ y, R x y) : ∃ ys, List.Forall₂ R xs ys := by
  induction xs with
  | nil => exact ⟨[], .nil⟩
  | cons x xs ih =>
    obtain ⟨y, hy⟩ := h x List.mem_cons_self
    obtain ⟨ys, hys⟩ := ih fun z hz => h z (List.mem_cons_of_mem x hz)
    exact ⟨y :: ys, .cons hy hys⟩

namespace Sign

/-- What a message consists of before anybody has signed it. -/
def unsigned (protectedMap unprotected : LabelMap) (payload : Bytes) :
    Except Error (Headers × Option Bytes) := do
  let payload ← (ContentSlot.ofContent payload).resolve "payload"
  let protectedHeader ← (ProtectedSlot.bytes (ProtectedHeader.ofMap protectedMap).bytes).resolve
  return (⟨protectedHeader, unprotected⟩, payload)

variable {p : Provider} {protectedMap unprotected : LabelMap} {payload : Bytes}
  {signers : List Signer} {o : Options} {m : Sign}

theorem build_eq_map {signatures : List Signature} (hne : signatures ≠ []) :
    Draft.build (k := .sign)
      { protectedSlot := .bytes (ProtectedHeader.ofMap protectedMap).bytes, unprotected,
        content := .ofContent payload, parts := signatures } =
      (unsigned protectedMap unprotected payload).map fun body =>
        { body.1 with payload := body.2, signatures } := by
  have hnonempty : Draft.nonempty "signatures" signatures = .ok () :=
    Draft.nonempty_eq_ok_iff.mpr hne
  simp only [Draft.build, unsigned, Draft.headers, hnonempty]
  cases (ContentSlot.ofContent payload).resolve "payload" with
  | error => rfl
  | ok content =>
    cases (ProtectedSlot.bytes (ProtectedHeader.ofMap protectedMap).bytes).resolve <;> rfl

/-- What it takes for all signers to succeed together. -/
theorem sign_eq_ok_iff (hne : signers ≠ []) :
    (sign p protectedMap unprotected payload signers o).outcome = .ok m ↔
      ∃ content, Content.resolve (some payload) o.detached = .ok content ∧
        List.Forall₂ (fun s signature =>
          (s.sign p (ProtectedHeader.ofMap protectedMap).bytes content o).outcome = .ok signature)
          signers m.signatures ∧
        unsigned protectedMap unprotected payload = .ok (m.toHeaders, m.payload) := by
  have hnonempty : Draft.nonempty "signatures" signers = .ok () :=
    Draft.nonempty_eq_ok_iff.mpr hne
  constructor
  · intro h
    obtain ⟨⟨⟩, -, h⟩ := Session.outcome_bind_mapError_eq_ok_iff.mp h
    obtain ⟨content, hcontent, h⟩ := Session.outcome_bind_mapError_eq_ok_iff.mp h
    obtain ⟨signatures, hmap, h⟩ := Session.outcome_bind_eq_ok_iff.mp h
    have hall := Session.outcome_mapM_eq_ok_iff.mp hmap
    have hsignatures : signatures ≠ [] := by
      rintro rfl
      exact hne (List.forall₂_nil_right_iff.mp hall)
    have hbuild := (build_eq_map hsignatures).symm.trans h
    cases hu : unsigned protectedMap unprotected payload with
    | error =>
      rw [hu] at hbuild
      cases hbuild
    | ok body =>
      rw [hu] at hbuild
      obtain rfl := Except.ok.inj hbuild
      exact ⟨content, hcontent, hall, rfl⟩
  · intro h
    obtain ⟨content, hcontent, hall, hunsigned⟩ := h
    refine Session.outcome_bind_mapError_eq_ok_iff.mpr ⟨(), hnonempty, ?_⟩
    refine Session.outcome_bind_mapError_eq_ok_iff.mpr ⟨content, hcontent, ?_⟩
    refine Session.outcome_bind_eq_ok_iff.mpr
      ⟨m.signatures, Session.outcome_mapM_eq_ok_iff.mpr hall, ?_⟩
    have hsignatures : m.signatures ≠ [] := by
      intro hnil
      rw [hnil] at hall
      exact hne (List.forall₂_nil_right_iff.mp hall)
    refine (build_eq_map hsignatures).trans ?_
    rw [hunsigned]
    rfl

theorem sign_alone_eq_ok_iff {s : Signer} {signature : Signature} :
    (sign p protectedMap unprotected payload [s] o).outcome =
        .ok { m with signatures := [signature] } ↔
      ∃ content, Content.resolve (some payload) o.detached = .ok content ∧
        (s.sign p (ProtectedHeader.ofMap protectedMap).bytes content o).outcome = .ok signature ∧
        unsigned protectedMap unprotected payload = .ok (m.toHeaders, m.payload) := by
  rw [sign_eq_ok_iff (List.cons_ne_nil s [])]
  simp

/-- Signers succeed together exactly if each of them succeeds alone, with the same body. -/
theorem sign_eq_ok_iff_forall₂ (hne : signers ≠ []) :
    (sign p protectedMap unprotected payload signers o).outcome = .ok m ↔
      List.Forall₂ (fun s signature =>
        (sign p protectedMap unprotected payload [s] o).outcome =
          .ok { m with signatures := [signature] }) signers m.signatures := by
  simp only [sign_eq_ok_iff hne, sign_alone_eq_ok_iff]
  constructor
  · intro h
    obtain ⟨content, hcontent, hall, hunsigned⟩ := h
    exact hall.imp fun s signature hs => ⟨content, hcontent, hs, hunsigned⟩
  · intro h
    -- The first signer already says which content all of them sign.
    obtain ⟨first, rest, rfl⟩ := List.exists_cons_of_ne_nil hne
    obtain ⟨_, _, hfirst, -, -⟩ := List.forall₂_cons_left_iff.mp h
    obtain ⟨content, hcontent, -, hunsigned⟩ := hfirst
    refine ⟨content, hcontent, h.imp fun s signature hs => ?_, hunsigned⟩
    obtain ⟨content', hcontent', hmade, -⟩ := hs
    obtain rfl := Except.ok.inj (hcontent.symm.trans hcontent')
    exact hmade

theorem sign_succeeds_iff (hne : signers ≠ []) :
    (∃ m, (sign p protectedMap unprotected payload signers o).outcome = .ok m) ↔
      ∀ s ∈ signers, ∃ m, (sign p protectedMap unprotected payload [s] o).outcome = .ok m := by
  constructor
  · intro h s hs
    obtain ⟨m, hm⟩ := h
    obtain ⟨signature, -, hmade⟩ := exists_mem_of_forall₂ ((sign_eq_ok_iff_forall₂ hne).mp hm) hs
    exact ⟨_, hmade⟩
  · intro h
    obtain ⟨first, rest, rfl⟩ := List.exists_cons_of_ne_nil hne
    obtain ⟨body, hbody⟩ := h first List.mem_cons_self
    obtain ⟨content, hcontent, -, hunsigned⟩ := (sign_eq_ok_iff (List.cons_ne_nil _ _)).mp hbody
    have hall : ∀ s ∈ first :: rest, ∃ signature,
        (s.sign p (ProtectedHeader.ofMap protectedMap).bytes content o).outcome =
          .ok signature := by
      intro s hs
      obtain ⟨m, hm⟩ := h s hs
      obtain ⟨content', hcontent', hmade, -⟩ := (sign_eq_ok_iff (List.cons_ne_nil s [])).mp hm
      obtain rfl := Except.ok.inj (hcontent.symm.trans hcontent')
      obtain ⟨signature, _, hmade, -⟩ := List.forall₂_cons_left_iff.mp hmade
      exact ⟨signature, hmade⟩
    obtain ⟨signatures, hsignatures⟩ := exists_forall₂ hall
    exact ⟨{ body with signatures }, (sign_eq_ok_iff hne).mpr
      ⟨content, hcontent, hsignatures, hunsigned⟩⟩

/-- Any of the signers, in any order, make the signatures that they make among all. -/
theorem sign_picked (h : (sign p protectedMap unprotected payload signers o).outcome = .ok m)
    {picked : List (Signer × Signature)} (hne : picked ≠ [])
    (hsub : picked ⊆ signers.zip m.signatures) :
    (sign p protectedMap unprotected payload (picked.map Prod.fst) o).outcome =
      .ok { m with signatures := picked.map Prod.snd } := by
  have hsigners : signers ≠ [] := by
    rintro rfl
    exact hne (List.subset_nil.mp hsub)
  have hall := (sign_eq_ok_iff_forall₂ hsigners).mp h
  have hpicked : picked.map Prod.fst ≠ [] := by simpa using hne
  rw [sign_eq_ok_iff_forall₂ hpicked, List.forall₂_map_left_iff, List.forall₂_map_right_iff,
    List.forall₂_same]
  intro pair hpair
  exact List.forall₂_zip hall (hsub hpair)

theorem verify_eq_of_getElem? {key : SigningKey} {m' : Sign} {i j : Nat} {s : Signature}
    (hbytes : m.protectedHeader.bytes = m'.protectedHeader.bytes) (hpayload : m.payload = m'.payload)
    (hi : m.signatures[i]? = some s) (hj : m'.signatures[j]? = some s) :
    m.verify p key i o = m'.verify p key j o := by
  have hsigned : m.toBeSigned s o.externalAad o.detached =
      m'.toBeSigned s o.externalAad o.detached := by
    rw [toBeSigned, toBeSigned, hbytes, hpayload]
  rw [verify_of_getElem? hi, verify_of_getElem? hj, hsigned]

end Sign

/-- Signers succeed together exactly if each of them succeeds alone. Each then makes the signature
that he makes alone, below the same body, so whoever of them signs, and in whatever order, makes the
same signature. What verification says of a signature depends on it, on the protected header of the
body and on the content. -/
theorem signers_independent (p : Provider) (o : Options) :
    (∀ (protectedMap unprotected : LabelMap) (payload : Bytes) (signers : List Signer),
      signers ≠ [] →
      ((∃ m, (Sign.sign p protectedMap unprotected payload signers o).outcome = .ok m) ↔
        ∀ s ∈ signers, ∃ m, (Sign.sign p protectedMap unprotected payload [s] o).outcome = .ok m) ∧
      ∀ m, (Sign.sign p protectedMap unprotected payload signers o).outcome = .ok m →
        List.Forall₂ (fun s signature =>
          (Sign.sign p protectedMap unprotected payload [s] o).outcome =
            .ok { m with signatures := [signature] }) signers m.signatures ∧
        ∀ picked : List (Signer × Signature), picked ≠ [] →
          picked ⊆ signers.zip m.signatures →
          (Sign.sign p protectedMap unprotected payload (picked.map Prod.fst) o).outcome =
            .ok { m with signatures := picked.map Prod.snd }) ∧
    ∀ (key : SigningKey) (m m' : Sign) (i j : Nat) (s : Signature),
      m.protectedHeader.bytes = m'.protectedHeader.bytes → m.payload = m'.payload →
      m.signatures[i]? = some s → m'.signatures[j]? = some s →
      m.verify p key i o = m'.verify p key j o := by
  constructor
  · intro protectedMap unprotected payload signers hne
    refine ⟨Sign.sign_succeeds_iff hne, ?_⟩
    intro m h
    refine ⟨(Sign.sign_eq_ok_iff_forall₂ hne).mp h, ?_⟩
    intro picked hpicked hsub
    exact Sign.sign_picked h hpicked hsub
  · intro key m m' i j s hbytes hpayload hi hj
    exact Sign.verify_eq_of_getElem? hbytes hpayload hi hj

/-- A signer who says which key it is. -/
def Signer.labelled : Signer where
  key := .privateOnly
  unprotected := .insert .empty Header.keyId (.bytes [0x0b])

theorem signers_independent_accepting :
    ∃ m first second,
      (Sign.sign .accepting .empty .empty [0x05] [{ key := .privateOnly }, .labelled]
        { algorithm := some .es256 }).outcome = .ok m ∧
      m.signatures = [first, second] ∧ first.unprotected ≠ second.unprotected ∧
      (Sign.sign .accepting .empty .empty [0x05] [.labelled, { key := .privateOnly }]
        { algorithm := some .es256 }).outcome = .ok { m with signatures := [second, first] } ∧
      m.verify .accepting .privateOnly 1 { algorithm := some .es256 } =
        Sign.verify .accepting .privateOnly { m with signatures := [second, first] } 0
          { algorithm := some .es256 } := by
  obtain ⟨hsign, hverify⟩ := signers_independent .accepting { algorithm := some .es256 }
  obtain ⟨-, hmade⟩ := hsign .empty .empty [0x05] [{ key := .privateOnly }, .labelled]
    (List.cons_ne_nil _ _)
  obtain ⟨-, hpicked⟩ := hmade _ rfl
  refine ⟨_, _, _, rfl, rfl, ?_, hpicked [(.labelled, _), ({ key := .privateOnly }, _)]
    (List.cons_ne_nil _ _) ?_, ?_⟩
  · intro heq
    exact absurd (congrArg LabelMap.keyId? heq) (by decide)
  · exact List.cons_subset.mpr ⟨.tail _ (.head _), List.cons_subset.mpr ⟨.head _, List.nil_subset _⟩⟩
  · exact hverify .privateOnly _ _ 1 0 _ rfl rfl rfl rfl

end Cose
