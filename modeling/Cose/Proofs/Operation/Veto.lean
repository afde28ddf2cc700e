import Cose.Operation.Signing
import Cose.Operation.Tagging
import Cose.Proofs.Operation.Selection

namespace Cose

namespace Headers

/-- The same headers without any unprotected entry. -/
def bare (h : Headers) : Headers := { h with unprotected := .empty }

/-- The unprotected header names another algorithm than the one named by the caller or else by the
protected header or else by the key. -/
def Contradicts (h : Headers) (given : Option Algorithm) (key : Key) : Prop :=
  ∃ named found, ((given.map Algorithm.id <|> h.protectedHeader.map.algorithm?) <|> key.algorithm) =
    some named ∧ h.unprotected.algorithm? = some found ∧ found ≠ named

end Headers

/-- How a session comes out beside one that does without the unprotected header: it is the same
unless the header contradicts, and then it fails for that reason before any call. So whatever is
asked of the provider would be asked without the header too. -/
structure OnlyVetoes (contradicts : Prop) (full bare : Session Unit) : Prop where
  same : ¬contradicts → full = bare
  vetoed : contradicts → ∃ a b, full = ⟨[], .error (.algorithmConflict a b)⟩
  calls : ∀ call ∈ full.calls, call ∈ bare.calls

namespace Selection

variable {given : Option Algorithm} {h : Headers} {key : Key}

theorem agreed_eq_error {a b : Option Int64} {e : Error} (he : agreed a b = .error e) :
    ∃ i j, e = .algorithmConflict i j := by
  unfold agreed at he
  split at he
  next i j =>
    split at he
    next => cases he
    next => exact ⟨i, j, (Except.error.inj he).symm⟩
  next => cases he
  next => cases he

theorem idToCheck_of_not_agreed {e : Error} {m n : LabelMap}
    (hf : agreed (given.map Algorithm.id) m.algorithm? = .error e) :
    idToCheck given m n key = .error e := by
  rw [idToCheck, hf]
  rfl

theorem idToCheck_of_contradicts (hc : h.Contradicts given key) :
    ∃ a b, idToCheck given h.protectedHeader.map h.unprotected key =
      .error (.algorithmConflict a b) := by
  obtain ⟨named, found, hnamed, hfound, hne⟩ := hc
  cases hf : agreed (given.map Algorithm.id) h.protectedHeader.map.algorithm? with
  | error e =>
    obtain ⟨a, b, rfl⟩ := agreed_eq_error hf
    exact ⟨a, b, idToCheck_of_not_agreed hf⟩
  | ok first =>
    rw [← agreed_eq_ok hf] at hnamed
    rw [idToCheck_of_agreed hf, hnamed, hfound]
    exact ⟨named, found, if_neg fun heq => hne heq.symm⟩

theorem idToCheck_bare (hc : ¬h.Contradicts given key) :
    idToCheck given h.protectedHeader.map h.unprotected key =
      idToCheck given h.protectedHeader.map .empty key := by
  cases hf : agreed (given.map Algorithm.id) h.protectedHeader.map.algorithm? with
  | error e => rw [idToCheck_of_not_agreed hf, idToCheck_of_not_agreed hf]
  | ok first =>
    rw [idToCheck_of_agreed hf, idToCheck_of_agreed hf]
    cases hnamed : first <|> key.algorithm with
    | none => rfl
    | some named =>
      cases hfound : h.unprotected.algorithm? with
      | none => rfl
      | some found =>
        rw [agreed_eq_ok hf] at hnamed
        by_cases heq : found = named
        · subst heq
          exact if_pos rfl
        · exact absurd ⟨named, found, hnamed, hfound, heq⟩ hc

/-- Whatever a verification does once it knows its algorithm, as long as it does not look at the
unprotected header again, that header can only keep it from being done. -/
theorem onlyVetoes_toCheck (purpose : Purpose) (given : Option Algorithm) (h : Headers) (key : Key)
    (f : Algorithm → Session Unit) : OnlyVetoes (h.Contradicts given key)
      (Session.ofExcept (toCheck purpose given h key) >>= f)
      (Session.ofExcept (toCheck purpose given h.bare key) >>= f) := by
  have vetoed (hc : h.Contradicts given key) : ∃ a b,
      Session.ofExcept (toCheck purpose given h key) >>= f =
        ⟨[], .error (.algorithmConflict a b)⟩ := by
    obtain ⟨a, b, hid⟩ := idToCheck_of_contradicts hc
    rw [toCheck, hid]
    exact ⟨a, b, rfl⟩
  have same (hc : ¬h.Contradicts given key) :
      Session.ofExcept (toCheck purpose given h key) >>= f =
        Session.ofExcept (toCheck purpose given h.bare key) >>= f := by
    rw [toCheck, idToCheck_bare hc]
    rfl
  refine ⟨same, vetoed, ?_⟩
  intro call hm
  by_cases hc : h.Contradicts given key
  · obtain ⟨a, b, heq⟩ := vetoed hc
    rw [heq] at hm
    cases hm
  · rwa [← same hc]

end Selection

namespace Sign

/-- The same message with any unprotected header in its body, and without unprotected entries next
to the signature at one place. -/
def bareAt (m : Sign) (index : Nat) (unprotected : LabelMap) : Sign :=
  { m with
    unprotected
    signatures := m.signatures.modify index fun s => ⟨s.toHeaders.bare, s.signature⟩ }

theorem getElem?_bareAt (m : Sign) (index : Nat) (unprotected : LabelMap) :
    (m.bareAt index unprotected).signatures[index]? =
      m.signatures[index]?.map fun s => ⟨s.toHeaders.bare, s.signature⟩ :=
  List.getElem?_modify_eq _ _ _

theorem verify_of_getElem? {p : Provider} {key : SigningKey} {m : Sign} {index : Nat}
    {o : Options} {s : Signature} (hs : m.signatures[index]? = some s) :
    m.verify p key index o = (do
      let alg ← Selection.toCheck .signature o.algorithm s.toHeaders key.key
      let data ← m.toBeSigned s o.externalAad o.detached
      Signing.check p key.key alg data s.signature) := by
  unfold verify
  rw [hs]

theorem onlyVetoes_verify (p : Provider) (o : Options) (key : SigningKey) (m : Sign) (index : Nat)
    (unprotected : LabelMap) : OnlyVetoes
      (∃ s, m.signatures[index]? = some s ∧ s.toHeaders.Contradicts o.algorithm key.key)
      (m.verify p key index o) ((m.bareAt index unprotected).verify p key index o) := by
  have hbare := m.getElem?_bareAt index unprotected
  cases hs : m.signatures[index]? with
  | none =>
    -- Both refuse the place in the same words, since both lists are of one length.
    have hlength : (m.bareAt index unprotected).signatures.length = m.signatures.length :=
      List.length_modify _ _ _
    unfold verify
    rw [hs] at hbare ⊢
    rw [hbare]
    refine ⟨?_, ?_, ?_⟩
    · intro _
      rw [hlength]
      rfl
    · intro hc
      obtain ⟨s, hs, -⟩ := hc
      cases hs
    · intro call hm
      cases hm
  | some s =>
    rw [hs] at hbare
    have hiff : (∃ s', some s = some s' ∧ s'.toHeaders.Contradicts o.algorithm key.key) ↔
        s.toHeaders.Contradicts o.algorithm key.key := by
      simp
    rw [hiff, verify_of_getElem? hs, verify_of_getElem? hbare]
    exact Selection.onlyVetoes_toCheck _ _ _ _ _

end Sign

/-- Verification of a message of each kind, with and without the unprotected header next to the
signature or tag. Nothing is read from the unprotected header of a body with several signatures or
from the recipients of a tag. -/
theorem verification_only_vetoed (p : Provider) (o : Options) (key : SigningKey) (macKey : MacKey) :
    (∀ m : Sign1, OnlyVetoes (m.toHeaders.Contradicts o.algorithm key.key)
      (m.verify p key o) (Sign1.verify p key { m with toHeaders := m.toHeaders.bare } o)) ∧
    (∀ (m : Sign) (index : Nat) (unprotected : LabelMap), OnlyVetoes
      (∃ s, m.signatures[index]? = some s ∧ s.toHeaders.Contradicts o.algorithm key.key)
      (m.verify p key index o) ((m.bareAt index unprotected).verify p key index o)) ∧
    (∀ m : Mac0, OnlyVetoes (m.toHeaders.Contradicts o.algorithm macKey.key)
      (m.verify p macKey o) (Mac0.verify p macKey { m with toHeaders := m.toHeaders.bare } o)) ∧
    (∀ (m : Mac) (recipients : List Recipient), OnlyVetoes
      (m.toHeaders.Contradicts o.algorithm macKey.key) (m.verify p macKey o)
      (Mac.verify p macKey { m with toHeaders := m.toHeaders.bare, recipients } o)) := by
  refine ⟨?_, Sign.onlyVetoes_verify p o key, ?_, ?_⟩
  · intro m
    exact Selection.onlyVetoes_toCheck _ _ _ _ _
  · intro m
    exact Selection.onlyVetoes_toCheck _ _ _ _ _
  · intro m recipients
    exact Selection.onlyVetoes_toCheck _ _ _ _ _

end Cose
