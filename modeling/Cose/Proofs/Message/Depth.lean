import Cose.Message.Draft
import Cose.Proofs.LabelMap.Nesting
import Cose.Proofs.Message.RoundTrip

namespace Cose

open Cbor Reader

namespace ProtectedHeader

@[simp] theorem map_ofMap (m : LabelMap) : (ofMap m).map = m := rfl

/-- The bytes stand for the map, or they are what the map is written as. -/
def Genuine (p : ProtectedHeader) : Prop :=
  LabelMap.decodeHeader p.bytes = .ok p.map ∨ ∃ m, p = .ofMap m

theorem decodeHeader_ofMap {m : LabelMap} (fits : (ofMap m).bytes.length < 2 ^ 64) :
    LabelMap.decodeHeader (ofMap m).bytes = if m.Shallow then .ok m else .error Value.tooDeep := by
  by_cases hempty : m.isEmpty = true
  · have hm : m = .empty := LabelMap.ext (List.isEmpty_iff.mp hempty)
    rw [hm]
    rfl
  · have hb : (ofMap m).bytes = m.encode := if_neg hempty
    rw [hb] at fits ⊢
    exact LabelMap.decodeHeader_encode (LabelMap.fits_of_length fits)

theorem Genuine.decodeHeader {p : ProtectedHeader} (h : p.Genuine)
    (fits : p.bytes.length < 2 ^ 64) : LabelMap.decodeHeader p.bytes =
      if p.map.Shallow then .ok p.map else .error Value.tooDeep := by
  rcases h with faithful | ⟨m, rfl⟩
  · rw [faithful, if_pos (LabelMap.shallow_of_decodeHeader faithful)]
  · exact decodeHeader_ofMap fits

theorem Genuine.returns_ofBytes {p : ProtectedHeader} (h : p.Genuine)
    (fits : p.bytes.length < 2 ^ 64) : Returns (liftM (ofBytes p.bytes)) []
      (if p.map.Shallow then .ok p else .error Value.tooDeep) := by
  have hd := h.decodeHeader fits
  by_cases shallow : p.map.Shallow
  · rw [if_pos shallow] at hd ⊢
    exact Headers.takes_ofBytes hd
  · rw [if_neg shallow] at hd ⊢
    intro rest position
    rw [ofBytes, hd]
    rfl

end ProtectedHeader

namespace Headers

/-- No value in either header nests too deep. -/
def Shallow (h : Headers) : Prop := h.protectedHeader.map.Shallow ∧ h.unprotected.Shallow

instance (h : Headers) : Decidable h.Shallow := inferInstanceAs (Decidable (_ ∧ _))

theorem returns_read {h : Headers} (hg : h.protectedHeader.Genuine)
    (fits : h.encode.length < 2 ^ 64) :
    Headers.read.Returns h.encode (if h.Shallow then .ok h else .error Value.tooDeep) := by
  rw [encode, List.length_append] at fits
  have hl := length_le_length_bytes h.protectedHeader.bytes
  refine (takes_bstr (bytes_isBytes (by omega)) _).returns ?_
  rw [← List.nil_append h.unprotected.encode]
  refine (hg.returns_ofBytes (by omega)).and ?_
  exact (LabelMap.returns_read (LabelMap.fits_of_length (by omega)) _).map_ite _

end Headers

namespace Recipient

mutual

/-- The headers of a recipient, its own first and then those of the recipients in it. -/
def allHeaders : Recipient → List Headers
  | ⟨headers, _, recipients⟩ => headers :: allHeadersOfList recipients

def allHeadersOfList : List Recipient → List Headers
  | [] => []
  | r :: rs => r.allHeaders ++ allHeadersOfList rs

end

theorem allHeadersOfList_eq (rs : List Recipient) :
    allHeadersOfList rs = rs.flatMap allHeaders := by
  induction rs with
  | nil => rfl
  | cons r rs ih => rw [allHeadersOfList, ih, List.flatMap_cons]

theorem forall_allHeaders {P : Headers → Prop} {r : Recipient} : (∀ h ∈ r.allHeaders, P h) ↔
    P r.toHeaders ∧ ∀ s ∈ r.recipients, ∀ h ∈ s.allHeaders, P h := by
  obtain ⟨headers, ciphertext, rs⟩ := r
  rw [allHeaders, allHeadersOfList_eq, List.forall_mem_cons, List.forall_mem_flatMap]

theorem returns_readWithin_of_genuine {r : Recipient}
    (hg : ∀ h ∈ r.allHeaders, h.protectedHeader.Genuine) (fits : r.encode.length < 2 ^ 64)
    (max : Nat) {levels : Nat} (hd : r.depth ≤ levels) : (readWithin max levels).Returns r.encode
      (if ∀ h ∈ r.allHeaders, h.Shallow then .ok r else .error Value.tooDeep) := by
  -- Recipients that lie deeper have fewer levels left, so the number of levels is generalized.
  induction r using inductionOn generalizing levels with
  | mk r ih =>
    rw [depth_eq] at hd
    cases levels with
    | zero => exact absurd hd (Nat.not_succ_le_zero _)
    | succ n =>
      obtain ⟨own, rest⟩ := forall_allHeaders.mp hg
      obtain ⟨hh, -, hl⟩ := length_of_fits fits
      have hdepth := depthOfList_le.mp (Nat.le_of_succ_le_succ hd)
      have hr := returns_readWithin_succ fits (Headers.returns_read own hh)
        (fun hnil => returns_list hnil (hl hnil) fun s hs =>
          ih s hs (rest s hs) ((length_lt_of_fits (hl hnil)).2 s hs) (hdepth s hs))
        (by simp +contextual)
      simpa only [forall_allHeaders (P := Headers.Shallow) (r := r)] using hr

theorem returns_readList_of_genuine {rs : List Recipient} (hne : rs ≠ [])
    (hg : ∀ r ∈ rs, ∀ h ∈ r.allHeaders, h.protectedHeader.Genuine)
    (fits : (encodeList rs).length < 2 ^ 64) {max : Nat} (hd : depthOfList rs ≤ max) :
    (readList max).Returns (encodeList rs)
      (if ∀ r ∈ rs, ∀ h ∈ r.allHeaders, h.Shallow then .ok rs else .error Value.tooDeep) :=
  returns_list hne fits fun r hr => returns_readWithin_of_genuine (hg r hr)
    ((length_lt_of_fits fits).2 r hr) max (depthOfList_le.mp hd r hr)

end Recipient

namespace Message

/-- The members of the list that a structure ends with. -/
def parts : {k : Kind} → k.Body → List k.Part
  | .sign, m => m.signatures
  | .mac, m => m.recipients
  | .encrypt, m => m.recipients
  | .recipient, m => m.recipients
  | .sign1, _ | .signature, _ | .mac0, _ | .encrypt0, _ => []

/-- The headers of a member of such a list, its own first. -/
def partHeaders : {k : Kind} → k.Part → List Headers
  | .sign, s => [Signature.toHeaders s]
  | .mac, r | .encrypt, r | .recipient, r => Recipient.allHeaders r
  | .sign1, e | .signature, e | .mac0, e | .encrypt0, e => nomatch e

/-- The headers of a structure, its own first and then those of the signatures or recipients in
it. -/
def allHeaders {k : Kind} (m : k.Body) : List Headers :=
  headers m :: (parts m).flatMap partHeaders

theorem forall_allHeaders {k : Kind} {m : k.Body} {P : Headers → Prop} :
    (∀ h ∈ allHeaders m, P h) ↔
      P (headers m) ∧ ∀ part ∈ parts m, ∀ h ∈ partHeaders part, P h := by
  rw [allHeaders, List.forall_mem_cons, List.forall_mem_flatMap]

/-- A structure whose protected headers stand for their maps, with members in its list where it must
have some and recipients that nest at most so many levels. -/
structure Assembled (max : Nat) {k : Kind} (m : k.Body) : Prop where
  genuine : ∀ h ∈ allHeaders m, h.protectedHeader.Genuine
  nonempty : k ∈ [.sign, .mac, .encrypt] → parts m ≠ []
  depth : recipientDepth m ≤ max

theorem Assembled.returns_read {max : Nat} {k : Kind} {m : k.Body} (h : Assembled max m)
    (fits : (encode m).length < 2 ^ 64) : (k.read max).Returns (encode m)
      (if ∀ h ∈ allHeaders m, h.Shallow then .ok m else .error Value.tooDeep) := by
  obtain ⟨own, rest⟩ := forall_allHeaders.mp h.genuine
  have hheaders := Headers.returns_read own (length_headers_lt fits)
  simp only [forall_allHeaders]
  -- Without a list only the structure's own headers count.
  have flat {r : Reader k.Body} (hnil : parts m = [])
      (hr : r.Returns (encode m) (if (headers m).Shallow then .ok m else .error Value.tooDeep)) :
      r.Returns (encode m) (if (headers m).Shallow ∧ ∀ part ∈ parts m, ∀ h ∈ partHeaders part,
        h.Shallow then .ok m else .error Value.tooDeep) := by
    simpa [hnil] using hr
  cases k with
  | sign1 => exact flat rfl (Sign1.returns_read fits hheaders)
  | sign =>
    refine Sign.returns_read (R := fun s => ∀ h ∈ partHeaders (k := .sign) s, h.Shallow) fits
      (h.nonempty (by decide)) hheaders fun s hs hfits => ?_
    have hgenuine := rest s hs s.toHeaders (List.mem_singleton_self _)
    simpa [partHeaders] using Signature.returns_read hfits
      (Headers.returns_read hgenuine (length_headers_lt (k := .signature) hfits))
  | signature => exact flat rfl (Signature.returns_read fits hheaders)
  | mac0 => exact flat rfl (Mac0.returns_read fits hheaders)
  | mac =>
    exact Mac.returns_read fits hheaders (Recipient.returns_readList_of_genuine
      (h.nonempty (by decide)) rest (Mac.length_encodeList_lt fits) h.depth)
  | encrypt0 => exact flat rfl (Encrypt0.returns_read fits hheaders)
  | encrypt =>
    exact Encrypt.returns_read fits hheaders (Recipient.returns_readList_of_genuine
      (h.nonempty (by decide)) rest (Encrypt.length_encodeList_lt fits) h.depth)
  | recipient =>
    have hr := Recipient.returns_readWithin_of_genuine (Recipient.forall_allHeaders.mpr ⟨own, rest⟩)
      fits max h.depth
    simp only [Recipient.forall_allHeaders (P := Headers.Shallow) (r := m)] at hr
    exact hr

/-- An assembled structure is read back, tagged or not, unless a value in a header nests too deep. -/
theorem Assembled.decodeWithin_eq {max : Nat} {k : Kind} {m : k.Body} (h : Assembled max m)
    (fits : (encode m).length < 2 ^ 64) :
    let outcome := if ∀ h ∈ allHeaders m, h.Shallow then .ok m else .error Value.tooDeep
    decodeWithin max k (encode m) = outcome ∧ decodeWithin max k (encodeTagged m) = outcome :=
  decodeWithin_of_returns (h.returns_read fits)

end Message

end Cose
