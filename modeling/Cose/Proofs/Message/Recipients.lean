import Cose.Message.Recipient
import Cose.Proofs.LabelMap.Reading
import Cose.Proofs.LabelMap.Writing

namespace Cose

open Cbor Reader

theorem LabelMap.forall_insert {P : Value → Prop} {m : LabelMap} {l : Label} {v : Value}
    (h : ∀ e ∈ m.entries, P e.2) (hv : P v) : ∀ e ∈ (m.insert l v).entries, P e.2 := by
  intro hform hk
  obtain ⟨k, w⟩ := hform
  have hget := get?_eq_some_iff.mpr hk
  rw [get?_insert] at hget
  split at hget
  next => exact Option.some.inj hget ▸ hv
  next => exact h (k, w) (get?_eq_some_iff.mp hget)

/-- Headers that can be read back: the protected map is the one that the bytes beside it stand for,
and no unprotected value nests too deep. -/
structure Headers.Sound (h : Headers) : Prop where
  faithful : LabelMap.decodeHeader h.protectedHeader.bytes = .ok h.protectedHeader.map
  shallow : ∀ e ∈ h.unprotected.entries, e.2.depth ≤ Value.maxDepth

namespace Headers

theorem takes_ofBytes {p : ProtectedHeader} (h : LabelMap.decodeHeader p.bytes = .ok p.map) :
    Takes (liftM (ProtectedHeader.ofBytes p.bytes)) [] p := by
  intro rest position
  rw [ProtectedHeader.ofBytes, h]
  rfl

theorem takes_read {h : Headers} {b b' : Bytes} (hs : h.Sound)
    (hb : IsBytes b h.protectedHeader.bytes) (hb' : Value.Written b' (.map h.unprotected)) :
    Headers.read.Takes (b ++ b') h := by
  refine (takes_bstr hb _).bind ?_
  rw [← List.nil_append b']
  refine (takes_ofBytes hs.faithful).bind ?_
  exact (LabelMap.takes_read hb' hs.shallow _).map _

theorem takes_read_encode {h : Headers} (hs : h.Sound) (fits : h.encode.length < 2 ^ 64) :
    Headers.read.Takes h.encode h := by
  rw [encode, List.length_append] at fits
  have hl := length_le_length_bytes h.protectedHeader.bytes
  exact takes_read hs (bytes_isBytes (by omega)) (LabelMap.fits_of_length (by omega)).written

end Headers

namespace Recipient

/-- A recipient that can be read back: its headers can, and so can its recipients. -/
inductive Sound : Recipient → Prop
  | mk {r : Recipient} (headers : r.toHeaders.Sound) (recipients : ∀ s ∈ r.recipients, Sound s) :
      Sound r

theorem mk_eta (r : Recipient) : (⟨r.toHeaders, r.ciphertext, r.recipients⟩ : Recipient) = r := by
  cases r
  rfl

theorem direct_sound (keyId : Bytes) : (direct keyId).Sound := by
  refine .mk ⟨rfl, ?_⟩ fun s hs => nomatch hs
  have shallow (i : Int64) (bs : Bytes) : (Value.int i).depth ≤ Value.maxDepth ∧
      (Value.bytes bs).depth ≤ Value.maxDepth := by
    show 1 ≤ 16 ∧ 1 ≤ 16
    decide
  have algorithm := LabelMap.forall_insert (P := fun v => v.depth ≤ Value.maxDepth)
    (m := .empty) (l := Header.algorithm) (fun e he => nomatch he) (shallow Algorithm.direct.id []).1
  exact LabelMap.forall_insert (P := fun v => v.depth ≤ Value.maxDepth) algorithm (shallow 0 keyId).2

@[elab_as_elim]
theorem inductionOn {motive : Recipient → Prop} (r : Recipient)
    (mk : ∀ r : Recipient, (∀ s ∈ r.recipients, motive s) → motive r) : motive r :=
  match r with
  | ⟨headers, ciphertext, rs⟩ => mk ⟨headers, ciphertext, rs⟩ fun s _ => inductionOn s mk
termination_by sizeOf r
decreasing_by
  rename_i hs
  have := List.sizeOf_lt_of_mem hs
  simp at this ⊢
  omega

theorem depthOfList_le {rs : List Recipient} {n : Nat} :
    depthOfList rs ≤ n ↔ ∀ r ∈ rs, r.depth ≤ n := by
  induction rs with
  | nil => simp [depthOfList]
  | cons r rs ih => rw [depthOfList, Nat.max_le, ih, List.forall_mem_cons]

theorem depth_eq (r : Recipient) : r.depth = depthOfList r.recipients + 1 := by
  cases r
  rw [depth, Nat.add_comm]

theorem encodeItems_eq (rs : List Recipient) : encodeItems rs = rs.flatMap encode := by
  induction rs with
  | nil => rfl
  | cons r rs ih => simp [encodeItems, ih]

theorem encode_eq (r : Recipient) : r.encode =
    head .array (if r.recipients = [] then 3 else 4) ++ (r.toHeaders.encode ++
      (Cbor.bytes r.ciphertext ++ if r.recipients = [] then [] else encodeList r.recipients)) := by
  obtain ⟨headers, ciphertext, rs⟩ := r
  cases rs with
  | nil => simp [encode]
  | cons s rs => simp [encode, encodeList, encodeItems]

theorem encode_length_pos (r : Recipient) : 0 < r.encode.length := by
  have := head_length_pos .array (if r.recipients = [] then 3 else 4)
  rw [encode_eq, List.length_append]
  omega

theorem length_lt_of_fits {rs : List Recipient} (fits : (encodeList rs).length < 2 ^ 64) :
    rs.length < 2 ^ 64 ∧ ∀ r ∈ rs, r.encode.length < 2 ^ 64 := by
  rw [encodeList, encodeItems_eq, List.length_append] at fits
  have hn := length_le_length_flatMap (f := encode) fun r (_ : r ∈ rs) => r.encode_length_pos
  refine ⟨by omega, fun r hr => ?_⟩
  have := length_le_of_mem_flatMap (f := encode) hr
  omega

/-- A list of recipients, each of which is read or refused for the same reason, is read if they all
are. -/
theorem returns_list {rs : List Recipient} {r : Reader Recipient} {P : Recipient → Prop}
    [DecidablePred P] {e : DecodingError} (hne : rs ≠ []) (fits : (encodeList rs).length < 2 ^ 64)
    (each : ∀ s ∈ rs, r.Returns s.encode (if P s then .ok s else .error e)) :
    (listOf "recipients" "recipients" r).Returns (encodeList rs)
      (if ∀ s ∈ rs, P s then .ok rs else .error e) := by
  have hd : IsHead .array (head .array rs.length) rs.length :=
    head_isHead .array (length_lt_of_fits fits).1
  rw [encodeList, encodeItems_eq]
  exact returns_listOf hne hd each _ _

theorem length_of_fits {r : Recipient} (fits : r.encode.length < 2 ^ 64) :
    r.toHeaders.encode.length < 2 ^ 64 ∧ r.ciphertext.length < 2 ^ 64 ∧
      (r.recipients ≠ [] → (encodeList r.recipients).length < 2 ^ 64) := by
  have hc := length_le_length_bytes r.ciphertext
  rw [encode_eq, List.length_append, List.length_append, List.length_append] at fits
  refine ⟨by omega, by omega, fun hne => ?_⟩
  rw [if_neg hne, if_neg hne] at fits
  omega

/-- A recipient is read if its headers and its recipients are, where each can be refused. -/
theorem returns_readWithin_succ {r : Recipient} {e : DecodingError} {P Q : Prop} [Decidable P]
    [Decidable Q] {max levels : Nat} (fits : r.encode.length < 2 ^ 64)
    (headers : Headers.read.Returns r.toHeaders.encode (if P then .ok r.toHeaders else .error e))
    (recipients : r.recipients ≠ [] →
      (listOf "recipients" "recipients" (readWithin max levels)).Returns (encodeList r.recipients)
        (if Q then .ok r.recipients else .error e))
    (leaf : r.recipients = [] → Q) :
    (readWithin max (levels + 1)).Returns r.encode (if P ∧ Q then .ok r else .error e) := by
  have ciphertext := takes_bstr (bytes_isBytes (length_of_fits fits).2.1) "ciphertext"
  rw [encode_eq, readWithin]
  by_cases hnil : r.recipients = []
  · rw [if_pos hnil, if_pos hnil]
    refine (takes_arrayLength (head_isHead .array (by decide)) name).returns ?_
    refine headers.and (ciphertext.returns ?_)
    rw [if_pos (leaf hnil)]
    show Takes (pure ⟨r.toHeaders, r.ciphertext, []⟩) [] r
    rw [← hnil, mk_eta]
    exact takes_pure r
  · rw [if_neg hnil, if_neg hnil]
    refine (takes_arrayLength (head_isHead .array (by decide)) name).returns ?_
    refine headers.and (ciphertext.returns ?_)
    rw [← mk_eta r]
    exact (recipients hnil).map_ite _

/-- A recipient is read back unless it nests too deep. -/
theorem returns_readWithin {r : Recipient} (hs : r.Sound) (fits : r.encode.length < 2 ^ 64)
    (max levels : Nat) : (readWithin max levels).Returns r.encode
      (if r.depth ≤ levels then .ok r else .error (.nestingTooDeep name max)) := by
  induction hs generalizing levels with
  | @mk r headers _ ih =>
    rw [depth_eq]
    cases levels with
    | zero => exact refuses_throw _ _
    | succ n =>
      obtain ⟨hh, -, hl⟩ := length_of_fits fits
      have hheaders := Headers.takes_read_encode headers hh
      have hr := returns_readWithin_succ (P := True) (e := .nestingTooDeep name max) fits hheaders
        (fun hnil => returns_list hnil (hl hnil) fun s hs =>
          ih s hs ((length_lt_of_fits (hl hnil)).2 s hs) n)
        (by simp +contextual)
      simpa only [true_and, Nat.add_le_add_iff_right, depthOfList_le] using hr

end Recipient

end Cose
