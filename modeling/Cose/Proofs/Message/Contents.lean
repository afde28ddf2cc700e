import Cose.Proofs.LabelMap.Deterministic
import Cose.Proofs.Message.Grammar

namespace Cose

open Cbor

namespace Cbor

/-- An item that is not an array. -/
def NotArray (b : Bytes) : Prop := ∀ hd t n, IsHead .array hd n → b ≠ hd ++ t

/-- The contents of the protected headers of a structure, its own first and then those of the
structures in it, in the order in which they are written. -/
inductive Carries : Bytes → List Bytes → Prop
  | flat {hd p c : Bytes} {items : List Bytes} (array : IsHead .array hd (p :: items).length)
      (own : IsBytes p c) (rest : ∀ i ∈ items, WellFormed i) (flat : ∀ i ∈ items, NotArray i) :
      Carries (hd ++ (p :: items).flatten) [c]
  | nested {hd p c hd' : Bytes} {items : List Bytes} {parts : List (Bytes × List Bytes)}
      (array : IsHead .array hd (p :: (items ++ [hd' ++ parts.flatMap (·.1)])).length)
      (own : IsBytes p c) (rest : ∀ i ∈ items, WellFormed i)
      (list : IsHead .array hd' parts.length) (each : ∀ q ∈ parts, Carries q.1 q.2) :
      Carries (hd ++ (p :: (items ++ [hd' ++ parts.flatMap (·.1)])).flatten)
        (c :: parts.flatMap (·.2))
  | tagged {hd b : Bytes} {n : Nat} {cs : List Bytes} (tag : IsHead .tag hd n)
      (h : Carries b cs) : Carries (hd ++ b) cs

theorem IsHead.notArray {major : Major} {hd : Bytes} {n : Nat} (h : IsHead major hd n)
    (hne : major ≠ .array) (t : Bytes) : NotArray (hd ++ t) := by
  intro hd' t' n' h' heq
  exact hne (h.unique h' heq).1

theorem IsBytes.notArray {b bs : Bytes} (h : IsBytes b bs) : NotArray b := by
  cases h with
  | mk h => exact h.notArray (by decide) _

theorem IsBytesOrNull.notArray {b : Bytes} {bs : Option Bytes} (h : IsBytesOrNull b bs) :
    NotArray b := by
  cases h with
  | bytes h => exact h.notArray
  | null =>
    intro hd t n h heq
    exact ne_of_simple (t := []) (.inr (.inr rfl)) h heq.symm

theorem IsBytesOrNull.wellFormed {b : Bytes} {bs : Option Bytes} (h : IsBytesOrNull b bs) :
    WellFormed b := by
  cases h with
  | bytes h => exact h.wellFormed
  | null => exact .simple (.inr (.inr rfl))

theorem IsBytes.unique {b bs bs' : Bytes} (h : IsBytes b bs) (h' : IsBytes b bs') : bs = bs' := by
  generalize hb : b = b' at h'
  cases h with
  | mk h =>
    cases h' with
    | mk h' => exact (h.unique h' hb).2.2.2

theorem array_inj {hd hd' : Bytes} {items items' : List Bytes} (h : IsHead .array hd items.length)
    (h' : IsHead .array hd' items'.length) (hitems : ∀ i ∈ items, WellFormed i)
    (hitems' : ∀ i ∈ items', WellFormed i) (heq : hd ++ items.flatten = hd' ++ items'.flatten) :
    items = items' := by
  obtain ⟨-, hlength, -, hflatten⟩ := h.unique h' heq
  exact WellFormed.eq_of_flatten hitems hitems' hlength hflatten

namespace Carries

/-- The last item of a structure with further structures in it is a list of items. -/
theorem wellFormed_nested {hd p c : Bytes} {items : List Bytes}
    {parts : List (Bytes × List Bytes)} (own : IsBytes p c) (rest : ∀ i ∈ items, WellFormed i)
    (list : IsHead .array hd parts.length) (each : ∀ q ∈ parts, WellFormed q.1) :
    ∀ i ∈ p :: (items ++ [hd ++ parts.flatMap (·.1)]), WellFormed i := by
  have hlist : WellFormed (hd ++ parts.flatMap (·.1)) := by
    rw [List.flatMap_def]
    refine .array (by rwa [List.length_map]) ?_
    rwa [List.forall_mem_map]
  rw [List.forall_mem_cons, List.forall_mem_append, List.forall_mem_singleton]
  exact ⟨own.wellFormed, rest, hlist⟩

theorem wellFormed {b : Bytes} {cs : List Bytes} (h : Carries b cs) : WellFormed b := by
  induction h with
  | flat array own rest => exact .array array (List.forall_mem_cons.mpr ⟨own.wellFormed, rest⟩)
  | nested array own rest list _ ih => exact .array array (wellFormed_nested own rest list ih)
  | tagged tag _ ih => exact .tagged tag ih

theorem eq_of_parts {parts parts' : List (Bytes × List Bytes)}
    (h : ∀ q ∈ parts, ∀ {cs}, Carries q.1 cs → q.2 = cs) (h' : ∀ q ∈ parts', Carries q.1 q.2)
    (heq : parts.map (·.1) = parts'.map (·.1)) : parts = parts' := by
  induction parts generalizing parts' with
  | nil => exact (List.map_eq_nil_iff.mp heq.symm).symm
  | cons q parts ih =>
    cases parts' with
    | nil => cases heq
    | cons q' parts' =>
      obtain ⟨hq, hrest⟩ := List.cons.inj heq
      have hq : q.1 = q'.1 := hq
      have hcs := h' q' List.mem_cons_self
      rw [← hq] at hcs
      rw [Prod.ext hq (h q List.mem_cons_self hcs),
        ih (fun r hr => h r (List.mem_cons_of_mem q hr))
          (fun r hr => h' r (List.mem_cons_of_mem q' hr)) hrest]

theorem ne_of_notArray {items items' : List Bytes} {hd t : Bytes} {n : Nat}
    (h : ∀ i ∈ items, NotArray i) (list : IsHead .array hd n) : items ≠ items' ++ [hd ++ t] := by
  rintro rfl
  exact h (hd ++ t) (List.mem_append_right items' (List.mem_singleton_self _)) hd t n list rfl

/-- The contents are determined by the bytes. -/
theorem unique {b : Bytes} {cs ds : List Bytes} (h : Carries b cs) (h' : Carries b ds) :
    cs = ds := by
  generalize hb : b = b' at h'
  induction h generalizing b' ds with
  | flat array own rest flat =>
    have hwf := List.forall_mem_cons.mpr ⟨own.wellFormed, rest⟩
    cases h' with
    | flat array' own' rest' =>
      have hwf' := List.forall_mem_cons.mpr ⟨own'.wellFormed, rest'⟩
      obtain ⟨rfl, -⟩ := List.cons.inj (array_inj array array' hwf hwf' hb)
      rw [own.unique own']
    | nested array' own' rest' list' each' =>
      have hwf' := wellFormed_nested own' rest' list' fun q hq => (each' q hq).wellFormed
      obtain ⟨-, hitems⟩ := List.cons.inj (array_inj array array' hwf hwf' hb)
      exact absurd hitems (ne_of_notArray flat list')
    | tagged tag' _ => cases (array.unique tag' hb).1
  | nested array own rest list each ih =>
    have hwf := wellFormed_nested own rest list fun q hq => (each q hq).wellFormed
    cases h' with
    | flat array' own' rest' flat' =>
      have hwf' := List.forall_mem_cons.mpr ⟨own'.wellFormed, rest'⟩
      obtain ⟨-, hitems⟩ := List.cons.inj (array_inj array array' hwf hwf' hb)
      exact absurd hitems.symm (ne_of_notArray flat' list)
    | nested array' own' rest' list' each' =>
      have hwf' := wellFormed_nested own' rest' list' fun q hq => (each' q hq).wellFormed
      obtain ⟨rfl, hitems⟩ := List.cons.inj (array_inj array array' hwf hwf' hb)
      have hlist := (List.append_inj' hitems rfl).2
      obtain ⟨-, hlength, -, hflatMap⟩ := list.unique list' (List.cons.inj hlist).1
      rw [List.flatMap_def, List.flatMap_def] at hflatMap
      have hparts := WellFormed.eq_of_flatten
        (List.forall_mem_map.mpr fun q hq => (each q hq).wellFormed)
        (List.forall_mem_map.mpr fun q hq => (each' q hq).wellFormed)
        (by rw [List.length_map, List.length_map, hlength]) hflatMap
      rw [own.unique own', eq_of_parts (fun q hq cs hcs => ih q hq _ rfl hcs) each' hparts]
    | tagged tag' _ => cases (array.unique tag' hb).1
  | tagged tag _ ih =>
    cases h' with
    | flat array' => cases (tag.unique array' hb).1
    | nested array' => cases (tag.unique array' hb).1
    | tagged tag' h' => exact ih _ (tag.unique tag' hb).2.2.2 h'

end Carries

end Cbor

namespace Recipient

mutual

/-- The contents of the protected headers of a recipient, its own first. -/
def contents : Recipient → List Bytes
  | ⟨headers, _, recipients⟩ => headers.protectedHeader.bytes :: contentsOfList recipients

/-- The contents of the protected headers of recipients, one after the other. -/
def contentsOfList : List Recipient → List Bytes
  | [] => []
  | r :: rs => r.contents ++ contentsOfList rs

end

theorem contentsOfList_eq (rs : List Recipient) : contentsOfList rs = rs.flatMap contents := by
  induction rs with
  | nil => rfl
  | cons r rs ih => rw [contentsOfList, ih, List.flatMap_cons]

end Recipient

namespace Message

/-- The protected headers of a structure as it keeps them, its own first and then those of the
signatures or recipients in it. -/
def contents : {k : Kind} → k.Body → List Bytes
  | .sign1, m => [m.protectedHeader.bytes]
  | .sign, m => m.protectedHeader.bytes :: m.signatures.flatMap fun s => [s.protectedHeader.bytes]
  | .signature, m => [m.protectedHeader.bytes]
  | .mac0, m => [m.protectedHeader.bytes]
  | .mac, m => m.protectedHeader.bytes :: m.recipients.flatMap Recipient.contents
  | .encrypt0, m => [m.protectedHeader.bytes]
  | .encrypt, m => m.protectedHeader.bytes :: m.recipients.flatMap Recipient.contents
  | .recipient, m => Recipient.contents m

end Message

theorem Value.Written.notArray_map {b : Bytes} {m : LabelMap} (h : Value.Written b (.map m)) :
    NotArray b := by
  obtain ⟨hd, entries, rfl, hh, -⟩ := h.of_map
  exact hh.notArray (by decide) _

section

variable {hd b₁ : Bytes} {h : Headers}

theorem carries_flat (items : List Bytes) (array : IsHead .array hd (items.length + 2))
    (headers : Headers.Written b₁ h) (rest : ∀ i ∈ items, WellFormed i ∧ NotArray i) :
    Carries (hd ++ (b₁ ++ items.flatten)) [h.protectedHeader.bytes] := by
  cases headers with
  | @mk p u _ own unprotected _ =>
    have hc : Carries (hd ++ (p :: u :: items).flatten) [h.protectedHeader.bytes] := by
      refine .flat array own ?_ ?_
      · exact List.forall_mem_cons.mpr ⟨unprotected.wellFormed, fun i hi => (rest i hi).1⟩
      · exact List.forall_mem_cons.mpr ⟨unprotected.notArray_map, fun i hi => (rest i hi).2⟩
    rwa [List.flatten_cons, List.flatten_cons, ← List.append_assoc p] at hc

theorem carries_nested {α : Type} {F : Bytes → α → Prop} {f : α → List Bytes} {b : Bytes}
    {as : List α} (items : List Bytes) (array : IsHead .array hd (items.length + 3))
    (headers : Headers.Written b₁ h) (rest : ∀ i ∈ items, WellFormed i) (list : IsList F b as)
    (each : ∀ a ∈ as, ∀ b, F b a → Carries b (f a)) :
    Carries (hd ++ (b₁ ++ (items.flatten ++ b))) (h.protectedHeader.bytes :: as.flatMap f) := by
  cases headers with
  | @mk p u _ own unprotected _ =>
    cases list with
    | @mk hd' parts list _ written =>
      let carried : List (Bytes × List Bytes) := parts.map fun q => (q.1, f q.2)
      have hbytes : parts.flatMap (·.1) = carried.flatMap (·.1) := by rw [List.flatMap_map]
      have hcontents : (parts.map (·.2)).flatMap f = carried.flatMap (·.2) := by
        rw [List.flatMap_map, List.flatMap_map]
      have hc : Carries (hd ++ (p :: (u :: items ++ [hd' ++ carried.flatMap (·.1)])).flatten)
          (h.protectedHeader.bytes :: carried.flatMap (·.2)) := by
        refine .nested (by simpa using array) own ?_ (by rwa [List.length_map]) ?_
        · exact List.forall_mem_cons.mpr ⟨unprotected.wellFormed, rest⟩
        · rw [List.forall_mem_map]
          intro q hq
          exact each q.2 (List.mem_map_of_mem hq) q.1 (written q hq)
      rw [hbytes, hcontents]
      simpa using hc

end

theorem Recipient.Written.carries {b : Bytes} {r : Recipient} (h : Written b r) :
    Carries b r.contents := by
  induction r using inductionOn generalizing b with
  | mk r ih =>
    cases h with
    | @leaf hd b₁ b₂ c h array headers ciphertext =>
      have hc := carries_flat [b₂] array headers
        (List.forall_mem_singleton.mpr ⟨ciphertext.wellFormed, ciphertext.notArray⟩)
      rw [contents, contentsOfList]
      simpa using hc
    | @node hd b₁ b₂ b₃ c h rs array headers ciphertext recipients =>
      have hc := carries_nested [b₂] array headers
        (List.forall_mem_singleton.mpr ciphertext.wellFormed) recipients fun s hs _ => ih s hs
      rw [contents, contentsOfList_eq]
      simpa using hc

theorem Signature.Written.carries {b : Bytes} {s : Signature} (h : Written b s) :
    Carries b [s.protectedHeader.bytes] := by
  cases h with
  | @mk hd b₁ b₂ _ array headers signature =>
    have hc := carries_flat [b₂] array headers
      (List.forall_mem_singleton.mpr ⟨signature.wellFormed, signature.notArray⟩)
    simpa using hc

namespace Message

theorem WrittenArray.carries {k : Kind} {b : Bytes} {m : k.Body} (h : WrittenArray b m) :
    Carries b (contents m) := by
  cases k with
  | sign1 =>
    cases h with
    | @mk hd b₁ b₂ b₃ _ array headers payload signature =>
      have hc := carries_flat [b₂, b₃] array headers (by
        simp [payload.wellFormed, payload.notArray, signature.wellFormed, signature.notArray])
      simpa [contents] using hc
  | sign =>
    cases h with
    | @mk hd b₁ b₂ b₃ _ array headers payload signatures =>
      have hc := carries_nested [b₂] array headers
        (List.forall_mem_singleton.mpr payload.wellFormed) signatures
        fun s _ _ => Signature.Written.carries
      simpa [contents] using hc
  | signature => exact Signature.Written.carries h
  | mac0 =>
    cases h with
    | @mk hd b₁ b₂ b₃ _ array headers payload tag =>
      have hc := carries_flat [b₂, b₃] array headers (by
        simp [payload.wellFormed, payload.notArray, tag.wellFormed, tag.notArray])
      simpa [contents] using hc
  | mac =>
    cases h with
    | @mk hd b₁ b₂ b₃ b₄ _ array headers payload tag recipients =>
      have hc := carries_nested [b₂, b₃] array headers (by
        simp [payload.wellFormed, tag.wellFormed]) recipients
        fun r _ _ => Recipient.Written.carries
      simpa [contents] using hc
  | encrypt0 =>
    cases h with
    | @mk hd b₁ b₂ _ array headers ciphertext =>
      have hc := carries_flat [b₂] array headers
        (List.forall_mem_singleton.mpr ⟨ciphertext.wellFormed, ciphertext.notArray⟩)
      simpa [contents] using hc
  | encrypt =>
    cases h with
    | @mk hd b₁ b₂ b₃ _ array headers ciphertext recipients =>
      have hc := carries_nested [b₂] array headers
        (List.forall_mem_singleton.mpr ciphertext.wellFormed) recipients
        fun r _ _ => Recipient.Written.carries
      simpa [contents] using hc
  | recipient => exact Recipient.Written.carries h

/-- What a structure keeps of its protected headers is what stood in them. -/
theorem Written.carries_iff {k : Kind} {b : Bytes} {m : k.Body} (h : Written b m)
    (cs : List Bytes) : Carries b cs ↔ cs = contents m := by
  have hc : Carries b (contents m) := by
    cases h with
    | array h => exact h.carries
    | tagged own tag h => exact .tagged tag h.carries
  constructor
  · intro h'
    exact h'.unique hc
  · rintro rfl
    exact hc

end Message

end Cose
