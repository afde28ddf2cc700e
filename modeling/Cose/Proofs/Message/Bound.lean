import Mathlib.Order.Bounds.Basic
import Cose.Proofs.Message.Production

namespace Cose

open Cbor Reader

theorem Headers.sound_of_genuine {h : Headers} (hg : h.protectedHeader.Genuine) (hs : h.Shallow)
    (fits : h.encode.length < 2 ^ 64) : h.Sound := by
  have hl := length_le_length_bytes h.protectedHeader.bytes
  rw [encode, List.length_append] at fits
  refine ⟨?_, hs.2⟩
  rw [hg.decodeHeader (by omega), if_pos hs.1]

namespace Recipient

theorem sound_of_genuine {r : Recipient} (hg : ∀ h ∈ r.allHeaders, h.protectedHeader.Genuine)
    (hs : ∀ h ∈ r.allHeaders, h.Shallow) (fits : r.encode.length < 2 ^ 64) : r.Sound := by
  induction r using inductionOn with
  | mk r ih =>
    obtain ⟨hh, -, hl⟩ := length_of_fits fits
    obtain ⟨own, rest⟩ := forall_allHeaders.mp hg
    obtain ⟨shallow, deeper⟩ := forall_allHeaders.mp hs
    refine .mk (Headers.sound_of_genuine own shallow hh) fun s mem => ?_
    have fits' := length_lt_of_fits (hl (List.ne_nil_of_mem mem))
    exact ih s mem (rest s mem) (deeper s mem) (fits'.2 s mem)

theorem sound_of_mem {rs : List Recipient}
    (hg : ∀ r ∈ rs, ∀ h ∈ r.allHeaders, h.protectedHeader.Genuine)
    (hs : ∀ r ∈ rs, ∀ h ∈ r.allHeaders, h.Shallow) (fits : (encodeList rs).length < 2 ^ 64) :
    ∀ r ∈ rs, r.Sound := by
  intro r mem
  exact sound_of_genuine (hg r mem) (hs r mem) ((length_lt_of_fits fits).2 r mem)

/-- A list that must have members is refused as soon as its length is known. -/
theorem refuses_readList_nil (max : Nat) :
    (readList max).Refuses (encodeList []) (.arrayLength "recipients" "at least 1" 0) := by
  have hd : IsHead .array (head .array 0) 0 := head_isHead .array (by decide)
  exact (takes_arrayLength hd "recipients").refuses (refuses_throw [] _)

end Recipient

namespace Message

/-- The content of a structure, embedded or not; those that have no place for it have none. -/
def content : {k : Kind} → k.Body → Option Bytes
  | .sign1, m => m.payload
  | .sign, m => m.payload
  | .mac0, m => m.payload
  | .mac, m => m.payload
  | .encrypt0, m => m.ciphertext
  | .encrypt, m => m.ciphertext
  | .signature, _ | .recipient, _ => none

/-- The byte string that a structure must hold, where it must hold one. -/
def token : {k : Kind} → k.Body → Bytes
  | .sign1, m => m.signature
  | .signature, m => m.signature
  | .mac0, m => m.tag
  | .mac, m => m.tag
  | .recipient, m => m.ciphertext
  | .sign, _ | .encrypt0, _ | .encrypt, _ => []

/-- The structure has in each of its fields what the draft has collected for it, whether or not the
draft can be built. -/
structure Draft.Holds {k : Kind} (d : Draft k) (m : k.Body) : Prop where
  headers : d.headers = .ok (Message.headers m)
  content : ∀ field, k.content? = some field → d.content.resolve field = .ok (Message.content m)
  token : ∀ field, k.token? = some field → d.token = some (Message.token m)
  parts : d.parts = Message.parts m

namespace Draft

variable {k : Kind} {d : Draft k} {m : k.Body}

/-- Nothing but the depth of the recipients, their level counted in, can come between. -/
theorem bind_shallow {α : Type} {level n : Nat} {rs : List Recipient}
    (hn : level + Recipient.depthOfList rs = n) (a : α) :
    ((liftM (shallow level rs) : Except Error Unit) >>= fun _ => .ok a) =
      if n ≤ Recipient.maxDepth then .ok a
      else .error (.draft (.recipientsTooDeep Recipient.maxDepth)) := by
  subst hn
  unfold shallow
  split
  next h =>
    rw [if_neg (Nat.not_le.mpr h)]
    rfl
  next h =>
    rw [if_pos (Nat.le_of_not_lt h)]
    rfl

/-- What a draft holds is built unless its recipients nest too deep, as long as there are members in
its list where there must be some. -/
theorem build_of_holds (h : d.Holds m) (hne : k ∈ [.sign, .mac, .encrypt] → Message.parts m ≠ []) :
    d.build = if recipientDepth m ≤ Recipient.maxDepth then .ok m
      else .error (.draft (.recipientsTooDeep Recipient.maxDepth)) := by
  obtain ⟨hh, hc, ht, hp⟩ := h
  cases k with
  | sign1 =>
    rw [build, hc "payload" rfl, ht "signature" rfl, hh]
    rfl
  | sign =>
    rw [build, hc "payload" rfl, hp, nonempty_eq_ok_iff.mpr (hne (by decide)), hh]
    rfl
  | signature =>
    rw [build, ht "signature" rfl, hh]
    rfl
  | mac0 =>
    rw [build, hc "payload" rfl, ht "tag" rfl, hh]
    rfl
  | mac =>
    rw [build, hc "payload" rfl, ht "tag" rfl, hp, nonempty_eq_ok_iff.mpr (hne (by decide)), hh]
    exact bind_shallow (Nat.zero_add _) m
  | encrypt0 =>
    rw [build, hc "ciphertext" rfl, hh]
    rfl
  | encrypt =>
    rw [build, hc "ciphertext" rfl, hp, nonempty_eq_ok_iff.mpr (hne (by decide)), hh]
    exact bind_shallow (Nat.zero_add _) m
  | recipient =>
    rw [build, ht "ciphertext" rfl, hp, hh, ← Recipient.mk_eta m]
    exact bind_shallow rfl (Recipient.mk m.toHeaders m.ciphertext m.recipients)

theorem holds_of_build {m : k.Body} (h : d.build = .ok m) : d.Holds m where
  headers := (of_build h).1
  content field own := by
    cases k with
    | sign1 =>
      cases own
      exact (build_sign1 h).2.1
    | sign =>
      cases own
      exact (build_sign h).2.1
    | mac0 =>
      cases own
      exact (build_mac0 h).2.1
    | mac =>
      cases own
      exact (build_mac h).2.1
    | encrypt0 =>
      cases own
      exact (build_encrypt0 h).2
    | encrypt =>
      cases own
      exact (build_encrypt h).2.1
    | _ => cases own
  token field own := by
    cases k with
    | sign1 => exact (build_sign1 h).2.2
    | signature => exact (build_signature h).2
    | mac0 => exact (build_mac0 h).2.2
    | mac => exact (build_mac h).2.2.1
    | recipient => exact (build_recipient h).2.1
    | _ => cases own
  parts := (of_build h).2.1

theorem build_eq_ok_iff {m : k.Body} : d.build = .ok m ↔ d.Holds m ∧
    (k ∈ [.sign, .mac, .encrypt] → Message.parts m ≠ []) ∧
      recipientDepth m ≤ Recipient.maxDepth := by
  constructor
  · intro h
    obtain ⟨-, -, listed, shallow⟩ := of_build h
    exact ⟨holds_of_build h, listed, shallow⟩
  · rintro ⟨holds, listed, shallow⟩
    rw [build_of_holds holds listed, if_pos shallow]

theorem build_of_nil (h : d.Holds m) (listed : k ∈ [.mac, .encrypt]) (hnil : Message.parts m = []) :
    d.build = .error (.draft (.missingField "recipients")) := by
  obtain ⟨-, hc, ht, hp⟩ := h
  cases k with
  | mac =>
    rw [build, hc "payload" rfl, ht "tag" rfl, hp, hnil]
    rfl
  | encrypt =>
    rw [build, hc "ciphertext" rfl, hp, hnil]
    rfl
  | _ => simp at listed

end Draft

variable {k : Kind} {m : k.Body}

theorem sound_of_shallow (carries : k ∈ [.mac, .encrypt, .recipient])
    (hne : k ∈ [.mac, .encrypt] → parts m ≠ [])
    (genuine : ∀ h ∈ allHeaders m, h.protectedHeader.Genuine)
    (shallow : ∀ h ∈ allHeaders m, h.Shallow) (fits : (encode m).length < 2 ^ 64) : Sound m := by
  obtain ⟨own, given⟩ := forall_allHeaders.mp genuine
  obtain ⟨hs, hgiven⟩ := forall_allHeaders.mp shallow
  have hown := Headers.sound_of_genuine own hs (length_headers_lt fits)
  cases k with
  | mac =>
    exact ⟨hown, hne (by decide),
      Recipient.sound_of_mem given hgiven (Mac.length_encodeList_lt fits)⟩
  | encrypt =>
    exact ⟨hown, hne (by decide),
      Recipient.sound_of_mem given hgiven (Encrypt.length_encodeList_lt fits)⟩
  | recipient =>
    exact Recipient.sound_of_genuine (Recipient.forall_allHeaders.mpr ⟨own, given⟩)
      (Recipient.forall_allHeaders.mpr ⟨hs, hgiven⟩) fits
  | _ => simp at carries

theorem decodeWithin_of_nil (listed : k ∈ [.mac, .encrypt]) (hnil : parts m = [])
    (own : (headers m).Sound) (fits : (encode m).length < 2 ^ 64) (max : Nat) :
    let outcome := .error (.arrayLength "recipients" "at least 1" 0)
    decodeWithin max k (encode m) = outcome ∧ decodeWithin max k (encodeTagged m) = outcome := by
  have hr : (k.read max).Returns (encode m)
      (.error (.arrayLength "recipients" "at least 1" 0)) := by
    have hheaders : Headers.read.Returns (headers m).encode (if True then .ok (headers m)
        else .error (.arrayLength "recipients" "at least 1" 0)) :=
      Headers.takes_read_encode own (length_headers_lt fits)
    have hlist (rs : List Recipient) (h : rs = []) : (Recipient.readList max).Returns
        (Recipient.encodeList rs) (if False then .ok rs
          else .error (.arrayLength "recipients" "at least 1" 0)) := by
      subst h
      exact Recipient.refuses_readList_nil max
    have hnone : ¬(True ∧ False) := fun h => h.2
    cases k with
    | mac =>
      have hr := Mac.returns_read fits hheaders (hlist _ hnil)
      rwa [if_neg hnone] at hr
    | encrypt =>
      have hr := Encrypt.returns_read fits hheaders (hlist _ hnil)
      rwa [if_neg hnone] at hr
    | _ => simp at listed
  exact decodeWithin_of_returns hr

theorem isLeast_depth {r : Recipient} (sound : r.Sound) (fits : r.encode.length < 2 ^ 64) :
    IsLeast {max | ∃ s, decodeWithin max .recipient r.encode = .ok s} r.depth := by
  have hdecode (max : Nat) :=
    (decodeWithin_of_returns (returns_read (k := .recipient) sound fits max)).1
  constructor
  · exact ⟨r, (hdecode r.depth).trans (if_pos (Nat.le_refl _))⟩
  · intro max hform
    obtain ⟨s, hs⟩ := hform
    by_cases hle : r.depth ≤ max
    · exact hle
    · have herror := (hdecode max).trans (if_neg hle)
      cases hs.symm.trans herror

theorem recipientDepth_of_nil (listed : k ∈ [.mac, .encrypt]) (hnil : parts m = []) :
    recipientDepth m = 0 := by
  cases k with
  | mac | encrypt => exact congrArg Recipient.depthOfList hnil
  | _ => simp at listed

theorem nonempty_of_carries (carries : k ∈ [.mac, .encrypt, .recipient])
    (h : ¬(k ∈ [.mac, .encrypt] ∧ parts m = [])) : k ∈ [.sign, .mac, .encrypt] → parts m ≠ [] := by
  intro listed hnil
  cases k <;> simp_all

/-- The builder measures the recipients that it is given. -/
theorem Draft.build_tooDeep_iff {d : Draft k} (carries : k ∈ [.mac, .encrypt, .recipient])
    (holds : d.Holds m) : (∃ n, d.build = .error (.draft (.recipientsTooDeep n))) ↔
      Recipient.maxDepth < recipientDepth m := by
  by_cases hnil : k ∈ [.mac, .encrypt] ∧ Message.parts m = []
  · rw [build_of_nil holds hnil.1 hnil.2, recipientDepth_of_nil hnil.1 hnil.2]
    simp
  · rw [build_of_holds holds (nonempty_of_carries carries hnil)]
    split
    next hle => simp [hle]
    next hlt => simp [Nat.lt_of_not_le hlt]

/-- The reader counts down the levels that are left. -/
theorem decode_tooDeep_iff (carries : k ∈ [.mac, .encrypt, .recipient])
    (genuine : ∀ h ∈ allHeaders m, h.protectedHeader.Genuine)
    (shallow : ∀ h ∈ allHeaders m, h.Shallow) (fits : (encode m).length < 2 ^ 64) {b : Bytes}
    (hb : b ∈ [encode m, encodeTagged m]) :
    (∃ n, decode k b = .error (.nestingTooDeep "COSE_recipient" n)) ↔
      Recipient.maxDepth < recipientDepth m := by
  have either {x : Except DecodingError k.Body}
      (h : decodeWithin Recipient.maxDepth k (encode m) = x ∧
        decodeWithin Recipient.maxDepth k (encodeTagged m) = x) : decode k b = x := by
    rcases List.mem_pair.mp hb with rfl | rfl
    · exact h.1
    · exact h.2
  by_cases hnil : k ∈ [.mac, .encrypt] ∧ parts m = []
  · have own := Headers.sound_of_genuine (forall_allHeaders.mp genuine).1
      (forall_allHeaders.mp shallow).1 (length_headers_lt fits)
    rw [either (decodeWithin_of_nil hnil.1 hnil.2 own fits _), recipientDepth_of_nil hnil.1 hnil.2]
    simp
  · have sound := sound_of_shallow carries (fun listed h => hnil ⟨listed, h⟩) genuine shallow fits
    rw [either (decodeWithin_of_returns (returns_read sound fits _))]
    split
    next hle => simp [hle]
    next hlt => simp [Recipient.name, Nat.lt_of_not_le hlt]

/-- What a draft holds is refused by the builder for the depth of its recipients if and only if the
reader refuses it for that reason, with its tag and without it; and the depth of a recipient is the
least bound under which it is read. The recipients can be of any shape and depth. Their headers, and
those of the message, are such as come about and hold no value that nests too deep by itself.
Structures longer than a head can announce are left out. -/
theorem recipient_bound_shared :
    (∀ {k : Kind} (d : Draft k) (m : k.Body), k ∈ [.mac, .encrypt, .recipient] → d.Holds m →
      (∀ part ∈ d.parts, ∀ h ∈ partHeaders part, h.protectedHeader.Genuine) →
      (∀ h ∈ allHeaders m, h.Shallow) → (encode m).length < 2 ^ 64 →
      ∀ b ∈ [encode m, encodeTagged m],
        (∃ n, d.build = .error (.draft (.recipientsTooDeep n))) ↔
          ∃ n, decode k b = .error (.nestingTooDeep "COSE_recipient" n)) ∧
    ∀ r : Recipient, (∀ h ∈ r.allHeaders, h.protectedHeader.Genuine) →
      (∀ h ∈ r.allHeaders, h.Shallow) → r.encode.length < 2 ^ 64 →
      IsLeast {max | ∃ s, decodeWithin max .recipient r.encode = .ok s} r.depth := by
  refine ⟨?_, ?_⟩
  · intro k d m carries holds given shallow fits b hb
    have genuine : ∀ h ∈ allHeaders m, h.protectedHeader.Genuine := by
      rw [forall_allHeaders, ← holds.parts]
      exact ⟨Draft.genuine_of_headers holds.headers, given⟩
    rw [Draft.build_tooDeep_iff carries holds]
    exact (decode_tooDeep_iff carries genuine shallow fits hb).symm
  · intro r genuine shallow fits
    exact isLeast_depth (Recipient.sound_of_genuine genuine shallow fits) fits

/-- A recipient with so many levels of others below it, two on each of them. -/
def tower : Nat → Recipient
  | 0 => .direct [0x2a]
  | n + 1 => ⟨⟨.empty, .empty⟩, [], [.direct [], tower n]⟩

theorem tower_headers (n : Nat) :
    ∀ h ∈ (tower n).allHeaders, h.protectedHeader.Genuine ∧ h.Shallow := by
  have direct (keyId : Bytes) :
      ∀ h ∈ (Recipient.direct keyId).allHeaders, h.protectedHeader.Genuine ∧ h.Shallow := by
    cases Recipient.direct_sound keyId with
    | mk sound _ =>
      refine Recipient.forall_allHeaders.mpr ⟨⟨.inl rfl, LabelMap.shallow_empty, sound.shallow⟩, ?_⟩
      exact fun s hs => nomatch hs
  induction n with
  | zero => exact direct [0x2a]
  | succ n ih =>
    refine Recipient.forall_allHeaders.mpr
      ⟨⟨.inl rfl, LabelMap.shallow_empty, LabelMap.shallow_empty⟩, ?_⟩
    intro s hs
    rcases List.mem_pair.mp hs with rfl | rfl
    · exact direct []
    · exact ih

/-- A draft with such a recipient, and the message that it stands for. -/
def towerDraft (n : Nat) : Draft .mac where
  protectedSlot := .map .empty
  content := .detached
  token := some [0xa5]
  parts := [tower n]

def towerMac (n : Nat) : Mac := ⟨⟨.ofMap .empty, .empty⟩, none, [0xa5], [tower n]⟩

theorem towerDraft_holds (n : Nat) : (towerDraft n).Holds (towerMac n) where
  headers := rfl
  content := by
    intro field h
    cases h
    rfl
  token := by
    intro field h
    cases h
    rfl
  parts := rfl

theorem recipient_bound_shared_tower :
    ((∃ n, (towerDraft 8).build = .error (.draft (.recipientsTooDeep n))) ∧
      ∃ n, decode .mac (encode (k := .mac) (towerMac 8)) =
        .error (.nestingTooDeep "COSE_recipient" n)) ∧
    ((towerDraft 7).build = .ok (towerMac 7) ∧
      ¬∃ n, decode .mac (encodeTagged (k := .mac) (towerMac 7)) =
        .error (.nestingTooDeep "COSE_recipient" n)) ∧
    IsLeast {max | ∃ s, decodeWithin max .recipient (tower 3).encode = .ok s} 4 := by
  obtain ⟨shared, least⟩ := recipient_bound_shared
  have genuine (n : Nat) : ∀ part ∈ (towerDraft n).parts,
      ∀ h ∈ partHeaders (k := .mac) part, h.protectedHeader.Genuine := by
    intro part hp h hh
    cases List.mem_singleton.mp hp
    exact (tower_headers n h hh).1
  have shallow (n : Nat) : ∀ h ∈ allHeaders (k := .mac) (towerMac n), h.Shallow := by
    refine forall_allHeaders.mpr ⟨⟨LabelMap.shallow_empty, LabelMap.shallow_empty⟩, ?_⟩
    intro part hp h hh
    cases List.mem_singleton.mp hp
    exact (tower_headers n h hh).2
  have fits : (encode (k := .mac) (towerMac 8)).length < 2 ^ 64 := by decide +kernel
  have fits' : (encode (k := .mac) (towerMac 7)).length < 2 ^ 64 := by decide +kernel
  have tooDeep : (towerDraft 8).build = .error (.draft (.recipientsTooDeep 8)) := rfl
  have built : (towerDraft 7).build = .ok (towerMac 7) := rfl
  refine ⟨⟨⟨8, tooDeep⟩, ?_⟩, ⟨built, ?_⟩, ?_⟩
  · exact (shared _ _ (by decide) (towerDraft_holds 8) (genuine 8) (shallow 8) fits _
      List.mem_cons_self).mp ⟨8, tooDeep⟩
  · rw [← shared _ _ (by decide) (towerDraft_holds 7) (genuine 7) (shallow 7) fits' _
      (List.mem_cons_of_mem _ List.mem_cons_self), built]
    simp
  · exact least (tower 3) (fun h hh => (tower_headers 3 h hh).1)
      (fun h hh => (tower_headers 3 h hh).2) (by decide +kernel)

end Message

end Cose
