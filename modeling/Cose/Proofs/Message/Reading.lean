import Cose.Proofs.Cbor.Exact
import Cose.Proofs.Message.Grammar
import Cose.Proofs.Message.RoundTrip
import Cose.Proofs.Session

namespace Cose

open Cbor Reader

theorem ProtectedHeader.ofBytes_eq_ok {bs : Bytes} {p : ProtectedHeader} :
    ofBytes bs = .ok p ↔ p.bytes = bs ∧ LabelMap.decodeHeader p.bytes = .ok p.map := by
  constructor
  · intro h
    obtain ⟨m, hm, hp⟩ := eq_ok_of_bind h
    cases hp
    exact ⟨rfl, hm⟩
  · intro hform
    obtain ⟨rfl, hm⟩ := hform
    rw [ofBytes, hm]
    rfl

theorem Headers.reads_read : Headers.read.Reads Headers.Written := by
  refine ((reads_bstr _).bind fun bs => (reads_lift (ProtectedHeader.ofBytes bs)).bind fun p =>
    (LabelMap.reads_read _).map _).congr ?_
  intro b h
  constructor
  · intro hb
    cases hb with
    | @mk b₁ b₂ h protectedBytes unprotected sound =>
      exact ⟨b₁, h.protectedHeader.bytes, b₂, rfl, protectedBytes, [], h.protectedHeader, b₂, rfl,
        ⟨rfl, ProtectedHeader.ofBytes_eq_ok.mpr ⟨rfl, sound.faithful⟩⟩, h.unprotected,
        ⟨unprotected, sound.shallow⟩, rfl⟩
  · intro hform
    obtain ⟨b₁, bs, _, rfl, hbs, _, p, b₂, rfl, ⟨rfl, hp⟩, m, ⟨hm, shallow⟩, rfl⟩ := hform
    obtain ⟨rfl, faithful⟩ := ProtectedHeader.ofBytes_eq_ok.mp hp
    exact .mk hbs hm ⟨faithful, shallow⟩

theorem Sign1.reads_read : Sign1.read.Reads Sign1.Written := by
  refine ((reads_arrayOf name 4).bind fun _ => Headers.reads_read.bind fun _ =>
    (reads_bstrOrNil _).bind fun _ => (reads_bstr _).map _).congr ?_
  intro b m
  constructor
  · intro hb
    cases hb with
    | mk array headers payload signature =>
      exact ⟨_, (), _, rfl, array, _, _, _, rfl, headers, _, _, _, rfl, payload, _, signature, rfl⟩
  · intro hform
    obtain ⟨_, _, _, rfl, array, _, _, _, rfl, headers, _, _, _, rfl, payload, _, signature,
      rfl⟩ := hform
    exact .mk array headers payload signature

theorem Mac0.reads_read : Mac0.read.Reads Mac0.Written := by
  refine ((reads_arrayOf name 4).bind fun _ => Headers.reads_read.bind fun _ =>
    (reads_bstrOrNil _).bind fun _ => (reads_bstr _).map _).congr ?_
  intro b m
  constructor
  · intro hb
    cases hb with
    | mk array headers payload tag =>
      exact ⟨_, (), _, rfl, array, _, _, _, rfl, headers, _, _, _, rfl, payload, _, tag, rfl⟩
  · intro hform
    obtain ⟨_, _, _, rfl, array, _, _, _, rfl, headers, _, _, _, rfl, payload, _, tag,
      rfl⟩ := hform
    exact .mk array headers payload tag

theorem Encrypt0.reads_read : Encrypt0.read.Reads Encrypt0.Written := by
  refine ((reads_arrayOf name 3).bind fun _ => Headers.reads_read.bind fun _ =>
    (reads_bstrOrNil _).map _).congr ?_
  intro b m
  constructor
  · intro hb
    cases hb with
    | mk array headers ciphertext =>
      exact ⟨_, (), _, rfl, array, _, _, _, rfl, headers, _, ciphertext, rfl⟩
  · intro hform
    obtain ⟨_, _, _, rfl, array, _, _, _, rfl, headers, _, ciphertext, rfl⟩ := hform
    exact .mk array headers ciphertext

theorem Signature.reads_read : Signature.read.Reads Signature.Written := by
  refine ((reads_arrayOf name 3).bind fun _ => Headers.reads_read.bind fun _ =>
    (reads_bstr _).map _).congr ?_
  intro b s
  constructor
  · intro hb
    cases hb with
    | mk array headers signature =>
      exact ⟨_, (), _, rfl, array, _, _, _, rfl, headers, _, signature, rfl⟩
  · intro hform
    obtain ⟨_, _, _, rfl, array, _, _, _, rfl, headers, _, signature, rfl⟩ := hform
    exact .mk array headers signature

theorem Sign.reads_read : Sign.read.Reads Sign.Written := by
  refine ((reads_arrayOf name 4).bind fun _ => Headers.reads_read.bind fun _ =>
    (reads_bstrOrNil _).bind fun _ => (reads_listOf Signature.reads_read _ _).map _).congr ?_
  intro b m
  constructor
  · intro hb
    cases hb with
    | mk array headers payload signatures =>
      exact ⟨_, (), _, rfl, array, _, _, _, rfl, headers, _, _, _, rfl, payload, _, signatures,
        rfl⟩
  · intro hform
    obtain ⟨_, _, _, rfl, array, _, _, _, rfl, headers, _, _, _, rfl, payload, _, signatures,
      rfl⟩ := hform
    exact .mk array headers payload signatures

namespace Recipient

variable {F : Bytes → Recipient → Prop}

/-- The items behind the head of a recipient's array, whose further recipients have a given form. -/
inductive Parts (F : Bytes → Recipient → Prop) : Nat → Bytes → Recipient → Prop
  | leaf {b₁ b₂ c : Bytes} {h : Headers} (headers : Headers.Written b₁ h)
      (ciphertext : IsBytes b₂ c) : Parts F 3 (b₁ ++ b₂) ⟨h, c, []⟩
  | node {b₁ b₂ b₃ c : Bytes} {h : Headers} {rs : List Recipient}
      (headers : Headers.Written b₁ h) (ciphertext : IsBytes b₂ c)
      (recipients : IsList F b₃ rs) : Parts F 4 (b₁ ++ (b₂ ++ b₃)) ⟨h, c, rs⟩

theorem reads_leaf : (do
    let headers ← Headers.read
    let ciphertext ← bstr "ciphertext"
    return { headers with ciphertext, recipients := [] } : Reader Recipient).Reads
      (Parts F 3) := by
  refine (Headers.reads_read.bind fun _ => (reads_bstr _).map _).congr fun b r => ?_
  constructor
  · intro hb
    cases hb with
    | leaf headers ciphertext => exact ⟨_, _, _, rfl, headers, _, ciphertext, rfl⟩
  · intro hform
    obtain ⟨_, _, _, rfl, headers, _, ciphertext, rfl⟩ := hform
    exact .leaf headers ciphertext

theorem reads_node {item : Reader Recipient} (h : item.Reads F) : (do
    let headers ← Headers.read
    let ciphertext ← bstr "ciphertext"
    let recipients ← listOf "recipients" "recipients" item
    return { headers with ciphertext, recipients } : Reader Recipient).Reads (Parts F 4) := by
  refine (Headers.reads_read.bind fun _ => (reads_bstr _).bind fun _ =>
    (reads_listOf h _ _).map _).congr fun b r => ?_
  constructor
  · intro hb
    cases hb with
    | node headers ciphertext recipients =>
      exact ⟨_, _, _, rfl, headers, _, _, _, rfl, ciphertext, _, recipients, rfl⟩
  · intro hform
    obtain ⟨_, _, _, rfl, headers, _, _, _, rfl, ciphertext, _, recipients, rfl⟩ := hform
    exact .node headers ciphertext recipients

theorem written_and_depth_le_iff {b : Bytes} {r : Recipient} {n : Nat} :
    Written b r ∧ r.depth ≤ n + 1 ↔
      Then (IsHead .array) (Parts fun b r => Written b r ∧ r.depth ≤ n) b r := by
  rw [depth_eq, Nat.add_le_add_iff_right, depthOfList_le]
  constructor
  · intro hform
    obtain ⟨hb, deep⟩ := hform
    cases hb with
    | leaf array headers ciphertext => exact ⟨_, 3, _, rfl, array, .leaf headers ciphertext⟩
    | node array headers ciphertext recipients =>
      have recipients := isList_and.mpr ⟨recipients, deep⟩
      exact ⟨_, 4, _, rfl, array, .node headers ciphertext recipients⟩
  · intro hform
    obtain ⟨_, parts, _, rfl, array, hparts⟩ := hform
    cases hparts with
    | leaf headers ciphertext =>
      exact ⟨.leaf array headers ciphertext, fun s hs => nomatch hs⟩
    | node headers ciphertext recipients =>
      obtain ⟨recipients, deep⟩ := isList_and.mp recipients
      exact ⟨.node array headers ciphertext recipients, deep⟩

theorem reads_readWithin (max levels : Nat) :
    (readWithin max levels).Reads fun b r => Written b r ∧ r.depth ≤ levels := by
  induction levels with
  | zero =>
    refine (reads_throw _).congr fun b r => ?_
    simp [depth_eq]
  | succ n ih =>
    rw [readWithin]
    refine ((reads_arrayLength name).bind fun parts => ?_).congr
      fun b r => written_and_depth_le_iff
    by_cases h3 : parts = 3
    · subst h3
      exact reads_leaf
    by_cases h4 : parts = 4
    · subst h4
      exact reads_node ih
    have none_such : (parts = 3 || parts = 4) = false := by simp [h3, h4]
    rw [none_such]
    refine (reads_throw (.arrayLength name "3 or 4" parts)).congr fun b r => ?_
    constructor
    · intro h
      cases h with
      | leaf => exact h3 rfl
      | node => exact h4 rfl
    · intro h
      cases h

theorem reads_readList (max : Nat) : (readList max).Reads fun b rs =>
    IsList Written b rs ∧ depthOfList rs ≤ max := by
  refine (reads_listOf (reads_readWithin max max) _ _).congr fun b rs => ?_
  rw [isList_and, depthOfList_le]

end Recipient

theorem Mac.reads_read (max : Nat) : (Mac.read max).Reads fun b m =>
    Mac.Written b m ∧ Recipient.depthOfList m.recipients ≤ max := by
  refine ((reads_arrayOf name 5).bind fun _ => Headers.reads_read.bind fun _ =>
    (reads_bstrOrNil _).bind fun _ => (reads_bstr _).bind fun _ =>
    (Recipient.reads_readList max).map _).congr ?_
  intro b m
  constructor
  · intro hform
    obtain ⟨hb, deep⟩ := hform
    cases hb with
    | mk array headers payload tag recipients =>
      exact ⟨_, (), _, rfl, array, _, _, _, rfl, headers, _, _, _, rfl, payload, _, _, _, rfl, tag,
        _, ⟨recipients, deep⟩, rfl⟩
  · intro hform
    obtain ⟨_, _, _, rfl, array, _, _, _, rfl, headers, _, _, _, rfl, payload, _, _, _, rfl, tag,
      _, ⟨recipients, deep⟩, rfl⟩ := hform
    exact ⟨.mk array headers payload tag recipients, deep⟩

theorem Encrypt.reads_read (max : Nat) : (Encrypt.read max).Reads fun b m =>
    Encrypt.Written b m ∧ Recipient.depthOfList m.recipients ≤ max := by
  refine ((reads_arrayOf name 4).bind fun _ => Headers.reads_read.bind fun _ =>
    (reads_bstrOrNil _).bind fun _ => (Recipient.reads_readList max).map _).congr ?_
  intro b m
  constructor
  · intro hform
    obtain ⟨hb, deep⟩ := hform
    cases hb with
    | mk array headers ciphertext recipients =>
      exact ⟨_, (), _, rfl, array, _, _, _, rfl, headers, _, _, _, rfl, ciphertext, _,
        ⟨recipients, deep⟩, rfl⟩
  · intro hform
    obtain ⟨_, _, _, rfl, array, _, _, _, rfl, headers, _, _, _, rfl, ciphertext, _,
      ⟨recipients, deep⟩, rfl⟩ := hform
    exact ⟨.mk array headers ciphertext recipients, deep⟩

namespace Message

theorem reads_read (max : Nat) (k : Kind) : (k.read max).Reads fun b m =>
    WrittenArray b m ∧ recipientDepth m ≤ max := by
  have flat {r : Reader k.Body} {F : Bytes → k.Body → Prop} (h : r.Reads F)
      (hd : ∀ m : k.Body, recipientDepth m = 0) :
      r.Reads fun b m => F b m ∧ recipientDepth m ≤ max :=
    h.congr fun b m => by simp [hd]
  cases k with
  | sign1 => exact flat Sign1.reads_read fun _ => rfl
  | sign => exact flat Sign.reads_read fun _ => rfl
  | signature => exact flat Signature.reads_read fun _ => rfl
  | mac0 => exact flat Mac0.reads_read fun _ => rfl
  | mac => exact Mac.reads_read max
  | encrypt0 => exact flat Encrypt0.reads_read fun _ => rfl
  | encrypt => exact Encrypt.reads_read max
  | recipient => exact Recipient.reads_readWithin max max

/-- Every structure is written as an array, so that no tag is seen in front of it. -/
theorem WrittenArray.begins {k : Kind} {b : Bytes} {m : k.Body} (h : WrittenArray b m) :
    ∃ form, Begins b (.item .array form) := by
  have front {hd : Bytes} {n : Nat} (array : IsHead .array hd n) (tail : Bytes) :
      ∃ form, Begins (hd ++ tail) (.item .array form) := by
    obtain ⟨form, hb, -⟩ := takes_argument array
    exact ⟨form, hb.append tail⟩
  cases k <;> cases h <;> exact front (by assumption) _

theorem yields_readTag (k : Kind) : (readTag k).Yields fun b _ =>
    b = [] ∨ ∃ tag, k.tag? = some tag ∧ IsHead .tag b tag := by
  refine yields_lead fun b bs position => ?_
  split
  next form hl =>
    refine (yieldsAt_argument hl bs position).bind (G := fun actual b _ =>
      b = [] ∧ k.tag? = some actual) (fun actual c => ?_) ?_
    · cases htag : k.tag? with
      | none => exact yieldsAt_throw _ c _
      | some expected =>
        have hguard := (reads_unless (p := actual = expected)
          (.unexpectedTag k.name expected actual)).yields c
        refine hguard.mono ?_
        intro b _ hform
        obtain ⟨hb, rfl⟩ := hform
        exact ⟨hb, rfl⟩
    · intro hd actual b _ hh hform
      obtain ⟨rfl, htag⟩ := hform
      exact .inr ⟨actual, htag, by simpa using hh⟩
  next =>
    refine YieldsAt.mono (yields_pure () _) ?_
    intro b _ hform
    exact .inl hform.1

/-- A structure is read behind its own tag or without one. -/
theorem reads_readTag {k : Kind} {r : Reader k.Body} {P : k.Body → Prop}
    (h : r.Reads fun b m => WrittenArray b m ∧ P m) :
    (readTag k >>= fun _ => r).Reads fun b m => Written b m ∧ P m := by
  constructor
  · intro b m hform
    obtain ⟨hb, hP⟩ := hform
    cases hb with
    | array hb =>
      obtain ⟨form, hl⟩ := hb.begins
      refine Returns.congr (x := .ok m) (h.takes ⟨hb, hP⟩) fun rest position => ?_
      rw [bind_apply, readTag_eq hl]
    | tagged own tag hb => exact (takes_readTag own tag).bind (h.takes ⟨hb, hP⟩)
  · intro c
    refine (yields_readTag k c).bind (fun _ => h.yields) ?_
    intro b _ b' m hform hm
    rcases hform with rfl | ⟨tag, own, hh⟩
    · exact ⟨.array hm.1, hm.2⟩
    · exact ⟨.tagged own hh hm.1, hm.2⟩

theorem not_writtenArray_nil {k : Kind} {m : k.Body} : ¬WrittenArray [] m := by
  intro h
  obtain ⟨form, hb⟩ := h.begins
  cases hb [] 0

theorem not_written_nil {k : Kind} {m : k.Body} : ¬Written [] m := by
  intro h
  generalize hb : ([] : Bytes) = b at h
  cases h with
  | array h =>
    subst hb
    exact not_writtenArray_nil h
  | tagged own tag h =>
    have := tag.length_pos
    have := congrArg List.length hb
    simp only [List.length_nil, List.length_append] at this
    omega

/-- A byte string is read as a structure if and only if it stands for that structure, and its
recipients nest no deeper than allowed; every other byte string is refused. -/
theorem decodeWithin_eq_ok_iff (max : Nat) (k : Kind) (b : Bytes) :
    (∀ m : k.Body, decodeWithin max k b = .ok m ↔ Written b m ∧ recipientDepth m ≤ max) ∧
      ((∃ e, decodeWithin max k b = .error e) ↔
        ∀ m : k.Body, ¬(Written b m ∧ recipientDepth m ≤ max)) := by
  have accepted (m : k.Body) :
      decodeWithin max k b = .ok m ↔ Written b m ∧ recipientDepth m ≤ max := by
    cases b with
    | nil =>
      constructor
      · intro h
        cases h
      · intro h
        exact absurd h.1 not_written_nil
    | cons x xs => exact (reads_readTag (reads_read max k)).complete_eq_ok_iff k.name (x :: xs) m
  refine ⟨accepted, ?_⟩
  cases hd : decodeWithin max k b with
  | error e =>
    constructor
    · intro _ m hm
      cases hd.symm.trans ((accepted m).mpr hm)
    · intro _
      exact ⟨e, rfl⟩
  | ok m =>
    constructor
    · intro h
      obtain ⟨e, he⟩ := h
      cases he
    · intro h
      exact absurd ((accepted m).mp hd) (h m)

/-- A content may travel on its own, but no signature is left out. -/
example : decodeWithin 0 .sign1 [0x84, 0x40, 0xa0, 0xf6, 0xf6] =
    .error (.unexpectedType "signature" "bstr") := rfl

end Message

end Cose
