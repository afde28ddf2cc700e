import Cose.Message
import Cose.Proofs.Cbor.Truncation
import Cose.Proofs.Key.RoundTrip

namespace Cose

open Cbor Reader

theorem Label.steady_read (field : String) : (Label.read field).Steady := by
  refine steady_lead.bind fun l => ?_
  split
  · exact (steady_int _ _).map Label.int
  · exact (steady_int _ _).map Label.int
  · exact (steady_text _).map Label.text
  · exact steady_throw _

namespace LabelMap

theorem steady_readEntries {item : Reader Value} (h : item.Steady) (field : String) (n : Nat)
    (m : LabelMap) : (readEntries field item n m).Steady := by
  induction n generalizing m with
  | zero => exact steady_pure m
  | succ n ih =>
    refine (Label.steady_read field).bind fun l => h.bind fun v => ?_
    split
    · exact (steady_throw _).bind fun _ => ih _
    · exact ih _

theorem steady_readWith {item : Reader Value} (h : item.Steady) (field : String) :
    (readWith field item).Steady := by
  refine steady_lead.bind fun l => ?_
  split
  · exact (steady_argument _).bind fun n => steady_readEntries h field n empty
  · exact steady_throw _
  · exact steady_throw _

end LabelMap

theorem Value.steady_readWithin (field : String) (levels : Nat) :
    (readWithin field levels).Steady := by
  induction levels with
  | zero => exact steady_throw _
  | succ n ih =>
    refine steady_lead.bind fun l => ?_
    split
    · exact (steady_int _ _).map Value.int
    · exact (steady_int _ _).map Value.int
    · exact (steady_bytes _).map Value.bytes
    · exact (steady_text _).map Value.text
    · exact (steady_argument _).bind fun len => (steady_times ih len).map Value.array
    · exact (LabelMap.steady_readWith ih field).map Value.map
    · exact (steady_argument _).bind fun tag => ih.map (Value.tagged (UInt64.ofNat tag))
    · exact steady_skip.map fun _ => Value.bool _
    · exact steady_skip.map fun _ => Value.null
    · exact steady_throw _
    · exact steady_throw _

theorem LabelMap.steady_read (field : String) : (read field).Steady :=
  steady_readWith (Value.steady_readWithin field Value.maxDepth) field

/-- A protected header is read in a buffer of its own once all its bytes are there, so that it
cannot be cut short. -/
theorem Headers.steady_read : read.Steady :=
  (steady_bstr _).bind fun bs => (steady_lift (ProtectedHeader.ofBytes bs)).bind fun _ =>
    (LabelMap.steady_read _).map _

theorem Signature.steady_read : read.Steady :=
  (steady_arrayOf name 3).bind fun _ => Headers.steady_read.bind fun _ => (steady_bstr _).map _

theorem Recipient.steady_readWithin (max levels : Nat) : (readWithin max levels).Steady := by
  induction levels with
  | zero => exact steady_throw _
  | succ n ih =>
    refine (steady_arrayLength name).bind fun parts => ?_
    have leaf := Headers.steady_read.bind fun headers => (steady_bstr "ciphertext").bind
      fun ciphertext => (steady_pure []).map fun recipients =>
        (⟨headers, ciphertext, recipients⟩ : Recipient)
    have node := Headers.steady_read.bind fun headers => (steady_bstr "ciphertext").bind
      fun ciphertext => (steady_listOf ih "recipients" "recipients").map fun recipients =>
        (⟨headers, ciphertext, recipients⟩ : Recipient)
    -- The number of parts is checked first, and then it decides whether there is a list.
    by_cases four : parts = 4
    · simp only [four, if_true]
      split
      · exact node
      · exact (steady_throw _).bind fun _ => node
    · simp only [four, if_false]
      split
      · exact leaf
      · exact (steady_throw _).bind fun _ => leaf

theorem Recipient.steady_readList (max : Nat) : (readList max).Steady :=
  steady_listOf (steady_readWithin max max) _ _

namespace Message

theorem steady_read (max : Nat) (k : Kind) : (k.read max).Steady := by
  cases k with
  | sign1 =>
    exact (steady_arrayOf Sign1.name 4).bind fun _ => Headers.steady_read.bind fun _ =>
      (steady_bstrOrNil _).bind fun _ => (steady_bstr _).map _
  | sign =>
    exact (steady_arrayOf Sign.name 4).bind fun _ => Headers.steady_read.bind fun _ =>
      (steady_bstrOrNil _).bind fun _ => (steady_listOf Signature.steady_read _ _).map _
  | signature => exact Signature.steady_read
  | mac0 =>
    exact (steady_arrayOf Mac0.name 4).bind fun _ => Headers.steady_read.bind fun _ =>
      (steady_bstrOrNil _).bind fun _ => (steady_bstr _).map _
  | mac =>
    exact (steady_arrayOf Mac.name 5).bind fun _ => Headers.steady_read.bind fun _ =>
      (steady_bstrOrNil _).bind fun _ => (steady_bstr _).bind fun _ =>
      (Recipient.steady_readList max).map _
  | encrypt0 =>
    exact (steady_arrayOf Encrypt0.name 3).bind fun _ => Headers.steady_read.bind fun _ =>
      (steady_bstrOrNil _).map _
  | encrypt =>
    exact (steady_arrayOf Encrypt.name 4).bind fun _ => Headers.steady_read.bind fun _ =>
      (steady_bstrOrNil _).bind fun _ => (Recipient.steady_readList max).map _
  | recipient => exact Recipient.steady_readWithin max max

theorem steady_readTag (k : Kind) : (readTag k).Steady := by
  refine steady_lead.bind fun l => ?_
  split
  · refine (steady_argument _).bind fun actual => ?_
    split
    · exact steady_unless _ _
    · exact steady_throw _
  · exact steady_pure ()

end Message

/-- Of what is accepted, every continuation is refused for one reason, and everything that is left,
but not nothing, when some of it is cut off at the end, for another. -/
structure Delimits {ε α : Type} (decode : Bytes → Except ε α) (trailing incomplete : ε) : Prop where
  continued : ∀ b s a, decode b = .ok a → s ≠ [] → decode (b ++ s) = .error trailing
  shortened : ∀ b s a, decode (b ++ s) = .ok a → s ≠ [] → b ≠ [] → decode b = .error incomplete

namespace Message

theorem decodeWithin_of_ne_nil {max : Nat} {k : Kind} {b : Bytes} (hne : b ≠ []) :
    decodeWithin max k b = Reader.complete k.name (do readTag k; k.read max) b := by
  cases b with
  | nil => exact absurd rfl hne
  | cons => rfl

theorem ne_nil_of_decodeWithin {max : Nat} {k : Kind} {b : Bytes} {m : k.Body}
    (h : decodeWithin max k b = .ok m) : b ≠ [] := by
  rintro rfl
  cases h

theorem delimits_decodeWithin (max : Nat) (k : Kind) :
    Delimits (decodeWithin max k) (.trailingBytes k.name) (.cbor .endOfInput) := by
  have hr : (readTag k >>= fun _ => k.read max).Steady :=
    (steady_readTag k).bind fun _ => steady_read max k
  constructor
  · intro b s m h hs
    have hb := ne_nil_of_decodeWithin h
    rw [decodeWithin_of_ne_nil hb] at h
    rw [decodeWithin_of_ne_nil (List.append_ne_nil_of_left_ne_nil hb s)]
    exact hr.complete_append h hs
  · intro b s m h hs hb
    rw [decodeWithin_of_ne_nil (List.append_ne_nil_of_left_ne_nil hb s)] at h
    rw [decodeWithin_of_ne_nil hb]
    exact hr.complete_cut h hs

end Message

namespace Key

theorem delimits_decode : Delimits decode (.decoding (.trailingBytes "COSE_Key"))
    (.decoding (.cbor .endOfInput)) := by
  have hr := LabelMap.steady_read "COSE_Key"
  constructor
  · intro b s key h hs
    obtain ⟨hne, m, hm, -⟩ := exists_map_of_decode h
    rw [decode_of_ne_nil (List.append_ne_nil_of_left_ne_nil hne s), hr.complete_append hm hs]
    rfl
  · intro b s key h hs hb
    obtain ⟨-, m, hm, -⟩ := exists_map_of_decode h
    rw [decode_of_ne_nil hb, hr.complete_cut hm hs]
    rfl

end Key

/-- Accepted encodings are self-delimiting, those of all kinds of structure, however deep recipients
may nest, and those of keys. -/
theorem encodings_delimited :
    (∀ max k, Delimits (Message.decodeWithin max k) (.trailingBytes k.name) (.cbor .endOfInput)) ∧
      Delimits Key.decode (.decoding (.trailingBytes "COSE_Key")) (.decoding (.cbor .endOfInput)) ∧
      Cbor.Fault.endOfInput.message = "end of input bytes" :=
  ⟨Message.delimits_decodeWithin, Key.delimits_decode, rfl⟩

/-- A signed message without content, tagged. -/
def taggedSign1 : Bytes := [0xd2, 0x84, 0x43, 0xa1, 0x01, 0x26, 0xa0, 0xf6, 0x40]

/-- The message with another byte behind it, cut behind its tag, and cut within its protected
header. -/
theorem encodings_delimited_sign1 :
    (∃ m, Message.decode .sign1 taggedSign1 = .ok m) ∧
      Message.decode .sign1 (taggedSign1 ++ [0xf6]) = .error (.trailingBytes "COSE_Sign1") ∧
      Message.decode .sign1 (taggedSign1.take 1) = .error (.cbor .endOfInput) ∧
      Message.decode .sign1 (taggedSign1.take 5) = .error (.cbor .endOfInput) := by
  have accepted : Message.decode .sign1 taggedSign1 =
      .ok ⟨⟨⟨LabelMap.ofList [(.int 1, .int (-7))], [0xa1, 0x01, 0x26]⟩, .empty⟩, none, []⟩ := rfl
  obtain ⟨messages, -, -⟩ := encodings_delimited
  have delimits := messages Recipient.maxDepth .sign1
  refine ⟨⟨_, accepted⟩, ?_, ?_, ?_⟩
  · exact delimits.continued _ [0xf6] _ accepted (by decide)
  · exact delimits.shortened (taggedSign1.take 1) (taggedSign1.drop 1) _ accepted (by decide)
      (by decide)
  · exact delimits.shortened (taggedSign1.take 5) (taggedSign1.drop 5) _ accepted (by decide)
      (by decide)

end Cose
