import Cose.Proofs.Key.Interpretation
import Cose.Proofs.LabelMap.Progress
import Cose.Proofs.Message.Depth
import Cose.Proofs.Message.Rewriting

namespace Cose

open Cbor Reader

namespace Headers

/-- The number of labels and values in both headers. -/
def tally (h : Headers) : Nat := h.protectedHeader.map.tally + h.unprotected.tally

theorem Written.sound {b : Bytes} {h : Headers} (hw : Written b h) : h.Sound := by
  cases hw with
  | mk _ _ sound => exact sound

theorem Sound.allShallow {h : Headers} (hs : h.Sound) : h.Shallow :=
  ⟨LabelMap.shallow_of_decodeHeader hs.faithful, hs.shallow⟩

theorem Written.tally_le {b : Bytes} {h : Headers} (hw : Written b h) : h.tally ≤ b.length := by
  cases hw with
  | @mk b₁ b₂ _ protectedBytes unprotected sound =>
    have hmap := LabelMap.tally_le_of_decodeHeader sound.faithful
    have hrest := unprotected.tally_map_le
    have hbytes : h.protectedHeader.bytes.length ≤ b₁.length := by
      cases protectedBytes with
      | mk hh => simp
    rw [tally, List.length_append]
    omega

/-- The number of labels and values in some headers, with one for each structure that has them. -/
def tallyOf (hs : List Headers) : Nat := (hs.map fun h => 1 + h.tally).sum

/-- Headers are written within so many bytes, none in the place of others and each behind a head. -/
inductive Spread : List Headers → Nat → Prop
  | nil (n : Nat) : Spread [] n
  | cons {b : Bytes} {h : Headers} {hs : List Headers} {m n : Nat} (own : Written b h)
      (rest : Spread hs m) (le : 1 + b.length + m ≤ n) : Spread (h :: hs) n

namespace Spread

variable {hs hs' : List Headers} {m n : Nat}

theorem mono (h : Spread hs m) (le : m ≤ n) : Spread hs n := by
  cases h with
  | nil => exact .nil n
  | cons own rest le' => exact .cons own rest (by omega)

theorem append (h : Spread hs m) (h' : Spread hs' n) : Spread (hs ++ hs') (m + n) := by
  induction h with
  | nil => exact h'.mono (by omega)
  | cons own _ le ih => exact .cons own ih (by omega)

theorem tally_le (h : Spread hs n) : tallyOf hs ≤ n := by
  induction h with
  | nil => exact Nat.zero_le _
  | @cons b h hs m n own _ le ih =>
    have hown := own.tally_le
    rw [tallyOf] at ih ⊢
    rw [List.map_cons, List.sum_cons]
    omega

theorem sound (h : Spread hs n) : ∀ h ∈ hs, h.Sound := by
  induction h with
  | nil => simp
  | cons own _ _ ih => exact List.forall_mem_cons.mpr ⟨own.sound, ih⟩

/-- The headers that open an array, with others behind them. -/
theorem behind_head {hd b t : Bytes} {h : Headers} {count : Nat} (array : IsHead .array hd count)
    (own : Written b h) (rest : Spread hs m) (le : b.length + m ≤ t.length) :
    Spread (h :: hs) (hd ++ t).length := by
  have hp := array.length_pos
  refine .cons own rest ?_
  rw [List.length_append]
  omega

theorem of_parts {α : Type} {f : α → List Headers} {parts : List (Bytes × α)}
    (each : ∀ q ∈ parts, Spread (f q.2) q.1.length) :
    Spread ((parts.map (·.2)).flatMap f) (parts.flatMap (·.1)).length := by
  induction parts with
  | nil => exact .nil 0
  | cons q parts ih =>
    obtain ⟨hq, hparts⟩ := List.forall_mem_cons.mp each
    rw [List.map_cons, List.flatMap_cons, List.flatMap_cons, List.length_append]
    exact hq.append (ih hparts)

theorem of_list {α : Type} {F : Bytes → α → Prop} {f : α → List Headers} {b : Bytes} {as : List α}
    (h : IsList F b as) (each : ∀ a ∈ as, ∀ b, F b a → Spread (f a) b.length) :
    Spread (as.flatMap f) b.length := by
  cases h with
  | @mk hd parts _ _ written =>
    rw [List.forall_mem_map] at each
    have hparts := of_parts fun q hq => each q hq q.1 (written q hq)
    exact hparts.mono (by simp)

end Spread

end Headers

theorem Signature.Written.spread {b : Bytes} {s : Signature} (h : Written b s) :
    Headers.Spread [s.toHeaders] b.length := by
  cases h with
  | mk array headers _ => exact .behind_head array headers (.nil 0) (by simp)

theorem Recipient.allHeaders_eq (r : Recipient) :
    r.allHeaders = r.toHeaders :: r.recipients.flatMap allHeaders := by
  obtain ⟨headers, ciphertext, rs⟩ := r
  rw [allHeaders, allHeadersOfList_eq]

theorem Recipient.Written.spread {b : Bytes} {r : Recipient} (h : Written b r) :
    Headers.Spread r.allHeaders b.length := by
  induction r using inductionOn generalizing b with
  | mk r ih =>
    rw [allHeaders_eq]
    cases h with
    | leaf array headers ciphertext => exact .behind_head array headers (.nil 0) (by simp)
    | node array headers ciphertext recipients =>
      have hlist := Headers.Spread.of_list recipients fun s hs b => ih s hs
      exact .behind_head array headers hlist (by simp)

namespace Message

/-- The number of labels and values in a structure, with one for itself and one for each signature
and each recipient in it. -/
def tally {k : Kind} (m : k.Body) : Nat := Headers.tallyOf (allHeaders m)

theorem WrittenArray.spread {k : Kind} {b : Bytes} {m : k.Body} (h : WrittenArray b m) :
    Headers.Spread (allHeaders m) b.length := by
  cases k with
  | sign1 =>
    cases h with
    | mk array headers _ _ => exact .behind_head array headers (.nil 0) (by simp)
  | sign =>
    cases h with
    | mk array headers _ signatures =>
      have hlist := Headers.Spread.of_list signatures fun s _ b => Signature.Written.spread
      exact .behind_head array headers hlist (by simp)
  | signature => exact Signature.Written.spread h
  | mac0 =>
    cases h with
    | mk array headers _ _ => exact .behind_head array headers (.nil 0) (by simp)
  | mac =>
    cases h with
    | mk array headers _ _ recipients =>
      have hlist := Headers.Spread.of_list recipients fun r _ b => Recipient.Written.spread
      refine .behind_head array headers hlist ?_
      simp only [List.length_append]
      omega
  | encrypt0 =>
    cases h with
    | mk array headers _ => exact .behind_head array headers (.nil 0) (by simp)
  | encrypt =>
    cases h with
    | mk array headers _ recipients =>
      have hlist := Headers.Spread.of_list recipients fun r _ b => Recipient.Written.spread
      exact .behind_head array headers hlist (by simp)
  | recipient =>
    have hspread := Recipient.Written.spread h
    rwa [Recipient.allHeaders_eq] at hspread

theorem Written.spread {k : Kind} {b : Bytes} {m : k.Body} (h : Written b m) :
    Headers.Spread (allHeaders m) b.length := by
  cases h with
  | array h => exact h.spread
  | tagged _ _ h => exact h.spread.mono (by simp)

theorem Written.wellFormed {k : Kind} {b : Bytes} {m : k.Body} (h : Written b m) :
    WellFormed b := by
  cases h with
  | array h => exact h.carries.wellFormed
  | tagged _ tag h => exact .tagged tag h.carries.wellFormed

theorem progresses_read (max : Nat) (k : Kind) : (k.read max).Progresses :=
  progresses_of_yields (reads_read max k).yields fun _ _ h => h.1.carries.wellFormed

theorem bounded_of_decodeWithin {max : Nat} {k : Kind} {b : Bytes} {m : k.Body}
    (h : decodeWithin max k b = .ok m) : tally m ≤ b.length ∧ Covered b ∧
      (∀ h ∈ allHeaders m, Covered h.protectedHeader.bytes ∧ h.Shallow) ∧
        recipientDepth m ≤ max := by
  obtain ⟨hw, deep⟩ := decodeWithin_eq_ok.mp h
  refine ⟨hw.spread.tally_le, hw.wellFormed.isSequence.covered, fun h hh => ?_, deep⟩
  have sound := hw.spread.sound h hh
  exact ⟨LabelMap.covered_of_decodeHeader sound.faithful, sound.allShallow⟩

end Message

theorem Signature.progresses_read (field name : String) :
    read.Progresses ∧ (listOf field name read).Progresses :=
  ⟨progresses_of_yields reads_read.yields fun _ _ h => h.carries.wellFormed,
    progresses_listOf reads_read.yields (fun _ _ h => h.carries.wellFormed) field name⟩

theorem Recipient.progresses_readWithin (max levels : Nat) (field name : String) :
    (readWithin max levels).Progresses ∧ (listOf field name (readWithin max levels)).Progresses :=
  have hyields := (reads_readWithin max levels).yields
  ⟨progresses_of_yields hyields fun _ _ h => h.1.carries.wellFormed,
    progresses_listOf hyields (fun _ _ h => h.1.carries.wellFormed) field name⟩

theorem Key.bounded_of_decode {b : Bytes} {key : Key} (h : decode b = .ok key) :
    LabelMap.tallyOf key.entries ≤ b.length ∧ Covered b ∧
      ∀ e ∈ key.entries, e.2.depth ≤ Value.maxDepth := by
  obtain ⟨m, hw, deep, hkey⟩ := decode_eq_ok_iff.mp h
  have hdescribes := describes_of_ofMap hkey
  have hnodup : key.entries.Nodup := List.Nodup.of_map _ key.nodup_labels_entries
  have hsub := hnodup.subperm fun _ he => hdescribes.mem_entries he
  have hle := LabelMap.tallyOf_le_of_subperm hsub
  have hmap := hw.tally_map_le
  rw [LabelMap.tally] at hmap
  refine ⟨by omega, hw.wellFormed.isSequence.covered, fun e he => ?_⟩
  exact deep e (hdescribes.mem_entries he)

/-- Whatever is read, a label, a value, a map, a signature, a recipient, a list or a structure, is
at least one byte and no more than there is, and it is refused where its head counts more bytes,
items or entries than bytes are left; loops over what is counted are over after at most one round more
than that. So an accepted header, key or structure has no more labels, values, signatures and
recipients than the input has bytes, and nowhere in it or in its protected headers does a head count
more than what follows. No value is read below its level, and no recipient below the given one. -/
theorem decoding_progresses :
    ((∀ field, (Label.read field).Progresses) ∧
      (∀ field levels, (Value.readWithin field levels).Progresses ∧
        (LabelMap.readWith field (Value.readWithin field levels)).Progresses ∧
        ∀ n m c, LabelMap.readEntries field (Value.readWithin field levels) n m c =
          LabelMap.readEntries field (Value.readWithin field levels)
            (min n (c.rest.length + 1)) m c) ∧
      (∀ field name, Signature.read.Progresses ∧ (listOf field name Signature.read).Progresses) ∧
      (∀ max levels field name, (Recipient.readWithin max levels).Progresses ∧
        (listOf field name (Recipient.readWithin max levels)).Progresses) ∧
      ∀ max (k : Message.Kind), (k.read max).Progresses) ∧
    ((∀ b m, LabelMap.decodeHeader b = .ok m →
        m.tally ≤ b.length ∧ Covered b ∧ ∀ e ∈ m.entries, e.2.depth ≤ 16) ∧
      (∀ b key, Key.decode b = .ok key →
        LabelMap.tallyOf key.entries ≤ b.length ∧ Covered b ∧ ∀ e ∈ key.entries, e.2.depth ≤ 16) ∧
      ∀ max (k : Message.Kind) b (m : k.Body), Message.decodeWithin max k b = .ok m →
        Message.tally m ≤ b.length ∧ Covered b ∧
          (∀ h ∈ Message.allHeaders m, Covered h.protectedHeader.bytes ∧ h.Shallow) ∧
          Message.recipientDepth m ≤ max) ∧
    (∀ field levels c c' v, Value.readWithin field levels c = .ok (v, c') → v.depth ≤ levels) ∧
    ∀ max levels c c' r, Recipient.readWithin max levels c = .ok (r, c') → r.depth ≤ levels := by
  refine ⟨⟨Label.progresses_read, fun field levels => ⟨Value.progresses_readWithin field levels,
    LabelMap.progresses_readWith field levels, LabelMap.rounds_readEntries field levels⟩,
    Signature.progresses_read, Recipient.progresses_readWithin, Message.progresses_read⟩,
    ⟨?_, ?_, ?_⟩, ?_, ?_⟩
  · intro b m h
    exact ⟨LabelMap.tally_le_of_decodeHeader h, LabelMap.covered_of_decodeHeader h,
      LabelMap.shallow_of_decodeHeader h⟩
  · intro b key h
    exact Key.bounded_of_decode h
  · intro max k b m h
    exact Message.bounded_of_decodeWithin h
  · intro field levels c c' v h
    exact Value.depth_le_of_readWithin h
  · intro max levels c c' r h
    obtain ⟨b, -, -, -, deep⟩ := (Recipient.reads_readWithin max levels).yields c r c' h
    exact deep

/-- The head of an array with as many items as can be announced. -/
def longest : Bytes := head .array (2 ^ 64 - 1)

theorem decoding_progresses_longest :
    (∃ e, Value.readWithin "" 16 ⟨longest ++ [0xf6, 0xf6], 0⟩ = .error e) ∧
    times (2 ^ 64 - 1) (Value.readWithin "" 15) ⟨[0xf6, 0xf6], 9⟩ =
      times 3 (Value.readWithin "" 15) ⟨[0xf6, 0xf6], 9⟩ ∧
    (LabelMap.decodeHeader [0xa1, 0x01, 0x81, 0xf6] =
        .ok (LabelMap.ofList [(.int 1, .array [.null])]) ∧
      (LabelMap.ofList [(.int 1, .array [.null])]).tally ≤ 4) ∧
    (Key.decode Key.looseOctet = .ok Key.strictOctet ∧
      LabelMap.tallyOf Key.strictOctet.entries ≤ Key.looseOctet.length) ∧
    (Message.decodeWithin 2 .mac (Message.encode (k := .mac) Message.relayed) =
        .ok Message.relayed ∧
      Message.tally (k := .mac) Message.relayed ≤
        (Message.encode (k := .mac) Message.relayed).length) ∧
    (Value.readWithin "" 2 ⟨[0x81, 0xf6, 0xa0], 3⟩ = .ok (.array [.null], ⟨[0xa0], 5⟩) ∧
      (Value.array [.null]).depth ≤ 2) ∧
    Recipient.readWithin 8 1 ⟨(Recipient.direct []).encode, 0⟩ =
        .ok (Recipient.direct [], ⟨[], (Recipient.direct []).encode.length⟩) ∧
      (Recipient.direct []).depth ≤ 1 := by
  obtain ⟨⟨-, values, -⟩, ⟨headers, keys, structures⟩, levels, recipients⟩ := decoding_progresses
  have hlongest : IsHead .array longest (2 ^ 64 - 1) := head_isHead .array (by decide)
  have hheader : LabelMap.decodeHeader [0xa1, 0x01, 0x81, 0xf6] =
      .ok (LabelMap.ofList [(.int 1, .array [.null])]) := rfl
  have hkey : Key.decode Key.looseOctet = .ok Key.strictOctet := rfl
  have hmac : Message.decodeWithin 2 .mac (Message.encode (k := .mac) Message.relayed) =
      .ok Message.relayed := rfl
  have hvalue : Value.readWithin "" 2 ⟨[0x81, 0xf6, 0xa0], 3⟩ =
      .ok (.array [.null], ⟨[0xa0], 5⟩) := rfl
  have hrecipient : Recipient.readWithin 8 1 ⟨(Recipient.direct []).encode, 0⟩ =
      .ok (Recipient.direct [], ⟨[], (Recipient.direct []).encode.length⟩) := rfl
  refine ⟨?_, ?_, ⟨hheader, (headers _ _ hheader).1⟩, ⟨hkey, (keys _ _ hkey).1⟩,
    ⟨hmac, (structures _ _ _ _ hmac).1⟩, ⟨hvalue, levels _ _ _ _ _ hvalue⟩, hrecipient,
    recipients _ _ _ _ _ hrecipient⟩
  · exact (values "" 16).1.refuses .array longest _ ⟨[0xf6, 0xf6], 0⟩ (by decide) hlongest
      (by decide)
  · have hrounds := (values "" 15).1.rounds (2 ^ 64 - 1) ⟨[0xf6, 0xf6], 9⟩
    rw [hrounds]
    rfl

end Cose
