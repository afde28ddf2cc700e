import Mathlib.Data.List.Nodup
import Mathlib.Data.List.Perm.Subperm
import Cose.Proofs.Key.RoundTrip
import Cose.Proofs.LabelMap.Deterministic

namespace Cose

theorem Value.bytes_injective {a b : Bytes} (h : Value.bytes a = .bytes b) : a = b := by
  have hdatum := congrArg Value.bytes? h
  exact Option.some.inj hdatum

theorem Value.array_ne_nil {v : Value} {vs : List Value} : Value.array (v :: vs) ≠ .array [] := by
  intro h
  have hitems := congrArg Value.array? h
  rw [Value.array?_array, Value.array?_array] at hitems
  cases hitems

namespace Key

variable {m : LabelMap} {key : Key} {b : Bytes}

/-- The labels of a kind under which an empty byte string counts as missing. -/
def Kind.coordinates : Kind → List Int64
  | ec2 => [-2, -3, -4]
  | okp => [-2, -4]
  | symmetric => []

/-- A key of the kind is read as if the entry were missing: it is a coordinate without bytes, or an
empty list of operations. -/
def Kind.Ignores (kind : Kind) (l : Label) (v : Value) : Prop :=
  (∃ i ∈ kind.coordinates, l = .int i ∧ v = .bytes []) ∨ l = .int 4 ∧ v = .array []

theorem Kind.interpreted_eq (kind : Kind) : kind.interpreted = -1 :: kind.coordinates := by
  cases kind <;> rfl

theorem Kind.mem_interpreted {kind : Kind} {i : Int64} (h : i ∈ kind.coordinates) :
    i ∈ kind.interpreted := by
  rw [interpreted_eq]
  exact List.mem_cons_of_mem _ h

theorem Kind.ignores_int_iff {kind : Kind} {i : Int64} {v : Value} : kind.Ignores (.int i) v ↔
    i ∈ kind.coordinates ∧ v = .bytes [] ∨ i = 4 ∧ v = .array [] := by
  simp [Ignores]

theorem Kind.Ignores.reserves {kind : Kind} {l : Label} {v : Value} (h : kind.Ignores l v) :
    kind.reserves l = true := by
  rcases h with ⟨i, hi, rfl, -⟩ | ⟨rfl, -⟩
  · exact Kind.reserves_int_iff.mpr (.inr (Kind.mem_interpreted hi))
  · exact Kind.reserves_int_iff.mpr (.inl (by decide))

/-- What is left of a byte string of which an empty one counts as missing. -/
theorem map_filter_eq_some_iff {given : Option Bytes} {v : Value} :
    (given.filter (!·.isEmpty)).map Value.bytes = some v ↔
      given.map Value.bytes = some v ∧ v ≠ .bytes [] := by
  cases given with
  | none => simp
  | some bs =>
    cases bs with
    | nil =>
      constructor
      · intro h
        cases h
      · intro h
        exact absurd (Option.some.inj h.1).symm h.2
    | cons x bs =>
      rw [Option.filter_some]
      refine (and_iff_left_of_imp fun h => ?_).symm
      cases h
      intro heq
      cases Value.bytes_injective heq

namespace Describes

theorem get?_unreserved (h : Describes m key) {l : Label}
    (hl : key.material.kind.reserves l = false) : key.toMap.get? l = m.get? l := by
  rw [get?_toMap, lookup_ownEntries hl, h.extra, extraOf, LabelMap.get?_filter, hl]
  rfl

theorem get?_common (h : Describes m key) {i : Int64} (hi : i ∈ ([1, 2, 3, 5] : List Int64)) :
    key.toMap.get? (.int i) = m.get? (.int i) := by
  obtain ⟨hkind, hkeyId, halgorithm, -, hbaseIv, -⟩ := key.lookup_commonEntries
  simp only [List.mem_cons, List.not_mem_nil, or_false] at hi
  rcases hi with rfl | rfl | rfl | rfl
  · rw [key.get?_toMap_common 1 (by decide), hkind]
    exact (kindAt_eq_ok_iff.mp h.kind).symm
  · rw [key.get?_toMap_common 2 (by decide), hkeyId]
    exact (bytesAt_eq_ok_iff.mp h.keyId).symm
  · rw [key.get?_toMap_common 3 (by decide), halgorithm]
    exact (intAt_eq_ok_iff.mp h.algorithm).symm
  · rw [key.get?_toMap_common 5 (by decide), hbaseIv]
    exact (bytesAt_eq_ok_iff.mp h.baseIv).symm

theorem get?_operations (h : Describes m key) {v : Value} :
    key.toMap.get? (.int 4) = some v ↔ m.get? (.int 4) = some v ∧ v ≠ .array [] := by
  obtain ⟨-, -, -, hoperations, -⟩ := key.lookup_commonEntries
  rw [key.get?_toMap_common 4 (by decide), hoperations]
  have hread := operationsAt_eq_ok_iff.mp h.operations
  cases hops : key.operations with
  | nil =>
    rw [hops] at hread
    rcases hread with hget | ⟨hget, -⟩
    · have hget : m.get? (.int 4) = some (.array []) := hget
      simp only [hget, List.isEmpty_nil, if_true, reduceCtorEq, false_iff, not_and, not_not,
        Option.some.injEq]
      exact Eq.symm
    · have hget : m.get? (.int 4) = none := hget
      simp [hget]
  | cons op ops =>
    rw [hops] at hread
    rcases hread with hget | ⟨-, hnil⟩
    · have hget : m.get? (.int 4) = some (.array ((op :: ops).map fun op => .int op.id)) := hget
      rw [hget]
      refine (and_iff_left_of_imp fun heq => ?_).symm
      cases heq
      exact Value.array_ne_nil
    · cases hnil

/-- The curve, or the value of a symmetric key. -/
theorem get?_first (h : Describes m key) : key.toMap.get? (.int (-1)) = m.get? (.int (-1)) := by
  have hmem : -1 ∈ key.material.kind.interpreted := by
    rw [Kind.interpreted_eq]
    exact List.mem_cons_self
  rw [key.get?_toMap_material (-1) hmem]
  obtain ⟨hcurve, hk, -⟩ := key.material.lookup_entries
  have hread := h.material
  generalize key.material = material at *
  cases material with
  | ec2 curve x y d =>
    obtain ⟨_, _, _, _, hat, -, -, -, heq⟩ := Material.ofMap_ec2_eq_ok hread
    cases heq
    rw [hcurve curve rfl]
    exact (curveAt_eq_ok_iff.mp hat).1.symm
  | okp curve x d =>
    obtain ⟨_, _, _, hat, -, -, heq⟩ := Material.ofMap_okp_eq_ok hread
    cases heq
    rw [hcurve curve rfl]
    exact (curveAt_eq_ok_iff.mp hat).1.symm
  | symmetric k =>
    obtain ⟨_, hat, heq⟩ := Material.ofMap_symmetric_eq_ok hread
    cases heq
    rw [hk k rfl]
    exact (bytesAt_eq_ok_iff.mp hat).symm

theorem get?_coordinate (h : Describes m key) {i : Int64} (hi : i ∈ key.material.kind.coordinates)
    {v : Value} : key.toMap.get? (.int i) = some v ↔
      m.get? (.int i) = some v ∧ v ≠ .bytes [] := by
  have hmem := Kind.mem_interpreted hi
  have of_materialAt {bs : Option Bytes} (hat : materialAt m i = .ok bs)
      (hlookup : key.material.entries.lookup (.int i) = bs.map .bytes) :
      key.toMap.get? (.int i) = some v ↔ m.get? (.int i) = some v ∧ v ≠ .bytes [] := by
    obtain ⟨given, hget, rfl⟩ := materialAt_eq_ok_iff.mp hat
    rw [key.get?_toMap_material i hmem, hlookup, hget]
    exact map_filter_eq_some_iff
  obtain ⟨-, -, hx, hy, hd⟩ := key.material.lookup_entries
  have hread := h.material
  cases hmaterial : key.material with
  | ec2 curve x y d =>
    rw [hmaterial] at hread hi hx hy hd
    obtain ⟨_, _, _, _, -, hatX, hatY, hatD, heq⟩ := Material.ofMap_ec2_eq_ok hread
    cases heq
    have hi : i = -2 ∨ i = -3 ∨ i = -4 := by simpa [Material.kind, Kind.coordinates] using hi
    rcases hi with rfl | rfl | rfl
    · exact of_materialAt hatX (by rw [hmaterial, hx, Material.x?])
    · exact of_materialAt hatY (by rw [hmaterial, hy, Material.y?])
    · exact of_materialAt hatD (by rw [hmaterial, hd, Material.d?])
  | okp curve x d =>
    rw [hmaterial] at hread hi hx hd
    obtain ⟨_, _, _, -, hatX, hatD, heq⟩ := Material.ofMap_okp_eq_ok hread
    cases heq
    have hi : i = -2 ∨ i = -4 := by simpa [Material.kind, Kind.coordinates] using hi
    rcases hi with rfl | rfl
    · exact of_materialAt hatX (by rw [hmaterial, hx, Material.x?])
    · exact of_materialAt hatD (by rw [hmaterial, hd, Material.d?])
  | symmetric k =>
    rw [hmaterial] at hi
    cases hi

/-- The entries of a key are those of the map that it is read from, without those that it is read
without. -/
theorem get?_toMap_iff (h : Describes m key) (l : Label) (v : Value) :
    key.toMap.get? l = some v ↔ m.get? l = some v ∧ ¬key.material.kind.Ignores l v := by
  cases hr : key.material.kind.reserves l with
  | false =>
    have hkept : ¬key.material.kind.Ignores l v := by
      intro hignored
      rw [hignored.reserves] at hr
      cases hr
    rw [h.get?_unreserved hr, and_iff_left hkept]
  | true =>
    cases l with
    | text s => cases hr
    | int i =>
      rw [Kind.ignores_int_iff]
      -- No label is both one of all keys and one of the kind, so one disjunct is out in each case.
      rcases Kind.reserves_int_iff.mp hr with hi | hi
      · have hnot : i ∉ key.material.kind.coordinates :=
          fun hcoordinate => Kind.not_mem_common (Kind.mem_interpreted hcoordinate) hi
        by_cases hfour : i = 4
        · subst hfour
          simp only [hnot, false_and, false_or, true_and]
          exact h.get?_operations
        · have hi : i ∈ ([1, 2, 3, 5] : List Int64) := by
            simp only [List.mem_cons, List.not_mem_nil, or_false] at hi ⊢
            tauto
          simp only [hnot, hfour, false_and, or_false, not_false_eq_true, and_true]
          rw [h.get?_common hi]
      · rw [Kind.interpreted_eq] at hi
        rcases List.mem_cons.mp hi with rfl | hi
        · have hnot : -1 ∉ key.material.kind.coordinates := by
            cases key.material.kind <;> decide
          have hfour : ¬(-1 : Int64) = 4 := by decide
          simp only [hnot, hfour, false_and, or_false, not_false_eq_true, and_true]
          rw [h.get?_first]
        · have hfour : ¬i = 4 := by
            rintro rfl
            exact Kind.not_mem_common (Kind.mem_interpreted hi) (by decide)
          simp only [hi, hfour, true_and, false_and, or_false]
          exact h.get?_coordinate hi

theorem mem_entries (h : Describes m key) {e : Label × Value} (he : e ∈ key.entries) :
    e ∈ m.entries := by
  have hget := LabelMap.get?_eq_some_iff.mpr ((LabelMap.mem_ofList key.nodup_labels_entries).mpr he)
  exact LabelMap.get?_eq_some_iff.mp ((h.get?_toMap_iff e.1 e.2).mp hget).1

/-- A key has as many bytes to announce as the input that it is read from, or less. -/
theorem written_encode (h : Describes m key) (hw : Value.Written b (.map m)) :
    Value.Written key.encode (.map key.toMap) := by
  obtain ⟨hd, entries, -, hhead, labels, values, distinct, same⟩ := hw.of_map
  have hnodup : key.entries.Nodup := List.Nodup.of_map _ key.nodup_labels_entries
  have hcount : key.entries.length ≤ m.entries.length :=
    (hnodup.subperm fun _ he => h.mem_entries he).length_le
  have hlength := LabelMap.length_writtenEntries distinct same
  rw [LabelMap.writtenEntries, List.length_map] at hlength
  have hlt := hhead.argument_lt
  refine LabelMap.written_ofList key.nodup_labels_entries (by omega) ?_ ?_
  · intro e he
    exact LabelMap.forall_entries (P := fun l _ => Label.Written l.encode l) same
      (fun w hw => (labels w hw).written_encode) e (h.mem_entries he)
  · intro e he
    exact LabelMap.forall_entries (P := fun _ v => Value.Written v.encode v) same
      (fun w hw => (values w hw).written_encode) e (h.mem_entries he)

end Describes

/-- The bytes that are read as a key are those of a map that is, and no value of which nests too
deep. -/
theorem decode_eq_ok_iff : decode b = .ok key ↔ ∃ m, Value.Written b (.map m) ∧
    (∀ e ∈ m.entries, e.2.depth ≤ Value.maxDepth) ∧ ofMap m = .ok key := by
  have hreads := LabelMap.reads_read "COSE_Key"
  constructor
  · intro h
    obtain ⟨-, m, hm, hkey⟩ := exists_map_of_decode h
    obtain ⟨hw, deep⟩ := (hreads.complete_eq_ok_iff _ _ _).mp hm
    exact ⟨m, hw, deep, hkey⟩
  · intro hform
    obtain ⟨m, hw, deep, hkey⟩ := hform
    have hne : b ≠ [] := by
      obtain ⟨hd, entries, rfl, hhead, -⟩ := hw.of_map
      exact List.append_ne_nil_of_left_ne_nil (List.ne_nil_of_length_pos hhead.length_pos) _
    rw [decode_of_ne_nil hne, (hreads.complete_eq_ok_iff _ _ _).mpr ⟨hw, deep⟩]
    show (ofMap m).mapError Error.key = _
    rw [hkey]
    rfl

/-- The bytes of a key stand for one map. All bytes that stand for this map are read as the same
key, and what the key is written as stands for the map without the entries that it is read
without. -/
theorem decode_keeps_entries (h : decode b = .ok key) : ∃ m : LabelMap,
    (∀ n, Value.Written b (.map n) ↔ n = m) ∧
    (∀ b', Value.Written b' (.map m) → decode b' = .ok key) ∧
    ∃ m' : LabelMap, (∀ n, Value.Written key.encode (.map n) ↔ n = m') ∧
      ∀ l v, m'.get? l = some v ↔ m.get? l = some v ∧ ¬key.material.kind.Ignores l v := by
  have only {c : Bytes} {n : LabelMap} (hc : Value.Written c (.map n)) (n' : LabelMap) :
      Value.Written c (.map n') ↔ n' = n := by
    constructor
    · intro hc'
      exact Value.map_injective (hc'.unique hc)
    · rintro rfl
      exact hc
  obtain ⟨m, hw, deep, hkey⟩ := decode_eq_ok_iff.mp h
  have hdescribes := describes_of_ofMap hkey
  refine ⟨m, only hw, ?_, key.toMap, only (hdescribes.written_encode hw), hdescribes.get?_toMap_iff⟩
  intro b' hw'
  exact decode_eq_ok_iff.mpr ⟨m, hw', deep, hkey⟩

/-- An octet key as it may arrive: labels in any order, a head longer than it needs to be, no public
part to speak of, no operations, and an entry under the label of a y-coordinate. -/
def looseOctet : Bytes :=
  [0xa6, 0x20, 0x06, 0x01, 0x18, 0x01, 0x21, 0x40, 0x22, 0x40, 0x04, 0x80, 0x23, 0x58, 0x20] ++
    List.replicate 32 0x07

/-- The key that it is read as. -/
def strictOctet : Key where
  keyId := none
  algorithm := none
  operations := []
  baseIv := none
  material := .okp .ed25519 none (some (List.replicate 32 0x07))
  extra := LabelMap.empty.insert (.int (-3)) (.bytes [])
  sound := privateOctet.sound
  unreserved := by decide

theorem decode_keeps_entries_octet : decode looseOctet = .ok strictOctet ∧
    ∃ m' : LabelMap, Value.Written strictOctet.encode (.map m') ∧
      m'.get? (.int (-3)) = some (.bytes []) ∧ m'.get? (.int (-2)) ≠ some (.bytes []) ∧
      m'.get? (.int 4) ≠ some (.array []) := by
  have accepted : decode looseOctet = .ok strictOctet := rfl
  obtain ⟨m, hm, -, m', hm', kept⟩ := decode_keeps_entries accepted
  have hread : Reader.complete "COSE_Key" (LabelMap.read "COSE_Key") looseOctet =
      .ok (LabelMap.ofList [(.int (-1), .int 6), (.int 1, .int 1), (.int (-2), .bytes []),
        (.int (-3), .bytes []), (.int 4, .array []),
        (.int (-4), .bytes (List.replicate 32 0x07))]) :=
    rfl
  have hw := ((LabelMap.reads_read "COSE_Key").complete_eq_ok_iff _ _ _).mp hread
  obtain rfl := (hm _).mp hw.1
  refine ⟨accepted, m', (hm' m').mpr rfl, (kept _ _).mpr ⟨rfl, ?_⟩, ?_, ?_⟩
  · rw [Kind.ignores_int_iff]
    rintro (⟨hcoordinate, -⟩ | ⟨hfour, -⟩)
    · revert hcoordinate
      decide
    · revert hfour
      decide
  · intro hget
    exact ((kept _ _).mp hget).2 (.inl ⟨-2, by decide, rfl, rfl⟩)
  · intro hget
    exact ((kept _ _).mp hget).2 (.inr ⟨rfl, rfl⟩)

end Key

end Cose
