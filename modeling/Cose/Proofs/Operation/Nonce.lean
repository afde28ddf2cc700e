import Cose.Operation.Nonce
import Cose.Proofs.Operation.Selection

namespace Cose.Nonce

/-- What the map has under the labels for nonces are byte strings. -/
def Typed (m : LabelMap) : Prop :=
  ∀ label ∈ [Header.iv, Header.partialIv], ∀ v, m.get? label = some v → v.bytes?.isSome

/-- The headers have an entry for a nonce or for a part of one, but no byte string to make it from. -/
def Unusable (protectedMap unprotected : LabelMap) : Prop :=
  isRecorded protectedMap unprotected = true ∧ (protectedMap.iv? <|> unprotected.iv?) = none ∧
    (protectedMap.partialIv? <|> unprotected.partialIv?) = none

instance (protectedMap unprotected : LabelMap) : Decidable (Unusable protectedMap unprotected) :=
  inferInstanceAs (Decidable (_ ∧ _ ∧ _))

theorem get?_record (alg : Algorithm) (m unprotected : LabelMap) {label : Int64}
    (hlabel : label ∈ [Header.iv, Header.partialIv]) :
    (Selection.record alg m unprotected).get? label = m.get? label := by
  have hne : (label : Label) ≠ Header.algorithm := by
    rcases List.mem_cons.mp hlabel with rfl | hlabel
    · decide
    · obtain rfl := List.mem_singleton.mp hlabel
      decide
  unfold Selection.record
  split
  next => exact LabelMap.get?_insert_of_ne hne _ _
  next => rfl

theorem typed_record {m : LabelMap} (h : Typed m) (alg : Algorithm) (unprotected : LabelMap) :
    Typed (Selection.record alg m unprotected) := by
  intro label hlabel v hv
  rw [get?_record alg m unprotected hlabel] at hv
  exact h label hlabel v hv

theorem get?_iv_record (alg : Algorithm) (m unprotected : LabelMap) :
    (Selection.record alg m unprotected).get? Header.iv = m.get? Header.iv :=
  get?_record alg m unprotected (by decide)

theorem get?_partialIv_record (alg : Algorithm) (m unprotected : LabelMap) :
    (Selection.record alg m unprotected).get? Header.partialIv = m.get? Header.partialIv :=
  get?_record alg m unprotected (by decide)

theorem isRecorded_record (alg : Algorithm) (m unprotected : LabelMap) :
    isRecorded (Selection.record alg m unprotected) unprotected = isRecorded m unprotected := by
  simp [isRecorded, LabelMap.contains, get?_iv_record, get?_partialIv_record]

/-- Naming the algorithm changes nothing about the nonce. -/
theorem unusable_record (alg : Algorithm) (m unprotected : LabelMap) :
    Unusable (Selection.record alg m unprotected) unprotected ↔ Unusable m unprotected := by
  simp [Unusable, isRecorded_record, LabelMap.iv?, LabelMap.partialIv?, LabelMap.bytes?,
    get?_iv_record, get?_partialIv_record]

theorem bytes?_isSome {m : LabelMap} (h : Typed m) {label : Int64}
    (hlabel : label ∈ [Header.iv, Header.partialIv]) (hc : m.contains label = true) :
    (m.bytes? label).isSome = true := by
  obtain ⟨v, hv⟩ := Option.isSome_iff_exists.mp hc
  rw [LabelMap.bytes?, hv]
  exact h label hlabel v hv

theorem bytes?_eq_none {m : LabelMap} {label : Int64} (h : m.contains label = false) :
    m.bytes? label = none := by
  rw [LabelMap.bytes?, LabelMap.get?_eq_none h]
  rfl

theorem iv?_insert (m : LabelMap) (iv : Bytes) :
    (m.insert Header.iv (.bytes iv)).iv? = some iv := by
  rw [LabelMap.iv?, LabelMap.bytes?, LabelMap.get?_insert_self]
  rfl

section

variable {key : Key} {alg : Algorithm} {protectedMap unprotected : LabelMap}

theorem isSome_orElse {m n : LabelMap} (hm : Typed m) (hn : Typed n) {label : Int64}
    (hlabel : label ∈ [Header.iv, Header.partialIv])
    (hc : (m.contains label || n.contains label) = true) :
    (m.bytes? label <|> n.bytes? label).isSome = true := by
  cases hml : m.bytes? label with
  | some => rfl
  | none =>
    have hmc : m.contains label = false := by
      cases hb : m.contains label with
      | false => rfl
      | true =>
        have hsome := bytes?_isSome hm hlabel hb
        rw [hml] at hsome
        cases hsome
    rw [hmc, Bool.false_or] at hc
    exact bytes?_isSome hn hlabel hc

/-- Headers with an entry for a nonce that is of use name one, if they do not fail to. -/
theorem some_of_not_unusable (hr : isRecorded protectedMap unprotected = true)
    (hn : ¬Unusable protectedMap unprotected) {found : Option Bytes}
    (h : ofHeaders key alg protectedMap unprotected = .ok found) : ∃ iv, found = some iv := by
  unfold ofHeaders at h
  split at h
  next iv _ =>
    cases h
    exact ⟨iv, rfl⟩
  next hiv =>
    split at h
    next hpart => exact absurd ⟨hr, hiv, hpart⟩ hn
    next =>
      split at h
      next => cases h
      next base _ =>
        obtain ⟨iv, -, h⟩ := eq_ok_of_bind h
        cases h
        exact ⟨iv, rfl⟩

theorem ofHeaders_of_none (hiv : (protectedMap.iv? <|> unprotected.iv?) = none)
    (hpart : (protectedMap.partialIv? <|> unprotected.partialIv?) = none) :
    ofHeaders key alg protectedMap unprotected = .ok none := by
  rw [ofHeaders, hiv, hpart]
  rfl

/-- Headers without an entry for a nonce name none. -/
theorem not_contains_of_not_isRecorded (hr : isRecorded protectedMap unprotected = false) :
    ∀ label ∈ [Header.iv, Header.partialIv],
      protectedMap.contains label = false ∧ unprotected.contains label = false := by
  intro label hlabel
  have hn := List.any_eq_false.mp hr label hlabel
  simpa using hn

theorem ofHeaders_of_not_isRecorded (hr : isRecorded protectedMap unprotected = false) :
    ofHeaders key alg protectedMap unprotected = .ok none := by
  have hnone : ∀ label ∈ [Header.iv, Header.partialIv],
      (protectedMap.bytes? label <|> unprotected.bytes? label) = none := by
    intro label hlabel
    obtain ⟨hp, hu⟩ := not_contains_of_not_isRecorded hr label hlabel
    rw [bytes?_eq_none hp, bytes?_eq_none hu]
    rfl
  exact ofHeaders_of_none (hnone Header.iv (by decide)) (hnone Header.partialIv (by decide))

/-- A nonce that is recorded where there was none is the one that the headers name. -/
theorem ofHeaders_insert (hr : isRecorded protectedMap unprotected = false) (iv : Bytes) :
    ofHeaders key alg protectedMap (unprotected.insert Header.iv (.bytes iv)) =
      .ok (some iv) := by
  obtain ⟨hp, -⟩ := not_contains_of_not_isRecorded hr Header.iv (by decide)
  rw [ofHeaders, LabelMap.iv?, bytes?_eq_none hp, iv?_insert]
  rfl

theorem agreed_some {explicit : Option Bytes} {iv : Bytes} {named : Option Bytes}
    (h : agreed explicit (some iv) = .ok named) :
    named = some iv ∧ (explicit = none ∨ explicit = some iv) := by
  unfold agreed at h
  split at h
  next x y hy =>
    split at h
    next heq =>
      cases h
      cases hy
      exact ⟨congrArg some heq, .inr (congrArg some heq)⟩
    next => cases h
  next hy => cases hy
  next =>
    cases h
    exact ⟨rfl, .inl rfl⟩

theorem agreed_none (explicit : Option Bytes) : agreed explicit none = .ok explicit := by
  cases explicit <;> rfl

/-- Only a nonce that nobody names is drawn, and only headers without an entry get one. -/
theorem exists_named_of_toEncrypt {p : Provider} {explicit : Option Bytes} {calls : List Call}
    {iv : Bytes} {written : LabelMap}
    (h : toEncrypt p key alg protectedMap unprotected explicit = ⟨calls, .ok (iv, written)⟩) :
    ∃ found named, ofHeaders key alg protectedMap unprotected = .ok found ∧
      agreed explicit found = .ok named ∧ (named = none ∨ named = some iv) ∧
      (calls = [] ∨ calls = [.random alg.ivLength]) ∧
      written = if isRecorded protectedMap unprotected then unprotected
        else unprotected.insert Header.iv (.bytes iv) := by
  obtain ⟨found, hfound, h⟩ := Session.bind_ofExcept_eq_ok h
  obtain ⟨named, hnamed, h⟩ := Session.bind_mapError_eq_ok h
  refine ⟨found, named, hfound, hnamed, ?_⟩
  have record {x : Bytes} {rest : List Call}
      (hx : (if isRecorded protectedMap unprotected then pure (x, unprotected)
        else pure (x, unprotected.insert Header.iv (.bytes x)) : Session (Bytes × LabelMap)) =
          ⟨rest, .ok (iv, written)⟩) :
      rest = [] ∧ x = iv ∧ written = if isRecorded protectedMap unprotected then unprotected
        else unprotected.insert Header.iv (.bytes iv) := by
    split at hx
    next hr =>
      cases hx
      exact ⟨rfl, rfl, by rw [if_pos hr]⟩
    next hr =>
      cases hx
      exact ⟨rfl, rfl, by rw [if_neg hr]⟩
  cases named with
  | some x =>
    obtain ⟨rfl, rfl, hw⟩ := record h
    exact ⟨.inr rfl, .inl rfl, hw⟩
  | none =>
    obtain ⟨front, x, rest, hask, hrest, rfl⟩ := Session.bind_eq_ok h
    obtain ⟨rfl, rfl, hw⟩ := record hrest
    exact ⟨.inl rfl, .inr (by rw [(Session.ask_eq_ok hask).2, List.append_nil]), hw⟩

/-- Whether a nonce is recorded is decided by the labels, which one is used by the values under them.
So the written headers name the nonce that is encrypted with, unless they have an entry that is of no
use. -/
theorem of_toEncrypt {p : Provider} {explicit : Option Bytes} {calls : List Call} {iv : Bytes}
    {written : LabelMap}
    (h : toEncrypt p key alg protectedMap unprotected explicit = ⟨calls, .ok (iv, written)⟩) :
    (calls = [] ∨ calls = [.random alg.ivLength]) ∧ (explicit = none ∨ explicit = some iv) ∧
      ofHeaders key alg protectedMap written =
        .ok (if Unusable protectedMap unprotected then none else some iv) ∧
      written.algorithm? = unprotected.algorithm? := by
  obtain ⟨found, named, hfound, hnamed, hused, hcalls, rfl⟩ := exists_named_of_toEncrypt h
  refine ⟨hcalls, ?_⟩
  -- Where the headers name nothing, the nonce is the caller's or drawn.
  have unnamed (hnone : ofHeaders key alg protectedMap unprotected = .ok none) :
      explicit = none ∨ explicit = some iv := by
    obtain rfl : found = none := Except.ok.inj (hfound.symm.trans hnone)
    rw [agreed_none] at hnamed
    cases hnamed
    exact hused
  by_cases hr : isRecorded protectedMap unprotected = true
  · rw [if_pos hr]
    by_cases hn : Unusable protectedMap unprotected
    · have hnone : ofHeaders key alg protectedMap unprotected = .ok none :=
        ofHeaders_of_none hn.2.1 hn.2.2
      rw [if_pos hn]
      exact ⟨unnamed hnone, hnone, rfl⟩
    · obtain ⟨x, rfl⟩ := some_of_not_unusable hr hn hfound
      obtain ⟨rfl, he⟩ := agreed_some hnamed
      rcases hused with hused | hused
      · cases hused
      · cases hused
        rw [if_neg hn]
        exact ⟨he, hfound, rfl⟩
  · have hn : ¬Unusable protectedMap unprotected := fun hn => hr hn.1
    have hfalse : isRecorded protectedMap unprotected = false := by simpa using hr
    rw [if_neg hn, if_neg hr]
    exact ⟨unnamed (ofHeaders_of_not_isRecorded hfalse), ofHeaders_insert hfalse iv,
      LabelMap.algorithm?_insert_iv _ _⟩

theorem not_unusable_of_typed (hp : Typed protectedMap) (hu : Typed unprotected) :
    ¬Unusable protectedMap unprotected := by
  intro hform
  obtain ⟨hr, hiv, hpart⟩ := hform
  obtain ⟨label, hlabel, hc⟩ := List.any_eq_true.mp hr
  have hsome := isSome_orElse hp hu hlabel hc
  rcases List.mem_cons.mp hlabel with rfl | hlabel
  · exact absurd (hiv ▸ hsome) (by decide)
  · obtain rfl := List.mem_singleton.mp hlabel
    exact absurd (hpart ▸ hsome) (by decide)

/-- The nonce that is encrypted with is the one that the written headers name, and the caller named no
other. -/
theorem toEncrypt_eq_ok {p : Provider} {explicit : Option Bytes} {calls : List Call} {iv : Bytes}
    {written : LabelMap} (hp : Typed protectedMap) (hu : Typed unprotected)
    (h : toEncrypt p key alg protectedMap unprotected explicit = ⟨calls, .ok (iv, written)⟩) :
    (explicit = none ∨ explicit = some iv) ∧
      ofHeaders key alg protectedMap written = .ok (some iv) ∧
      written.algorithm? = unprotected.algorithm? := by
  have hall := (of_toEncrypt h).2
  rwa [if_neg (not_unusable_of_typed hp hu)] at hall

/-- Decrypting with the caller's nonce or without it, the nonce is the one that the headers name. -/
theorem toDecrypt_eq {explicit given : Option Bytes} {iv : Bytes}
    (he : explicit = none ∨ explicit = some iv) (hg : given = explicit ∨ given = none)
    (h : ofHeaders key alg protectedMap unprotected = .ok (some iv)) :
    toDecrypt key alg protectedMap unprotected given = .ok iv := by
  have hgiven : given = none ∨ given = some iv := by
    rcases hg with rfl | rfl
    · exact he
    · exact .inl rfl
  rw [toDecrypt, h]
  rcases hgiven with rfl | rfl
  · rfl
  · show (Except.mapError Error.draft (agreed (some iv) (some iv)) >>= fun _ => _) = _
    rw [agreed, if_pos rfl]
    rfl

end

end Cose.Nonce
