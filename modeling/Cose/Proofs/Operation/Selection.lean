import Cose.Operation.Selection
import Cose.Proofs.Key.Fit

namespace Cose

namespace LabelMap

theorem get?_insert_self (m : LabelMap) (l : Label) (v : Value) : (m.insert l v).get? l = some v := by
  rw [get?_insert, if_pos rfl]

theorem get?_insert_of_ne {l k : Label} (h : k ≠ l) (m : LabelMap) (v : Value) :
    (m.insert l v).get? k = m.get? k := by
  rw [get?_insert, if_neg h]

theorem contains_insert (m : LabelMap) (l k : Label) (v : Value) :
    (m.insert l v).contains k = true ↔ k = l ∨ m.contains k = true := by
  rw [contains, get?_insert]
  split
  next h => simp [h]
  next h => simp [h, contains]

theorem contains_of_get? {m : LabelMap} {l : Label} {v : Value} (h : m.get? l = some v) :
    m.contains l = true := by
  rw [contains, h]
  rfl

theorem get?_eq_none {m : LabelMap} {l : Label} (h : m.contains l = false) : m.get? l = none :=
  Option.isNone_iff_eq_none.mp (Option.isSome_eq_false_iff.mp h)

theorem algorithm?_insert_iv (m : LabelMap) (v : Value) :
    (m.insert Header.iv v).algorithm? = m.algorithm? := by
  have hne : (Header.algorithm : Label) ≠ Header.iv := by decide
  rw [algorithm?, algorithm?, int?, int?, get?_insert_of_ne hne]

theorem algorithm?_insert (m : LabelMap) (i : Int64) :
    (m.insert Header.algorithm (.int i)).algorithm? = some i := by
  rw [algorithm?, int?, get?_insert_self]
  rfl

end LabelMap

namespace Key

theorem checkOperation_eq (key : Key) (op : KeyOperation) : key.checkOperation op =
    if key.operations ≠ [] ∧ op ∉ key.operations then .error (.operationNotAllowed op)
    else .ok () := by
  have hcond : (key.operations.isEmpty || key.operations.contains op) = true ↔
      ¬(key.operations ≠ [] ∧ op ∉ key.operations) := by
    simp [Classical.or_iff_not_imp_left]
  rw [checkOperation]
  by_cases hop : key.operations ≠ [] ∧ op ∉ key.operations
  · rw [if_pos hop, if_neg (fun h => hcond.mp h hop)]
  · rw [if_neg hop, if_pos (hcond.mpr hop)]

end Key

/-- A key for a usage whose operations are only declared together is never restricted to one of
them. -/
theorem RoleKey.permits {usage : KeyUsage} (key : RoleKey usage) (hj : usage.joint = true)
    (op : KeyOperation) (hop : op ∈ usage.operations) :
    ¬(key.key.operations ≠ [] ∧ op ∉ key.key.operations) := by
  intro hform
  obtain ⟨hne, hmem⟩ := hform
  obtain ⟨-, -, together⟩ := Key.checkUsage_eq_ok_iff.mp key.fits
  exact hmem (together hj hne op hop)

namespace Selection

/-- A source that names this identifier or none. -/
def Names (i : Int64) (source : Option Int64) : Prop := source = none ∨ source = some i

theorem names_of_agreed {a b : Option Int64} {i : Int64} (h : agreed a b = .ok (some i)) :
    Names i a ∧ Names i b := by
  unfold agreed at h
  split at h
  next =>
    split at h
    next heq =>
      cases h
      exact ⟨.inr rfl, .inr (congrArg some heq.symm)⟩
    next => cases h
  next =>
    cases h
    exact ⟨.inr rfl, .inl rfl⟩
  next =>
    cases h
    exact ⟨.inl rfl, .inr rfl⟩

theorem agreed_eq_ok {a b c : Option Int64} (hc : agreed a b = .ok c) : c = (a <|> b) := by
  unfold agreed at hc
  split at hc
  next =>
    split at hc
    next => exact (Except.ok.inj hc).symm
    next => cases hc
  next => exact (Except.ok.inj hc).symm
  next => exact (Except.ok.inj hc).symm

theorem none_of_agreed {a b : Option Int64} (h : agreed a b = .ok none) : a = none ∧ b = none := by
  have hnone := agreed_eq_ok h
  simpa using hnone.symm

theorem agreed_of_names {a b : Option Int64} {i : Int64} (ha : Names i a) (hb : Names i b) :
    agreed a b = .ok (a <|> b) := by
  rcases ha with rfl | rfl
  · rfl
  · rcases hb with rfl | rfl
    · rfl
    · exact if_pos rfl

theorem Names.orElse {a b : Option Int64} {i : Int64} (ha : Names i a) (hb : Names i b) :
    Names i (a <|> b) := by
  rcases ha with rfl | rfl
  · exact hb
  · exact .inr rfl

/-- What a check listens to once the caller and the protected header agree. -/
theorem idToCheck_of_agreed {given : Option Algorithm} {first : Option Int64}
    {m n : LabelMap} {key : Key}
    (hf : agreed (given.map Algorithm.id) m.algorithm? = .ok first) :
    idToCheck given m n key = match first <|> key.algorithm with
      | some id => agreed (some id) n.algorithm?
      | none => .ok none := by
  rw [idToCheck, hf]
  rfl

/-- Nobody whom a check listens to names an algorithm. -/
def Unnamed (given : Option Algorithm) (protectedMap : LabelMap) (key : Key) : Prop :=
  given = none ∧ protectedMap.algorithm? = none ∧ key.algorithm = none

instance (given : Option Algorithm) (protectedMap : LabelMap) (key : Key) :
    Decidable (Unnamed given protectedMap key) :=
  inferInstanceAs (Decidable (_ ∧ _ ∧ _))

/-- An algorithm that all sources agree on and that the key can be used with. -/
structure Chosen (purpose : Purpose) (explicit : Option Algorithm)
    (protectedMap unprotected : LabelMap) (key : Key) (alg : Algorithm) : Prop where
  explicit : Names alg.id (explicit.map Algorithm.id)
  protectedMap : Names alg.id protectedMap.algorithm?
  unprotected : Names alg.id unprotected.algorithm?
  declared : Names alg.id key.algorithm
  family : purpose.families.contains alg.family = true
  suited : key.checkSuited alg = .ok ()

theorem names_of_idToProduce {explicit : Option Algorithm} {protectedMap unprotected : LabelMap}
    {key : Key} {i : Int64} (h : idToProduce explicit protectedMap unprotected key = .ok (some i)) :
    Names i (explicit.map Algorithm.id) ∧ Names i protectedMap.algorithm? ∧
      Names i unprotected.algorithm? := by
  obtain ⟨first, hf, h⟩ := eq_ok_of_bind h
  obtain ⟨header, hh, h⟩ := eq_ok_of_bind h
  have hi : (header <|> key.algorithm) = some i := Except.ok.inj h
  -- Without a header the key decides, and then nobody else has named anything.
  cases header with
  | none =>
    obtain ⟨rfl, hu⟩ := none_of_agreed hh
    obtain ⟨he, hp⟩ := none_of_agreed hf
    exact ⟨.inl he, .inl hp, .inl hu⟩
  | some j =>
    obtain rfl : j = i := Option.some.inj hi
    obtain ⟨hfirst, hu⟩ := names_of_agreed hh
    rcases hfirst with rfl | rfl
    · obtain ⟨he, hp⟩ := none_of_agreed hf
      exact ⟨.inl he, .inl hp, hu⟩
    · obtain ⟨he, hp⟩ := names_of_agreed hf
      exact ⟨he, hp, hu⟩

theorem eq_ok_of_named {id : Option Int64} {alg : Algorithm} (h : named id = .ok alg) :
    id = some alg.id := by
  unfold named at h
  split at h
  next => cases h
  next i =>
    split at h
    next hi =>
      cases h
      rw [Algorithm.id_of_ofId? hi]
    next => cases h

theorem named_id (alg : Algorithm) : named (some alg.id) = .ok alg := by
  simp only [named, Algorithm.ofId?_id]

theorem checkKey_eq {families : List Family} {alg : Algorithm}
    (h : families.contains alg.family = true) (op : KeyOperation) (key : Key) :
    checkKey families op key alg = key.checkFor alg op := by
  rw [checkKey, h]
  rfl

/-- An algorithm that is one for the purpose, and a key that suits and allows it. -/
structure Passed (families : List Family) (op : KeyOperation) (key : Key) (alg : Algorithm) :
    Prop where
  family : alg.family ∈ families
  allowed : key.Allows alg op
  suits : key.Suits alg

theorem passed_of_checkKey {families : List Family} {op : KeyOperation} {key : Key}
    {alg : Algorithm} (h : checkKey families op key alg = .ok ()) :
    Passed families op key alg := by
  unfold checkKey at h
  split at h
  next hmem =>
    obtain ⟨allowed, suits⟩ := Key.checkFor_eq_ok_iff.mp h
    exact ⟨List.contains_iff_mem.mp hmem, allowed, suits⟩
  next => cases h

theorem toProduce_eq_ok {purpose : Purpose} {explicit : Option Algorithm}
    {protectedMap unprotected : LabelMap} {key : Key} {alg : Algorithm}
    (h : toProduce purpose explicit protectedMap unprotected key = .ok alg) :
    idToProduce explicit protectedMap unprotected key = .ok (some alg.id) ∧
      Passed purpose.families purpose.produce key alg := by
  obtain ⟨id, hid, h⟩ := eq_ok_of_bind h
  obtain ⟨alg', hnamed, h⟩ := eq_ok_of_bind h
  obtain ⟨⟨⟩, hcheck, h⟩ := eq_ok_of_bind h
  obtain rfl : alg' = alg := Except.ok.inj h
  rw [eq_ok_of_named hnamed] at hid
  exact ⟨hid, passed_of_checkKey (eq_ok_of_mapError hcheck)⟩

theorem passed_of_toCheck {purpose : Purpose} {explicit : Option Algorithm} {headers : Headers}
    {key : Key} {alg : Algorithm} (h : toCheck purpose explicit headers key = .ok alg) :
    Passed purpose.families purpose.check key alg := by
  obtain ⟨id, -, h⟩ := eq_ok_of_bind h
  obtain ⟨alg', -, h⟩ := eq_ok_of_bind h
  obtain ⟨⟨⟩, hcheck, h⟩ := eq_ok_of_bind h
  obtain rfl : alg' = alg := Except.ok.inj h
  exact passed_of_checkKey (eq_ok_of_mapError hcheck)

/-- What is produced is produced by an algorithm on which all sources agree. -/
theorem chosen_of_toProduce {purpose : Purpose} {explicit : Option Algorithm}
    {protectedMap unprotected : LabelMap} {key : Key} {alg : Algorithm}
    (h : toProduce purpose explicit protectedMap unprotected key = .ok alg) :
    Chosen purpose explicit protectedMap unprotected key alg := by
  obtain ⟨hid, passed⟩ := toProduce_eq_ok h
  obtain ⟨he, hp, hu⟩ := names_of_idToProduce hid
  exact ⟨he, hp, hu, passed.allowed.algorithm, List.contains_iff_mem.mpr passed.family,
    Key.checkSuited_eq_ok_iff.mpr passed.suits⟩

namespace Chosen

variable {purpose : Purpose} {explicit : Option Algorithm} {protectedMap unprotected : LabelMap}
  {key : Key} {alg : Algorithm}

theorem record (h : Chosen purpose explicit protectedMap unprotected key alg) :
    Names alg.id (Selection.record alg protectedMap unprotected).algorithm? := by
  unfold Selection.record
  split
  next => exact .inr (LabelMap.algorithm?_insert protectedMap alg.id)
  next => exact h.protectedMap

theorem checkDeclared (h : Chosen purpose explicit protectedMap unprotected key alg) :
    key.checkDeclared alg = .ok () := by
  exact Key.checkDeclared_eq_ok_iff.mpr h.declared

/-- The identifier is found among what is left of the sources, if anything is. -/
theorem idToCheck_eq (h : Chosen purpose explicit protectedMap unprotected key alg)
    {given : Option Algorithm} (hg : given = explicit ∨ given = none) {m n : LabelMap}
    (hm : Names alg.id m.algorithm?) (hn : n.algorithm? = unprotected.algorithm?) :
    idToCheck given m n key = .ok (if Unnamed given m key then none else some alg.id) := by
  have hgiven : Names alg.id (given.map Algorithm.id) := by
    rcases hg with rfl | rfl
    · exact h.explicit
    · exact .inl rfl
  have hu : Names alg.id n.algorithm? := by
    rw [hn]
    exact h.unprotected
  have hall := (hgiven.orElse hm).orElse h.declared
  rw [idToCheck_of_agreed (agreed_of_names hgiven hm)]
  cases hsome : (given.map Algorithm.id <|> m.algorithm?) <|> key.algorithm with
  | none =>
    have hnone : Unnamed given m key := by
      simpa [Unnamed, and_assoc] using hsome
    rw [if_pos hnone]
  | some i =>
    have hsome' : ¬Unnamed given m key := by
      intro hform
      obtain ⟨rfl, h1, h2⟩ := hform
      simp [h1, h2] at hsome
    have hi : i = alg.id := by
      rw [hsome] at hall
      rcases hall with hall | hall
      · cases hall
      · exact Option.some.inj hall
    rw [if_neg hsome', hi]
    exact agreed_of_names (.inr rfl) hu

/-- When something is checked by the algorithm it was produced by, the algorithm can be unnamed, and
the key can be restricted to other operations. -/
theorem toCheck_eq (h : Chosen purpose explicit protectedMap unprotected key alg)
    {given : Option Algorithm} (hg : given = explicit ∨ given = none) {headers : Headers}
    (hm : Names alg.id headers.protectedHeader.map.algorithm?)
    (hn : headers.unprotected.algorithm? = unprotected.algorithm?) :
    toCheck purpose given headers key =
      if Unnamed given headers.protectedHeader.map key then .error (.missingHeader "alg")
      else if key.operations ≠ [] ∧ purpose.check ∉ key.operations then
        .error (.key (.operationNotAllowed purpose.check))
      else .ok alg := by
  rw [toCheck, h.idToCheck_eq hg hm hn]
  split
  next => rfl
  next =>
    show (named (some alg.id) >>= fun alg => _) = _
    rw [named_id]
    show (Except.mapError Error.key (checkKey purpose.families purpose.check key alg) >>=
      fun _ => pure alg) = _
    rw [checkKey_eq h.family, Key.checkFor, h.checkDeclared, h.suited]
    show (Except.mapError Error.key (key.checkOperation purpose.check) >>= fun _ => pure alg) = _
    rw [Key.checkOperation_eq]
    split
    next => rfl
    next => rfl

/-- Nothing but a missing name of the algorithm and the operations of the key can come before the
check itself. -/
theorem bind_toCheck (h : Chosen purpose explicit protectedMap unprotected key alg)
    {given : Option Algorithm} (hg : given = explicit ∨ given = none) {headers : Headers}
    (hm : headers.protectedHeader.map = Selection.record alg protectedMap unprotected)
    (hn : headers.unprotected.algorithm? = unprotected.algorithm?) {β : Type}
    (f : Algorithm → Session β) :
    Session.ofExcept (toCheck purpose given headers key) >>= f =
      if Unnamed given headers.protectedHeader.map key then
        .ofExcept (.error (.missingHeader "alg"))
      else if key.operations ≠ [] ∧ purpose.check ∉ key.operations then
        .ofExcept (.error (.key (.operationNotAllowed purpose.check)))
      else f alg := by
  rw [h.toCheck_eq hg (hm ▸ h.record) hn]
  split
  next => rfl
  next =>
    split
    next => rfl
    next => exact Session.ok_bind alg f

end Chosen

end Selection

end Cose
