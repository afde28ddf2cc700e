import Cose.Proofs.Cbor.Head

namespace Cose.Cbor

section

variable (Head : Major → Bytes → Nat → Prop) (Keys : List Bytes → Prop)

/-- Items with heads of one form, in the maps of which the keys obey a condition. -/
inductive IsItem : Bytes → Prop
  | int {major : Major} {hd : Bytes} {n : Nat} (sign : major = .unsigned ∨ major = .negative)
      (h : Head major hd n) : IsItem hd
  | string {major : Major} {hd bs : Bytes} (kind : major = .bytes ∨ major = .text)
      (h : Head major hd bs.length) : IsItem (hd ++ bs)
  | array {hd : Bytes} {items : List Bytes} (h : Head .array hd items.length)
      (each : ∀ i ∈ items, IsItem i) : IsItem (hd ++ items.flatten)
  | map {hd : Bytes} {entries : List (Bytes × Bytes)} (h : Head .map hd entries.length)
      (labels : ∀ e ∈ entries, IsItem e.1) (values : ∀ e ∈ entries, IsItem e.2)
      (keys : Keys (entries.map (·.1))) :
      IsItem (hd ++ entries.flatMap fun e => e.1 ++ e.2)
  | tagged {hd b : Bytes} {n : Nat} (h : Head .tag hd n) (content : IsItem b) : IsItem (hd ++ b)
  | simple {x : UInt8} (h : x = 0xf4 ∨ x = 0xf5 ∨ x = 0xf6) : IsItem [x]

/-- What an item consists of behind its head. -/
def Tail (major : Major) (n : Nat) (tail : Bytes) : Prop :=
  match major with
  | .unsigned | .negative => tail = []
  | .bytes | .text => tail.length = n
  | .array => ∃ items : List Bytes, items.length = n ∧ tail = items.flatten ∧
      ∀ i ∈ items, IsItem Head Keys i
  | .map => ∃ entries : List (Bytes × Bytes), entries.length = n ∧
      tail = (entries.flatMap fun e => e.1 ++ e.2) ∧ (∀ e ∈ entries, IsItem Head Keys e.1) ∧
      (∀ e ∈ entries, IsItem Head Keys e.2) ∧ Keys (entries.map (·.1))
  | .tag => IsItem Head Keys tail

end

/-- Items of any form. -/
def WellFormed : Bytes → Prop := IsItem IsHead fun _ => True

/-- Items in deterministic encoding: every head is the shortest one, and the keys of every map are in
strictly ascending bytewise order. -/
def Deterministic : Bytes → Prop := IsItem IsShortest fun keys => keys.Pairwise (· < ·)

theorem ne_of_simple {major : Major} {hd s t : Bytes} {n : Nat} {x : UInt8}
    (hx : x = 0xf4 ∨ x = 0xf5 ∨ x = 0xf6) (h : IsHead major hd n) : hd ++ s ≠ [x] ++ t := by
  intro heq
  obtain ⟨b, digits, form, rfl, hl, -⟩ := h.exists_lead
  obtain ⟨rfl, -⟩ := List.cons.inj heq
  rcases hx with rfl | rfl | rfl <;> cases hl

namespace IsItem

variable {Head : Major → Bytes → Nat → Prop} {Keys : List Bytes → Prop}

theorem wellFormed {b : Bytes} (heads : ∀ major hd n, Head major hd n → IsHead major hd n)
    (h : IsItem Head Keys b) : WellFormed b := by
  induction h with
  | int sign h => exact .int sign (heads _ _ _ h)
  | string kind h => exact .string kind (heads _ _ _ h)
  | array h _ ih => exact .array (heads _ _ _ h) ih
  | map h _ _ _ labels values => exact .map (heads _ _ _ h) labels values trivial
  | tagged h _ ih => exact .tagged (heads _ _ _ h) ih
  | simple h => exact .simple h

/-- What an item is, is plain from its head. -/
theorem of_head (heads : ∀ major hd n, Head major hd n → IsHead major hd n) {major : Major}
    {hd b s t : Bytes} {n : Nat} (hb : IsItem Head Keys b) (h : IsHead major hd n)
    (heq : hd ++ s = b ++ t) :
    ∃ tail, b = hd ++ tail ∧ s = tail ++ t ∧ Head major hd n ∧ Tail Head Keys major n tail := by
  cases hb with
  | @int major' _ n' sign h' =>
    obtain ⟨rfl, rfl, rfl, rfl⟩ := h.unique (heads _ _ _ h') heq
    refine ⟨[], (List.append_nil hd).symm, rfl, h', ?_⟩
    rcases sign with rfl | rfl <;> rfl
  | @string major' hd' bs kind h' =>
    rw [List.append_assoc] at heq
    obtain ⟨rfl, rfl, rfl, rfl⟩ := h.unique (heads _ _ _ h') heq
    refine ⟨bs, rfl, rfl, h', ?_⟩
    rcases kind with rfl | rfl <;> rfl
  | @array hd' items h' each =>
    rw [List.append_assoc] at heq
    obtain ⟨rfl, rfl, rfl, rfl⟩ := h.unique (heads _ _ _ h') heq
    exact ⟨_, rfl, rfl, h', items, rfl, rfl, each⟩
  | @map hd' entries h' labels values keys =>
    rw [List.append_assoc] at heq
    obtain ⟨rfl, rfl, rfl, rfl⟩ := h.unique (heads _ _ _ h') heq
    exact ⟨_, rfl, rfl, h', entries, rfl, rfl, labels, values, keys⟩
  | tagged h' content =>
    rw [List.append_assoc] at heq
    obtain ⟨rfl, rfl, rfl, rfl⟩ := h.unique (heads _ _ _ h') heq
    exact ⟨_, rfl, rfl, h', content⟩
  | simple hx => exact absurd heq (ne_of_simple hx h)

end IsItem

theorem flatten_inj {items items' : List Bytes} {s t : Bytes}
    (delimited : ∀ i ∈ items, ∀ {j s t}, WellFormed j → i ++ s = j ++ t → i = j ∧ s = t)
    (h : ∀ j ∈ items', WellFormed j) (hlength : items.length = items'.length)
    (heq : items.flatten ++ s = items'.flatten ++ t) : items = items' ∧ s = t := by
  induction items generalizing items' with
  | nil =>
    obtain rfl := List.length_eq_zero_iff.mp hlength.symm
    exact ⟨rfl, heq⟩
  | cons i items ih =>
    cases items' with
    | nil => cases hlength
    | cons j items' =>
      rw [List.flatten_cons, List.flatten_cons, List.append_assoc, List.append_assoc] at heq
      obtain ⟨rfl, hrest⟩ := delimited i List.mem_cons_self (h j List.mem_cons_self) heq
      obtain ⟨rfl, rfl⟩ := ih (fun k hk => delimited k (List.mem_cons_of_mem i hk))
        (fun k hk => h k (List.mem_cons_of_mem i hk)) (Nat.succ.inj hlength) hrest
      exact ⟨rfl, rfl⟩

/-- The labels and values of some entries, one after the other. -/
def flat (entries : List (Bytes × Bytes)) : List Bytes := entries.flatMap fun e => [e.1, e.2]

theorem flatten_flat (entries : List (Bytes × Bytes)) :
    (flat entries).flatten = entries.flatMap fun e => e.1 ++ e.2 := by
  induction entries with
  | nil => rfl
  | cons e entries ih =>
    rw [flat, List.flatMap_cons, List.flatten_append, List.flatMap_cons, ← ih]
    simp [flat]

theorem length_flat (entries : List (Bytes × Bytes)) :
    (flat entries).length = 2 * entries.length := by
  induction entries with
  | nil => rfl
  | cons e entries ih =>
    rw [flat] at ih ⊢
    rw [List.flatMap_cons, List.length_append, ih, List.length_cons]
    simp
    omega

theorem flat_injective {entries entries' : List (Bytes × Bytes)} (h : flat entries = flat entries') :
    entries = entries' := by
  induction entries generalizing entries' with
  | nil =>
    cases entries' with
    | nil => rfl
    | cons => cases h
  | cons e entries ih =>
    cases entries' with
    | nil => cases h
    | cons e' entries' =>
      obtain ⟨hlabel, htail⟩ := List.cons.inj h
      obtain ⟨hvalue, hrest⟩ := List.cons.inj htail
      rw [ih hrest, Prod.ext hlabel hvalue]

theorem forall_mem_flat {P : Bytes → Prop} {entries : List (Bytes × Bytes)} :
    (∀ i ∈ flat entries, P i) ↔ (∀ e ∈ entries, P e.1) ∧ ∀ e ∈ entries, P e.2 := by
  simp only [flat, List.mem_flatMap, List.mem_cons, List.not_mem_nil, or_false]
  grind

/-- Where an item ends is plain from its beginning. -/
theorem WellFormed.prefix_free {a b s t : Bytes} (ha : WellFormed a) (hb : WellFormed b)
    (heq : a ++ s = b ++ t) : a = b ∧ s = t := by
  have heads : ∀ major hd n, IsHead major hd n → IsHead major hd n := fun _ _ _ h => h
  induction ha generalizing b s t with
  | int sign h =>
    obtain ⟨tail, rfl, rfl, -, htail⟩ := hb.of_head heads h heq
    have hnil : tail = [] := by rcases sign with rfl | rfl <;> exact htail
    simp [hnil]
  | @string major hd bs kind h =>
    rw [List.append_assoc] at heq
    obtain ⟨tail, rfl, hs, -, htail⟩ := hb.of_head heads h heq
    have hlength : bs.length = tail.length := by rcases kind with rfl | rfl <;> exact htail.symm
    obtain ⟨rfl, rfl⟩ := List.append_inj hs hlength
    exact ⟨rfl, rfl⟩
  | array h each ih =>
    rw [List.append_assoc] at heq
    obtain ⟨tail, rfl, hs, -, items', hlength, rfl, each'⟩ := hb.of_head heads h heq
    obtain ⟨rfl, rfl⟩ := flatten_inj ih each' hlength.symm hs
    exact ⟨rfl, rfl⟩
  | @map hd entries h _ _ _ labels values =>
    rw [List.append_assoc] at heq
    obtain ⟨tail, rfl, hs, -, entries', hlength, rfl, labels', values', -⟩ :=
      hb.of_head heads h heq
    rw [← flatten_flat, ← flatten_flat] at hs
    have hflat : (flat entries).length = (flat entries').length := by
      rw [length_flat, length_flat, hlength]
    obtain ⟨hentries, rfl⟩ := flatten_inj (forall_mem_flat.mpr ⟨labels, values⟩)
      (forall_mem_flat.mpr ⟨labels', values'⟩) hflat hs
    rw [flat_injective hentries]
    exact ⟨rfl, rfl⟩
  | tagged h _ ih =>
    rw [List.append_assoc] at heq
    obtain ⟨tail, rfl, hs, -, htail⟩ := hb.of_head heads h heq
    obtain ⟨rfl, rfl⟩ := ih htail hs
    exact ⟨rfl, rfl⟩
  | simple hx =>
    cases hb with
    | int sign h => exact absurd heq.symm (ne_of_simple hx h)
    | string kind h =>
      rw [List.append_assoc] at heq
      exact absurd heq.symm (ne_of_simple hx h)
    | array h =>
      rw [List.append_assoc] at heq
      exact absurd heq.symm (ne_of_simple hx h)
    | map h =>
      rw [List.append_assoc] at heq
      exact absurd heq.symm (ne_of_simple hx h)
    | tagged h =>
      rw [List.append_assoc] at heq
      exact absurd heq.symm (ne_of_simple hx h)
    | simple hx' =>
      obtain ⟨rfl, rfl⟩ := List.cons.inj heq
      exact ⟨rfl, rfl⟩

/-- So many items one after the other are told apart. -/
theorem WellFormed.eq_of_flatten {items items' : List Bytes} (h : ∀ i ∈ items, WellFormed i)
    (h' : ∀ i ∈ items', WellFormed i) (hlength : items.length = items'.length)
    (heq : items.flatten = items'.flatten) : items = items' := by
  rw [← List.append_nil items.flatten, ← List.append_nil items'.flatten] at heq
  exact (flatten_inj (fun i hi {_ _ _} hj => (h i hi).prefix_free hj) h' hlength heq).1

theorem WellFormed.eq_of_flatMap {entries entries' : List (Bytes × Bytes)}
    (h : ∀ i ∈ flat entries, WellFormed i) (h' : ∀ i ∈ flat entries', WellFormed i)
    (hlength : entries.length = entries'.length)
    (heq : (entries.flatMap fun e => e.1 ++ e.2) = entries'.flatMap fun e => e.1 ++ e.2) :
    entries = entries' := by
  rw [← flatten_flat, ← flatten_flat] at heq
  exact flat_injective (eq_of_flatten h h' (by rw [length_flat, length_flat, hlength]) heq)

end Cose.Cbor
