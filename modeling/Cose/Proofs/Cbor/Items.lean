import Cose.Proofs.Cbor.Reading

namespace Cose.Reader

open Cbor

variable {α β : Type}

theorem takes_position {f : Nat → Reader β} {b : Bytes} {x : β} (h : ∀ n, (f n).Takes b x) :
    (position >>= f).Takes b x :=
  fun rest start => h start rest start

theorem yieldsAt_position {f : Nat → Reader β} {c : Cursor} {form : Bytes → β → Prop}
    (h : ∀ n, (f n).YieldsAt c form) : (position >>= f).YieldsAt c form :=
  fun x c' hx => h c.position x c' hx

theorem takes_int {negative : Bool} {form : Argument} {b : Bytes} {n : Nat} {i : Int64}
    (h : (argument form).Takes b n) (value : i.toInt = if negative then -1 - (n : Int) else n) :
    (int negative form).Takes b i := by
  have hlo := i.le_toInt
  have hhi := i.toInt_lt
  have hn : n < 9223372036854775808 := by
    cases negative <;> simp at value <;> omega
  refine takes_position fun start => ?_
  rw [← List.append_nil b]
  refine h.bind ?_
  rw [if_pos hn, ← value, Int64.ofInt_toInt]
  exact takes_pure i

theorem yieldsAt_int {negative : Bool} {form : Argument} {c : Cursor} {F : Bytes → Nat → Prop}
    (h : (argument form).YieldsAt c F) :
    (int negative form).YieldsAt c fun b i =>
      ∃ n, F b n ∧ i.toInt = if negative then -1 - (n : Int) else n := by
  refine yieldsAt_position fun start => ?_
  refine h.bind (G := fun (n : Nat) b (i : Int64) =>
    b = [] ∧ i.toInt = if negative then -1 - (n : Int) else n) (fun n c => ?_) ?_
  · split
    next hn =>
      intro i c' hi
      cases hi
      refine ⟨[], rfl, rfl, rfl, Int64.toInt_ofInt_of_le ?_ ?_⟩ <;> split <;> omega
    next => exact yieldsAt_throw _ c _
  · intro b n b' i hF hform
    obtain ⟨rfl, hi⟩ := hform
    exact ⟨n, by simpa using hF, hi⟩

theorem takes_bytes {hd bs : Bytes} (h : IsHead .bytes hd bs.length) :
    ∃ form, Begins hd (.item .bytes form) ∧ (bytes form).Takes (hd ++ bs) bs := by
  obtain ⟨form, hb, ha⟩ := takes_argument h
  exact ⟨form, hb, ha.bind (takes_take bs)⟩

theorem takes_text {hd : Bytes} {s : String} (h : IsHead .text hd (Bytes.ofText s).length) :
    ∃ form, Begins hd (.item .text form) ∧ (text form).Takes (hd ++ Bytes.ofText s) s := by
  obtain ⟨form, hb, ha⟩ := takes_argument h
  refine ⟨form, hb, takes_position fun start => ?_⟩
  have hbs : (bytes form).Takes (hd ++ Bytes.ofText s) (Bytes.ofText s) :=
    ha.bind (takes_take (Bytes.ofText s))
  rw [← List.append_nil (hd ++ Bytes.ofText s)]
  refine hbs.bind ?_
  rw [Bytes.toText?_ofText]
  exact takes_pure s

theorem yieldsAt_string {major : Major} {form : Argument} {b : UInt8}
    (h : Lead.ofByte b = .item major form) (bs : Bytes) (position : Nat) :
    (bytes form).YieldsAt ⟨b :: bs, position⟩ fun b' content =>
      ∃ hd, IsHead major hd content.length ∧ b' = hd ++ content := by
  refine (yieldsAt_argument h bs position).bind (fun n => yields_take n) ?_
  intro hd n content _ hh hform
  obtain ⟨rfl, rfl⟩ := hform
  exact ⟨hd, hh, rfl⟩

theorem yieldsAt_bytes {form : Argument} {b : UInt8} (h : Lead.ofByte b = .item .bytes form)
    (bs : Bytes) (position : Nat) : (bytes form).YieldsAt ⟨b :: bs, position⟩ IsBytes := by
  refine (yieldsAt_string h bs position).mono ?_
  intro b' content hform
  obtain ⟨hd, hh, rfl⟩ := hform
  exact .mk hh

theorem yieldsAt_text {form : Argument} {b : UInt8} (h : Lead.ofByte b = .item .text form)
    (bs : Bytes) (position : Nat) : (text form).YieldsAt ⟨b :: bs, position⟩ IsText := by
  refine yieldsAt_position fun start => (yieldsAt_string h bs position).bind
    (G := fun content b' s => b' = [] ∧ Bytes.ofText s = content) (fun content c => ?_) ?_
  · cases hs : Bytes.toText? content with
    | none => exact yieldsAt_throw _ c _
    | some s =>
      refine YieldsAt.mono (yields_pure s c) ?_
      intro b' s' hform
      obtain ⟨rfl, rfl⟩ := hform
      exact ⟨rfl, Bytes.ofText_of_toText? hs⟩
  · intro b' content b'' s hform hform'
    obtain ⟨hd, hh, rfl⟩ := hform
    obtain ⟨rfl, rfl⟩ := hform'
    rw [List.append_nil]
    exact .mk hh

theorem takes_times {r : Reader α} {items : List (Bytes × α)}
    (h : ∀ i ∈ items, r.Takes i.1 i.2) :
    (times items.length r).Takes (items.flatMap (·.1)) (items.map (·.2)) := by
  induction items with
  | nil => exact takes_pure []
  | cons i items ih =>
    have hi := h i List.mem_cons_self
    have hr := ih fun j hj => h j (List.mem_cons_of_mem i hj)
    exact hi.bind (hr.map (i.2 :: ·))

theorem takes_times_encoded {r : Reader α} {encode : α → Bytes} {as : List α}
    (h : ∀ a ∈ as, r.Takes (encode a) a) : (times as.length r).Takes (as.flatMap encode) as := by
  have hi : ∀ i ∈ as.map fun a => (encode a, a), r.Takes i.1 i.2 := by
    intro i hi
    obtain ⟨a, ha, rfl⟩ := List.mem_map.mp hi
    exact h a ha
  have ht := takes_times hi
  have hmap : (as.map fun a => (encode a, a)).map (·.2) = as := by
    rw [List.map_map]
    exact List.map_id' as
  rwa [List.length_map, List.flatMap_map, hmap] at ht

/-- Items are taken up to the first one that is refused. -/
theorem refuses_times {r : Reader α} {e : DecodingError} {items : List (Bytes × α)}
    (h : ∀ i ∈ items, r.Takes i.1 i.2 ∨ r.Refuses i.1 e) (hr : ∃ i ∈ items, r.Refuses i.1 e) :
    (times items.length r).Refuses (items.flatMap (·.1)) e := by
  induction items with
  | nil =>
    obtain ⟨i, hi, -⟩ := hr
    cases hi
  | cons i items ih =>
    rcases h i List.mem_cons_self with ht | hf
    · obtain ⟨j, hj, hjr⟩ := hr
      rcases List.mem_cons.mp hj with rfl | hj
      · have := (ht [] 0).symm.trans (hjr [] 0)
        cases this
      · have ih := ih (fun k hk => h k (List.mem_cons_of_mem i hk)) ⟨j, hj, hjr⟩
        exact ht.refuses (ih.bind fun rest => pure (i.2 :: rest))
    · exact (hf.append _).bind _

theorem yields_times {r : Reader α} {F : Bytes → α → Prop} (h : r.Yields F) (n : Nat) :
    (times n r).Yields fun b as => ∃ items : List (Bytes × α),
      items.length = n ∧ b = items.flatMap (·.1) ∧ as = items.map (·.2) ∧
        ∀ i ∈ items, F i.1 i.2 := by
  induction n with
  | zero =>
    intro c
    refine YieldsAt.mono (yields_pure [] c) ?_
    intro b as hform
    obtain ⟨rfl, rfl⟩ := hform
    exact ⟨[], rfl, rfl, rfl, by simp⟩
  | succ n ih =>
    intro c
    refine (h c).bind (fun a c => (ih c).map (g := (a :: ·))
      (H := fun b as => ∃ items : List (Bytes × α), items.length = n ∧ b = items.flatMap (·.1) ∧
        as = a :: items.map (·.2) ∧ ∀ i ∈ items, F i.1 i.2) ?_) ?_
    · intro b as hform
      obtain ⟨items, hn, hb, rfl, hF⟩ := hform
      exact ⟨items, hn, hb, rfl, hF⟩
    · intro b a b' as hF hform
      obtain ⟨items, rfl, rfl, rfl, hFs⟩ := hform
      refine ⟨(b, a) :: items, rfl, rfl, rfl, fun i hi => ?_⟩
      rcases List.mem_cons.mp hi with rfl | hi
      · exact hF
      · exact hFs i hi

theorem takes_arrayLength {hd : Bytes} {n : Nat} (h : IsHead .array hd n) (name : String) :
    (arrayLength name).Takes hd n := by
  obtain ⟨form, hb, ha⟩ := takes_argument h
  exact hb.takes ha

theorem takes_arrayOf {hd : Bytes} {n : Nat} (h : IsHead .array hd n) (name : String) :
    (arrayOf name n).Takes hd () := by
  rw [← List.append_nil hd]
  refine (takes_arrayLength h name).bind ?_
  simpa using takes_pure ()

theorem takes_bstr {b bs : Bytes} (h : IsBytes b bs) (field : String) :
    (bstr field).Takes b bs := by
  cases h with
  | mk h =>
    obtain ⟨form, hb, ht⟩ := takes_bytes h
    exact (hb.append _).takes ht

theorem takes_bstrOrNil {b bs : Bytes} (h : IsBytes b bs) (field : String) :
    (bstrOrNil field).Takes b (some bs) := by
  cases h with
  | mk h =>
    obtain ⟨form, hb, ht⟩ := takes_bytes h
    exact (hb.append _).takes (ht.map some)

theorem takes_bstrOrNil_null (field : String) : (bstrOrNil field).Takes [0xf6] none :=
  (begins_byte (l := .null) rfl rfl).takes ((takes_skip _).map fun _ => none)

theorem takes_listOf {r : Reader α} {hd : Bytes} {items : List (Bytes × α)} (hne : items ≠ [])
    (h : IsHead .array hd items.length) (hi : ∀ i ∈ items, r.Takes i.1 i.2)
    (field name : String) :
    (listOf field name r).Takes (hd ++ items.flatMap (·.1)) (items.map (·.2)) := by
  have hn : items.length ≠ 0 := by simpa using hne
  refine (takes_arrayLength h field).bind ?_
  simpa [hn] using takes_times hi

theorem takes_listOf_encoded {r : Reader α} {encode : α → Bytes} {hd : Bytes} {as : List α}
    (hne : as ≠ []) (h : IsHead .array hd as.length) (ha : ∀ a ∈ as, r.Takes (encode a) a)
    (field name : String) : (listOf field name r).Takes (hd ++ as.flatMap encode) as := by
  have hn : as.length ≠ 0 := by simpa using hne
  refine (takes_arrayLength h field).bind ?_
  simpa [hn] using takes_times_encoded ha

theorem refuses_listOf {r : Reader α} {e : DecodingError} {hd : Bytes}
    {items : List (Bytes × α)} (h : IsHead .array hd items.length)
    (hi : ∀ i ∈ items, r.Takes i.1 i.2 ∨ r.Refuses i.1 e) (hr : ∃ i ∈ items, r.Refuses i.1 e)
    (field name : String) :
    (listOf field name r).Refuses (hd ++ items.flatMap (·.1)) e := by
  have hn : items.length ≠ 0 := by
    obtain ⟨i, hi, -⟩ := hr
    have := List.length_pos_of_mem hi
    omega
  refine (takes_arrayLength h field).refuses ?_
  simpa [hn] using refuses_times hi hr

/-- A list of items, each of which is read or refused for the same reason, is read if they all
are. -/
theorem returns_listOf {r : Reader α} {encode : α → Bytes} {P : α → Prop} [DecidablePred P]
    {e : DecodingError} {hd : Bytes} {as : List α} (hne : as ≠ []) (h : IsHead .array hd as.length)
    (each : ∀ a ∈ as, r.Returns (encode a) (if P a then .ok a else .error e))
    (field name : String) : (listOf field name r).Returns (hd ++ as.flatMap encode)
      (if ∀ a ∈ as, P a then .ok as else .error e) := by
  split
  next hall =>
    refine takes_listOf_encoded hne h (fun a ha => ?_) field name
    have hr := each a ha
    rwa [if_pos (hall a ha)] at hr
  next hsome =>
    obtain ⟨a, ha, hnot⟩ : ∃ a ∈ as, ¬P a := by simpa using hsome
    have hi : ∀ i ∈ as.map fun a => (encode a, a), r.Takes i.1 i.2 ∨ r.Refuses i.1 e := by
      intro i hi
      obtain ⟨a, ha, rfl⟩ := List.mem_map.mp hi
      have hr := each a ha
      split at hr
      next => exact .inl hr
      next => exact .inr hr
    have hr := each a ha
    rw [if_neg hnot] at hr
    have hl := refuses_listOf (by rwa [List.length_map]) hi ⟨_, List.mem_map_of_mem ha, hr⟩ field name
    rwa [List.flatMap_map] at hl

theorem complete_eq (name : String) (r : Reader α) (bs : Bytes) :
    complete name r bs = match r ⟨bs, 0⟩ with
      | .ok (a, c) => if c.rest = [] then .ok a else .error (.trailingBytes name)
      | .error e => .error e := by
  unfold complete
  rw [StateT.run]
  cases r ⟨bs, 0⟩ with
  | error e => rfl
  | ok p =>
    obtain ⟨a, rest, position⟩ := p
    cases rest <;> rfl

theorem complete_eq_ok {name : String} {r : Reader α} {bs : Bytes} {a : α} :
    complete name r bs = .ok a ↔ ∃ c, r ⟨bs, 0⟩ = .ok (a, c) ∧ c.rest = [] := by
  rw [complete_eq]
  cases r ⟨bs, 0⟩ with
  | error e => simp
  | ok p =>
    obtain ⟨a', c⟩ := p
    by_cases hc : c.rest = []
    · simp only [hc, if_true, Except.ok.injEq, Prod.mk.injEq]
      exact ⟨fun h => ⟨c, ⟨h, rfl⟩, hc⟩, fun ⟨_, ⟨h, _⟩, _⟩ => h⟩
    · simp only [hc, if_false, reduceCtorEq, Except.ok.injEq, Prod.mk.injEq, false_iff]
      intro hform
      obtain ⟨c', ⟨-, rfl⟩, h⟩ := hform
      exact hc h

theorem Returns.complete {r : Reader α} {b : Bytes} {x : Except DecodingError α}
    (h : r.Returns b x) (name : String) : complete name r b = x := by
  have hb : r ⟨b ++ [], 0⟩ = x.map fun a => (a, ⟨[], 0 + b.length⟩) := by
    cases x with
    | error e => exact h [] 0
    | ok a => exact h [] 0
  rw [List.append_nil] at hb
  rw [complete_eq, hb]
  cases x <;> rfl

end Cose.Reader
