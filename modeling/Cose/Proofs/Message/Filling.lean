import Cose.Proofs.Message.Bound

namespace Cose

theorem LabelMap.isEmpty_iff {m : LabelMap} : m.isEmpty = true ↔ m = .empty := by
  obtain ⟨entries, ascending⟩ := m
  cases entries <;> simp [isEmpty, empty]

theorem ProtectedHeader.bytes_ofMap_eq_nil_iff {m : LabelMap} :
    (ofMap m).bytes = [] ↔ m = .empty := by
  rw [ofMap, ← LabelMap.isEmpty_iff]
  cases m.isEmpty with
  | true => simp
  | false => simpa using List.ne_nil_of_length_pos m.encode_length_pos

namespace Message

namespace Draft

variable {k : Kind} {d d' : Draft k} {s : Step k}

namespace Step

/-- What a field fills the slot of the protected header with. -/
def protectedSlot? : Step k → Option ProtectedSlot
  | .protectedMap m => some (.map m)
  | .protectedBytes bs => some (.bytes bs)
  | _ => none

def unprotected? : Step k → Option LabelMap
  | .unprotected m => some m
  | _ => none

/-- What a field fills the slot of the content with. -/
def content? : Step k → Option ContentSlot
  | .embed _ _ bs => some (.embedded bs)
  | .detach .. => some .detached
  | _ => none

def token? : Step k → Option Bytes
  | .token _ _ bs => some bs
  | _ => none

end Step

/-- Each field of the draft is as the last of the given ones left it, or as in a draft without any.
Members are in the order in which they were given, behind the list that was given whole last. -/
structure Collected (taken : List (Step k)) (d : Draft k) : Prop where
  protectedSlot : d.protectedSlot = (Run.last? Step.protectedSlot? taken).getD .unset
  unprotected : d.unprotected = (Run.last? Step.unprotected? taken).getD .empty
  content : d.content = (Run.last? Step.content? taken).getD .unset
  token : d.token = Run.last? Step.token? taken
  added : (∀ list, .parts list ∉ taken) → d.parts = taken.flatMap Step.given
  replaced : ∀ front list rest, taken = front ++ .parts list :: rest →
    (∀ list, .parts list ∉ rest) → d.parts = list ++ rest.flatMap Step.given

theorem protectedSlot_of_apply (h : d.apply s = .ok d') :
    d'.protectedSlot = s.protectedSlot?.getD d.protectedSlot := by
  obtain ⟨rfl, -⟩ := eq_put_of_apply h
  cases s <;> rfl

theorem unprotected_of_apply (h : d.apply s = .ok d') :
    d'.unprotected = s.unprotected?.getD d.unprotected := by
  obtain ⟨rfl, -⟩ := eq_put_of_apply h
  cases s <;> rfl

theorem content_of_apply (h : d.apply s = .ok d') :
    d'.content = s.content?.getD d.content := by
  obtain ⟨rfl, -⟩ := eq_put_of_apply h
  cases s <;> rfl

theorem token_of_apply (h : d.apply s = .ok d') : d'.token = s.token?.or d.token := by
  obtain ⟨rfl, -⟩ := eq_put_of_apply h
  cases s <;> rfl

theorem parts_of_foldlM {steps : List (Step k)} (h : steps.foldlM apply d = .ok d')
    (none : ∀ list, .parts list ∉ steps) : d'.parts = d.parts ++ steps.flatMap Step.given := by
  induction steps generalizing d with
  | nil =>
    cases h
    simp
  | cons s steps ih =>
    obtain ⟨m, hm, h⟩ := Run.foldlM_cons_eq_ok.mp h
    obtain ⟨rfl, -⟩ := eq_put_of_apply hm
    have hrest := ih h fun list hlist => none list (List.mem_cons_of_mem _ hlist)
    have hs : (d.put s).parts = d.parts ++ s.given := by
      cases s with
      | parts list => exact (none list List.mem_cons_self).elim
      | add part => rfl
      | _ => exact (List.append_nil _).symm
    rw [hrest, hs, List.flatMap_cons, List.append_assoc]

theorem collected_of_foldlM {taken : List (Step k)} (h : taken.foldlM apply {} = .ok d) :
    d.Collected taken where
  protectedSlot := Run.eq_getD_last?_of_foldlM (fun _ _ _ => protectedSlot_of_apply) h
  unprotected := Run.eq_getD_last?_of_foldlM (fun _ _ _ => unprotected_of_apply) h
  content := Run.eq_getD_last?_of_foldlM (fun _ _ _ => content_of_apply) h
  token := by
    have hlast := Run.eq_last?_of_foldlM (fun _ _ _ => token_of_apply) h
    rwa [Option.or_none] at hlast
  added none := parts_of_foldlM h none
  replaced front list rest htaken none := by
    subst htaken
    obtain ⟨d₁, -, h⟩ := Run.foldlM_append_eq_ok.mp h
    obtain ⟨d₂, hs, h⟩ := Run.foldlM_cons_eq_ok.mp h
    cases hs
    exact parts_of_foldlM h none

/-- How many levels of recipients a structure has with the given members. -/
def levels : {k : Kind} → List k.Part → Nat
  | .mac, rs | .encrypt, rs => Recipient.depthOfList rs
  | .recipient, rs => 1 + Recipient.depthOfList rs
  | .sign1, _ | .sign, _ | .signature, _ | .mac0, _ | .encrypt0, _ => 0

theorem levels_parts (m : k.Body) : levels (Message.parts m) = recipientDepth m := by
  cases k with
  | recipient =>
    cases m
    rfl
  | _ => rfl

/-- Nothing is missing for a structure to be built. -/
structure Complete (d : Draft k) : Prop where
  protectedHeader : d.protectedSlot ≠ .unset
  readable : ∀ bs, d.protectedSlot = .bytes bs → ∃ m, LabelMap.decodeHeader bs = .ok m
  content : k.content? ≠ none → d.content ≠ .unset
  token : k.token? ≠ none → d.token ≠ none
  listed : k ∈ [.sign, .mac, .encrypt] → d.parts ≠ []
  shallow : levels d.parts ≤ Recipient.maxDepth

/-- What a structure has of the draft from which it is built. -/
structure Carries (d : Draft k) (m : k.Body) : Prop where
  raw : ∀ bs, d.protectedSlot = .bytes bs →
    (Message.headers m).protectedHeader.bytes = bs ∧
      LabelMap.decodeHeader bs = .ok (Message.headers m).protectedHeader.map
  written : ∀ entries, d.protectedSlot = .map entries →
    (Message.headers m).protectedHeader.map = entries ∧
      ((Message.headers m).protectedHeader.bytes = [] ↔ entries = .empty) ∧
      (entries ≠ .empty → (Message.headers m).protectedHeader.bytes = entries.encode)
  unprotected : (Message.headers m).unprotected = d.unprotected
  content : ∀ bs, k.content? ≠ none → d.content = .embedded bs → Message.content m = some bs
  detached : k.content? ≠ none → d.content = .detached → Message.content m = none
  token : k.token? ≠ none → d.token = some (Message.token m)
  parts : Message.parts m = d.parts

theorem exists_body (h : Headers) (c : Option Bytes) (t : Bytes) (ps : List k.Part) :
    ∃ m : k.Body, Message.headers m = h ∧
      (∀ field, k.content? = some field → Message.content m = c) ∧
      (∀ field, k.token? = some field → Message.token m = t) ∧ Message.parts m = ps := by
  have unlisted (ps : List Empty) : [] = ps := Subsingleton.elim _ _
  cases k with
  | sign1 => exact ⟨⟨h, c, t⟩, rfl, fun _ _ => rfl, fun _ _ => rfl, unlisted ps⟩
  | sign => exact ⟨⟨h, c, ps⟩, rfl, fun _ _ => rfl, nofun, rfl⟩
  | signature => exact ⟨⟨h, t⟩, rfl, nofun, fun _ _ => rfl, unlisted ps⟩
  | mac0 => exact ⟨⟨h, c, t⟩, rfl, fun _ _ => rfl, fun _ _ => rfl, unlisted ps⟩
  | mac => exact ⟨⟨h, c, t, ps⟩, rfl, fun _ _ => rfl, fun _ _ => rfl, rfl⟩
  | encrypt0 => exact ⟨⟨h, c⟩, rfl, fun _ _ => rfl, nofun, unlisted ps⟩
  | encrypt => exact ⟨⟨h, c, ps⟩, rfl, fun _ _ => rfl, nofun, rfl⟩
  | recipient => exact ⟨⟨h, t, ps⟩, rfl, nofun, fun _ _ => rfl, rfl⟩

theorem complete_of_build {m : k.Body} (h : d.build = .ok m) : d.Complete := by
  obtain ⟨⟨hheaders, hcontent, htoken, hparts⟩, listed, shallow⟩ := build_eq_ok_iff.mp h
  have hslot := ProtectedSlot.resolve_eq_ok_iff.mp (headers_eq_ok_iff.mp hheaders).1
  constructor
  case protectedHeader =>
    intro hunset
    rw [hunset] at hslot
    rcases hslot with ⟨_, hmap, -⟩ | ⟨_, hbytes, -⟩
    · cases hmap
    · cases hbytes
  case readable =>
    intro bs hbs
    rcases hslot with ⟨_, hmap, -⟩ | ⟨bs', hbytes, -, hread⟩
    · cases hbs.symm.trans hmap
    · cases hbs.symm.trans hbytes
      exact ⟨_, hread⟩
  case content =>
    intro own hunset
    obtain ⟨field, hfield⟩ := Option.ne_none_iff_exists'.mp own
    have hc := hcontent field hfield
    rw [hunset] at hc
    cases hc
  case token =>
    intro own hnone
    obtain ⟨field, hfield⟩ := Option.ne_none_iff_exists'.mp own
    cases hnone.symm.trans (htoken field hfield)
  case listed => rwa [hparts]
  case shallow => rwa [hparts, levels_parts]

/-- What a complete draft holds, in a structure. -/
theorem Complete.exists_holds (h : d.Complete) : ∃ m : k.Body, d.Holds m := by
  have hslot : ∃ p, d.protectedSlot.resolve = .ok p := by
    cases hs : d.protectedSlot with
    | unset => exact (h.protectedHeader hs).elim
    | map entries => exact ⟨_, rfl⟩
    | bytes bs =>
      obtain ⟨entries, hread⟩ := h.readable bs hs
      exact ⟨⟨entries, bs⟩, ProtectedSlot.resolve_eq_ok_iff.mpr (.inr ⟨bs, rfl, rfl, hread⟩)⟩
  have hcontent : ∃ c, ∀ field, k.content? = some field → d.content.resolve field = .ok c := by
    cases hc : d.content with
    | unset => exact ⟨none, fun field own => (h.content (by simp [own]) hc).elim⟩
    | embedded bs => exact ⟨some bs, fun _ _ => rfl⟩
    | detached => exact ⟨none, fun _ _ => rfl⟩
  have htoken : ∃ t, ∀ field, k.token? = some field → d.token = some t := by
    cases ht : d.token with
    | none => exact ⟨[], fun field own => (h.token (by simp [own]) ht).elim⟩
    | some t => exact ⟨t, fun _ _ => rfl⟩
  obtain ⟨p, hp⟩ := hslot
  obtain ⟨c, hc⟩ := hcontent
  obtain ⟨t, ht⟩ := htoken
  obtain ⟨m, hheaders, hmc, hmt, hparts⟩ := exists_body ⟨p, d.unprotected⟩ c t d.parts
  refine ⟨m, ?_, ?_, ?_, hparts.symm⟩
  · rw [hheaders, headers_eq_ok_iff]
    exact ⟨hp, rfl⟩
  · intro field own
    rw [hmc field own]
    exact hc field own
  · intro field own
    rw [hmt field own]
    exact ht field own

theorem exists_build_iff : (∃ m, d.build = .ok m) ↔ d.Complete := by
  constructor
  · rintro ⟨m, h⟩
    exact complete_of_build h
  · intro h
    obtain ⟨m, holds⟩ := h.exists_holds
    have hparts := holds.parts
    refine ⟨m, build_eq_ok_iff.mpr ⟨holds, ?_, ?_⟩⟩
    · rw [← hparts]
      exact h.listed
    · rw [← levels_parts, ← hparts]
      exact h.shallow

theorem carries_of_build {m : k.Body} (h : d.build = .ok m) : d.Carries m := by
  obtain ⟨hheaders, hcontent, htoken, hparts⟩ := holds_of_build h
  obtain ⟨hslot, hunprotected⟩ := headers_eq_ok_iff.mp hheaders
  constructor
  case raw =>
    intro bs hbs
    rw [hbs, ProtectedSlot.resolve_eq_ok_iff] at hslot
    rcases hslot with ⟨_, hmap, -⟩ | ⟨_, hbytes, hsame, hread⟩
    · cases hmap
    · cases hbytes
      exact ⟨hsame, hread⟩
  case written =>
    intro entries hentries
    rw [hentries] at hslot
    have hp : (Message.headers m).protectedHeader = .ofMap entries := (Except.ok.inj hslot).symm
    rw [hp]
    refine ⟨rfl, ProtectedHeader.bytes_ofMap_eq_nil_iff, fun hne => if_neg ?_⟩
    rwa [LabelMap.isEmpty_iff]
  case unprotected => exact hunprotected
  case content =>
    intro bs own hbs
    obtain ⟨field, hfield⟩ := Option.ne_none_iff_exists'.mp own
    have hc := hcontent field hfield
    rw [hbs] at hc
    exact (Except.ok.inj hc).symm
  case detached =>
    intro own hdetached
    obtain ⟨field, hfield⟩ := Option.ne_none_iff_exists'.mp own
    have hc := hcontent field hfield
    rw [hdetached] at hc
    exact (Except.ok.inj hc).symm
  case token =>
    intro own
    obtain ⟨field, hfield⟩ := Option.ne_none_iff_exists'.mp own
    exact htoken field hfield
  case parts => exact hparts.symm

/-- Whatever fields are given to a draft one after the other, from none on and passing over those
that are refused: a slot that can be filled in two ways and is filled in one of them stays so, the
same way of filling it again replaces what it holds, and the other one is refused with the name of
the slot; nothing else is ever refused. Each field of the draft is as the last one taken left it, and
members are in the order in which they came. It builds if and only if nothing is missing, its raw
protected header can be read and its recipients do not nest too deep, and the structure has all that
the draft has, raw bytes as they are and a map as it is written, as no bytes only if it is empty. -/
theorem filled_over_runs {k : Kind} (steps : List (Step k)) :
    let d := Draft.run {} steps
    (∀ w, d.Filled w → ∀ more, (d.run more).Filled w ∧
      (∀ s, s.way? = some w → (d.run more).apply s = .ok ((d.run more).put s)) ∧
      ∀ s, s.way? = some w.other → ∃ field, w.slot? k = some field ∧
        (d.run more).apply s = .error (.conflictingFields field)) ∧
    (∀ s e, d.apply s = .error e → ∃ w field, s.way? = some w ∧ d.Filled w.other ∧
      w.slot? k = some field ∧ e = .conflictingFields field) ∧
    d.Collected (Run.accepted apply {} steps) ∧
    ((∃ m, d.build = .ok m) ↔ d.Complete) ∧
    ∀ m, d.build = .ok m → d.Carries m := by
  intro d
  refine ⟨?_, fun s e => apply_eq_error_iff.mp, collected_of_foldlM (foldlM_accepted {} steps),
    exists_build_iff, fun m => carries_of_build⟩
  intro w h more
  have hmore := filled_run h more
  refine ⟨hmore, ?_, ?_⟩
  · intro s hs
    refine apply_of_free fun w' hw' => ?_
    cases hs.symm.trans hw'
    exact hmore.not_other
  · intro s hs
    have hother : (d.run more).Filled w.other.other := by
      cases w <;> exact hmore
    obtain ⟨field, hfield, herror⟩ := apply_of_filled_other hs hother
    refine ⟨field, ?_, herror⟩
    cases w <;> exact hfield

/-- Fields of which the second and the fourth are refused, and some are given again. -/
def refilled : List (Step .mac) :=
  [.protectedMap .empty, .protectedBytes [0xa0], .embed "payload" rfl [0x01],
    .detach "payload" rfl, .embed "payload" rfl [0x02], .add (.direct [0x01]),
    .token "tag" rfl [0x07], .parts [.direct [0x02]], .add (.direct [0x03]),
    .protectedMap (LabelMap.empty.insert (.int 1) (.int 5))]

theorem filled_over_runs_refilled :
    ∃ m : Mac, (run {} refilled).build = .ok m ∧
      m.protectedHeader.map = LabelMap.empty.insert (.int 1) (.int 5) ∧
      m.payload = some [0x02] ∧ m.tag = [0x07] ∧ m.recipients = [.direct [0x02], .direct [0x03]] ∧
      (run {} refilled).apply (.protectedBytes [0xa0]) =
        .error (.conflictingFields "protected") := by
  obtain ⟨settled, -, collected, builds, carries⟩ := filled_over_runs refilled
  have taken : Run.accepted apply {} refilled =
      [.protectedMap .empty, .embed "payload" rfl [0x01], .embed "payload" rfl [0x02],
        .add (.direct [0x01]), .token "tag" rfl [0x07]] ++ .parts [.direct [0x02]] ::
      [.add (.direct [0x03]), .protectedMap (LabelMap.empty.insert (.int 1) (.int 5))] := rfl
  have complete : (run {} refilled).Complete :=
    ⟨nofun, nofun, nofun, nofun, nofun, by decide⟩
  obtain ⟨m, hm⟩ := builds.mpr complete
  have carried := carries m hm
  obtain ⟨-, -, conflict⟩ := settled .map ⟨_, rfl⟩ []
  obtain ⟨field, hfield, herror⟩ := conflict (.protectedBytes [0xa0]) rfl
  cases hfield
  refine ⟨m, hm, (carried.written _ rfl).1, carried.content _ nofun rfl,
    (Option.some.inj (carried.token nofun)).symm, ?_, herror⟩
  rw [show m.recipients = (run {} refilled).parts from carried.parts]
  exact collected.replaced _ _ _ taken (by simp)

end Draft

end Message

end Cose
