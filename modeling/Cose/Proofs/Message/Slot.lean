import Cose.Message.Draft
import Cose.Proofs.Run

namespace Cose.Message.Draft

/-- The ways of filling the two slots of which each takes one of two kinds of value. -/
inductive Way
  | map
  | bytes
  | embedded
  | detached

namespace Way

/-- The other way of filling the same slot. -/
def other : Way → Way
  | map => bytes
  | bytes => map
  | embedded => detached
  | detached => embedded

def slot? (k : Kind) : Way → Option String
  | map | bytes => some "protected"
  | embedded | detached => k.content?

end Way

variable {k : Kind} {d d' : Draft k} {s : Step k} {w : Way} {e : DraftError}

/-- The way in which a slot is to be filled, by the fields that fill one of the two. -/
def Step.way? : Step k → Option Way
  | .protectedMap _ => some .map
  | .protectedBytes _ => some .bytes
  | .embed .. => some .embedded
  | .detach .. => some .detached
  | .unprotected _ | .token .. | .add _ | .parts _ => none

/-- The slot is filled in the given way. -/
def Filled (d : Draft k) : Way → Prop
  | .map => ∃ m, d.protectedSlot = .map m
  | .bytes => ∃ bs, d.protectedSlot = .bytes bs
  | .embedded => ∃ bs, d.content = .embedded bs
  | .detached => d.content = .detached

/-- The draft with a field in place of what it held, but for members that are added to others. -/
def put (d : Draft k) : Step k → Draft k
  | .protectedMap m => { d with protectedSlot := .map m }
  | .protectedBytes bs => { d with protectedSlot := .bytes bs }
  | .unprotected m => { d with unprotected := m }
  | .embed _ _ bs => { d with content := .embedded bs }
  | .detach .. => { d with content := .detached }
  | .token _ _ bs => { d with token := some bs }
  | .add part => { d with parts := d.parts ++ [part] }
  | .parts list => { d with parts := list }

theorem Filled.not_other (h : d.Filled w) : ¬d.Filled w.other := by
  cases w with
  | map =>
    obtain ⟨m, hm⟩ := h
    rintro ⟨bs, hbs⟩
    cases hm.symm.trans hbs
  | bytes =>
    obtain ⟨bs, hbs⟩ := h
    rintro ⟨m, hm⟩
    cases hbs.symm.trans hm
  | embedded =>
    obtain ⟨bs, hbs⟩ := h
    intro hd
    cases hbs.symm.trans hd
  | detached =>
    rintro ⟨bs, hbs⟩
    cases (show d.content = .detached from h).symm.trans hbs

theorem apply_of_filled_other (hs : s.way? = some w) (h : d.Filled w.other) :
    ∃ field, w.slot? k = some field ∧ d.apply s = .error (.conflictingFields field) := by
  cases s with
  | protectedMap m =>
    cases hs
    obtain ⟨bs, hbs⟩ := h
    refine ⟨_, rfl, ?_⟩
    rw [apply, hbs]
    rfl
  | protectedBytes bs =>
    cases hs
    obtain ⟨m, hm⟩ := h
    refine ⟨_, rfl, ?_⟩
    rw [apply, hm]
    rfl
  | embed field own bs =>
    cases hs
    refine ⟨field, own, ?_⟩
    rw [apply, show d.content = .detached from h]
    rfl
  | detach field own =>
    cases hs
    obtain ⟨bs, hbs⟩ := h
    refine ⟨field, own, ?_⟩
    rw [apply, hbs]
    rfl
  | _ => cases hs

theorem apply_of_free (h : ∀ w, s.way? = some w → ¬d.Filled w.other) : d.apply s = .ok (d.put s) := by
  cases s with
  | protectedMap m =>
    rw [apply]
    cases hslot : d.protectedSlot with
    | bytes bs => exact (h .map rfl ⟨bs, hslot⟩).elim
    | _ => rfl
  | protectedBytes bs =>
    rw [apply]
    cases hslot : d.protectedSlot with
    | map m => exact (h .bytes rfl ⟨m, hslot⟩).elim
    | _ => rfl
  | embed field own bs =>
    rw [apply]
    cases hslot : d.content with
    | detached => exact (h .embedded rfl hslot).elim
    | _ => rfl
  | detach field own =>
    rw [apply]
    cases hslot : d.content with
    | embedded bs => exact (h .detached rfl ⟨bs, hslot⟩).elim
    | _ => rfl
  | _ => rfl

theorem apply_eq_error_iff : d.apply s = .error e ↔
    ∃ w field, s.way? = some w ∧ d.Filled w.other ∧ w.slot? k = some field ∧
      e = .conflictingFields field := by
  constructor
  · intro h
    by_cases hfree : ∀ w, s.way? = some w → ¬d.Filled w.other
    · cases (apply_of_free hfree).symm.trans h
    · push Not at hfree
      obtain ⟨w, hw, hother⟩ := hfree
      obtain ⟨field, hfield, herror⟩ := apply_of_filled_other hw hother
      cases herror.symm.trans h
      exact ⟨w, field, hw, hother, hfield, rfl⟩
  · rintro ⟨w, field, hw, hother, hfield, rfl⟩
    obtain ⟨field', hfield', herror⟩ := apply_of_filled_other hw hother
    cases hfield.symm.trans hfield'
    exact herror

theorem eq_put_of_apply (h : d.apply s = .ok d') :
    d' = d.put s ∧ ∀ w, s.way? = some w → ¬d.Filled w.other := by
  have hfree : ∀ w, s.way? = some w → ¬d.Filled w.other := by
    intro w hw hother
    obtain ⟨field, -, herror⟩ := apply_of_filled_other hw hother
    cases herror.symm.trans h
  exact ⟨(Except.ok.inj ((apply_of_free hfree).symm.trans h)).symm, hfree⟩

/-- A slot stays filled in the way in which it is filled. -/
theorem filled_of_apply (h : d.Filled w) (hs : d.apply s = .ok d') : d'.Filled w := by
  obtain ⟨rfl, hfree⟩ := eq_put_of_apply hs
  cases s with
  | protectedMap m =>
    cases w with
    | map => exact ⟨m, rfl⟩
    | bytes => exact (hfree .map rfl h).elim
    | _ => exact h
  | protectedBytes bs =>
    cases w with
    | map => exact (hfree .bytes rfl h).elim
    | bytes => exact ⟨bs, rfl⟩
    | _ => exact h
  | embed field own bs =>
    cases w with
    | embedded => exact ⟨bs, rfl⟩
    | detached => exact (hfree .embedded rfl h).elim
    | _ => exact h
  | detach field own =>
    cases w with
    | embedded => exact (hfree .detached rfl h).elim
    | detached => exact rfl
    | _ => exact h
  | _ => cases w <;> exact h

theorem attempt_eq_next (d : Draft k) (s : Step k) : d.attempt s = Run.next apply d s := by
  rw [attempt, Run.next]
  cases d.apply s <;> rfl

theorem foldlM_accepted (d : Draft k) (steps : List (Step k)) :
    (Run.accepted apply d steps).foldlM apply d = .ok (d.run steps) :=
  Run.foldlM_accepted attempt_eq_next d steps

theorem filled_run (h : d.Filled w) (steps : List (Step k)) : (d.run steps).Filled w :=
  Run.kept_of_foldlM (P := (Filled · w)) (fun _ _ _ => filled_of_apply) h (d.foldlM_accepted steps)

end Cose.Message.Draft
