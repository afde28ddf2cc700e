import Cose.Proofs.Session

namespace Cose.Run

variable {σ α ε : Type} {step : σ → α → Except ε σ} {s t : σ}

/-- Where a step leads; one that is refused leads nowhere. -/
def next (step : σ → α → Except ε σ) (s : σ) (a : α) : σ :=
  match step s a with
  | .ok t => t
  | .error _ => s

/-- The steps of a run that are not refused. -/
def accepted (step : σ → α → Except ε σ) : σ → List α → List α
  | _, [] => []
  | s, a :: as =>
    match step s a with
    | .ok t => a :: accepted step t as
    | .error _ => accepted step s as

theorem foldlM_cons_eq_ok {a : α} {as : List α} :
    (a :: as).foldlM step s = .ok t ↔ ∃ m, step s a = .ok m ∧ as.foldlM step m = .ok t := by
  rw [List.foldlM_cons]
  constructor
  · intro h
    exact eq_ok_of_bind h
  · intro hform
    obtain ⟨m, hm, h⟩ := hform
    rw [hm]
    exact h

theorem foldlM_append_eq_ok {as bs : List α} : (as ++ bs).foldlM step s = .ok t ↔
    ∃ m, as.foldlM step s = .ok m ∧ bs.foldlM step m = .ok t := by
  rw [List.foldlM_append]
  constructor
  · intro h
    exact eq_ok_of_bind h
  · intro hform
    obtain ⟨m, hm, h⟩ := hform
    rw [hm]
    exact h

/-- None of the accepted steps is refused if they are taken alone, and they lead to the same end. -/
theorem foldlM_accepted {attempt : σ → α → σ} (h : ∀ s a, attempt s a = next step s a) (s : σ)
    (as : List α) : (accepted step s as).foldlM step s = .ok (as.foldl attempt s) := by
  induction as generalizing s with
  | nil => rfl
  | cons a as ih =>
    rw [accepted, List.foldl_cons, h, next]
    cases hs : step s a with
    | error e => exact ih s
    | ok m => exact foldlM_cons_eq_ok.mpr ⟨m, hs, ih m⟩

/-- What each step keeps is kept by all of them. -/
theorem kept_of_foldlM {P : σ → Prop} (keeps : ∀ s a t, P s → step s a = .ok t → P t)
    {as : List α} (hs : P s) (h : as.foldlM step s = .ok t) : P t := by
  induction as generalizing s with
  | nil =>
    cases h
    exact hs
  | cons a as ih =>
    obtain ⟨m, hm, h⟩ := foldlM_cons_eq_ok.mp h
    exact ih (keeps s a m hs hm) h

/-- The last of the values that some of the steps give. -/
def last? {β : Type} (given : α → Option β) (as : List α) : Option β :=
  (as.filterMap given).getLast?

theorem last?_cons {β : Type} (given : α → Option β) (a : α) (as : List α) (old : Option β) :
    (last? given (a :: as)).or old = (last? given as).or ((given a).or old) := by
  rw [last?, last?, List.filterMap_cons]
  cases given a with
  | none => rfl
  | some b =>
    rw [List.getLast?_cons]
    cases (as.filterMap given).getLast? <;> rfl

/-- What is replaced by the steps that give a value and left alone by the others is the last value
given, if there was one. -/
theorem eq_last?_of_foldlM {β : Type} {read : σ → Option β} {given : α → Option β}
    (replaces : ∀ s a t, step s a = .ok t → read t = (given a).or (read s)) {as : List α}
    (h : as.foldlM step s = .ok t) : read t = (last? given as).or (read s) := by
  induction as generalizing s with
  | nil =>
    cases h
    rfl
  | cons a as ih =>
    obtain ⟨m, hm, h⟩ := foldlM_cons_eq_ok.mp h
    rw [ih h, replaces s a m hm, last?_cons]

/-- The same for what is there from the start. -/
theorem eq_getD_last?_of_foldlM {β : Type} {read : σ → β} {given : α → Option β}
    (replaces : ∀ s a t, step s a = .ok t → read t = (given a).getD (read s)) {as : List α}
    (h : as.foldlM step s = .ok t) : read t = (last? given as).getD (read s) := by
  have hsome : ∀ s a t, step s a = .ok t → some (read t) = (given a).or (some (read s)) := by
    intro s a t hs
    rw [replaces s a t hs, Option.or_some]
  have hlast := eq_last?_of_foldlM hsome h
  rw [Option.or_some] at hlast
  exact Option.some.inj hlast

end Cose.Run
