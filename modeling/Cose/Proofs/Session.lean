import Mathlib.Data.List.Forall2
import Cose.Session

namespace Cose

theorem eq_ok_of_bind {α β ε : Type} {e : Except ε α} {f : α → Except ε β} {b : β}
    (h : e >>= f = .ok b) : ∃ a, e = .ok a ∧ f a = .ok b := by
  cases e with
  | error => cases h
  | ok a => exact ⟨a, rfl, h⟩

theorem eq_ok_of_mapError {α ε δ : Type} {f : ε → δ} {e : Except ε α} {a : α}
    (h : e.mapError f = .ok a) : e = .ok a := by
  cases e with
  | error => cases h
  | ok b =>
    cases h
    rfl

theorem bind_unit_eq_ok {ε : Type} {a b : Except ε Unit} :
    (a >>= fun _ => b) = .ok () ↔ a = .ok () ∧ b = .ok () := by
  constructor
  · intro h
    obtain ⟨⟨⟩, ha, hb⟩ := eq_ok_of_bind h
    exact ⟨ha, hb⟩
  · intro hform
    obtain ⟨rfl, rfl⟩ := hform
    rfl

theorem exists_mem_of_forall₂ {α β : Type} {R : α → β → Prop} {xs : List α} {ys : List β}
    (h : List.Forall₂ R xs ys) {x : α} (hx : x ∈ xs) : ∃ y ∈ ys, R x y := by
  induction h with
  | nil => cases hx
  | cons hxy _ ih =>
    rcases List.mem_cons.mp hx with rfl | hx
    · exact ⟨_, List.mem_cons_self, hxy⟩
    · obtain ⟨y, hy, hR⟩ := ih hx
      exact ⟨y, List.mem_cons_of_mem _ hy, hR⟩

namespace Session

variable {α β : Type}

theorem eq_of_outcome {s : Session α} {a : α} (h : s.outcome = .ok a) : s = ⟨s.calls, .ok a⟩ := by
  rw [← h]

theorem exists_of_isOk {s : Session α} (h : s.outcome.isOk = true) : ∃ a, s.outcome = .ok a := by
  cases hs : s.outcome with
  | error e =>
    rw [hs] at h
    cases h
  | ok a => exact ⟨a, rfl⟩

theorem bind_eq_ok {s : Session α} {f : α → Session β} {calls : List Call} {b : β}
    (h : s >>= f = ⟨calls, .ok b⟩) : ∃ front a rest,
      s = ⟨front, .ok a⟩ ∧ f a = ⟨rest, .ok b⟩ ∧ calls = front ++ rest := by
  rw [bind_def, andThen] at h
  split at h
  next a ha =>
    have hc := congrArg Session.calls h
    have ho := congrArg Session.outcome h
    exact ⟨s.calls, a, (f a).calls, eq_of_outcome ha, Session.ext rfl ho, hc.symm⟩
  next => cases h

/-- A step that makes no call leaves all of them to what follows. -/
theorem bind_ofExcept_eq_ok {e : Except Error α} {f : α → Session β} {calls : List Call} {b : β}
    (h : ofExcept e >>= f = ⟨calls, .ok b⟩) : ∃ a, e = .ok a ∧ f a = ⟨calls, .ok b⟩ := by
  obtain ⟨front, a, rest, hs, hf, rfl⟩ := bind_eq_ok h
  cases hs
  exact ⟨a, rfl, hf⟩

theorem bind_mapError_eq_ok {ε : Type} {g : ε → Error} {e : Except ε α} {f : α → Session β}
    {calls : List Call} {b : β} (h : ofExcept (e.mapError g) >>= f = ⟨calls, .ok b⟩) :
    ∃ a, e = .ok a ∧ f a = ⟨calls, .ok b⟩ := by
  obtain ⟨a, ha, hf⟩ := bind_ofExcept_eq_ok h
  exact ⟨a, eq_ok_of_mapError ha, hf⟩

theorem ofExcept_eq_ok {e : Except Error α} {calls : List Call} {a : α}
    (h : ofExcept e = ⟨calls, .ok a⟩) : e = .ok a ∧ calls = [] := by
  cases h
  exact ⟨rfl, rfl⟩

theorem ask_eq_ok {p : Provider} {c : Call} {calls : List Call} {a : c.Reply}
    (h : ask p c = ⟨calls, .ok a⟩) : p.reply c = .ok a ∧ calls = [c] := by
  have hc := congrArg Session.calls h
  have ho := congrArg Session.outcome h
  exact ⟨eq_ok_of_mapError ho, hc.symm⟩

/-- A step and what follows it succeed together, whatever they ask. -/
theorem outcome_bind_eq_ok_iff {s : Session α} {f : α → Session β} {b : β} :
    (s >>= f).outcome = .ok b ↔ ∃ a, s.outcome = .ok a ∧ (f a).outcome = .ok b := by
  rw [bind_def, andThen]
  cases s.outcome <;> simp

theorem outcome_bind_mapError_eq_ok_iff {ε : Type} {g : ε → Error} {e : Except ε α}
    {f : α → Session β} {b : β} : (ofExcept (e.mapError g) >>= f).outcome = .ok b ↔
      ∃ a, e = .ok a ∧ (f a).outcome = .ok b := by
  rw [outcome_bind_eq_ok_iff]
  cases e <;> simp [ofExcept, Except.mapError]

theorem outcome_ask_eq_ok_iff {p : Provider} {c : Call} {a : c.Reply} :
    (ask p c).outcome = .ok a ↔ p.reply c = .ok a := by
  rw [ask]
  cases p.reply c <;> simp [Except.mapError]

theorem outcome_bind_congr {e : Except Error α} {f g : α → Session β} {b : β}
    (h : ∀ a, e = .ok a → ((f a).outcome = .ok b ↔ (g a).outcome = .ok b)) :
    (ofExcept e >>= f).outcome = .ok b ↔ (ofExcept e >>= g).outcome = .ok b := by
  rw [outcome_bind_eq_ok_iff, outcome_bind_eq_ok_iff]
  exact exists_congr fun a => and_congr_right (h a)

/-- A list of items succeeds exactly if each of them does. -/
theorem outcome_mapM_eq_ok_iff {f : α → Session β} {xs : List α} {ys : List β} :
    (xs.mapM f).outcome = .ok ys ↔ List.Forall₂ (fun x y => (f x).outcome = .ok y) xs ys := by
  induction xs generalizing ys with
  | nil =>
    rw [List.forall₂_nil_left_iff]
    constructor
    · intro h
      cases h
      rfl
    · intro h
      rw [h]
      rfl
  | cons x xs ih =>
    rw [List.mapM_cons, List.forall₂_cons_left_iff, outcome_bind_eq_ok_iff]
    constructor
    · intro h
      obtain ⟨y, hx, h⟩ := h
      obtain ⟨rest, hxs, h⟩ := outcome_bind_eq_ok_iff.mp h
      cases h
      exact ⟨y, rest, hx, ih.mp hxs, rfl⟩
    · intro h
      obtain ⟨y, rest, hx, hxs, rfl⟩ := h
      exact ⟨y, hx, outcome_bind_eq_ok_iff.mpr ⟨rest, ih.mpr hxs, rfl⟩⟩

/-- Where each item takes one call, a list of them takes the calls in the same order. -/
theorem mapM_eq_ok {f : α → Session β} {R : α → β → Call → Prop} {xs : List α} {calls : List Call}
    {ys : List β} (h : xs.mapM f = ⟨calls, .ok ys⟩)
    (step : ∀ x ∈ xs, ∀ front y, f x = ⟨front, .ok y⟩ → ∃ c, front = [c] ∧ R x y c) :
    calls.length = xs.length ∧ ys.length = xs.length ∧
      ∀ (i : Nat) x, xs[i]? = some x → ∃ y c, ys[i]? = some y ∧ calls[i]? = some c ∧ R x y c := by
  induction xs generalizing calls ys with
  | nil =>
    cases h
    simp
  | cons x xs ih =>
    rw [List.mapM_cons] at h
    obtain ⟨front, y, rest, hx, hrest, rfl⟩ := bind_eq_ok h
    obtain ⟨back, ys', last, hxs, hlast, rfl⟩ := bind_eq_ok hrest
    cases hlast
    obtain ⟨c, rfl, hR⟩ := step x List.mem_cons_self front y hx
    obtain ⟨hcalls, hys, hall⟩ := ih hxs fun z hz => step z (List.mem_cons_of_mem x hz)
    refine ⟨by simp [hcalls], by simp [hys], ?_⟩
    intro i z hz
    cases i with
    | zero =>
      cases hz
      exact ⟨y, c, rfl, rfl, hR⟩
    | succ i =>
      obtain ⟨y', c', hy, hc, hR⟩ := hall i z hz
      exact ⟨y', c', hy, by simpa using hc, hR⟩

theorem ok_bind (a : α) (f : α → Session β) : ofExcept (.ok a) >>= f = f a := by
  exact pure_bind a f

theorem bind_ofExcept_congr {e : Except Error α} {f g : α → Session β}
    (h : ∀ a, e = .ok a → f a = g a) : ofExcept e >>= f = ofExcept e >>= g := by
  cases e with
  | error => rfl
  | ok a => rw [ok_bind, ok_bind, h a rfl]

/-- Whatever the computation asks of the provider, also if it fails later, is of one sort. -/
def OnlyAsks (s : Session α) (P : Call → Prop) : Prop := ∀ c ∈ s.calls, P c

namespace OnlyAsks

variable {P Q : Call → Prop} {s : Session α} {f : α → Session β}

theorem mono (h : s.OnlyAsks P) (himp : ∀ c, P c → Q c) : s.OnlyAsks Q := by
  intro c hc
  exact himp c (h c hc)

theorem ofExcept (e : Except Error α) : (ofExcept e).OnlyAsks P := by
  intro c hc
  cases hc

theorem ask {p : Provider} {c : Call} (h : P c) : (ask p c).OnlyAsks P := by
  intro c' hc
  rw [List.mem_singleton.mp hc]
  exact h

/-- What follows a step is only asked if the step succeeds, and may rely on its outcome. -/
theorem bind (hs : s.OnlyAsks P) (hf : ∀ a, s.outcome = .ok a → (f a).OnlyAsks P) :
    (s >>= f).OnlyAsks P := by
  rw [bind_def, andThen]
  split
  next a ha =>
    intro c hc
    rcases List.mem_append.mp hc with hc | hc
    · exact hs c hc
    · exact hf a ha c hc
  next => exact hs

theorem bind_ofExcept {e : Except Error α} (hf : ∀ a, e = .ok a → (f a).OnlyAsks P) :
    (Session.ofExcept e >>= f).OnlyAsks P := by
  exact bind (ofExcept e) hf

theorem bind_mapError {ε : Type} {g : ε → Error} {e : Except ε α}
    (hf : ∀ a, e = .ok a → (f a).OnlyAsks P) :
    (Session.ofExcept (e.mapError g) >>= f).OnlyAsks P := by
  refine bind_ofExcept fun a ha => ?_
  exact hf a (eq_ok_of_mapError ha)

theorem mapM {f : α → Session β} {xs : List α} (h : ∀ x ∈ xs, (f x).OnlyAsks P) :
    (xs.mapM f).OnlyAsks P := by
  induction xs with
  | nil => exact ofExcept (.ok [])
  | cons x xs ih =>
    rw [List.mapM_cons]
    refine bind (h x List.mem_cons_self) fun y _ => ?_
    refine bind (ih fun z hz => h z (List.mem_cons_of_mem x hz)) fun ys _ => ?_
    exact ofExcept (.ok (y :: ys))

end OnlyAsks

end Session

end Cose
