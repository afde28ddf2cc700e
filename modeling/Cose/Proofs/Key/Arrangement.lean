import Cose.Proofs.Key.Usage

namespace Cose

theorem LabelMap.insert_comm {l k : Label} (h : l ≠ k) (m : LabelMap) (v w : Value) :
    (m.insert l v).insert k w = (m.insert k w).insert l v := by
  refine ext_get? fun j => ?_
  rw [get?_insert, get?_insert, get?_insert, get?_insert]
  by_cases hk : j = k
  · rw [if_pos hk, if_neg (fun hl => h (hl.symm.trans hk)), if_pos hk]
  · rw [if_neg hk, if_neg hk]

namespace Key.Draft

/-- What a parameter is given for. -/
inductive Place
  | curve
  | x
  | y
  | d
  | k
  | usage
  | keyId
  | algorithm
  | operations
  | baseIv
  | label (l : Label)

namespace Step

def place : Step → Place
  | .curve _ => .curve
  | .x _ => .x
  | .y _ => .y
  | .d _ => .d
  | .k _ => .k
  | .clearPrivate => .d
  | .usage _ => .usage
  | .keyId _ => .keyId
  | .algorithm _ => .algorithm
  | .addOperation _ => .operations
  | .clearOperations => .operations
  | .baseIv _ => .baseIv
  | .label l _ => .label l

/-- The operation that a parameter adds. -/
def operation? : Step → Option KeyOperation
  | .addOperation op => some op
  | _ => none

/-- The parameter takes something back that may have been given before. -/
def Clears : Step → Prop
  | .clearPrivate | .clearOperations => True
  | _ => False

/-- The parameter replaces one value of the draft and nothing is asked of it. -/
def Plain : Step → Prop
  | .usage _ | .addOperation _ | .clearOperations | .label .. => False
  | _ => True

end Step

/-- Both parameters can be given, in either order and with the same result, or in neither. -/
def Commute (draft : Draft) (s t : Step) : Prop :=
  ∀ draft', [s, t].foldlM apply draft = .ok draft' ↔ [t, s].foldlM apply draft = .ok draft'

variable {draft draft' : Draft} {s t : Step}

theorem Commute.symm (h : draft.Commute s t) : draft.Commute t s :=
  fun draft' => (h draft').symm

theorem foldlM_pair_eq_ok : [s, t].foldlM apply draft = .ok draft' ↔
    ∃ m, draft.apply s = .ok m ∧ m.apply t = .ok draft' := by
  rw [Run.foldlM_cons_eq_ok]
  have hlast : ∀ m, [t].foldlM apply m = m.apply t := fun m => bind_pure (m.apply t)
  simp only [hlast]

/-- What a plain parameter makes of a draft; the others make nothing of it here. -/
def Step.set : Step → Draft → Draft
  | .curve c, draft => { draft with curve := some c }
  | .x bs, draft => { draft with x := some bs }
  | .y bs, draft => { draft with y := some bs }
  | .d bs, draft => { draft with d := some bs }
  | .k bs, draft => { draft with k := some bs }
  | .clearPrivate, draft => { draft with d := none }
  | .keyId bs, draft => { draft with keyId := some bs }
  | .algorithm id, draft => { draft with algorithm := some id }
  | .baseIv bs, draft => { draft with baseIv := some bs }
  | .usage _, draft | .addOperation _, draft | .clearOperations, draft | .label .., draft => draft

theorem apply_of_plain (hs : s.Plain) (draft : Draft) : draft.apply s = .ok (s.set draft) := by
  cases s with
  | usage | addOperation | clearOperations | label => exact hs.elim
  | _ => rfl

@[simp] theorem set_usage (s : Step) (draft : Draft) :
    (s.set draft).usage = draft.usage := by
  cases s <;> rfl

@[simp] theorem set_operations (s : Step) (draft : Draft) :
    (s.set draft).operations = draft.operations := by
  cases s <;> rfl

@[simp] theorem set_kind (s : Step) (draft : Draft) : (s.set draft).kind = draft.kind := by
  cases s <;> rfl

theorem set_withUsage (s : Step) (draft : Draft) (u : Option KeyUsage) :
    s.set { draft with usage := u } = { s.set draft with usage := u } := by
  cases s <;> rfl

theorem set_withOperations (s : Step) (draft : Draft) (ops : List KeyOperation) :
    s.set { draft with operations := ops } = { s.set draft with operations := ops } := by
  cases s <;> rfl

theorem set_putExtra (s : Step) (draft : Draft) (l : Label) (v : Value)
    (h : draft.kind.reserves l = false) (h' : (s.set draft).kind.reserves l = false) :
    s.set (draft.putExtra l v h) = (s.set draft).putExtra l v h' := by
  cases s <;> rfl

theorem apply_usage_set (s : Step) (draft : Draft) (u : KeyUsage) :
    (s.set draft).apply (.usage u) = (draft.apply (.usage u)).map s.set := by
  have hcheck : checkOperations u (s.set draft).operations false =
      checkOperations u draft.operations false := by rw [set_operations]
  rw [apply, apply, hcheck]
  cases checkOperations u draft.operations false with
  | error e => rfl
  | ok => exact congrArg Except.ok (set_withUsage s draft (some u)).symm

theorem apply_addOperation_set (s : Step) (draft : Draft) (op : KeyOperation) :
    (s.set draft).apply (.addOperation op) = (draft.apply (.addOperation op)).map s.set := by
  have hops := set_operations s draft
  by_cases hop : op ∈ draft.operations
  · rw [apply_addOperation_of_mem hop, apply_addOperation_of_mem (hops ▸ hop)]
    rfl
  · have hcheck : (s.set draft).usage.elim (.ok ())
          (checkOperations · ((s.set draft).operations ++ [op]) false) =
        draft.usage.elim (.ok ()) (checkOperations · (draft.operations ++ [op]) false) := by
      rw [set_usage, hops]
    have hadded : s.set { draft with operations := draft.operations ++ [op] } =
        { s.set draft with operations := (s.set draft).operations ++ [op] } := by
      rw [hops]
      exact set_withOperations s draft (draft.operations ++ [op])
    rw [apply_addOperation_of_not_mem hop, apply_addOperation_of_not_mem (hops ▸ hop), hcheck]
    cases draft.usage.elim (.ok ()) (checkOperations · (draft.operations ++ [op]) false) with
    | error e => rfl
    | ok => exact congrArg Except.ok hadded.symm

theorem apply_label_set (s : Step) (draft : Draft) (l : Label) (v : Value) :
    (s.set draft).apply (.label l v) = (draft.apply (.label l v)).map s.set := by
  cases l with
  | text t => exact congrArg Except.ok (set_putExtra s draft (.text t) v rfl rfl).symm
  | int i =>
    by_cases hfree : draft.kind.reserves (.int i) = false
    · have hfree' : (s.set draft).kind.reserves (.int i) = false := by rwa [set_kind]
      rw [apply, apply, setLabel, setLabel, dif_pos hfree, dif_pos hfree']
      exact congrArg Except.ok (set_putExtra s draft (.int i) v hfree hfree').symm
    · have hfree' : ¬(s.set draft).kind.reserves (.int i) = false := by rwa [set_kind]
      rw [apply, apply, setLabel, setLabel, dif_neg hfree, dif_neg hfree']
      rfl

theorem set_comm (hne : s.place ≠ t.place) (draft : Draft) :
    t.set (s.set draft) = s.set (t.set draft) := by
  cases s <;> cases t <;> first | rfl | exact absurd rfl hne

/-- A plain parameter is never refused, and no parameter of another place depends on it. -/
theorem commute_of_plain (hs : s.Plain) (hne : s.place ≠ t.place) : draft.Commute s t := by
  have hset : (s.set draft).apply t = (draft.apply t).map s.set := by
    by_cases ht : t.Plain
    · rw [apply_of_plain ht, apply_of_plain ht, set_comm hne]
      rfl
    cases t with
    | usage u => exact apply_usage_set s draft u
    | addOperation op => exact apply_addOperation_set s draft op
    | clearOperations => exact congrArg Except.ok (set_withOperations s draft []).symm
    | label l v => exact apply_label_set s draft l v
    | _ => exact (ht trivial).elim
  intro draft'
  simp only [foldlM_pair_eq_ok, apply_of_plain hs, Except.ok.injEq, exists_eq_left', hset]
  cases draft.apply t with
  | error e => simp [Except.map]
  | ok m => simp [Except.map]

/-- Whichever of the two comes first, the usage has to permit all operations in the end. -/
theorem commute_usage_addOperation (hnone : draft.usage = none) (u : KeyUsage) (op : KeyOperation) :
    draft.Commute (.usage u) (.addOperation op) := by
  intro draft'
  simp only [foldlM_pair_eq_ok, apply_usage_eq_ok_iff, and_assoc, exists_and_left, exists_eq_left]
  by_cases hop : op ∈ draft.operations
  · have hthere : ({ draft with usage := some u } : Draft).apply (.addOperation op) =
        .ok { draft with usage := some u } := apply_addOperation_of_mem hop
    simp only [apply_addOperation_of_mem hop, hthere, Except.ok.injEq, exists_eq_left']
    exact and_congr_right fun _ => eq_comm
  · have hnew : op ∉ ({ draft with usage := some u } : Draft).operations := hop
    simp only [apply_addOperation_eq_ok_iff hop, apply_addOperation_eq_ok_iff hnew, hnone,
      exists_eq_left, Option.some.injEq, forall_eq', reduceCtorEq, false_implies,
      implies_true, true_and]
    constructor
    · intro hform
      exact hform.2
    · intro hform
      obtain ⟨permitted, hdraft⟩ := hform
      exact ⟨fun o ho => permitted o (List.mem_append_left _ ho), permitted, hdraft⟩

theorem commute_usage_label (u : KeyUsage) (l : Label) (v : Value) :
    draft.Commute (.usage u) (.label l v) := by
  intro draft'
  simp only [foldlM_pair_eq_ok, apply_usage_eq_ok_iff, apply_label_eq_ok_iff]
  constructor
  · rintro ⟨_, ⟨permitted, rfl⟩, hfree, rfl⟩
    exact ⟨_, ⟨hfree, rfl⟩, permitted, rfl⟩
  · rintro ⟨_, ⟨hfree, rfl⟩, permitted, rfl⟩
    exact ⟨_, ⟨permitted, rfl⟩, hfree, rfl⟩

theorem commute_addOperation_label (op : KeyOperation) (l : Label) (v : Value) :
    draft.Commute (.addOperation op) (.label l v) := by
  intro draft'
  simp only [foldlM_pair_eq_ok, apply_label_eq_ok_iff]
  by_cases hop : op ∈ draft.operations
  · have hthere : ∀ h, (draft.putExtra l v h).apply (.addOperation op) =
        .ok (draft.putExtra l v h) := fun _ => apply_addOperation_of_mem hop
    constructor
    · rintro ⟨_, hm, hfree, rfl⟩
      cases (apply_addOperation_of_mem hop).symm.trans hm
      exact ⟨_, ⟨hfree, rfl⟩, hthere hfree⟩
    · rintro ⟨_, ⟨hfree, rfl⟩, hm⟩
      cases (hthere hfree).symm.trans hm
      exact ⟨_, apply_addOperation_of_mem hop, hfree, rfl⟩
  · have hnew : ∀ h, op ∉ (draft.putExtra l v h).operations := fun _ => hop
    constructor
    · rintro ⟨_, hm, hfree, rfl⟩
      obtain ⟨permitted, rfl⟩ := (apply_addOperation_eq_ok_iff hop).mp hm
      exact ⟨_, ⟨hfree, rfl⟩, (apply_addOperation_eq_ok_iff (hnew hfree)).mpr ⟨permitted, rfl⟩⟩
    · rintro ⟨_, ⟨hfree, rfl⟩, hm⟩
      obtain ⟨permitted, rfl⟩ := (apply_addOperation_eq_ok_iff (hnew hfree)).mp hm
      exact ⟨_, (apply_addOperation_eq_ok_iff hop).mpr ⟨permitted, rfl⟩, hfree, rfl⟩

theorem commute_label_label {l k : Label} (h : l ≠ k) (v w : Value) :
    draft.Commute (.label l v) (.label k w) := by
  have hput : ∀ hl hk, (draft.putExtra l v hl).putExtra k w hk =
      (draft.putExtra k w hk).putExtra l v hl := by
    intro hl hk
    simp only [putExtra, LabelMap.insert_comm h]
  intro draft'
  simp only [foldlM_pair_eq_ok, apply_label_eq_ok_iff]
  constructor
  · rintro ⟨_, ⟨hl, rfl⟩, hk, rfl⟩
    exact ⟨_, ⟨hk, rfl⟩, hl, hput hl hk⟩
  · rintro ⟨_, ⟨hk, rfl⟩, hl, rfl⟩
    exact ⟨_, ⟨hl, rfl⟩, hk, (hput hl hk).symm⟩

/-- Parameters of different places can be exchanged as long as no usage is replaced. -/
theorem commute_of_place_ne (hs : ¬s.Clears) (ht : ¬t.Clears) (hne : s.place ≠ t.place)
    (unused : s.place = .usage ∨ t.place = .usage → draft.usage = none) : draft.Commute s t := by
  by_cases hsp : s.Plain
  · exact commute_of_plain hsp hne
  by_cases htp : t.Plain
  · exact (commute_of_plain htp hne.symm).symm
  cases s with
  | usage u =>
    cases t with
    | usage u' => exact (hne rfl).elim
    | addOperation op => exact commute_usage_addOperation (unused (.inl rfl)) u op
    | clearOperations => exact (ht trivial).elim
    | label l v => exact commute_usage_label u l v
    | _ => exact (htp trivial).elim
  | addOperation op =>
    cases t with
    | usage u => exact (commute_usage_addOperation (unused (.inr rfl)) u op).symm
    | addOperation op' => exact (hne rfl).elim
    | clearOperations => exact (ht trivial).elim
    | label l v => exact commute_addOperation_label op l v
    | _ => exact (htp trivial).elim
  | clearOperations => exact (hs trivial).elim
  | label l v =>
    cases t with
    | usage u => exact (commute_usage_label u l v).symm
    | addOperation op => exact (commute_addOperation_label op l v).symm
    | clearOperations => exact (ht trivial).elim
    | label k w => exact commute_label_label (fun h => hne (congrArg Place.label h)) v w
    | _ => exact (htp trivial).elim
  | _ => exact (hsp trivial).elim

/-- Every parameter is given at most once, operations apart; nothing is taken back, and a usage is
only given to a draft without one. -/
structure Arranged (draft : Draft) (steps : List Step) : Prop where
  once : steps.Pairwise fun s t => s.place = t.place → s.place = .operations
  kept : ∀ s ∈ steps, ¬s.Clears
  unused : ∀ s ∈ steps, s.place = .usage → draft.usage = none

namespace Arranged

variable {steps steps' : List Step}

theorem perm (h : draft.Arranged steps) (hperm : steps.Perm steps') : draft.Arranged steps' where
  once := by
    refine hperm.pairwise h.once ?_
    intro s t hst hts
    exact hts.trans (hst hts.symm)
  kept s hs := h.kept s (hperm.mem_iff.mpr hs)
  unused s hs := h.unused s (hperm.mem_iff.mpr hs)

theorem of_apply (h : draft.Arranged (s :: steps)) (hs : draft.apply s = .ok draft') :
    draft'.Arranged steps where
  once := (List.pairwise_cons.mp h.once).2
  kept t ht := h.kept t (List.mem_cons_of_mem _ ht)
  unused t ht hplace := by
    have hnone := h.unused t (List.mem_cons_of_mem _ ht) hplace
    have hother : s.usage? = none := by
      cases s with
      | usage u => cases (List.pairwise_cons.mp h.once).1 t ht hplace.symm
      | _ => rfl
    rw [usage_of_apply hs, hother, hnone]
    rfl

end Arranged

theorem Commute.foldlM_cons_cons (h : draft.Commute s t) (rest : List Step) :
    (s :: t :: rest).foldlM apply draft = .ok draft' ↔
      (t :: s :: rest).foldlM apply draft = .ok draft' := by
  have happend : ∀ s t : Step, ([s, t] ++ rest).foldlM apply draft = .ok draft' ↔
      ∃ m, [s, t].foldlM apply draft = .ok m ∧ rest.foldlM apply m = .ok draft' :=
    fun _ _ => Run.foldlM_append_eq_ok
  refine (happend s t).trans (Iff.trans ?_ (happend t s).symm)
  exact exists_congr fun m => and_congr_left fun _ => h m

/-- A parameter can be given before others that are not given for the same thing. -/
theorem foldlM_bring_forward {front rest : List Step} (h : draft.Arranged (front ++ s :: rest))
    (others : ∀ t ∈ front, t.place ≠ s.place) :
    (front ++ s :: rest).foldlM apply draft = .ok draft' ↔
      (s :: (front ++ rest)).foldlM apply draft = .ok draft' := by
  induction front generalizing draft with
  | nil => exact Iff.rfl
  | cons t front ih =>
    have hmem : s ∈ t :: (front ++ s :: rest) := by simp
    have hcommute : draft.Commute t s := by
      refine commute_of_place_ne (h.kept t List.mem_cons_self) (h.kept s hmem)
        (others t List.mem_cons_self) ?_
      rintro (ht | hs)
      · exact h.unused t List.mem_cons_self ht
      · exact h.unused s hmem hs
    have hrest : ∀ m, draft.apply t = .ok m → ((front ++ s :: rest).foldlM apply m = .ok draft' ↔
        (s :: (front ++ rest)).foldlM apply m = .ok draft') :=
      fun m hm => ih (h.of_apply hm) fun t' ht' => others t' (List.mem_cons_of_mem _ ht')
    rw [List.cons_append, List.cons_append, ← hcommute.foldlM_cons_cons, Run.foldlM_cons_eq_ok,
      Run.foldlM_cons_eq_ok]
    exact exists_congr fun m => and_congr_right (hrest m)

theorem Step.operation?_eq_some_iff {op : KeyOperation} :
    s.operation? = some op ↔ s = .addOperation op := by
  cases s <;> simp [operation?]

theorem Step.place_ne_operations (hs : ¬s.Clears) (h : s.operation? = none) :
    s.place ≠ .operations := by
  cases s with
  | addOperation => cases h
  | clearOperations => exact (hs trivial).elim
  | _ => exact nofun

/-- The first operation in a list of parameters has none in front of it. -/
theorem filterMap_eq_nil_of_first {op : KeyOperation} {front rest : List Step}
    {ops : List KeyOperation} (absent : .addOperation op ∉ front)
    (h : op :: ops = (front ++ .addOperation op :: rest).filterMap Step.operation?) :
    front.filterMap Step.operation? = [] := by
  rw [List.filterMap_append] at h
  cases hfront : front.filterMap Step.operation? with
  | nil => rfl
  | cons op' ops' =>
    rw [hfront] at h
    obtain rfl : op = op' := (List.cons.inj h).1
    have hmem : op ∈ front.filterMap Step.operation? := by
      rw [hfront]
      exact List.mem_cons_self
    obtain ⟨t, ht, hop⟩ := List.mem_filterMap.mp hmem
    rw [Step.operation?_eq_some_iff.mp hop] at ht
    exact (absent ht).elim

/-- What is in front of the first occurrence of a parameter is not given for the same thing. -/
theorem Arranged.first {front rest steps : List Step}
    (h : draft.Arranged (front ++ s :: rest)) (absent : s ∉ front)
    (order : (s :: steps).filterMap Step.operation? =
      (front ++ s :: rest).filterMap Step.operation?) :
    (∀ t ∈ front, t.place ≠ s.place) ∧
      steps.filterMap Step.operation? = (front ++ rest).filterMap Step.operation? := by
  obtain ⟨-, -, hdistinct⟩ := List.pairwise_append.mp h.once
  cases hop : s.operation? with
  | none =>
    have hs := h.kept s (List.mem_append_right _ List.mem_cons_self)
    constructor
    · intro t ht heq
      have hplace := hdistinct t ht s List.mem_cons_self heq
      exact Step.place_ne_operations hs hop (heq.symm.trans hplace)
    · rwa [List.filterMap_cons_none hop, List.filterMap_append, List.filterMap_cons_none hop,
        ← List.filterMap_append] at order
  | some op =>
    obtain rfl := Step.operation?_eq_some_iff.mp hop
    rw [List.filterMap_cons_some hop] at order
    have hnil := filterMap_eq_nil_of_first absent order
    constructor
    · intro t ht heq
      have hnone := List.filterMap_eq_nil_iff.mp hnil t ht
      exact Step.place_ne_operations (h.kept t (List.mem_append_left _ ht)) hnone heq
    · rw [List.filterMap_append, hnil, List.nil_append, List.filterMap_cons_some hop] at order
      rw [List.filterMap_append, hnil, List.nil_append]
      exact (List.cons.inj order).2

theorem foldlM_perm {steps steps' : List Step} (h : draft.Arranged steps)
    (hperm : steps.Perm steps')
    (order : steps.filterMap Step.operation? = steps'.filterMap Step.operation?) :
    steps.foldlM apply draft = .ok draft' ↔ steps'.foldlM apply draft = .ok draft' := by
  induction steps generalizing draft steps' with
  | nil => rw [hperm.nil_eq]
  | cons s steps ih =>
    obtain ⟨front, rest, rfl, absent⟩ :=
      List.eq_append_cons_of_mem (hperm.mem_iff.mp List.mem_cons_self)
    have h' := h.perm hperm
    have hsteps : steps.Perm (front ++ rest) := (hperm.trans List.perm_middle).cons_inv
    obtain ⟨others, hrest⟩ := h'.first absent order
    rw [foldlM_bring_forward h' others, Run.foldlM_cons_eq_ok, Run.foldlM_cons_eq_ok]
    exact exists_congr fun m => and_congr_right fun hm => ih (h.of_apply hm) hsteps hrest

/-- The key of the draft after all parameters; a parameter that is refused ends the attempt. -/
def buildWith (draft : Draft) (steps : List Step) : Except KeyError Key := do
  let draft ← steps.foldlM apply draft
  draft.build

theorem buildWith_eq_ok_iff {steps : List Step} {key : Key} : draft.buildWith steps = .ok key ↔
    ∃ draft', steps.foldlM apply draft = .ok draft' ∧ draft'.build = .ok key := by
  unfold buildWith
  constructor
  · intro h
    exact eq_ok_of_bind h
  · intro hform
    obtain ⟨draft', hsteps, hbuild⟩ := hform
    rw [hsteps]
    exact hbuild

/-- From a draft that starts empty or from a key, parameters that are given at most once, and are
not taken back, build a key in every order in which the operations follow each other as they did, or
in none, and it is one key with one encoding. -/
theorem buildWith_perm (kind : Kind) (start : Draft) (steps steps' : List Step)
    (seed : start = empty kind ∨ ∃ source, ofKeyOfKind kind source = .ok start)
    (once : steps.Pairwise fun s t => s.place = t.place → s.place = .operations)
    (kept : ∀ s ∈ steps, ¬s.Clears) (hperm : steps.Perm steps')
    (order : steps.filterMap Step.operation? = steps'.filterMap Step.operation?) :
    ((∃ key, start.buildWith steps = .ok key) ↔ ∃ key, start.buildWith steps' = .ok key) ∧
    ∀ key key', start.buildWith steps = .ok key → start.buildWith steps' = .ok key' →
      key = key' ∧ key.entries = key'.entries ∧ key.encode = key'.encode := by
  have arranged : start.Arranged steps := ⟨once, kept, fun _ _ _ => usage_of_seed seed⟩
  have hsame : ∀ key, start.buildWith steps = .ok key ↔ start.buildWith steps' = .ok key := by
    intro key
    rw [buildWith_eq_ok_iff, buildWith_eq_ok_iff]
    exact exists_congr fun _ => and_congr_left fun _ => foldlM_perm arranged hperm order
  refine ⟨exists_congr hsame, ?_⟩
  intro key key' h h'
  obtain rfl := Except.ok.inj (((hsame key).mp h).symm.trans h')
  exact ⟨rfl, rfl, rfl⟩

/-- Parameters of which the usage keeps the draft to two operations. -/
def restricting : List Step :=
  [.usage .encryption, .label (.text "note") (.int 1), .k [0x07]]

/-- Parameters with the two operations. -/
def filling : List Step :=
  [.addOperation .decrypt, .keyId [0x01], .addOperation .encrypt, .label (.int 0x100) (.int 2)]

theorem buildWith_perm_restricted :
    ∃ key, (empty .symmetric).buildWith (restricting ++ filling) = .ok key ∧
      (empty .symmetric).buildWith (filling ++ restricting) = .ok key ∧
      key.operations = [.decrypt, .encrypt] := by
  have once : (restricting ++ filling).Pairwise
      fun s t => s.place = t.place → s.place = .operations := by
    simp [restricting, filling, Step.place]
  have kept : ∀ s ∈ restricting ++ filling, ¬s.Clears := by
    simp [restricting, filling, Step.Clears]
  obtain ⟨builds, same⟩ := buildWith_perm .symmetric (empty .symmetric) (restricting ++ filling)
    (filling ++ restricting) (.inl rfl) once kept List.perm_append_comm rfl
  obtain ⟨key', h'⟩ := builds.mp ⟨_, rfl⟩
  obtain ⟨hkey, -, -⟩ := same _ key' rfl h'
  exact ⟨_, rfl, hkey ▸ h', rfl⟩

end Key.Draft

end Cose
