import Omg.Graph.PostOrder
import Omg.Text.Basic

/-!
# The plan of a mise task

A task runs after everything it depends on. The plan comes from a depth-first search with an
explicit stack: it is the traversal of `Omg.Graph`, except that it fails at a task that is met
again while it still waits for its dependencies.

Source: `src/config/mise_tasks.rs`.
-/

namespace Omg.Env

open Collections Omg.Graph List Relation Except

/-- `NativeTask`, as far as the plan reads it. -/
structure NativeTask where
  name : Text
  depends : List Text

/-- The declared tasks by name, a `BTreeMap` in the source. -/
abbrev Tasks := List (Text × NativeTask)

/-- The variables of the loop; the head of `pending` is the top of the stack. -/
structure PlanState where
  pending : List (Text × Bool)
  active : List Text
  complete : List Text
  ordered : List NativeTask

def planStart (name : Text) : PlanState := ⟨[(name, false)], [], [], []⟩

def PlanState.leave (s : PlanState) (name : Text) (task : NativeTask) : PlanState :=
  { s with
    active := s.active.filter (· ≠ name)
    complete := s.complete ++ [name]
    ordered := s.ordered ++ [task] }

def PlanState.enter (s : PlanState) (name : Text) (task : NativeTask) : PlanState :=
  { s with
    pending := task.depends.map (·, false) ++ (name, true) :: s.pending
    active := name :: s.active }

def missingTask (name : Text) : Text := "Missing mise task dependency: " ++ name

/-- The body of the loop, for an entry that was popped. -/
def planStep (tasks : Tasks) (name : Text) (leaving : Bool) (s : PlanState) :
    Except Text PlanState :=
  if name ∈ s.complete then .ok s
  else match tasks.lookup name with
    | none => .error (missingTask name)
    | some task =>
      if leaving then .ok (s.leave name task)
      else if name ∈ s.active then .error ("Mise task dependency cycle at " ++ name)
      else .ok (s.enter name task)

/-- At most `n` iterations of the loop. -/
def planLoop (tasks : Tasks) : ℕ → PlanState → Except Text PlanState
  | 0, s => .ok s
  | n + 1, s =>
    match s.pending with
    | [] => .ok s
    | (name, leaving) :: rest =>
      match planStep tasks name leaving { s with pending := rest } with
      | .error e => .error e
      | .ok s' => planLoop tasks n s'

/-- The successors of a task in the graph of the plan. -/
def dependencies (tasks : Tasks) (name : Text) : Except Text (List Text) :=
  match tasks.lookup name with
  | none => .error (missingTask name)
  | some task => .ok task.depends

def dependencyCount (tasks : Tasks) (name : Text) : ℕ :=
  ((tasks.lookup name).map (·.depends.length)).getD 0

/-- One iteration for the root, one for each task and one for each of its dependencies. -/
def planFuel (tasks : Tasks) : ℕ :=
  1 + ((tasks.map (·.1)).map fun name => dependencyCount tasks name + 1).sum

def plan (tasks : Tasks) (name : Text) : Except Text (List NativeTask) :=
  match planLoop tasks (planFuel tasks) (planStart name) with
  | .error e => .error e
  | .ok s => .ok s.ordered

def DependsOn (tasks : Tasks) (name dependency : Text) : Prop :=
  ∃ task, tasks.lookup name = some task ∧ dependency ∈ task.depends

variable {tasks : Tasks} {root name : Text} {leaving : Bool} {s s' : PlanState}
  {t : Traversal Text}

lemma dependencies_eq_ok {ds : List Text} :
    dependencies tasks name = .ok ds ↔ ∃ task, tasks.lookup name = some task ∧
      task.depends = ds := by
  unfold dependencies
  cases tasks.lookup name <;> simp

lemma edge_dependencies (tasks : Tasks) : Edge (dependencies tasks) = DependsOn tasks := by
  funext p q
  simp only [Edge, dependencies_eq_ok, eq_iff_iff]
  constructor
  · rintro ⟨_, ⟨task, hta, rfl⟩, hq⟩
    exact ⟨task, hta, hq⟩
  · rintro ⟨task, hta, hq⟩
    exact ⟨_, ⟨task, hta, rfl⟩, hq⟩

/-! ### One iteration -/

lemma planStep_ok_cases (h : planStep tasks name leaving s = .ok s') :
    (name ∈ s.complete ∧ s' = s) ∨ ∃ task, name ∉ s.complete ∧ tasks.lookup name = some task ∧
      (leaving ∧ s' = s.leave name task ∨
        leaving = false ∧ name ∉ s.active ∧ s' = s.enter name task) := by
  unfold planStep at h
  split at h
  · next hcom => exact .inl ⟨hcom, (ok.inj h).symm⟩
  · next hcom =>
    split at h
    · cases h
    · next task hta =>
      refine .inr ⟨task, hcom, hta, ?_⟩
      split_ifs at h with hlea hact
      · exact .inl ⟨hlea, (ok.inj h).symm⟩
      · exact .inr ⟨Bool.eq_false_of_not_eq_true hlea, hact, (ok.inj h).symm⟩

lemma planStep_error_cases {e : Text} (h : planStep tasks name leaving s = .error e) :
    tasks.lookup name = none ∨ leaving = false ∧ name ∈ s.active := by
  unfold planStep at h
  split at h
  · cases h
  · split at h
    · next hno => exact .inl hno
    · split_ifs at h with hlea hact
      exact .inr ⟨Bool.eq_false_of_not_eq_true hlea, hact⟩

/-- What waits on the stack has every dependency complete or above it; `above` is what stands
above the part of the stack at hand. -/
def Covered (tasks : Tasks) (complete : List Text) : List Text → List (Text × Bool) → Prop
  | _, [] => True
  | above, (p, leaving) :: below =>
    (leaving = true → ∀ q, DependsOn tasks p q → q ∈ complete ∨ q ∈ above) ∧
      Covered tasks complete (p :: above) below

lemma Covered.mono {complete complete' : List Text} {stack : List (Text × Bool)} :
    ∀ {abv abv' : List Text}, Covered tasks complete abv stack →
      (∀ q, q ∈ complete ∨ q ∈ abv → q ∈ complete' ∨ q ∈ abv') →
      Covered tasks complete' abv' stack := by
  induction stack with
  | nil => exact fun _ _ => trivial
  | cons x bel ih =>
    intro abv abv' h hsub
    refine ⟨fun hx q hq => hsub q (h.1 hx q hq), ih h.2 fun q hq => ?_⟩
    have := hsub q
    simp only [mem_cons] at hq ⊢
    tauto

lemma covered_append_false {complete : List Text} {stack : List (Text × Bool)} :
    ∀ {ds abv : List Text}, Covered tasks complete (ds.reverse ++ abv) stack →
      Covered tasks complete abv (ds.map (·, false) ++ stack)
  | [], _, h => h
  | d :: ds, abv, h => by
    refine ⟨nofun, covered_append_false ?_⟩
    simpa using h

/-- The loop and the traversal from `root` are at the same point. A task that waits depends,
through one step or more, on all that stands above it. -/
structure Simulates (tasks : Tasks) (root : Text) (s : PlanState) (t : Traversal Text) :
    Prop where
  stack_eq : t.stack = s.pending
  finished_eq : t.finished = s.complete
  active_iff : ∀ a, a ∈ s.active ↔ a ∈ waiting s.pending
  arranged : Arranged (dependencies tasks) t
  progress : Progress (dependencies tasks) root [] [] t
  covered : Covered tasks s.complete [] s.pending
  above : s.pending.Pairwise fun x y => y.2 = true → TransGen (DependsOn tasks) y.1 x.1
  ordered_eq : s.complete.map (tasks.lookup ·) = s.ordered.map some
  precedes : ∀ p ∈ s.complete, ∀ q, DependsOn tasks p q → Precedes q p s.complete

lemma simulates_start (tasks : Tasks) (root : Text) :
    Simulates tasks root (planStart root) (start root [] []) where
  stack_eq := rfl
  finished_eq := rfl
  active_iff a := by simp [planStart]
  arranged := settled_nil.arranged_start root
  progress := progress_start root [] []
  covered := ⟨nofun, trivial⟩
  above := pairwise_singleton _ _
  ordered_eq := rfl
  precedes p hp := by cases hp

lemma Simulates.not_mem_complete (h : Simulates tasks root s t) (hwts : name ∈ waiting s.pending) :
    name ∉ s.complete := by
  have hnd := h.arranged.nodup
  rw [h.stack_eq, h.finished_eq] at hnd
  exact fun hmem => disjoint_of_nodup_append hnd hmem hwts

lemma Simulates.step {rest : List (Text × Bool)} (h : Simulates tasks root s t)
    (hpe : s.pending = (name, leaving) :: rest)
    (hs : planStep tasks name leaving { s with pending := rest } = .ok s') :
    ∃ t', Graph.step (dependencies tasks) t = .ok t' ∧ Simulates tasks root s' t' := by
  have hsk : t.stack = (name, leaving) :: rest := h.stack_eq.trans hpe
  have hne : t.stack ≠ [] := by simp [hsk]
  have hact := h.active_iff
  have hcvd := h.covered
  have hab := h.above
  rw [hpe] at hact hcvd hab
  obtain ⟨hmem, rfl⟩ | ⟨task, hnew, hta, ⟨rfl, rfl⟩ | ⟨rfl, hina, rfl⟩⟩ := planStep_ok_cases hs
  · -- A complete task does not wait, so the traversal drops the entry as well.
    cases leaving with
    | true => exact absurd hmem (h.not_mem_complete (by simp [hpe]))
    | false =>
      have hvi : name ∈ t.visited := by
        rw [h.arranged.visited_iff, h.finished_eq]
        exact mem_append_left _ hmem
      have hst : Graph.step (dependencies tasks) t = .ok ⟨rest, t.visited, t.finished⟩ := by
        simp [Graph.step, hsk, hvi]
      refine ⟨_, hst, rfl, h.finished_eq, hact, h.arranged.step hne hst,
        h.progress.step hne hst, hcvd.2.mono fun q hq => ?_, hab.of_cons, h.ordered_eq,
        h.precedes⟩
      refine .inl (hq.elim id fun hq => ?_)
      rw [mem_singleton.mp hq]
      exact hmem
  · have hst : Graph.step (dependencies tasks) t = .ok ⟨rest, t.visited, t.finished ++ [name]⟩ := by
      simp [Graph.step, hsk]
    have hnd := h.arranged.nodup
    rw [hsk] at hnd
    have hr : name ∉ waiting rest := (nodup_cons.mp hnd.of_append_right).1
    refine ⟨_, hst, rfl, congrArg (· ++ [name]) h.finished_eq, fun a => ?_, h.arranged.step hne hst,
      h.progress.step hne hst, hcvd.2.mono fun q hq => ?_, hab.of_cons, ?_, ?_⟩
    · have := hact a
      rw [waiting_cons_true, mem_cons] at this
      simp only [PlanState.leave, mem_filter, decide_eq_true_eq, this]
      exact ⟨fun ha => ha.1.resolve_left ha.2, fun ha => ⟨.inr ha, fun heq => hr (heq ▸ ha)⟩⟩
    · simpa [PlanState.leave] using hq
    · simp [PlanState.leave, h.ordered_eq, hta]
    · intro p hp q hq
      rcases mem_append.mp hp with hp | hp
      · exact (h.precedes p hp q hq).append _
      · obtain rfl := mem_singleton.mp hp
        exact precedes_concat ((hcvd.1 rfl q hq).resolve_right not_mem_nil)
  · have hunv : name ∉ t.visited := by
      rw [h.arranged.visited_iff, h.finished_eq, h.stack_eq, hpe, mem_append]
      exact not_or.mpr ⟨hnew, fun hwts => hina ((hact name).mpr hwts)⟩
    have hexp : dependencies tasks name = .ok task.depends :=
      dependencies_eq_ok.mpr ⟨task, hta, rfl⟩
    have hst : Graph.step (dependencies tasks) t =
        .ok ⟨task.depends.map (·, false) ++ (name, true) :: rest, name :: t.visited,
          t.finished⟩ := by
      simp [Graph.step, hsk, hunv, hexp]
    refine ⟨_, hst, rfl, h.finished_eq, fun a => ?_, h.arranged.step hne hst,
      h.progress.step hne hst, covered_append_false ⟨fun _ q hq => ?_, ?_⟩, ?_, h.ordered_eq,
      h.precedes⟩
    · simpa [PlanState.enter] using or_congr_right (hact a)
    · obtain ⟨task', hta', hq⟩ := hq
      obtain rfl := Option.some.inj (hta.symm.trans hta')
      exact .inr (by simpa using hq)
    · exact hcvd.2.mono fun q hq => hq.imp_right fun hq => by simp [mem_singleton.mp hq]
    · -- The dependencies stand above the task, and the task above what waits below it.
      rw [pairwise_cons] at hab
      refine pairwise_append.mpr ⟨?_, pairwise_cons.mpr ⟨hab.1, hab.2⟩, fun x hx y hy hfg => ?_⟩
      · exact pairwise_map.mpr (pairwise_of_forall fun _ _ hfg => by cases hfg)
      · obtain ⟨d, hd, rfl⟩ := mem_map.mp hx
        have hed : DependsOn tasks name d := ⟨task, hta, hd⟩
        rcases mem_cons.mp hy with rfl | hy
        · exact .single hed
        · exact (hab.1 y hy hfg).tail hed

/-- **The loop is the traversal**, and where it fails a task that the root needs is missing or
depends on itself. -/
lemma planLoop_spec : ∀ {n : ℕ} {s : PlanState} {t : Traversal Text},
    Simulates tasks root s t → match planLoop tasks n s with
      | .ok s' => ∃ t', run (dependencies tasks) n t = .ok t' ∧ Simulates tasks root s' t'
      | .error _ => ∃ a, Reach (dependencies tasks) root a ∧
          (tasks.lookup a = none ∨ TransGen (DependsOn tasks) a a)
  | 0, s, t, h => ⟨t, rfl, h⟩
  | n + 1, s, t, h => by
    rcases hpe : s.pending with _ | ⟨⟨name, leaving⟩, rest⟩
    · have hnil : t.stack = [] := h.stack_eq.trans hpe
      simp only [planLoop, hpe]
      exact ⟨t, by simp [run, hnil], h⟩
    · have hsk : t.stack = (name, leaving) :: rest := h.stack_eq.trans hpe
      cases hs : planStep tasks name leaving { s with pending := rest } with
      | error e =>
        simp only [planLoop, hpe, hs]
        refine ⟨name, h.progress.stack_reach name leaving (by simp [hsk]), ?_⟩
        refine (planStep_error_cases hs).imp_right fun ⟨hlea, hact⟩ => ?_
        have hwts := (h.active_iff name).mp hact
        have hab := h.above
        rw [hpe, hlea] at hwts hab
        exact (pairwise_cons.mp hab).1 (name, true) (mem_waiting.mp hwts) rfl
      | ok s' =>
        obtain ⟨t', hst, h'⟩ := h.step hpe hs
        have hrun : run (dependencies tasks) (n + 1) t = run (dependencies tasks) n t' := by
          conv_lhs => unfold run
          simp only [hsk, hst]
        simp only [planLoop, hpe, hs, hrun]
        exact planLoop_spec h'

lemma planLoop_pending_eq_nil {n : ℕ} (hn : planFuel tasks ≤ n)
    (h : planLoop tasks n (planStart root) = .ok s) : s.pending = [] := by
  have hsp := planLoop_spec (n := n) (simulates_start tasks root)
  rw [h] at hsp
  obtain ⟨t, hrun, hsim⟩ := hsp
  rw [← hsim.stack_eq]
  refine run_start_stack_eq_nil (fun a ds hds => ?_) hrun hn
  obtain ⟨task, hta, rfl⟩ := dependencies_eq_ok.mp hds
  refine ⟨mem_map.mpr ⟨(a, task), ?_, rfl⟩, by simp [dependencyCount, hta]⟩
  obtain ⟨l₁, l₂, rfl, -⟩ := lookup_eq_some_iff.mp hta
  simp

/-! ### The plan -/

lemma Simulates.mem_complete_iff {n : ℕ} (h : Simulates tasks root s t) (hnil : s.pending = [])
    (hrun : run (dependencies tasks) n (start root [] []) = .ok t) (a : Text) :
    a ∈ s.complete ↔ ReflTransGen (DependsOn tasks) root a := by
  have hsk := h.stack_eq.trans hnil
  have hmem := (run_ok_closed hrun hsk closed_nil).2 a
  rw [h.arranged.visited_iff, hsk, h.finished_eq, waiting_nil, Reach, edge_dependencies] at hmem
  simpa using hmem

/-- The tasks that `root` needs, each once and after its dependencies. -/
structure PlanOrder (tasks : Tasks) (root : Text) (names : List Text) : Prop where
  nodup : names.Nodup
  mem_iff : ∀ a, a ∈ names ↔ ReflTransGen (DependsOn tasks) root a
  precedes : ∀ a ∈ names, ∀ dependency, DependsOn tasks a dependency → Precedes dependency a names

lemma PlanOrder.swap {ns : List Text} (h : PlanOrder tasks root ns) (q p : Text)
    (hq : Function.swap (DependsOn tasks) q p) (hp : p ∈ ns) : Precedes q p ns :=
  h.precedes p hp q hq

lemma PlanOrder.getLast? {ns : List Text} (h : PlanOrder tasks root ns) : ns.getLast? = some root :=
  getLast?_eq_of_reach h.nodup h.swap fun a => (h.mem_iff a).trans reflTransGen_swap.symm

lemma PlanOrder.not_transGen {ns : List Text} (h : PlanOrder tasks root ns) {a : Text}
    (ha : a ∈ ns) : ¬ TransGen (DependsOn tasks) a a := fun hcy =>
  absurd (idxOf_lt_of_transGen h.nodup h.swap (transGen_swap.mpr hcy) ha).2 (lt_irrefl _)

lemma planOrder_of_plan_eq_ok {ordered : List NativeTask} (h : plan tasks root = .ok ordered) :
    ∃ names, names.map (tasks.lookup ·) = ordered.map some ∧ PlanOrder tasks root names := by
  have hsp := planLoop_spec (n := planFuel tasks) (simulates_start tasks root)
  unfold plan at h
  split at h
  · cases h
  next s hlp =>
  obtain rfl := ok.inj h
  rw [hlp] at hsp
  obtain ⟨t, hrun, hsim⟩ := hsp
  have hnd := hsim.arranged.nodup
  rw [hsim.finished_eq] at hnd
  exact ⟨s.complete, hsim.ordered_eq, hnd.of_append_left,
    hsim.mem_complete_iff (planLoop_pending_eq_nil le_rfl hlp) hrun, hsim.precedes⟩

theorem plan_spec (tasks : Tasks) (name : Text) :
    (∀ n, planFuel tasks ≤ n → ∀ s, planLoop tasks n (planStart name) = .ok s → s.pending = []) ∧
    ((∃ ordered, plan tasks name = .ok ordered) ↔
      ∀ a, ReflTransGen (DependsOn tasks) name a →
        tasks.lookup a ≠ none ∧ ¬ TransGen (DependsOn tasks) a a) ∧
    ∀ ordered, plan tasks name = .ok ordered → ∃ names,
      names.map (tasks.lookup ·) = ordered.map some ∧ PlanOrder tasks name names ∧
        names.getLast? = some name := by
  refine ⟨fun n hn s h => planLoop_pending_eq_nil hn h, ⟨fun ⟨ordered, h⟩ a ha => ?_, fun h => ?_⟩,
    fun ordered h => ?_⟩
  · obtain ⟨names, hord, hod⟩ := planOrder_of_plan_eq_ok h
    have ha' := (hod.mem_iff a).mpr ha
    refine ⟨fun hno => ?_, hod.not_transGen ha'⟩
    have : none ∈ ordered.map some := hord ▸ mem_map.mpr ⟨a, ha', hno⟩
    simp at this
  · have hsp := planLoop_spec (n := planFuel tasks) (simulates_start tasks name)
    unfold plan
    cases hlp : planLoop tasks (planFuel tasks) (planStart name) with
    | ok s => exact ⟨s.ordered, rfl⟩
    | error e =>
      rw [hlp] at hsp
      obtain ⟨a, hre, hbad⟩ := hsp
      rw [Reach, edge_dependencies] at hre
      exact (hbad.elim (h a hre).1 (h a hre).2).elim
  · obtain ⟨names, hord, hod⟩ := planOrder_of_plan_eq_ok h
    exact ⟨names, hord, hod, hod.getLast?⟩

end Omg.Env
