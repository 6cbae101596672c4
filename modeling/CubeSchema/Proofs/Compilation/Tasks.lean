import Mathlib.Data.List.Basic

/-!
# Tasks that work on shared data

A group runs tasks in the order they are given, a limited number of them at a time. The tasks that
have been started take turns in any order, and each turn is one action on the data that all of them
share. A task looks whether the work has been called off before it begins.

Tasks of which no two get into each other's way leave the data as if they had been run one after the
other: what remains to be done has the same effect before and after every turn
(`Turn.outlook_eq`). A group never gets stuck (`exists_turn`) and comes to an end
(`Turn.measure_lt`).
-/

namespace CubeSchema

/-- One action of a task. -/
inductive Action (σ : Type) where
  /-- To give up if the work has been called off. -/
  | check
  /-- To change the shared data. -/
  | change (f : σ → σ)

/-- A task is a list of actions. -/
abbrev Job (σ : Type) := List (Action σ)

/-- Tasks on the way. -/
structure TaskGroup (σ : Type) where
  /-- The tasks that have not been started. -/
  waiting : List (Job σ)
  /-- What is left of the tasks that have been started. -/
  active : List (Job σ)
  /-- The data that all tasks work on. -/
  shared : σ
  /-- Whether some task has given up. -/
  failed : Bool

namespace TaskGroup

variable {σ : Type}

/-- A group before its first turn. -/
def ofTasks (tasks : List (Job σ)) (shared : σ) : TaskGroup σ := ⟨tasks, [], shared, false⟩

/-- Whether all tasks have ended. -/
def Done (g : TaskGroup σ) : Prop := g.waiting = [] ∧ g.active = []

/-- One turn of a group that may have `limit` tasks on the way. The work is called off from outside,
or inside of the group once a task has given up. -/
inductive Turn (cancelled : Bool) (limit : Nat) : TaskGroup σ → TaskGroup σ → Prop
  /-- The next task is started. -/
  | start {task : Job σ} {waiting active : List (Job σ)} {shared : σ} {failed : Bool}
      (hlimit : active.length < limit) :
      Turn cancelled limit ⟨task :: waiting, active, shared, failed⟩
        ⟨waiting, active ++ [task], shared, failed⟩
  /-- A task sees that it may begin. -/
  | proceed {waiting before after : List (Job σ)} {task : Job σ} {shared : σ} {failed : Bool}
      (hon : (cancelled || failed) = false) :
      Turn cancelled limit ⟨waiting, before ++ (.check :: task) :: after, shared, failed⟩
        ⟨waiting, before ++ task :: after, shared, failed⟩
  /-- A task sees that the work has been called off. -/
  | giveUp {waiting before after : List (Job σ)} {task : Job σ} {shared : σ} {failed : Bool}
      (hoff : (cancelled || failed) = true) :
      Turn cancelled limit ⟨waiting, before ++ (.check :: task) :: after, shared, failed⟩
        ⟨waiting, before ++ after, shared, true⟩
  /-- A task changes the shared data. -/
  | change {waiting before after : List (Job σ)} {f : σ → σ} {task : Job σ} {shared : σ}
      {failed : Bool} :
      Turn cancelled limit ⟨waiting, before ++ (.change f :: task) :: after, shared, failed⟩
        ⟨waiting, before ++ task :: after, f shared, failed⟩
  /-- A task ends. -/
  | finish {waiting before after : List (Job σ)} {shared : σ} {failed : Bool} :
      Turn cancelled limit ⟨waiting, before ++ [] :: after, shared, failed⟩
        ⟨waiting, before ++ after, shared, failed⟩

/-! ## Every group comes to an end -/

/-- The number of turns that a group can still take, at most: a task may be started, may do its
actions, and may end. -/
def measure (g : TaskGroup σ) : Nat :=
  (g.waiting.length + g.waiting.length + g.waiting.flatten.length) +
    (g.active.length + g.active.flatten.length)

theorem Turn.measure_lt {cancelled : Bool} {limit : Nat} {g g' : TaskGroup σ}
    (h : Turn cancelled limit g g') : g'.measure < g.measure := by
  cases h <;>
    simp only [measure, List.length_cons, List.length_append, List.flatten_cons,
      List.flatten_append, List.flatten_nil, List.length_nil] <;>
    omega

/-- As long as some task has not ended, there is a next turn. -/
theorem exists_turn (cancelled : Bool) {limit : Nat} (hlimit : 0 < limit) {g : TaskGroup σ}
    (h : ¬ g.Done) : ∃ g', Turn cancelled limit g g' := by
  obtain ⟨waiting, active, shared, failed⟩ := g
  cases active with
  | nil =>
    -- No task is on the way, so the next one may be started.
    cases waiting with
    | nil => exact absurd ⟨rfl, rfl⟩ h
    | cons task waiting => exact ⟨_, .start hlimit⟩
  | cons task active =>
    cases task with
    | nil =>
      have hturn : Turn cancelled limit ⟨waiting, [] ++ [] :: active, shared, failed⟩ _ := .finish
      exact ⟨_, hturn⟩
    | cons action task =>
      cases action with
      | check =>
        cases hoff : cancelled || failed with
        | false =>
          have hturn : Turn cancelled limit
            ⟨waiting, [] ++ (.check :: task) :: active, shared, failed⟩ _ := .proceed hoff
          exact ⟨_, hturn⟩
        | true =>
          have hturn : Turn cancelled limit
            ⟨waiting, [] ++ (.check :: task) :: active, shared, failed⟩ _ := .giveUp hoff
          exact ⟨_, hturn⟩
      | change f =>
        have hturn : Turn cancelled limit
          ⟨waiting, [] ++ (.change f :: task) :: active, shared, failed⟩ _ := .change
        exact ⟨_, hturn⟩

/-! ## What remains to be done -/

/-- What a task does to the shared data when it runs alone. -/
def effect : Job σ → σ → σ
  | [], s => s
  | .check :: task, s => effect task s
  | .change f :: task, s => effect task (f s)

/-- What tasks do to the shared data one after the other. -/
def effects (tasks : List (Job σ)) (s : σ) : σ := tasks.foldl (fun s task => effect task s) s

/-- Two tasks do not get into each other's way: it does not matter which of two changes is made
first. -/
def Independent (t u : Job σ) : Prop :=
  ∀ f, .change f ∈ t → ∀ g, .change g ∈ u → ∀ s, f (g s) = g (f s)

/-- The tasks that have not ended, with what is left of them. -/
def tasks (g : TaskGroup σ) : List (Job σ) := g.active ++ g.waiting

/-- The shared data as it will be when all tasks have ended. -/
def outlook (g : TaskGroup σ) : σ := effects g.tasks g.shared

theorem effect_comm {f : σ → σ} {t : Job σ}
    (h : ∀ g, .change g ∈ t → ∀ s, f (g s) = g (f s)) (s : σ) :
    f (effect t s) = effect t (f s) := by
  induction t generalizing s with
  | nil => rfl
  | cons action t ih =>
    have htail := ih fun g hg => h g (List.mem_cons_of_mem _ hg)
    cases action with
    | check => exact htail s
    | change g => rw [effect, effect, htail, h g (List.mem_cons_self ..)]

theorem effects_comm {f : σ → σ} {tasks : List (Job σ)}
    (h : ∀ t ∈ tasks, ∀ g, .change g ∈ t → ∀ s, f (g s) = g (f s)) (s : σ) :
    f (effects tasks s) = effects tasks (f s) := by
  unfold effects
  induction tasks generalizing s with
  | nil => rfl
  | cons t tasks ih =>
    obtain ⟨ht, htasks⟩ := List.forall_mem_cons.1 h
    rw [List.foldl_cons, List.foldl_cons, ih htasks, effect_comm ht]

/-- Independence passes to what is left of a task. -/
theorem pairwise_of_sublist {before after : List (Job σ)} {t t' : Job σ}
    (hsub : ∀ a ∈ t', a ∈ t) (h : (before ++ t :: after).Pairwise Independent) :
    (before ++ t' :: after).Pairwise Independent := by
  rw [List.pairwise_append, List.pairwise_cons] at h ⊢
  obtain ⟨hbefore, ⟨ht, hafter⟩, hcross⟩ := h
  refine ⟨hbefore, ⟨fun u hu f hf => ht u hu f (hsub _ hf), hafter⟩, fun u hu v hv => ?_⟩
  rcases List.mem_cons.1 hv with rfl | hv
  · exact fun f hf g hg => hcross u hu t (List.mem_cons_self ..) f hf g (hsub _ hg)
  · exact hcross u hu v (List.mem_cons_of_mem _ hv)

theorem pairwise_of_removed {before after : List (Job σ)} {t : Job σ}
    (h : (before ++ t :: after).Pairwise Independent) :
    (before ++ after).Pairwise Independent :=
  h.sublist (List.Sublist.append_left (List.sublist_cons_self t after) before)

/-- A turn keeps the tasks independent. -/
theorem Turn.independent {cancelled : Bool} {limit : Nat} {g g' : TaskGroup σ}
    (h : Turn cancelled limit g g') (hg : g.tasks.Pairwise Independent) :
    g'.tasks.Pairwise Independent := by
  cases h with
  | start _ =>
    rw [tasks, List.append_assoc, List.singleton_append]
    exact hg
  | proceed _ =>
    rw [tasks, List.append_assoc, List.cons_append] at hg ⊢
    exact pairwise_of_sublist (fun a => List.mem_cons_of_mem _) hg
  | giveUp _ =>
    rw [tasks, List.append_assoc, List.cons_append] at hg
    rw [tasks, List.append_assoc]
    exact pairwise_of_removed hg
  | change =>
    rw [tasks, List.append_assoc, List.cons_append] at hg ⊢
    exact pairwise_of_sublist (fun a => List.mem_cons_of_mem _) hg
  | finish =>
    rw [tasks, List.append_assoc, List.cons_append] at hg
    rw [tasks, List.append_assoc]
    exact pairwise_of_removed hg

/-- While the work is not called off no task gives up. -/
theorem Turn.failed_eq {limit : Nat} {g g' : TaskGroup σ} (h : Turn false limit g g')
    (hg : g.failed = false) : g'.failed = false := by
  cases h with
  | giveUp hoff =>
    obtain rfl := hg
    cases hoff
  | _ => exact hg

/-- While the work is not called off, a turn does not change what the data will be in the end. -/
theorem Turn.outlook_eq {limit : Nat} {g g' : TaskGroup σ} (h : Turn false limit g g')
    (hfailed : g.failed = false) (hg : g.tasks.Pairwise Independent) : g'.outlook = g.outlook := by
  cases h with
  | start _ => rw [outlook, outlook, tasks, tasks, List.append_assoc, List.singleton_append]
  | proceed _ => simp only [outlook, tasks, effects, List.foldl_append, List.foldl_cons, effect]
  | giveUp hoff =>
    obtain rfl := hfailed
    cases hoff
  | @change waiting before after f task shared _ =>
    -- The change is made before the tasks in front, instead of behind them.
    have hbefore : ∀ t ∈ before, ∀ g, .change g ∈ t → ∀ s, f (g s) = g (f s) := by
      intro t ht g hg' s
      rw [tasks, List.append_assoc, List.cons_append, List.pairwise_append] at hg
      have hcross := hg.2.2 t ht _ (List.mem_cons_self ..)
      exact (hcross g hg' f (List.mem_cons_self ..) s).symm
    have hfirst := effects_comm hbefore shared
    unfold effects at hfirst
    simp only [outlook, tasks, effects, List.foldl_append, List.foldl_cons, effect, hfirst]
  | finish => simp only [outlook, tasks, effects, List.foldl_append, List.foldl_cons, effect]

/-- What holds along a run while the work is not called off. -/
structure Heading (g : TaskGroup σ) (final : σ) : Prop where
  /-- No task has given up. -/
  failed : g.failed = false
  /-- The tasks do not get into each other's way. -/
  independent : g.tasks.Pairwise Independent
  /-- The tasks will leave the data like this. -/
  outlook : g.outlook = final

theorem heading_ofTasks {tasks : List (Job σ)} (h : tasks.Pairwise Independent) (s : σ) :
    (ofTasks tasks s).Heading (effects tasks s) := ⟨rfl, h, rfl⟩

theorem Heading.turn {g g' : TaskGroup σ} {final : σ} (h : g.Heading final) {limit : Nat}
    (hturn : Turn false limit g g') : g'.Heading final :=
  ⟨hturn.failed_eq h.failed, hturn.independent h.independent,
    (hturn.outlook_eq h.failed h.independent).trans h.outlook⟩

/-- When all tasks have ended the data are as foreseen. -/
theorem Heading.shared_eq {g : TaskGroup σ} {final : σ} (h : g.Heading final) (hdone : g.Done) :
    g.shared = final := by
  have hnone : g.tasks = [] := by rw [tasks, hdone.1, hdone.2, List.append_nil]
  have houtlook := h.outlook
  rw [TaskGroup.outlook, hnone] at houtlook
  exact houtlook

end TaskGroup

end CubeSchema
