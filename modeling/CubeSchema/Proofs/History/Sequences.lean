import CubeSchema.Proofs.History.Reaching

/-!
# What a store tells after any calls

A store that has been opened is changed by calls, in any order and at any times. What it answers
afterwards is told by the calls alone: a run is what the call that created it says and the last call
behind that which completed it, and a digest is the one that was recorded last. One call has one
effect on the history (`reached?_perform`); the effects of all calls on the runs and on the digests
follow by induction on the calls.
-/

namespace CubeSchema

/-- A call that changes what a store remembers. -/
inductive StoreCall where
  /-- A run is started. -/
  | createRun (id : Text) (now : Int)
  /-- The outcome of a run is recorded. -/
  | completeRun (id : Text) (now : Int) (outcome : RunOutcome)
  /-- The digest of an output is recorded. -/
  | setOutputHash (path hash : Text)
  /-- The digest of an output is forgotten. -/
  | deleteOutputHash (path : Text)
  deriving DecidableEq, Repr

namespace StoreCall

/-- Whether a call is about runs; the others are about digests. -/
def isAboutRuns : StoreCall → Bool
  | createRun _ _ => true
  | completeRun _ _ _ => true
  | setOutputHash _ _ => false
  | deleteOutputHash _ => false

/-- What a call comes to. -/
def act (s : Store) (t : FileTree) : StoreCall → Except StoreError (Store × FileTree)
  | createRun id now => (s.createRun t false id now).map Prod.snd
  | completeRun id now outcome => s.completeRun t false id now outcome
  | setOutputHash path hash => s.setOutputHash t false path hash
  | deleteOutputHash path => s.deleteOutputHash t false path

/-- The store and the file tree after a call; one that fails leaves them as they are. -/
def perform (x : Store × FileTree) (c : StoreCall) : Store × FileTree :=
  match c.act x.1 x.2 with
  | .ok y => y
  | .error _ => x

/-- The store and the file tree after calls. -/
def performAll (calls : List StoreCall) (x : Store × FileTree) : Store × FileTree :=
  calls.foldl perform x

/-- The names that runs are created by. -/
def createdIds (calls : List StoreCall) : List Text :=
  calls.filterMap fun
    | createRun id _ => some id
    | _ => none

/-- The time and the outcome that a call records for a run, if it does so. -/
def completion? (id : Text) : StoreCall → Option (Int × RunOutcome)
  | completeRun other now outcome => if other = id then some (now, outcome) else none
  | _ => none

/-- The time and the outcome of the last completion of a run, if there is one. -/
def lastCompletion? (id : Text) (calls : List StoreCall) : Option (Int × RunOutcome) :=
  (calls.filterMap (completion? id)).getLast?

/-- The digest that a call leaves at a path, if it is about that path. -/
def digest? (path : Text) : StoreCall → Option Text
  | setOutputHash other hash => if other = path then some hash else none
  | deleteOutputHash other => if other = path then some [] else none
  | _ => none

/-- The digest that the last call about a path leaves there, if there is such a call. -/
def lastDigest? (path : Text) (calls : List StoreCall) : Option Text :=
  (calls.filterMap (digest? path)).getLast?

end StoreCall

open StoreCall

/-- What calls make of a run that is there. -/
def Run.after (r : Run) (calls : List StoreCall) : Run :=
  match lastCompletion? r.id calls with
  | none => r
  | some (now, outcome) => { r with completedAt := some now, outcome }

/-- The runs that calls create, in order, each as the calls behind its creation leave it. -/
def StoreCall.created : List StoreCall → List Run
  | [] => []
  | createRun id now :: calls => Run.after { id, startedAt := now } calls :: created calls
  | _ :: calls => created calls

/-! ## Runs of a history -/

namespace History

/-- A name that no run has is that of no run. -/
theorem run?_eq_none {h : History} {id : Text} (hid : id ∉ h.runs.map Run.id) :
    h.run? id = none := by
  rw [run?, List.find?_eq_none]
  intro r hr heq
  exact hid (List.mem_map.2 ⟨r, hr, by simpa using heq⟩)

/-- Where no two runs have one name, every run is found by its name. -/
theorem run?_of_mem {h : History} (hids : (h.runs.map Run.id).Nodup) {r : Run} (hr : r ∈ h.runs) :
    h.run? r.id = some r := by
  obtain ⟨front, back, hruns⟩ := List.append_of_mem hr
  rw [hruns, List.map_append, List.map_cons, List.nodup_append] at hids
  rw [run?, hruns, List.find?_append, List.find?_eq_none.2, List.find?_cons_of_pos (by simp)]
  · rfl
  · intro q hq heq
    exact hids.2.2 q.id (List.mem_map_of_mem hq) r.id (List.mem_cons_self ..) (by simpa using heq)

/-- Nothing is recorded for a name that no run has. -/
theorem finish_of_not_mem {h : History} {id : Text} (hid : id ∉ h.runs.map Run.id) (now : Int)
    (outcome : RunOutcome) : h.finish id now outcome = h := by
  have hsame : h.runs.map (fun r => if r.id = id then { r with completedAt := some now, outcome }
      else r) = h.runs := by
    refine (List.map_congr_left fun r hr => if_neg fun heq => ?_).trans (List.map_id _)
    exact hid (List.mem_map.2 ⟨r, hr, heq⟩)
  rw [finish, hsame]

/-- The listing holds every run once, the latest start first, and runs that started together in the
reverse order of their creation. -/
theorem latestFirst_spec (h : History) : h.latestFirst.Perm h.runs ∧
    h.latestFirst.Pairwise (fun a b => b.startedAt ≤ a.startedAt) ∧
    ∀ time, h.latestFirst.filter (fun r => r.startedAt = time) =
      (h.runs.filter fun r => r.startedAt = time).reverse := by
  have htrans : ∀ a b c : Run, decide (b.startedAt ≤ a.startedAt) = true →
      decide (c.startedAt ≤ b.startedAt) = true → decide (c.startedAt ≤ a.startedAt) = true := by
    simp only [decide_eq_true_eq]
    exact fun a b c hab hbc => Int.le_trans hbc hab
  have htotal : ∀ a b : Run,
      (decide (b.startedAt ≤ a.startedAt) || decide (a.startedAt ≤ b.startedAt)) = true := by
    simp only [Bool.or_eq_true, decide_eq_true_eq]
    exact fun a b => Int.le_total _ _
  have hperm : h.latestFirst.Perm h.runs.reverse := List.mergeSort_perm _ _
  refine ⟨hperm.trans (List.reverse_perm _), ?_, fun time => ?_⟩
  · refine (List.pairwise_mergeSort htrans htotal h.runs.reverse).imp ?_
    simp
  · rw [← List.filter_reverse]
    -- Sorting keeps the order of runs that started together, and neither loses nor adds any.
    have htogether : (h.runs.reverse.filter fun r => r.startedAt = time).Sublist h.latestFirst := by
      refine List.sublist_mergeSort htrans htotal ?_ List.filter_sublist
      refine List.pairwise_of_forall_mem_list fun a ha b hb => ?_
      have ha : a.startedAt = time := by simpa using (List.mem_filter.1 ha).2
      have hb : b.startedAt = time := by simpa using (List.mem_filter.1 hb).2
      simp [ha, hb]
    have hsublist := htogether.filter fun r => r.startedAt = time
    rw [List.filter_filter] at hsublist
    simp only [Bool.and_self] at hsublist
    exact (hsublist.eq_of_length (hperm.filter _).length_eq.symm).symm

end History

/-! ## The effects of calls -/

namespace StoreCall

/-- What a call does to a history that is reached. -/
def effect (h : History) : StoreCall → History
  | createRun id now => h.start id now
  | completeRun id now outcome => h.finish id now outcome
  | setOutputHash path hash => h.setHash path hash
  | deleteOutputHash path => h.forgetHash path

variable {x : Store × FileTree} {h : History} (hx : x.1.reached? x.2 = some h)

include hx

/-- The outcome of a run that is not there cannot be recorded. -/
theorem act_completeRun_unknown {id : Text} (hid : id ∉ h.runs.map Run.id) (now : Int)
    (outcome : RunOutcome) :
    (completeRun id now outcome).act x.1 x.2 = .error (.runNotFound id) := by
  unfold act Store.completeRun
  rw [Store.history_eq_ok.2 hx]
  show (if (h.run? id).isSome then _ else _) = _
  rw [History.run?_eq_none hid]
  rfl

/-- Every other call saves the history with its effect. -/
theorem act_eq_ok {c : StoreCall}
    (hc : ∀ id now outcome, c = completeRun id now outcome → id ∈ h.runs.map Run.id) :
    c.act x.1 x.2 = .ok (x.1.save x.2 (.ready (c.effect h))) := by
  cases c with
  | createRun id now =>
    unfold act Store.createRun
    rw [Store.history_eq_ok.2 hx]
    rfl
  | completeRun id now outcome =>
    obtain ⟨r, hr, hrid⟩ := List.mem_map.1 (hc id now outcome rfl)
    have hsome : (h.run? id).isSome = true := List.find?_isSome.2 ⟨r, hr, by simpa using hrid⟩
    unfold act Store.completeRun
    rw [Store.history_eq_ok.2 hx]
    exact if_pos hsome
  | setOutputHash path hash =>
    unfold act Store.setOutputHash
    rw [Store.history_eq_ok.2 hx]
    rfl
  | deleteOutputHash path =>
    unfold act Store.deleteOutputHash
    rw [Store.history_eq_ok.2 hx]
    rfl

/-- A call has its effect on the history. -/
theorem reached?_perform (c : StoreCall) :
    (perform x c).1.reached? (perform x c).2 = some (c.effect h) := by
  by_cases hc : ∃ id now outcome, c = completeRun id now outcome ∧ id ∉ h.runs.map Run.id
  · -- The call fails, and there is nothing that it could have changed.
    obtain ⟨id, now, outcome, rfl, hid⟩ := hc
    rw [perform, act_completeRun_unknown hx hid, effect, History.finish_of_not_mem hid]
    exact hx
  · have hknown : ∀ id now outcome, c = completeRun id now outcome → id ∈ h.runs.map Run.id := by
      intro id now outcome heq
      by_contra hid
      exact hc ⟨id, now, outcome, heq, hid⟩
    rw [perform, act_eq_ok hx hknown]
    exact (Store.reached?_save hx _).1

/-- Calls have their effects on the history one after the other. -/
theorem reached?_performAll (calls : List StoreCall) :
    (performAll calls x).1.reached? (performAll calls x).2 = some (calls.foldl effect h) := by
  induction calls generalizing x h with
  | nil => exact hx
  | cons c calls ih => exact ih (reached?_perform hx c)

omit hx

/-- A call about digests leaves the runs as they are. -/
theorem runs_effect {c : StoreCall} (hc : c.isAboutRuns = false) (h : History) :
    (c.effect h).runs = h.runs := by
  cases c with
  | createRun _ _ => cases hc
  | completeRun _ _ _ => cases hc
  | setOutputHash _ _ => rfl
  | deleteOutputHash _ => rfl

/-- A call about runs leaves the digests as they are. -/
theorem hashes_effect {c : StoreCall} (hc : c.isAboutRuns = true) (h : History) :
    (c.effect h).hashes = h.hashes := by
  cases c with
  | createRun _ _ => rfl
  | completeRun _ _ _ => rfl
  | setOutputHash _ _ => cases hc
  | deleteOutputHash _ => cases hc

/-- The last of the values that calls give is the first call's, unless a later one gives one. -/
theorem getLast?_filterMap_cons {α : Type} (f : StoreCall → Option α) (c : StoreCall)
    (calls : List StoreCall) :
    ((c :: calls).filterMap f).getLast? = (calls.filterMap f).getLast?.or (f c) := by
  rw [List.filterMap_cons]
  cases f c with
  | none => exact (Option.or_none).symm
  | some b =>
    rw [List.getLast?_cons]
    cases (calls.filterMap f).getLast? <;> rfl

/-! ### Runs -/

/-- A completion is part of what calls make of a run, unless a later one takes its place. -/
theorem after_cons_completeRun (r : Run) (id : Text) (now : Int) (outcome : RunOutcome)
    (calls : List StoreCall) : r.after (completeRun id now outcome :: calls) =
      (if r.id = id then { r with completedAt := some now, outcome } else r).after calls := by
  unfold Run.after lastCompletion?
  rw [getLast?_filterMap_cons, completion?]
  by_cases hid : r.id = id
  · rw [if_pos hid, if_pos hid.symm]
    cases (calls.filterMap (completion? r.id)).getLast? <;> rfl
  · rw [if_neg hid, if_neg (Ne.symm hid), Option.or_none]

@[simp] theorem id_after (r : Run) (calls : List StoreCall) : (r.after calls).id = r.id := by
  unfold Run.after
  split <;> rfl

@[simp] theorem startedAt_after (r : Run) (calls : List StoreCall) :
    (r.after calls).startedAt = r.startedAt := by
  unfold Run.after
  split <;> rfl

/-- The runs after calls are those of before and those that were created, each as the calls leave
it. -/
theorem runs_effects (calls : List StoreCall) (h : History) :
    (calls.foldl effect h).runs = h.runs.map (·.after calls) ++ created calls := by
  induction calls generalizing h with
  | nil => simp [created, Run.after, lastCompletion?]
  | cons c calls ih =>
    rw [List.foldl_cons, ih]
    cases c with
    | createRun id now =>
      rw [effect, History.start, List.map_append, List.append_assoc]
      rfl
    | completeRun id now outcome =>
      rw [effect, History.finish, List.map_map]
      change _ ++ created calls = _ ++ created calls
      congr 1
      refine List.map_congr_left fun r _ => ?_
      rw [after_cons_completeRun]
      rfl
    | setOutputHash path hash => rfl
    | deleteOutputHash path => rfl

theorem map_id_created (calls : List StoreCall) :
    (created calls).map Run.id = createdIds calls := by
  induction calls with
  | nil => rfl
  | cons c calls ih =>
    cases c with
    | createRun id now =>
      rw [created, List.map_cons, id_after, ih]
      rfl
    | completeRun _ _ _ => exact ih
    | setOutputHash _ _ => exact ih
    | deleteOutputHash _ => exact ih

/-- A run that was created is there as the calls behind its creation leave it. -/
theorem mem_created {id : Text} {now : Int} (before after : List StoreCall) :
    Run.after { id, startedAt := now } after ∈ created (before ++ createRun id now :: after) := by
  induction before with
  | nil => exact List.mem_cons_self ..
  | cons c before ih =>
    cases c with
    | createRun _ _ => exact List.mem_cons_of_mem _ ih
    | completeRun _ _ _ => exact ih
    | setOutputHash _ _ => exact ih
    | deleteOutputHash _ => exact ih

/-! ### Digests -/

/-- A call leaves the digest that it is about, and the others as they were. -/
theorem hashOf_effect (c : StoreCall) (h : History) (path : Text) :
    (c.effect h).hashOf path = (digest? path c).getD (h.hashOf path) := by
  cases c with
  | createRun _ _ => rfl
  | completeRun _ _ _ => rfl
  | setOutputHash other hash =>
    rw [effect, History.hashOf_setHash, digest?]
    simp only [eq_comm (a := path)]
    split <;> rfl
  | deleteOutputHash other =>
    rw [effect, History.hashOf_forgetHash, digest?]
    simp only [eq_comm (a := path)]
    split <;> rfl

/-- The digest after calls is the last one that they leave, or that of before. -/
theorem hashOf_effects (calls : List StoreCall) (h : History) (path : Text) :
    (calls.foldl effect h).hashOf path = (lastDigest? path calls).getD (h.hashOf path) := by
  induction calls generalizing h with
  | nil => rfl
  | cons c calls ih =>
    rw [List.foldl_cons, ih, hashOf_effect, lastDigest?, lastDigest?, getLast?_filterMap_cons,
      Option.getD_or]

end StoreCall

/-! ## What is told -/

namespace Store

variable {s : Store} {t : FileTree} {h : History} (hreached : s.reached? t = some h)

include hreached

theorem getRun_eq (id : Text) : s.getRun t false id =
    match h.run? id with
    | some r => .ok r
    | none => .error (.runNotFound id) := by
  unfold getRun
  rw [history_eq_ok.2 hreached]
  rfl

theorem listRuns_eq (limit : Int) : s.listRuns t false limit = .ok (h.recent limit) := by
  unfold listRuns
  rw [history_eq_ok.2 hreached]
  rfl

end Store

/-- What a store tells that has been changed by calls since it held a history. -/
structure Tells (h : History) (calls : List StoreCall) (x : Store × FileTree) : Prop where
  /-- A run that was not created is not found, and its outcome cannot be recorded. -/
  unknown (id : Text) : id ∉ h.runs.map Run.id ++ createdIds calls →
    x.1.getRun x.2 false id = .error (.runNotFound id) ∧ ∀ now outcome,
      (completeRun id now outcome).act x.1 x.2 = .error (.runNotFound id) ∧
        perform x (completeRun id now outcome) = x
  /-- A run of before is told with its last completion. -/
  earlier (r : Run) : r ∈ h.runs → x.1.getRun x.2 false r.id = .ok (r.after calls)
  /-- A run that was created is told with its start, and with its last completion or as running. -/
  created (before after : List StoreCall) (id : Text) (now : Int) :
    calls = before ++ createRun id now :: after →
      x.1.getRun x.2 false id = .ok (Run.after { id, startedAt := now } after)
  /-- All runs are listed once, the latest start first, and those that started together in the
  reverse order of their creation; a positive limit cuts the list. -/
  listed : ∃ runs : List Run,
    runs.Perm (h.runs.map (·.after calls) ++ StoreCall.created calls) ∧
    runs.Pairwise (fun a b => b.startedAt ≤ a.startedAt) ∧
    (∀ time, runs.filter (fun r => r.startedAt = time) =
      ((h.runs.map (·.after calls) ++ StoreCall.created calls).filter
        fun r => r.startedAt = time).reverse) ∧
    ∀ limit, x.1.listRuns x.2 false limit =
      .ok (if limit ≤ 0 then runs else runs.take limit.toNat)
  /-- A digest is the last one that was recorded or forgotten. -/
  digest (path : Text) :
    x.1.outputHash x.2 false path = .ok ((lastDigest? path calls).getD (h.hashOf path))
  /-- A call about digests does not affect what is told of runs. -/
  runsApart (c : StoreCall) : c.isAboutRuns = false →
    (∀ id, (perform x c).1.getRun (perform x c).2 false id = x.1.getRun x.2 false id) ∧
      ∀ limit, (perform x c).1.listRuns (perform x c).2 false limit = x.1.listRuns x.2 false limit
  /-- A call about runs does not affect what is told of digests. -/
  digestsApart (c : StoreCall) : c.isAboutRuns = true → ∀ path,
    (perform x c).1.outputHash (perform x c).2 false path = x.1.outputHash x.2 false path

/-- What a store tells after calls is told by its history and the calls, if no two runs have one
name. -/
theorem tells_performAll {x : Store × FileTree} {h : History} (hx : x.1.reached? x.2 = some h)
    {calls : List StoreCall} (hids : (h.runs.map Run.id ++ createdIds calls).Nodup) :
    Tells h calls (performAll calls x) := by
  have hreached := reached?_performAll hx calls
  have hruns := runs_effects calls h
  -- Calls change what is held in a run but not its name, and add the created runs at the end.
  have hnames : (calls.foldl effect h).runs.map Run.id = h.runs.map Run.id ++ createdIds calls := by
    rw [hruns, List.map_append, List.map_map, map_id_created]
    congr 1
    exact List.map_congr_left fun r _ => id_after r calls
  have hfound : ∀ r ∈ (calls.foldl effect h).runs,
      (performAll calls x).1.getRun (performAll calls x).2 false r.id = .ok r := by
    intro r hr
    rw [Store.getRun_eq hreached, History.run?_of_mem (hnames ▸ hids) hr]
  constructor
  case unknown =>
    intro id hid
    rw [← hnames] at hid
    refine ⟨?_, fun now outcome => ?_⟩
    · rw [Store.getRun_eq hreached, History.run?_eq_none hid]
    · have hact := act_completeRun_unknown hreached hid now outcome
      exact ⟨hact, by rw [perform, hact]⟩
  case earlier =>
    intro r hr
    have hmem : r.after calls ∈ (calls.foldl effect h).runs :=
      hruns ▸ List.mem_append_left _ (List.mem_map_of_mem hr)
    simpa using hfound _ hmem
  case created =>
    rintro before after id now rfl
    have hmem : Run.after { id, startedAt := now } after ∈
        ((before ++ createRun id now :: after).foldl effect h).runs :=
      hruns ▸ List.mem_append_right _ (mem_created before after)
    simpa using hfound _ hmem
  case listed =>
    have hspec := (calls.foldl effect h).latestFirst_spec
    rw [hruns] at hspec
    exact ⟨_, hspec.1, hspec.2.1, hspec.2.2, Store.listRuns_eq hreached⟩
  case digest =>
    intro path
    exact Store.outputHash_eq_ok.2 ⟨_, hreached, hashOf_effects calls h path⟩
  case runsApart =>
    intro c hc
    have hstep := reached?_perform hreached c
    have hsame := runs_effect hc (calls.foldl effect h)
    refine ⟨fun id => ?_, fun limit => ?_⟩
    · rw [Store.getRun_eq hstep, Store.getRun_eq hreached, History.run?, History.run?, hsame]
    · rw [Store.listRuns_eq hstep, Store.listRuns_eq hreached, History.recent, History.recent,
        History.latestFirst, History.latestFirst, hsame]
  case digestsApart =>
    intro c hc path
    have hstep := reached?_perform hreached c
    rw [Store.outputHash_eq_ok.2 ⟨_, hstep, rfl⟩, Store.outputHash_eq_ok.2 ⟨_, hreached, rfl⟩,
      History.hashOf, History.hashOf, hashes_effect hc]

/-- A store that has been opened holds a history, and after any calls, at any times, it tells what
these make of it, if no two runs have one name. -/
theorem opened_store_tells {t u : FileTree} {cwd path : Text} {s : Store}
    (hcwd : Path.isAbsolute cwd = true) (hopen : Store.open? t cwd path = (.ok s, u)) :
    ∃ h, s.reached? u = some h ∧ ∀ calls,
      (h.runs.map Run.id ++ createdIds calls).Nodup → Tells h calls (performAll calls (s, u)) := by
  obtain ⟨h, hreached⟩ := (Store.at?_of_open hcwd hopen).1
  exact ⟨h, hreached, fun calls hids => tells_performAll (x := (s, u)) hreached hids⟩

/-- Three runs, of which the second starts earlier than the first and the third with it. The first
one is completed twice, the third one not, and one that is not there is completed in between. -/
def entangledCalls : List StoreCall :=
  [.createRun (lit "one") 7, .createRun (lit "two") 5,
    .completeRun (lit "one") 9 { status := .failed, files := 2, error := lit "e" },
    .setOutputHash (lit "a.js") (lit "00"), .completeRun (lit "none") 10 { status := .completed },
    .createRun (lit "three") 7, .completeRun (lit "two") 6 { status := .completed, files := 1 },
    .completeRun (lit "one") 12 { status := .completed, files := 2, written := 2 },
    .deleteOutputHash (lit "b.js")]

/-- The first run is told with its last completion and the third one as running, and of the two that
started together the one that was created last is listed first. -/
theorem entangledCalls_told : ∃ s : Store,
    Store.open? {} (lit "/p") Store.inMemory = (.ok s, {}) ∧
      let x := performAll entangledCalls (s, {})
      x.1.getRun x.2 false (lit "one") = .ok ⟨lit "one", 7, some 12, .completed, 2, 2, 0, []⟩ ∧
      x.1.getRun x.2 false (lit "three") = .ok { id := lit "three", startedAt := 7 } ∧
      x.1.getRun x.2 false (lit "none") = .error (.runNotFound (lit "none")) ∧
      x.1.outputHash x.2 false (lit "a.js") = .ok (lit "00") ∧
      ∃ runs, x.1.listRuns x.2 false 0 = .ok runs ∧ runs.length = 3 ∧
        (runs.filter fun r => r.startedAt = 7).map Run.id = [lit "three", lit "one"] := by
  have hopen : Store.open? {} (lit "/p") Store.inMemory =
      (.ok ⟨Store.inMemory, .memory (.ready {}), false⟩, {}) := rfl
  obtain ⟨h, hreached, htells⟩ := opened_store_tells (by decide) hopen
  obtain rfl : ({} : History) = h := Option.some.inj hreached
  have htold := htells entangledCalls (by decide)
  obtain ⟨runs, hperm, -, htogether, hlisted⟩ := htold.listed
  refine ⟨_, hopen, htold.created [] _ (lit "one") 7 rfl,
    htold.created (entangledCalls.take 5) _ (lit "three") 7 rfl,
    (htold.unknown (lit "none") (by decide)).1, htold.digest (lit "a.js"), runs, hlisted 0,
    hperm.length_eq, ?_⟩
  rw [htogether 7]
  decide +kernel

end CubeSchema
