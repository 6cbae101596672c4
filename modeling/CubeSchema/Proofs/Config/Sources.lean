import CubeSchema.Config.Load
import CubeSchema.Proofs.FileTree.Sparing

/-!
# The same list from two sources

The list of manifests may be written as one text in the configuration file or in a variable of the
environment. Each source splits the text at its commas, but only that of the environment trims the
parts and drops empty ones. `load_manifests` says what either source gives while all else is the
same, and for which texts they give the same: those whose parts are neither empty nor have white
space at their ends.

Settings are laid over each other in layers. What is set by one name depends on the settings of that
name alone, in every layer (`named_override`); so the settings of the list are told apart from all
others, which are the same in both cases.
-/

namespace CubeSchema

/-! ## Layers of settings -/

namespace Settings

/-- The name of the setting that lists the manifests. -/
abbrev manifests : Text := lit "symbols"

/-- The settings of some names. -/
def named (p : Text → Bool) (s : Settings) : Settings := s.filter fun e => p e.1

/-- The settings of some names come from the settings of these names in both layers. -/
theorem named_override (p : Text → Bool) (s later : Settings) :
    named p (override s later) = override (named p s) (named p later) := by
  induction later generalizing s with
  | nil => rfl
  | cons e later ih =>
    have hstep : ∀ s, override s (e :: later) = override (Yaml.Value.set s e.1 e.2) later :=
      fun _ => rfl
    have hset : named p (Yaml.Value.set s e.1 e.2) =
        if p e.1 then Yaml.Value.set (named p s) e.1 e.2 else named p s := by
      unfold Yaml.Value.set named
      rw [List.filter_append, List.filter_filter, List.filter_filter]
      split
      · rename_i hp
        simp [hp, Bool.and_comm]
      · rename_i hp
        have hone : [e].filter (fun e => p e.1) = [] := by simp [hp]
        rw [show [(e.1, e.2)] = [e] from rfl, hone, List.append_nil]
        -- A name that is not one of these is not among them.
        refine List.filter_congr fun x _ => ?_
        by_cases hx : x.1 = e.1
        · simp [hx, hp]
        · simp [hx]
    rw [hstep, ih, hset]
    unfold named
    rw [List.filter_cons]
    split <;> rfl

/-- A setting is found among the settings of some names if its name is one of them. -/
theorem lookup_named {p : Text → Bool} {k : Text} (hk : p k = true) (s : Settings) :
    (named p s).lookup k = s.lookup k := by
  induction s with
  | nil => rfl
  | cons e s ih =>
    obtain ⟨key, v⟩ := e
    unfold named at ih ⊢
    rw [FileTree.lookup_cons_eq, List.filter_cons]
    by_cases hkey : p key = true
    · rw [if_pos hkey, FileTree.lookup_cons_eq, ih]
    · have hne : k ≠ key := fun heq => hkey (heq ▸ hk)
      rw [if_neg hkey, if_neg hne, ih]

/-- The list of manifests alone. -/
abbrev isManifests (k : Text) : Bool := k = manifests

/-- All settings but the list of manifests. -/
abbrev isOther (k : Text) : Bool := k ≠ manifests

/-- The settings of a configuration file, an environment and flags. -/
def layered (file : Settings) (env : List (Text × Text)) (flags : FlagValues) : Settings :=
  ((defaults.override file).override (ofEnvironment env)).override (ofFlags flags)

/-- What later settings say does not depend on the settings they replace. -/
theorem lookup_override_congr {k : Text} {s s' later : Settings}
    (h : (∃ e ∈ later, e.1 = k) ∨ s.lookup k = s'.lookup k) :
    (override s later).lookup k = (override s' later).lookup k := by
  induction later generalizing s s' with
  | nil =>
    rcases h with ⟨e, he, -⟩ | h
    · cases he
    · exact h
  | cons e later ih =>
    refine ih ?_
    unfold Yaml.Value.set
    rw [FileTree.lookup_replaced, FileTree.lookup_replaced]
    rcases h with ⟨x, hx, hkey⟩ | h
    · rcases List.mem_cons.1 hx with rfl | hx
      · exact .inr (by rw [if_pos hkey.symm, if_pos hkey.symm])
      · exact .inl ⟨x, hx, hkey⟩
    · exact .inr (by rw [h])

/-! ## The variable of the list -/

/-- The settings of the variables, in the order in which they count. -/
def ofVariables (env : List (Text × Text)) : Settings :=
  ((environmentSettings env).filter (fun e => e.1.any (· = ascii '.')) ++
    (environmentSettings env).filter (fun e => !e.1.any (· = ascii '.'))).map
      fun e => ofVariable e.1 e.2

theorem ofEnvironment_eq (env : List (Text × Text)) :
    ofEnvironment env = override [] (ofVariables env) := by
  unfold ofEnvironment ofVariables
  rw [List.partition_eq_filter_filter]
  rfl

/-- The variable of the list sets the list, and nothing else. -/
theorem ofVariables_insert (env₁ env₂ : List (Text × Text)) (s : Text) :
    ∃ before behind, ofVariables (env₁ ++ env₂) = before ++ behind ∧
      ofVariables (env₁ ++ (lit "LEAPCUBE_SYMBOLS", s) :: env₂) =
        before ++ (manifests, ofTexts (listOf s)) :: behind := by
  have hmark : Text.after? environmentMark (lit "LEAPCUBE_SYMBOLS") = some (lit "SYMBOLS") := by
    decide
  have hkey : Text.folded (lit "SYMBOLS") = manifests := by decide
  have hsettings : environmentSettings (env₁ ++ (lit "LEAPCUBE_SYMBOLS", s) :: env₂) =
      environmentSettings env₁ ++ (manifests, s) :: environmentSettings env₂ := by
    unfold environmentSettings
    rw [List.filterMap_append, List.filterMap_cons_some]
    simp only [hmark]
    rfl
  have hsplit : environmentSettings (env₁ ++ env₂) =
      environmentSettings env₁ ++ environmentSettings env₂ := List.filterMap_append
  have hplain : manifests.any (· = ascii '.') = false := by decide
  have hvalue : ofVariable manifests s = (manifests, ofTexts (listOf s)) := rfl
  unfold ofVariables
  rw [hsettings, hsplit]
  simp only [List.filter_append, List.filter_cons, hplain, Bool.false_eq_true, if_false,
    Bool.not_false, if_true, List.map_append, List.map_cons, hvalue, ← List.append_assoc]
  exact ⟨_, _, rfl, rfl⟩

/-- The settings of some names come from those of these names in every layer. -/
theorem named_layered (p : Text → Bool) (file : Settings) (env : List (Text × Text))
    (flags : FlagValues) : named p (layered file env flags) =
      (((named p defaults).override (named p file)).override
        (override [] (named p (ofVariables env)))).override (named p (ofFlags flags)) := by
  rw [layered, named_override, named_override, named_override, ofEnvironment_eq, named_override]
  rfl

/-- No variable of an environment sets the list of manifests. -/
def Unlisted (env : List (Text × Text)) : Prop :=
  ∀ e ∈ environmentSettings env, (ofVariable e.1 e.2).1 ≠ manifests

theorem named_ofVariables_of_unlisted {env : List (Text × Text)} (h : Unlisted env) :
    named isManifests (ofVariables env) = [] := by
  refine List.filter_eq_nil_iff.2 fun x hx => ?_
  obtain ⟨e, he, rfl⟩ := List.mem_map.1 hx
  have hmem : e ∈ environmentSettings env := by
    rcases List.mem_append.1 he with he | he <;> exact (List.mem_filter.1 he).1
  simpa using h e hmem

theorem named_ofFlags_of_ne {flags : FlagValues} (h : ∀ f ∈ flags, keyOfFlag f.1 ≠ manifests) :
    named isManifests (ofFlags flags) = [] := by
  refine List.filter_eq_nil_iff.2 fun x hx => ?_
  obtain ⟨f, hf, rfl⟩ := List.mem_map.1 hx
  simpa using h f hf

section

variable {entries entries' : Settings} {env₁ env₂ : List (Text × Text)} {flags : FlagValues}
  {s : Text}

/-- The variable of the list does not change what is set by other names. -/
theorem layered_alike (env₁ env₂ : List (Text × Text)) (s : Text) (flags : FlagValues)
    (hsame : named isOther entries = named isOther entries') :
    named isOther (layered entries (env₁ ++ env₂) flags) =
      named isOther (layered entries' (env₁ ++ (lit "LEAPCUBE_SYMBOLS", s) :: env₂) flags) := by
  obtain ⟨before, behind, hwithout, hwith⟩ := ofVariables_insert env₁ env₂ s
  have hvariables : named isOther (ofVariables (env₁ ++ env₂)) =
      named isOther (ofVariables (env₁ ++ (lit "LEAPCUBE_SYMBOLS", s) :: env₂)) := by
    rw [hwithout, hwith]
    simp [named]
  rw [named_layered, named_layered, hsame, hvariables]

/-- A list that only the configuration file sets is what that file says. -/
theorem layered_file (hset : named isManifests entries = [(manifests, ofText s)])
    (henv : Unlisted (env₁ ++ env₂)) (hflags : ∀ f ∈ flags, keyOfFlag f.1 ≠ manifests) :
    (layered entries (env₁ ++ env₂) flags).get "symbols" = ofText s := by
  rw [get, ← lookup_named (p := isManifests) (by decide), named_layered, hset,
    named_ofVariables_of_unlisted henv, named_ofFlags_of_ne hflags]
  rfl

/-- A list that the environment sets is the one of its variable, whatever the configuration file
says. -/
theorem layered_variable (henv : Unlisted (env₁ ++ env₂))
    (hflags : ∀ f ∈ flags, keyOfFlag f.1 ≠ manifests) :
    (layered entries (env₁ ++ (lit "LEAPCUBE_SYMBOLS", s) :: env₂) flags).get "symbols" =
      ofTexts (listOf s) := by
  obtain ⟨before, behind, hwithout, hwith⟩ := ofVariables_insert env₁ env₂ s
  have hrest := named_ofVariables_of_unlisted henv
  rw [hwithout, named, List.filter_append, List.append_eq_nil_iff] at hrest
  have hone : named isManifests (ofVariables (env₁ ++ (lit "LEAPCUBE_SYMBOLS", s) :: env₂)) =
      [(manifests, ofTexts (listOf s))] := by
    rw [hwith, named, List.filter_append, List.filter_cons, hrest.1, hrest.2]
    rfl
  rw [get, ← lookup_named (p := isManifests) (by decide), named_layered, hone,
    named_ofFlags_of_ne hflags]
  change ((Yaml.Value.set _ manifests (ofTexts (listOf s))).lookup manifests).getD .null = _
  rw [Yaml.Value.set, FileTree.lookup_replaced, if_pos rfl]
  rfl

/-- Where a flag sets the list, neither the file nor the environment counts. -/
theorem layered_flag (hsame : named isOther entries = named isOther entries')
    (hflag : ∃ f ∈ flags, keyOfFlag f.1 = manifests) (name : String) :
    (layered entries (env₁ ++ env₂) flags).get name =
      (layered entries' (env₁ ++ (lit "LEAPCUBE_SYMBOLS", s) :: env₂) flags).get name := by
  rw [get, get]
  by_cases hname : lit name = manifests
  · obtain ⟨f, hf, hkey⟩ := hflag
    have hset : ∃ e ∈ ofFlags flags, e.1 = lit name :=
      ⟨_, List.mem_map_of_mem hf, hkey.trans hname.symm⟩
    rw [layered, layered, lookup_override_congr (.inl hset)]
  · have hother : isOther (lit name) = true := by simpa using hname
    rw [← lookup_named hother, layered_alike env₁ env₂ s flags hsame, lookup_named hother]

end

/-! ## A list in one text -/

/-- The comma separated parts of a text as they are written; an empty text has none. -/
def writtenParts (t : Text) : List Text :=
  if t.isEmpty then [] else Text.splitOn (ascii ',') t

theorem toTexts?_ofTexts (ts : List Text) : toTexts? (ofTexts ts) = some ts := by
  have hitems : (ts.map ofText).mapM toText? = some ts := by
    induction ts with
    | nil => rfl
    | cons t ts ih => simp [List.mapM_cons, ih, ofText, toText?]
  exact hitems

/-- What is mapped and filtered is the same list only if neither changes anything. -/
theorem filter_map_eq_self {l : List Text} {f : Text → Text} {p : Text → Bool} :
    (l.map f).filter p = l ↔ ∀ x ∈ l, f x = x ∧ p x = true := by
  have hmap : l.map f = l ↔ ∀ x ∈ l, f x = x := by
    conv => lhs; rhs; rw [← List.map_id l]
    exact List.map_inj_left
  constructor
  · intro h
    -- Nothing has been dropped, since the list would be shorter.
    have hall : (l.map f).filter p = l.map f := by
      refine List.filter_sublist.eq_of_length ?_
      rw [h, List.length_map]
    have hkept : l.map f = l := hall.symm.trans h
    rw [hkept, List.filter_eq_self] at hall
    exact fun x hx => ⟨hmap.1 hkept x hx, hall x hx⟩
  · intro h
    rw [hmap.2 fun x hx => (h x hx).1, List.filter_eq_self]
    exact fun x hx => (h x hx).2

/-- The parts as they are written are the trimmed ones if none is empty or has white space at its
ends. -/
theorem writtenParts_eq_listOf {t : Text} : writtenParts t = listOf t ↔
    t = [] ∨ ∀ part ∈ Text.splitOn (ascii ',') t, Text.trimSpace part = part ∧ part ≠ [] := by
  cases t with
  | nil => simp [writtenParts, show listOf [] = [] by decide]
  | cons b t =>
    have hparts : ∀ part : Text, (!part.isEmpty) = true ↔ part ≠ [] := by simp
    rw [writtenParts, if_neg (by simp), eq_comm, listOf, filter_map_eq_self]
    simp only [reduceCtorEq, false_or, hparts]

end Settings

/-! ## Configurations from settings -/

namespace Config

open Settings

/-- Settings that differ in the list of manifests describe configurations that differ in it. -/
theorem config?_of_named {s s' : Settings} (h : named isOther s = named isOther s')
    {ts : List Text} (hts : toTexts? (s.get "symbols") = some ts)
    (hts' : (toTexts? (s'.get "symbols")).isSome = true) :
    s.config? = s'.config?.map fun c => { c with symbols := ts } := by
  have hget : ∀ name, isOther (lit name) = true → s.get name = s'.get name := by
    intro name hname
    rw [Settings.get, Settings.get, ← lookup_named hname s, h, lookup_named hname]
  obtain ⟨ts', hts'⟩ := Option.isSome_iff_exists.1 hts'
  unfold config?
  rw [hts, hts', hget "schema_dir" (by decide), hget "out_dir" (by decide),
    hget "concurrency" (by decide), hget "state_path" (by decide), hget "no_state" (by decide),
    hget "verbose" (by decide), hget "log_level" (by decide), hget "output" (by decide),
    hget "-" (by decide)]
  simp only [Option.bind_eq_bind, Option.bind_some, Option.map_bind, Function.comp_def,
    Option.pure_def, Option.map_some]

/-- What becomes of the configuration that settings describe. -/
def settled (flags : FlagValues) (cwd root : Text) : Option Config → Except ConfigError Config
  | none => .error .undecodable
  | some c =>
    match (c.resolveAll flags cwd root).fault? cwd with
    | some f => .error (.invalid f)
    | none => .ok (c.resolveAll flags cwd root)

theorem load_eq {t : FileTree} {cwd named path : Text} {file : Settings}
    (hused : fileUsed? t cwd named = some path) (hfile : fileSettings t cwd path = .ok file)
    (env : List (Text × Text)) (flags : FlagValues) : load t cwd env named flags =
      settled flags cwd (Path.dir (Path.absolute cwd path))
        (layered file env flags).config? := by
  unfold load
  rw [hused]
  simp only [hfile]
  rfl

/-- Nothing but the list itself depends on the list of manifests, and its names are read from the
directory of the configuration file unless a flag sets it. -/
theorem settled_map {flags : FlagValues} (hflags : flags.lookup "symbols" = none)
    (cwd root : Text) (ts : List Text) (c : Option Config) :
    settled flags cwd root (c.map fun c => { c with symbols := ts }) =
      (settled flags cwd root c).map
        fun c => { c with symbols := ts.map (resolve root) } := by
  cases c with
  | none => rfl
  | some c =>
    have hresolve : ({ c with symbols := ts } : Config).resolveAll flags cwd root =
        { c.resolveAll flags cwd root with symbols := ts.map (resolve root) } := by
      simp [resolveAll, hflags]
    have hfault : (({ c with symbols := ts } : Config).resolveAll flags cwd root).fault? cwd =
        (c.resolveAll flags cwd root).fault? cwd := by
      rw [hresolve]
      rfl
    simp only [settled, Option.map_some, hfault]
    split
    · rfl
    · rw [hresolve]
      rfl

/-- A list of manifests in one text gives its parts as they are written if the configuration file
sets it, and its trimmed parts without empty ones if a variable does, where all else is the same;
both are read from the directory of the file. The two are the same list exactly if no part is empty
or has white space at its ends, but for the empty text. A flag that sets the list outweighs both. -/
theorem load_manifests {t t' : FileTree} {cwd name path : Text} {entries entries' : Settings}
    {env₁ env₂ : List (Text × Text)} {flags : FlagValues} {s : Text}
    (hused : fileUsed? t cwd name = some path) (hused' : fileUsed? t' cwd name = some path)
    (hfile : fileSettings t cwd path = .ok entries)
    (hfile' : fileSettings t' cwd path = .ok entries')
    (hset : entries.filter (fun e => e.1 = manifests) = [(manifests, ofText s)])
    (hsame : entries.filter (fun e => e.1 ≠ manifests) =
      entries'.filter (fun e => e.1 ≠ manifests))
    (henv : Unlisted (env₁ ++ env₂)) :
    let root := Path.dir (Path.absolute cwd path)
    let fromFile := load t cwd (env₁ ++ env₂) name flags
    let fromVariable := load t' cwd (env₁ ++ (lit "LEAPCUBE_SYMBOLS", s) :: env₂) name flags
    ((∀ f ∈ flags, keyOfFlag f.1 ≠ manifests) →
      fromFile = fromVariable.map (fun c =>
        { c with symbols := (writtenParts s).map (resolve root) }) ∧
      fromVariable = fromFile.map (fun c =>
        { c with symbols := (listOf s).map (resolve root) }) ∧
      (writtenParts s = listOf s → fromFile = fromVariable)) ∧
    (writtenParts s = listOf s ↔
      s = [] ∨ ∀ part ∈ Text.splitOn (ascii ',') s, Text.trimSpace part = part ∧ part ≠ []) ∧
    ((∃ f ∈ flags, keyOfFlag f.1 = manifests) → fromFile = fromVariable) := by
  intro root fromFile fromVariable
  have hload := load_eq hused hfile (env₁ ++ env₂) flags
  have hload' := load_eq hused' hfile' (env₁ ++ (lit "LEAPCUBE_SYMBOLS", s) :: env₂) flags
  have halike := layered_alike env₁ env₂ s flags hsame
  refine ⟨fun hflags => ?_, writtenParts_eq_listOf, fun hflag => ?_⟩
  · have hnoflag : flags.lookup "symbols" = none := by
      rw [List.lookup_eq_none_iff]
      intro f hf
      rw [bne_iff_ne]
      intro heq
      exact hflags f hf (by rw [← heq]; decide)
    have hwritten : toTexts? ((layered entries (env₁ ++ env₂) flags).get "symbols") =
        some (writtenParts s) := by
      rw [layered_file hset henv hflags]
      rfl
    have hlisted : toTexts? ((layered entries'
        (env₁ ++ (lit "LEAPCUBE_SYMBOLS", s) :: env₂) flags).get "symbols") =
          some (listOf s) := by
      rw [layered_variable henv hflags, toTexts?_ofTexts]
    have hfromFile : fromFile = fromVariable.map fun c =>
        { c with symbols := (writtenParts s).map (resolve root) } := by
      rw [show fromFile = _ from hload, show fromVariable = _ from hload',
        config?_of_named halike hwritten (by rw [hlisted]; rfl), settled_map hnoflag]
    have hfromVariable : fromVariable = fromFile.map fun c =>
        { c with symbols := (listOf s).map (resolve root) } := by
      rw [show fromFile = _ from hload, show fromVariable = _ from hload',
        config?_of_named halike.symm hlisted (by rw [hwritten]; rfl), settled_map hnoflag]
    refine ⟨hfromFile, hfromVariable, fun hparts => ?_⟩
    -- Setting the same list once more changes nothing.
    rw [hfromFile, hparts, hfromVariable]
    cases fromFile <;> rfl
  · have hconfig : (layered entries (env₁ ++ env₂) flags).config? =
        (layered entries' (env₁ ++ (lit "LEAPCUBE_SYMBOLS", s) :: env₂) flags).config? := by
      simp only [config?, layered_flag (s := s) hsame hflag]
    rw [show fromFile = _ from hload, show fromVariable = _ from hload', hconfig]

/-! ## A directory with a configuration file -/

/-- A directory with a configuration file and nothing else. -/
def configured (content : Text) : FileTree :=
  ⟨[([lit "p"], .directory), ([lit "p", lit "leapcube.yaml"], .file content)]⟩

/-- The text that a setting is. -/
def textOf? : Yaml.Value → Option Text
  | .scalar (.text t) => some t
  | _ => none

theorem eq_ofText_of_textOf? {v : Yaml.Value} {t : Text} (h : textOf? v = some t) :
    v = ofText t := by
  unfold textOf? at h
  split at h
  · rw [← Option.some.inj h]
    rfl
  · cases h

/-- Settings all of which are texts are told by these texts, which can be compared. -/
theorem eq_ok_of_texts {r : Except ConfigError Settings} (texts : List (Text × Text))
    (h : r.toOption.map (fun s => s.map fun e => (e.1, textOf? e.2)) =
      some (texts.map fun e => (e.1, some e.2))) :
    r = .ok (texts.map fun e => (e.1, ofText e.2)) := by
  cases r with
  | error e => cases h
  | ok s =>
    have hpairs : s.map (fun e => (e.1, textOf? e.2)) = texts.map fun e => (e.1, some e.2) :=
      Option.some.inj h
    clear h
    refine congrArg Except.ok ?_
    induction s generalizing texts with
    | nil =>
      rw [List.map_nil, eq_comm, List.map_eq_nil_iff] at hpairs
      rw [hpairs, List.map_nil]
    | cons e s ih =>
      cases texts with
      | nil => cases hpairs
      | cons x texts =>
        rw [List.map_cons, List.map_cons, List.cons.injEq, Prod.mk.injEq] at hpairs
        rw [List.map_cons, ih texts hpairs.2, ← hpairs.1.1,
          ← eq_ofText_of_textOf? hpairs.1.2]

/-- The list of a variable is that of the file without the space and the empty part; all else is the
same. -/
theorem load_manifests_spaced :
    let env := [(lit "LEAPCUBE_OUT_DIR", lit "built")]
    let flags : FlagValues := [("state", .text (lit "s.db"))]
    let fromFile := load (configured (lit "output: json\nsymbols: a, b,")) (lit "/p") env [] flags
    fromFile.toOption.map (·.symbols) = some [lit "/p/a", lit "/p/ b", []] ∧
      load (configured (lit "output: json")) (lit "/p")
          (env ++ [(lit "LEAPCUBE_SYMBOLS", lit "a, b,")]) [] flags =
        fromFile.map fun c => { c with symbols := [lit "/p/a", lit "/p/b"] } := by
  have hfile : fileSettings (configured (lit "output: json\nsymbols: a, b,")) (lit "/p")
      (lit "/p/leapcube.yaml") =
        .ok [(lit "output", ofText (lit "json")), (manifests, ofText (lit "a, b,"))] :=
    eq_ok_of_texts [(lit "output", lit "json"), (manifests, lit "a, b,")] (by decide +kernel)
  have hfile' : fileSettings (configured (lit "output: json")) (lit "/p")
      (lit "/p/leapcube.yaml") = .ok [(lit "output", ofText (lit "json"))] :=
    eq_ok_of_texts [(lit "output", lit "json")] (by decide +kernel)
  obtain ⟨hlists, -, -⟩ := @load_manifests _ _ _ [] _ _ _ [(lit "LEAPCUBE_OUT_DIR", lit "built")]
    [] [("state", .text (lit "s.db"))] _ (by decide +kernel) (by decide +kernel) hfile hfile'
    rfl rfl (by unfold Unlisted; decide)
  exact ⟨by decide +kernel, (hlists (by decide)).2.1⟩

/-- The list `a, b` is another one in the configuration file than in the environment: the second
name keeps its space there. -/
theorem spaced_list_of_file :
    (load (configured (lit "symbols: a, b")) (lit "/p") [] [] []).toOption.map (·.symbols) =
      some [lit "/p/a", lit "/p/ b"] ∧
    (load (configured []) (lit "/p") [(lit "LEAPCUBE_SYMBOLS", lit "a, b")] [] []).toOption.map
      (·.symbols) = some [lit "/p/a", lit "/p/b"] := by
  decide +kernel

end Config

end CubeSchema
