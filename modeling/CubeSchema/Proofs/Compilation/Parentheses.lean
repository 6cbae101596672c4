import CubeSchema.Proofs.Compilation.References
import CubeSchema.Proofs.Deferral.Parentheses

/-!
# Parentheses that make no difference

A cube is registered by the kinds of the nodes that declare it, so parentheses around its name, its
body or a block of its members hide them. `Node.showsCube` says that nothing is hidden. Then a
source declares the same cubes without its parentheses, and if nothing is hidden from the pass
either, the compiled source is the same too (`strip_irrelevant`).
-/

namespace CubeSchema

open Deferral Node

namespace Node

/-! ## What parentheses hide -/

/-- Whether a node is an object in parentheses. -/
def hidesObject (n : Node) : Bool := n.kind = .paren && n.peeled.kind = .object

/-- Whether a node is no block of members in parentheses. -/
def showsMembers : Node → Bool
  | property pos key value computed shorthand =>
    ((memberName? (property pos key value computed shorthand)).bind memberBlock?).isNone ||
      !value.hidesObject
  | _ => true

/-- Whether a body and its blocks of members are not in parentheses. -/
def showsBody : Node → Bool
  | object _ members => members.all showsMembers
  | n => !n.hidesObject

/-- Whether parentheses hide nothing of a cube or a view: a call declares a name exactly if it does
so without the parentheses around its parts, and its body shows the members. -/
def showsCube : Node → Bool
  | call callee args optional =>
    (call callee.peeled (args.map peeled) optional).declares? =
        (call callee args optional).declares? &&
      ((call callee args optional).declares?.isNone || args.getLast?.all showsBody)
  | _ => true

/-! ## Declared members -/

/-- Whether a key that is not computed is not in parentheses. -/
def isPlainlyKeyed : Node → Bool
  | property _ key _ false _ => key.kind ≠ .paren
  | _ => true

theorem isPlainlyKeyed_of_isLeaf {n : Node} (h : n.isLeaf = true) : n.isPlainlyKeyed = true := by
  cases n <;> first | rfl | simp [isLeaf] at h

theorem memberName?_strip {n : Node} (hkey : n.isPlainlyKeyed = true)
    (hfits : n.fits .objectMember = true) : n.strip.memberName? = n.memberName? := by
  cases n with
  | property pos key value computed shorthand =>
    cases computed with
    | true =>
      have hnone : ∀ k v, memberName? (property pos k v true shorthand) = none :=
        fun k v => by cases k <;> rfl
      rw [strip, hnone, hnone]
    | false => cases key <;> first | rfl | simp [isPlainlyKeyed, kind] at hkey
  | spread pos x => rfl
  | _ => simp [fits, kind] at hfits

/-- Whether the keys and the children of a node are such as a source can have them. -/
def isOrderly (n : Node) : Bool := n.isTyped && n.isPlainlyKeyed

/-- A node that hides no object is an object exactly if it is one without parentheses. -/
theorem kind_strip_ne_object {n : Node} (h : n.hidesObject = false) (hn : n.kind ≠ .object) :
    n.strip.kind ≠ .object := by
  rw [kind_strip]
  by_cases hparen : n.kind = .paren
  · simpa [hidesObject, hparen] using h
  · rwa [peeled_of_kind_ne hparen]

theorem blockMembers_of_kind_ne {pos : Position} {key value : Node} {computed shorthand : Bool}
    (h : value.kind ≠ .object) : (property pos key value computed shorthand).blockMembers = [] := by
  cases value <;> first | rfl | exact absurd rfl h

theorem blockMembers_of_no_block {pos : Position} {key value : Node} {computed shorthand : Bool}
    (h : (memberName? (property pos key value computed shorthand)).bind memberBlock? = none) :
    (property pos key value computed shorthand).blockMembers = [] := by
  cases value <;> first | rfl | rw [blockMembers, h]

/-- The members of an object have the same names without parentheses. -/
theorem memberNames_strip {pos : Position} {members : List Node}
    (hall : (object pos members).all isOrderly = true) :
    (stripAll members).map memberName? = members.map memberName? := by
  have hnodes := all_eq_true.1 hall
  have hfits : members.all (·.fits .objectMember) = true :=
    (Bool.and_eq_true_iff.1 (hnodes _ (List.mem_cons_self ..))).1
  rw [stripAll_eq_map, List.map_map]
  refine List.map_congr_left fun m hm => ?_
  have hmfits := List.all_eq_true.1 hfits m hm
  have hself : m.isAbsent = false := by cases m <;> first | rfl | simp [fits, kind] at hmfits
  have horderly := hnodes m (List.mem_cons_of_mem _ (mem_nodesAll hm (mem_nodes_self hself)))
  exact memberName?_strip (Bool.and_eq_true_iff.1 horderly).2 hmfits

/-- A property declares the same members without parentheses. -/
theorem blockMembers_strip {n : Node} (hall : n.all isOrderly = true)
    (hfits : n.fits .objectMember = true) (hshows : n.showsMembers = true) :
    n.strip.blockMembers = n.blockMembers := by
  cases n with
  | property pos key value computed shorthand =>
    have hnodes := all_eq_true.1 hall
    have hname := memberName?_strip (n := .property pos key value computed shorthand)
      (Bool.and_eq_true_iff.1 (hnodes _ (List.mem_cons_self ..))).2 hfits
    rw [strip] at hname ⊢
    by_cases hvalue : value.kind = .object
    · cases value <;> simp only [kind, reduceCtorEq] at hvalue
      rename_i opos members
      have hobject : (object opos members).all isOrderly = true :=
        all_eq_true.2 fun m hm => hnodes m (List.mem_append_right _ hm)
      have hnames := memberNames_strip hobject
      rw [strip] at hname ⊢
      rw [blockMembers, blockMembers, hname]
      split
      · rename_i type _
        have hmembers := congrArg
          (List.filterMap fun name : Option Text => name.map fun name => (name, type)) hnames
        rwa [List.filterMap_map, List.filterMap_map] at hmembers
      · rfl
    · -- No block, or a value that is an object neither with parentheses nor without.
      rcases Bool.or_eq_true_iff.1 hshows with hblock | hhides
      · rw [Option.isNone_iff_eq_none] at hblock
        rw [blockMembers_of_no_block hblock, blockMembers_of_no_block (by rwa [hname])]
      · rw [blockMembers_of_kind_ne hvalue,
          blockMembers_of_kind_ne (kind_strip_ne_object (by simpa using hhides) hvalue)]
  | spread pos x => rfl
  | _ => simp [fits, kind] at hfits

/-- The members that the body of a cube or a view declares, if it is an object. -/
def bodyMembers? : Node → Option (List (Text × MemberType))
  | object _ members => some (members.flatMap blockMembers)
  | _ => none

theorem bodyMembers?_of_kind_ne {n : Node} (h : n.kind ≠ .object) : n.bodyMembers? = none := by
  cases n <;> first | rfl | exact absurd rfl h

/-- A body declares the same members without parentheses. -/
theorem bodyMembers?_strip {n : Node} (hall : n.all isOrderly = true)
    (hshows : n.showsBody = true) : n.strip.bodyMembers? = n.bodyMembers? := by
  by_cases hobject : n.kind = .object
  · cases n <;> simp only [kind, reduceCtorEq] at hobject
    rename_i pos members
    have hnodes := all_eq_true.1 hall
    have hfits : members.all (·.fits .objectMember) = true :=
      (Bool.and_eq_true_iff.1 (hnodes _ (List.mem_cons_self ..))).1
    have hmembers : ∀ m ∈ members, m.strip.blockMembers = m.blockMembers := fun m hm =>
      blockMembers_strip
        (all_eq_true.2 fun x hx => hnodes x (List.mem_cons_of_mem _ (mem_nodesAll hm hx)))
        (List.all_eq_true.1 hfits m hm) (List.all_eq_true.1 hshows m hm)
    rw [strip, bodyMembers?, bodyMembers?, stripAll_eq_map, List.flatMap_map,
      List.flatMap_congr hmembers]
  · have hhides : n.hidesObject = false := by
      cases n <;> first | simpa [showsBody] using hshows | exact absurd rfl hobject
    rw [bodyMembers?_of_kind_ne hobject,
      bodyMembers?_of_kind_ne (kind_strip_ne_object hhides hobject)]

/-! ## Declared cubes -/

theorem declaration?_eq (file : Text) (n : Node) :
    n.declaration? file = n.declares?.bind fun d =>
      (n.lastArg?.bind bodyMembers?).map fun members =>
        Cube.addMembers { name := d.1, isView := d.2, file } members := by
  unfold Node.declaration?
  cases n.declares? with
  | none => rfl
  | some d =>
    cases n.lastArg? with
    | none => rfl
    | some body => cases body <;> rfl

/-- A call declares a name without parentheses exactly if it does so without those around its parts.
-/
theorem declares?_strip (callee : Node) (args : List Node) (optional : Bool) :
    (call callee.strip (stripAll args) optional).declares? =
      (call callee.peeled (args.map peeled) optional).declares? := by
  have hname := callee.name?_strip
  cases hstrip : callee.strip <;> cases hpeeled : callee.peeled <;>
    simp only [hstrip, hpeeled, name?, reduceCtorEq, Option.some.injEq] at hname <;>
    first
    | rfl
    | (obtain rfl := hname
       rcases args with _ | ⟨first, _ | ⟨second, rest⟩⟩ <;>
         simp [stripAll, declares?, staticName_strip])

/-- A node declares the same cube without parentheses. -/
theorem declaration?_strip {n : Node} (file : Text) (hall : n.all isOrderly = true)
    (hshows : n.showsCube = true) (hkind : n.kind ≠ .paren) :
    n.strip.declaration? file = n.declaration? file := by
  cases n with
  | call callee args optional =>
    rw [showsCube, Bool.and_eq_true, decide_eq_true_eq] at hshows
    obtain ⟨hdeclares, hbody⟩ := hshows
    rw [strip, declaration?_eq, declaration?_eq, declares?_strip, hdeclares]
    cases hd : (call callee args optional).declares? with
    | none => rfl
    | some d =>
      rw [hd, Option.isNone_some, Bool.false_or] at hbody
      have hmembers : (stripAll args).getLast?.bind bodyMembers? =
          args.getLast?.bind bodyMembers? := by
        rw [stripAll_eq_map, List.getLast?_map]
        cases hlast : args.getLast? with
        | none => rfl
        | some body =>
          have hnodes : ∀ m ∈ body.nodes, m.isOrderly = true := fun m hm =>
            all_eq_true.1 hall m
              (List.mem_append_right _ (mem_nodesAll (List.mem_of_getLast? hlast) hm))
          rw [hlast] at hbody
          exact bodyMembers?_strip (all_eq_true.2 hnodes) (by simpa using hbody)
      rw [lastArg?, lastArg?, hmembers]
  | paren pos x => exact absurd rfl hkind
  | _ => rfl

/-- A tree declares the same cubes without its parentheses. -/
theorem declarations_strip {n : Node} (file : Text) (hall : n.all isOrderly = true)
    (hshows : n.all showsCube = true) : n.strip.declarations file = n.declarations file := by
  rw [declarations_eq, declarations_eq, nodes_strip, List.filterMap_map, List.filterMap_filter]
  refine List.filterMap_congr fun m hm => ?_
  by_cases hparen : m.kind = .paren
  · -- Parentheses are left out on one side, and declare nothing on the other.
    cases m <;> simp only [kind, reduceCtorEq] at hparen
    rfl
  · rw [if_pos (by simpa using hparen)]
    rw [← all_all] at hall
    exact declaration?_strip file (all_eq_true.1 hall m hm) (all_eq_true.1 hshows m hm) hparen

end Node

theorem Formed.isPlainlyKeyed {n : Node} (h : Formed n) : n.isPlainlyKeyed = true := by
  cases h with
  | property hkey _ _ => cases hkey <;> rfl
  | _ => rfl

/-- The keys and children of a source that has been read are in order. -/
theorem all_isOrderly_of_parse {file src : Text} {n : Node} (h : parse file src = .ok n) :
    n.all isOrderly = true := by
  have hkeyed : n.all Node.isPlainlyKeyed = true :=
    (formedProgram_of_parse h).all_nodes (fun _ => isPlainlyKeyed_of_isLeaf)
      (fun _ => Formed.isPlainlyKeyed) (fun _ h => by cases h <;> rfl) fun _ h => by cases h; rfl
  refine all_eq_true.2 fun m hm => ?_
  rw [isOrderly, all_eq_true.1 (all_isTyped_of_parse h) m hm, all_eq_true.1 hkeyed m hm]
  rfl

/-- Parentheses make no difference where they hide nothing. If they hide no declaration from the
pass, the pass and taking them away can be exchanged, except for the places of functions. If they
hide no cube, the same cubes with the same members are registered without them. -/
theorem strip_irrelevant {file src : Text} {n : Node} (h : parse file src = .ok n) :
    (n.all showsDeclaration = true → ∀ r : Resolvers,
      (run r n).val.strip.unpinned = (run r n.strip).val.unpinned) ∧
    (n.all showsCube = true → ∀ (t : SymbolTable) (file : Text),
      t.collect file n.strip = t.collect file n) := by
  refine ⟨fun hshows r => ?_, fun hshows t file => ?_⟩
  · exact (sheds_strip_program (formedProgram_of_parse h) hshows).run_unpinned_eq r
  · rw [SymbolTable.collect, SymbolTable.collect,
      declarations_strip file (all_isOrderly_of_parse h) hshows]

theorem exists_of_parse (file src : Text) (p : Node → Bool)
    (h : (parse file src).toOption.any p = true) : ∃ n, parse file src = .ok n ∧ p n = true := by
  cases hparse : parse file src with
  | error e =>
    rw [hparse] at h
    cases h
  | ok n =>
    rw [hparse] at h
    exact ⟨n, rfl, h⟩

/-- Parentheses around a block of joins, around values, around a whole body and around arguments of
other calls. -/
def freelyGrouped : Text :=
  lit "cube('A', \x7b joins: (\x7b measures: (CUBE) \x7d)," ++
    lit "measures: \x7b n: (\x7b sql: ((CUBE).id) \x7d) \x7d \x7d);" ++
    lit "context(((\x7b sql: y \x7d))); f((\x7b dimensions: x \x7d))"

/-- They make no difference. -/
theorem freelyGrouped_strip_irrelevant : ∃ n, parse (lit "t.js") freelyGrouped = .ok n ∧
    (run acceptingAll n).val.strip.unpinned = (run acceptingAll n.strip).val.unpinned ∧
    SymbolTable.collect {} (lit "t.js") n.strip = SymbolTable.collect {} (lit "t.js") n := by
  obtain ⟨n, hparse, hshows⟩ := exists_of_parse (lit "t.js") freelyGrouped
    (fun n => n.all showsDeclaration && n.all showsCube) (by decide +kernel)
  rw [Bool.and_eq_true] at hshows
  exact ⟨n, hparse, (strip_irrelevant hparse).1 hshows.1 acceptingAll,
    (strip_irrelevant hparse).2 hshows.2 {} (lit "t.js")⟩

/-- A body in parentheses is not recognised as the object that it is. -/
def groupedBody : Text := lit "cube('A', (\x7b measures: \x7b n: \x7b sql: CUBE \x7d \x7d \x7d))"

/-- Its block of measures is deferred, and the cube is not registered; without the parentheses it is
the other way round. A value in parentheses makes a difference in the place of its function only. -/
theorem groupedBody_differs :
    (∃ n, parse (lit "t.js") groupedBody = .ok n ∧
      (run acceptingAll n).val.strip.unpinned ≠ (run acceptingAll n.strip).val.unpinned ∧
      (SymbolTable.collect {} (lit "t.js") n).2 ≠
        (SymbolTable.collect {} (lit "t.js") n.strip).2) ∧
    ∃ n, parse (lit "t.js") (lit "cube('A', \x7b sql: (x) \x7d)") = .ok n ∧
      (run acceptingAll n).val.strip ≠ (run acceptingAll n.strip).val := by
  constructor
  · obtain ⟨n, hparse, hdiffers⟩ := exists_of_parse (lit "t.js") groupedBody
      (fun n => (run acceptingAll n).val.strip.unpinned.print ≠
          (run acceptingAll n.strip).val.unpinned.print ∧
        (SymbolTable.collect {} (lit "t.js") n).2 ≠
          (SymbolTable.collect {} (lit "t.js") n.strip).2) (by decide +kernel)
    obtain ⟨hprint, hcollect⟩ := of_decide_eq_true hdiffers
    exact ⟨n, hparse, fun h => hprint (congrArg print h), hcollect⟩
  · obtain ⟨n, hparse, hdiffers⟩ := exists_of_parse (lit "t.js")
      (lit "cube('A', \x7b sql: (x) \x7d)")
      (fun n => (run acceptingAll n).val.strip.nodes.map position ≠
        (run acceptingAll n.strip).val.nodes.map position) (by decide +kernel)
    exact ⟨n, hparse, fun h => of_decide_eq_true hdiffers (congrArg (·.nodes.map position) h)⟩

end CubeSchema
