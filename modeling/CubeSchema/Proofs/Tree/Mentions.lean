import CubeSchema.Deferral
import Mathlib.Data.List.Basic

/-!
# What a walk meets

The walk of a tree carries the way to each node, of which most questions need little. Here the names
that a tree mentions and the calls in it are counted by recursion on the tree, and shown to be those
that the walk meets. The collected names are each listed once, in the order of their first
occurrence.
-/

namespace CubeSchema

namespace Node

/-- The names that a member access mentions in its property: none when that is a field name. -/
def unlessField (computed : Bool) (prop : Node) (names : List Text) : List Text :=
  if !computed && prop.kind = .identifier then [] else names

mutual

/-- The names that a tree mentions, in the order of its text. -/
def mentions : Node → List Text
  | absent | stringLiteral .. | numberLiteral .. | keywordLiteral .. => []
  | program _ body => mentionsAll body
  | varDecl _ _ name init => name.mentions ++ init.mentions
  | exprStmt x => x.mentions
  | identifier _ name => [name]
  | templateLiteral _ _ exprs => mentionsAll exprs
  | array _ elements => mentionsAll elements
  | object _ properties => mentionsAll properties
  | property _ key value _ _ => key.mentions ++ value.mentions
  | spread _ x => x.mentions
  | member obj prop computed _ => obj.mentions ++ unlessField computed prop prop.mentions
  | call callee args _ => callee.mentions ++ mentionsAll args
  | function _ params body _ => mentionsAll params ++ body.mentions
  | binary left _ right => left.mentions ++ right.mentions
  | unary _ _ x => x.mentions
  | paren _ x => x.mentions

/-- The names that the trees of a list mention. -/
def mentionsAll : List Node → List Text
  | [] => []
  | n :: rest => n.mentions ++ mentionsAll rest

end

theorem mentionsAll_eq_flatMap (ns : List Node) : mentionsAll ns = ns.flatMap mentions := by
  induction ns with
  | nil => rfl
  | cons n ns ih => rw [mentionsAll, ih, List.flatMap_cons]

/-- A node that is not the property of a member access is no field name. -/
theorem isFieldName_of_edge {n parent : Node} {a : Address} {above : List Frame}
    (h : a.edge ≠ .memberProperty) : (Cursor.mk n (⟨parent, a⟩ :: above)).isFieldName = false := by
  obtain ⟨edge, index⟩ := a
  unfold Cursor.isFieldName
  split
  · rename_i heq
    simp only [List.cons.injEq, Frame.mk.injEq, Address.mk.injEq] at heq
    exact absurd heq.1.2.1 h
  · rfl

mutual

/-- The names that a walk meets are those that the tree mentions; the name at its start counts only
when it is no field name. -/
theorem filterMap_visits (above : List Frame) (n : Node) :
    (n.visits above).filterMap Cursor.reference? =
      if (Cursor.mk n above).isFieldName && n.kind = .identifier then [] else n.mentions := by
  cases n with
  | absent => simp [visits, mentions]
  | identifier pos name =>
    cases h : (Cursor.mk (identifier pos name) above).isFieldName <;>
      simp [visits, mentions, Cursor.reference?, h, kind, name?]
  | stringLiteral pos value raw => simp [visits, mentions, Cursor.reference?, name?, kind]
  | numberLiteral pos raw => simp [visits, mentions, Cursor.reference?, name?, kind]
  | keywordLiteral pos value => simp [visits, mentions, Cursor.reference?, name?, kind]
  | program pos body =>
    simp [visits, mentions, Cursor.reference?, name?, kind, filterMap_visitsAll]
  | templateLiteral pos quasis exprs =>
    simp [visits, mentions, Cursor.reference?, name?, kind, filterMap_visitsAll]
  | array pos elements =>
    simp [visits, mentions, Cursor.reference?, name?, kind, filterMap_visitsAll]
  | object pos properties =>
    simp [visits, mentions, Cursor.reference?, name?, kind, filterMap_visitsAll]
  | varDecl pos keyword name init =>
    simp [visits, mentions, Cursor.reference?, name?, kind, filterMap_visits, isFieldName_of_edge]
  | exprStmt x =>
    simp [visits, mentions, Cursor.reference?, name?, kind, filterMap_visits, isFieldName_of_edge]
  | property pos key value computed shorthand =>
    simp [visits, mentions, Cursor.reference?, name?, kind, filterMap_visits, isFieldName_of_edge]
  | spread pos x =>
    simp [visits, mentions, Cursor.reference?, name?, kind, filterMap_visits, isFieldName_of_edge]
  | member obj prop computed optional =>
    -- The property is a field name unless it is computed, and the object never is one.
    have hprop := filterMap_visits
      (⟨member obj prop computed optional, ⟨.memberProperty, none⟩⟩ :: above) prop
    have hobj := filterMap_visits
      (⟨member obj prop computed optional, ⟨.memberObject, none⟩⟩ :: above) obj
    rw [isFieldName_of_edge (by simp)] at hobj
    rw [Cursor.isFieldName] at hprop
    simp [visits, mentions, Cursor.reference?, name?, kind, hprop, hobj, unlessField]
  | call callee args optional =>
    simp [visits, mentions, Cursor.reference?, name?, kind, filterMap_visits, isFieldName_of_edge,
      filterMap_visitsAll]
  | function pos params body async =>
    simp [visits, mentions, Cursor.reference?, name?, kind, filterMap_visits, isFieldName_of_edge,
      filterMap_visitsAll]
  | binary left op right =>
    simp [visits, mentions, Cursor.reference?, name?, kind, filterMap_visits, isFieldName_of_edge]
  | unary pos op x =>
    simp [visits, mentions, Cursor.reference?, name?, kind, filterMap_visits, isFieldName_of_edge]
  | paren pos x =>
    simp [visits, mentions, Cursor.reference?, name?, kind, filterMap_visits, isFieldName_of_edge]

theorem filterMap_visitsAll (above : List Frame) (parent : Node) (edge : Edge) (i : Nat)
    (ns : List Node) (h : edge ≠ .memberProperty) :
    (visitsAll above parent edge i ns).filterMap Cursor.reference? = mentionsAll ns := by
  cases ns with
  | nil => rfl
  | cons n ns =>
    rw [visitsAll, List.filterMap_append, filterMap_visits, isFieldName_of_edge h,
      filterMap_visitsAll above parent edge (i + 1) ns h, mentionsAll]
    rfl

end

mutual

/-- The number of calls in a tree. -/
def calls : Node → Nat
  | absent | identifier .. | stringLiteral .. | numberLiteral .. | keywordLiteral .. => 0
  | program _ body => callsAll body
  | varDecl _ _ name init => name.calls + init.calls
  | exprStmt x => x.calls
  | templateLiteral _ _ exprs => callsAll exprs
  | array _ elements => callsAll elements
  | object _ properties => callsAll properties
  | property _ key value _ _ => key.calls + value.calls
  | spread _ x => x.calls
  | member obj prop _ _ => obj.calls + prop.calls
  | call callee args _ => callee.calls + callsAll args + 1
  | function _ params body _ => callsAll params + body.calls
  | binary left _ right => left.calls + right.calls
  | unary _ _ x => x.calls
  | paren _ x => x.calls

/-- The number of calls in the trees of a list. -/
def callsAll : List Node → Nat
  | [] => 0
  | n :: rest => n.calls + callsAll rest

end

theorem calls_le_callsAll {ns : List Node} {n : Node} (h : n ∈ ns) : n.calls ≤ callsAll ns := by
  induction ns with
  | nil => simp at h
  | cons m ns ih =>
    rw [callsAll]
    rcases List.mem_cons.1 h with rfl | h
    · omega
    · have := ih h
      omega

mutual

/-- The calls that a walk meets are those in the tree. -/
theorem countP_visits (above : List Frame) (n : Node) :
    (n.visits above).countP (fun c => c.focus.kind = .call) = n.calls := by
  cases n <;>
    simp only [visits, calls, List.cons_append, List.countP_append, List.countP_cons,
      List.countP_nil, countP_visits, countP_visitsAll] <;>
    rfl

theorem countP_visitsAll (above : List Frame) (parent : Node) (edge : Edge) (i : Nat)
    (ns : List Node) :
    (visitsAll above parent edge i ns).countP (fun c => c.focus.kind = .call) = callsAll ns := by
  cases ns with
  | nil => rfl
  | cons n ns =>
    rw [visitsAll, List.countP_append, countP_visits, countP_visitsAll above parent edge (i + 1) ns,
      callsAll]

end

end Node

theorem Deferral.callCount_eq (n : Node) : callCount n = n.calls := n.countP_visits []

/-! ## Collected names -/

namespace Text

/-- What `distinct` makes of a list: each member once, in the order of first occurrence. -/
structure Distinct (ts us : List Text) : Prop where
  /-- Nothing is listed twice. -/
  nodup : us.Nodup
  /-- Nothing is lost or added. -/
  mem : ∀ t, t ∈ us ↔ t ∈ ts
  /-- What occurs first is listed first. -/
  sorted : us.Pairwise fun a b => ts.idxOf a < ts.idxOf b

theorem Distinct.snoc_mem {ts us : List Text} (h : Distinct ts us) {t : Text} (ht : t ∈ ts) :
    Distinct (ts ++ [t]) us := by
  refine ⟨h.nodup, fun u => ?_, ?_⟩
  · rw [h.mem, List.mem_append, List.mem_singleton]
    exact ⟨.inl, fun hu => hu.elim id fun hu => hu ▸ ht⟩
  · refine h.sorted.imp_of_mem fun ha hb hab => ?_
    rwa [List.idxOf_append_of_mem ((h.mem _).1 ha), List.idxOf_append_of_mem ((h.mem _).1 hb)]

theorem Distinct.snoc_new {ts us : List Text} (h : Distinct ts us) {t : Text} (ht : t ∉ ts) :
    Distinct (ts ++ [t]) (us ++ [t]) := by
  refine ⟨?_, fun u => ?_, ?_⟩
  · refine List.nodup_append.2 ⟨h.nodup, by simp, fun a ha b hb => ?_⟩
    rw [List.mem_singleton.1 hb]
    rintro rfl
    exact ht ((h.mem _).1 ha)
  · rw [List.mem_append, List.mem_append, h.mem]
  · refine List.pairwise_append.2 ⟨?_, by simp, fun a ha b hb => ?_⟩
    · refine h.sorted.imp_of_mem fun ha hb hab => ?_
      rwa [List.idxOf_append_of_mem ((h.mem _).1 ha), List.idxOf_append_of_mem ((h.mem _).1 hb)]
    · have ha' := (h.mem _).1 ha
      rw [List.mem_singleton.1 hb, List.idxOf_append_of_mem ha', List.idxOf_append_of_notMem ht]
      have := List.idxOf_lt_length_of_mem ha'
      omega

theorem distinct_spec (ts : List Text) : Distinct ts (distinct ts) := by
  suffices h : ∀ (us seen front : List Text), Distinct front seen →
      Distinct (front ++ us)
        (us.foldl (fun seen t => if seen.contains t then seen else seen ++ [t]) seen) by
    exact h ts [] [] ⟨by simp, by simp, by simp⟩
  intro us
  induction us with
  | nil => intro seen front h; simpa using h
  | cons t us ih =>
    intro seen front h
    rw [List.foldl_cons, ← List.singleton_append, ← List.append_assoc]
    by_cases ht : t ∈ front
    · rw [if_pos (by simpa using (h.mem t).2 ht)]
      exact ih seen _ (h.snoc_mem ht)
    · rw [if_neg (by simpa using fun hmem => ht ((h.mem t).1 hmem))]
      exact ih _ _ (h.snoc_new ht)

end Text

namespace Node

/-- The collected names depend on the tree by what it mentions. -/
theorem identifiers_eq (resolve : Text → Bool) (n : Node) :
    n.identifiers resolve = Text.distinct (n.mentions.filter resolve) := by
  have hvisits : (Cursor.root n).visits.filterMap Cursor.reference? = n.mentions := by
    simp [Cursor.visits, Cursor.root, filterMap_visits, Cursor.isFieldName]
  rw [identifiers, Cursor.identifiers, hvisits]

/-- The collected names are the accepted ones that the tree mentions. -/
theorem identifiers_spec (resolve : Text → Bool) (n : Node) :
    Text.Distinct (n.mentions.filter resolve) (n.identifiers resolve) := by
  rw [identifiers_eq]
  exact Text.distinct_spec _

theorem mem_identifiers {resolve : Text → Bool} {n : Node} {x : Text} :
    x ∈ n.identifiers resolve ↔ x ∈ n.mentions ∧ resolve x = true := by
  rw [(identifiers_spec resolve n).mem, List.mem_filter]

end Node

end CubeSchema
