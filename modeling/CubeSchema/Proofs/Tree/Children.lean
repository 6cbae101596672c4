import CubeSchema.Proofs.Tree.Nodes
import Mathlib.Data.List.Nodup

/-!
# Children and their addresses

No two children of a node have the same address, and putting a node at the address of a child
changes this child and nothing else: the other children, the addresses and their order, and all
other data of the parent (`Node.shell`) are as they were.
-/

namespace CubeSchema

/-- What a child becomes when a node is put at an address. -/
def Child.update (a : Address) (n : Node) (c : Child) : Child :=
  if c.address = a then ⟨a, n⟩ else c

@[simp] theorem Child.address_update (a : Address) (n : Node) (c : Child) :
    (c.update a n).address = c.address := by
  unfold update
  split
  · rename_i h
    exact h.symm
  · rfl

namespace Node

/-- The addresses of the children of a node. -/
def addresses (n : Node) : List Address := n.children.map Child.address

/-! ## Fields -/

theorem addresses_single (edge : Edge) (n : Node) :
    (single edge n).map Child.address = if n.isAbsent then [] else [⟨edge, none⟩] := by
  unfold single
  split <;> rfl

theorem addresses_listed (edge : Edge) (i : Nat) (ns : List Node) :
    (listed edge i ns).map Child.address =
      (List.range' i ns.length).map fun j => ⟨edge, some j⟩ := by
  induction ns generalizing i with
  | nil => rfl
  | cons n ns ih => rw [listed, List.map_cons, ih]; rfl

theorem mem_listed {edge : Edge} {i : Nat} {ns : List Node} {c : Child}
    (h : c ∈ listed edge i ns) : c.node ∈ ns := by
  induction ns generalizing i with
  | nil => simp [listed] at h
  | cons n ns ih =>
    rcases List.mem_cons.1 h with rfl | h
    · exact List.mem_cons_self ..
    · exact List.mem_cons_of_mem _ (ih h)

/-- What stands in a single field is no absent node. -/
theorem isAbsent_of_mem_single {edge : Edge} {n : Node} {c : Child} (h : c ∈ single edge n) :
    c.node.isAbsent = false ∧ c.node = n := by
  unfold single at h
  split at h
  · simp at h
  · rename_i hn
    obtain rfl := List.mem_singleton.1 h
    exact ⟨by simpa using hn, rfl⟩

theorem edge_of_mem_single {edge : Edge} {n : Node} {c : Child} (h : c ∈ single edge n) :
    c.address.edge = edge := by
  have hmem := List.mem_map_of_mem (f := Child.address) h
  rw [addresses_single] at hmem
  split at hmem
  · cases hmem
  · rw [List.mem_singleton.1 hmem]

theorem address_of_mem_listed {edge : Edge} {i : Nat} {ns : List Node} {c : Child}
    (h : c ∈ listed edge i ns) : ∃ j, i ≤ j ∧ c.address = ⟨edge, some j⟩ := by
  have hmem := List.mem_map_of_mem (f := Child.address) h
  rw [addresses_listed] at hmem
  obtain ⟨j, hj, heq⟩ := List.mem_map.1 hmem
  exact ⟨j, (List.mem_range'_1.1 hj).1, heq.symm⟩

theorem edge_of_mem_listed {edge : Edge} {i : Nat} {ns : List Node} {c : Child}
    (h : c ∈ listed edge i ns) : c.address.edge = edge := by
  obtain ⟨j, -, hj⟩ := address_of_mem_listed h
  rw [hj]

theorem nodup_single (edge : Edge) (n : Node) : ((single edge n).map Child.address).Nodup := by
  rw [addresses_single]
  split <;> simp

theorem nodup_listed (edge : Edge) (i : Nat) (ns : List Node) :
    ((listed edge i ns).map Child.address).Nodup := by
  rw [addresses_listed]
  exact (List.nodup_range' (h := by decide)).map fun j k h => by simpa using h

theorem address_ne_of_fields {c d : Child} {edge other : Edge} (hne : edge ≠ other)
    (hc : c.address.edge = edge) (hd : d.address.edge = other) : c.address ≠ d.address := by
  intro heq
  refine hne ?_
  calc edge = c.address.edge := hc.symm
    _ = d.address.edge := congrArg Address.edge heq
    _ = other := hd

/-- Children of different fields have different addresses. -/
theorem nodup_append_fields {cs ds : List Child} {edge other : Edge} (hne : edge ≠ other)
    (hcs : ∀ c ∈ cs, c.address.edge = edge) (hds : ∀ d ∈ ds, d.address.edge = other)
    (hc : (cs.map Child.address).Nodup) (hd : (ds.map Child.address).Nodup) :
    ((cs ++ ds).map Child.address).Nodup := by
  rw [List.map_append, List.nodup_append]
  refine ⟨hc, hd, fun a ha b hb hab => ?_⟩
  obtain ⟨c, hc, rfl⟩ := List.mem_map.1 ha
  obtain ⟨d, hd, rfl⟩ := List.mem_map.1 hb
  exact address_ne_of_fields hne (hcs c hc) (hds d hd) hab

/-- No two children have the same address. -/
theorem nodup_addresses (n : Node) : n.addresses.Nodup := by
  unfold addresses
  cases n with
  | absent | identifier | stringLiteral | numberLiteral | keywordLiteral => exact List.nodup_nil
  | program | templateLiteral | object => exact nodup_listed ..
  | array pos elements =>
    exact (nodup_listed .arrayElement 0 elements).sublist (List.filter_sublist.map _)
  | exprStmt | spread | unary | paren => exact nodup_single ..
  | varDecl | property | member | binary =>
    exact nodup_append_fields (by decide) (fun _ => edge_of_mem_single)
      (fun _ => edge_of_mem_single) (nodup_single ..) (nodup_single ..)
  | call =>
    exact nodup_append_fields (by decide) (fun _ => edge_of_mem_single)
      (fun _ => edge_of_mem_listed) (nodup_single ..) (nodup_listed ..)
  | function =>
    exact nodup_append_fields (by decide) (fun _ => edge_of_mem_listed)
      (fun _ => edge_of_mem_single) (nodup_listed ..) (nodup_single ..)

/-- A child is found by its address. -/
theorem find?_address {n : Node} {c : Child} (h : c ∈ n.children) :
    n.children.find? (fun d => d.address = c.address) = some c := by
  obtain ⟨d, hd⟩ : ∃ d, n.children.find? (fun d => d.address = c.address) = some d :=
    Option.isSome_iff_exists.1 (List.find?_isSome.2 ⟨c, h, by simp⟩)
  have haddress : d.address = c.address := by simpa using List.find?_some hd
  rw [hd, List.inj_on_of_nodup_map n.nodup_addresses (List.mem_of_find?_eq_some hd) h haddress]

theorem child?_address {n : Node} {c : Child} (h : c ∈ n.children) :
    n.child? c.address = some c.node := by
  rw [child?, find?_address h]
  rfl

/-- The children of a node without gaps are there. -/
theorem isAbsent_of_mem_children {n : Node} (h : n.hasGap = false) {c : Child}
    (hc : c ∈ n.children) : c.node.isAbsent = false := by
  have hlist : ∀ {edge : Edge} {ns : List Node}, ns.any isAbsent = false →
      c ∈ listed edge 0 ns → c.node.isAbsent = false := by
    intro edge ns hns hmem
    simpa using List.any_eq_false.1 hns c.node (mem_listed hmem)
  cases n with
  | absent | identifier | stringLiteral | numberLiteral | keywordLiteral => cases hc
  | program | templateLiteral | object => exact hlist h hc
  | array pos elements => simpa using (List.mem_filter.1 hc).2
  | exprStmt | spread | unary | paren => exact (isAbsent_of_mem_single hc).1
  | varDecl | property | member | binary =>
    rcases List.mem_append.1 hc with hc | hc <;> exact (isAbsent_of_mem_single hc).1
  | call =>
    rcases List.mem_append.1 hc with hc | hc
    · exact (isAbsent_of_mem_single hc).1
    · exact hlist h hc
  | function =>
    rcases List.mem_append.1 hc with hc | hc
    · exact hlist h hc
    · exact (isAbsent_of_mem_single hc).1

/-- A test that holds of all nodes of a tree holds of those of a child. -/
theorem all_of_mem_children {p : Node → Bool} {n : Node} (h : n.all p = true) {c : Child}
    (hc : c ∈ n.children) : c.node.all p = true := by
  have hlist : ∀ {edge : Edge} {ns : List Node}, allOf p ns = true →
      c ∈ listed edge 0 ns → c.node.all p = true :=
    fun hns hmem => allOf_eq_true.1 hns _ (mem_listed hmem)
  have hsingle : ∀ {edge : Edge} {x : Node}, x.all p = true → c ∈ single edge x →
      c.node.all p = true := fun hx hmem => by rwa [(isAbsent_of_mem_single hmem).2]
  cases n <;> simp only [all, Bool.and_eq_true] at h <;> simp only [children] at hc
  case absent | identifier | stringLiteral | numberLiteral | keywordLiteral => simp at hc
  case program | templateLiteral | object => exact hlist h.2 hc
  case array => exact hlist h.2 (List.mem_filter.1 hc).1
  case exprStmt | spread | unary | paren => exact hsingle h.2 hc
  case varDecl | property | member | binary =>
    rcases List.mem_append.1 hc with hc | hc
    · exact hsingle h.1.2 hc
    · exact hsingle h.2 hc
  case call =>
    rcases List.mem_append.1 hc with hc | hc
    · exact hsingle h.1.2 hc
    · exact hlist h.2 hc
  case function =>
    rcases List.mem_append.1 hc with hc | hc
    · exact hlist h.1.2 hc
    · exact hsingle h.2 hc

/-- A node that is there, with no gap in it or below it. Holes of arrays and fields that are left
out do not count as gaps. -/
structure IsGapless (n : Node) : Prop where
  /-- The node is there. -/
  present : n.isAbsent = false
  /-- No list field holds an absent node. -/
  gapless : n.all (fun m => !m.hasGap) = true

instance (n : Node) : Decidable n.IsGapless :=
  decidable_of_iff (n.isAbsent = false ∧ n.all (fun m => !m.hasGap) = true)
    ⟨fun h => ⟨h.1, h.2⟩, fun h => ⟨h.present, h.gapless⟩⟩

theorem IsGapless.child {n : Node} (h : n.IsGapless) {c : Child} (hc : c ∈ n.children) :
    c.node.IsGapless := by
  have hgap : n.hasGap = false := by
    simpa using all_eq_true.1 h.gapless n (mem_nodes_self h.present)
  exact ⟨isAbsent_of_mem_children hgap hc, all_of_mem_children h.gapless hc⟩

/-! ## Putting a node at an address -/

theorem map_update_of_ne {a : Address} {cs : List Child} (h : ∀ c ∈ cs, c.address ≠ a)
    (n : Node) : cs.map (Child.update a n) = cs :=
  (List.map_congr_left fun c hc => if_neg (h c hc)).trans (List.map_id cs)

theorem map_update_single {edge : Edge} {x n : Node} (hx : x.isAbsent = false)
    (hn : n.isAbsent = false) :
    (single edge x).map (Child.update ⟨edge, none⟩ n) = single edge n := by
  simp [single, hx, hn, Child.update]

theorem map_update_listed (edge : Edge) (i j : Nat) (ns : List Node) (n : Node) :
    (listed edge i ns).map (Child.update ⟨edge, some (i + j)⟩ n) = listed edge i (ns.set j n) := by
  induction ns generalizing i j with
  | nil => rfl
  | cons m ns ih =>
    cases j with
    | zero =>
      have hrest : ∀ c ∈ listed edge (i + 1) ns, c.address ≠ ⟨edge, some (i + 0)⟩ := by
        intro c hc heq
        obtain ⟨j, hj, hc⟩ := address_of_mem_listed hc
        obtain rfl : j = i := by simpa [hc] using heq
        omega
      rw [listed, List.map_cons, map_update_of_ne hrest]
      simp [Child.update, listed]
    | succ j =>
      have hj := ih (i + 1) j
      rw [Nat.add_assoc, Nat.add_comm 1 j] at hj
      rw [listed, List.map_cons, hj]
      simp [Child.update, listed]

section

variable {a : Address} {n : Node}

/-- Putting a node into a single field. -/
theorem map_update_of_mem_single {edge : Edge} {x : Node}
    (ha : a ∈ (single edge x).map Child.address) (hn : n.isAbsent = false) :
    a = ⟨edge, none⟩ ∧ (single edge x).map (Child.update a n) = single edge n := by
  rw [addresses_single] at ha
  split at ha
  · cases ha
  · rename_i hx
    obtain rfl := List.mem_singleton.1 ha
    exact ⟨rfl, map_update_single (by simpa using hx) hn⟩

/-- Putting a node into a list field. -/
theorem map_update_of_mem_listed {edge : Edge} {ns : List Node}
    (ha : a ∈ (listed edge 0 ns).map Child.address) (n : Node) :
    ∃ j, a = ⟨edge, some j⟩ ∧
      (listed edge 0 ns).map (Child.update a n) = listed edge 0 (ns.set j n) := by
  obtain ⟨c, hc, rfl⟩ := List.mem_map.1 ha
  obtain ⟨j, -, hj⟩ := address_of_mem_listed hc
  have hset := map_update_listed edge 0 j ns n
  rw [Nat.zero_add] at hset
  exact ⟨j, hj, hj ▸ hset⟩

/-- An address belongs to one of two fields, and the other one is left alone. -/
theorem map_update_fields {cs ds : List Child} {edge other : Edge} (hne : edge ≠ other)
    (hcs : ∀ c ∈ cs, c.address.edge = edge) (hds : ∀ d ∈ ds, d.address.edge = other)
    (ha : a ∈ (cs ++ ds).map Child.address) (n : Node) :
    (a ∈ cs.map Child.address ∧ ds.map (Child.update a n) = ds) ∨
      (a ∈ ds.map Child.address ∧ cs.map (Child.update a n) = cs) := by
  rw [List.map_append, List.mem_append] at ha
  refine ha.imp (fun ha => ⟨ha, map_update_of_ne (fun d hd heq => ?_) n⟩)
    fun ha => ⟨ha, map_update_of_ne (fun c hc heq => ?_) n⟩
  · obtain ⟨c, hc, rfl⟩ := List.mem_map.1 ha
    exact address_ne_of_fields hne (hcs c hc) (hds d hd) heq.symm
  · obtain ⟨d, hd, rfl⟩ := List.mem_map.1 ha
    exact address_ne_of_fields hne (hcs c hc) (hds d hd) heq

/-- At the address of a child, this child and nothing else is put in. -/
theorem children_put {p : Node} (ha : a ∈ p.addresses) (hn : n.isAbsent = false) :
    (p.put a n).children = p.children.map (Child.update a n) := by
  unfold addresses at ha
  cases p with
  | absent | identifier | stringLiteral | numberLiteral | keywordLiteral => cases ha
  | program | templateLiteral | object =>
    obtain ⟨j, rfl, hset⟩ := map_update_of_mem_listed ha n
    exact hset.symm
  | array pos elements =>
    obtain ⟨c, hc, rfl⟩ := List.mem_map.1 ha
    obtain ⟨hmem, hpresent⟩ := List.mem_filter.1 hc
    obtain ⟨j, hj, hset⟩ := map_update_of_mem_listed (List.mem_map_of_mem hmem) n
    have hput : (array pos elements).put c.address n = array pos (elements.set j n) := by
      rw [hj]
      rfl
    rw [hput, children, ← hset, List.filter_map, children]
    refine congrArg _ (List.filter_congr fun d hd => ?_)
    -- No hole is filled and none is left: the child at the address was there and is there.
    by_cases hd' : d.address = c.address
    · obtain rfl := List.inj_on_of_nodup_map (nodup_listed ..) hd hmem hd'
      simpa [Child.update, hn] using hpresent
    · simp [Child.update, hd']
  | exprStmt | spread | unary | paren =>
    obtain ⟨rfl, hput⟩ := map_update_of_mem_single ha hn
    exact hput.symm
  | varDecl | property | member | binary =>
    rcases map_update_fields (by decide) (fun _ => edge_of_mem_single)
      (fun _ => edge_of_mem_single) ha n with ⟨ha, hrest⟩ | ⟨ha, hrest⟩
    all_goals
      obtain ⟨rfl, hput⟩ := map_update_of_mem_single ha hn
      simp only [put, children, List.map_append, hput, hrest]
  | call =>
    rcases map_update_fields (by decide) (fun _ => edge_of_mem_single)
      (fun _ => edge_of_mem_listed) ha n with ⟨ha, hrest⟩ | ⟨ha, hrest⟩
    · obtain ⟨rfl, hput⟩ := map_update_of_mem_single ha hn
      simp only [put, children, List.map_append, hput, hrest]
    · obtain ⟨j, rfl, hput⟩ := map_update_of_mem_listed ha n
      simp only [put, children, List.map_append, hput, hrest]
  | function =>
    rcases map_update_fields (by decide) (fun _ => edge_of_mem_listed)
      (fun _ => edge_of_mem_single) ha n with ⟨ha, hrest⟩ | ⟨ha, hrest⟩
    · obtain ⟨j, rfl, hput⟩ := map_update_of_mem_listed ha n
      simp only [put, children, List.map_append, hput, hrest]
    · obtain ⟨rfl, hput⟩ := map_update_of_mem_single ha hn
      simp only [put, children, List.map_append, hput, hrest]

theorem map_address_update (a : Address) (n : Node) (cs : List Child) :
    (cs.map (Child.update a n)).map Child.address = cs.map Child.address := by
  rw [List.map_map]
  exact List.map_congr_left fun c _ => c.address_update a n

/-- The addresses of the children stay as they were. -/
theorem addresses_put {p : Node} (ha : a ∈ p.addresses) (hn : n.isAbsent = false) :
    (p.put a n).addresses = p.addresses := by
  rw [addresses, children_put ha hn, map_address_update, addresses]

end

/-- Of two nodes put at one address, the second one stays. -/
theorem put_put (p m n : Node) (a : Address) : (p.put a m).put a n = p.put a n := by
  fun_cases put p a m
  all_goals first | rfl | simp only [put, List.set_set]

theorem getElem?_of_mem_listed {edge : Edge} {i : Nat} {ns : List Node} {c : Child}
    (h : c ∈ listed edge i ns) : ∃ j, c.address = ⟨edge, some (i + j)⟩ ∧ ns[j]? = some c.node := by
  induction ns generalizing i with
  | nil => cases h
  | cons n ns ih =>
    rcases List.mem_cons.1 h with rfl | h
    · exact ⟨0, rfl, rfl⟩
    · obtain ⟨j, haddress, hj⟩ := ih h
      exact ⟨j + 1, by rw [haddress, Nat.add_assoc, Nat.add_comm 1 j], by simpa using hj⟩

theorem mem_listed_of_getElem? (edge : Edge) (i : Nat) {ns : List Node} {j : Nat} {n : Node}
    (h : ns[j]? = some n) : ⟨⟨edge, some (i + j)⟩, n⟩ ∈ listed edge i ns := by
  induction ns generalizing i j with
  | nil => cases h
  | cons m ns ih =>
    cases j with
    | zero =>
      obtain rfl : m = n := by simpa using h
      exact List.mem_cons_self ..
    | succ j =>
      have hrest := ih (i + 1) (j := j) (by simpa using h)
      rw [Nat.add_assoc, Nat.add_comm 1 j] at hrest
      exact List.mem_cons_of_mem _ hrest

/-- Putting a child where it stands changes nothing. -/
theorem put_self {n : Node} {c : Child} (h : c ∈ n.children) : n.put c.address c.node = n := by
  have hsingle : ∀ {edge : Edge} {x : Node}, c ∈ single edge x →
      c.address = ⟨edge, none⟩ ∧ c.node = x := by
    intro edge x hc
    unfold single at hc
    split at hc
    · cases hc
    · obtain rfl := List.mem_singleton.1 hc
      exact ⟨rfl, rfl⟩
  have hlisted : ∀ {edge : Edge} {ns : List Node}, c ∈ listed edge 0 ns →
      ∃ i, c.address = ⟨edge, some i⟩ ∧ ns.set i c.node = ns := by
    intro edge ns hc
    obtain ⟨i, haddress, hi⟩ := getElem?_of_mem_listed hc
    obtain ⟨hlt, heq⟩ := List.getElem?_eq_some_iff.1 hi
    rw [Nat.zero_add] at haddress
    exact ⟨i, haddress, by rw [← heq, List.set_getElem_self]⟩
  obtain ⟨a, m⟩ := c
  cases n with
  | absent | identifier | stringLiteral | numberLiteral | keywordLiteral => cases h
  | program | templateLiteral | object =>
    obtain ⟨i, rfl, hset⟩ := hlisted h
    simp only [put, hset]
  | array pos elements =>
    obtain ⟨i, rfl, hset⟩ := hlisted (List.mem_filter.1 h).1
    simp only [put, hset]
  | exprStmt | spread | unary | paren =>
    obtain ⟨rfl, rfl⟩ := hsingle h
    rfl
  | varDecl | property | member | binary =>
    rcases List.mem_append.1 h with h | h
    all_goals
      obtain ⟨rfl, rfl⟩ := hsingle h
      rfl
  | call =>
    rcases List.mem_append.1 h with h | h
    · obtain ⟨rfl, rfl⟩ := hsingle h
      rfl
    · obtain ⟨i, rfl, hset⟩ := hlisted h
      simp only [put, hset]
  | function =>
    rcases List.mem_append.1 h with h | h
    · obtain ⟨i, rfl, hset⟩ := hlisted h
      simp only [put, hset]
    · obtain ⟨rfl, rfl⟩ := hsingle h
      rfl

@[simp] theorem children_unabbreviated (n : Node) : n.unabbreviated.children = n.children := by
  cases n <;> rfl

/-- A node with nothing left of its children but their places. -/
def shell : Node → Node
  | program pos body => program pos (body.map fun _ => absent)
  | varDecl pos keyword _ _ => varDecl pos keyword absent absent
  | exprStmt _ => exprStmt absent
  | templateLiteral pos quasis exprs => templateLiteral pos quasis (exprs.map fun _ => absent)
  | array pos elements => array pos (elements.map fun _ => absent)
  | object pos properties => object pos (properties.map fun _ => absent)
  | property pos _ _ computed shorthand => property pos absent absent computed shorthand
  | spread pos _ => spread pos absent
  | member _ _ computed optional => member absent absent computed optional
  | call _ args optional => call absent (args.map fun _ => absent) optional
  | function pos params _ async => function pos (params.map fun _ => absent) absent async
  | binary _ op _ => binary absent op absent
  | unary pos op _ => unary pos op absent
  | paren pos _ => paren pos absent
  | leaf => leaf

theorem map_set_absent (ns : List Node) (j : Nat) (n : Node) :
    (ns.set j n).map (fun _ => absent) = ns.map fun _ => absent := by
  simp only [List.map_const', List.length_set]

/-- Putting in a node changes nothing but a child. -/
theorem shell_put (p n : Node) (a : Address) : (p.put a n).shell = p.shell := by
  unfold put
  split <;> first | rfl | simp only [shell, map_set_absent]

theorem shell_unabbreviated (n : Node) : n.unabbreviated.shell = n.shell.unabbreviated := by
  cases n <;> rfl

/-! ## Replacing a child -/

/-- A parent whose node at an address is replaced; a property whose value is replaced is written in
full. -/
def replaced (p : Node) (a : Address) (n : Node) : Node :=
  if a.edge = .propertyValue then (p.put a n).unabbreviated else p.put a n

theorem replace?_eq (p : Node) (a : Address) (n : Node) :
    p.replace? a n = if n.fits a.edge.slot then some (p.replaced a n) else none := rfl

/-- An absent node fits nowhere. -/
theorem isAbsent_of_fits {n : Node} {slot : Slot} (h : n.fits slot = true) :
    n.isAbsent = false := by
  cases n with
  | absent => cases slot <;> cases h
  | _ => rfl

theorem isAbsent_of_mem_addresses {p : Node} {a : Address} (h : a ∈ p.addresses) :
    p.isAbsent = false := by
  cases p <;> first | rfl | cases h

theorem kind_put (p n : Node) (a : Address) : (p.put a n).kind = p.kind := by
  unfold put
  split <;> rfl

theorem isAbsent_eq (n : Node) : n.isAbsent = decide (n.kind = .invalid) := by
  cases n <;> rfl

theorem isAbsent_put (p n : Node) (a : Address) : (p.put a n).isAbsent = p.isAbsent := by
  rw [isAbsent_eq, kind_put, isAbsent_eq]

theorem kind_unabbreviated (n : Node) : n.unabbreviated.kind = n.kind := by
  cases n <;> rfl

theorem kind_replaced (p n : Node) (a : Address) : (p.replaced a n).kind = p.kind := by
  unfold replaced
  split
  · rw [kind_unabbreviated, kind_put]
  · exact kind_put ..

theorem isAbsent_unabbreviated (n : Node) : n.unabbreviated.isAbsent = n.isAbsent := by
  cases n <;> rfl

section

variable {p n : Node} {a : Address}

theorem children_replaced (ha : a ∈ p.addresses) (hn : n.isAbsent = false) :
    (p.replaced a n).children = p.children.map (Child.update a n) := by
  rw [← children_put ha hn, replaced]
  split
  · rw [children_unabbreviated]
  · rfl

theorem addresses_replaced (ha : a ∈ p.addresses) (hn : n.isAbsent = false) :
    (p.replaced a n).addresses = p.addresses := by
  rw [addresses, children_replaced ha hn, map_address_update, addresses]

theorem isAbsent_replaced (ha : a ∈ p.addresses) : (p.replaced a n).isAbsent = false := by
  rw [isAbsent_eq, kind_replaced, ← isAbsent_eq, isAbsent_of_mem_addresses ha]

theorem shell_replaced (p n : Node) (a : Address) : (p.replaced a n).shell =
    if a.edge = .propertyValue then p.shell.unabbreviated else p.shell := by
  unfold replaced
  split
  · rw [shell_unabbreviated, shell_put]
  · rw [shell_put]

theorem unabbreviated_of_kind {n : Node} (h : n.kind ≠ .property) : n.unabbreviated = n := by
  cases n <;> first | rfl | exact absurd rfl h

theorem put_unabbreviated (p n : Node) (a : Address) :
    p.unabbreviated.put a n = (p.put a n).unabbreviated := by
  by_cases hkind : p.kind = .property
  · cases p with
    | property =>
      obtain ⟨edge, index⟩ := a
      cases edge <;> cases index <;> rfl
    | _ => cases hkind
  · rw [unabbreviated_of_kind hkind, unabbreviated_of_kind]
    rwa [kind_put]

theorem replaced_replaced (p m n : Node) (a : Address) :
    (p.replaced a m).replaced a n = p.replaced a n := by
  unfold replaced
  split
  · rw [put_unabbreviated, put_put]
    cases p.put a n <;> rfl
  · rw [put_put]

end

end Node

end CubeSchema
