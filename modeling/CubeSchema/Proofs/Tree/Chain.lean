import CubeSchema.Tree.Operator

/-!
# Chains of operands

A binary operation is printed as the chain of its operands, and `Operator.fold` nests the chain
again. `fold_chain` says that a tree whose operators are nested by their precedence is the fold of
its own chain, and `fold_spec` that every fold is nested so and keeps the chain. Hence the nested
trees are exactly the folds, and a nested tree is determined by its chain.
-/

namespace CubeSchema

namespace Node

/-- Whether a node is a binary operation. -/
def isBinary : Node → Bool
  | binary .. => true
  | _ => false

/-- The first operand of the chain that a node stands for. -/
def chainHead : Node → Node
  | binary left _ _ => left.chainHead
  | n => n

/-- The other operands of the chain that a node stands for, each behind its operator. -/
def chainLinks : Node → List (Text × Node)
  | binary left op right => left.chainLinks ++ (op, right.chainHead) :: right.chainLinks
  | _ => []

theorem chainHead_of_not_binary {n : Node} (h : n.isBinary = false) : n.chainHead = n := by
  cases n <;> first | rfl | simp [isBinary] at h

theorem chainLinks_of_not_binary {n : Node} (h : n.isBinary = false) : n.chainLinks = [] := by
  cases n <;> first | rfl | simp [isBinary] at h

end Node

namespace Operator

open Node

/-- Whether an operator may take a node as its left operand. -/
def admitsLeft (op : Text) : Node → Bool
  | .binary _ inner _ => precedence op < rightLevel inner
  | _ => true

/-- Whether the operator of a node binds at least at a level; a node without one does. -/
def bindsAt (level : Nat) : Node → Bool
  | .binary _ inner _ => level ≤ precedence inner
  | _ => true

/-- The operators of a chain are nested by their precedence. -/
def Nested : Node → Prop
  | .binary left op right =>
    admitsLeft op left = true ∧ bindsAt (rightLevel op) right = true ∧ Nested left ∧ Nested right
  | _ => True

theorem nested_of_not_binary {n : Node} (h : n.isBinary = false) : Nested n := by
  cases n <;> trivial

theorem admitsLeft_of_not_binary {n : Node} (h : n.isBinary = false) (op : Text) :
    admitsLeft op n = true := by
  cases n <;> first | rfl | simp [isBinary] at h

theorem bindsAt_of_not_binary {n : Node} (h : n.isBinary = false) (level : Nat) :
    bindsAt level n = true := by
  cases n <;> first | rfl | simp [isBinary] at h

theorem precedence_le_rightLevel (op : Text) : precedence op ≤ rightLevel op := by
  unfold rightLevel
  split <;> omega

theorem rightLevel_le (op : Text) : rightLevel op ≤ precedence op + 1 := by
  unfold rightLevel
  split <;> omega

/-- The chain stops a climb at a level: it is empty or its first operator binds looser. -/
def Stops (level : Nat) (chain : List (Text × Node)) : Prop :=
  ∀ link ∈ chain.head?, precedence link.1 < level

/-- One step of a climb. -/
theorem climb_cons {level : Nat} {op : Text} (h : level ≤ precedence op) (fuel : Nat)
    (left x : Node) (chain : List (Text × Node)) :
    climb (fuel + 1) level left ((op, x) :: chain) =
      climb fuel level (.binary left op (climb fuel (rightLevel op) x chain).1)
        (climb fuel (rightLevel op) x chain).2 := by
  rw [climb, if_neg (by omega)]

/-- A climb that is stopped changes nothing. -/
theorem climb_of_stops {level : Nat} {chain : List (Text × Node)} (h : Stops level chain)
    (fuel : Nat) (left : Node) : climb fuel level left chain = (left, chain) := by
  cases fuel with
  | zero => rfl
  | succ fuel =>
    cases chain with
    | nil => rfl
    | cons link chain =>
      obtain ⟨op, x⟩ := link
      have hop : precedence op < level := h (op, x) rfl
      rw [climb, if_pos hop]

/-- A climb through the chain of a nested tree arrives at the tree. -/
theorem climb_chain {n : Node} (hn : Nested n) (fuel level : Nat) (chain : List (Text × Node))
    (hfuel : n.chainLinks.length + chain.length ≤ fuel) (hlevel : bindsAt level n = true)
    (hstop : ∀ link ∈ chain.head?, admitsLeft link.1 n = true) :
    ∃ fuel', chain.length ≤ fuel' ∧
      climb fuel level n.chainHead (n.chainLinks ++ chain) = climb fuel' level n chain := by
  fun_induction chainLinks n generalizing fuel level chain with
  | case1 left op right ihl ihr =>
    obtain ⟨hleft, hright, hnl, hnr⟩ := hn
    simp only [bindsAt, decide_eq_true_eq] at hlevel
    simp only [chainHead, List.length_append, List.length_cons, List.append_assoc,
      List.cons_append] at hfuel ⊢
    have hstop' : Stops (rightLevel op) chain := by
      intro link hlink
      simpa [admitsLeft] using hstop link hlink
    -- The operators inside `left` bind at least as tightly as `op`.
    have hlevel' : bindsAt level left = true := by
      cases left <;> try rfl
      rename_i inner _
      simp only [admitsLeft, bindsAt, decide_eq_true_eq] at hleft ⊢
      have := rightLevel_le inner
      omega
    obtain ⟨f, hf, heq⟩ := ihl hnl fuel level ((op, right.chainHead) :: (right.chainLinks ++ chain))
      (by simp only [List.length_append, List.length_cons]; omega) hlevel'
      (by intro link hlink; obtain rfl := Option.some.inj hlink; exact hleft)
    rw [heq]
    simp only [List.length_append, List.length_cons] at hf
    obtain ⟨f, rfl⟩ : ∃ m, f = m + 1 := ⟨f - 1, by omega⟩
    rw [climb_cons hlevel]
    -- What stops behind the whole tree stops behind its right operand too.
    have hright' : ∀ link ∈ chain.head?, admitsLeft link.1 right = true := by
      intro link hlink
      have hlt := hstop' link hlink
      cases right <;> try rfl
      rename_i inner _
      simp only [bindsAt, admitsLeft, decide_eq_true_eq] at hright ⊢
      have := precedence_le_rightLevel inner
      omega
    obtain ⟨g, -, heq'⟩ := ihr hnr f (rightLevel op) chain (by omega) hright hright'
    rw [heq', climb_of_stops hstop']
    exact ⟨f, by omega, rfl⟩
  | case2 n hnot =>
    have hb : n.isBinary = false := by
      cases n <;> first | rfl | exact absurd rfl (hnot _ _ _)
    rw [chainHead_of_not_binary hb]
    exact ⟨fuel, by simpa using hfuel, rfl⟩

/-- A nested tree is the fold of its chain. -/
theorem fold_chain {n : Node} (hn : Nested n) : fold n.chainHead n.chainLinks = n := by
  obtain ⟨fuel, -, h⟩ := climb_chain hn n.chainLinks.length 0 [] (by simp)
    (by cases n <;> simp [bindsAt]) (by simp)
  rw [List.append_nil] at h
  rw [fold, h, climb_of_stops (by simp [Stops])]

/-- What a climb from `left` over `chain` gives: a nested tree and the rest of the chain. -/
structure Climbed (level : Nat) (left : Node) (chain : List (Text × Node))
    (res : Node × List (Text × Node)) : Prop where
  /-- The first operand is kept. -/
  head : res.1.chainHead = left.chainHead
  /-- The links are kept. -/
  links : res.1.chainLinks ++ res.2 = left.chainLinks ++ chain
  /-- The operators are nested. -/
  nested : Nested res.1
  /-- The operators taken bind at the level. -/
  binds : bindsAt level res.1 = true
  /-- The rest begins with an operator that binds looser. -/
  stops : Stops level res.2
  /-- The rest is an end of the chain. -/
  suffix : res.2 <:+ chain

/-- Every climb keeps the chain and nests what it takes. -/
theorem climb_spec (fuel level : Nat) (left : Node) (chain : List (Text × Node))
    (hfuel : chain.length ≤ fuel) (hchain : ∀ link ∈ chain, link.2.isBinary = false)
    (hleft : Nested left) (hlevel : bindsAt level left = true)
    (hadmits : ∀ link ∈ chain.head?, admitsLeft link.1 left = true) :
    Climbed level left chain (climb fuel level left chain) := by
  induction fuel generalizing level left chain with
  | zero =>
    obtain rfl : chain = [] := List.eq_nil_of_length_eq_zero (by omega)
    exact ⟨rfl, rfl, hleft, hlevel, by simp [Stops, climb], by simp [climb]⟩
  | succ fuel ih =>
    cases chain with
    | nil => exact ⟨rfl, rfl, hleft, hlevel, by simp [Stops, climb], by simp [climb]⟩
    | cons link chain =>
      obtain ⟨op, x⟩ := link
      rw [List.length_cons] at hfuel
      by_cases hop : precedence op < level
      · have hstop : Stops level ((op, x) :: chain) := by
          intro link hlink
          obtain rfl := Option.some.inj hlink
          exact hop
        rw [climb_of_stops hstop]
        exact ⟨rfl, rfl, hleft, hlevel, hstop, List.suffix_rfl⟩
      · have hx : x.isBinary = false := hchain (op, x) (List.mem_cons_self ..)
        have hsub : ∀ link ∈ chain, link.2.isBinary = false :=
          fun link h => hchain link (List.mem_cons_of_mem _ h)
        -- First the right operand climbs above the operator, then the operation goes on as the left
        -- operand of what is left.
        have hr := ih (rightLevel op) x chain (by omega) hsub
          (nested_of_not_binary hx) (bindsAt_of_not_binary hx _)
          (fun _ _ => admitsLeft_of_not_binary hx _)
        rw [climb_cons (by omega)]
        generalize climb fuel (rightLevel op) x chain = right at hr ⊢
        have hshort := hr.suffix.length_le
        have hn := ih level (.binary left op right.1) right.2 (by omega)
          (fun link h => hsub link (hr.suffix.subset h))
          ⟨hadmits (op, x) rfl, hr.binds, hleft, hr.nested⟩
          (by simpa [bindsAt] using hop)
          (by intro link hlink; simpa [admitsLeft] using hr.stops link hlink)
        refine ⟨hn.head, ?_, hn.nested, hn.binds, hn.stops, ?_⟩
        · rw [hn.links, chainLinks, hr.head, chainHead_of_not_binary hx, List.append_assoc,
            List.cons_append, hr.links, chainLinks_of_not_binary hx, List.nil_append]
        · exact (hn.suffix.trans hr.suffix).trans (List.suffix_cons ..)

/-- A fold keeps the chain and is nested. -/
theorem fold_spec {first : Node} {chain : List (Text × Node)} (hfirst : first.isBinary = false)
    (hchain : ∀ link ∈ chain, link.2.isBinary = false) :
    (fold first chain).chainHead = first ∧ (fold first chain).chainLinks = chain ∧
      Nested (fold first chain) := by
  have h := climb_spec chain.length 0 first chain (Nat.le_refl _) hchain
    (nested_of_not_binary hfirst) (bindsAt_of_not_binary hfirst _)
    (fun _ _ => admitsLeft_of_not_binary hfirst _)
  have hrest : (climb chain.length 0 first chain).2 = [] := by
    cases hr : (climb chain.length 0 first chain).2 with
    | nil => rfl
    | cons link rest =>
      have := h.stops link (by rw [hr]; rfl)
      omega
  have hlinks := h.links
  rw [hrest, List.append_nil, chainLinks_of_not_binary hfirst, List.nil_append] at hlinks
  exact ⟨by rw [fold, h.head, chainHead_of_not_binary hfirst], hlinks, h.nested⟩

/-- A map of trees that goes through binary operations goes through a climb. -/
theorem climb_map (g : Node → Node)
    (hg : ∀ left op right, g (.binary left op right) = .binary (g left) op (g right))
    (fuel level : Nat) (left : Node) (chain : List (Text × Node)) :
    climb fuel level (g left) (chain.map fun link => (link.1, g link.2)) =
      (g (climb fuel level left chain).1,
        (climb fuel level left chain).2.map fun link => (link.1, g link.2)) := by
  induction fuel generalizing level left chain with
  | zero => rfl
  | succ fuel ih =>
    cases chain with
    | nil => rfl
    | cons link chain =>
      obtain ⟨op, x⟩ := link
      rw [List.map_cons]
      by_cases hop : precedence op < level
      · rw [climb, climb, if_pos hop, if_pos hop, List.map_cons]
      · have hle : level ≤ precedence op := by omega
        rw [climb_cons hle, climb_cons hle, ih, ← hg, ih]

/-- A map of trees that goes through binary operations goes through a fold. -/
theorem fold_map (g : Node → Node)
    (hg : ∀ left op right, g (.binary left op right) = .binary (g left) op (g right))
    (first : Node) (chain : List (Text × Node)) :
    fold (g first) (chain.map fun link => (link.1, g link.2)) = g (fold first chain) := by
  rw [fold, List.length_map, climb_map g hg, fold]

end Operator

end CubeSchema
