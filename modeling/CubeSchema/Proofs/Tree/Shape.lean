import CubeSchema.Tree.Cursor

/-!
# Trees without their places

Two trees are compared without the places of their nodes. `Node.unplaced` forgets the places,
`Node.regrouped` adds the parentheses that printing adds, and `Node.all` checks every node of a tree
against a test, which is the same as checking the nodes that a walk visits.
-/

namespace CubeSchema.Node

mutual

/-- The tree with all places forgotten. -/
def unplaced : Node → Node
  | absent => absent
  | program _ body => program .unknown (unplacedAll body)
  | varDecl _ keyword name init => varDecl .unknown keyword name.unplaced init.unplaced
  | exprStmt x => exprStmt x.unplaced
  | identifier _ name => identifier .unknown name
  | stringLiteral _ value raw => stringLiteral .unknown value raw
  | templateLiteral _ quasis exprs => templateLiteral .unknown quasis (unplacedAll exprs)
  | numberLiteral _ raw => numberLiteral .unknown raw
  | keywordLiteral _ value => keywordLiteral .unknown value
  | array _ elements => array .unknown (unplacedAll elements)
  | object _ properties => object .unknown (unplacedAll properties)
  | property _ key value computed shorthand =>
    property .unknown key.unplaced value.unplaced computed shorthand
  | spread _ x => spread .unknown x.unplaced
  | member obj prop computed optional => member obj.unplaced prop.unplaced computed optional
  | call callee args optional => call callee.unplaced (unplacedAll args) optional
  | function _ params body async => function .unknown (unplacedAll params) body.unplaced async
  | binary left op right => binary left.unplaced op right.unplaced
  | unary _ op x => unary .unknown op x.unplaced
  | paren _ x => paren .unknown x.unplaced

/-- The trees of a list with all places forgotten. -/
def unplacedAll : List Node → List Node
  | [] => []
  | n :: rest => n.unplaced :: unplacedAll rest

end

/-- A node in parentheses, when asked for. -/
def grouped (needed : Bool) (n : Node) : Node := if needed then paren .unknown n else n

mutual

/-- The tree with the parentheses that printing adds: around an object or a function that is a
statement, and around an object that is the body of a function. -/
def regrouped : Node → Node
  | absent => absent
  | program pos body => program pos (regroupedAll body)
  | varDecl pos keyword name init => varDecl pos keyword name.regrouped init.regrouped
  | exprStmt x => exprStmt (grouped (x.kind = .object || x.kind = .function) x.regrouped)
  | identifier pos name => identifier pos name
  | stringLiteral pos value raw => stringLiteral pos value raw
  | templateLiteral pos quasis exprs => templateLiteral pos quasis (regroupedAll exprs)
  | numberLiteral pos raw => numberLiteral pos raw
  | keywordLiteral pos value => keywordLiteral pos value
  | array pos elements => array pos (regroupedAll elements)
  | object pos properties => object pos (regroupedAll properties)
  | property pos key value computed shorthand =>
    property pos key.regrouped value.regrouped computed shorthand
  | spread pos x => spread pos x.regrouped
  | member obj prop computed optional => member obj.regrouped prop.regrouped computed optional
  | call callee args optional => call callee.regrouped (regroupedAll args) optional
  | function pos params body async =>
    function pos (regroupedAll params) (grouped (body.kind = .object) body.regrouped) async
  | binary left op right => binary left.regrouped op right.regrouped
  | unary pos op x => unary pos op x.regrouped
  | paren pos x => paren pos x.regrouped

/-- The trees of a list with the parentheses that printing adds. -/
def regroupedAll : List Node → List Node
  | [] => []
  | n :: rest => n.regrouped :: regroupedAll rest

end

theorem unplacedAll_eq_map (ns : List Node) : unplacedAll ns = ns.map unplaced := by
  induction ns with
  | nil => rfl
  | cons n ns ih => rw [unplacedAll, ih, List.map_cons]

theorem regroupedAll_eq_map (ns : List Node) : regroupedAll ns = ns.map regrouped := by
  induction ns with
  | nil => rfl
  | cons n ns ih => rw [regroupedAll, ih, List.map_cons]

@[simp] theorem isAbsent_unplaced (n : Node) : n.unplaced.isAbsent = n.isAbsent := by
  cases n <;> rfl

@[simp] theorem isAbsent_regrouped (n : Node) : n.regrouped.isAbsent = n.isAbsent := by
  cases n <;> rfl

/-! ## Checking every node -/

mutual

/-- Whether all nodes of a tree pass a test; an absent node does not count. -/
def all (p : Node → Bool) : Node → Bool
  | absent => true
  | program pos body => p (program pos body) && allOf p body
  | varDecl pos keyword name init => p (varDecl pos keyword name init) && name.all p && init.all p
  | exprStmt x => p (exprStmt x) && x.all p
  | identifier pos name => p (identifier pos name)
  | stringLiteral pos value raw => p (stringLiteral pos value raw)
  | templateLiteral pos quasis exprs => p (templateLiteral pos quasis exprs) && allOf p exprs
  | numberLiteral pos raw => p (numberLiteral pos raw)
  | keywordLiteral pos value => p (keywordLiteral pos value)
  | array pos elements => p (array pos elements) && allOf p elements
  | object pos properties => p (object pos properties) && allOf p properties
  | property pos key value computed shorthand =>
    p (property pos key value computed shorthand) && key.all p && value.all p
  | spread pos x => p (spread pos x) && x.all p
  | member obj prop computed optional =>
    p (member obj prop computed optional) && obj.all p && prop.all p
  | call callee args optional => p (call callee args optional) && callee.all p && allOf p args
  | function pos params body async =>
    p (function pos params body async) && allOf p params && body.all p
  | binary left op right => p (binary left op right) && left.all p && right.all p
  | unary pos op x => p (unary pos op x) && x.all p
  | paren pos x => p (paren pos x) && x.all p

/-- Whether all nodes of some trees pass a test. -/
def allOf (p : Node → Bool) : List Node → Bool
  | [] => true
  | n :: rest => n.all p && allOf p rest

end

/-- Lists of trees that agree tree by tree agree as lists. -/
theorem map_eq_of_zip {α β γ : Type} {f : α → γ} {g : β → γ} {as : List α} {bs : List β}
    (hlength : bs.length = as.length) (h : ∀ p ∈ as.zip bs, g p.2 = f p.1) :
    bs.map g = as.map f := by
  induction as generalizing bs with
  | nil => rw [List.eq_nil_of_length_eq_zero hlength, List.map_nil, List.map_nil]
  | cons a as ih =>
    cases bs with
    | nil => simp at hlength
    | cons b bs =>
      have hb : g b = f a := h (a, b) (List.mem_cons_self ..)
      rw [List.map_cons, List.map_cons, hb,
        ih (Nat.succ.inj hlength) fun p hp => h p (List.mem_cons_of_mem _ hp)]

theorem allOf_eq_true {p : Node → Bool} {ns : List Node} :
    allOf p ns = true ↔ ∀ n ∈ ns, n.all p = true := by
  induction ns with
  | nil => simp [allOf]
  | cons n ns ih => simp [allOf, ih]

mutual

/-- The nodes checked are those that a walk visits. -/
theorem all_eq_true_iff (p : Node → Bool) (above : List Frame) (n : Node) :
    n.all p = true ↔ ∀ c ∈ n.visits above, p c.focus = true := by
  -- Each child is seen from the place that it has below the node, so the frames above it grow.
  cases n with
  | absent => simp [all, visits]
  | program pos body =>
    simp [all, visits, allOf_eq_true_iff p above (program pos body) .programBody 0 body]
  | varDecl pos keyword name init =>
    have hname := all_eq_true_iff p
      (⟨varDecl pos keyword name init, ⟨.varName, none⟩⟩ :: above) name
    have hinit := all_eq_true_iff p
      (⟨varDecl pos keyword name init, ⟨.varInit, none⟩⟩ :: above) init
    simp [all, visits, hname, hinit, or_imp, forall_and, and_assoc]
  | exprStmt x =>
    simp [all, visits, all_eq_true_iff p (⟨exprStmt x, ⟨.stmtExpr, none⟩⟩ :: above) x]
  | identifier pos name => simp [all, visits]
  | stringLiteral pos value raw => simp [all, visits]
  | templateLiteral pos quasis exprs =>
    simp [all, visits,
      allOf_eq_true_iff p above (templateLiteral pos quasis exprs) .templateExpr 0 exprs]
  | numberLiteral pos raw => simp [all, visits]
  | keywordLiteral pos value => simp [all, visits]
  | array pos elements =>
    simp [all, visits, allOf_eq_true_iff p above (array pos elements) .arrayElement 0 elements]
  | object pos properties =>
    simp [all, visits,
      allOf_eq_true_iff p above (object pos properties) .objectProperty 0 properties]
  | property pos key value computed shorthand =>
    have hkey := all_eq_true_iff p
      (⟨property pos key value computed shorthand, ⟨.propertyKey, none⟩⟩ :: above) key
    have hvalue := all_eq_true_iff p
      (⟨property pos key value computed shorthand, ⟨.propertyValue, none⟩⟩ :: above) value
    simp [all, visits, hkey, hvalue, or_imp, forall_and, and_assoc]
  | spread pos x =>
    simp [all, visits, all_eq_true_iff p (⟨spread pos x, ⟨.spreadArgument, none⟩⟩ :: above) x]
  | member obj prop computed optional =>
    have hobj := all_eq_true_iff p
      (⟨member obj prop computed optional, ⟨.memberObject, none⟩⟩ :: above) obj
    have hprop := all_eq_true_iff p
      (⟨member obj prop computed optional, ⟨.memberProperty, none⟩⟩ :: above) prop
    simp [all, visits, hobj, hprop, or_imp, forall_and, and_assoc]
  | call callee args optional =>
    have hcallee := all_eq_true_iff p
      (⟨call callee args optional, ⟨.callCallee, none⟩⟩ :: above) callee
    have hargs := allOf_eq_true_iff p above (call callee args optional) .callArgument 0 args
    simp [all, visits, hcallee, hargs, or_imp, forall_and, and_assoc]
  | function pos params body async =>
    have hparams :=
      allOf_eq_true_iff p above (function pos params body async) .functionParam 0 params
    have hbody := all_eq_true_iff p
      (⟨function pos params body async, ⟨.functionBody, none⟩⟩ :: above) body
    simp [all, visits, hparams, hbody, or_imp, forall_and, and_assoc]
  | binary left op right =>
    have hleft := all_eq_true_iff p (⟨binary left op right, ⟨.binaryLeft, none⟩⟩ :: above) left
    have hright := all_eq_true_iff p (⟨binary left op right, ⟨.binaryRight, none⟩⟩ :: above) right
    simp [all, visits, hleft, hright, or_imp, forall_and, and_assoc]
  | unary pos op x =>
    simp [all, visits, all_eq_true_iff p (⟨unary pos op x, ⟨.unaryOperand, none⟩⟩ :: above) x]
  | paren pos x =>
    simp [all, visits, all_eq_true_iff p (⟨paren pos x, ⟨.parenExpr, none⟩⟩ :: above) x]

theorem allOf_eq_true_iff (p : Node → Bool) (above : List Frame) (parent : Node) (edge : Edge)
    (i : Nat) (ns : List Node) :
    allOf p ns = true ↔ ∀ c ∈ visitsAll above parent edge i ns, p c.focus = true := by
  cases ns with
  | nil => simp [allOf, visitsAll]
  | cons n ns =>
    have hn := all_eq_true_iff p (⟨parent, ⟨edge, some i⟩⟩ :: above) n
    have hns := allOf_eq_true_iff p above parent edge (i + 1) ns
    simp [allOf, visitsAll, hn, hns, or_imp, forall_and]

end

end CubeSchema.Node
