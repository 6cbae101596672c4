import CubeSchema.Proofs.Deferral.Walking

/-!
# Taking deferred functions away again

The declarations of a tree can be read off the tree that a pass makes of it, and with them how many
functions have been put around each value. `erased` takes that many away. What comes out is the
original tree, except that a property which was written as its key alone is written in full.
-/

namespace CubeSchema

open Deferral Node

mutual

/-- The tree without the functions that a pass has put in place. The node stands in the declarations
`ds`, at `edge` of its parent and that one at `up`, with `layers` added functions around it. -/
def erased (ds : List Declaration) (up edge : Edge) (layers : Nat) : Node → Node
  | .absent => .absent
  | .program pos body => .program pos (erasedAll ds edge .programBody body)
  | .varDecl pos keyword name init =>
    .varDecl pos keyword (erased ds edge .varName 0 name) (erased ds edge .varInit 0 init)
  | .exprStmt x => .exprStmt (erased ds edge .stmtExpr 0 x)
  | .identifier pos name => .identifier pos name
  | .stringLiteral pos value raw => .stringLiteral pos value raw
  | .templateLiteral pos quasis exprs =>
    .templateLiteral pos quasis (erasedAll ds edge .templateExpr exprs)
  | .numberLiteral pos raw => .numberLiteral pos raw
  | .keywordLiteral pos value => .keywordLiteral pos value
  | .array pos elements => .array pos (erasedAll ds edge .arrayElement elements)
  | .object pos properties => .object pos (erasedAll ds edge .objectProperty properties)
  | .property pos key value computed shorthand =>
    let layers := match Node.keyName? (.property pos key value computed shorthand) with
      | some name => ds.countP fun d => d.defers name up
      | none => 0
    .property pos (erased ds edge .propertyKey 0 key) (erased ds edge .propertyValue layers value)
      computed shorthand
  | .spread pos x => .spread pos (erased ds edge .spreadArgument 0 x)
  | .member obj prop computed optional =>
    .member (erased ds edge .memberObject 0 obj) (erased ds edge .memberProperty 0 prop) computed
      optional
  | .call callee args optional =>
    let inside := match declaration? callee args with
      | some d => d :: ds
      | none => ds
    .call (erased ds edge .callCallee 0 callee) (erasedArgs ds inside edge args) optional
  | .function pos params body async =>
    match layers with
    | layers + 1 => erased ds up edge layers body
    | 0 => .function pos (erasedAll ds edge .functionParam params)
      (erased ds edge .functionBody 0 body) async
  | .binary left op right =>
    .binary (erased ds edge .binaryLeft 0 left) op (erased ds edge .binaryRight 0 right)
  | .unary pos op x => .unary pos op (erased ds edge .unaryOperand 0 x)
  | .paren pos x => .paren pos (erased ds edge .parenExpr 0 x)

/-- The trees of a list without the functions that a pass has put in place. -/
def erasedAll (ds : List Declaration) (up edge : Edge) : List Node → List Node
  | [] => []
  | n :: rest => erased ds up edge 0 n :: erasedAll ds up edge rest

/-- The arguments of a call without the functions that a pass has put in place; the last one stands
in the declarations `inside`. -/
def erasedArgs (ds inside : List Declaration) (up : Edge) : List Node → List Node
  | [] => []
  | [body] => [erased inside up .callArgument 0 body]
  | n :: rest => erased ds up .callArgument 0 n :: erasedArgs ds inside up rest

end

mutual

/-- The tree with all properties written in full. -/
def Node.longhand : Node → Node
  | absent => absent
  | program pos body => program pos (longhandAll body)
  | varDecl pos keyword name init => varDecl pos keyword name.longhand init.longhand
  | exprStmt x => exprStmt x.longhand
  | identifier pos name => identifier pos name
  | stringLiteral pos value raw => stringLiteral pos value raw
  | templateLiteral pos quasis exprs => templateLiteral pos quasis (longhandAll exprs)
  | numberLiteral pos raw => numberLiteral pos raw
  | keywordLiteral pos value => keywordLiteral pos value
  | array pos elements => array pos (longhandAll elements)
  | object pos properties => object pos (longhandAll properties)
  | property pos key value computed _ => property pos key.longhand value.longhand computed false
  | spread pos x => spread pos x.longhand
  | member obj prop computed optional => member obj.longhand prop.longhand computed optional
  | call callee args optional => call callee.longhand (longhandAll args) optional
  | function pos params body async => function pos (longhandAll params) body.longhand async
  | binary left op right => binary left.longhand op right.longhand
  | unary pos op x => unary pos op x.longhand
  | paren pos x => paren pos x.longhand

/-- The trees of a list with all properties written in full. -/
def Node.longhandAll : List Node → List Node
  | [] => []
  | n :: rest => n.longhand :: longhandAll rest

end

theorem longhandAll_erasedAll {ds : List Declaration} {up edge : Edge} {ns ms : List Node}
    (hlength : ms.length = ns.length)
    (h : ∀ p ∈ ns.zip ms, (erased ds up edge 0 p.2).longhand = p.1.longhand) :
    longhandAll (erasedAll ds up edge ms) = longhandAll ns := by
  induction ns generalizing ms with
  | nil =>
    rw [List.eq_nil_of_length_eq_zero hlength, erasedAll]
  | cons n ns ih =>
    cases ms with
    | nil => simp at hlength
    | cons m ms =>
      rw [erasedAll, longhandAll, longhandAll, h (n, m) (List.mem_cons_self ..),
        ih (Nat.succ.inj hlength) fun p hp => h p (List.mem_cons_of_mem _ hp)]

theorem erasedArgs_self (ds : List Declaration) (up : Edge) (ns : List Node) :
    erasedArgs ds ds up ns = erasedAll ds up .callArgument ns := by
  induction ns with
  | nil => rw [erasedArgs, erasedAll]
  | cons n ns ih =>
    cases ns with
    | nil => rw [erasedArgs, erasedAll, erasedAll]
    | cons m ns =>
      rw [erasedArgs, ih, ← erasedAll]
      exact List.cons_ne_nil _ _

theorem erasedArgs_snoc (ds inside : List Declaration) (up : Edge) (ns : List Node) (body : Node) :
    erasedArgs ds inside up (ns ++ [body]) =
      erasedAll ds up .callArgument ns ++ [erased inside up .callArgument 0 body] := by
  induction ns with
  | nil => rw [List.nil_append, erasedArgs, erasedAll, List.nil_append]
  | cons n ns ih =>
    rw [List.cons_append, erasedArgs, ih, erasedAll, List.cons_append]
    simp

theorem longhandAll_append (ns ms : List Node) :
    longhandAll (ns ++ ms) = longhandAll ns ++ longhandAll ms := by
  induction ns with
  | nil => rfl
  | cons n ns ih => rw [List.cons_append, longhandAll, longhandAll, ih, List.cons_append]

/-- As many functions are taken away as there are layers. -/
theorem Layered.erased_eq {ok : ParamRule} {key : Text} {up : Edge} {value x y : Node}
    {ds : List Declaration} (h : Layered ok key up value ds x y) (es : List Declaration)
    (u e : Edge) :
    erased es u e (ds.countP fun d => d.defers key up) y = erased es u e 0 x := by
  induction h with
  | nil => rfl
  | skip hd _ ih => rw [List.countP_cons_of_neg (by simp [hd]), ih]
  | wrap hd _ _ ih => rw [List.countP_cons_of_pos (by simpa using hd), deferred, erased, ih]

/-- Taking the functions away that have been put in place gives the tree back. -/
theorem Placed.longhand_erased {ok : ParamRule} {ds : List Declaration} {up edge : Edge}
    {n m : Node} (h : Placed ok true ds up edge n m) :
    (erased ds up edge 0 m).longhand = n.longhand := by
  induction h with
  | @leaf _ _ _ n hleaf => cases n <;> first | (simp [isLeaf] at hleaf; done) | rw [erased]
  | program hlength _ ih =>
    rw [erased, longhand, longhand, longhandAll_erasedAll hlength ih]
  | varDecl _ _ ihname ihinit => rw [erased, longhand, longhand, ihname, ihinit]
  | exprStmt _ ih => rw [erased, longhand, longhand, ih]
  | templateLiteral hlength _ ih =>
    rw [erased, longhand, longhand, longhandAll_erasedAll hlength ih]
  | array hlength _ ih => rw [erased, longhand, longhand, longhandAll_erasedAll hlength ih]
  | object hlength _ ih => rw [erased, longhand, longhand, longhandAll_erasedAll hlength ih]
  | field hexpr _ hlayers ih =>
    rw [erased]
    simp only [keyName?]
    rw [longhand, longhand, hlayers.erased_eq, ih, erased]
  | @property ds up edge pos key key' value value' computed shorthand hnone hkey hvalue ihkey
      ihvalue =>
    -- No function is around the value, as the property has no name or no value.
    rw [erased, longhand, longhand, ihkey, hkey.keyName pos value]
    rcases hnone with hnone | habsent
    · rw [hnone, ihvalue]
    · have habsent' : value' = .absent := by
        rw [← hvalue.isAbsent] at habsent
        cases value' <;> first | rfl | simp [Node.isAbsent] at habsent
      rw [habsent', erased] at ihvalue ⊢
      rw [ihvalue]
  | spread _ ih => rw [erased, longhand, longhand, ih]
  | member _ _ ihobj ihprop => rw [erased, longhand, longhand, ihobj, ihprop]
  | call hnone hcallee hlength hargs ihcallee ihargs =>
    have hnone' := (hcallee.declaration_eq hlength fun p hp => (hargs p hp).scopeName).trans hnone
    rw [erased, hnone']
    simp only
    rw [erasedArgs_self, longhand, longhand, ihcallee, longhandAll_erasedAll hlength ihargs]
  | @declaration ds up edge callee callee' body body' args args' optional d hsome hcallee hlength
      hargs hkind hbody ihcallee ihargs ihbody =>
    -- The call is found to be the same declaration, so the same layers are taken off its body.
    have hscopes := forall_zip_snoc (p := fun x y => Deferral.scopeName y = Deferral.scopeName x)
      hlength (fun p hp => (hargs p hp).scopeName) hbody.scopeName
    have hsome' := (hcallee.declaration_eq (by simp [hlength]) hscopes).trans hsome
    rw [erased, hsome']
    simp only
    rw [erasedArgs_snoc, longhand, longhand, ihcallee, longhandAll_append, longhandAll_append,
      longhandAll_erasedAll hlength ihargs, longhandAll, longhandAll, longhandAll, longhandAll]
    rw [within, if_pos rfl] at ihbody
    rw [ihbody]
  | function hlength _ _ ihparams ihbody =>
    rw [erased, longhand, longhand, longhandAll_erasedAll hlength ihparams, ihbody]
  | binary _ _ ihl ihr => rw [erased, longhand, longhand, ihl, ihr]
  | unary _ ih => rw [erased, longhand, longhand, ih]
  | paren _ ih => rw [erased, longhand, longhand, ih]

/-- A pass, as a walk that changes the tree in place, comes to its end with no fault. It puts one
function around a value for each declaration that defers it and changes nothing else: without these
functions the tree is the one that it was. -/
theorem run_places_functions (r : Resolvers) (n : Node) (h : n.all isTyped = true) :
    (n.isAbsent = false → ∀ fuel, (run r n).val.nodes.length ≤ fuel →
      (Cursor.root n).traverse (passHandlers r fuel).visitor fuel [] =
        .ok (.root (run r n).val, (run r n).log)) ∧
      Placed (fun _ _ _ _ _ => True) true [] .none .none n (run r n).val ∧
      (erased [] .none .none 0 (run r n).val).longhand = n.longhand := by
  have hany : Collects r fun _ _ _ _ _ => True :=
    ⟨fun _ _ _ _ _ _ => trivial, fun _ _ _ _ _ _ _ _ _ _ _ _ => trivial⟩
  have hplaced := run_placed hany h
  exact ⟨fun hpresent _ hfuel => traverse_run r hpresent h hfuel, hplaced,
    hplaced.longhand_erased⟩

/-- Functions are placed in a view inside of a cube. -/
theorem viewInCube_places_functions : viewInCube.all isTyped = true ∧
    viewInCube.isAbsent = false ∧ (run acceptingAll viewInCube).val.nodes.length ≤ 64 ∧
    (Cursor.root viewInCube).traverse (passHandlers acceptingAll 64).visitor 64 [] =
      .ok (.root (run acceptingAll viewInCube).val, (run acceptingAll viewInCube).log) ∧
    Placed (fun _ _ _ _ _ => True) true [] .none .none viewInCube
      (run acceptingAll viewInCube).val ∧
    (erased [] .none .none 0 (run acceptingAll viewInCube).val).longhand = viewInCube.longhand := by
  have htyped : viewInCube.all isTyped = true := by decide
  have hsize : (run acceptingAll viewInCube).val.nodes.length ≤ 64 := by decide
  obtain ⟨hwalk, hplaced, herased⟩ := run_places_functions acceptingAll viewInCube htyped
  exact ⟨htyped, rfl, hsize, hwalk rfl 64 hsize, hplaced, herased⟩

end CubeSchema
