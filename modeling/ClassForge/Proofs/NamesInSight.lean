import ClassForge.Proofs.Columns
import ClassForge.Proofs.Steps

set_option autoImplicit false

namespace ClassForge

def Head.names : Head → List String
  | .named id => [id]
  | .member owner _ => [owner]
  | .implicit | .self => []

mutual

def Expr.names : Expr → List String
  | .operand arg _ => arg.names
  | .binary _ left right _ => left.names ++ right.names

def Operand.names : Operand → List String
  | .atom value _ => value.names
  | .cast _ inner => inner.names
  | .array elements => Expr.allNames elements
  | .create _ arguments => Expr.allNames arguments

def Atom.names : Atom → List String
  | .literal _ => []
  | .nested inner => inner.names
  | .load head links => head.names ++ Call.names links

def Expr.allNames : List Expr → List String
  | [] => []
  | tree :: rest => tree.names ++ Expr.allNames rest

def Call.names : List Call → List String
  | [] => []
  | .call _ arguments :: rest => Expr.allNames arguments ++ Call.names rest

end

structure Context.Alike (ctx ctx' : Context) (names : List String) : Prop where
  self : ctx'.self = ctx.self
  isStatic : ctx'.isStatic = ctx.isStatic
  descriptor : ∀ t, ctx'.scope.descriptor t = ctx.scope.descriptor t
  coercion : ∀ source target, ctx'.program.coercion? source target = ctx.program.coercion? source target
  resolves : ∀ name ∈ names, ctx'.resolveName name = ctx.resolveName name
  field : ∀ owner name, ctx'.fieldOf owner name = ctx.fieldOf owner name
  method : ∀ owner name arguments, ctx'.methodOf owner name arguments = ctx.methodOf owner name arguments
  constructor : ∀ owner arguments instantiates, ctx'.program.constructorFor owner arguments instantiates =
    ctx.program.constructorFor owner arguments instantiates

def Slots.Agree (slots slots' : Slots) (names : List String) : Prop :=
  ∀ name ∈ names, slots.lookup? name = slots'.lookup? name

namespace Context.Alike

variable {ctx ctx' : Context} {names more : List String}

theorem refl (ctx : Context) (names : List String) : ctx.Alike ctx names :=
  ⟨rfl, rfl, fun _ => rfl, fun _ _ => rfl, fun _ _ => rfl, fun _ _ => rfl, fun _ _ _ => rfl, fun _ _ _ => rfl⟩

theorem of_agree (site : Site) {slots slots' : Slots} (agree : slots.Agree slots' names) :
    Context.Alike ⟨site, slots⟩ ⟨site, slots'⟩ names := by
  refine { refl ⟨site, slots⟩ names with resolves := fun name member => ?_ }
  simp only [resolveName, ← agree name member]
  rfl

theorem mono (alike : ctx.Alike ctx' more) (sub : names ⊆ more) : ctx.Alike ctx' names :=
  { alike with resolves := fun name member => alike.resolves name (sub member) }

theorem left (alike : ctx.Alike ctx' (names ++ more)) : ctx.Alike ctx' names :=
  alike.mono (List.subset_append_left _ _)

theorem right (alike : ctx.Alike ctx' (names ++ more)) : ctx.Alike ctx' more :=
  alike.mono (List.subset_append_right _ _)

theorem descriptorOf (alike : ctx.Alike ctx' names) (place : Place) :
    ctx'.descriptorOf place = ctx.descriptorOf place := by
  cases place <;> simp only [Context.descriptorOf, alike.self]

theorem resolveMember (alike : ctx.Alike ctx' names) (name : String) (base : Referent) :
    ctx'.resolveMember name base = ctx.resolveMember name base := by
  cases base <;> simp only [Context.resolveMember, alike.field, alike.descriptorOf]

theorem resolveHead {head : Head} (alike : ctx.Alike ctx' head.names) :
    ctx'.resolveHead head = ctx.resolveHead head := by
  cases head with
  | implicit => rfl
  | self => simp only [Context.resolveHead, resolveName, alike.isStatic, if_true]
  | named id => simp only [Context.resolveHead, alike.resolves id (by simp [Head.names])]
  | member owner id =>
    simp only [Context.resolveHead, alike.resolves owner (by simp [Head.names]), alike.resolveMember]

theorem firstMethod (alike : ctx.Alike ctx' names) (base : Option Referent) (name : String)
    (arguments : List Descriptor) : ctx'.firstMethod base name arguments = ctx.firstMethod base name arguments := by
  have head : ctx'.headClass name base = ctx.headClass name base := by
    rcases base with _ | _ | _ <;> simp only [headClass, alike.self, alike.descriptorOf]
  have static : ctx'.needsStatic base = ctx.needsStatic base := by
    rcases base with _ | _ | _ <;> simp only [needsStatic, alike.isStatic]
  simp only [Context.firstMethod, head, static, alike.method]

theorem nextMethod (alike : ctx.Alike ctx' names) (previous : Descriptor) (name : String)
    (arguments : List Descriptor) : ctx'.nextMethod previous name arguments =
      ctx.nextMethod previous name arguments := by
  simp only [Context.nextMethod, alike.method]

end Context.Alike

section Literals

variable (negated : Bool) (t : Token)

@[simp] theorem Token.literalType_bare : t.bare.literalType negated = t.literalType negated := rfl
@[simp] theorem Token.integerValue_bare : t.bare.integerValue negated = t.integerValue negated := rfl

@[simp]
theorem Expr.intConstant?_bare (tree : Expr) : tree.bare.intConstant? = tree.intConstant? := by
  cases tree with
  | binary op left right end' => rfl
  | operand arg end' =>
    cases arg with
    | atom value unary => cases value <;> rfl
    | cast target inner | array elements | create className arguments => rfl

end Literals

section Trees

variable {ctx ctx' : Context} {tree : Expr} {trees : List Expr}

theorem Operand.typeIn_array_eq (expected : Option Descriptor) (elements : List Expr) :
    Operand.typeIn ctx expected (.array elements) =
      match expectedArray? expected with
      | some d => .ok d
      | none =>
        match elements with
        | [] => .error (.lowering .emptyArray)
        | first :: _ => first.typeIn ctx none >>= Descriptor.literalArray := by
  unfold Operand.typeIn
  cases expectedArray? expected <;> cases elements <;> rfl

mutual

theorem Expr.typeIn_bare (expected : Option Descriptor) : (tree : Expr) → ctx.Alike ctx' tree.names →
    tree.bare.typeIn ctx' expected = tree.typeIn ctx expected
  | .operand arg _, alike => Operand.typeIn_bare expected arg alike
  | .binary op left right _, alike => by
    rw [Expr.names] at alike
    simp only [Expr.bare, Expr.typeIn, Expr.typeIn_bare none left alike.left, Expr.typeIn_bare none right alike.right]

theorem Operand.typeIn_bare (expected : Option Descriptor) : (arg : Operand) → ctx.Alike ctx' arg.names →
    arg.bare.typeIn ctx' expected = arg.typeIn ctx expected
  | .atom (.literal t) unary, _ => by
    rcases unary with _ | _ | _ | _ <;> simp [Operand.bare, Operand.typeIn, Atom.bare, Atom.typeIn]
  | .atom (.nested inner) unary, alike => by
    have same := Expr.typeIn_bare expected inner alike
    simp [Operand.bare, Operand.typeIn, Atom.bare, Atom.typeIn, same]
  | .atom (.load head calls) unary, alike => by
    have same := Atom.typeIn_bare expected (.load head calls) alike
    rw [Atom.bare] at same
    simp [Operand.bare, Operand.typeIn, Atom.bare, same]
  | .cast target _, alike => by simp only [Operand.bare, Operand.typeIn, alike.descriptor]
  | .array [], _ => by simp only [Operand.bare, Expr.bares, Operand.typeIn_array_eq]
  | .array (first :: rest), alike => by
    rw [Operand.names, Expr.allNames] at alike
    have same := Expr.typeIn_bare none first alike.left
    simp only [Operand.bare, Expr.bares, Operand.typeIn_array_eq, same]
  | .create className _, alike => by
    simp only [Operand.bare, Operand.typeIn, Scope.internalName, alike.descriptor]

theorem Atom.typeIn_bare (expected : Option Descriptor) : (atom : Atom) → ctx.Alike ctx' atom.names →
    atom.bare.typeIn ctx' expected = atom.typeIn ctx expected
  | .literal t, _ => by simp [Atom.bare, Atom.typeIn]
  | .nested inner, alike => Expr.typeIn_bare expected inner alike
  | .load head [], alike => by
    rw [Atom.names] at alike
    simp only [Atom.bare, Call.bares, Atom.typeIn, alike.left.resolveHead, alike.descriptorOf]
  | .load head (call :: rest), alike => by
    rw [Atom.names] at alike
    have same := fun base => Call.methodsIn_bares base none (call :: rest) alike.right
    rw [Call.bares] at same
    simp only [Atom.bare, Call.bares, Atom.typeIn, alike.left.resolveHead, same]

theorem Expr.typesIn_bares : (trees : List Expr) → ctx.Alike ctx' (Expr.allNames trees) →
    Expr.typesIn ctx' (Expr.bares trees) = Expr.typesIn ctx trees
  | [], _ => rfl
  | tree :: rest, alike => by
    rw [Expr.allNames] at alike
    simp only [Expr.bares, Expr.typesIn, Expr.typeIn_bare none tree alike.left, Expr.typesIn_bares rest alike.right]

theorem Call.methodsIn_bares (base : Option Referent) (previous : Option Descriptor) :
    (calls : List Call) → ctx.Alike ctx' (Call.names calls) →
      Call.methodsIn ctx' base previous (Call.bares calls) = Call.methodsIn ctx base previous calls
  | [], _ => rfl
  | .call name arguments :: rest, alike => by
    rw [Call.names] at alike
    have later := fun previous => Call.methodsIn_bares base previous rest alike.right
    simp only [Call.bares, Call.bare, Call.methodsIn, Expr.typesIn_bares arguments alike.left, alike.firstMethod,
      alike.nextMethod, later]

end

theorem ExprCode.underUnary_bare (atom : Atom) (operator : UnaryOp) (inner : ExprCode) :
    underUnary atom.bare operator inner = underUnary atom operator inner := by
  cases atom <;> cases operator <;> rfl

mutual

theorem Expr.code_bare : (tree : Expr) → ctx.Alike ctx' tree.names → tree.bare.code ctx' = tree.code ctx
  | .operand arg _, alike => Operand.code_bare arg alike
  | .binary op left right _, alike => by
    rw [Expr.names] at alike
    have l := Expr.typeIn_bare none left alike.left
    have r := Expr.typeIn_bare none right alike.right
    rw [Expr.bare, Expr.code, Expr.code, Expr.code_bare left alike.left, Expr.code_bare right alike.right]
    unfold ExprCode.binary ExprCode.compare ExprCode.arithmetic
    simp only [l, r, Expr.intConstant?_bare]

theorem Operand.code_bare : (arg : Operand) → ctx.Alike ctx' arg.names → arg.bare.code ctx' = arg.code ctx
  | .atom value none, alike => Atom.code_bare value alike
  | .atom value (some operator), alike => by
    rw [Operand.names] at alike
    simp only [Operand.bare, Operand.code, Atom.code_bare value alike, ExprCode.underUnary_bare]
  | .cast target inner, alike => by
    rw [Operand.names] at alike
    simp only [Operand.bare, Operand.code, Expr.code_bare inner alike, ExprCode.cast, alike.descriptor, alike.coercion]
  | .array elements, alike => by
    have types := fun expected => Operand.typeIn_bare expected (.array elements) alike
    rw [Operand.names] at alike
    rw [Operand.bare] at types
    simp only [Operand.bare, Operand.code, Expr.argCodes_bares elements alike, types]
  | .create className arguments, alike => by
    rw [Operand.names] at alike
    simp only [Operand.bare, Operand.code, Expr.argCodes_bares arguments alike, ExprCode.create, alike.descriptor,
      Expr.typesIn_bares arguments alike, alike.constructor]

theorem Atom.code_bare : (atom : Atom) → ctx.Alike ctx' atom.names → atom.bare.code ctx' = atom.code ctx
  | .literal t, _ => rfl
  | .nested inner, alike => by
    rw [Atom.names] at alike
    simp only [Atom.bare, Atom.code, Expr.code_bare inner alike]
  | .load head [], alike => by
    rw [Atom.names] at alike
    simp only [Atom.bare, Call.bares, Atom.code, ExprCode.load, alike.left.resolveHead, alike.descriptorOf]
  | .load head (call :: rest), alike => by
    rw [Atom.names] at alike
    have same := fun base => Call.methodsIn_bares base none (call :: rest) alike.right
    have codes := Call.argCodes_bares (call :: rest) alike.right
    rw [Call.bares] at same codes
    simp only [Atom.bare, Call.bares, Atom.code, ExprCode.load, codes, alike.left.resolveHead, same]

theorem Expr.argCodes_bares : (trees : List Expr) → ctx.Alike ctx' (Expr.allNames trees) →
    Expr.argCodes ctx' (Expr.bares trees) = Expr.argCodes ctx trees
  | [], _ => rfl
  | tree :: rest, alike => by
    rw [Expr.allNames] at alike
    have same := Expr.code_bare tree alike.left
    simp only [Expr.bares, Expr.argCodes, same, Expr.argCodes_bares rest alike.right]
    congr 1
    funext expected
    simp only [ExprCode.valueAs, Expr.intConstant?_bare, Gen.coerce, alike.coercion]

theorem Call.argCodes_bares : (calls : List Call) → ctx.Alike ctx' (Call.names calls) →
    Call.argCodes ctx' (Call.bares calls) = Call.argCodes ctx calls
  | [], _ => rfl
  | .call name arguments :: rest, alike => by
    rw [Call.names] at alike
    simp only [Call.bares, Call.bare, Call.argCodes, Expr.argCodes_bares arguments alike.left,
      Call.argCodes_bares rest alike.right]

end

theorem Expr.codeAs_bare (alike : ctx.Alike ctx' tree.names) (expected : Descriptor) :
    tree.bare.codeAs ctx' expected = tree.codeAs ctx expected := by
  simp only [Expr.codeAs, Expr.code_bare tree alike, ExprCode.valueAs, Expr.intConstant?_bare, Gen.coerce,
    alike.coercion]

theorem Expr.codeAs_alike (alike : ctx.Alike ctx' tree.names) (expected : Descriptor) :
    tree.codeAs ctx' expected = tree.codeAs ctx expected :=
  (Expr.codeAs_bare (.refl ctx' _) expected).symm.trans (Expr.codeAs_bare alike expected)

theorem Expr.typesIn_alike (alike : ctx.Alike ctx' (Expr.allNames trees)) :
    Expr.typesIn ctx' trees = Expr.typesIn ctx trees :=
  (Expr.typesIn_bares trees (.refl ctx' _)).symm.trans (Expr.typesIn_bares trees alike)

theorem Expr.argCodes_alike (alike : ctx.Alike ctx' (Expr.allNames trees)) :
    Expr.argCodes ctx' trees = Expr.argCodes ctx trees :=
  (Expr.argCodes_bares trees (.refl ctx' _)).symm.trans (Expr.argCodes_bares trees alike)

end Trees

end ClassForge
