import ClassForge.Decl.Basic
import ClassForge.Expr.Parse

set_option autoImplicit false

namespace ClassForge

open Text (SourcePath)

namespace Grammar

abbrev Fewer (ts : List Token) := { rest : List Token // rest.length < ts.length }

def name (what : String) (ts : List Token) : Except Cause (String × Fewer ts) :=
  match ts with
  | t :: ts => if t.isIdentifier then .ok (t.text, ⟨ts, by simp⟩) else TokenRule.expected what (some t)
  | [] => TokenRule.expected what none

def typeName (ts : List Token) : Except Cause (TypeName × Fewer ts) :=
  match ts with
  | t :: ts =>
    if t.isIdentifier then
      .ok ({ dims := (dimensions ts).1, base := t.text }, ⟨(dimensions ts).2, by
        have := length_dimensions_le ts
        rw [List.length_cons]; omega⟩)
    else TokenRule.expected "type name" (some t)
  | [] => TokenRule.expected "type name" none

def typeNames (isSeparator : Token → Bool) (ts : List Token) :
    Except Cause (List TypeName × Fewer ts) := do
  let (type, ⟨ts₁, h₁⟩) ← typeName ts
  match ts₁, h₁ with
  | t :: ts₂, h₁ =>
    if isSeparator t then do
      let (types, ⟨ts₃, h₃⟩) ← typeNames isSeparator ts₂
      return (type :: types, ⟨ts₃, by simp at h₁; omega⟩)
    else return ([type], ⟨t :: ts₂, h₁⟩)
  | [], h₁ => return ([type], ⟨[], h₁⟩)
termination_by ts.length
decreasing_by simp at h₁; omega

def nextIsWord (word : String) (ts : List Token) : Bool :=
  ts.head?.any (·.isWord word)

def nextIsOperator (symbol : String) (ts : List Token) : Bool :=
  ts.head?.any (·.isOperator symbol)

theorem length_le_cons {t : Token} {ts rest : List Token} (h : rest.length ≤ ts.length) :
    rest.length ≤ (t :: ts).length :=
  Nat.le_succ_of_le h

def modifiers (m : Modifier) (hasAccess : Bool) (ts : List Token) : Rule Modifier ts :=
  match ts with
  | [] => .ok (m, Unread.all [])
  | t :: ts =>
    if t.isIdentifier then
      match Access.ofKeyword? t.text, Flag.ofKeyword? t.text with
      | some access, _ =>
        if hasAccess then .error (.parse (.repeatedAccess t.text))
        else do
          let (m, ⟨ts₁, h₁⟩) ← modifiers { m with access } true ts
          return (m, ⟨ts₁, length_le_cons h₁⟩)
      | none, some flag => do
        let m ← m.add flag
        let (m, ⟨ts₁, h₁⟩) ← modifiers m hasAccess ts
        return (m, ⟨ts₁, length_le_cons h₁⟩)
      | none, none => .ok (m, Unread.all (t :: ts))
    else .ok (m, Unread.all (t :: ts))

def bounds (ts : List Token) : Rule (List TypeName) ts :=
  match ts with
  | t :: ts =>
    if t.isPunct ':' then do
      let (types, ⟨ts₁, h₁⟩) ← typeNames (·.isOperator "&") ts
      return (types, ⟨ts₁, by rw [List.length_cons]; omega⟩)
    else .ok ([], Unread.all (t :: ts))
  | [] => .ok ([], Unread.all [])

def moreTypeParams (done : List TypeParam) (ts : List Token) :
    Except Cause (List TypeParam × Fewer ts) := do
  let (name, ⟨ts₁, h₁⟩) ← name "generic parameter" ts
  if done.any (·.name = name) then .error (.redefinition .typeParameter name)
  else
    let (bounds, ⟨ts₂, h₂⟩) ← bounds ts₁
    match ts₂, h₂ with
    | t :: ts₃, h₂ =>
      if t.isPunct ',' then do
        let (params, ⟨ts₄, h₄⟩) ← moreTypeParams (done ++ [{ name, bounds }]) ts₃
        return (params, ⟨ts₄, by simp at h₂; omega⟩)
      else if t.isOperator ">" then
        return (done ++ [{ name, bounds }], ⟨ts₃, by simp at h₂; omega⟩)
      else TokenRule.expected "'>'" (some t)
    | [], _ => TokenRule.expected "'>'" none
termination_by ts.length
decreasing_by simp at h₂; omega

def typeParams (ts : List Token) : Rule (List TypeParam) ts :=
  match ts with
  | t :: ts =>
    if t.isOperator "<" then do
      let (params, ⟨ts₁, h₁⟩) ← moreTypeParams [] ts
      return (params, ⟨ts₁, by rw [List.length_cons]; omega⟩)
    else .ok ([], Unread.all (t :: ts))
  | [] => .ok ([], Unread.all [])

def moreParams (done : List Param) (ts : List Token) : Except Cause (List Param × List Token) := do
  let (type, ⟨ts₁, _⟩) ← typeName ts
  let (name, ⟨ts₂, h₂⟩) ← name "parameter name" ts₁
  if done.any (·.name = name) then .error (.redefinition .parameter name)
  else
    match ts₂, h₂ with
    | t :: ts₃, h₂ =>
      if t.isPunct ')' then return (done ++ [{ type, name }], ts₃)
      else if t.isPunct ',' then moreParams (done ++ [{ type, name }]) ts₃
      else TokenRule.expected "','" (some t)
    | [], _ => TokenRule.expected "','" none
termination_by ts.length
decreasing_by simp at h₂; omega

def params : TokenRule (List Param) := fun ts => do
  let ((), ts) ← TokenRule.punct '(' ts
  if nextIs ')' ts then return ([], ts.tail) else moreParams [] ts

def values (done : List String) : TokenRule (List String)
  | [] => TokenRule.expected "value name" none
  | t :: ts =>
    if t.isIdentifier then
      let done := if t.text ∈ done then done else done ++ [t.text]
      match ts with
      | bar :: ts => if bar.isOperator "|" then values done ts else .ok (done, bar :: ts)
      | [] => .ok (done, [])
    else TokenRule.expected "value name" (some t)

def openBlock (ts : List Token) : Except Cause Unit := do
  let ((), ts) ← TokenRule.punct '{' ts
  TokenRule.lineEnd ts

def braceBalance (ts : List Token) : Int :=
  (ts.countP (·.isPunct '{') : Int) - ts.countP (·.isPunct '}')

end Grammar

inductive Member where
  | field (field : Field)
  | method (method : Method)
  | constructor (constructor : Constructor)

namespace Member

def withBody (body : List TokenLine) : Member → Member
  | .field f => .field f
  | .method m => .method { m with body := some body }
  | .constructor c => .constructor { c with body }

end Member

namespace Grammar

def methodHead (modifier : Modifier) (typeParams : List TypeParam) (type : TypeName) (name : String)
    (line : Nat) (ts : List Token) : Except Cause (Method × Bool) := do
  modifier.check .method
  let (params, ts) ← params ts
  let returns := if type = .plain "void" then none else some type
  let method : Method := { name, returns, params, body := none, modifier, typeParams, line }
  if nextIs '{' ts then
    if modifier.has .native then throw (.parse (.bodyForbidden "native" name))
    else if modifier.has .abstract then throw (.parse (.bodyForbidden "abstract" name))
    else
      openBlock ts
      return (method, true)
  else
    TokenRule.lineEnd ts
    return (method, false)

def constructorHead (modifier : Modifier) (line : Nat) (ts : List Token) :
    Except Cause Constructor := do
  modifier.check .constructor
  let (params, ts) ← params ts
  let head : Constructor := { params, body := [], modifier, superCall := none, line }
  if nextIs ':' ts then
    let (target, ts) ← TokenRule.identifier "superclass name" ts.tail
    let (arguments, ts) ← Expr.parseArguments ts
    match ts with
    | [brace] =>
      if brace.isPunct '{' then return { head with superCall := some { target, arguments } }
      else TokenRule.expected "'\x7b'" (some brace)
    | ts => TokenRule.expected "'\x7b'" ts.head?
  else
    openBlock ts
    return head

def fieldHead (modifier : Modifier) (typeParams : List TypeParam) (type : TypeName) (name : String)
    (line : Nat) (ts : List Token) : Except Cause Field := do
  if ¬ typeParams.isEmpty then throw (.parse (.genericField name))
  if type = .plain "void" then throw (.parse (.voidField name))
  modifier.check .field
  if nextIsOperator "=" ts then
    let init ← Expr.parse ts.tail
    return { name, type, modifier, line, init := some init }
  else
    TokenRule.lineEnd ts
    return { name, type, modifier, line, init := none }

def memberHead (modifier : Modifier) (line : Nat) (ts : List Token) : Except Cause (Member × Bool) := do
  if nextIsWord "init" ts ∧ nextIs '(' ts.tail then
    let head ← constructorHead modifier line ts.tail
    return (.constructor head, true)
  else
    let (typeParams, ⟨ts, _⟩) ← typeParams ts
    let (type, ⟨ts, _⟩) ← typeName ts
    let (name, ⟨ts, _⟩) ← name "member name" ts
    if nextIs '(' ts then
      let (head, hasBody) ← methodHead modifier typeParams type name line ts
      return (.method head, hasBody)
    else
      let field ← fieldHead modifier typeParams type name line ts
      return (.field field, false)

end Grammar

def maxBodyLines : Nat := 100000

-- The lines after an opening brace up to the line that closes it, and the lines after that one. `depth` counts
-- blocks opened inside, `room` how many more lines fit, and `done` holds the lines already taken in reverse.
def collectBody (path : SourcePath) (start : Location) (depth : Int) (done : List TokenLine)
    (room : Nat) : List TokenLine → Except CompileError (List TokenLine × List TokenLine)
  | [] => .error { cause := .parse .missingBrace, location := some start }
  | line :: rest =>
    if depth = 0 ∧ line.isClosingBrace then .ok (done.reverse, rest)
    else
      let depth := depth + Grammar.braceBalance line.tokens
      if depth < 0 then
        .error { cause := .parse .unbalancedBrace, location := some { path, line := line.number } }
      else match room with
        | 0 => .error { cause := .parse .bodyTooLong, location := some start }
        | room + 1 => collectBody path start depth (line :: done) room rest

theorem length_collectBody_lt {path : SourcePath} {start : Location} {depth : Int}
    {done lines body rest : List TokenLine} {room : Nat}
    (h : collectBody path start depth done room lines = .ok (body, rest)) :
    rest.length < lines.length := by
  fun_induction collectBody path start depth done room lines with
  | case1 => simp at h
  | case2 =>
    simp at h
    simp [h]
  | case3 => simp at h
  | case4 => simp at h
  | case5 depth done line lines _ _ _ _ ih =>
    have := ih h
    simp; omega

structure Outline where
  top : Decl
  nested : List Decl

structure Members where
  fields : List Field := []
  constructors : List Constructor := []
  methods : List Method := []
  nested : List Decl := []

namespace Members

def addField (ms : Members) (f : Field) : Except Cause Members :=
  if ms.fields.any (·.name = f.name) then .error (.redefinition .field f.name)
  else .ok { ms with fields := ms.fields ++ [f] }

def addMethod (ms : Members) (m : Method) : Except Cause Members :=
  if ms.methods.any (·.key = m.key) then .error (.redefinition .method m.key)
  else .ok { ms with methods := ms.methods ++ [m] }

def addConstructor (ms : Members) (c : Constructor) : Except Cause Members :=
  if ms.constructors.any (·.key = c.key) then .error (.redefinition .constructor c.key)
  else .ok { ms with constructors := ms.constructors ++ [c] }

def addNested (ms : Members) (d : Decl) : Except Cause Members :=
  if ms.nested.any (·.name = d.name) then .error (.redefinition .declaration d.name)
  else .ok { ms with nested := ms.nested ++ [d] }

def addToClass (ms : Members) : Member → Except Cause Members
  | .field f => ms.addField f
  | .constructor c => ms.addConstructor c
  | .method m =>
    if m.body.isNone ∧ ¬ m.modifier.has .abstract ∧ ¬ m.modifier.has .native then
      .error (.parse (.bodyRequired m.name))
    else ms.addMethod m

def addToInterface (ms : Members) : Member → Except Cause Members
  | .field _ => .error (.parse .interfaceField)
  | .constructor _ => .error (.parse .interfaceConstructor)
  | .method m =>
    if m.body.isSome then .error (.parse (.interfaceBody m.name))
    else ms.addMethod { m with modifier := m.modifier.insert .abstract }

end Members

structure Report where
  path : SourcePath
  lastLine : Nat
  -- First line of the declaration, when it is nested and all its errors are reported there.
  pinned : Option Nat

namespace Report

def location (r : Report) (line : Nat) : Location :=
  { path := r.path, line := r.pinned.getD line }

def fileEnd (r : Report) : Location :=
  r.location r.lastLine

def pin (r : Report) (line : Nat) : Report :=
  { r with pinned := some line }

end Report

namespace Grammar

abbrev Left (lines : List TokenLine) := { rest : List TokenLine // rest.length ≤ lines.length }

abbrev LineRule (α : Type) (lines : List TokenLine) := Except CompileError (α × Left lines)

/-- A rule for declarations: it gets the modifier, the header line's number, the tokens after the
modifier and the lines after the header. -/
abbrev DeclRule (α : Type) :=
  Report → Modifier → Nat → List Token → (lines : List TokenLine) → LineRule α lines

def startsDeclaration (ts : List Token) : Bool :=
  ["class", "interface", "type", "data", "record", "enum"].any (nextIsWord · ts)

def members (report : Report) (nested : Option (DeclRule (Option Decl)))
    (add : Members → Member → Except Cause Members) (done : Members) (lines : List TokenLine) :
    LineRule Members lines :=
  match lines with
  | [] => .error { cause := .parse .missingBrace, location := some report.fileEnd }
  | line :: rest =>
    if line.isClosingBrace then .ok (done, ⟨rest, Nat.le_add_right _ _⟩)
    else do
      let here : Location := { path := report.path, line := line.number }
      let (modifier, ⟨ts, _⟩) ← located here (modifiers {} false line.tokens)
      if startsDeclaration ts then
        match nested with
        | none => .error { cause := .parse .nestedTwice, location := some here }
        | some rule => do
          let (decl?, ⟨rest₁, h₁⟩) ← rule (report.pin line.number) modifier line.number ts rest
          let done ← match decl? with
            | some decl => located here (done.addNested decl)
            | none => pure done
          let (done, ⟨rest₂, h₂⟩) ← members report nested add done rest₁
          return (done, ⟨rest₂, by rw [List.length_cons]; omega⟩)
      else
        let (member, hasBody) ← located here (memberHead modifier line.number ts)
        if hasBody then
          match h₁ : collectBody report.path here 0 [] maxBodyLines rest with
          | .error error => .error error
          | .ok (body, rest₁) => do
            have := length_collectBody_lt h₁
            let done ← located here (add done (member.withBody body))
            let (done, ⟨rest₂, h₂⟩) ← members report nested add done rest₁
            return (done, ⟨rest₂, by rw [List.length_cons]; omega⟩)
        else
          let done ← located here (add done member)
          let (done, ⟨rest₂, h₂⟩) ← members report nested add done rest
          return (done, ⟨rest₂, by rw [List.length_cons]; omega⟩)
termination_by lines.length
decreasing_by all_goals rw [List.length_cons]; omega

def declHeader (report : Report) (modifier : Modifier) (line : Nat) (name : String)
    (typeParams : List TypeParam) : Header :=
  { name, qualified := name, internalName := name, outer := none, modifier, typeParams, uses := [],
    staticUses := [], path := report.path, line }

def classParents (ts : List Token) : Except Cause (Option TypeName × List TypeName) := do
  let (superclass, ts) ←
    if nextIsWord "extends" ts then do
      let (type, ⟨ts, _⟩) ← typeName ts.tail
      pure (some type, ts)
    else pure (none, ts)
  let (interfaces, ts) ←
    if nextIsWord "implements" ts then do
      let (types, ⟨ts, _⟩) ← typeNames (·.isPunct ',') ts.tail
      pure (types, ts)
    else pure ([], ts)
  openBlock ts
  return (superclass, interfaces)

def interfaceParents (ts : List Token) : Except Cause (List TypeName) := do
  let (parents, ts) ←
    if nextIsWord "extends" ts then do
      let (types, ⟨ts, _⟩) ← typeNames (·.isPunct ',') ts.tail
      pure (types, ts)
    else pure ([], ts)
  openBlock ts
  return parents

def plainClass (nested : Option (DeclRule (Option Decl))) : DeclRule Outline :=
  fun report modifier line ts lines => do
    let (head, superclass, interfaces) ← located (report.location line) do
      modifier.check .plainClass
      let (name, ⟨ts, _⟩) ← name "class name" ts
      let (typeParams, ⟨ts, _⟩) ← typeParams ts
      let (superclass, interfaces) ← classParents ts
      pure (declHeader report modifier line name typeParams, superclass, interfaces)
    let (ms, rest) ← members report nested Members.addToClass {} lines
    let body : ClassBody :=
      { superclass, interfaces, fields := ms.fields, constructors := ms.constructors,
        methods := ms.methods }
    return ({ top := { head with shape := .plainClass body }, nested := ms.nested }, rest)

def interface (nested : Option (DeclRule (Option Decl))) : DeclRule Outline :=
  fun report modifier line ts lines => do
    let (head, parents) ← located (report.location line) do
      modifier.check .interface
      let (name, ⟨ts, _⟩) ← name "interface name" ts
      let (typeParams, ⟨ts, _⟩) ← typeParams ts
      let parents ← interfaceParents ts
      pure (declHeader report modifier line name typeParams, parents)
    let (ms, rest) ← members report nested Members.addToInterface {} lines
    return ({ top := { head with shape := .interface parents ms.methods }, nested := ms.nested }, rest)

def enumeration : DeclRule Outline :=
  fun report modifier line ts lines => do
    let decl ← located (report.location line) do
      modifier.check .enumeration
      let (name, ⟨ts, _⟩) ← name "type name" ts
      let ((), ts) ← TokenRule.operator "=" ts
      let (values, ts) ← values [] ts
      TokenRule.lineEnd ts
      pure { declHeader report modifier line name [] with shape := .enumeration values }
    return ({ top := decl, nested := [] }, ⟨lines, by simp⟩)

structure Place where
  line : Nat
  tokens : List Token
  later : List TokenLine

namespace Place

def next (line : Nat) (tokens : List Token) : List TokenLine → Place
  | [] => { line, tokens, later := [] }
  | l :: later =>
    match tokens with
    | [] => next l.number l.tokens later
    | _ :: _ => { line, tokens, later := l :: later }

def tokenCount (tokens : List Token) (later : List TokenLine) : Nat :=
  tokens.length + later.foldr (fun line n => line.tokens.length + n) 0

theorem tokenCount_next (line : Nat) (tokens : List Token) (later : List TokenLine) :
    tokenCount (next line tokens later).tokens (next line tokens later).later =
      tokenCount tokens later := by
  fun_induction next line tokens later <;> simp_all [tokenCount]

theorem length_next_le (line : Nat) (tokens : List Token) (later : List TokenLine) :
    (next line tokens later).later.length ≤ later.length := by
  fun_induction next line tokens later <;> simp_all
  omega

end Place

def component (line : Nat) (ts : List Token) : Except Cause (Field × Fewer ts) := do
  let (modifier, ⟨ts₁, h₁⟩) ← modifiers {} false ts
  modifier.check .field
  if modifier.has .static then throw (.illegalModifier "static" "data class component")
  let (type, ⟨ts₂, h₂⟩) ← typeName ts₁
  let (name, ⟨ts₃, h₃⟩) ← name "component name" ts₂
  return ({ name, type, modifier, line, init := none }, ⟨ts₃, by omega⟩)

def components (report : Report) (done : List Field) (line : Nat) (ts : List Token)
    (later : List TokenLine) :
    Except CompileError (List Field × { p : Place // p.later.length ≤ later.length }) :=
  match hp : Place.next line ts later with
  | { line := line₁, tokens := ts₁, later := later₁ } => do
    let here := report.location line₁
    let (field, ⟨ts₂, h₂⟩) ← located here (component line₁ ts₁)
    if done.any (·.name = field.name) then
      throw { cause := .redefinition .field field.name, location := some here }
    match hq : Place.next line₁ ts₂ later₁ with
    | { line := line₃, tokens := ts₃, later := later₃ } =>
      have hp₁ := Place.length_next_le line ts later
      have hq₁ := Place.length_next_le line₁ ts₂ later₁
      have hp₂ := Place.tokenCount_next line ts later
      have hq₂ := Place.tokenCount_next line₁ ts₂ later₁
      match h₃ : ts₃ with
      | comma :: ts₄ =>
        if comma.isPunct ',' then do
          let (fields, ⟨p, h⟩) ← components report (done ++ [field]) line₃ ts₄ later₃
          return (fields, ⟨p, by simp [hp, hq] at hp₁ hq₁; omega⟩)
        else
          return (done ++ [field], ⟨{ line := line₃, tokens := comma :: ts₄, later := later₃ }, by
            simp [hp, hq] at hp₁ hq₁ ⊢; omega⟩)
      | [] =>
        return (done ++ [field], ⟨{ line := line₃, tokens := [], later := later₃ }, by
          simp [hp, hq] at hp₁ hq₁ ⊢; omega⟩)
termination_by Place.tokenCount ts later
decreasing_by
  simp [hp, hq, h₃, Place.tokenCount] at hp₂ hq₂ ⊢
  omega

def closeRecord (ts : List Token) : Except Cause Unit := do
  let ((), ts) ← TokenRule.punct ']' ts
  TokenRule.lineEnd ts

def record : DeclRule Outline :=
  fun report modifier line ts lines => do
    let (name, ts) ← located (report.location line) do
      modifier.check .record
      let (name, ⟨ts, _⟩) ← name "data class name" ts
      let ((), ts) ← TokenRule.operator "=" ts
      let ((), ts) ← TokenRule.punct '[' ts
      pure (name, ts)
    let first := Place.next line ts lines
    let (fields, ⟨p, h⟩) ←
      if nextIs ']' first.tokens then pure ([], ⟨first, Place.length_next_le line ts lines⟩)
      else components report [] line ts lines
    located (report.location p.line) (closeRecord p.tokens)
    let decl := { declHeader report modifier line name [] with shape := .record fields }
    return ({ top := decl, nested := [] }, ⟨p.later, h⟩)

def skipBlock (depth : Int) (lines : List TokenLine) : Option (Left lines) :=
  if depth ≤ 0 then some ⟨lines, by simp⟩
  else match lines with
    | [] => none
    | line :: rest =>
      (skipBlock (depth + braceBalance line.tokens) rest).map
        (fun ⟨left, h⟩ => ⟨left, by rw [List.length_cons]; omega⟩)

def reserved : DeclRule Unit :=
  fun report _ _ ts lines =>
    match skipBlock (braceBalance ts) lines with
    | some left => .ok ((), left)
    | none => .error { cause := .parse .missingBrace, location := some report.fileEnd }

def declaration (nested : Option (DeclRule (Option Decl))) : DeclRule (Option Outline) :=
  fun report modifier line ts lines =>
    let some' : LineRule Outline lines → LineRule (Option Outline) lines :=
      Except.map (fun (outline, left) => (some outline, left))
    match ts with
    | t :: ts =>
      if t.isWord "class" then some' (plainClass nested report modifier line ts lines)
      else if t.isWord "interface" then some' (interface nested report modifier line ts lines)
      else if t.isWord "type" then some' (enumeration report modifier line ts lines)
      else if t.isWord "data" then some' (record report modifier line ts lines)
      else if t.isWord "record" ∨ t.isWord "enum" then
        (reserved report modifier line ts lines).map (fun ((), left) => (none, left))
      else located (report.location line) (TokenRule.expected "declaration" (some t))
    | [] => located (report.location line) (TokenRule.expected "declaration" none)

def nestedDeclaration : DeclRule (Option Decl) :=
  fun report modifier line ts lines =>
    (declaration none report modifier line ts lines).map
      (fun (outline, left) => (outline.map (·.top), left))

def declarations (report : Report) (done : List Outline) (lines : List TokenLine) :
    Except CompileError (List Outline) :=
  match lines with
  | [] => .ok done
  | line :: rest => do
    let (modifier, ⟨ts, _⟩) ← located (report.location line.number) (modifiers {} false line.tokens)
    let (outline?, ⟨rest₁, _⟩) ←
      declaration (some nestedDeclaration) report modifier line.number ts rest
    match outline? with
    | none => declarations report done rest₁
    | some outline =>
      if done.any (·.top.name = outline.top.name) then
        let last := ((outline.top :: outline.nested).reverse.find? (·.name = outline.top.name))
        throw {
          cause := .redefinition .declaration outline.top.name
          location := some (report.location ((last.map (·.line)).getD line.number)) }
      declarations report (done ++ [outline]) rest₁
termination_by lines.length
decreasing_by all_goals rw [List.length_cons]; omega

structure FileUses where
  uses : Uses := []
  statics : List String := []

def segments : TokenRule (List String)
  | dot :: ts =>
    if dot.isPunct '.' then
      match ts with
      | t :: ts =>
        if t.isIdentifier then do
          let (rest, ts) ← segments ts
          return (t.text :: rest, ts)
        else TokenRule.expected "name segment" (some t)
      | [] => TokenRule.expected "name segment" none
    else .ok ([], dot :: ts)
  | [] => .ok ([], [])

def use (known : FileUses) (ts : List Token) : Except Cause FileUses := do
  let isStatic := nextIsWord "static" ts
  let ts := if isStatic then ts.tail else ts
  let (first, ts) ← TokenRule.identifier "qualified name" ts
  let (others, ts) ← segments ts
  let (short, ts) ←
    if nextIsWord "as" ts then TokenRule.identifier "alias" ts.tail
    else pure (others.getLastD first, ts)
  TokenRule.lineEnd ts
  if (known.uses.find? short).isSome then throw (.redefinition .use short)
  return {
    uses := known.uses ++ [(short, ".".intercalate (first :: others))]
    statics := if isStatic then known.statics ++ [short] else known.statics }

def uses (path : SourcePath) (known : FileUses) :
    List TokenLine → Except CompileError (FileUses × List TokenLine)
  | [] => .ok (known, [])
  | line :: rest =>
    if nextIsWord "use" line.tokens then do
      let known ← located { path, line := line.number } (use known line.tokens.tail)
      uses path known rest
    else .ok (known, line :: rest)

end Grammar

end ClassForge
