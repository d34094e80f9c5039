import ClassForge.Decl.Basic

set_option autoImplicit false

namespace ClassForge

def Modifier.lead (m : Modifier) : String :=
  String.join (m.words.map (· ++ " "))

def TypeParam.text (p : TypeParam) : String :=
  match p.bounds with
  | [] => p.name
  | bounds => p.name ++ " : " ++ " & ".intercalate (bounds.map TypeName.spelling)

def TypeParam.listText : List TypeParam → String
  | [] => ""
  | params => "<" ++ ", ".intercalate (params.map TypeParam.text) ++ ">"

def Param.listText (params : List Param) : String :=
  ", ".intercalate (params.map (fun p => p.type.display ++ " " ++ p.name))

def Field.text (f : Field) : String :=
  f.modifier.lead ++ f.type.display ++ " " ++ f.name

def Field.fullText (f : Field) : String :=
  match f.init with
  | some value => f.text ++ " = " ++ value.text
  | none => f.text

def sizeText (body : List TokenLine) : String :=
  " [" ++ toString body.length ++ " lines]"

def Constructor.text (c : Constructor) : String :=
  let call := match c.superCall with
    | some call => " : " ++ call.target ++ "(" ++ ", ".intercalate (Expr.texts call.arguments) ++ ")"
    | none => ""
  c.modifier.lead ++ "init(" ++ Param.listText c.params ++ ")" ++ call ++ sizeText c.body

def Method.text (m : Method) : String :=
  let typeParams := match m.typeParams with
    | [] => ""
    | params => TypeParam.listText params ++ " "
  let returns := match m.returns with
    | some type => type.display
    | none => "void"
  let size := match m.body with
    | some body => sizeText body
    | none => ""
  m.modifier.lead ++ typeParams ++ returns ++ " " ++ m.name ++ "(" ++ Param.listText m.params ++ ")" ++
    size

namespace Decl

def clause (keyword : String) : List TypeName → String
  | [] => ""
  | types => " " ++ keyword ++ " " ++ ", ".intercalate (types.map TypeName.spelling)

def block (head : String) (members : List String) : String :=
  head ++ " \x7b\n" ++ String.join (members.map (fun m => "  " ++ m ++ "\n")) ++ "\x7d\n"

def text (d : Decl) : String :=
  let head (keyword : String) := d.modifier.lead ++ keyword ++ " " ++ d.name
  match d.shape with
  | .enumeration values => head "type" ++ " = " ++ " | ".intercalate values ++ "\n"
  | .record components =>
    head "data" ++ " = [" ++ ", ".intercalate (components.map Field.text) ++ "]\n"
  | .interface parents methods =>
    block (head "interface" ++ TypeParam.listText d.typeParams ++ clause "extends" parents)
      (methods.map Method.text)
  | .plainClass body =>
    block (head "class" ++ TypeParam.listText d.typeParams ++
        clause "extends" body.superclass.toList ++ clause "implements" body.interfaces)
      (body.fields.map Field.fullText ++ body.constructors.map Constructor.text ++
        body.methods.map Method.text)

end Decl

end ClassForge
