import ClassForge.Decl.Text
import ClassForge.Session

set_option autoImplicit false

namespace ClassForge

open Text (SourcePath)

structure CompileCommand where
  input : SourcePath
  root : Option SourcePath := none
  output : String := "."
  debug : Bool := false
  verbose : Bool := false
  deriving DecidableEq, Repr

inductive Command where
  | compile (command : CompileCommand)
  | parse (input : SourcePath) (detailed : Bool)
  | lex (input : SourcePath)
  deriving DecidableEq, Repr

namespace Command

def usage : String :=
  "usage: compile FILE [--root DIR] [-o DIR | --output DIR] [-g | --debug] [-v | --verbose]\n" ++
  "       parse FILE [-d | --detailed]\n" ++
  "       lex FILE\n"

def compileOptions (c : CompileCommand) (input : Option SourcePath) :
    List String → Option CompileCommand
  | [] => input.map (fun input => { c with input })
  | "--root" :: directory :: rest => compileOptions { c with root := some ⟨directory⟩ } input rest
  | "-o" :: directory :: rest => compileOptions { c with output := directory } input rest
  | "--output" :: directory :: rest => compileOptions { c with output := directory } input rest
  | "-g" :: rest => compileOptions { c with debug := true } input rest
  | "--debug" :: rest => compileOptions { c with debug := true } input rest
  | "-v" :: rest => compileOptions { c with verbose := true } input rest
  | "--verbose" :: rest => compileOptions { c with verbose := true } input rest
  | word :: rest =>
    if word.toList.head? = some '-' || input.isSome then none
    else compileOptions c (some ⟨word⟩) rest

def ofWords : List String → Option Command
  | "compile" :: words => (compileOptions { input := ⟨""⟩ } none words).map Command.compile
  | ["parse", input] => some (.parse ⟨input⟩ false)
  | ["parse", "-d", input] => some (.parse ⟨input⟩ true)
  | ["parse", "--detailed", input] => some (.parse ⟨input⟩ true)
  | ["parse", input, "-d"] => some (.parse ⟨input⟩ true)
  | ["parse", input, "--detailed"] => some (.parse ⟨input⟩ true)
  | ["lex", input] => some (.lex ⟨input⟩)
  | _ => none

def input : Command → SourcePath
  | .compile command => command.input
  | .parse input _ => input
  | .lex input => input

def isSource (path : SourcePath) : Bool :=
  path.extension? = some "ktj"

def packagePath (path : SourcePath) : Option SourcePath → Except String SourcePath
  | some root =>
    match path.below? root with
    | some relative => .ok relative
    | none => .error (path.text ++ " is not below source root " ++ root.text)
  | none =>
    match path.fileName? with
    | some name => .ok ⟨name⟩
    | none => .error "input has no file name"

def classes (c : CompileCommand) (source : String) : Except String (List ClassUnit) := do
  let path ← packagePath c.input c.root
  match ClassForge.compile { debug := c.debug } path source with
  | .ok units => return units
  | .error error => throw error.message

def declarations (input : SourcePath) (detailed : Bool) (source : String) : Except String String := do
  let path ← packagePath input none
  match Program.parse path source with
  | .ok program =>
    let shown (d : Decl) : String :=
      if detailed then d.qualified ++ " (" ++ d.internalName ++ ")\n" ++ d.text else d.text
    return String.join (List.map shown program)
  | .error error => throw error.message

def tokens (input : SourcePath) (source : String) : Except String String :=
  match TokenLine.ofSource input source with
  | .ok lines => .ok (String.join (lines.flatMap (fun line =>
      line.tokens.map (fun t =>
        toString line.number ++ ":" ++ toString t.column ++ " " ++ t.kind.name ++
          " '" ++ t.text ++ "'\n"))))
  | .error error => .error error.message

end Command

end ClassForge
