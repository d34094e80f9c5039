import ClassForge.Decl.Parse
import ClassForge.Platform

set_option autoImplicit false

namespace ClassForge

open Text (SourcePath)

namespace Outline

-- The packages of a file's declarations. The file name counts as one, unless the file declares one thing and is
-- named after it.
def packages (path : SourcePath) (outlines : List Outline) : List String :=
  match outlines with
  | [outline] => if outline.top.name = path.stem then path.directory else path.directory ++ [path.stem]
  | _ => path.directory ++ [path.stem]

def nameTop (packages : List String) (d : Decl) : Decl :=
  { d with
    qualified := ".".intercalate (packages ++ [d.name])
    internalName := "/".intercalate (packages ++ [d.name]) }

def nameNested (top d : Decl) : Decl :=
  { d with
    qualified := top.qualified ++ "." ++ d.name
    internalName := top.internalName ++ "$" ++ d.name
    outer := some top.qualified }

def named (packages : List String) (outline : Outline) : List Decl :=
  let top := nameTop packages outline.top
  top :: outline.nested.map (nameNested top)

end Outline

namespace Decl

-- Whether the short name of a declaration means it everywhere inside `scope`. A private nested declaration is
-- known only inside the declaration that encloses it.
def isVisibleIn (d : Decl) (scope : String) : Bool :=
  match d.outer with
  | some outer => d.modifier.access ≠ .declarer || outer = scope
  | none => true

def scopeName (d : Decl) : String :=
  d.outer.getD d.qualified

end Decl

namespace Program

-- What short names mean inside a declaration: platform names, then declarations of the file, then the file's
-- use lines; a later meaning replaces an earlier one.
def usesIn (program : Program) (fileUses : Uses) (d : Decl) : Uses :=
  let visible := (List.filter (·.isVisibleIn d.scopeName) program).map (fun e => (e.name, e.qualified))
  (visible ++ fileUses).foldl (fun uses (short, full) => uses.insert short full) Platform.implicitUses

def ofOutlines (path : SourcePath) (file : Grammar.FileUses) (outlines : List Outline) : Program :=
  let packages := Outline.packages path outlines
  let program := outlines.flatMap (Outline.named packages)
  program.map (fun d => { d with uses := usesIn program file.uses d, staticUses := file.statics })

def parse (path : SourcePath) (source : String) : Except CompileError Program := do
  let lines ← TokenLine.ofSource path source
  let lastLine := (lines.getLast?.map (·.number)).getD 1
  let (file, lines) ← Grammar.uses path {} lines
  let outlines ← Grammar.declarations { path, lastLine, pinned := none } [] lines
  return ofOutlines path file outlines

end Program

end ClassForge
