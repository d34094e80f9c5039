import ClassForge.Assembly.Enumeration
import ClassForge.Assembly.Record

set_option autoImplicit false

namespace ClassForge

namespace Assembly.Target

def contents (t : Target) : Build Contents :=
  match t.decl.shape with
  | .plainClass body => t.classContents body
  | .interface parents methods => t.interfaceContents parents methods
  | .enumeration values => Enumeration.contents t values
  | .record components => Record.contents t components

def sourceFile (t : Target) : Build (List Attribute) := do
  if ¬ t.options.debug then return []
  return [← Build.textAttribute "SourceFile" (t.decl.path.fileName?.getD "")]

def build (t : Target) : Build Contents := do
  let contents ← t.contents
  let sourceFile ← t.sourceFile
  return { contents with attributes := contents.attributes ++ sourceFile }

end Assembly.Target

def Program.assemble (program : Program) (options : Options) (d : Decl) :
    Except CompileError ClassFile :=
  match ({ program, decl := d, options } : Assembly.Target).build {} with
  | .ok contents pool => .ok {
      toContents := contents
      major := options.major
      pool
      flags := AccessFlags.ofClass d.modifier d.shape }
  | .error error _ => .error error

end ClassForge
