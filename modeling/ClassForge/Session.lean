import ClassForge.Assembly
import ClassForge.Decl.Naming
import ClassForge.Review
import ClassForge.Verify

set_option autoImplicit false

namespace ClassForge

open Text (SourcePath)

structure ClassUnit where
  internalName : String
  classFile : ClassFile

namespace ClassUnit

def bytes (u : ClassUnit) : List UInt8 :=
  u.classFile.bytes

def fileName (u : ClassUnit) : String :=
  u.internalName ++ ".class"

def writtenFile (u : ClassUnit) : String :=
  (SourcePath.fromFirstStep ⟨u.fileName⟩).text

end ClassUnit

namespace Program

def repeated? (seen : List String) : Program → Option Decl
  | [] => none
  | d :: rest => if d.qualified ∈ seen then some d else repeated? (d.qualified :: seen) rest

def checkDistinct (program : Program) : Except CompileError Program :=
  match program.repeated? [] with
  | none => .ok program
  | some d => .error { cause := .redefinition .declaration d.name, location := some d.location }

def unit (program : Program) (options : Options) (d : Decl) : Except CompileError ClassUnit := do
  let classFile ← program.assemble options d
  located d.location classFile.verified
  return { internalName := d.internalName, classFile }

def units (program : Program) (options : Options) : Except CompileError (List ClassUnit) :=
  List.mapM (program.unit options) program

def ofSource (path : SourcePath) (source : String) : Except CompileError Program := do
  let program ← parse path source
  let program ← program.checkDistinct
  program.review

end Program

def compile (options : Options) (path : SourcePath) (source : String) :
    Except CompileError (List ClassUnit) := do
  let program ← Program.ofSource path source
  program.units options

structure Session where
  options : Options := {}
  program : Program := []
  units : List ClassUnit := []

namespace Session

def compile (s : Session) (path : SourcePath) (source : String) : Except CompileError Nat × Session :=
  let compiled := do
    let program ← Program.ofSource path source
    return (program, ← program.units s.options)
  match compiled with
  | .ok (program, units) => (.ok units.length, { s with program, units })
  | .error error => (.error error, { s with program := [], units := [] })

def emit (s : Session) (sink : List ClassUnit) : Session × List ClassUnit :=
  ({ s with units := [] }, sink ++ s.units)

def compileInto (s : Session) (path : SourcePath) (source : String) (sink : List ClassUnit) :
    Except CompileError Nat × Session × List ClassUnit :=
  match s.compile path source with
  | (.ok count, s) => (.ok count, s.emit sink)
  | (.error error, s) => (.error error, s, sink)

end Session

end ClassForge
