import ClassForge.Command

set_option autoImplicit false

open ClassForge

def writeUnit (output : String) (u : ClassUnit) : IO Unit := do
  let file := (Text.SourcePath.resolve ⟨output⟩ ⟨u.fileName⟩).text
  let directory := "/".intercalate ((file.splitOn "/").dropLast)
  if directory ≠ "" then IO.FS.createDirAll directory
  IO.FS.writeBinFile file ⟨u.bytes.toArray⟩

def run (command : Command) : ExceptT String IO Unit := do
  let file := command.input.text
  if ¬ Command.isSource command.input then throw (file ++ " is not a .ktj file")
  let .ok source ← (IO.FS.readFile file).toBaseIO | throw ("cannot read " ++ file)
  match command with
  | .compile c =>
    let units ← ExceptT.mk (pure (Command.classes c source))
    units.forM (fun u => writeUnit c.output u)
    if c.verbose then
      IO.eprintln (toString units.length ++ " class file(s) written to " ++ c.output)
  | .parse input detailed => IO.print (← ExceptT.mk (pure (Command.declarations input detailed source)))
  | .lex input => IO.print (← ExceptT.mk (pure (Command.tokens input source)))

def main (args : List String) : IO UInt32 := do
  match Command.ofWords args with
  | none =>
    IO.eprint Command.usage
    return 2
  | some command =>
    match ← (run command).run with
    | .ok () => return 0
    | .error message =>
      IO.eprintln ("Error: " ++ message)
      return 1
