import SimControl.Session
/-!
# The command line

`simcontrol [--ips N] [-q|--quiet] [-p|--program FILE] [SCRIPT]`

Loads the program, runs the script, then reads commands from standard input until it ends or
EXIT is given, prompting when standard input is a terminal. The files of the working directory,
and those named on the command line, are what LOAD and DO can read.

Everything here is input and output; the interpreter itself is `SimControl.Session`.
-/

namespace SimControl.Cli

/-- The options of the command line. -/
structure Options where
  ips : Nat := 1000000
  quiet : Bool := false
  program : Option String := none
  script : Option String := none

/-- Reads the arguments, or says what is wrong with them. -/
def parseArgs : List String → Options → Except String Options
  | [], o => .ok o
  | "--ips" :: n :: rest, o => withIps n rest o
  | "-q" :: rest, o => parseArgs rest { o with quiet := true }
  | "--quiet" :: rest, o => parseArgs rest { o with quiet := true }
  | "-p" :: f :: rest, o => parseArgs rest { o with program := some f }
  | "--program" :: f :: rest, o => parseArgs rest { o with program := some f }
  | a :: rest, o =>
    if a.startsWith "--ips=" then withIps (String.ofList (a.toList.drop 6)) rest o
    else if a.startsWith "--program=" then
      parseArgs rest { o with program := some (String.ofList (a.toList.drop 10)) }
    else if a.startsWith "-" && a != "-" then .error ("unexpected argument '" ++ a ++ "' found")
    else match o.script with
      | none => parseArgs rest { o with script := some a }
      | some _ => .error ("unexpected argument '" ++ a ++ "' found")
where
  /-- Takes the value of --ips and goes on. -/
  withIps (n : String) (rest : List String) (o : Options) : Except String Options :=
    match n.toNat? with
    | some v => if v < 4294967296 then parseArgs rest { o with ips := v }
      else .error ("invalid value '" ++ n ++ "' for '--ips <IPS>'")
    | none => .error ("invalid value '" ++ n ++ "' for '--ips <IPS>'")

/-- The contents of a file, if it is one that can be read. -/
def readFileBytes (path : String) : IO (Option (List UInt8)) := do
  try
    let data ← IO.FS.readBinFile path
    pure (some data.toList)
  catch _ => pure none

/-- The regular files of the working directory, and the files named on the command line. -/
def loadVolume (named : List String) : IO Volume := do
  let entries ← try (← IO.currentDir).readDir catch _ => pure #[]
  let mut files : List (String × List UInt8) := []
  for e in entries do
    if !(← e.path.isDir) then
      if let some data ← readFileBytes e.path.toString then
        files := files ++ [(e.fileName, data)]
  for p in named do
    if let some data ← readFileBytes p then
      files := (p, data) :: files
  pure ⟨files⟩

/-- Writes what a reply holds, the command's fault after what it wrote. -/
def emit (out err : IO.FS.Stream) (r : Session.Reply) : IO Unit := do
  out.write ⟨r.out.toArray⟩
  err.putStr r.err
  match r.result with
  | .error e => err.putStrLn ("Error: " ++ e.message)
  | .ok () => pure ()
  out.write ⟨r.actionsOut.toArray⟩
  err.putStr r.actionsErr
  out.flush
  err.flush

/-- Drops the line break a line read from the terminal ends with. -/
def chomp (line : String) : String :=
  let l := if line.endsWith "\n" then String.ofList line.toList.dropLast else line
  if l.endsWith "\r" then String.ofList l.toList.dropLast else l

/-- Reads and executes commands until the input ends or EXIT is given. -/
partial def interact (inp out err : IO.FS.Stream) (prompting : Bool) (s : Session) : IO Unit := do
  if prompting then
    out.putStr Session.prompt
    out.flush
  let line ← inp.getLine
  if line.isEmpty then return
  let (r, s) := s.respond (chomp line)
  emit out err r
  if !r.exit then interact inp out err prompting s

/-- Runs the simulator with its arguments; the exit status is 1 when it cannot start. -/
def run (args : List String) : IO UInt32 := do
  let out ← IO.getStdout
  let err ← IO.getStderr
  match parseArgs args {} with
  | .error msg =>
    err.putStrLn ("error: " ++ msg)
    pure 2
  | .ok o =>
    if o.ips = 0 then
      err.putStrLn "--ips must be greater than zero"
      return 1
    let volume ← loadVolume (o.program.toList ++ o.script.toList)
    let cfg : Config := { instructionsPerSecond := o.ips }
    let (st, s) := (Session.new cfg o.quiet volume).begin o.program o.script
    if let some (.error e) := st.program then
      err.putStrLn e.message
      return 1
    if let some r := st.script then
      emit out err ⟨r, st.scriptOut, st.scriptErr, [], "", st.scriptExit⟩
    if st.scriptExit then return 0
    emit out err ⟨.ok (), [], "", st.actionsOut, st.actionsErr, s.exitRequested⟩
    if s.exitRequested then return 0
    let inp ← IO.getStdin
    interact inp out err (← inp.isTty) s
    pure 0

end SimControl.Cli

/-- The simulator's entry point. -/
def main (args : List String) : IO UInt32 := SimControl.Cli.run args
