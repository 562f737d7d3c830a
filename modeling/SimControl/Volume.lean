import SimControl.Host
/-!
# The files a session can read

A `Volume` is the working directory a session sees: plain file names with their contents.
Reading a path walks it component by component from that directory, or from the root of the
host's file system (a `Host`) when it starts with a slash, the way the system does:
empty and `.` components stay where they are, `..` goes up, a directory cannot be read as a
file, a file cannot be used as a directory, and a name that is none of the entries does not
exist. A path of 4096 bytes or more, or a name of more than 255 outside the process and
system filesystems, is too long, and a path may not hold a zero byte. Text must be UTF-8.
-/

namespace SimControl

/-- The files of a working directory. -/
structure Volume where
  files : List (String × List UInt8) := []
  deriving DecidableEq

namespace Volume

/-- The longest name a directory entry may have, in bytes. -/
def maxNameLength : Nat := 255

/-- The contents of the file with a name, if there is one. -/
def lookup (v : Volume) (name : String) : Option (List UInt8) :=
  (v.files.find? (·.1 == name)).map (·.2)

/-- The longest path the system takes, in bytes: its buffer holds 4096 bytes with the
terminating zero. -/
def maxPathLength : Nat := 4095

/-- Whether looking a name up at a node refuses a name that is too long. -/
def checksNames (host : Host) : Node → Bool
  | .dir t => host.checksNames t
  | _ => true

/-- One component of a path, from a node: empty components and `.` stay, `..` goes up, a
name is looked up, and nothing can be looked up in a file. -/
def walk (v : Volume) (host : Host) : Node → String → Except ReadError Node
  | .file _, _ => .error .notDirectory
  | p, "" => .ok p
  | p, "." => .ok p
  | .dir t, ".." => .ok (.dir t.dropLast)
  | .home, ".." => .ok (.dir host.homeParent)
  | p, name =>
    if name.utf8ByteSize > maxNameLength && checksNames host p then .error .nameTooLong
    else match p with
      | .home =>
        match v.lookup name with
        | some bytes => .ok (.file (.ok bytes))
        | none => .error .notFound
      | .dir t =>
        match host.entry? (t ++ [name]) with
        | some q => .ok q
        | none => .error .notFound
      | .file _ => .error .notDirectory

/-- The bytes of the file a path names. A path recorded as it stands is read directly. A path
that holds a zero byte, or is too long for the system, is refused before it is walked. -/
def readBytes (v : Volume) (host : Host) (path : String) : Except ReadError (List UInt8) :=
  if path.contains '\x00' then .error .nulInName
  else match v.lookup path with
  | some bytes => .ok bytes
  | none =>
    if path.isEmpty then .error .notFound
    else if path.utf8ByteSize > maxPathLength then .error .nameTooLong
    else
      let start := if path.startsWith "/" then Node.dir [] else Node.home
      match (path.splitOn "/").foldlM (v.walk host) start with
      | .ok (.file contents) => contents
      | .ok _ => .error .isDirectory
      | .error e => .error e

/-- The text of the file a path names. -/
def readText (v : Volume) (host : Host) (path : String) : Except ReadError String := do
  let bytes ← v.readBytes host path
  match String.fromUTF8? ⟨bytes.toArray⟩ with
  | some text => pure text
  | none => throw .notText

end Volume

end SimControl
