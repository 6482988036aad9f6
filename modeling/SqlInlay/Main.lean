import SqlInlay.Command.Formats
import SqlInlay.Command.Guide

/-!
# The program

Reads what a request asks about, runs it, and carries out its reply.
-/

namespace SqlInlay.Command

/-- What stands under a path on the disk.  Below a directory only the sources are read. -/
partial def nodeAt (path : String) : IO (Except AccessFault Node) := do
  let here := ({ root := path, fileName := "" } : IO.FS.DirEntry).root
  if ← here.isDir then
    let mut entries : List (Text × Node) := []
    for entry in ← here.readDir do
      let below := entry.path.toString
      let name := entry.fileName.toList
      if Node.passedOver.contains name then
        continue
      if (← entry.path.isDir) || Node.isSource below.toList then
        if let .ok node ← nodeAt below then
          entries := (name, node) :: entries
    return .ok (.directory entries)
  else
    match ← (IO.FS.readBinFile here).toBaseIO with
    | .ok bytes => return .ok (.file ((String.fromUTF8? bytes).map String.toList))
    | .error (.inappropriateType ..) => return .error .notDirectory
    | .error _ => return .error .noEntry

/-- All bytes of a stream. -/
partial def bytesOf (stream : IO.FS.Stream) (read : ByteArray) : IO ByteArray := do
  let more ← stream.read 65536
  if more.isEmpty then return read else bytesOf stream (read ++ more)

/-- The environment of the process. -/
def processEnvironment : IO Environment := do
  let valueOf (name : String) : IO (Option Text) := return (← IO.getEnv name).map String.toList
  return {
    config := ← valueOf "OCTOQUERY_CONFIG"
    configHome := ← valueOf "XDG_CONFIG_HOME"
    home := ← valueOf "HOME" }

/-- A request carried out on the disk. -/
def carryOut (env : Environment) (request : Request) : IO UInt32 := do
  let mut found : List (Text × Except AccessFault Node) := []
  for path in request.paths env do
    found := (path, ← nodeAt (String.ofList path)) :: found
  let input ←
    if request.task.needsInput then
      let bytes ← bytesOf (← IO.getStdin) .empty
      pure ((String.fromUTF8? bytes).map String.toList)
    else pure none
  let files : Files := fun path => (found.lookup path).getD (.error .noEntry)
  let reply := request.run .standard files env input
  for (path, content) in reply.writes do
    IO.FS.writeFile (String.ofList path) (String.ofList content)
  IO.print (String.ofList reply.stdout)
  IO.eprint (String.ofList reply.stderr)
  return reply.exit.toUInt32

end SqlInlay.Command

open SqlInlay.Command in
/-- The program on a command line. -/
def main (args : List String) : IO UInt32 := do
  let env ← processEnvironment
  match Request.read env.config (args.map String.toList) with
  | .ok request => carryOut env request
  | .error stop =>
    if stop.isWanted then
      IO.println stop.text
      return 0
    else
      IO.eprintln stop.text
      return 2
