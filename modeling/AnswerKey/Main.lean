import AnswerKey.CommandLine

/-! The program: reads files and the standard input, and prints the response. -/
namespace AnswerKey

def fileText? (path : String) : IO (Option String) := do
  try
    return some (← IO.FS.readFile path)
  catch _ =>
    return none

def inputText : IO String := do (← IO.getStdin).readToEnd

def freshWords : IO Words := do
  let bytes ← IO.getRandomBytes 8
  return Words.ofSeed (bytes.toList.foldl (fun n b => n * 256 + b.toUInt64) 0)

def respond (args : List String) : IO CommandLine.Response := do
  match CommandLine.ofArguments args with
  | none => return CommandLine.usageError
  | some .version => return CommandLine.versionResponse
  | some (.request r) =>
    let config ← match r.config with
      | some path => fileText? path
      | none => pure none
    let input ← if (r.settings config).isOk && r.readsInput then inputText else pure ""
    return r.respond config input (← freshWords)

end AnswerKey

def main (args : List String) : IO UInt32 := do
  let response ← AnswerKey.respond args
  IO.print response.output
  return response.code.toUInt32
