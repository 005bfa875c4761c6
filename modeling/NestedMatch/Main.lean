import NestedMatch.Audit
import NestedMatch.Engine.Table

/-! The command line of the audit. Patterns are literal texts. -/

namespace NestedMatch.Main

/-- The content of a file, or none where it cannot be opened. -/
def content (name : String) : IO (Option Bytes) := do
  if name.isEmpty then return none
  try
    let bytes ← IO.FS.readBinFile name
    return some bytes.data.toList
  catch _ => return none

def contents : List String → IO (List (Bytes × Bytes))
  | [] => return []
  | name :: rest => do
    let entries ← contents rest
    match ← content name with
    | none => return entries
    | some bytes => return (Bytes.ofString name, bytes) :: entries

end NestedMatch.Main

def main (arguments : List String) : IO UInt32 := do
  let files ← NestedMatch.Main.contents arguments
  let outcome := NestedMatch.Audit.run NestedMatch.Engine.literal
    (NestedMatch.Files.ofList files) (arguments.map NestedMatch.Bytes.ofString)
  let out ← IO.getStdout
  out.write ⟨outcome.output.toArray⟩
  out.flush
  let err ← IO.getStderr
  err.write ⟨outcome.report.toArray⟩
  return outcome.status.toUInt32
