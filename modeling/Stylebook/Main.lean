import Stylebook.Command.Run

/-! # The program -/

open Stylebook

def contentsOf (path : String) : IO Contents := do
  try
    let bytes ← IO.FS.readBinFile path
    pure (.ok bytes.toList)
  catch
    | .noFileOrDirectory .. => pure (.error .missing)
    | .permissionDenied .. => pure (.error .forbidden)
    | _ => pure (.error .directory)

def main (args : List String) : IO UInt32 := do
  let paths := match Invocation.ofArgs args with
    | .ok i => i.paths
    | .error _ => []
  let files ← paths.mapM fun p => do pure (p, ← contentsOf p)
  let outcome := Command.runArgs .usual args fun p => (files.lookup p).getD (.error .missing)
  IO.print outcome.out
  IO.eprint outcome.err
  pure (UInt32.ofNat outcome.code)
