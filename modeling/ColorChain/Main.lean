import ColorChain.CommandLine.Run

/-!
# The program

Reads the files that a request names and prints its outcome. Files are looked for below the working
directory.
-/

namespace ColorChain

open CommandLine Storage

/-- The content of a file under the path that it was asked for. A file that cannot be read is left
out. -/
def readFiles (paths : List String) : IO (List (String × Text.Bytes)) := do
  let mut files := []
  for path in paths do
    try
      let content ← IO.FS.readBinFile path
      files := (path, content.toList) :: files
    catch _ => pure ()
  return files.reverse

/-- The file that a request reads first. -/
def Request.path? : CommandLine.Request → Option String
  | .apply path .. => some path
  | .correction path .. => some path
  | .matrix .. => none
  | .formats => none

mutual

/-- The files that a transform refers to. -/
def Transform.sources : Transform Float → List String
  | .atom _ (.file reference) => [reference.source]
  | .atom .. => []
  | .display .. => []
  | .group _ children => Transform.sourcesOfAll children

def Transform.sourcesOfAll : List (Transform Float) → List String
  | [] => []
  | t :: ts => t.sources ++ Transform.sourcesOfAll ts

end

/-- The files that a request reads after its first one. -/
def Request.furtherPaths (files : List (String × Text.Bytes)) : CommandLine.Request → List String
  | .apply path .. =>
    match Transform.ofFile (.ofFiles files) path.toList with
    | .ok t => t.sources
    | .error _ => []
  | _ => []

end ColorChain

open ColorChain

def main (arguments : List String) : IO UInt32 := do
  let files ← match CommandLine.Request.parse arguments with
    | .error _ => pure []
    | .ok request => do
      let first ← readFiles (Request.path? request).toList
      let further ← readFiles (Request.furtherPaths first request)
      pure (first ++ further)
  let outcome := CommandLine.outcome (.ofFiles files) arguments
  IO.print outcome.output
  IO.eprint outcome.report
  return UInt32.ofNat outcome.status
