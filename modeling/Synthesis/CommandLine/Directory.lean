import Synthesis.Text.Cut

/-!
# Directories

What the command reads from: a directory answers a path with the text of a file or with the reason
why there is none. `Directory.ofFiles` is the directory that holds just the given files. A path is
followed through it step by step, so that `./g` and `.//g` are the file `g`, and `none/../g` is not,
because there is no `none` to go back from. A path may also lead out of the directory, where little
is known: the folders right below the root, and the null device.
-/

set_option autoImplicit false

namespace Synthesis.CommandLine

/-- Why a path leads to no text. -/
inductive FileFault where
  | missing
  | denied
  | notDirectory
  | isDirectory
  | nameTooLong
  /-- The file is not in UTF-8. -/
  | notText
  /-- Any other reason, in the words of the system. -/
  | other (reason : String)
  deriving DecidableEq

/-- The text that reports the reason, with the number that the system gives it. -/
def FileFault.message : FileFault → String
  | missing => "No such file or directory (os error 2)"
  | denied => "Permission denied (os error 13)"
  | notDirectory => "Not a directory (os error 20)"
  | isDirectory => "Is a directory (os error 21)"
  | nameTooLong => "File name too long (os error 36)"
  | notText => "stream did not contain valid UTF-8"
  | other reason => reason

/-- The text at the end of each path. -/
abbrev Directory := String → Except FileFault String

/-! ## Following a path -/

/-- The parts of a path between slashes. That of an absolute path start with an empty one. -/
def pathSteps (path : String) : List String :=
  (Text.splitOn '/' path.toList).map .ofList

/-- A place that holds files and other folders. -/
inductive Folder where
  /-- The folder at the end of some steps. -/
  | known (steps : List String)
  /-- A folder right below the root, of whose contents nothing is known. -/
  | unknown
  deriving DecidableEq

namespace Folder

/-- The root, where absolute paths begin. -/
def root : Folder := known [""]

/-- The folder around a folder. The directory itself, at the end of no steps, stands in a folder
right below the root; around the root is the root itself. -/
def parent : Folder → Folder
  | known [] => unknown
  | known [""] | unknown => root
  | known steps => known steps.dropLast

/-- The names of the folders right below the root. -/
def rootNames : List String :=
  ["bin", "boot", "dev", "etc", "home", "lib", "media", "mnt", "opt", "proc", "root", "run", "sbin",
    "srv", "sys", "tmp", "usr", "var"]

end Folder

/-- Files, each with the steps that lead to it. -/
abbrev Files := List (List String × String)

namespace Files

/-- The folder that a step leads to, if there is one: one with a file further on is known. -/
def enter? (files : Files) (steps : List String) (step : String) : Option Folder :=
  let entered := steps ++ [step]
  if files.any fun (other, _) => entered.isPrefixOf other && entered != other then
    some (.known entered)
  else if steps = [""] ∧ step ∈ Folder.rootNames then some .unknown
  else none

/-- The text at the end of the remaining steps. Empty steps and single dots stay in the folder they
are taken from, and two dots go back; all others go on by a name of at most 255 bytes. -/
def follow (files : Files) : Folder → List String → Except FileFault String
  | _, [] => .error .isDirectory
  | folder, step :: rest =>
    if step = "" ∨ step = "." then follow files folder rest
    else if step = ".." then follow files folder.parent rest
    else if 255 < step.utf8ByteSize then .error .nameTooLong
    else
      match folder with
      | .unknown => .error .missing
      | .known steps =>
        match files.lookup (steps ++ [step]) with
        | some text => if rest.isEmpty then .ok text else .error .notDirectory
        | none =>
          match files.enter? steps step with
          | some folder => follow files folder rest
          | none => .error .missing

end Files

namespace Directory

/-- The number of bytes from which on a path is refused. -/
def pathLimit : Nat := 4096

/-- The null device, which is always there and reads as the empty text. -/
def nullDevice : String × String := ("/dev/null", "")

/-- The directory that holds just the given files. -/
def ofFiles (files : List (String × String)) : Directory := fun path =>
  let files : Files := (nullDevice :: files).map fun (name, text) => (pathSteps name, text)
  if path.isEmpty then .error .missing
  else if pathLimit ≤ path.utf8ByteSize then .error .nameTooLong
  else
    match pathSteps path with
    | "" :: rest => files.follow .root rest
    | steps => files.follow (.known []) steps

end Directory

end Synthesis.CommandLine
