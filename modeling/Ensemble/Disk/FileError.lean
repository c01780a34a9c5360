/-!
# Why a file operation fails

The kinds of failure that the operations of a disk answer with, and a free text for failures that
come from elsewhere.
-/

namespace Ensemble

/-- Why a file operation failed. -/
inductive FileError
  | notFound
  | alreadyExists
  | notADirectory
  | isADirectory
  | directoryNotEmpty
  | resourceBusy
  /-- A directory would come to lie in itself. -/
  | invalidInput
  /-- A name or a path is too long. -/
  | invalidName
  /-- A file that should be text is not UTF-8. -/
  | invalidData
  /-- A path holds the character with the code 0. -/
  | nulInPath
  | other (text : String)
deriving DecidableEq, Repr

def FileError.message : FileError → String
  | .notFound => "NotFound"
  | .alreadyExists => "AlreadyExists"
  | .notADirectory => "NotADirectory"
  | .isADirectory => "IsADirectory"
  | .directoryNotEmpty => "DirectoryNotEmpty"
  | .resourceBusy => "ResourceBusy"
  | .invalidInput => "InvalidInput"
  | .invalidName => "InvalidFilename"
  | .invalidData => "InvalidData"
  | .nulInPath => "file name contained an unexpected NUL byte"
  | .other text => text

end Ensemble
