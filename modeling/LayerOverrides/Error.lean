import LayerOverrides.FileTree.Walk
import LayerOverrides.Setting.Set
/-!
# Errors

Everything that can go wrong, by its cause, and the message for each cause. Three classes of errors
are told apart: a document that is none of ours, a text that is no document at all, and a file or
directory that cannot be used.
-/

namespace LayerOverrides

inductive Error where
  | fileRead (path : Path) (cause : OsError)
  | fileWrite (path : Path) (cause : OsError)
  | directoryCreate (path : Path) (cause : OsError)
  | directoryRead (path : Path) (cause : OsError)
  | parse
  | notAConfiguration (path : Path)
  | invalidVersion (text : String)
  | invalidSettingValue (mismatch : Setting.Mismatch)
  | noSaveLocation
  | noFileName (path : Path)
  deriving DecidableEq

namespace Error

def message : Error → String
  | .fileRead p e => "Failed to read file '" ++ p.toText ++ "': " ++ e.message
  | .fileWrite p e => "Failed to write file '" ++ p.toText ++ "': " ++ e.message
  | .directoryCreate p e => "Failed to create directory '" ++ p.toText ++ "': " ++ e.message
  | .directoryRead p e => "Failed to read directory '" ++ p.toText ++ "': " ++ e.message
  | .parse => "Failed to parse document"
  | .notAConfiguration p => "Not a configuration file: " ++ p.toText
  | .invalidVersion s => "Invalid version string: " ++ s
  | .invalidSettingValue m =>
    "Invalid setting value for " ++ m.key ++ ": expected " ++ m.expected.token ++ ", got " ++
      m.given.token
  | .noSaveLocation => "Configuration error: No configuration save location"
  | .noFileName p =>
    "Configuration error: Invalid path '" ++ p.toText ++ "': must have a filename"

/-- The document is well-formed but no configuration. -/
def isNotApplicable : Error → Bool
  | .notAConfiguration _ => true
  | _ => false

def isMalformed : Error → Bool
  | .parse => true
  | _ => false

def isFileError : Error → Bool
  | .fileRead _ _ => true
  | .fileWrite _ _ => true
  | .directoryCreate _ _ => true
  | .directoryRead _ _ => true
  | _ => false

end Error

end LayerOverrides
