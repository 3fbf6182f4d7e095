import McpCatalog.Numeral
import McpCatalog.Settings.Basic
/-!
# Why settings are refused

Settings can fail to be read, to be understood, or to be in bounds. Each cause has a
constructor, and one function has all the wordings.
-/
namespace McpCatalog.Settings

/-- Why there are no settings.
mirrors config/config:287-297 -/
inductive Error where
  /-- The file with the settings cannot be read. -/
  | unreadable
  /-- The file with the settings is not in its format or holds what is no setting. -/
  | unparsable
  | longPath
  | longPathComponent
  | largeFile
  | notUtf8
  | malformed (segment : String)
  | emptyKey (segment : String)
  | duplicateKey (key : String)
  | unknownKey (key : String)
  | notANumber (text : String)
  | unknownFormat (text : String)
  | unknownDiagnostics (text : String)
  | fault (f : Fault)
  deriving DecidableEq

def Fault.message : Fault → String
  | nameLimitOutOfRange =>
    "max_tool_name_len must be between " ++ Numeral.decimal minNameLimit ++ " and "
      ++ Numeral.decimal maxNameLimit
  | emptySuffix => "suffix must be non-empty"
  | longSuffix => "suffix exceeds max length"
  | separatorInSuffix => "suffix must not contain path separators"
  | blankDiagnosticsFile => "diagnostics_file must be non-empty"
  | longDiagnosticsFile => "diagnostics_file exceeds max length"
  | longDiagnosticsFileComponent => "diagnostics_file path component too long"

namespace Error

/-- What is wrong, for the errors that say so. -/
def detail : Error → String
  | unreadable | unparsable => ""
  | longPath => "config path exceeds max length"
  | longPathComponent => "config path component too long"
  | largeFile => "config file exceeds size limit"
  | notUtf8 => "config file must be utf-8"
  | malformed segment => "malformed parameter " ++ segment ++ "; expected key=value"
  | emptyKey segment => "parameter " ++ segment ++ " has an empty key"
  | duplicateKey key => "duplicate parameter key " ++ key
  | unknownKey key => "unknown parameter key " ++ key
  | notANumber text =>
    "max_tool_name_len must be a non-negative integer (got " ++ text ++ ")"
  | unknownFormat text => "format must be one of json, rust (got " ++ text ++ ")"
  | unknownDiagnostics text =>
    "diagnostics must be one of stderr, verbose, off (got " ++ text ++ ")"
  | fault f => f.message

def message : Error → String
  | unreadable => "config io error"
  | unparsable => "config parse error"
  | e => "invalid config: " ++ e.detail

end Error
end McpCatalog.Settings
