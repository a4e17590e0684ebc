import Sidecar.Record.Reader
import Sidecar.Text.Shown

/-! How the problems of reading a record are told. -/

namespace Sidecar

def FoundJson.describe : FoundJson → String
  | .null => "null"
  | .boolean b => "boolean `" ++ toString b ++ "`"
  | .number described => described
  | .text s => "string " ++ Text.shown s
  | .sequence => "sequence"
  | .map => "map"

def ReadError.message : ReadError → String
  | .notJson => "not JSON"
  | .invalidType found expected =>
    "invalid type: " ++ found.describe ++ ", expected " ++ expected
  | .invalidValue found expected =>
    "invalid value: " ++ found.describe ++ ", expected " ++ expected
  | .invalidLength length expected =>
    "invalid length " ++ toString length ++ ", expected " ++ expected
  | .missingField name => "missing field `" ++ name ++ "`"
  | .duplicateField name => "duplicate field `" ++ name ++ "`"
  | .unknownDomain name => "unknown variant `" ++ name ++ "`, expected `tax` or `labor`"

end Sidecar
