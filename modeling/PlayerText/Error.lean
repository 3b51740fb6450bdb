/-!
# What can go wrong

Formatting never fails; reading names, files and JSON text does. Each error is its cause, and
`Error.message` gives the wording that a user sees.

* `IoError.text`, `Error.message`: the wording of each cause.
-/

namespace PlayerText

/-- Why the file system refused. -/
inductive IoError where
  /-- A file or a directory on the way to it is missing. -/
  | notFound
  /-- Something else already has the name. -/
  | alreadyExists
  /-- A file stands where a directory is needed. -/
  | notADirectory
  /-- A directory stands where a file is needed. -/
  | isADirectory
  /-- A part of the path has more than 255 bytes, or the path more than 4095. -/
  | nameTooLong
  /-- The file's bytes are not UTF-8. -/
  | invalidText
  /-- The path holds the character U+0000. -/
  | nulInPath
  deriving DecidableEq, Repr

/-- The system's own words. -/
def IoError.text : IoError → String
  | .notFound => "No such file or directory (os error 2)"
  | .alreadyExists => "File exists (os error 17)"
  | .notADirectory => "Not a directory (os error 20)"
  | .isADirectory => "Is a directory (os error 21)"
  | .nameTooLong => "File name too long (os error 36)"
  | .invalidText => "stream did not contain valid UTF-8"
  | .nulInPath => "file name contained an unexpected NUL byte"

/-- Why a JSON text was refused: the first fault met from left to right. -/
inductive JsonFault where
  /-- The text is not JSON from some character on, or a number is out of range. -/
  | malformed
  /-- The text ends inside a value. -/
  | truncated
  /-- JSON so far, but not a value of the type that is read. -/
  | mismatched
  deriving DecidableEq, Repr

/-- The fault in a few words. -/
def JsonFault.text : JsonFault → String
  | .malformed => "malformed text"
  | .truncated => "unexpected end of text"
  | .mismatched => "unexpected value"

/-- What an operation of the library can fail with. -/
inductive Error where
  /-- No variant of the enumeration has this name; the text is kept as it was given. -/
  | invalidValue (text : String)
  /-- A file could not be read or written. -/
  | io (cause : IoError)
  /-- A file does not hold a configuration. -/
  | json (fault : JsonFault)
  /-- Neither a configuration directory nor a home directory is known. -/
  | noConfigDirectory
  deriving DecidableEq, Repr

/-- The message for the user. -/
def Error.message : Error → String
  | .invalidValue text => "无效的取值: '" ++ text ++ "'"
  | .io cause => "I/O 错误: " ++ cause.text
  | .json fault => "JSON 解析失败: " ++ fault.text
  | .noConfigDirectory => "无法找到用户配置目录"

end PlayerText
