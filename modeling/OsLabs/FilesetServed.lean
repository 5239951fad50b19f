import OsLabs.FilesetIndex

/-!
# The files of a set are served

The programs of the web server together: `fileset` makes some files and their index, the client
reads the index and asks for one of the files, and compares what the server sends with the
checksum and the length of the index.
-/

namespace OsLabs
namespace FilesetServed

open RioModel DecimalText ErrorPages WebExchange FilesetIndex
open Bytes hiding CString
open ResponseModel hiding scanLine
open CacheModel (FileName)
open RequestModel (CString RequestError requestReadfile requestParseURI isspace maxLine strrchr)

/-! ### The names of the files -/

variable {dir : CString} {m : Made} {filename : FileName} {nr : ℕ}

variable {f : CString × Contents}

end FilesetServed
end OsLabs
