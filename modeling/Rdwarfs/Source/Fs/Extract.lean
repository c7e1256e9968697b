import Rdwarfs.Source.Fs.Walk
import Rdwarfs.Lib.UnixPath

/-!
# Where an entry is extracted

fs/extract.rs:439-453 on Unix, where a path is any byte string. Directories, files, symlinks and
hard links are all created at the path computed here. Other systems are not modelled.
-/
namespace Rdwarfs.Source.Fs

open Lib.UnixPath

/-- `rel.strip_prefix(b"/").unwrap_or(rel)` -/
def stripSlash (rel : Bytes) : Bytes :=
  match rel with
  | [] => []
  | byte :: rest => if byte = slash then rest else rel

def resolvePath (dest : Path) (rel : Bytes) : Path :=
  if rel = [] then dest else push dest (stripSlash rel)

end Rdwarfs.Source.Fs
