import Termesh.Core.Ids
import Termesh.Core.Path

/-!
# Filesystem vocabulary

What the model exchanges with the filesystem worker. A file's contents are its characters, `none`
when its bytes are not UTF-8. Requests for directory listings are the explorer's own; previews belong
to the search overlay and are left out.
-/

namespace Termesh

/-- Correlates a path resolution with the jump waiting for it. -/
structure LocationRequestId where
  val : ℕ
deriving DecidableEq, Repr

/-- What a directory entry is; links are not followed. -/
inductive EntryKind where
  | dir
  | file
  | symlink
deriving DecidableEq, Repr

/-- One entry of a directory listing. -/
structure DirEntryInfo where
  name : String
  path : Path
  kind : EntryKind
deriving DecidableEq, Repr

inductive FsError where
  | notFound (path : Path)
  | permissionDenied (path : Path)
  | notADirectory (path : Path)
  | alreadyExists (path : Path)
  | other (path : Path) (message : String)
deriving DecidableEq, Repr

/-- The failure as it is shown. -/
def FsError.toString : FsError → String
  | notFound p => "not found: " ++ p.display
  | permissionDenied p => "permission denied: " ++ p.display
  | notADirectory p => "not a directory: " ++ p.display
  | alreadyExists p => "already exists: " ++ p.display
  | other p message => p.display ++ ": " ++ message

/-- Work sent to the filesystem worker. -/
inductive FsRequest where
  | readFile (buffer : BufferId) (path : Path)
  | resolvePath (request : LocationRequestId) (path : Path)
  | writeFile (buffer : BufferId) (path : Path) (contents : List Char) (version : ℕ)
  | watch (root : Path)
  | createFile (path : Path)
  | createDir (path : Path)
  | rename (source target : Path)
  | remove (path : Path) (recursive : Bool)
  | shutdown
deriving DecidableEq, Repr

/-- Results sent back from the filesystem worker. -/
inductive FsEvent where
  | changed (paths : List Path)
  | mutationFailed (error : FsError)
  | fileLoaded (buffer : BufferId) (path : Path) (contents : Option (List Char))
  | fileSaved (buffer : BufferId) (version : ℕ)
  | fileFailed (buffer : BufferId) (error : FsError)
  | pathResolved (request : LocationRequestId) (path : Path)
  | pathResolveFailed (request : LocationRequestId) (path : Path) (error : FsError)
deriving DecidableEq, Repr

end Termesh
